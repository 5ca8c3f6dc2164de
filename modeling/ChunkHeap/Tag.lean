/-!
# Type tags

Every object on the heap carries one of thirteen tags. A tag has one printed
name, and `Tag.ofName?` reads exactly those names back (`ofName?_name`).
-/

namespace ChunkHeap
set_option autoImplicit false

/-- The kinds of object a heap can hold. -/
inductive Tag where
  | none
  | int
  | str
  | tuple
  | list
  | dict
  | function
  | cls
  | inst
  | method
  | slice
  | seglist
  | segment
deriving DecidableEq

namespace Tag

/-- The tag's name, as error messages and log events spell it. -/
def name : Tag → String
  | none => "NoneType"
  | int => "int"
  | str => "str"
  | tuple => "tuple"
  | list => "list"
  | dict => "dict"
  | function => "function"
  | cls => "class"
  | inst => "instance"
  | method => "method"
  | slice => "slice"
  | seglist => "seglist"
  | segment => "segment"

/-- Every tag, once. -/
def all : List Tag :=
  [none, int, str, tuple, list, dict, function, cls, inst, method, slice, seglist, segment]

theorem mem_all (t : Tag) : t ∈ all := by
  cases t <;> decide

/-- The tag with the given name. -/
def ofName? (s : String) : Option Tag :=
  all.find? (fun t => t.name = s)

theorem ofName?_name (t : Tag) : ofName? t.name = some t := by
  cases t <;> decide

end Tag

end ChunkHeap
