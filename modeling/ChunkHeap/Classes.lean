import ChunkHeap.Container.Dict
import ChunkHeap.Container.Tuple
import ChunkHeap.Native

/-!
# Classes and instances

A class has a name, an attribute table and a tuple of bases. An instance shares
its class's name and bases and has a table of its own: the members of the class,
in order, with functions bound to the instance. Making an instance ends by
calling its `__init__`, if there is one.

The instance is kept from its allocation until it is handed out or its making
fails, so `__init__` may collect. Attribute lookup searches an object's own
table, then each base in order, depth first. A chain of bases without repetition
is no longer than the arena has slots, which bounds the search.
-/

namespace ChunkHeap
set_option autoImplicit false

open HeapM

namespace ClassObject

/-- A class from its name, attribute table and bases. -/
def new (name attrs bases : Handle) : HeapM Handle := do
  inspect fun h => h.expectTag name .str
  inspect fun h => h.expectTag attrs .dict
  inspect fun h => h.expectTag bases .tuple
  allocate (.cls { name, attrs, bases })

/-- Give an instance its attribute table. -/
def setAttrs (obj attrs : Handle) : HeapM Unit := do
  match ← inspect fun h => h.payload obj with
  | .inst r => modify fun h => h.setPayload obj (.inst { r with attrs := attrs })
  | _ => return ()

/-- A class member as the instance has it: a function becomes a method. -/
def bindMember (obj value : Handle) : HeapM Handle := do
  if (← inspect fun h => h.tagOf value) = .function then
    MethodObject.new value obj
  else
    return value

/-- Copy `count` entries of a class table, from position `i` on, to an instance. -/
def copyMembers (template attrs obj : Handle) : (count i : Nat) → HeapM Unit
  | 0, _ => return ()
  | count + 1, i => do
    let (key, value) ← DictObject.entry template i
    let member ← bindMember obj value
    DictObject.set attrs key member
    copyMembers template attrs obj count (i + 1)

/-- Call `__init__`, if a table has it. -/
def runInit (call : Interpreter) (attrs : Handle) : HeapM Unit := do
  match ← DictObject.lookupText attrs "__init__" with
  | none => return ()
  | some init =>
    if (← inspect fun h => h.tagOf init) = .method then
      let _ ← call init []
    else
      throw .initNotMethod

/-- An instance of the class with record `template`, and its table with all
members; its `__init__` has not run. -/
def assemble (template : ClassRecord) : HeapM (Handle × Handle) := do
  let obj ← allocate (.inst template)
  protect obj
  let attrs ← DictObject.new
  setAttrs obj attrs
  let count ← inspect fun h => h.dictLength template.attrs
  copyMembers template.attrs attrs obj count 0
  return (obj, attrs)

/-- Build an instance of the class with record `template`. -/
def build (call : Interpreter) (template : ClassRecord) : HeapM Handle := do
  let (obj, attrs) ← assemble template
  runInit call attrs
  return obj

/-- Make an instance of a class. -/
def instantiate (call : Interpreter) (cls : Handle) : HeapM Handle := do
  let template ← inspect fun h => h.templateRecord cls
  guarded do
    emit (.instantiating cls.slot)
    recover
      (do
        let obj ← build call template
        emit (.instanceReady obj.slot)
        return obj)
      fun e => do
        emit (.instantiationFailed cls.slot e)
        throw e

/-- The first result that `search` finds for the elements of a list, in order. -/
def firstFound (search : Handle → HeapM (Option Handle)) : List Handle → HeapM (Option Handle)
  | [] => return none
  | x :: xs => do
    match ← search x with
    | some found => return some found
    | none => firstFound search xs

/-- Look an attribute up in an object and its bases, at most `fuel` levels deep. -/
def lookupWithin (key : Handle) : (fuel : Nat) → Handle → HeapM (Option Handle)
  | 0, _ => return none
  | fuel + 1, x => do
    let r ← inspect fun h => h.classRecord x
    match ← DictObject.lookup r.attrs key with
    | some value => return some value
    | none =>
      let bases ← inspect fun h => h.tupleItems r.bases
      firstFound (lookupWithin key fuel) bases

/-- Look an attribute up in an object and its bases. -/
def lookup (x key : Handle) : HeapM (Option Handle) := do
  let h ← heap
  lookupWithin key h.arena.slots.size x

/-- An attribute that has to be there. -/
def get (x key : Handle) : HeapM Handle := do
  match ← lookup x key with
  | some value => return value
  | none => throw .attributeMissing

/-- Set an attribute in the object's own table. -/
def set (x key value : Handle) : HeapM Unit := do
  let r ← inspect fun h => h.classRecord x
  DictObject.set r.attrs key value

end ClassObject

end ChunkHeap
