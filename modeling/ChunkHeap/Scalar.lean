import ChunkHeap.Machine

/-!
# Integers, strings, tuples and functions

Objects that take one chunk and never change. The integers -1, 0 and 1 are the
heap's constants and take no chunk of their own.
-/

namespace ChunkHeap
set_option autoImplicit false

open HeapM

namespace IntObject

/-- An integer object. -/
def new (value : Int32) : HeapM Handle := do
  let h ← heap
  match h.intConstant? value with
  | some x => return x
  | none => allocate (.int value)

end IntObject

namespace StrObject

/-- A string object. -/
def new (text : String) : HeapM Handle :=
  allocate (.str text)

end StrObject

namespace FunctionObject

/-- A function, named by a string object. -/
def new (name : Handle) (body : Body) : HeapM Handle := do
  inspect fun h => h.expectTag name .str
  allocate (.function { name, body })

end FunctionObject

namespace MethodObject

/-- A function bound to the object it will be called on. -/
def new (func receiver : Handle) : HeapM Handle :=
  allocate (.method { func, receiver })

end MethodObject

/-- The function behind a method, and its arguments with the receiver first. -/
def Heap.methodCall (h : Heap) (method : Handle) (args : List Handle) :
    Except Error (Handle × List Handle) := do
  let r ← h.methodRecord method
  return (r.func, r.receiver :: args)

end ChunkHeap
