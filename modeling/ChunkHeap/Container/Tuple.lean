import ChunkHeap.Container.Position
import ChunkHeap.Machine

/-!
# Tuples

A fixed sequence of references in one chunk.
-/

namespace ChunkHeap
set_option autoImplicit false

open HeapM

namespace TupleObject

/-- A tuple of the given elements. -/
def new (items : List Handle) : HeapM Handle :=
  allocate (.tuple items)

end TupleObject

namespace Heap

/-- The number of elements of a tuple. -/
def tupleLength (h : Heap) (x : Handle) : Except Error Nat :=
  (h.tupleItems x).map List.length

/-- The element of a tuple that an index names. -/
def tupleElement (h : Heap) (x : Handle) (index : Int) : Except Error Handle := do
  let items ← h.tupleItems x
  match (Position.element? index items.length).bind (items[·]?) with
  | some item => return item
  | none => throw .tupleRange

end Heap

end ChunkHeap
