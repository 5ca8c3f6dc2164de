import ChunkHeap.Tag

/-!
# Objects and their chunks

A `Handle` names a slot of the arena; a `Payload` is what an object holds. All
edges between objects are handles, listed in order by `Payload.children`.

An object occupies one chunk. Chunk sizes follow a small target machine: two
bytes for a descriptor, a reference or a length, four for an integer, rounded up
to a multiple of four and at least eight. A segment is charged for its full
capacity, so filling it never changes its size.
-/

namespace ChunkHeap
set_option autoImplicit false

/-- The name of a slot. -/
structure Handle where
  slot : Nat
deriving DecidableEq, Inhabited

theorem Handle.slot_injective {x y : Handle} (same : x.slot = y.slot) : x = y := by
  cases x
  cases y
  exact congrArg Handle.mk same

namespace Chunk

/-- Bytes of an object descriptor. -/
def descriptorBytes : Nat := 2

/-- Bytes of a reference. -/
def referenceBytes : Nat := 2

/-- Bytes of a length field. -/
def lengthBytes : Nat := 2

/-- Bytes of an integer. -/
def integerBytes : Nat := 4

/-- Chunk sizes are multiples of this. -/
def granule : Nat := 4

/-- No chunk is smaller than this. -/
def minimum : Nat := 8

/-- The chunk that holds `bytes` bytes, descriptor included. -/
def sizeFor (bytes : Nat) : Nat :=
  max minimum ((bytes + (granule - 1)) / granule * granule)

theorem minimum_le_sizeFor (bytes : Nat) : minimum ≤ sizeFor bytes :=
  Nat.le_max_left _ _

theorem le_sizeFor (bytes : Nat) : bytes ≤ sizeFor bytes := by
  simp only [sizeFor, minimum, granule]
  omega

theorem sizeFor_mono {few many : Nat} (le : few ≤ many) : sizeFor few ≤ sizeFor many := by
  simp only [sizeFor, minimum, granule]
  omega

theorem granule_dvd_sizeFor (bytes : Nat) : granule ∣ sizeFor bytes := by
  simp only [sizeFor, minimum, granule]
  omega

end Chunk

/-- References held by one segment of a segmented list. -/
def segmentCapacity : Nat := 8

/-- A list: its length beside the segmented list that holds the elements. -/
structure ListRecord where
  length : Nat
  storage : Handle
deriving DecidableEq

/-- An attribute table: keys and values in two segmented lists, position by position. -/
structure DictRecord where
  length : Nat
  keys : Handle
  vals : Handle
deriving DecidableEq

/-- How the body of a function is run. -/
inductive Body where
  /-- A code object, run by a bytecode loop. -/
  | bytecode (id : UInt16)
  /-- An entry of the native function table. -/
  | native (index : UInt16)
deriving DecidableEq

/-- A function: its name, a string object, and its body. -/
structure FunctionRecord where
  name : Handle
  body : Body
deriving DecidableEq

/-- A class or an instance: a name, an attribute table and a tuple of bases. -/
structure ClassRecord where
  name : Handle
  attrs : Handle
  bases : Handle
deriving DecidableEq

/-- A function bound to the object it is called on. -/
structure MethodRecord where
  func : Handle
  receiver : Handle
deriving DecidableEq

/-- A slice: each bound is an integer object or absent. -/
structure SliceRecord where
  start : Option Handle
  stop : Option Handle
  step : Option Handle
deriving DecidableEq

/-- The head of a segmented list. The cursor remembers the segment, and its
number in the chain, that the latest access by position came to. -/
structure SegListRecord where
  head : Option Handle := none
  tail : Option Handle := none
  length : Nat := 0
  cursor : Option (Nat × Handle) := none
deriving DecidableEq

/-- One block of a segmented list. -/
structure SegmentRecord where
  items : List Handle := []
  next : Option Handle := none
deriving DecidableEq

/-- What an object holds. -/
inductive Payload where
  | none
  | int (value : Int32)
  | str (text : String)
  | tuple (items : List Handle)
  | list (record : ListRecord)
  | dict (record : DictRecord)
  | function (record : FunctionRecord)
  | cls (record : ClassRecord)
  | inst (record : ClassRecord)
  | method (record : MethodRecord)
  | slice (record : SliceRecord)
  | seglist (record : SegListRecord)
  | segment (record : SegmentRecord)
deriving DecidableEq

namespace Payload

/-- The tag that fits a payload. -/
def tag : Payload → Tag
  | none => .none
  | int _ => .int
  | str _ => .str
  | tuple _ => .tuple
  | list _ => .list
  | dict _ => .dict
  | function _ => .function
  | cls _ => .cls
  | inst _ => .inst
  | method _ => .method
  | slice _ => .slice
  | seglist _ => .seglist
  | segment _ => .segment

/-- The bytes a payload takes, descriptor aside. -/
def bytes : Payload → Nat
  | none => 0
  | int _ => Chunk.integerBytes
  | str text => Chunk.lengthBytes + text.utf8ByteSize
  | tuple items => Chunk.lengthBytes + items.length * Chunk.referenceBytes
  | list _ => Chunk.lengthBytes + Chunk.referenceBytes
  | dict _ | seglist _ => Chunk.lengthBytes + 2 * Chunk.referenceBytes
  | function _ => Chunk.referenceBytes + 2
  | cls _ | inst _ | slice _ => 3 * Chunk.referenceBytes
  | method _ => 2 * Chunk.referenceBytes
  | segment _ => (segmentCapacity + 1) * Chunk.referenceBytes

/-- The chunk an object with this payload is charged for. -/
def chunkBytes (p : Payload) : Nat :=
  Chunk.sizeFor (Chunk.descriptorBytes + p.bytes)

/-- The edges out of an object, in order. A segmented list leads to its first
segment only; the others follow from there. -/
def children : Payload → List Handle
  | none | int _ | str _ => []
  | tuple items => items
  | list r => [r.storage]
  | dict r => [r.keys, r.vals]
  | function r => [r.name]
  | cls r | inst r => [r.name, r.attrs, r.bases]
  | method r => [r.func, r.receiver]
  | slice r => r.start.toList ++ r.stop.toList ++ r.step.toList
  | seglist r => r.head.toList
  | segment r => r.items ++ r.next.toList

theorem minimum_le_chunkBytes (p : Payload) : Chunk.minimum ≤ p.chunkBytes :=
  Chunk.minimum_le_sizeFor _

theorem granule_dvd_chunkBytes (p : Payload) : Chunk.granule ∣ p.chunkBytes :=
  Chunk.granule_dvd_sizeFor _

theorem chunkBytes_segment (r : SegmentRecord) : (segment r).chunkBytes = 20 := by
  simp [chunkBytes, bytes, segmentCapacity, Chunk.sizeFor, Chunk.descriptorBytes,
    Chunk.referenceBytes, Chunk.granule, Chunk.minimum]

theorem chunkBytes_seglist (r : SegListRecord) : (seglist r).chunkBytes = 8 := by
  simp [chunkBytes, bytes, Chunk.sizeFor, Chunk.descriptorBytes, Chunk.lengthBytes,
    Chunk.referenceBytes, Chunk.granule, Chunk.minimum]

end Payload

end ChunkHeap
