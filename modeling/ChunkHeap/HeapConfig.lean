import ChunkHeap.Error
import ChunkHeap.Payload

/-!
# Heap settings

The byte budget of an arena, the largest chunk one object may take, and whether
an allocation that does not fit runs a collection first.
-/

namespace ChunkHeap
set_option autoImplicit false

/-- How large a heap is and how it behaves when it is full. -/
structure HeapConfig where
  arenaBytes : Nat := 8192
  maxChunkBytes : Nat := 512
  collectOnExhaustion : Bool := true
deriving DecidableEq

namespace HeapConfig

/-- A heap of `bytes` bytes, with a chunk limit that fits into it. -/
def withArenaBytes (bytes : Nat) : HeapConfig :=
  { arenaBytes := bytes, maxChunkBytes := min 512 bytes }

/-- Refuses an empty arena, and a chunk limit below the smallest chunk or above the arena. -/
def validate (c : HeapConfig) : Except Error Unit :=
  if c.arenaBytes = 0 then .error .arenaEmpty
  else if c.maxChunkBytes < Chunk.minimum then .error .chunkLimitTooSmall
  else if c.arenaBytes < c.maxChunkBytes then .error .chunkLimitTooLarge
  else .ok ()

/-- A heap admits at least the smallest chunk, and no chunk larger than itself. -/
theorem validate_eq_ok_iff (c : HeapConfig) :
    c.validate = .ok () ↔ Chunk.minimum ≤ c.maxChunkBytes ∧ c.maxChunkBytes ≤ c.arenaBytes := by
  have smallest : Chunk.minimum = 8 := rfl
  unfold validate
  split
  · simp
    omega
  · split
    · simp
      omega
    · split
      · simp
        omega
      · simp
        omega

end HeapConfig

end ChunkHeap
