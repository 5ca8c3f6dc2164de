/-!
# Millisecond ticks

A timer interrupt reports elapsed microseconds; the counter keeps whole
milliseconds and the microseconds left over. All arithmetic is on 32-bit words
and wraps.
-/

namespace ChunkHeap
set_option autoImplicit false

/-- Milliseconds counted so far, and microseconds short of the next one. -/
structure TickCounter where
  usec : UInt32 := 0
  ms : UInt32 := 0
deriving DecidableEq

namespace TickCounter

/-- Account for `usec` more microseconds. -/
def periodic (t : TickCounter) (usec : UInt32) : TickCounter :=
  let total := t.usec + usec
  { usec := total % 1000, ms := t.ms + total / 1000 }

/-- How far the millisecond count moves in one call of the timer interrupt. -/
def growth (t : TickCounter) (usec : UInt32) : UInt32 :=
  (t.periodic usec).ms - t.ms

end TickCounter

end ChunkHeap
