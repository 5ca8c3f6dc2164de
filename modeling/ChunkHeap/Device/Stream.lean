import ChunkHeap.Device.Sink

/-!
# Stream device

A device over an input and an output stream. Receiving past the end of the input
is an error, and everything sent goes to the output.
-/

namespace ChunkHeap
set_option autoImplicit false

/-- The bytes still to be received, the bytes sent, and the milliseconds since
the device was brought up. -/
structure Stream where
  input : List UInt8 := []
  output : Array UInt8 := #[]
  elapsed : Nat := 0

namespace Stream

/-- Bring the device up; its clock starts anew. -/
def init (d : Stream) : Stream :=
  { d with elapsed := 0 }

/-- Receive the next byte of the input. -/
def receive (d : Stream) : Except Error UInt8 × Stream :=
  match d.input with
  | [] => (.error .endOfInput, d)
  | b :: rest => (.ok b, { d with input := rest })

/-- The device as a byte sink. -/
def sink : ByteSink Stream where
  send b d := (.ok (), { d with output := d.output.push b })

/-- Milliseconds since the device was brought up, as a 32-bit word. -/
def tickCount (d : Stream) : UInt32 :=
  UInt32.ofNat d.elapsed

end Stream

end ChunkHeap
