import ChunkHeap.Device.Sink
import ChunkHeap.Device.Ticks

/-!
# Loopback device

A device in memory, together with the peer that feeds and inspects it. The peer
queues bytes and receive faults; the device hands them out in order. Bytes sent
pile up until the peer takes them.
-/

namespace ChunkHeap
set_option autoImplicit false

/-- What the device will receive next: a byte, or a transfer fault. -/
inductive Incoming where
  | byte (b : UInt8)
  | fault
deriving DecidableEq

/-- A loopback device and its peer's view of it. -/
structure Loopback where
  incoming : List Incoming := []
  sent : Array UInt8 := #[]
  reported : List ErrorKind := []
  initialized : Bool := false
  ticks : TickCounter := {}
deriving DecidableEq

namespace Loopback

/-- Bring the device up. -/
def init (d : Loopback) : Loopback :=
  { d with initialized := true }

/-- Queue bytes for the device to receive. -/
def feed (d : Loopback) (bytes : List UInt8) : Loopback :=
  { d with incoming := d.incoming ++ bytes.map .byte }

/-- Queue a receive fault behind what is queued already. -/
def injectFault (d : Loopback) : Loopback :=
  { d with incoming := d.incoming ++ [.fault] }

/-- Receive the next byte; a fault is consumed like a byte. -/
def receive (d : Loopback) : Except Error UInt8 × Loopback :=
  match d.incoming with
  | [] => (.error .receiveEmpty, d)
  | .byte b :: rest => (.ok b, { d with incoming := rest })
  | .fault :: rest => (.error .framing, { d with incoming := rest })

/-- Take the bytes sent so far. -/
def takeSent (d : Loopback) : Array UInt8 × Loopback :=
  (d.sent, { d with sent := #[] })

/-- Note an error on the device's diagnostic output. -/
def report (d : Loopback) (kind : ErrorKind) : Loopback :=
  { d with reported := d.reported ++ [kind] }

/-- Let the device's clock run for `usec` microseconds. -/
def advance (d : Loopback) (usec : UInt32) : Loopback :=
  { d with ticks := d.ticks.periodic usec }

/-- The device as a byte sink; it accepts every byte. -/
def sink : ByteSink Loopback where
  send b d := (.ok (), { d with sent := d.sent.push b })

end Loopback

end ChunkHeap
