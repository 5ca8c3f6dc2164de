import ChunkHeap.Error

/-!
# Byte sinks

A sink takes one byte at a time and may refuse it. Text is sent as its UTF-8
bytes, in order, up to the first refusal. A sink's state is there also after a
refusal, so what was sent before it is not lost.
-/

namespace ChunkHeap
set_option autoImplicit false

/-- Something that bytes can be sent to. -/
structure ByteSink (σ : Type) where
  send : UInt8 → σ → Except Error Unit × σ

/-- Writing to a sink with state `σ`. -/
def SinkM (σ α : Type) : Type :=
  σ → Except Error α × σ

namespace SinkM

variable {σ α β : Type}

/-- Run a writing action. -/
def run (w : SinkM σ α) (s : σ) : Except Error α × σ :=
  w s

instance : Monad (SinkM σ) where
  pure a := fun s => (.ok a, s)
  bind w f := fun s =>
    match w s with
    | (.ok a, s') => f a s'
    | (.error e, s') => (.error e, s')

/-- A computation that neither writes nor looks at the sink. -/
def ofExcept (r : Except Error α) : SinkM σ α :=
  fun s => (r, s)

@[simp] theorem run_pure (a : α) (s : σ) : (pure a : SinkM σ α).run s = (.ok a, s) := rfl

@[simp] theorem run_ofExcept (r : Except Error α) (s : σ) : (ofExcept r : SinkM σ α).run s = (r, s) := rfl

theorem run_bind (w : SinkM σ α) (f : α → SinkM σ β) (s : σ) :
    (w >>= f).run s =
      match w.run s with
      | (.ok a, s') => (f a).run s'
      | (.error e, s') => (.error e, s') := rfl

theorem run_bind_ok {w : SinkM σ α} {f : α → SinkM σ β} {s s' : σ} {a : α} (h : w.run s = (.ok a, s')) :
    (w >>= f).run s = (f a).run s' := by
  rw [run_bind, h]

theorem run_bind_error {w : SinkM σ α} {f : α → SinkM σ β} {s s' : σ} {e : Error} (h : w.run s = (.error e, s')) :
    (w >>= f).run s = (.error e, s') := by
  rw [run_bind, h]

/-- A reading that succeeds does not touch the sink. -/
theorem ofExcept_bind (a : α) (f : α → SinkM σ β) : ofExcept (.ok a) >>= f = f a := rfl

instance lawful : LawfulMonad (SinkM σ) :=
  LawfulMonad.mk' (SinkM σ)
    (fun w => funext fun s => by
      show (match w s with
        | (.ok a, s') => ((.ok a, s') : Except Error _ × σ)
        | (.error e, s') => (.error e, s')) = w s
      rcases w s with ⟨_ | _, _⟩ <;> rfl)
    (fun _ _ => rfl)
    (fun w f g => funext fun s => by
      rw [show (w >>= f >>= g) s = (w >>= f >>= g).run s from rfl,
        show (w >>= fun a => f a >>= g) s = (w >>= fun a => f a >>= g).run s from rfl]
      simp only [run_bind]
      rcases w.run s with ⟨_ | _, _⟩ <;> rfl)

end SinkM

namespace ByteSink

variable {σ : Type}

/-- Send bytes, in order, up to the first refusal. -/
def sendAll (sink : ByteSink σ) : List UInt8 → SinkM σ Unit
  | [] => pure ()
  | b :: bs => do
    sink.send b
    sink.sendAll bs

/-- Send the UTF-8 bytes of a text. -/
def write (sink : ByteSink σ) (text : String) : SinkM σ Unit :=
  sink.sendAll text.toUTF8.toList

/-- Keeps everything that is sent. -/
def buffer : ByteSink (Array UInt8) where
  send b bytes := (.ok (), bytes.push b)

/-- Passes on the number of bytes it is started with, then refuses with `e`. -/
def limited (e : Error) (sink : ByteSink σ) : ByteSink (Nat × σ) where
  send b
    | (0, s) => (.error e, (0, s))
    | (n + 1, s) =>
      match sink.send b s with
      | (r, s') => (r, (n, s'))

end ByteSink

end ChunkHeap
