import ChunkHeap.Container.Tuple
import ChunkHeap.Printing
import ChunkHeap.Proofs.Bisimilarity

/-!
# What printing writes

Printing reads the heap and sends bytes, and never looks at the sink. So what it has
to say is fixed beforehand: some bytes, and how it ends once they are sent
(`Scripted`). All a sink decides is where this stops. On a device that takes `n`
bytes and refuses the next one, printing sends the first `n` bytes of what it would
write to a buffer, and no more (`Heap.print_sends_prefix`).

Printing and comparison see the same of an object. Objects that a comparison finds
the same are one object, or match in kind and value and hold objects found the same
in turn (`Heap.matches_of_same`); objects that match are written alike, level by
level (`Printing.value_of_matches`). This is so on any heap, with dangling elements
and containers in themselves.
-/

namespace ChunkHeap
set_option autoImplicit false

/-! ### Scripts -/

theorem ByteSink.sendAll_append {σ : Type} (sink : ByteSink σ) (bytes more : List UInt8) :
    sink.sendAll (bytes ++ more) = sink.sendAll bytes >>= fun _ => sink.sendAll more := by
  induction bytes with
  | nil => rfl
  | cons b bytes ih =>
    rw [List.cons_append, sendAll, ih]
    exact (bind_assoc (m := SinkM σ) (sink.send b) _ _).symm

/-- An action that sends the same bytes to every sink, in order and up to the first
refusal, and ends in the same way if all are taken. -/
def Scripted {α : Type} (act : (σ : Type) → ByteSink σ → SinkM σ α) : Prop :=
  ∃ bytes r, ∀ σ (sink : ByteSink σ), act σ sink = sink.sendAll bytes >>= fun _ => SinkM.ofExcept r

namespace Scripted

variable {α β : Type}

theorem ofExcept (r : Except Error α) : Scripted fun _ _ => SinkM.ofExcept r :=
  ⟨[], r, fun _ _ => rfl⟩

theorem pure (a : α) : Scripted fun _ _ => Pure.pure a :=
  ofExcept (.ok a)

theorem write (text : String) : Scripted fun _ sink => sink.write text :=
  ⟨text.toUTF8.toList, .ok (), fun _ sink => (bind_pure (sink.write text)).symm⟩

/-- The second script follows the first, unless that ends with an error. -/
theorem bind {act : (σ : Type) → ByteSink σ → SinkM σ α} {next : α → (σ : Type) → ByteSink σ → SinkM σ β}
    (first : Scripted act) (second : ∀ a, Scripted (next a)) :
    Scripted fun σ sink => act σ sink >>= fun a => next a σ sink := by
  obtain ⟨bytes, r, sent⟩ := first
  cases r with
  | error e =>
    refine ⟨bytes, .error e, fun σ sink => ?_⟩
    simp only [sent, bind_assoc]
    rfl
  | ok a =>
    obtain ⟨more, r', sent'⟩ := second a
    refine ⟨bytes ++ more, r', fun σ sink => ?_⟩
    simp only [sent, bind_assoc, SinkM.ofExcept_bind, sent', ByteSink.sendAll_append]

end Scripted

namespace Printing

variable {element : Handle → (σ : Type) → ByteSink σ → SinkM σ Unit}

theorem scripted_commaSeparated (each : ∀ x, Scripted (element x)) (xs : List Handle) :
    Scripted fun σ sink => commaSeparated sink (fun x => element x σ sink) xs := by
  induction xs with
  | nil => exact .pure ()
  | cons x rest ih =>
    cases rest with
    | nil => exact each x
    | cons y rest => exact (each x).bind fun _ => (Scripted.write ", ").bind fun _ => ih

theorem scripted_entries (each : ∀ x, Scripted (element x)) (E : List (Handle × Handle)) :
    Scripted fun σ sink => entries sink (fun x => element x σ sink) E := by
  have entry : ∀ k v, Scripted fun σ sink => entries.entry sink (fun x => element x σ sink) k v :=
    fun k v => (each k).bind fun _ => (Scripted.write ": ").bind fun _ => each v
  induction E with
  | nil => exact .pure ()
  | cons e rest ih =>
    cases rest with
    | nil => exact entry e.1 e.2
    | cons next rest => exact (entry e.1 e.2).bind fun _ => (Scripted.write ", ").bind fun _ => ih

theorem scripted_bound (each : ∀ x, Scripted (element x)) (x : Option Handle) :
    Scripted fun σ sink => bound (fun x => element x σ sink) x := by
  cases x with
  | none => exact .pure ()
  | some x => exact each x

/-- Some text around the name that is found in a string object. -/
theorem scripted_named (h : Heap) (before after : String) (name : Handle) :
    Scripted fun σ sink => (do
      sink.write before
      let text ← SinkM.ofExcept (h.strText name)
      sink.write text
      sink.write after : SinkM σ Unit) :=
  (Scripted.write before).bind fun _ => (Scripted.ofExcept (h.strText name)).bind fun text =>
    (Scripted.write text).bind fun _ => .write after

theorem scripted_node (h : Heap) (nested : Bool) (each : ∀ x, Scripted (element x)) (p : Payload) :
    Scripted fun σ sink => node h sink nested (fun x => element x σ sink) p := by
  cases p with
  | str s =>
    cases nested with
    | false => exact .write s
    | true => exact (Scripted.write "'").bind fun _ => (Scripted.write s).bind fun _ => .write "'"
  | tuple items =>
    exact (Scripted.write "(").bind fun _ => (scripted_commaSeparated each items).bind fun _ => .write _
  | list r =>
    refine (Scripted.ofExcept (h.segListItems r.storage)).bind fun items => ?_
    exact (Scripted.write "[").bind fun _ => (scripted_commaSeparated each items).bind fun _ => .write "]"
  | dict r =>
    refine (Scripted.ofExcept (h.segListItems r.keys)).bind fun keys => ?_
    refine (Scripted.ofExcept (h.segListItems r.vals)).bind fun vals => ?_
    exact (Scripted.write _).bind fun _ => (scripted_entries each (keys.zip vals)).bind fun _ => .write _
  | slice r =>
    refine (Scripted.write "[").bind fun _ => (scripted_bound each r.start).bind fun _ => ?_
    refine (Scripted.write ":").bind fun _ => (scripted_bound each r.stop).bind fun _ => ?_
    exact (Scripted.write ":").bind fun _ => (scripted_bound each r.step).bind fun _ => .write "]"
  | function r => exact scripted_named h "<function " ">" r.name
  | cls r => exact scripted_named h "<class " ">" r.name
  | inst r => exact scripted_named h "<" " instance>" r.name
  | none | int | method | seglist | segment => exact .write _

theorem scripted_value (h : Heap) (levels : Nat) (nested : Bool) (x : Handle) :
    Scripted fun _ sink => value h sink levels nested x := by
  induction levels generalizing nested x with
  | zero => exact .write "..."
  | succ levels ih =>
    have inside : ∀ y, Scripted fun _ sink => value h sink levels true y := fun y => ih true y
    exact (Scripted.ofExcept (h.payload x)).bind fun p => scripted_node h nested inside p

end Printing

/-! ### Devices that fail -/

namespace ByteSink

variable {σ : Type} {sink : ByteSink σ} {e : Error} {n : Nat} {s : σ} {bytes : List UInt8}

theorem run_sendAll_taken {b : UInt8} {s' : σ} (taken : sink.send b s = (.ok (), s')) (bytes : List UInt8) :
    (sink.sendAll (b :: bytes)).run s = (sink.sendAll bytes).run s' :=
  SinkM.run_bind_ok taken

theorem run_sendAll_refused {b : UInt8} {s' : σ} (refused : sink.send b s = (.error e, s')) (bytes : List UInt8) :
    (sink.sendAll (b :: bytes)).run s = (.error e, s') :=
  SinkM.run_bind_error refused

theorem run_sendAll_buffer (bytes : List UInt8) (written : Array UInt8) :
    (buffer.sendAll bytes).run written = (.ok (), written ++ bytes.toArray) := by
  induction bytes generalizing written with
  | nil => exact congrArg (Prod.mk _) (by simp)
  | cons b bytes ih =>
    rw [run_sendAll_taken rfl, ih]
    simp

/-- The sink takes `n` more bytes, whatever they are, and refuses the one after them with `e`. -/
def FailsAfter (sink : ByteSink σ) (e : Error) : Nat → σ → Prop
  | 0, s => ∀ b, (sink.send b s).1 = .error e
  | n + 1, s => ∀ b, (sink.send b s).1 = .ok () ∧ sink.FailsAfter e n (sink.send b s).2

theorem failsAfter_limited (takes : ∀ b s, (sink.send b s).1 = .ok ()) (e : Error) (n : Nat) (s : σ) :
    (sink.limited e).FailsAfter e n (n, s) := by
  induction n generalizing s with
  | zero => exact fun _ => rfl
  | succ n ih => exact fun b => ⟨takes b s, ih _⟩

/-- Bytes that a sink was offered, each with the answer. -/
abbrev Journal : Type := List (UInt8 × Except Error Unit)

/-- The bytes of a text, all of them taken. -/
def Journal.taken (bytes : List UInt8) : Journal :=
  bytes.map fun b => (b, .ok ())

/-- The sink with a journal of all it is offered. -/
def journaled (sink : ByteSink σ) : ByteSink (Journal × σ) where
  send b s := ((sink.send b s.2).1, s.1 ++ [(b, (sink.send b s.2).1)], (sink.send b s.2).2)

theorem send_journaled {b : UInt8} {answer : Except Error Unit} {s' : σ} (sent : sink.send b s = (answer, s'))
    (journal : Journal) : sink.journaled.send b (journal, s) = (answer, journal ++ [(b, answer)], s') := by
  simp only [journaled, sent]

/-- Bytes for which there is room are all taken. -/
theorem FailsAfter.sendAll_taken (fails : sink.FailsAfter e n s) (room : bytes.length ≤ n) (journal : Journal) :
    ∃ s', (sink.sendAll bytes).run s = (.ok (), s') ∧
      (sink.journaled.sendAll bytes).run (journal, s) = (.ok (), journal ++ Journal.taken bytes, s') ∧
      sink.FailsAfter e (n - bytes.length) s' := by
  induction bytes generalizing n s journal with
  | nil => exact ⟨s, rfl, congrArg (fun j => (_, j, s)) (List.append_nil journal).symm, fails⟩
  | cons b bytes ih =>
    cases n with
    | zero => cases room
    | succ n =>
      obtain ⟨answer, later⟩ := fails b
      have taken : sink.send b s = (.ok (), (sink.send b s).2) := Prod.ext answer rfl
      obtain ⟨s', plain, noted, left⟩ := ih later (Nat.le_of_succ_le_succ room) (journal ++ [(b, .ok ())])
      refine ⟨s', ?_, ?_, ?_⟩
      · rw [run_sendAll_taken taken, plain]
      · rw [run_sendAll_taken (send_journaled taken journal), noted, List.append_assoc]
        rfl
      · rwa [List.length_cons, Nat.add_sub_add_right]

/-- The first byte beyond is refused, and no other is offered. -/
theorem FailsAfter.sendAll_cut (fails : sink.FailsAfter e bytes.length s) (b : UInt8) (rest : List UInt8)
    (journal : Journal) :
    ∃ s', (sink.sendAll (bytes ++ b :: rest)).run s = (.error e, s') ∧
      (sink.journaled.sendAll (bytes ++ b :: rest)).run (journal, s) =
        (.error e, journal ++ Journal.taken bytes ++ [(b, .error e)], s') := by
  obtain ⟨s', plain, noted, left⟩ := fails.sendAll_taken (Nat.le_refl _) journal
  rw [Nat.sub_self] at left
  have refused : sink.send b s' = (.error e, (sink.send b s').2) := Prod.ext (left b) rfl
  refine ⟨(sink.send b s').2, ?_, ?_⟩
  · rw [sendAll_append, SinkM.run_bind_ok plain, run_sendAll_refused refused]
  · rw [sendAll_append, SinkM.run_bind_ok noted, run_sendAll_refused (send_journaled refused _)]

end ByteSink

/-- What printing writes to a buffer is what it sends to any sink, as far as that goes. -/
theorem Heap.print_script (h : Heap) (x : Handle) :
    ∃ bytes r, (h.print .buffer x).run #[] = (r, bytes.toArray) ∧
      ∀ σ (sink : ByteSink σ), h.print sink x = sink.sendAll bytes >>= fun _ => SinkM.ofExcept r := by
  obtain ⟨bytes, r, script⟩ := Printing.scripted_value h (maxPrintDepth + 1) false x
  have print : ∀ σ (sink : ByteSink σ), h.print sink x = sink.sendAll bytes >>= fun _ => SinkM.ofExcept r := script
  refine ⟨bytes, r, ?_, print⟩
  rw [print, SinkM.run_bind_ok (ByteSink.run_sendAll_buffer bytes #[])]
  simp

/-- **Printing to a device that fails sends exactly a prefix** of what is written to a
buffer. The device is offered the first byte it refuses, and nothing after that. -/
theorem Heap.print_sends_prefix {σ : Type} {device : ByteSink σ} {e : Error} {n : Nat} {s : σ} (h : Heap) (x : Handle)
    (fails : device.FailsAfter e n s) :
    ∃ r w outcome journal s',
      (h.print .buffer x).run #[] = (r, w) ∧
      (h.print device x).run s = (outcome, s') ∧
      (h.print device.journaled x).run ([], s) = (outcome, journal, s') ∧
      (w.size ≤ n → outcome = r ∧ journal = ByteSink.Journal.taken w.toList) ∧
      (n < w.size → outcome = .error e ∧
        ∃ b, w[n]? = some b ∧ journal = ByteSink.Journal.taken (w.toList.take n) ++ [(b, .error e)]) := by
  obtain ⟨bytes, r, written, print⟩ := h.print_script x
  by_cases room : bytes.length ≤ n
  · obtain ⟨s', plain, noted, -⟩ := fails.sendAll_taken room []
    refine ⟨r, bytes.toArray, r, _, s', written, ?_, ?_, fun _ => ⟨rfl, rfl⟩, ?_⟩
    · rw [print, SinkM.run_bind_ok plain]
      rfl
    · rw [print, SinkM.run_bind_ok noted]
      rfl
    · intro short
      rw [List.size_toArray] at short
      exact absurd room (Nat.not_le_of_gt short)
  · -- the text is cut at the byte that is refused
    obtain ⟨sent, b, rest, rfl, rfl⟩ : ∃ sent b rest, bytes = sent ++ b :: rest ∧ sent.length = n := by
      have short : n < bytes.length := by omega
      refine ⟨bytes.take n, bytes[n], bytes.drop (n + 1), ?_, List.length_take_of_le (by omega)⟩
      rw [← List.drop_eq_getElem_cons short, List.take_append_drop]
    obtain ⟨s', plain, noted⟩ := fails.sendAll_cut b rest []
    refine ⟨r, _, .error e, ByteSink.Journal.taken sent ++ [(b, .error e)], s', written, ?_, ?_, ?_, fun _ => ⟨rfl, b, ?_, ?_⟩⟩
    · rw [print, SinkM.run_bind_error plain]
    · rw [print, SinkM.run_bind_error noted]
      rfl
    · intro fits
      rw [List.size_toArray] at fits
      exact absurd fits room
    · simp
    · simp

/-- A list in itself, two pairs of it and an object that is gone, and two tuples with nothing else. -/
def Printing.loop : HeapM Unit := do
  let l ← ListObject.new
  ListObject.append l l
  let lost ← StrObject.new "lost"
  let _ ← TupleObject.new [l, lost]
  let _ ← TupleObject.new [l, lost]
  let _ ← TupleObject.new [l]
  let _ ← TupleObject.new [l]
  HeapM.freeChunk lost

abbrev Printing.looped : Heap :=
  (Printing.loop.run (Machine.create {}).2).2.heap

theorem Printing.looped_pair : (looped.print .buffer ⟨8⟩).run #[] =
    (.error .dangling, "([[[[[[[[[[[[[[[[...]]]]]]]]]]]]]]]], ".toUTF8.data) := by
  decide +kernel

/-- A device that fails early cuts the text short; one with just enough room lets the object's own error through. -/
theorem Heap.print_sends_prefix_looped :
    (∃ s', (Printing.looped.print (ByteSink.limited .framing .buffer).journaled ⟨8⟩).run ([], 3, #[]) =
      (.error .framing, [(40, .ok ()), (91, .ok ()), (91, .ok ()), (91, .error .framing)], s')) ∧
    ∃ journal s', (Printing.looped.print (ByteSink.limited .framing .buffer).journaled ⟨8⟩).run ([], 38, #[]) =
      (.error .dangling, journal, s') ∧ journal.length = 38 := by
  have fails : ∀ n, (ByteSink.limited .framing .buffer).FailsAfter .framing n (n, #[]) := fun n =>
    ByteSink.failsAfter_limited (fun _ _ => rfl) .framing n #[]
  constructor
  · obtain ⟨r, w, outcome, journal, s', written, -, noted, -, cut⟩ := print_sends_prefix Printing.looped ⟨8⟩ (fails 3)
    obtain ⟨rfl, rfl⟩ := Prod.mk.inj (Printing.looped_pair.symm.trans written)
    obtain ⟨rfl, b, refused, rfl⟩ := cut (by decide +kernel)
    obtain rfl : 91 = b := Option.some.inj ((by decide +kernel : some (91 : UInt8) = _).trans refused)
    exact ⟨s', noted⟩
  · obtain ⟨r, w, outcome, journal, s', written, -, noted, whole, -⟩ := print_sends_prefix Printing.looped ⟨8⟩ (fails 38)
    obtain ⟨rfl, rfl⟩ := Prod.mk.inj (Printing.looped_pair.symm.trans written)
    obtain ⟨rfl, rfl⟩ := whole (by decide +kernel)
    exact ⟨_, s', noted, by decide +kernel⟩

/-! ### Objects found the same -/

namespace Heap

variable {h : Heap} {a b : Handle} {depth : Nat}

/-- Objects found the same, whatever the heap is like, are one object or match in kind
and value, with elements found the same. -/
theorem matches_of_same (same : h.compareWithin depth a b = .ok .same) :
    a = b ∨ h.Matches (fun x y => ∃ depth, h.compareWithin depth x y = .ok .same) a b := by
  have items : ∀ {xs ys}, h.sequences depth xs ys = .ok .same →
      List.Forall₂ (fun x y => ∃ depth, h.compareWithin depth x y = .ok .same) xs ys := by
    intro xs ys elements
    obtain ⟨length, less, -, each⟩ := same_of_sequences elements
    exact (forall₂_of_elementwise length each).imp fun x y facts => ⟨less, facts.2.2⟩
  rw [compareWithin_node, compareWithin.compareNode] at same
  split at same
  · rename_i one
    exact .inl one
  · right
    obtain ⟨p, left, same⟩ := except_bind_ok same
    obtain ⟨q, right, same⟩ := except_bind_ok same
    have found := payload_eq_ok_iff.1 left
    have found' := payload_eq_ok_iff.1 right
    cases p with
    | none =>
      cases q with
      | none => exact .none found found'
      | _ => cases same
    | int v =>
      cases q with
      | int w =>
        obtain rfl : v = w := by simpa [pure, Except.pure] using same
        exact .int found found'
      | _ => cases same
    | str s =>
      cases q with
      | str t =>
        obtain rfl : s = t := by simpa [pure, Except.pure] using same
        exact .str found found'
      | _ => cases same
    | tuple xs =>
      cases q with
      | tuple ys => exact .tuple found found' (items same)
      | _ => cases same
    | list r =>
      cases q with
      | list s =>
        -- the elements are read only if the records count as many
        simp only at same
        split at same
        · obtain ⟨xs, read, same⟩ := except_bind_ok same
          obtain ⟨ys, read', same⟩ := except_bind_ok same
          refine .list ?_ ?_ (items same)
          · rw [listItems, listRecord_eq_ok_iff.2 found]
            exact read
          · rw [listItems, listRecord_eq_ok_iff.2 found']
            exact read'
        · cases same
      | _ => cases same
    | _ => cases q <;> cases same

end Heap

namespace Printing

variable {σ : Type} {sink : ByteSink σ} {h : Heap} {R : Handle → Handle → Prop} {a b : Handle} {levels : Nat}

/-- Objects that match are written alike if their elements are. -/
theorem value_of_matches (matched : h.Matches R a b) (nested : Bool)
    (inside : ∀ x y, R x y → value h sink levels true x = value h sink levels true y) :
    value h sink (levels + 1) nested a = value h sink (levels + 1) nested b := by
  have items : ∀ {xs ys}, List.Forall₂ R xs ys →
      commaSeparated sink (value h sink levels true) xs = commaSeparated sink (value h sink levels true) ys := by
    intro xs ys related
    apply commaSeparated_congr
    rw [← List.forall₂_eq_eq_eq, List.forall₂_map_left_iff, List.forall₂_map_right_iff]
    exact related.imp inside
  cases matched with
  | none left right | int left right | str left right =>
    rw [value_succ (Heap.payload_ok left), value_succ (Heap.payload_ok right)]
  | tuple left right related =>
    rw [value_succ (Heap.payload_ok left), value_succ (Heap.payload_ok right)]
    simp only [node, items related, related.length_eq]
  | list left right related =>
    obtain ⟨r, record, read⟩ := except_bind_ok left
    obtain ⟨s, record', read'⟩ := except_bind_ok right
    have found := Heap.listRecord_eq_ok_iff.1 record
    have found' := Heap.listRecord_eq_ok_iff.1 record'
    rw [value_succ (Heap.payload_ok found), value_succ (Heap.payload_ok found')]
    simp only [node, read, read', SinkM.ofExcept_bind, items related]
  | self => rfl

/-- Objects found the same are written alike, however many levels are written out. -/
theorem value_of_same {depth : Nat} (same : h.compareWithin depth a b = .ok .same) (sink : ByteSink σ) (levels : Nat)
    (nested : Bool) : value h sink levels nested a = value h sink levels nested b := by
  -- the levels left to a comparison and to printing go down apart, and either may end first
  induction levels generalizing a b depth nested with
  | zero => rfl
  | succ levels ih =>
    obtain rfl | matched := Heap.matches_of_same same
    · rfl
    · apply value_of_matches matched nested
      rintro x y ⟨less, equal⟩
      exact ih equal true

end Printing

namespace Heap

variable {h : Heap} {a b : Handle}

/-- **Equal objects print alike**, to every sink and with every outcome. -/
theorem print_alike (same : h.compare a b = .ok .same) {σ : Type} (sink : ByteSink σ) (s : σ) :
    (h.print sink a).run s = (h.print sink b).run s ∧ h.render a = h.render b := by
  have written : ∀ {σ : Type} (sink : ByteSink σ), h.print sink a = h.print sink b :=
    fun sink => Printing.value_of_same same sink (maxPrintDepth + 1) false
  constructor
  · rw [written]
  · rw [render, render, written]

theorem print_alike_looped :
    Printing.looped.compare ⟨8⟩ ⟨9⟩ = .ok .same ∧ Printing.looped.compare ⟨10⟩ ⟨11⟩ = .ok .same ∧
      (Printing.looped.print .buffer ⟨9⟩).run #[] =
        (.error .dangling, "([[[[[[[[[[[[[[[[...]]]]]]]]]]]]]]]], ".toUTF8.data) ∧
      (Printing.looped.print .buffer ⟨11⟩).run #[] = (.ok (), "([[[[[[[[[[[[[[[[...]]]]]]]]]]]]]]]],)".toUTF8.data) := by
  have pairs : Printing.looped.compare ⟨8⟩ ⟨9⟩ = .ok .same := by decide +kernel
  have singles : Printing.looped.compare ⟨10⟩ ⟨11⟩ = .ok .same := by decide +kernel
  have single : (Printing.looped.print .buffer ⟨10⟩).run #[] =
      (.ok (), "([[[[[[[[[[[[[[[[...]]]]]]]]]]]]]]]],)".toUTF8.data) := by decide +kernel
  refine ⟨pairs, singles, ?_, ?_⟩
  · rw [← (print_alike pairs .buffer #[]).1, Printing.looped_pair]
  · rw [← (print_alike singles .buffer #[]).1, single]

end Heap

end ChunkHeap
