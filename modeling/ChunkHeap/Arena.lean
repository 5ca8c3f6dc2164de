import ChunkHeap.Payload

/-!
# The slot arena

Objects live in numbered slots. A released slot is threaded onto a list of free
slots, and the slot released last is filled first; the array of slots grows only
when no slot is free. A handle therefore names the same object for as long as
that object is live.

`Arena.get?` is the view: `get?_insert_self` and `get?_insert_other`, `get?_update`,
`get?_remove_self` and `get?_remove_other` say what each operation does to it.
-/

namespace ChunkHeap
set_option autoImplicit false

/-- What the arena keeps beside an object's payload: the tag and the size it was
allocated with, and the collector's mark. -/
structure Header where
  tag : Tag
  chunkBytes : Nat
  marked : Bool := false
deriving DecidableEq

/-- A live object. -/
structure Object where
  header : Header
  payload : Payload
deriving DecidableEq

/-- A slot holds an object or the number of the next free slot. -/
inductive Slot where
  | live (object : Object)
  | free (next : Option Nat)
deriving DecidableEq

namespace Slot

/-- The object in a slot. -/
def object? : Slot → Option Object
  | live o => some o
  | free _ => none

@[simp] theorem object?_live (o : Object) : (live o).object? = some o := rfl

@[simp] theorem object?_free (next : Option Nat) : (free next).object? = none := rfl

/-- The slot with its object changed; a free slot stays as it is. -/
def mapObject (f : Object → Object) : Slot → Slot
  | live o => live (f o)
  | free next => free next

@[simp] theorem object?_mapObject (f : Object → Object) (s : Slot) :
    (s.mapObject f).object? = s.object?.map f := by
  cases s <;> rfl

end Slot

/-- The sum of `w` over a list. -/
def total {α : Type} (w : α → Nat) (l : List α) : Nat :=
  l.foldr (fun x sum => w x + sum) 0

@[simp] theorem total_nil {α : Type} (w : α → Nat) : total w [] = 0 := rfl

@[simp] theorem total_cons {α : Type} (w : α → Nat) (x : α) (l : List α) : total w (x :: l) = w x + total w l := rfl

/-- Slots, the first free one, and how many there are of each sort. -/
structure Arena where
  slots : Array Slot := #[]
  freeHead : Option Nat := none
  liveCount : Nat := 0
  freeCount : Nat := 0
deriving DecidableEq

namespace Arena

/-- The live object a handle names. -/
def get? (a : Arena) (x : Handle) : Option Object :=
  a.slots[x.slot]?.bind Slot.object?

/-- The slot that follows slot `i` on the free list. -/
def nextFree (a : Arena) (i : Nat) : Option Nat :=
  match a.slots[i]? with
  | some (.free next) => next
  | _ => none

/-- Put an object into the slot released last, or into a new one. -/
def insert (a : Arena) (o : Object) : Handle × Arena :=
  match a.freeHead with
  | some i =>
    (⟨i⟩, { slots := a.slots.setIfInBounds i (.live o), freeHead := a.nextFree i,
            liveCount := a.liveCount + 1, freeCount := a.freeCount - 1 })
  | none =>
    (⟨a.slots.size⟩, { a with slots := a.slots.push (.live o), liveCount := a.liveCount + 1 })

/-- Release the slot of a live object and hand the object out. -/
def remove (a : Arena) (x : Handle) : Option (Object × Arena) :=
  (a.get? x).map fun o =>
    (o, { slots := a.slots.setIfInBounds x.slot (.free a.freeHead), freeHead := some x.slot,
          liveCount := a.liveCount - 1, freeCount := a.freeCount + 1 })

/-- Change the object a handle names, if it is live. -/
def update (a : Arena) (x : Handle) (f : Object → Object) : Arena :=
  { a with slots := a.slots.modify x.slot (Slot.mapObject f) }

/-- Replace the payload a handle names, if it is live. -/
def setPayload (a : Arena) (x : Handle) (p : Payload) : Arena :=
  a.update x fun o => { o with payload := p }

/-- Set the mark of the object a handle names, if it is live. -/
def mark (a : Arena) (x : Handle) : Arena :=
  a.update x fun o => { o with header := { o.header with marked := true } }

/-- Clear every mark. -/
def clearMarks (a : Arena) : Arena :=
  { a with slots := a.slots.map (Slot.mapObject fun o =>
      { o with header := { o.header with marked := false } }) }

/-- Live objects with their handles, in slot order. -/
def objects (a : Arena) : List (Handle × Object) :=
  a.slots.toList.zipIdx.filterMap fun (s, i) => s.object?.map fun o => (⟨i⟩, o)

/-- Handles of the live objects, in slot order. -/
def handles (a : Arena) : List Handle :=
  a.objects.map Prod.fst

/-! ### What the operations do to the view -/

theorem get?_insert_self (a : Arena) (o : Object) (h : ∀ i, a.freeHead = some i → i < a.slots.size) :
    (a.insert o).2.get? (a.insert o).1 = some o := by
  unfold insert
  split
  · rename_i i hi
    simp [get?, h i hi]
  · simp [get?]

theorem get?_insert_other {a : Arena} {o : Object} {y : Handle} (h : (a.insert o).1 ≠ y) :
    (a.insert o).2.get? y = a.get? y := by
  unfold insert at h ⊢
  obtain ⟨j⟩ := y
  split at h
  · rename_i i hi
    have hij : i ≠ j := fun e => h (by rw [e])
    simp [get?, hij]
  · have hij : a.slots.size ≠ j := fun e => h (by rw [e])
    simp [get?, Array.getElem?_push, hij.symm]

theorem mem_objects_iff {a : Arena} {x : Handle} {o : Object} :
    (x, o) ∈ a.objects ↔ a.get? x = some o := by
  obtain ⟨i⟩ := x
  simp only [objects, get?, List.mem_filterMap, Prod.exists, Option.map_eq_some_iff, Prod.mk.injEq,
    Handle.mk.injEq, List.mem_zipIdx_iff_getElem?, Array.getElem?_toList, Option.bind_eq_some_iff]
  constructor
  · rintro ⟨s, j, hs, o', ho, rfl, rfl⟩
    exact ⟨s, hs, ho⟩
  · rintro ⟨s, hs, ho⟩
    exact ⟨s, i, hs, o, ho, rfl, rfl⟩

theorem get?_update (a : Arena) (x y : Handle) (f : Object → Object) :
    (a.update x f).get? y = if x = y then (a.get? y).map f else a.get? y := by
  obtain ⟨i⟩ := x
  obtain ⟨j⟩ := y
  simp only [get?, update, Array.getElem?_modify, Handle.mk.injEq]
  by_cases h : i = j
  · subst h
    cases a.slots[i]? <;> simp
  · simp [h]

/-- What a removal does, if it does anything. -/
theorem remove_eq_some_iff {a b : Arena} {x : Handle} {o : Object} :
    a.remove x = some (o, b) ↔ a.get? x = some o ∧
      b = { slots := a.slots.setIfInBounds x.slot (.free a.freeHead), freeHead := some x.slot,
            liveCount := a.liveCount - 1, freeCount := a.freeCount + 1 } := by
  simp only [remove, Option.map_eq_some_iff, Prod.mk.injEq]
  constructor
  · rintro ⟨_, found, rfl, rfl⟩
    exact ⟨found, rfl⟩
  · rintro ⟨found, rfl⟩
    exact ⟨o, found, rfl, rfl⟩

theorem get?_remove_self {a b : Arena} {x : Handle} {o : Object}
    (h : a.remove x = some (o, b)) : b.get? x = none := by
  obtain ⟨found, rfl⟩ := remove_eq_some_iff.1 h
  simp only [get?, Array.getElem?_setIfInBounds]
  split <;> simp_all

theorem get?_remove_other {a b : Arena} {x y : Handle} {o : Object}
    (h : a.remove x = some (o, b)) (hne : x ≠ y) : b.get? y = a.get? y := by
  obtain ⟨-, rfl⟩ := remove_eq_some_iff.1 h
  have : x.slot ≠ y.slot := fun e => hne (Handle.slot_injective e)
  simp [get?, this]

theorem remove_eq_none_iff (a : Arena) (x : Handle) : a.remove x = none ↔ a.get? x = none := by
  simp [remove]

theorem get?_clearMarks (a : Arena) (x : Handle) :
    a.clearMarks.get? x =
      (a.get? x).map fun o => { o with header := { o.header with marked := false } } := by
  simp only [get?, clearMarks, Array.getElem?_map]
  cases a.slots[x.slot]? <;> simp

end Arena

end ChunkHeap
