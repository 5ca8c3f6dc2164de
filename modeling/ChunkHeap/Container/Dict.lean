import ChunkHeap.Compare
import ChunkHeap.SegList.Update

/-!
# Attribute tables

A table pairs keys with values in the order in which the keys were first stored.
Keys and values lie in two segmented lists, and position `i` of one belongs to
position `i` of the other. A key is found by comparing it with each key in turn.

Storing under a new key appends to both lists. When the second append fails, the
first is undone.
-/

namespace ChunkHeap
set_option autoImplicit false

namespace Heap

/-- The number of entries of a table. -/
def dictLength (h : Heap) (dict : Handle) : Except Error Nat :=
  (h.dictRecord dict).map DictRecord.length

end Heap

namespace DictObject

open HeapM

/-- Change the record of a table. -/
def modifyRecord (dict : Handle) (f : DictRecord → DictRecord) : HeapM Unit := do
  let r ← inspect fun h => h.dictRecord dict
  modify fun h => h.setPayload dict (.dict (f r))

/-- The first of `count` positions from `i` on whose key passes a test. -/
def findFrom (keys : Handle) (test : Heap → Handle → Except Error Bool) : (count i : Nat) → HeapM (Option Nat)
  | 0, _ => return none
  | count + 1, i => do
    let key ← SegList.get keys i
    if ← inspect fun h => test h key then
      return some i
    else
      findFrom keys test count (i + 1)

/-- The position of the first key that equals `key`. -/
def findKey (r : DictRecord) (key : Handle) : HeapM (Option Nat) :=
  findFrom r.keys (fun h candidate => (h.compare candidate key).map (· = .same)) r.length 0

/-- The position of the first key that is a string with this text. -/
def findText (r : DictRecord) (text : String) : HeapM (Option Nat) :=
  findFrom r.keys (fun h candidate => h.strEquals candidate text) r.length 0

/-- An empty table. -/
def new : HeapM Handle := do
  let keys ← SegList.new
  let vals ← allocatePinned (.seglist {}) [keys]
  allocate (.dict { length := 0, keys, vals })

/-- Append a key and its value; a key without its value is taken back. -/
def appendEntry (r : DictRecord) (key value : Handle) : HeapM Unit := do
  SegList.append r.keys key
  recover (SegList.append r.vals value) fun e => do
    SegList.remove r.keys r.length
    throw e

/-- Store a value under a key, in place of the value already there. -/
def set (dict key value : Handle) : HeapM Unit := do
  let r ← inspect fun h => h.dictRecord dict
  match ← findKey r key with
  | some i => SegList.set r.vals i value
  | none =>
    guarded do
      protect value
      appendEntry r key value
      modifyRecord dict fun r => { r with length := r.length + 1 }

/-- The value at a position that may be absent. -/
def valueAt (r : DictRecord) : Option Nat → HeapM (Option Handle)
  | some i => some <$> SegList.get r.vals i
  | none => return none

/-- The value stored under a key. -/
def lookup (dict key : Handle) : HeapM (Option Handle) := do
  let r ← inspect fun h => h.dictRecord dict
  let found ← findKey r key
  valueAt r found

/-- The value stored under a string key, given by its text. -/
def lookupText (dict : Handle) (text : String) : HeapM (Option Handle) := do
  let r ← inspect fun h => h.dictRecord dict
  let found ← findText r text
  valueAt r found

/-- The value stored under a key that has to be there. -/
def get (dict key : Handle) : HeapM Handle := do
  match ← lookup dict key with
  | some value => return value
  | none => throw .keyMissing

/-- Remove a key and its value. -/
def erase (dict key : Handle) : HeapM Unit := do
  let r ← inspect fun h => h.dictRecord dict
  match ← findKey r key with
  | some i =>
    SegList.remove r.keys i
    SegList.remove r.vals i
    modifyRecord dict fun r => { r with length := r.length - 1 }
  | none => throw .keyMissing

/-- Remove all entries. -/
def clear (dict : Handle) : HeapM Unit := do
  let r ← inspect fun h => h.dictRecord dict
  SegList.clear r.keys
  SegList.clear r.vals
  modifyRecord dict fun r => { r with length := 0 }

/-- The key and the value at a position. -/
def entry (dict : Handle) (index : Nat) : HeapM (Handle × Handle) := do
  let r ← inspect fun h => h.dictRecord dict
  if index < r.length then
    let key ← SegList.get r.keys index
    let value ← SegList.get r.vals index
    return (key, value)
  else
    throw .entryRange

end DictObject

end ChunkHeap
