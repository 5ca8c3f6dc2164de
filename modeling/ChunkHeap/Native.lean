import ChunkHeap.Scalar

/-!
# Native functions

Functions implemented by the host, addressed by a 16-bit index. Entry 0 is a
placeholder that always fails: reaching it means that caller and table disagree.
The table runs native functions and methods bound to them; bytecode needs an
interpreter loop of its own.
-/

namespace ChunkHeap
set_option autoImplicit false

open HeapM

/-- A host function: arguments to a result, with the heap at hand. -/
abbrev NativeFn : Type :=
  List Handle → HeapM Handle

/-- Whoever can call a callable object with arguments. -/
abbrev Interpreter : Type :=
  Handle → List Handle → HeapM Handle

/-- Native functions by index. -/
structure NativeTable where
  entries : Array NativeFn

namespace NativeTable

/-- The entry at index 0. -/
def placeholder : NativeFn :=
  fun _ => throw .nativePlaceholder

/-- A table with the placeholder only. -/
def empty : NativeTable :=
  ⟨#[placeholder]⟩

/-- Append a function. Its index is the low word of its position. -/
def register (t : NativeTable) (f : NativeFn) : UInt16 × NativeTable :=
  (UInt16.ofNat t.entries.size, ⟨t.entries.push f⟩)

/-- The number of entries, the placeholder included. -/
def size (t : NativeTable) : Nat :=
  t.entries.size

/-- Whether there is no entry at all. -/
def isEmpty (t : NativeTable) : Bool :=
  t.entries.isEmpty

/-- Run the function at an index. -/
def call (t : NativeTable) (index : UInt16) (args : List Handle) : HeapM Handle :=
  match t.entries[index.toNat]? with
  | none => throw .nativeRange
  | some f => do
    emit (.nativeCall index.toNat args.length)
    f args

/-- The function to run for a callable object, and its arguments. -/
def target (callable : Handle) (args : List Handle) (h : Heap) : Except Error (Handle × List Handle) := do
  if (← h.tagOf callable) = .method then
    h.methodCall callable args
  else
    return (callable, args)

/-- Call a native function, or a method bound to one. -/
def interpreter (t : NativeTable) : Interpreter := fun callable args => do
  let (func, args) ← inspect (target callable args)
  let r ← inspect fun h => h.functionRecord func
  match r.body with
  | .native index => t.call index args
  | .bytecode _ => throw .noBytecodeLoop

end NativeTable

end ChunkHeap
