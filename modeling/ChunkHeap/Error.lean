import ChunkHeap.Tag

/-!
# Errors

An operation fails with a *cause*. The cause determines the kind of exception a
running program sees (`Error.kind`) and the wording (`Error.message`). Code that
runs on behalf of a client, such as a native function or a device, raises
errors of its own through `Error.raised`.
-/

namespace ChunkHeap
set_option autoImplicit false

/-- The exception kinds a program can see. -/
inductive ErrorKind where
  | type
  | index
  | value
  | key
  | memory
  | io
  | system
deriving DecidableEq

namespace ErrorKind

/-- The kind's name as programs see it. -/
def name : ErrorKind → String
  | type => "TypeError"
  | index => "IndexError"
  | value => "ValueError"
  | key => "KeyError"
  | memory => "MemoryError"
  | io => "IOError"
  | system => "SystemError"

/-- The code handed to a device's diagnostic output. -/
def code : ErrorKind → UInt8
  | type => 0xE0
  | index => 0xE1
  | value => 0xE2
  | key => 0xE3
  | memory => 0xE4
  | io => 0xE5
  | system => 0xE6

/-- Every kind, once. -/
def all : List ErrorKind :=
  [type, index, value, key, memory, io, system]

/-- The kind with the given name. -/
def ofName? (s : String) : Option ErrorKind :=
  all.find? (fun k => k.name = s)

theorem ofName?_name (k : ErrorKind) : ofName? k.name = some k := by
  cases k <;> decide

theorem code_injective {k l : ErrorKind} (h : k.code = l.code) : k = l := by
  revert h
  cases k <;> cases l <;> decide

end ErrorKind

/-- Why an operation failed. -/
inductive Error where
  /-- A handle names no live object. -/
  | dangling
  /-- A chunk to release is not live. -/
  | danglingFree
  /-- An object is of another kind than the operation works on. -/
  | mismatch (expected found : Tag)
  /-- A source of elements is neither a list nor a tuple. -/
  | notSequence (found : Tag)
  /-- A slice bound is neither absent, None nor an integer. -/
  | badBound (found : Tag)
  /-- An object is larger than any chunk may be. -/
  | oversized
  /-- The byte budget does not admit the object. -/
  | exhausted
  /-- The segments of a segmented list do not form its chain. -/
  | brokenChain
  | segListRange
  | segListInsertRange
  | listRange
  | tupleRange
  | entryRange
  /-- No element of a list equals the value sought. -/
  | notInList
  | zeroStep
  | negativeStep
  /-- A slice object cannot be made with a negative step. -/
  | negativeSliceStep
  | keyMissing
  | attributeMissing
  /-- A class member called `__init__` is not bound as a method. -/
  | initNotMethod
  /-- Containers are nested too deeply to be compared. -/
  | compareDepth
  | nativePlaceholder
  | nativeRange
  /-- A function has bytecode, and only native functions can be run. -/
  | noBytecodeLoop
  | arenaEmpty
  | chunkLimitTooSmall
  | chunkLimitTooLarge
  | configSyntax
  | configWrite
  | configRead
  | framing
  | receiveEmpty
  | endOfInput
  /-- An error that client code raised. -/
  | raised (kind : ErrorKind) (message : String)
deriving DecidableEq

namespace Error

/-- The exception kind of a cause. -/
def kind : Error → ErrorKind
  | dangling | danglingFree | brokenChain => .system
  | nativePlaceholder | nativeRange | noBytecodeLoop => .system
  | mismatch _ _ | notSequence _ | badBound _ | initNotMethod => .type
  | oversized | exhausted => .memory
  | segListRange | segListInsertRange | listRange | tupleRange | entryRange => .index
  | notInList | zeroStep | negativeStep | negativeSliceStep | compareDepth => .value
  | arenaEmpty | chunkLimitTooSmall | chunkLimitTooLarge => .value
  | configSyntax | configWrite => .value
  | keyMissing | attributeMissing => .key
  | configRead | framing | receiveEmpty | endOfInput => .io
  | raised kind _ => kind

/-- The wording of a cause. -/
def message : Error → String
  | dangling => "dangling object reference"
  | danglingFree => "free of a dangling object reference"
  | mismatch expected found => "expected " ++ expected.name ++ ", found " ++ found.name
  | notSequence found => "expected list or tuple, found " ++ found.name
  | badBound found => "slice indices must be integers, found " ++ found.name
  | oversized => "object exceeds the maximum chunk size"
  | exhausted => "heap exhausted"
  | brokenChain => "segmented list chain is corrupt"
  | segListRange => "segmented list index out of range"
  | segListInsertRange => "segmented list insert position out of range"
  | listRange => "list index out of range"
  | tupleRange => "tuple index out of range"
  | entryRange => "dict entry index out of range"
  | notInList => "list.index(x): x not in list"
  | zeroStep => "slice step cannot be zero"
  | negativeStep => "negative slice step is not supported"
  | negativeSliceStep => "slice step cannot be negative"
  | keyMissing => "key not found"
  | attributeMissing => "attribute not found"
  | initNotMethod => "__init__ is not a method"
  | compareDepth => "maximum comparison depth exceeded"
  | nativePlaceholder => "native function slot 0 is a placeholder"
  | nativeRange => "native function index out of range"
  | noBytecodeLoop => "bytecode function called without an interpreter loop"
  | arenaEmpty => "arena_bytes must be non-zero"
  | chunkLimitTooSmall => "max_chunk_bytes is below the minimum chunk size"
  | chunkLimitTooLarge => "max_chunk_bytes exceeds arena_bytes"
  | configSyntax => "failed to parse config"
  | configWrite => "failed to serialize config"
  | configRead => "failed to read config"
  | framing => "framing error"
  | receiveEmpty => "receive buffer empty"
  | endOfInput => "end of input"
  | raised _ message => message

/-- Kind and wording in one line; the kind alone when there is no wording. -/
def display (e : Error) : String :=
  if e.message = "" then e.kind.name else e.kind.name ++ ": " ++ e.message

end Error

end ChunkHeap
