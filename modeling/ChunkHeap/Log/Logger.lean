import ChunkHeap.Log.Filter

/-!
# Loggers

A logger passes the events that its filter admits, and writes them to the console
or to a file. A process has at most one: the first to be
installed stays.
-/

namespace ChunkHeap.Log
set_option autoImplicit false

/-- Where log lines go. -/
inductive Destination where
  | console
  /-- A file, by its directories and its name. -/
  | file (directories : List String) (name : String)
deriving DecidableEq

namespace Destination

/-- The name of a log file whose path names none. -/
def defaultName : String := "mite_core.log"

/-- The parts of a path that matter: neither empty nor the directory itself. -/
def parts (path : String) : List String :=
  (path.splitOn "/").filter fun p => p ≠ "" && p ≠ "."

/-- Resolve steps to a parent directory. -/
def resolve (directories : List String) : List String :=
  directories.foldl (fun done p =>
    match done.getLast? with
    | some last => if p = ".." && last ≠ ".." then done.dropLast else done ++ [p]
    | none => [p]) []

/-- The file a path leads to. The last part of the path is its name, unless that
is a step to a parent directory. -/
def ofPath (path : String) : Destination :=
  let ps := parts path
  match ps.getLast? with
  | none => .file [] defaultName
  | some last => .file (resolve ps.dropLast) (if last = ".." then defaultName else last)

/-- The path of a log file. -/
def path? : Destination → Option String
  | console => none
  | file directories name => some (String.intercalate "/" (directories ++ [name]))

end Destination

/-- What to log, where to, and in which of the two formats. -/
structure Logger where
  filter : Filter
  destination : Destination
  json : Bool
deriving DecidableEq

namespace Logger

/-- The logger of a configuration. Directives, if they are valid, take the place of
the configuration's own filter. -/
def ofConfig (directives : Option String) (c : Config) : Logger where
  filter := (directives.bind Filter.parse?).getD (Filter.ofLevel c.level)
  destination := match c.path with
    | some path => Destination.ofPath path
    | none => .console
  json := c.json

/-- Install a logger, unless there is one already. -/
def install (installed : Option Logger) (logger : Logger) : Option Logger :=
  installed <|> some logger

/-- The events a logger passes, in order. -/
def passed (l : Logger) (events : List Event) : List Event :=
  events.filter l.filter.admits

end Logger

/-- A field as a plain log line shows it. -/
def plainField : String × FieldValue → String
  | (name, .number n) => " " ++ name ++ "=" ++ n.repr
  | (name, .text s) => " " ++ name ++ "=\"" ++ s ++ "\""
  | (name, .bare s) => " " ++ name ++ "=" ++ s

/-- The text of a plain log line: the message and then the fields. -/
def plainText (e : Event) : String :=
  e.message ++ String.join (e.fields.map plainField)

end ChunkHeap.Log
