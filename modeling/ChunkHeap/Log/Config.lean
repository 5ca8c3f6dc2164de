import ChunkHeap.Event
import ChunkHeap.Settings

/-!
# Log configuration

A level, a destination and a format. They come from the runtime settings or from
environment variables; of the two switches among those, it counts that they are
set, not to what.
-/

namespace ChunkHeap

/-- Every level, once. -/
def Level.all : List Level :=
  [.trace, .debug, .info, .warn, .error]

/-- The level with the given name, in any mixture of ASCII cases. -/
def Level.ofName? (name : String) : Option Level :=
  all.find? fun l => l.name = name.toUpper

/-- The level that settings name. `warning` is `warn`, and an unknown name `info`. -/
def Level.ofSetting (name : String) : Level :=
  if name.toUpper = "WARNING" then .warn else (ofName? name).getD .info

namespace Log
set_option autoImplicit false

/-- How logging is set up. -/
structure Config where
  level : Level := .info
  path : Option String := none
  json : Bool := false
  spans : Bool := false
deriving DecidableEq

namespace Config

/-- Errors only. -/
def quiet : Config :=
  { level := .error }

/-- From the runtime settings. -/
def ofSettings (s : LogSettings) : Config where
  level := Level.ofSetting s.level
  path := s.file
  json := s.json
  spans := s.spans

/-- From environment variables. -/
def ofEnv (env : String → Option String) : Config where
  level := ((env "MITE_LOG_LEVEL").map Level.ofSetting).getD .info
  path := env "MITE_LOG_FILE"
  json := (env "MITE_LOG_JSON").isSome
  spans := (env "MITE_LOG_SPANS").isSome

end Config

end Log

end ChunkHeap
