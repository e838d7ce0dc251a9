namespace Backslice

/-- Why a configuration is refused. -/
inductive ConfigError where
  | range (field : String) (value least greatest : Nat) (hint : String)
  | unknownPreset (name : String)
  | yaml
  | validation (reason : String)
  deriving DecidableEq, Repr

def ConfigError.message : ConfigError → String
  | .range field value least greatest hint =>
    "Invalid range for field '" ++ field ++ "': " ++ toString value ++ " not in " ++
      toString least ++ "..=" ++ toString greatest ++ ". " ++ hint
  | .unknownPreset name =>
    "Unknown preset '" ++ name ++ "'. Valid presets: fast, balanced, thorough"
  | .yaml => "YAML parsing error"
  | .validation reason => "Validation error: " ++ reason

inductive SliceError where
  /-- A class, method or record that is named but not there. -/
  | unresolved (what : String)
  | mismatch (what : String)
  | exhausted (what : String)
  | invalidPredicate (text : String)
  | invalidSignature (text : String)
  | config (cause : ConfigError)
  /-- A stored document that is no record. -/
  | malformedRecord
  deriving DecidableEq, Repr

namespace SliceError

def message : SliceError → String
  | .unresolved what => "Unresolved reference: " ++ what
  | .mismatch what => "Structural mismatch: " ++ what
  | .exhausted what => "Resource exhausted: " ++ what
  | .invalidPredicate text => "Invalid predicate: " ++ text
  | .invalidSignature text => "Invalid signature: " ++ text
  | .config cause => "Configuration error: " ++ cause.message
  | .malformedRecord => "Serialization error"

/-- A local error spoils one unit of work and lets the rest go on. -/
def isLocal : SliceError → Bool
  | .unresolved _ | .mismatch _ | .exhausted _ => true
  | _ => false

end SliceError

end Backslice
