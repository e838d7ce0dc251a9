import Backslice.Error
import Backslice.Json.Member
import Backslice.Text.Blank

namespace Backslice

/-- How far slices reach, which classes they leave out, and what is done with them. -/
structure Config where
  maxUpwardDepth : Nat
  maxDownwardDepth : Nat
  excludedNamespaces : List String
  optimize : Bool
  foldStringConstants : Bool
  merge : Bool
  maxMergePaths : Nat
  deriving DecidableEq, Repr

inductive Preset where
  | fast | balanced | thorough
  deriving DecidableEq, Repr, Inhabited

namespace Preset

def name : Preset → String
  | .fast => "fast"
  | .balanced => "balanced"
  | .thorough => "thorough"

def all : List Preset := [.fast, .balanced, .thorough]

def default : Preset := .thorough

/-- Case does not matter. No letter of the names is the lower case of a character outside ASCII. -/
def parse (text : String) : Except ConfigError Preset :=
  match all.find? fun p => p.name = String.ofList (text.toList.map Char.toLower) with
  | some p => .ok p
  | none => .error (.unknownPreset text)

end Preset

namespace Config

def platformNamespaces : List String :=
  ["java.", "javax.", "sun.", "com.sun.", "jdk.", "android.", "androidx.", "kotlin.", "dalvik."]

def ofPreset : Preset → Config
  | .fast => ⟨1, 1, platformNamespaces, false, true, true, 64⟩
  | .balanced => ⟨3, 3, platformNamespaces, true, true, true, 256⟩
  | .thorough => ⟨5, 5, platformNamespaces, true, true, true, 256⟩

def default : Config := ofPreset .default

instance : Inhabited Config := ⟨default⟩

def depthLimit : Nat := 5

def pathLimit : Nat := 65536

def validate (c : Config) : Except ConfigError Unit :=
  if depthLimit < c.maxUpwardDepth then
    .error (.range "max_upward_depth" c.maxUpwardDepth 0 depthLimit
      "Caller chains deeper than 5 are not followed")
  else if depthLimit < c.maxDownwardDepth then
    .error (.range "max_downward_depth" c.maxDownwardDepth 0 depthLimit
      "Callee chains deeper than 5 are not followed")
  else if c.maxMergePaths = 0 || pathLimit < c.maxMergePaths then
    .error (.range "max_merge_paths" c.maxMergePaths 1 pathLimit "At least one path must be merged")
  else match c.excludedNamespaces.findIdx? fun ns => (Text.trimChars ns.toList).isEmpty with
    | some i => .error (.validation ("excluded_namespaces[" ++ toString i ++
        "] is empty and would exclude every class"))
    | none => .ok ()

def toJson (c : Config) : Json :=
  .obj [("excluded_namespaces", .texts c.excludedNamespaces),
    ("fold_string_constants", .bool c.foldStringConstants),
    ("max_downward_depth", .int c.maxDownwardDepth), ("max_merge_paths", .int c.maxMergePaths),
    ("max_upward_depth", .int c.maxUpwardDepth), ("merge", .bool c.merge),
    ("optimize", .bool c.optimize)]

/-- A depth limit is a signed number of 32 bits and wraps around. -/
def signedDepth (n : Nat) : Int := Int.bmod n 0x100000000

end Config

end Backslice
