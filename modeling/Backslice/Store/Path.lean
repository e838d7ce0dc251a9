import Backslice.Json.Printer
import Backslice.Text.Search

namespace Backslice

/-- The names to follow from a document inwards. -/
structure Path where
  segments : List String
  deriving DecidableEq, Repr, Inhabited

namespace Path

/-- Empty names between the dots are left out. -/
def parse (text : String) : Path :=
  ⟨((Text.splitChars '.' text.toList).filter (!·.isEmpty)).map String.ofList⟩

def text (p : Path) : String := String.intercalate "." p.segments

mutual
/-- The members of a name, also of all objects in a list, however deep. -/
def step (name : String) : Json → List Json
  | .obj members => (members.lookup name).toList
  | .arr items => stepAll name items
  | _ => []

def stepAll (name : String) : List Json → List Json
  | [] => []
  | v :: vs => step name v ++ stepAll name vs
end

/-- Follows names from all values found so far. Where nothing is found the rest is not looked at. -/
def follow : List String → List Json → List Json
  | [], found => found
  | name :: names, found =>
    let next := found.flatMap (step name)
    if next.isEmpty then next else follow names next

def resolve (p : Path) (doc : Json) : List Json := follow p.segments [doc]

theorem follow_nil (names : List String) : follow names [] = [] := by
  cases names <;> rfl

/-- From nothing the rest of a path leads to nothing, so all of it may be followed. -/
theorem follow_eq_foldl (names : List String) (found : List Json) :
    follow names found = names.foldl (fun found name => found.flatMap (step name)) found := by
  induction names generalizing found with
  | nil => rfl
  | cons name names ih =>
    rw [follow, List.foldl_cons, ← ih]
    split
    · rename_i hempty
      rw [List.isEmpty_iff.1 hempty, follow_nil]
    · rfl

theorem resolve_eq_foldl (p : Path) (doc : Json) :
    p.resolve doc = p.segments.foldl (fun found name => found.flatMap (step name)) [doc] :=
  follow_eq_foldl p.segments [doc]

theorem resolve_singleton (name : String) (doc : Json) :
    (⟨[name]⟩ : Path).resolve doc = step name doc := by
  rw [resolve_eq_foldl]
  exact List.flatMap_singleton (step name) doc

end Path

end Backslice
