import Mathlib.Data.List.Basic
import Backslice.Proofs.SignatureText
import Backslice.Store.Path

namespace Backslice

namespace Json

def IsAtom : Json → Prop
  | .arr _ | .obj _ => False
  | _ => True

/-- Induction over a document, with one hypothesis for all items of a list and one for all members
of an object. -/
theorem nestedInduction {motive : Json → Prop} (atom : ∀ v : Json, v.IsAtom → motive v)
    (arr : ∀ items, (∀ v ∈ items, motive v) → motive (.arr items))
    (obj : ∀ members, (∀ m ∈ members, motive m.2) → motive (.obj members)) (doc : Json) :
    motive doc := by
  -- the recursor also speaks of lists of items, lists of members and single members
  refine @Json.rec motive (fun items => ∀ v ∈ items, motive v)
    (fun members => ∀ m ∈ members, motive m.2) (fun m => motive m.2)
    (atom .null trivial) (fun b => atom (.bool b) trivial) (fun n => atom (.int n) trivial)
    (fun x => atom (.float x) trivial) (fun s => atom (.str s) trivial) arr obj
    ?noItem ?item ?noMember ?member (fun _ _ h => h) doc
  case noItem => simp
  case item => exact fun v items hv hitems => List.forall_mem_cons.2 ⟨hv, hitems⟩
  case noMember => simp
  case member => exact fun m members hm hmembers => List.forall_mem_cons.2 ⟨hm, hmembers⟩

mutual
/-- The values that are no lists in a list, in the lists in it and so on, in order. A value that is
no list stands for itself. -/
def spread : Json → List Json
  | .arr items => spreadAll items
  | v => [v]

def spreadAll : List Json → List Json
  | [] => []
  | v :: vs => spread v ++ spreadAll vs
end

theorem spread_arr (items : List Json) : (arr items).spread = items.flatMap spread := by
  rw [spread]
  induction items with
  | nil => rfl
  | cons v vs ih => rw [spreadAll, ih, List.flatMap_cons]

theorem spread_obj (members : List (String × Json)) : (obj members).spread = [obj members] := rfl

theorem IsAtom.spread_eq {v : Json} (h : v.IsAtom) : v.spread = [v] := by
  cases v with
  | arr => cases h
  | _ => rfl

theorem member?_obj (name : String) (members : List (String × Json)) :
    (obj members).member? name = members.lookup name := by
  rw [member?]
  induction members with
  | nil => rfl
  | cons m ms ih =>
    obtain ⟨key, v⟩ := m
    by_cases hkey : key = name
    · simp [hkey]
    · have hne : (name == key) = false := by simpa using Ne.symm hkey
      simpa [List.lookup_cons, hkey, hne] using ih

end Json

namespace Path

/-- The names of the second path after those of the first. -/
instance : Append Path := ⟨fun p q => ⟨p.segments ++ q.segments⟩⟩

theorem segments_append (p q : Path) : (p ++ q).segments = p.segments ++ q.segments := rfl

/-- A dot between two texts puts their paths one after the other, whatever the texts. -/
theorem parse_append (first second : String) :
    parse (first ++ "." ++ second) = parse first ++ parse second := by
  have hchars : (first ++ "." ++ second).toList = first.toList ++ '.' :: second.toList := by
    simp
  have hsplit := Text.splitChars_append_sep '.' first.toList second.toList
  simp only [parse, hchars, hsplit, List.filter_append, List.map_append]
  rfl

theorem step_arr (name : String) (items : List Json) :
    step name (.arr items) = items.flatMap (step name) := by
  rw [step]
  induction items with
  | nil => rfl
  | cons v vs ih => rw [stepAll, ih, List.flatMap_cons]

/-- One name leads to the members that the values in a document have under it. -/
theorem step_eq_filterMap (name : String) (doc : Json) :
    step name doc = doc.spread.filterMap (Json.member? name) := by
  induction doc using Json.nestedInduction with
  | atom v hv =>
    cases v with
    | arr => cases hv
    | obj => cases hv
    | _ => rfl
  | arr items ih =>
    rw [step_arr, Json.spread_arr, List.filterMap_flatMap]
    exact List.flatMap_congr ih
  | obj members _ =>
    rw [step, ← Json.member?_obj, Json.spread_obj]
    cases h : (Json.obj members).member? name with
    | none => rw [List.filterMap_cons_none h]; rfl
    | some v => rw [List.filterMap_cons_some h]; rfl

/-- Following names from many values at once is following them from each, one after the other. -/
theorem foldl_step_eq_flatMap (names : List String) (docs : List Json) :
    names.foldl (fun found name => found.flatMap (step name)) docs =
      docs.flatMap (⟨names⟩ : Path).resolve := by
  induction names generalizing docs with
  | nil => exact (List.flatMap_singleton' docs).symm
  | cons name names ih =>
    calc
      _ = (docs.flatMap (step name)).flatMap (⟨names⟩ : Path).resolve := ih _
      _ = docs.flatMap fun doc => (step name doc).flatMap (⟨names⟩ : Path).resolve :=
        List.flatMap_assoc
      _ = docs.flatMap (⟨name :: names⟩ : Path).resolve := by
        apply List.flatMap_congr
        intro doc _
        rw [resolve_eq_foldl, List.foldl_cons, List.flatMap_singleton, ih]

theorem resolve_append (p q : Path) (doc : Json) :
    (p ++ q).resolve doc = (p.resolve doc).flatMap q.resolve := by
  rw [resolve_eq_foldl, segments_append, List.foldl_append, ← resolve_eq_foldl p doc]
  exact foldl_step_eq_flatMap q.segments (p.resolve doc)

theorem resolve_cons (name : String) (names : List String) (doc : Json) :
    (⟨name :: names⟩ : Path).resolve doc = (step name doc).flatMap (⟨names⟩ : Path).resolve := by
  rw [← resolve_singleton]
  exact resolve_append ⟨[name]⟩ ⟨names⟩ doc

theorem resolve_arr {p : Path} (hp : p.segments ≠ []) (items : List Json) :
    p.resolve (.arr items) = items.flatMap p.resolve := by
  obtain ⟨segments⟩ := p
  obtain ⟨name, names, rfl⟩ := List.exists_cons_of_ne_nil hp
  -- after the first name, the list and its items are followed from the same values
  calc
    _ = names.foldl (fun found name => found.flatMap (step name)) (items.flatMap (step name)) := by
      rw [resolve_eq_foldl, List.foldl_cons, List.flatMap_singleton, step_arr]
    _ = items.flatMap (⟨name :: names⟩ : Path).resolve :=
      foldl_step_eq_flatMap (name :: names) items

/-- Lists in lists are passed through down to the values that are no lists. -/
theorem resolve_eq_flatMap_spread {p : Path} (hp : p.segments ≠ []) (doc : Json) :
    p.resolve doc = doc.spread.flatMap p.resolve := by
  induction doc using Json.nestedInduction with
  | atom v hv => rw [hv.spread_eq, List.flatMap_singleton]
  | arr items ih =>
    rw [resolve_arr hp, Json.spread_arr, List.flatMap_assoc]
    exact List.flatMap_congr ih
  | obj members _ => rw [Json.spread_obj, List.flatMap_singleton]

/-- A path that is put together from two, as by a dot in its text, leads from each value of the
first to those of the second, in order. On a list, a path leads to the values of each item in order,
down to any depth. One name leads to the members of that name. -/
theorem resolution_composes :
    (∀ (p q : Path) (doc : Json), (p ++ q).resolve doc = (p.resolve doc).flatMap q.resolve) ∧
    (∀ p : Path, p.segments ≠ [] →
      (∀ items, p.resolve (.arr items) = items.flatMap p.resolve) ∧
      ∀ doc, p.resolve doc = doc.spread.flatMap p.resolve) ∧
    (∀ name doc, (⟨[name]⟩ : Path).resolve doc = doc.spread.filterMap (Json.member? name)) ∧
    ∀ first second, parse (first ++ "." ++ second) = parse first ++ parse second := by
  refine ⟨resolve_append, fun p hp => ⟨resolve_arr hp, resolve_eq_flatMap_spread hp⟩, ?_,
    parse_append⟩
  intro name doc
  rw [resolve_singleton, step_eq_filterMap]

/-- Lines in lists of different depth, a gap among them and a line whose text is a list. -/
def nestedLines : List Json :=
  [.arr [.obj [("text", .str "a")], .arr [.obj [("text", .str "b")]]], .null,
    .obj [("number", .int 1), ("text", .arr [.str "c"])]]

theorem resolution_composes_nestedLines :
    (⟨["text"]⟩ : Path).segments ≠ [] ∧
    (parse ("content" ++ "." ++ "text")).resolve (.obj [("content", .arr nestedLines)]) =
      [.str "a", .str "b", .arr [.str "c"]] := by
  obtain ⟨happend, hlists, -, hparse⟩ := resolution_composes
  have hne : (⟨["text"]⟩ : Path).segments ≠ [] := List.cons_ne_nil _ _
  have hcontent : parse "content" = ⟨["content"]⟩ := rfl
  have htext : parse "text" = ⟨["text"]⟩ := rfl
  have hlines : (⟨["content"]⟩ : Path).resolve (.obj [("content", .arr nestedLines)]) =
      [.arr nestedLines] := rfl
  refine ⟨hne, ?_⟩
  rw [hparse, happend, hcontent, htext, hlines, List.flatMap_singleton, (hlists _ hne).1]
  rfl

end Path

end Backslice
