import Backslice.Proofs.Resolution
import Backslice.Store.Predicate

namespace Backslice

namespace Json

inductive WrittenAs : Json → String → Prop
  | str (s : String) : WrittenAs (.str s) s
  | int (n : Int) : WrittenAs (.int n) (toString n)
  | bool (b : Bool) : WrittenAs (.bool b) (toString b)

/-- Whether a scalar with this text stands in a document, at any depth. -/
inductive Shows (t : String) : Json → Prop
  | scalar {v : Json} (h : Predicate.scalarText? v = some t) : Shows t v
  | item {items : List Json} {v : Json} (hv : v ∈ items) (h : Shows t v) : Shows t (.arr items)
  | member {members : List (String × Json)} {m : String × Json} (hm : m ∈ members)
    (h : Shows t m.2) : Shows t (.obj members)

variable {t : String} {v doc : Json}

theorem WrittenAs.scalarText?_eq (h : v.WrittenAs t) : Predicate.scalarText? v = some t := by
  cases h with
  | str s => rfl
  | int n => rfl
  | bool b => cases b <;> rfl

theorem shows_arr_iff {items : List Json} : (arr items).Shows t ↔ ∃ v ∈ items, v.Shows t := by
  constructor
  · intro h
    cases h with
    | scalar h => cases h
    | item hv h => exact ⟨_, hv, h⟩
  · rintro ⟨v, hv, h⟩
    exact .item hv h

theorem shows_obj_iff {members : List (String × Json)} :
    (obj members).Shows t ↔ ∃ m ∈ members, m.2.Shows t := by
  constructor
  · intro h
    cases h with
    | scalar h => cases h
    | member hm h => exact ⟨_, hm, h⟩
  · rintro ⟨m, hm, h⟩
    exact .member hm h

theorem IsAtom.shows_iff (hdoc : doc.IsAtom) :
    doc.Shows t ↔ Predicate.scalarText? doc = some t := by
  constructor
  · intro h
    cases h with
    | scalar h => exact h
    | item => cases hdoc
    | member => cases hdoc
  · exact .scalar

theorem Shows.of_mem_spread (h : v.Shows t) (hv : v ∈ doc.spread) : doc.Shows t := by
  induction doc using nestedInduction with
  | atom doc hdoc =>
    rw [hdoc.spread_eq] at hv
    exact List.mem_singleton.1 hv ▸ h
  | arr items ih =>
    rw [spread_arr, List.mem_flatMap] at hv
    obtain ⟨u, hu, hv⟩ := hv
    exact .item hu (ih u hu hv)
  | obj members _ => exact List.mem_singleton.1 hv ▸ h

theorem Shows.of_member? {name : String} (h : v.Shows t) (hv : doc.member? name = some v) :
    doc.Shows t := by
  cases doc with
  | obj members =>
    obtain ⟨m, hm, rfl⟩ := Option.map_eq_some_iff.1 hv
    exact .member (List.mem_of_find?_eq_some hm) h
  | _ => cases hv

end Json

namespace Path

theorem shows_of_mem_resolve {p : Path} {t : String} {v doc : Json} (hv : v ∈ p.resolve doc)
    (h : v.Shows t) : doc.Shows t := by
  obtain ⟨names⟩ := p
  induction names generalizing doc with
  | nil => exact List.mem_singleton.1 hv ▸ h
  | cons name names ih =>
    rw [resolve_cons, step_eq_filterMap, List.mem_flatMap] at hv
    obtain ⟨u, hu, hv⟩ := hv
    obtain ⟨w, hw, hmember⟩ := List.mem_filterMap.1 hu
    exact ((ih hv).of_member? hmember).of_mem_spread hw

/-- Null has nothing in it. -/
theorem eq_null_of_mem_resolve {p : Path} {v : Json} (hv : v ∈ p.resolve .null) : v = .null := by
  obtain ⟨names⟩ := p
  cases names with
  | nil => exact List.mem_singleton.1 hv
  | cons name names =>
    rw [resolve_cons] at hv
    cases hv

end Path

namespace Predicate

variable {p q : Path} {needle t : String} {v doc : Json}

theorem containsText_arr (needle : String) (items : List Json) :
    containsText needle (.arr items) = items.any (containsText needle) := by
  rw [containsText]
  induction items with
  | nil => rfl
  | cons v vs ih => rw [anyContains, ih, List.any_cons]

theorem containsText_obj (needle : String) (members : List (String × Json)) :
    containsText needle (.obj members) = members.any fun m => containsText needle m.2 := by
  rw [containsText]
  induction members with
  | nil => rfl
  | cons m ms ih => rw [anyMemberContains, ih, List.any_cons]

theorem matchesValue_arr (expected : Json) (items : List Json) :
    matchesValue expected (.arr items) =
      (Json.same (.arr items) expected || items.any (matchesValue expected)) := by
  have hany : anyMatches expected items = items.any (matchesValue expected) := by
    induction items with
    | nil => rfl
    | cons v vs ih => rw [anyMatches, ih, List.any_cons]
  rw [matchesValue, hany]

theorem containsText_of_isAtom (hdoc : doc.IsAtom) :
    containsText needle doc = (scalarText? doc).any fun s => Text.contains s needle := by
  cases doc with
  | arr => cases hdoc
  | obj => cases hdoc
  | null => simp [containsText, scalarText?]
  | _ => simp [containsText]

/-- The texts of all scalars are searched, those in lists and those in objects. -/
theorem containsText_iff :
    containsText needle doc = true ↔ ∃ t, doc.Shows t ∧ needle.toList <:+: t.toList := by
  induction doc using Json.nestedInduction with
  | atom v hv =>
    rw [containsText_of_isAtom hv, Option.any_eq_true]
    simp only [Text.contains_eq_true_iff, hv.shows_iff]
  | arr items ih =>
    rw [containsText_arr, List.any_eq_true]
    constructor
    · rintro ⟨v, hv, h⟩
      obtain ⟨t, ht, hneedle⟩ := (ih v hv).1 h
      exact ⟨t, .item hv ht, hneedle⟩
    · rintro ⟨t, ht, hneedle⟩
      obtain ⟨v, hv, ht⟩ := Json.shows_arr_iff.1 ht
      exact ⟨v, hv, (ih v hv).2 ⟨t, ht, hneedle⟩⟩
  | obj members ih =>
    rw [containsText_obj, List.any_eq_true]
    constructor
    · rintro ⟨m, hm, h⟩
      obtain ⟨t, ht, hneedle⟩ := (ih m hm).1 h
      exact ⟨t, .member hm ht, hneedle⟩
    · rintro ⟨t, ht, hneedle⟩
      obtain ⟨m, hm, ht⟩ := Json.shows_obj_iff.1 ht
      exact ⟨m, hm, (ih m hm).2 ⟨t, ht, hneedle⟩⟩

/-- Floats are left out here: two of them may be equal and have different texts. -/
theorem scalarText?_of_same (hv : v.WrittenAs t) (h : Json.same doc v = true) :
    scalarText? doc = some t := by
  have heq : doc = v := by
    cases hv <;> cases doc <;> simp_all [Json.same]
  rw [heq, hv.scalarText?_eq]

theorem matchesValue_of_isAtom (hdoc : doc.IsAtom) (hv : v.WrittenAs t) :
    matchesValue v doc = true ↔ scalarText? doc = some t := by
  cases doc with
  | arr => cases hdoc
  | obj => cases hdoc
  | null => cases hv <;> simp [matchesValue, Json.same, scalarText?]
  | _ =>
    simp only [matchesValue, Bool.or_eq_true, beq_iff_eq, hv.scalarText?_eq]
    exact or_iff_right_of_imp (scalarText?_of_same hv)

/-- Only lists are passed through in the search for an equal value, and a value counts as equal if
it has the same text. -/
theorem matchesValue_iff (hv : v.WrittenAs t) :
    matchesValue v doc = true ↔ ∃ u ∈ doc.spread, scalarText? u = some t := by
  induction doc using Json.nestedInduction with
  | atom doc hdoc => rw [matchesValue_of_isAtom hdoc hv, hdoc.spread_eq]; simp
  | arr items ih =>
    have hsame : Json.same (.arr items) v = false := by
      cases hv <;> rfl
    rw [matchesValue_arr, hsame, Bool.false_or, List.any_eq_true, Json.spread_arr]
    simp only [List.mem_flatMap]
    constructor
    · rintro ⟨w, hw, h⟩
      obtain ⟨u, hu, htext⟩ := (ih w hw).1 h
      exact ⟨u, ⟨w, hw, hu⟩, htext⟩
    · rintro ⟨u, ⟨w, hw, hu⟩, htext⟩
      exact ⟨w, hw, (ih w hw).2 ⟨u, hu, htext⟩⟩
  | obj members _ =>
    have hsame : Json.same (.obj members) v = false := by
      cases hv <;> rfl
    rw [matchesValue, hsame, Json.spread_obj]
    simp [scalarText?]

theorem holds_contains_iff :
    (contains p needle).holds doc = true ↔
      ∃ v ∈ p.resolve doc, ∃ t, v.Shows t ∧ needle.toList <:+: t.toList := by
  rw [holds, List.any_eq_true]
  simp only [containsText_iff]

theorem holds_eq_iff (hv : v.WrittenAs t) :
    (eq p v).holds doc = true ↔ ∃ u ∈ p.resolve doc, ∃ w ∈ u.spread, scalarText? w = some t := by
  rw [holds, List.any_eq_true]
  simp only [matchesValue_iff hv]

theorem holds_exists_iff :
    (Predicate.exists p).holds doc = true ↔ ∃ v ∈ p.resolve doc, v ≠ .null := by
  have hnull (v : Json) : (!v.isNull) = true ↔ v ≠ .null := by
    cases v <;> simp [Json.isNull]
  rw [holds, isPresent, List.any_eq_true]
  simp only [hnull]

theorem holds_contains_of_append {m n : String} (hnm : n.toList <:+: m.toList)
    (h : (contains (p ++ q) m).holds doc = true) : (contains p n).holds doc = true := by
  obtain ⟨v, hv, t, ht, hmt⟩ := holds_contains_iff.1 h
  rw [Path.resolve_append, List.mem_flatMap] at hv
  obtain ⟨u, hu, hv⟩ := hv
  exact holds_contains_iff.2 ⟨u, hu, t, Path.shows_of_mem_resolve hv ht, hnm.trans hmt⟩

theorem holds_contains_of_eq (hv : v.WrittenAs t) (h : (eq p v).holds doc = true) :
    (contains p t).holds doc = true := by
  obtain ⟨u, hu, w, hw, htext⟩ := (holds_eq_iff hv).1 h
  have hshows : u.Shows t := (Json.Shows.scalar htext).of_mem_spread hw
  exact holds_contains_iff.2 ⟨u, hu, t, hshows, List.infix_refl _⟩

theorem holds_exists_of_eq (hv : v.WrittenAs t) (h : (eq p v).holds doc = true) :
    (Predicate.exists p).holds doc = true := by
  obtain ⟨u, hu, w, hw, htext⟩ := (holds_eq_iff hv).1 h
  refine holds_exists_iff.2 ⟨u, hu, ?_⟩
  -- null holds no value but itself, and it has no text
  rintro rfl
  rw [List.mem_singleton.1 hw] at htext
  cases htext

theorem holds_exists_of_append (h : (Predicate.exists (p ++ q)).holds doc = true) :
    (Predicate.exists p).holds doc = true := by
  obtain ⟨v, hv, hne⟩ := holds_exists_iff.1 h
  rw [Path.resolve_append, List.mem_flatMap] at hv
  obtain ⟨u, hu, hv⟩ := hv
  refine holds_exists_iff.2 ⟨u, hu, ?_⟩
  rintro rfl
  exact hne (Path.eq_null_of_mem_resolve hv)

/-- What is found under a longer path is found under a shorter one, with every part of its text. An
equal value has its own text in it and is present. The last three parts say what the conditions look
at: lists and objects are searched for a text, lists alone for a value, and nothing for presence. -/
theorem conditions_respect_containment (doc : Json) (p q : Path) :
    (∀ m n : String, n.toList <:+: m.toList → (contains (p ++ q) m).holds doc = true →
      (contains p n).holds doc = true) ∧
    (∀ v t, v.WrittenAs t → (eq p v).holds doc = true →
      (contains p t).holds doc = true ∧ (Predicate.exists p).holds doc = true) ∧
    ((Predicate.exists (p ++ q)).holds doc = true → (Predicate.exists p).holds doc = true) ∧
    (∀ n, (contains p n).holds doc = true ↔
      ∃ v ∈ p.resolve doc, ∃ t, v.Shows t ∧ n.toList <:+: t.toList) ∧
    (∀ v t, v.WrittenAs t → ((eq p v).holds doc = true ↔
      ∃ u ∈ p.resolve doc, ∃ w ∈ u.spread, scalarText? w = some t)) ∧
    ((Predicate.exists p).holds doc = true ↔ ∃ v ∈ p.resolve doc, v ≠ .null) := by
  refine ⟨fun m n hnm h => holds_contains_of_append hnm h, fun v t hv h => ?_,
    holds_exists_of_append, fun n => holds_contains_iff, fun v t hv => holds_eq_iff hv,
    holds_exists_iff⟩
  exact ⟨holds_contains_of_eq hv h, holds_exists_of_eq hv h⟩

/-- The lines of a slice, one of them in a list of lists, with a gap and numbers among them. -/
def unevenLines : Json :=
  .obj [("content", .arr [.null, .arr [.arr [.obj [("text", .str "r1 = AES/ECB")]]],
    .arr [.int 13, .bool true]])]

theorem conditions_respect_containment_unevenLines :
    ("ECB".toList <:+: "AES/ECB".toList ∧
      (contains (⟨["content"]⟩ ++ ⟨["text"]⟩) "AES/ECB").holds unevenLines = true ∧
      (contains ⟨["content"]⟩ "ECB").holds unevenLines = true) ∧
    ((Json.int 13).WrittenAs "13" ∧ (eq ⟨["content"]⟩ (.int 13)).holds unevenLines = true ∧
      (contains ⟨["content"]⟩ "13").holds unevenLines = true) ∧
    (Predicate.exists (⟨["content"]⟩ ++ ⟨["text"]⟩)).holds unevenLines = true ∧
      (Predicate.exists ⟨["content"]⟩).holds unevenLines = true := by
  obtain ⟨hcontains, heq, hexists, -⟩ :=
    conditions_respect_containment unevenLines ⟨["content"]⟩ ⟨["text"]⟩
  have hpart : "ECB".toList <:+: "AES/ECB".toList :=
    Text.contains_eq_true_iff.1 (by decide +kernel)
  have hfound : (contains (⟨["content"]⟩ ++ ⟨["text"]⟩) "AES/ECB").holds unevenLines = true := by
    decide +kernel
  have hdigits : toString (13 : Int) = "13" := by decide +kernel
  have hwritten : (Json.int 13).WrittenAs "13" := hdigits ▸ .int 13
  have hequal : (eq ⟨["content"]⟩ (.int 13)).holds unevenLines = true := by decide +kernel
  have hpresent : (Predicate.exists (⟨["content"]⟩ ++ ⟨["text"]⟩)).holds unevenLines = true := by
    decide +kernel
  exact ⟨⟨hpart, hfound, hcontains _ _ hpart hfound⟩,
    ⟨hwritten, hequal, (heq _ _ hwritten hequal).1⟩, hpresent, hexists hpresent⟩

end Predicate

end Backslice
