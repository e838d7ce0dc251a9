import Backslice.Proofs.Children
import Backslice.Proofs.Table

namespace Backslice

namespace Call

def IsPosition (p : Int) : Prop := -0x80000000 ≤ p ∧ p < 0x80000000

instance (p : Int) : Decidable (IsPosition p) := inferInstanceAs (Decidable (_ ∧ _))

theorem isPosition_positionOf (n : Nat) : IsPosition (positionOf n) := by
  unfold IsPosition positionOf
  have hlower := Int.le_bmod (x := n) (m := 0x100000000) (by decide)
  have hupper := Int.bmod_lt (x := n) (m := 0x100000000) (by decide)
  omega

end Call

namespace Json

theorem mapM_map {α β : Type} {write : α → β} {read : β → Option α} {l : List α}
    (h : ∀ x ∈ l, read (write x) = some x) : (l.map write).mapM read = some l := by
  induction l with
  | nil => rfl
  | cons x xs ih =>
    rw [List.map_cons, List.mapM_cons, h x List.mem_cons_self,
      ih fun y hy => h y (List.mem_cons_of_mem _ hy)]
    rfl

theorem texts?_texts (l : List String) : texts? (texts l) = some l :=
  mapM_map fun _ _ => rfl

theorem int32?_int {n : Int} (h : Call.IsPosition n) : int32? (.int n) = some n := by
  have hbounds : (decide (-0x80000000 ≤ n) && decide (n < 0x80000000)) = true := by
    simpa [Call.IsPosition] using h
  simp only [int32?]
  rw [if_pos hbounds]

theorem count?_int (n : Nat) : count? (.int n) = some n := by
  simp [count?]

section
variable {α : Type} {ms : List (String × Json)} {name : String} {v : Json}
  {read : Json → Option α} {x : α}

theorem required?_of_lookup (h : ms.lookup name = some v) (hread : read v = some x) :
    required? ms name read = some x := by
  rw [required?, h]
  exact hread

theorem optional?_of_lookup (h : ms.lookup name = some v) (hv : v.isNull = false)
    (hread : read v = some x) : optional? ms name read = some (some x) := by
  rw [optional?, h]
  cases v with
  | null => cases hv
  | _ => exact congrArg (Option.map some) hread

theorem optional?_of_absent (h : ms.lookup name = none) : optional? ms name read = some none := by
  rw [optional?, h]

end

end Json

theorem LiveSet.ofJson?_toJson (live : LiveSet) : ofJson? live.toJson = some live := by
  have hread : (live.entries.map fun e => (e.1, Json.str e.2)).mapM binding? =
      some live.entries := Json.mapM_map fun _ _ => rfl
  rw [toJson, ofJson?, hread, Option.map_some, Table.ofList_entries]

theorem UnitKind.tag_lt (k : UnitKind) : k.tag < 30 := by cases k <;> decide

theorem UnitKind.ofTag?_int32?_tag (k : UnitKind) :
    (Json.int32? (.int k.tag)).bind ofTag? = some k := by
  have hlt := k.tag_lt
  have hread : Json.int32? (.int k.tag) = some (k.tag : Int) := by
    apply Json.int32?_int
    unfold Call.IsPosition
    omega
  rw [hread]
  exact ofTag?_tag k

theorem Line.ofJson?_obj {ms : List (String × Json)} {l : Line}
    (htext : Json.required? ms "unitString" Json.str? = some l.text)
    (hkind : Json.required? ms "unitType" (fun v => v.int32?.bind UnitKind.ofTag?) = some l.kind)
    (hmethod : Json.required? ms "callerName" Json.str? = some l.method)
    (hnumber : Json.required? ms "lineNumber" Json.count? = some l.number)
    (hsource : Json.required? ms "sourceIndex" Json.count? = some l.source)
    (hconstants : Json.optional? ms "constants" Json.texts? = some l.constants?) :
    ofJson? (.obj ms) = some l := by
  simp only [ofJson?, Json.members?, Option.bind_eq_bind, Option.bind_some, htext, hkind, hmethod,
    hnumber, hsource, hconstants]
  rfl

theorem Line.ofJson?_toJson (l : Line) : ofJson? l.toJson = some l := by
  apply ofJson?_obj
  · refine Json.required?_of_lookup (v := .str l.text) ?_ rfl
    cases l.constants? <;> simp [List.lookup_cons]
  · refine Json.required?_of_lookup ?_ l.kind.ofTag?_int32?_tag
    cases l.constants? <;> simp [List.lookup_cons]
  · exact Json.required?_of_lookup (v := .str l.method) (by simp) rfl
  · refine Json.required?_of_lookup ?_ (Json.count?_int l.number)
    cases l.constants? <;> simp [List.lookup_cons]
  · refine Json.required?_of_lookup ?_ (Json.count?_int l.source)
    cases l.constants? <;> simp [List.lookup_cons]
  · cases l.constants? with
    | none => exact Json.optional?_of_absent (by simp [List.lookup_cons])
    | some cs =>
      exact Json.optional?_of_lookup (by simp [List.lookup_cons]) rfl (Json.texts?_texts cs)

namespace Record

def Fits (r : Record) : Prop := ∀ p ∈ r.positions, Call.IsPosition p

/-- Reading is the inverse of writing. -/
theorem ofJson?_toJson {r : Record} (h : r.Fits) : ofJson? r.toJson = some r := by
  obtain ⟨nodeId?, group, related, caller, target, positions, live, content⟩ := r
  have hpositions : Request.positionsOfJson? (.arr (positions.map .int)) = some positions :=
    Json.mapM_map fun p hp => Json.int32?_int (h p hp)
  have hcontent : Json.listOf? Line.ofJson? (.arr (content.map Line.toJson)) = some content :=
    Json.mapM_map fun l _ => Line.ofJson?_toJson l
  cases nodeId? with
  | none =>
    simp [ofJson?, toJson, Json.members?, Json.required?, Json.optional?, Json.defaulted?,
      List.lookup_cons, Json.str?, Json.texts?_texts, LiveSet.ofJson?_toJson, hpositions, hcontent]
  | some id =>
    simp [ofJson?, toJson, Json.members?, Json.required?, Json.optional?, Json.defaulted?,
      List.lookup_cons, Json.str?, Json.texts?_texts, LiveSet.ofJson?_toJson, hpositions, hcontent]

end Record

namespace Store

theorem holdAll_groupPredicate_toJson (group : String) (r : Record) :
    Predicate.holdAll [groupPredicate group] r.toJson = decide (r.group = group) := by
  rw [Bool.eq_iff_iff]
  cases h : r.nodeId? <;> simp [Predicate.holdAll, Predicate.holds, groupPredicate,
    Path.resolve_singleton, Path.step, Record.toJson, h, List.lookup_cons, Predicate.matchesValue,
    Json.same, Predicate.scalarText?]

theorem holdAll_mergedPredicates_toJson (group : String) (r : Record) :
    Predicate.holdAll (mergedPredicates group) r.toJson =
      (r.isMerged && decide (r.group = group)) := by
  have hgroup := holdAll_groupPredicate_toJson group r
  have hmissing : (Predicate.missing ⟨["nodeId"]⟩).holds r.toJson = r.isMerged := by
    cases h : r.nodeId? <;> simp [Predicate.holds, Path.resolve_singleton, Path.step,
      Record.toJson, h, List.lookup_cons, Predicate.isPresent, Json.isNull, Record.isMerged]
  simp only [Predicate.holdAll, List.all_cons, List.all_nil, Bool.and_true] at hgroup
  simp only [Predicate.holdAll, mergedPredicates, List.all_cons, List.all_nil, Bool.and_true,
    hmissing, hgroup]

section
variable {records : List Record} {ps : List Predicate} {q : Record → Bool}

theorem select_ofRecords (records : List Record)
    (hq : ∀ r : Record, Predicate.holdAll ps r.toJson = q r) :
    (ofRecords records).select ps = (records.filter q).map Record.toJson := by
  have hcomp : Predicate.holdAll ps ∘ Record.toJson = q := funext hq
  rw [select, ofRecords, List.filter_map, hcomp]

/-- The records that meet the conditions come back as they were written. -/
theorem selectAll_ofRecords (hfits : ∀ r ∈ records, r.Fits)
    (hq : ∀ r : Record, Predicate.holdAll ps r.toJson = q r) :
    (ofRecords records).selectAll ps = .ok (records.filter q) := by
  have hread (l : List Record) (hl : ∀ r ∈ l, r.Fits) :
      (l.map Record.toJson).mapM readRecord = .ok l := by
    induction l with
    | nil => rfl
    | cons r rs ih =>
      rw [List.map_cons, List.mapM_cons, readRecord,
        Record.ofJson?_toJson (hl r List.mem_cons_self),
        ih fun r' hr' => hl r' (List.mem_cons_of_mem _ hr')]
      rfl
  rw [selectAll, select_ofRecords records hq]
  exact hread _ fun r hr => hfits r (List.mem_filter.1 hr).1

end

end Store

theorem Record.nodeId?_eq_of_toJson {r s : Record} (h : r.toJson = s.toJson) :
    r.nodeId? = s.nodeId? := by
  ext id
  rw [← Store.holds_nodePredicate_toJson, h, Store.holds_nodePredicate_toJson]

theorem Record.group_eq_of_toJson {r s : Record} (h : r.toJson = s.toJson) : r.group = s.group := by
  have hgroup := Store.holdAll_groupPredicate_toJson s.group r
  rw [h, Store.holdAll_groupPredicate_toJson, decide_eq_decide] at hgroup
  exact hgroup.1 rfl

end Backslice
