import Mathlib.Data.List.Basic
import Mathlib.Logic.Relation
import Backslice.Merge.Paths
import Backslice.Proofs.Table

namespace Backslice.Index

variable {index : Index}

def Leads (index : Index) (id id' : String) : Prop :=
  ∃ r, index.get? id = some r ∧ id' ∈ r.related ∧ index.contains id' = true

def LeadsOff (index : Index) (trail : List String) (id id' : String) : Prop :=
  index.Leads id id' ∧ id' ∉ trail

theorem mem_next_iff {id last : String} {trail : List String} :
    id ∈ index.next (last :: trail) ↔ index.LeadsOff (last :: trail) last id := by
  simp only [next, LeadsOff, Leads]
  cases index.get? last with
  | none => simp
  | some r =>
    simp only [List.mem_filter, Bool.and_eq_true, decide_eq_true_eq, Option.some.injEq,
      exists_eq_left', and_assoc]

theorem paths_of_next_eq_nil {trail : List String} (h : index.next trail = []) :
    index.paths trail = [trail.reverse] := by
  rw [paths, if_pos (by simp [h])]

theorem paths_of_next_ne_nil {trail : List String} (h : index.next trail ≠ []) :
    index.paths trail = (index.next trail).flatMap fun id => index.paths (id :: trail) := by
  rw [paths, if_neg (by simpa using h)]
  simp [List.flatMap_subtype]

/-- What holds where no slice is left, and wherever it holds of all ways to go on, holds of every
trail. -/
theorem trail_induction (index : Index) {P : List String → Prop}
    (stop : ∀ trail, index.next trail = [] → P trail)
    (go : ∀ trail, index.next trail ≠ [] → (∀ id ∈ index.next trail, P (id :: trail)) → P trail)
    (trail : List String) : P trail := by
  induction hn : index.unvisited trail using Nat.strongRecOn generalizing trail with
  | ind n ih =>
    by_cases hnext : index.next trail = []
    · exact stop trail hnext
    · refine go trail hnext fun id hid => ih _ ?_ (id :: trail) rfl
      rw [← hn]
      exact unvisited_lt hid

/-- Stopping early gives the first of all paths. -/
theorem firstPaths_eq_take (index : Index) (trail : List String) (limit : Nat) :
    index.firstPaths limit trail = (index.paths trail).take limit := by
  induction trail using trail_induction index generalizing limit with
  | stop trail h =>
    rw [firstPaths, paths_of_next_eq_nil h]
    cases limit <;> simp [h]
  | go trail h ih =>
    -- what is found so far is an initial part of all that there is to be found
    have hfold : ∀ (ids : List {id // id ∈ index.next trail}) (found : List (List String)),
        ids.foldl (fun found id => found ++
            index.firstPaths (limit - found.length) (id.1 :: trail)) found =
          found ++ (ids.flatMap fun id => index.paths (id.1 :: trail)).take
            (limit - found.length) := by
      intro ids
      induction ids with
      | nil => simp
      | cons id ids ihids =>
        intro found
        rw [List.foldl_cons, ihids, ih id.1 id.2, List.flatMap_cons, List.take_append,
          List.append_assoc, List.length_append, List.length_take]
        congr 3
        omega
    rw [firstPaths]
    by_cases hlimit : limit = 0
    · simp [hlimit]
    · have hempty : (index.next trail).isEmpty = false := by simpa using h
      simp only [hlimit, if_false, hempty, Bool.false_eq_true]
      rw [paths_of_next_ne_nil h, hfold]
      simp [List.flatMap_subtype]

theorem take_firstPaths_succ (index : Index) (trail : List String) (limit : Nat) :
    (index.firstPaths (limit + 1) trail).take limit = (index.paths trail).take limit := by
  rw [firstPaths_eq_take, List.take_take, Nat.min_eq_left (Nat.le_succ limit)]

/-- One path more than the limit shows whether there are more. -/
theorem lt_length_firstPaths_iff (index : Index) (trail : List String) (limit : Nat) :
    limit < (index.firstPaths (limit + 1) trail).length ↔ limit < (index.paths trail).length := by
  rw [firstPaths_eq_take, List.length_take]
  omega

theorem paths_ne_nil (index : Index) (trail : List String) : index.paths trail ≠ [] := by
  induction trail using trail_induction index with
  | stop trail h => simp [paths_of_next_eq_nil h]
  | go trail h ih =>
    obtain ⟨id, hid⟩ := List.exists_mem_of_ne_nil _ h
    obtain ⟨path, hpath⟩ := List.exists_mem_of_ne_nil _ (ih id hid)
    rw [paths_of_next_ne_nil h]
    exact List.ne_nil_of_mem (List.mem_flatMap.2 ⟨id, hid, hpath⟩)

theorem trail_subset_of_mem_paths {trail path : List String} (h : path ∈ index.paths trail) :
    trail ⊆ path := by
  induction trail using trail_induction index with
  | stop trail hnext =>
    rw [paths_of_next_eq_nil hnext, List.mem_singleton] at h
    simp [h]
  | go trail hnext ih =>
    rw [paths_of_next_ne_nil hnext, List.mem_flatMap] at h
    obtain ⟨id, hid, hpath⟩ := h
    exact List.subset_of_cons_subset (ih id hid hpath)

/-- Going back to the start is never needed. -/
theorem reaches_off_start {trail : List String} {start id : String}
    (h : Relation.ReflTransGen (index.LeadsOff trail) start id) :
    Relation.ReflTransGen (index.LeadsOff (start :: trail)) start id := by
  induction h with
  | refl => exact .refl
  | @tail id id' _ hstep ih =>
    by_cases hstart : id' = start
    · rw [hstart]
    · exact ih.tail ⟨hstep.1, List.not_mem_cons_of_ne_of_not_mem hstart hstep.2⟩

/-- What can be reached from the end of a trail without crossing it lies on a path. -/
theorem exists_path_of_reaches_off {trail : List String} {last id : String}
    (htrail : trail.head? = some last)
    (h : Relation.ReflTransGen (index.LeadsOff trail) last id) :
    ∃ path ∈ index.paths trail, id ∈ path := by
  induction trail using trail_induction index generalizing last with
  | stop trail hnext =>
    obtain ⟨rest, rfl⟩ := List.head?_eq_some_iff.1 htrail
    rcases Relation.ReflTransGen.cases_head h with rfl | ⟨id', hstep, -⟩
    · exact ⟨_, by rw [paths_of_next_eq_nil hnext]; exact List.mem_singleton_self _, by simp⟩
    · have hmem := mem_next_iff.2 hstep
      rw [hnext] at hmem
      cases hmem
  | go trail hnext ih =>
    obtain ⟨rest, rfl⟩ := List.head?_eq_some_iff.1 htrail
    rcases Relation.ReflTransGen.cases_head h with rfl | ⟨id', hstep, hrest⟩
    · obtain ⟨path, hpath⟩ := List.exists_mem_of_ne_nil _ (paths_ne_nil index (last :: rest))
      exact ⟨path, hpath, trail_subset_of_mem_paths hpath List.mem_cons_self⟩
    · have hmem := mem_next_iff.2 hstep
      obtain ⟨path, hpath, hid⟩ := ih id' hmem rfl (reaches_off_start hrest)
      refine ⟨path, ?_, hid⟩
      rw [paths_of_next_ne_nil hnext]
      exact List.mem_flatMap.2 ⟨id', hmem, hpath⟩

/-- Every slice that can be reached from the root lies on a path from it. -/
theorem exists_path_of_reaches {root id : String}
    (h : Relation.ReflTransGen index.Leads root id) :
    ∃ path ∈ index.paths [root], id ∈ path := by
  have hoff : Relation.ReflTransGen (index.LeadsOff []) root id :=
    Relation.ReflTransGen.mono (fun _ _ hstep => ⟨hstep, List.not_mem_nil⟩) _ _ h
  exact exists_path_of_reaches_off rfl (reaches_off_start hoff)

/-- Whether two indices hold the same under some ids, and these link to no others. -/
structure AgreeOn (i j : Index) (ids : List String) : Prop where
  get? : ∀ id ∈ ids, i.get? id = j.get? id
  closed : ∀ id ∈ ids, ∀ r, i.get? id = some r → r.related ⊆ ids

namespace AgreeOn

variable {i j : Index} {ids : List String}

theorem next_eq (h : AgreeOn i j ids) {last : String} {trail : List String} (hlast : last ∈ ids) :
    i.next (last :: trail) = j.next (last :: trail) := by
  simp only [next]
  rw [← h.get? last hlast]
  cases hr : i.get? last with
  | none => rfl
  | some r =>
    refine List.filter_congr fun id hid => ?_
    rw [Table.contains_eq_isSome_get?, Table.contains_eq_isSome_get?,
      h.get? id (h.closed last hlast r hr hid)]

theorem mem_of_mem_next (h : AgreeOn i j ids) {last id : String} {trail : List String}
    (hlast : last ∈ ids) (hid : id ∈ i.next (last :: trail)) : id ∈ ids := by
  obtain ⟨⟨r, hr, hrelated, -⟩, -⟩ := mem_next_iff.1 hid
  exact h.closed last hlast r hr hrelated

/-- Paths from such an id are the same in both and stay among the ids. -/
theorem paths_eq (h : AgreeOn i j ids) (trail : List String) (hne : trail ≠ [])
    (htrail : trail ⊆ ids) :
    i.paths trail = j.paths trail ∧ ∀ path ∈ i.paths trail, path ⊆ ids := by
  induction trail using trail_induction i with
  | stop trail hnext =>
    obtain ⟨last, rest, rfl⟩ := List.exists_cons_of_ne_nil hne
    have hlast := htrail List.mem_cons_self
    have hnext' := h.next_eq hlast ▸ hnext
    rw [paths_of_next_eq_nil hnext, paths_of_next_eq_nil hnext']
    refine ⟨rfl, fun path hpath => ?_⟩
    rw [List.mem_singleton.1 hpath]
    exact List.reverse_subset.2 htrail
  | go trail hnext ih =>
    obtain ⟨last, rest, rfl⟩ := List.exists_cons_of_ne_nil hne
    have hlast := htrail List.mem_cons_self
    have hstep {id : String} (hid : id ∈ i.next (last :: rest)) :=
      ih id hid (List.cons_ne_nil _ _)
        (List.cons_subset.2 ⟨h.mem_of_mem_next hlast hid, htrail⟩)
    constructor
    · rw [paths_of_next_ne_nil hnext, paths_of_next_ne_nil (h.next_eq hlast ▸ hnext),
        ← h.next_eq hlast]
      exact List.flatMap_congr fun id hid => (hstep hid).1
    · intro path hpath
      rw [paths_of_next_ne_nil hnext, List.mem_flatMap] at hpath
      obtain ⟨id, hid, hpath⟩ := hpath
      exact (hstep hid).2 path hpath

end AgreeOn

end Backslice.Index
