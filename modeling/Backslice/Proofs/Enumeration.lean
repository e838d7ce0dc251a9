import Mathlib.Order.WellFounded
import Backslice.Proofs.GroupPaths

/-!
The paths that a group is merged along, against a description that does not search for them: the
simple paths from the root that cannot go on, ordered by where they turn off. A search with a stack
of trails and a limit, which looks at one trail a turn, comes to an end with the same paths.
-/

namespace Backslice.Index

variable {index : Index}

/-- Whether a list of ids is a path from the root that cannot go on: each slice lists the next one,
none comes twice, and all that the last one lists is on the path already. -/
structure IsFullPath (index : Index) (root : String) (path : List String) : Prop where
  head : path.head? = some root
  steps : path.IsChain index.Leads
  nodup : path.Nodup
  full : ∀ last ∈ path.getLast?, ∀ id, index.Leads last id → id ∈ path

/-- Whether two paths part where the slice that they share lists the way of the first one
earlier. -/
inductive Before (index : Index) : List String → List String → Prop
  | part {last a b : String} {r : Record} (start p q : List String)
    (hr : index.get? last = some r) (h : r.related.idxOf a < r.related.idxOf b) :
    Before index (start ++ last :: a :: p) (start ++ last :: b :: q)

structure Lists (index : Index) (root : String) (paths : List (List String)) : Prop where
  mem_iff : ∀ path, path ∈ paths ↔ index.IsFullPath root path
  ordered : paths.Pairwise index.Before

structure Completes (index : Index) (last : String) (rest ids : List String) : Prop where
  steps : (last :: ids).IsChain index.Leads
  nodup : ids.Nodup
  new : ∀ id ∈ ids, id ∉ last :: rest
  full : ∀ end' ∈ (last :: ids).getLast?, ∀ id, index.Leads end' id → id ∈ last :: rest ∨ id ∈ ids

theorem next_eq_nil_iff {last : String} {rest : List String} :
    index.next (last :: rest) = [] ↔ ∀ id, index.Leads last id → id ∈ last :: rest := by
  rw [List.eq_nil_iff_forall_not_mem]
  refine forall_congr' fun id => ?_
  rw [mem_next_iff, LeadsOff, not_and_not_right]

namespace Completes

variable {last id : String} {rest ids : List String}

theorem nil_iff : Completes index last rest [] ↔ index.next (last :: rest) = [] := by
  rw [next_eq_nil_iff]
  constructor
  · intro h id hid
    simpa using h.full last rfl id hid
  · exact fun h => ⟨.singleton _, .nil, by simp, by simpa using h⟩

theorem cons_iff : Completes index last rest (id :: ids) ↔
    id ∈ index.next (last :: rest) ∧ Completes index id (last :: rest) ids := by
  rw [mem_next_iff]
  constructor
  · rintro ⟨hsteps, hnodup, hnew, hfull⟩
    obtain ⟨hlead, hsteps⟩ := List.isChain_cons_cons.1 hsteps
    obtain ⟨hid, hnodup⟩ := List.nodup_cons.1 hnodup
    refine ⟨⟨hlead, hnew id List.mem_cons_self⟩, hsteps, hnodup, fun x hx => ?_,
      fun e he x hx => ?_⟩
    · have hne : x ≠ id := fun heq => hid (heq ▸ hx)
      exact List.not_mem_cons_of_ne_of_not_mem hne (hnew x (List.mem_cons_of_mem _ hx))
    · have := hfull e (by rwa [List.getLast?_cons_cons]) x hx
      simp only [List.mem_cons] at this ⊢
      tauto
  · rintro ⟨⟨hlead, hoff⟩, hsteps, hnodup, hnew, hfull⟩
    have hid : id ∉ ids := fun hmem => hnew id hmem List.mem_cons_self
    refine ⟨List.isChain_cons_cons.2 ⟨hlead, hsteps⟩, List.nodup_cons.2 ⟨hid, hnodup⟩, ?_, ?_⟩
    · intro x hx
      rcases List.mem_cons.1 hx with rfl | hx
      · exact hoff
      · exact fun hmem => hnew x hx (List.mem_cons_of_mem _ hmem)
    · intro e he x hx
      rw [List.getLast?_cons_cons] at he
      have := hfull e he x hx
      simp only [List.mem_cons] at this ⊢
      tauto

end Completes

/-- The paths from a trail are the trail with all that completes it. -/
theorem mem_paths_iff_completes {last : String} {rest path : List String} :
    path ∈ index.paths (last :: rest) ↔
      ∃ ids, path = (last :: rest).reverse ++ ids ∧ Completes index last rest ids := by
  suffices h : ∀ trail, ∀ last rest, trail = last :: rest → (path ∈ index.paths trail ↔
      ∃ ids, path = trail.reverse ++ ids ∧ Completes index last rest ids) from h _ _ _ rfl
  intro trail
  induction trail using trail_induction index with
  | stop trail hnext =>
    rintro last rest rfl
    rw [paths_of_next_eq_nil hnext, List.mem_singleton]
    constructor
    · rintro rfl
      exact ⟨[], by simp, Completes.nil_iff.2 hnext⟩
    · rintro ⟨ids, rfl, hids⟩
      cases ids with
      | nil => simp
      | cons id ids =>
        have hmem := (Completes.cons_iff.1 hids).1
        rw [hnext] at hmem
        cases hmem
  | go trail hnext ih =>
    rintro last rest rfl
    rw [paths_of_next_ne_nil hnext, List.mem_flatMap]
    constructor
    · rintro ⟨id, hid, hpath⟩
      obtain ⟨ids, rfl, hids⟩ := (ih id hid id _ rfl).1 hpath
      exact ⟨id :: ids, by simp, Completes.cons_iff.2 ⟨hid, hids⟩⟩
    · rintro ⟨ids, rfl, hids⟩
      cases ids with
      | nil => exact absurd (Completes.nil_iff.1 hids) hnext
      | cons id ids =>
        obtain ⟨hid, hids⟩ := Completes.cons_iff.1 hids
        exact ⟨id, hid, (ih id hid id _ rfl).2 ⟨ids, by simp, hids⟩⟩

theorem mem_paths_iff {root : String} {path : List String} :
    path ∈ index.paths [root] ↔ index.IsFullPath root path := by
  rw [mem_paths_iff_completes]
  constructor
  · rintro ⟨ids, rfl, hids⟩
    have hroot : root ∉ ids := fun hmem => hids.new root hmem List.mem_cons_self
    refine ⟨rfl, hids.steps, List.nodup_cons.2 ⟨hroot, hids.nodup⟩, fun last hlast id hid => ?_⟩
    simpa using hids.full last hlast id hid
  · intro h
    obtain ⟨ids, rfl⟩ := List.head?_eq_some_iff.1 h.head
    obtain ⟨hroot, hnodup⟩ := List.nodup_cons.1 h.nodup
    refine ⟨ids, rfl, h.steps, hnodup, fun id hid => ?_, fun last hlast id hid => ?_⟩
    · have hne : id ≠ root := fun heq => hroot (heq ▸ hid)
      simpa using hne
    · simpa using h.full last hlast id hid

section Order

/-- Links that are listed once come in the order of their places. -/
theorem pairwise_idxOf_next {last : String} {rest : List String} {r : Record}
    (hr : index.get? last = some r) (hnodup : r.related.Nodup) :
    (index.next (last :: rest)).Pairwise fun a b => r.related.idxOf a < r.related.idxOf b := by
  have hall : r.related.Pairwise fun a b => r.related.idxOf a < r.related.idxOf b := by
    rw [List.pairwise_iff_getElem]
    intro i j hi hj hlt
    rwa [hnodup.idxOf_getElem i hi, hnodup.idxOf_getElem j hj]
  simp only [next, hr]
  exact hall.filter _

theorem pairwise_before_paths (hnodup : ∀ id r, index.get? id = some r → r.related.Nodup)
    (last : String) (rest : List String) :
    (index.paths (last :: rest)).Pairwise index.Before := by
  suffices h : ∀ trail, ∀ last rest, trail = last :: rest →
      (index.paths trail).Pairwise index.Before from h _ _ _ rfl
  intro trail
  induction trail using trail_induction index with
  | stop trail hnext =>
    intro last rest _
    rw [paths_of_next_eq_nil hnext]
    exact List.pairwise_singleton ..
  | go trail hnext ih =>
    rintro last rest rfl
    obtain ⟨r, hr⟩ : ∃ r, index.get? last = some r := by
      obtain ⟨id, hid⟩ := List.exists_mem_of_ne_nil _ hnext
      obtain ⟨⟨r, hr, -⟩, -⟩ := mem_next_iff.1 hid
      exact ⟨r, hr⟩
    rw [paths_of_next_ne_nil hnext, List.pairwise_flatMap]
    refine ⟨fun id hid => ih id hid id _ rfl, ?_⟩
    refine (pairwise_idxOf_next hr (hnodup last r hr)).imp fun {a b} hlt p hp q hq => ?_
    obtain ⟨p', rfl, -⟩ := mem_paths_iff_completes.1 hp
    obtain ⟨q', rfl, -⟩ := mem_paths_iff_completes.1 hq
    simpa using Before.part rest.reverse p' q' hr hlt

/-- Two lists part at one place only. -/
theorem parting_eq {l m a b c d : String} {start start' p q p' q' : List String} (hab : a ≠ b)
    (hcd : c ≠ d) (hp : start ++ l :: a :: p = start' ++ m :: c :: p')
    (hq : start ++ l :: b :: q = start' ++ m :: d :: q') : l = m ∧ a = c ∧ b = d := by
  induction start generalizing start' with
  | nil =>
    cases start' with
    | nil =>
      simp only [List.nil_append, List.cons.injEq] at hp hq
      exact ⟨hp.1, hp.2.1, hq.2.1⟩
    | cons x start' =>
      cases start' <;> simp_all
  | cons x start ih =>
    cases start' with
    | nil => cases start <;> simp_all
    | cons y start' =>
      simp only [List.cons_append, List.cons.injEq] at hp hq
      exact ih hp.2 hq.2

theorem Before.asymm {p q : List String} (h : index.Before p q) : ¬ index.Before q p := by
  intro h'
  obtain ⟨start, p, q, hr, hlt⟩ := h
  generalize hp : start ++ _ :: _ :: p = x at h'
  generalize hq : start ++ _ :: _ :: q = y at h'
  obtain ⟨start', q', p', hr', hlt'⟩ := h'
  have hne {a b : String} {ids : List String} (h : ids.idxOf a < ids.idxOf b) : a ≠ b := by
    rintro rfl
    exact Nat.lt_irrefl _ h
  obtain ⟨rfl, rfl, rfl⟩ := parting_eq (hne hlt) (hne hlt').symm hp hq
  rw [hr, Option.some.injEq] at hr'
  subst hr'
  exact Nat.lt_asymm hlt hlt'

end Order

theorem Lists.nodup {root : String} {paths : List (List String)} (h : index.Lists root paths) :
    paths.Nodup :=
  h.ordered.imp fun {p q} hlt heq => by
    subst heq
    exact hlt.asymm hlt

theorem Lists.eq {root : String} {paths paths' : List (List String)}
    (h : index.Lists root paths) (h' : index.Lists root paths') : paths = paths' := by
  have hperm : paths.Perm paths' := (List.perm_ext_iff_of_nodup h.nodup h'.nodup).2 fun path => by
    rw [h.mem_iff, h'.mem_iff]
  exact hperm.eq_of_pairwise (fun _ _ _ _ hlt hgt => absurd hgt hlt.asymm) h.ordered h'.ordered

theorem lists_paths (hnodup : ∀ id r, index.get? id = some r → r.related.Nodup) (root : String) :
    index.Lists root (index.paths [root]) :=
  ⟨fun _ => mem_paths_iff, pairwise_before_paths hnodup root []⟩

structure Search where
  stack : List (List String)
  found : List (List String)

namespace Search

variable {limit : Nat} {s t : Search}

/-- A turn looks at the trail on top of the stack. A trail that cannot go on is a path, if there is
room for it. -/
inductive Turn (index : Index) (limit : Nat) : Search → Search → Prop
  | keep {trail : List String} {stack found : List (List String)} (h : index.next trail = [])
    (hroom : found.length ≠ limit) :
    Turn index limit ⟨trail :: stack, found⟩ ⟨stack, found ++ [trail.reverse]⟩
  | part {trail : List String} {stack found : List (List String)} (h : index.next trail ≠ []) :
    Turn index limit ⟨trail :: stack, found⟩
      ⟨(index.next trail).map (· :: trail) ++ stack, found⟩

def Turns (index : Index) (limit : Nat) : Search → Search → Prop :=
  Relation.ReflTransGen (Turn index limit)

inductive Stops (index : Index) (limit : Nat) : Search → Bool → Prop
  | drained (found : List (List String)) : Stops index limit ⟨[], found⟩ false
  | full {trail : List String} {stack found : List (List String)} (h : index.next trail = [])
    (hroom : found.length = limit) : Stops index limit ⟨trail :: stack, found⟩ true

def ofRoot (root : String) : Search := ⟨[[root]], []⟩

/-- All paths that the search would come to without a limit. -/
def outlook (index : Index) (s : Search) : List (List String) :=
  s.found ++ s.stack.flatMap index.paths

theorem outlook_of_turn (h : Turn index limit s t) : s.outlook index = t.outlook index := by
  cases h with
  | keep h => simp [outlook, paths_of_next_eq_nil h]
  | part h => simp [outlook, paths_of_next_ne_nil h, List.flatMap_map]

theorem length_found_le_of_turn (h : Turn index limit s t) (hs : s.found.length ≤ limit) :
    t.found.length ≤ limit := by
  cases h with
  | keep h hroom =>
    dsimp only at hs ⊢
    rw [List.length_append, List.length_singleton]
    omega
  | part h => exact hs

theorem stops_or_turns (index : Index) (limit : Nat) (s : Search) :
    (∃ b, Stops index limit s b) ∨ ∃ t, Turn index limit s t := by
  obtain ⟨stack, found⟩ := s
  cases stack with
  | nil => exact .inl ⟨false, .drained found⟩
  | cons trail stack =>
    by_cases h : index.next trail = []
    · by_cases hroom : found.length = limit
      · exact .inl ⟨true, .full h hroom⟩
      · exact .inr ⟨_, .keep h hroom⟩
    · exact .inr ⟨_, .part h⟩

/-- A trail more on the stack does not keep the search from ending. -/
theorem acc_turn_cons (index : Index) (limit : Nat) (trail : List String)
    {stack : List (List String)}
    (h : ∀ found, Acc (fun t s => Turn index limit s t) ⟨stack, found⟩)
    (found : List (List String)) :
    Acc (fun t s => Turn index limit s t) ⟨trail :: stack, found⟩ := by
  induction trail using trail_induction index generalizing stack found with
  | stop trail hnext =>
    refine .intro _ fun t ht => ?_
    cases ht with
    | keep => exact h _
    | part hne => exact absurd hnext hne
  | go trail hnext ih =>
    refine .intro _ fun t ht => ?_
    cases ht with
    | keep hnil => exact absurd hnil hnext
    | part =>
      -- the ways to go on are put on the stack, the last one first
      suffices hpush : ∀ ids ⊆ index.next trail, ∀ found,
          Acc (fun t s => Turn index limit s t) ⟨ids.map (· :: trail) ++ stack, found⟩ from
        hpush _ (List.Subset.refl _) found
      intro ids
      induction ids with
      | nil => exact fun _ found => h found
      | cons id ids ihids =>
        intro hids
        obtain ⟨hid, hids⟩ := List.cons_subset.1 hids
        exact ih id hid (ihids hids)

theorem acc_turn (index : Index) (limit : Nat) (s : Search) :
    Acc (fun t s => Turn index limit s t) s := by
  obtain ⟨stack, found⟩ := s
  induction stack generalizing found with
  | nil => exact .intro _ fun t ht => by cases ht
  | cons trail stack ih => exact acc_turn_cons index limit trail ih found

theorem exists_stops (index : Index) (limit : Nat) (s : Search) :
    ∃ t b, Turns index limit s t ∧ Stops index limit t b := by
  induction acc_turn index limit s with
  | intro s _ ih =>
    rcases stops_or_turns index limit s with ⟨b, hb⟩ | ⟨u, hu⟩
    · exact ⟨s, b, .refl, hb⟩
    · obtain ⟨t, b, hturns, hb⟩ := ih u hu
      exact ⟨t, b, .head hu hturns, hb⟩

/-- No turn changes what all paths are or goes beyond the limit. -/
theorem kept_of_turns {root : String} (h : Turns index limit (ofRoot root) t) :
    t.outlook index = index.paths [root] ∧ t.found.length ≤ limit := by
  induction h with
  | refl => simp [outlook, ofRoot]
  | tail _ hturn ih =>
    exact ⟨(outlook_of_turn hturn).symm.trans ih.1, length_found_le_of_turn hturn ih.2⟩

/-- Where the search is over, it has found the first paths, as many as there is room for. -/
theorem found_of_stops {root : String} {b : Bool} (hturns : Turns index limit (ofRoot root) t)
    (hstops : Stops index limit t b) :
    t.found = (index.paths [root]).take limit ∧
      b = decide (limit < (index.paths [root]).length) := by
  obtain ⟨hpaths, hroom⟩ := kept_of_turns hturns
  rw [← hpaths]
  cases hstops with
  | drained found =>
    have hroom : found.length ≤ limit := hroom
    simp [outlook, hroom]
  | full hnext hfull => simp [outlook, paths_of_next_eq_nil hnext, ← hfull]

end Search

end Backslice.Index

namespace Backslice.Merger

open Index (Search)

/-- Whatever links the slices of a store have, the search along them comes to an end with the paths
that the group is merged along and whether there are more. If no slice lists another one twice,
these are the first of all full paths, each of which is there once, in the order of the links. -/
theorem enumerates_full_paths (config : Config) {records : List Record}
    (hfits : ∀ r ∈ records, r.Fits) (hunique : (Record.ids records).Nodup) {m : Merger}
    (hm : Faithful m records) {loaded : List Record} (hloaded : loaded ⊆ records) (root : String) :
    let index := Record.index records
    let limit := config.maxMergePaths
    let result := enumerate config ⟨m.store, seeGroup m.seen loaded⟩ root
    (¬ ∃ turns : Nat → Search, turns 0 = .ofRoot root ∧
      ∀ n, Search.Turn index limit (turns n) (turns (n + 1))) ∧
    (∃ s b, Search.Turns index limit (.ofRoot root) s ∧ Search.Stops index limit s b) ∧
    (∀ s b, Search.Turns index limit (.ofRoot root) s → Search.Stops index limit s b →
      result = (s.found, b)) ∧
    ((∀ r ∈ records, r.related.Nodup) → ∃ paths : List (List String),
      (∀ paths', index.Lists root paths' ↔ paths' = paths) ∧ paths.Nodup ∧
      result = if limit < paths.length then (paths.take limit, true) else (paths, false)) := by
  intro index limit result
  have hresult : result =
      ((index.paths [root]).take limit, decide (limit < (index.paths [root]).length)) :=
    (hm.seeGroup hunique hloaded).enumerate_eq hfits config root
  refine ⟨?_, Search.exists_stops index limit _, fun s b hturns hstops => ?_, fun hnodup => ?_⟩
  · rintro ⟨turns, h0, hturns⟩
    have hnone := acc_iff_isEmpty_descending_chain.1 (Search.acc_turn index limit (.ofRoot root))
    exact hnone.false ⟨turns, h0, hturns⟩
  · obtain ⟨hfound, rfl⟩ := Search.found_of_stops hturns hstops
    rw [hresult, hfound]
  · have hlists : index.Lists root (index.paths [root]) :=
      Index.lists_paths (fun id r hr => by
        rw [Record.get?_index hfits] at hr
        exact hnodup r (List.mem_of_find?_eq_some hr)) root
    refine ⟨index.paths [root], fun paths' => ⟨fun h => h.eq hlists, fun h => h ▸ hlists⟩,
      hlists.nodup, ?_⟩
    rw [hresult]
    split
    · rename_i hmore
      rw [decide_eq_true hmore]
    · rename_i hall
      rw [decide_eq_false hall, List.take_of_length_le (Nat.not_lt.1 hall)]

def linking (id : String) (related : List String) : Record :=
  { nodeId? := some id, group := "a", related, caller := "", target := "", positions := []
    live := .empty, content := [] }

/-- Two slices in a circle, a third one behind the first, and a link to nowhere. -/
def linkedRecords : List Record := [linking "a" ["b", "x", "c"], linking "b" ["a"], linking "c" []]

theorem fits_linkedRecords : ∀ r ∈ linkedRecords, r.Fits := by
  intro r hr position hposition
  simp only [linkedRecords, List.mem_cons, List.not_mem_nil, or_false] at hr
  rcases hr with rfl | rfl | rfl <;> cases hposition

theorem paths_linkedRecords :
    (Record.index linkedRecords).paths ["a"] = [["a", "b"], ["a", "c"]] := by
  have hnext (last : String) (rest : List String) :
      (Record.index linkedRecords).next (last :: rest) =
        (((Record.ofNode? linkedRecords last).map (·.related)).getD []).filter fun id =>
          (Record.ofNode? linkedRecords id).isSome && id ∉ last :: rest := by
    simp only [Index.next, Table.contains_eq_isSome_get?, Record.get?_index fits_linkedRecords]
    cases Record.ofNode? linkedRecords last <;> rfl
  have hroot : (Record.index linkedRecords).next ["a"] = ["b", "c"] := by
    rw [hnext]
    decide +kernel
  have hback : (Record.index linkedRecords).next ["b", "a"] = [] := by
    rw [hnext]
    decide +kernel
  have hend : (Record.index linkedRecords).next ["c", "a"] = [] := by
    rw [hnext]
    decide +kernel
  rw [Index.paths_of_next_ne_nil (by simp [hroot]), hroot]
  simp [Index.paths_of_next_eq_nil hback, Index.paths_of_next_eq_nil hend]

theorem enumerates_full_paths_linkedRecords :
    let m : Merger := .ofStore (.ofRecords linkedRecords)
    let config := { Config.default with maxMergePaths := 1 }
    (∀ r ∈ linkedRecords, r.Fits) ∧ (Record.ids linkedRecords).Nodup ∧
      Faithful m linkedRecords ∧ (∀ r ∈ linkedRecords, r.related.Nodup) ∧
      enumerate config ⟨m.store, seeGroup m.seen linkedRecords⟩ "a" = ([["a", "b"]], true) := by
  intro m config
  have hunique : (Record.ids linkedRecords).Nodup := by decide
  have hnodup : ∀ r ∈ linkedRecords, r.related.Nodup := by decide
  have hm : Faithful m linkedRecords := .ofStore linkedRecords
  refine ⟨fits_linkedRecords, hunique, hm, hnodup, ?_⟩
  obtain ⟨-, -, -, hexact⟩ := enumerates_full_paths config fits_linkedRecords hunique hm
    (List.Subset.refl linkedRecords) "a"
  obtain ⟨paths, honly, -, hresult⟩ := hexact hnodup
  have hpaths : paths = [["a", "b"], ["a", "c"]] := by
    rw [← (honly _).1 (Index.lists_paths (fun id r hr => ?_) "a"), paths_linkedRecords]
    rw [Record.get?_index fits_linkedRecords] at hr
    exact hnodup r (List.mem_of_find?_eq_some hr)
  rw [hpaths] at hresult
  exact hresult

end Backslice.Merger
