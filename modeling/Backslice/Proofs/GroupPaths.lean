import Backslice.Proofs.Continuations
import Backslice.Proofs.Requests

namespace Backslice

namespace Merger

/-- The paths that a group is merged along, and whether there are more of them. -/
def enumerate (config : Config) (m : Merger) (root : String) : List (List String) × Bool :=
  let found := m.index.firstPaths (config.maxMergePaths + 1) [root]
  (found.take config.maxMergePaths, config.maxMergePaths < found.length)

theorem Faithful.enumerate_eq {m : Merger} {records : List Record} (h : Faithful m records)
    (hfits : ∀ r ∈ records, r.Fits) (config : Config) (root : String) :
    let paths := (Record.index records).paths [root]
    m.enumerate config root =
      (paths.take config.maxMergePaths, decide (config.maxMergePaths < paths.length)) := by
  simp only [enumerate, h.index_eq hfits, Index.take_firstPaths_succ,
    Index.lt_length_firstPaths_iff]

end Merger

namespace Pipeline

/-- The mergers that come about in requests: a fresh one between two requests or within one, when
the slicing is done, and what it becomes as it merges groups. -/
inductive Merges (p : Pipeline) : Merger → Prop
  | between {rs : List Request} (hrs : ∀ r ∈ rs, r.Fits) : Merges p (.ofStore (p.storeAfter rs))
  | within {rs : List Request} {r : Request} (hrs : ∀ r ∈ rs, r.Fits) (hr : r.Fits) :
    Merges p (.ofStore (Worklist.sliceAll p.analysis ⟨[], p.storeAfter rs, {}⟩
      (r.criteria p.program)).store)
  | group {m : Merger} (hm : Merges p m) (root : String) :
    Merges p (m.mergeGroup p.program p.config root).2

variable (p : Pipeline)

theorem Merges.faithful {m : Merger} (h : p.Merges m) :
    ∃ records, Merger.Faithful m records ∧ Record.Woven [] records := by
  induction h with
  | @between rs hrs =>
    obtain ⟨records, hstore, hwoven⟩ := p.storeAfter_woven rs hrs
    rw [hstore]
    exact ⟨records, .ofStore records, hwoven⟩
  | @within rs r hrs hr =>
    obtain ⟨records, hstore, hwoven⟩ := p.storeAfter_woven rs hrs
    obtain ⟨sliced, hstore', -, hwoven', -⟩ := p.sliceAll_woven hwoven hr
    rw [hstore, hstore']
    exact ⟨_, .ofStore _, hwoven'⟩
  | @group m _ root ih =>
    obtain ⟨records, hfaithful, hwoven⟩ := ih
    obtain ⟨merged, hmerged, hfaithful'⟩ := hfaithful.mergeGroup p.program p.config hwoven root
    exact ⟨_, hfaithful', hwoven.append_merged hmerged⟩

/-- The slices of a group hang together, whatever was asked before. So merging loses no slice:
unless there are more paths than the limit allows, each slice of the group lies on one of the paths
that the group is merged along. -/
theorem groups_connected_and_enumerated :
    (∀ rs : List Request, (∀ r ∈ rs, r.Fits) →
      ∃ records, p.storeAfter rs = .ofRecords records ∧
        ∀ d ∈ records, d.isMerged = false → Record.Connected records d) ∧
    ∀ m, p.Merges m → ∃ records, m.store = .ofRecords records ∧
      ∀ d ∈ records, ∀ id, d.nodeId? = some id →
        let result := (m.enumerate p.config d.group).1.foldl
          (Merger.addPath p.program p.config m.index d.group) ({}, m.store)
        (Record.mergedOf records d.group = [] →
          ∃ seen, m.mergeGroup p.program p.config d.group =
            (.ok { result.1 with truncated := (m.enumerate p.config d.group).2 },
              ⟨result.2, seen⟩)) ∧
        ((m.enumerate p.config d.group).2 = false →
          ∃ path ∈ (m.enumerate p.config d.group).1, id ∈ path) := by
  constructor
  · intro rs hrs
    obtain ⟨records, hstore, hwoven⟩ := p.storeAfter_woven rs hrs
    exact ⟨records, hstore, hwoven.connected⟩
  · intro m hm
    obtain ⟨records, hfaithful, hwoven⟩ := hm.faithful
    refine ⟨records, hfaithful.store, fun d hd id hid => ?_⟩
    simp only [hfaithful.enumerate_eq hwoven.fits, hfaithful.index_eq hwoven.fits]
    constructor
    · intro hnone
      obtain ⟨root, hroot, hrootId, -⟩ := hwoven.connected d hd (by simp [Record.isMerged, hid])
      obtain ⟨seen, heq, -⟩ := Merger.mergeGroup_of_root p.program p.config hwoven hfaithful hnone
        (Record.mem_ids.2 ⟨root, hroot, hrootId⟩)
      exact ⟨seen, heq⟩
    · intro hall
      rw [decide_eq_false_iff_not, Nat.not_lt] at hall
      rw [List.take_of_length_le hall]
      exact Index.exists_path_of_reaches (hwoven.reaches hd hid)

open Worklist

def askNameUsed : Request := { caller := takeName.text, target := "use", kind := .invocation }

def passingPipeline : Pipeline := ⟨passedName 0, .default, .ofProgram ⟨[]⟩ (passedName 0)⟩

theorem criteria_askNameUsed : askNameUsed.criteria passingPipeline.program = [nameUsed] := by
  decide +kernel

theorem paths_nameUsed {used given : Record} (hfits : ∀ r ∈ [used, given], r.Fits)
    (hused : used.nodeId? = some nameUsed.id ∧ used.related = [nameGiven.id])
    (hgiven : given.nodeId? = some nameGiven.id) (hrelated : given.related = []) :
    (Record.index [used, given]).paths [nameUsed.id] = [[nameUsed.id, nameGiven.id]] := by
  have hne := nameGiven_ne_nameUsed
  have hgetUsed : (Record.index [used, given]).get? nameUsed.id = some used := by
    simp [Record.get?_index hfits, Record.ofNode?_cons, hused.1]
  have hgetGiven : (Record.index [used, given]).get? nameGiven.id = some given := by
    simp [Record.get?_index hfits, Record.ofNode?_cons, hused.1, hne.symm, hgiven]
  have hnext : (Record.index [used, given]).next [nameUsed.id] = [nameGiven.id] := by
    simp [Index.next, hgetUsed, hused.2, Table.contains_eq_isSome_get?, hgetGiven, hne]
  have hstop : (Record.index [used, given]).next [nameGiven.id, nameUsed.id] = [] := by
    simp [Index.next, hgetGiven, hrelated]
  rw [Index.paths_of_next_ne_nil (by simp [hnext]), hnext, List.flatMap_singleton,
    Index.paths_of_next_eq_nil hstop]
  rfl

theorem groups_connected_and_enumerated_nameUsed :
    let m : Merger := .ofStore (sliceAll passingPipeline.analysis
      ⟨[], passingPipeline.storeAfter [], {}⟩ (askNameUsed.criteria passingPipeline.program)).store
    (∃ records, passingPipeline.storeAfter [askNameUsed] = .ofRecords records ∧
      ∀ d ∈ records, d.isMerged = false → Record.Connected records d) ∧
    passingPipeline.Merges m ∧ ∃ records, m.store = .ofRecords records ∧
      ∃ d ∈ records, d.nodeId? = some nameGiven.id ∧ d.group = nameUsed.id ∧
        (m.enumerate passingPipeline.config nameUsed.id).2 = false ∧
        ∃ path ∈ (m.enumerate passingPipeline.config nameUsed.id).1, nameGiven.id ∈ path := by
  intro m
  have hask : askNameUsed.Fits := by decide
  have hmerges : passingPipeline.Merges m := .within (by simp) hask
  obtain ⟨hconnected, henumerated⟩ := groups_connected_and_enumerated passingPipeline
  refine ⟨hconnected [askNameUsed] (by simpa using hask), hmerges, ?_⟩
  obtain ⟨records, hstore, hpaths⟩ := henumerated m hmerges
  obtain ⟨used, given, hstore', hfits, hused, hgiven, hrelated, hgroup⟩ := run_nameUsed (n := 0)
    (by decide +kernel) (by decide +kernel)
  have hm : m.store = .ofRecords [used, given] := by
    rw [← hstore', ← criteria_askNameUsed]
    rfl
  have hmem : given.toJson ∈ (Store.ofRecords records).documents := by
    rw [← hstore, hm]
    simp [Store.ofRecords]
  obtain ⟨d, hd, hjson⟩ := List.mem_map.1 hmem
  have hid : d.nodeId? = some nameGiven.id := (Record.nodeId?_eq_of_toJson hjson).trans hgiven
  have hdgroup : d.group = nameUsed.id := (Record.group_eq_of_toJson hjson).trans hgroup
  have hall : (m.enumerate passingPipeline.config nameUsed.id).2 = false := by
    have hfaithful : Merger.Faithful m [used, given] := ⟨hm, fun _ _ h => by cases h⟩
    rw [hfaithful.enumerate_eq hfits, paths_nameUsed hfits hused hgiven hrelated]
    rfl
  refine ⟨records, hstore, d, hd, hid, hdgroup, hall, ?_⟩
  have hpath := (hpaths d hd nameGiven.id hid).2
  rw [hdgroup] at hpath
  exact hpath hall

end Pipeline

end Backslice
