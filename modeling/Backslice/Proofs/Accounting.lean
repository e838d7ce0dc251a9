import Mathlib.Data.List.Perm.Basic
import Backslice.Proofs.Turns

namespace Backslice

namespace Store

def nodeIdOf? : Json → Option String
  | .obj members => members.lookup "nodeId" >>= Json.str?
  | _ => none

def nodeIds (s : Store) : List String := s.documents.filterMap nodeIdOf?

theorem nodeIdOf?_toJson (r : Record) : nodeIdOf? r.toJson = r.nodeId? := by
  cases h : r.nodeId? <;> simp [nodeIdOf?, Record.toJson, h, List.lookup_cons, Json.str?]

theorem nodeIds_insert (s : Store) (r : Record) :
    (s.insert r).nodeIds = s.nodeIds ++ r.nodeId?.toList := by
  cases h : r.nodeId? <;> simp [nodeIds, insert, nodeIdOf?_toJson, h]

theorem containsNode_of_mem_nodeIds {s : Store} {id : String} (h : id ∈ s.nodeIds) :
    s.containsNode id = true := by
  obtain ⟨doc, hdoc, hid⟩ := List.mem_filterMap.1 h
  have hholds : Predicate.holdAll [nodePredicate id] doc = true := by
    unfold nodeIdOf? at hid
    split at hid
    · rename_i members
      obtain ⟨v, hv, hid⟩ := Option.bind_eq_some_iff.1 hid
      unfold Json.str? at hid
      split at hid
      · cases hid
        simp [Predicate.holdAll, Predicate.holds, nodePredicate, Path.resolve_singleton,
          Path.step, hv, Predicate.matchesValue, Json.same]
      · cases hid
    · cases hid
  have hne : s.select [nodePredicate id] ≠ [] :=
    List.ne_nil_of_mem (List.mem_filter.2 ⟨hdoc, hholds⟩)
  simpa [containsNode] using hne

end Store

/-- Every criterion that a walk leads to is counted once, under the reason it came up. -/
theorem Analysis.total_countSpawned (a : Analysis) (w : Walk) (s : SliceStats) :
    let t := a.countSpawned w s
    t.upward + t.downward + t.fieldWriters =
      s.upward + s.downward + s.fieldWriters + (a.children w).length := by
  have hsplit := ((List.filter_append_perm Spawn.isDownward w.spawns).flatMap_right
    (a.spawned w)).length_eq
  simp only [List.flatMap_append, List.length_append] at hsplit
  simp only [countSpawned, children, List.partition_eq_filter_filter, List.length_append,
    Function.comp_def]
  omega

namespace Worklist

structure Accounted (passed : Nat) (old : Store) (w : Worklist) : Prop where
  balance : passed + w.stats.upward + w.stats.downward + w.stats.fieldWriters =
    w.stats.processed + w.stats.memoized + w.stats.skipped + w.queue.length
  appended : ∃ records : List Record,
    w.store.documents = old.documents ++ records.map Record.toJson ∧
      records.length = w.stats.processed
  nodup : old.nodeIds.Nodup → w.store.nodeIds.Nodup

theorem Accounted.start (store : Store) (criteria : List Criterion) :
    Accounted criteria.length store ⟨criteria, store, {}⟩ where
  balance := by simp
  appended := ⟨[], by simp, rfl⟩
  nodup := id

theorem Accounted.turn {a : Analysis} {passed : Nat} {old : Store} {u v : Worklist}
    (hturn : Turn a u v) (h : Accounted passed old u) : Accounted passed old v := by
  cases hturn with
  | @slice c rest hqueue =>
    have hbalance := h.balance
    rw [hqueue, List.length_cons] at hbalance
    rcases process_cases a { u with queue := rest } c with
      ⟨-, heq⟩ | ⟨-, -, heq⟩ | ⟨hnew, walk, -, heq⟩
    · rw [heq]
      exact { h with balance := by simp only; omega }
    · rw [heq]
      exact { h with balance := by simp only; omega }
    · rw [heq]
      let r := walk.toRecord c.id ((a.children walk).map Criterion.id).eraseDups
      obtain ⟨records, hstore, hlength⟩ := h.appended
      refine ⟨?_, ⟨records ++ [r], ?_, ?_⟩, fun hold => ?_⟩
      · have htotal := a.total_countSpawned walk u.stats
        have hrest : (a.countSpawned walk u.stats).memoized = u.stats.memoized ∧
            (a.countSpawned walk u.stats).skipped = u.stats.skipped := ⟨rfl, rfl⟩
        simp only [List.length_append] at htotal ⊢
        omega
      · simp [Store.insert, hstore, r]
      · simp [hlength]
      · -- an id that is there already would have passed for stored
        have hfresh : c.id ∉ u.store.nodeIds := by
          intro hmem
          rw [Store.containsNode_of_mem_nodeIds hmem] at hnew
          cases hnew
        rw [Store.nodeIds_insert]
        exact (h.nodup hold).append (List.nodup_singleton c.id) (List.disjoint_singleton.2 hfresh)

/-- All criteria, given or come upon, are accounted for at the end of a run. It leaves the documents
of the store as they are and puts one behind them for each criterion it slices, never a second one
for the same node. -/
theorem sliceAll_accounted (a : Analysis) (store : Store) (criteria : List Criterion) :
    let w := sliceAll a ⟨[], store, {}⟩ criteria
    criteria.length + w.stats.upward + w.stats.downward + w.stats.fieldWriters =
        w.stats.processed + w.stats.memoized + w.stats.skipped ∧
      (∃ records : List Record,
        w.store.documents = store.documents ++ records.map Record.toJson ∧
          records.length = w.stats.processed) ∧
      (store.nodeIds.Nodup → w.store.nodeIds.Nodup) := by
  intro w
  have hend : Accounted criteria.length store w :=
    turns_preserve (fun _ _ => Accounted.turn) (turns_run a _) (Accounted.start store criteria)
  refine ⟨?_, hend.appended, hend.nodup⟩
  have hbalance := hend.balance
  rw [show w.queue = [] from queue_run a _] at hbalance
  simpa using hbalance

end Worklist

end Backslice
