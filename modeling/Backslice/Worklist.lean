import Backslice.Analysis.Reach
import Backslice.Counting
import Backslice.Store.Basic

namespace Backslice

/-- The criteria still to be sliced, first come first served. -/
structure Worklist where
  queue : List Criterion
  store : Store
  stats : SliceStats
  deriving Inhabited

namespace Worklist

/-- Slices one criterion. One whose slice is in the store is done already. -/
def process (a : Analysis) (w : Worklist) (c : Criterion) : Worklist :=
  if w.store.containsNode c.id then
    { w with stats := { w.stats with memoized := w.stats.memoized + 1 } }
  else match a.walk? c with
    | none => { w with stats := { w.stats with skipped := w.stats.skipped + 1 } }
    | some walk =>
      let children := a.children walk
      let related := (children.map Criterion.id).eraseDups
      let stats := a.countSpawned walk w.stats
      match w.store.insertIfAbsent (walk.toRecord c.id related) with
      | (true, store) =>
        { queue := w.queue ++ children
          store
          stats := { stats with processed := stats.processed + 1 } }
      | (false, _) => { w with stats := { stats with memoized := stats.memoized + 1 } }

/-- What was not in the store before the walk is not there after it. -/
theorem process_of_new {a : Analysis} {w : Worklist} {c : Criterion} {walk : Walk}
    (hnew : w.store.containsNode c.id = false) (hwalk : a.walk? c = some walk) :
    process a w c =
      { queue := w.queue ++ a.children walk
        store := w.store.insert (walk.toRecord c.id ((a.children walk).map Criterion.id).eraseDups)
        stats := { a.countSpawned walk w.stats with
          processed := (a.countSpawned walk w.stats).processed + 1 } } := by
  have hinsert := Store.insertIfAbsent_of_new (s := w.store)
    (r := walk.toRecord c.id ((a.children walk).map Criterion.id).eraseDups) rfl hnew
  simp only [process, hnew, hwalk, hinsert]
  rfl

/-- The ids that walks can lead to and that are not in the store. -/
def unstored (a : Analysis) (s : Store) : Nat :=
  (a.reachableIds.filter fun id => !s.containsNode id).length

/-- The criteria with ids that no walk leads to. -/
def foreign (a : Analysis) (queue : List Criterion) : Nat :=
  (queue.filter fun c => c.id ∉ a.reachableIds).length

/-- The work that is left: a slice is stored once, and no walk adds foreign criteria. -/
def work (a : Analysis) (w : Worklist) : Nat × Nat × Nat :=
  (unstored a w.store, foreign a w.queue, w.queue.length)

theorem foreign_append_children {a : Analysis} {c : Criterion} {walk : Walk}
    (h : a.walk? c = some walk) (queue : List Criterion) :
    foreign a (queue ++ a.children walk) = foreign a queue := by
  have none : (a.children walk).filter (fun c => c.id ∉ a.reachableIds) = [] := by
    rw [List.filter_eq_nil_iff]
    intro d hd
    simpa using Analysis.id_mem_of_mem_children h hd
  rw [foreign, foreign, List.filter_append, none, List.append_nil]

theorem work_tail_lt {a : Analysis} {w : Worklist} {c : Criterion} {rest : List Criterion}
    (h : w.queue = c :: rest) (stats : SliceStats) :
    Prod.Lex (· < ·) (Prod.Lex (· < ·) (· < ·)) (work a ⟨rest, w.store, stats⟩) (work a w) := by
  unfold work
  refine Prod.Lex.right _ ?_
  rw [h, foreign, foreign, List.filter_cons]
  split
  · exact Prod.Lex.left _ _ (Nat.lt_succ_self _)
  · exact Prod.Lex.right _ (Nat.lt_succ_self _)

theorem work_insert_lt {a : Analysis} {w : Worklist} {c : Criterion} {rest : List Criterion}
    {walk : Walk} {r : Record} (h : w.queue = c :: rest) (hnew : w.store.containsNode c.id = false)
    (hwalk : a.walk? c = some walk) (hr : r.nodeId? = some c.id) (stats : SliceStats) :
    Prod.Lex (· < ·) (Prod.Lex (· < ·) (· < ·))
      (work a ⟨rest ++ a.children walk, w.store.insert r, stats⟩) (work a w) := by
  have keeps (id : String) (hid : (!(w.store.insert r).containsNode id) = true) :
      (!w.store.containsNode id) = true := by
    cases hc : w.store.containsNode id
    · rfl
    · simp [Store.containsNode_insert_of_containsNode hc r] at hid
  unfold work
  by_cases hmem : c.id ∈ a.reachableIds
  · refine Prod.Lex.left _ _ (length_filter_lt_of_mem hmem (by simp [hnew]) ?_ keeps)
    simp [Store.containsNode_insert_self w.store hr]
  · have hle : unstored a (w.store.insert r) ≤ unstored a w.store :=
      length_filter_le_of_imp _ keeps
    rcases Nat.lt_or_eq_of_le hle with hlt | heq
    · exact Prod.Lex.left _ _ hlt
    · rw [heq]
      refine Prod.Lex.right _ (Prod.Lex.left _ _ ?_)
      rw [foreign_append_children hwalk, h, foreign, foreign, List.filter_cons]
      simp [hmem]

theorem work_process_lt {a : Analysis} {w : Worklist} {c : Criterion} {rest : List Criterion}
    (h : w.queue = c :: rest) :
    Prod.Lex (· < ·) (Prod.Lex (· < ·) (· < ·)) (work a (process a { w with queue := rest } c))
      (work a w) := by
  cases hstored : w.store.containsNode c.id with
  | true =>
    simp only [process, hstored, if_true]
    exact work_tail_lt h _
  | false =>
    cases hwalk : a.walk? c with
    | none =>
      simp only [process, hstored, hwalk, Bool.false_eq_true, if_false]
      exact work_tail_lt h _
    | some walk =>
      rw [process_of_new (w := { w with queue := rest }) hstored hwalk]
      exact work_insert_lt h hstored hwalk rfl _

/-- Works until nothing is left. -/
def run (a : Analysis) (w : Worklist) : Worklist :=
  match _h : w.queue with
  | [] => w
  | c :: rest => run a (process a { w with queue := rest } c)
termination_by work a w
decreasing_by exact work_process_lt _h

def sliceAll (a : Analysis) (w : Worklist) (criteria : List Criterion) : Worklist :=
  run a { w with queue := w.queue ++ criteria }

end Worklist

end Backslice
