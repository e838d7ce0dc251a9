import Mathlib.Logic.Relation
import Mathlib.Order.OrderIsoNat
import Backslice.Worklist

namespace Backslice.Worklist

/-- A criterion is passed over because its slice is stored, given up because it does not resolve, or
sliced; only then the queue and the store grow. -/
theorem process_cases (a : Analysis) (w : Worklist) (c : Criterion) :
    (w.store.containsNode c.id = true ∧
      process a w c = { w with stats := { w.stats with memoized := w.stats.memoized + 1 } }) ∨
    (w.store.containsNode c.id = false ∧ a.walk? c = none ∧
      process a w c = { w with stats := { w.stats with skipped := w.stats.skipped + 1 } }) ∨
    (w.store.containsNode c.id = false ∧ ∃ walk, a.walk? c = some walk ∧
      process a w c =
        { queue := w.queue ++ a.children walk
          store := w.store.insert
            (walk.toRecord c.id ((a.children walk).map Criterion.id).eraseDups)
          stats := { a.countSpawned walk w.stats with processed := w.stats.processed + 1 } }) := by
  cases hstored : w.store.containsNode c.id with
  | true => exact .inl ⟨rfl, by simp [process, hstored]⟩
  | false =>
    cases hwalk : a.walk? c with
    | none => exact .inr (.inl ⟨rfl, rfl, by simp [process, hstored, hwalk]⟩)
    | some walk => exact .inr (.inr ⟨rfl, walk, rfl, process_of_new hstored hwalk⟩)

inductive Turn (a : Analysis) : Worklist → Worklist → Prop
  | slice {w : Worklist} {c : Criterion} {rest : List Criterion} (h : w.queue = c :: rest) :
    Turn a w (process a { w with queue := rest } c)

abbrev Turns (a : Analysis) : Worklist → Worklist → Prop := Relation.ReflTransGen (Turn a)

theorem turn_rightUnique (a : Analysis) : Relator.RightUnique (Turn a) := by
  intro u v v' hv hv'
  cases hv with
  | slice h =>
    cases hv' with
    | slice h' =>
      rw [h] at h'
      cases h'
      rfl

theorem queue_ne_nil_of_turn {a : Analysis} {u v : Worklist} (h : Turn a u v) : u.queue ≠ [] := by
  cases h with
  | slice h => simp [h]

theorem work_lt_of_turn {a : Analysis} {u v : Worklist} (h : Turn a u v) :
    Prod.Lex (· < ·) (Prod.Lex (· < ·) (· < ·)) (work a v) (work a u) := by
  cases h with
  | slice h => exact work_process_lt h

/-- Ids that are not stored come first in the measure, then the criteria that no walk leads to, then
the length of the queue. -/
theorem acc_turn (a : Analysis) (w : Worklist) : Acc (fun v u => Turn a u v) w := by
  have hwf : WellFounded (Prod.Lex (· < ·) (Prod.Lex (· < ·) (· < ·)) :
      Nat × Nat × Nat → Nat × Nat × Nat → Prop) :=
    (Prod.lex Nat.lt_wfRel (Prod.lex Nat.lt_wfRel Nat.lt_wfRel)).wf
  have hsub : Subrelation (fun v u => Turn a u v)
      (InvImage (Prod.Lex (· < ·) (Prod.Lex (· < ·) (· < ·))) (work a)) := work_lt_of_turn
  exact hsub.accessible ((InvImage.wf (work a) hwf).apply w)

theorem turns_run (a : Analysis) (w : Worklist) : Turns a w (run a w) := by
  fun_induction run a w with
  | case1 w h => exact .refl
  | case2 w c rest h ih => exact .head (.slice h) ih

theorem queue_run (a : Analysis) (w : Worklist) : (run a w).queue = [] := by
  fun_induction run a w with
  | case1 w h => exact h
  | case2 w c rest h ih => exact ih

theorem turns_preserve {a : Analysis} {P : Worklist → Prop}
    (hstep : ∀ u v, Turn a u v → P u → P v) {w v : Worklist} (hturns : Turns a w v) (hw : P w) :
    P v := by
  induction hturns with
  | refl => exact hw
  | tail _ hturn ih => exact hstep _ _ hturn ih

theorem run_of_turn {a : Analysis} {u v : Worklist} (h : Turn a u v) : run a u = run a v := by
  cases h with
  | @slice c rest hqueue =>
    rw [run]
    split
    · rename_i hnil
      rw [hqueue] at hnil
      cases hnil
    · rename_i hcons
      rw [hqueue] at hcons
      cases hcons
      rfl

theorem run_of_turns {a : Analysis} {u v : Worklist} (h : Turns a u v) : run a u = run a v := by
  induction h with
  | refl => rfl
  | tail _ hturn ih => exact ih.trans (run_of_turn hturn)

/-- A criterion that resolves leaves the queue only when there is a slice of it. -/
theorem containsNode_or_mem_queue_of_turn {a : Analysis} {c : Criterion}
    (hwalk : (a.walk? c).isSome = true) {u v : Worklist} (hturn : Turn a u v)
    (h : u.store.containsNode c.id = true ∨ c ∈ u.queue) :
    v.store.containsNode c.id = true ∨ c ∈ v.queue := by
  cases hturn with
  | @slice d rest hqueue =>
    rw [hqueue, List.mem_cons] at h
    rcases process_cases a { u with queue := rest } d with
      ⟨hstored, heq⟩ | ⟨-, hnone, heq⟩ | ⟨-, walk, -, heq⟩
    · rw [heq]
      rcases h with h | rfl | h
      · exact .inl h
      · exact .inl hstored
      · exact .inr h
    · rw [heq]
      rcases h with h | rfl | h
      · exact .inl h
      · rw [hnone] at hwalk
        cases hwalk
      · exact .inr h
    · rw [heq]
      rcases h with h | rfl | h
      · exact .inl (Store.containsNode_insert_of_containsNode h _)
      · exact .inl (Store.containsNode_insert_self _ rfl)
      · exact .inr (List.mem_append_left _ h)

theorem containsNode_run_of_mem_queue {a : Analysis} {c : Criterion} {w : Worklist}
    (hwalk : (a.walk? c).isSome = true) (hc : c ∈ w.queue) :
    (run a w).store.containsNode c.id = true := by
  rcases turns_preserve (fun _ _ => containsNode_or_mem_queue_of_turn hwalk) (turns_run a w)
    (.inr hc) with h | h
  · exact h
  · rw [queue_run] at h
    cases h

/-- Whatever the program, the graph, the store and the queue, the turns come to an end, and where
they end the queue is empty. -/
theorem turns_end_drained (a : Analysis) (w : Worklist) :
    (¬ ∃ turns : Nat → Worklist, turns 0 = w ∧ ∀ n, Turn a (turns n) (turns (n + 1))) ∧
      Turns a w (run a w) ∧ (run a w).queue = [] ∧
      ∀ v, Turns a w v → v.queue = [] → v = run a w := by
  refine ⟨?_, turns_run a w, queue_run a w, fun v hv hqueue => ?_⟩
  · rintro ⟨turns, h0, hturns⟩
    have hnone := acc_iff_isEmpty_descending_chain.1 (acc_turn a w)
    exact hnone.false ⟨turns, h0, hturns⟩
  · have stops {u v : Worklist} (hu : u.queue = []) (h : Turns a u v) : u = v := by
      rcases Relation.ReflTransGen.cases_head h with heq | ⟨x, hturn, -⟩
      · exact heq
      · exact absurd hu (queue_ne_nil_of_turn hturn)
    -- of two runs from the same state, one goes on where the other stops
    rcases Relation.ReflTransGen.total_of_right_unique (turn_rightUnique a) hv (turns_run a w)
      with h | h
    · exact stops hqueue h
    · exact (stops (queue_run a w) h).symm

end Backslice.Worklist
