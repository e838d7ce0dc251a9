import Mathlib.Data.List.Induction
import Backslice.Proofs.Table
import Backslice.CallGraph.Branches

namespace Backslice

@[simp] theorem Body.length_ofStmts (method : String) (stmts : List Stmt) :
    (Body.ofStmts method stmts).length = stmts.length := by
  simp [Body.ofStmts]

theorem Body.getElem?_ofStmts (method : String) (stmts : List Stmt) (k : Nat) :
    (Body.ofStmts method stmts)[k]? = stmts[k]?.map (Instruction.ofStmt method k) := by
  simp [Body.ofStmts]

def Body.IsNumbered (body : Body) : Prop :=
  ∀ (k : Nat) (i : Instruction), body[k]? = some i → i.index = k

theorem Body.isNumbered_ofStmts (method : String) (stmts : List Stmt) :
    (Body.ofStmts method stmts).IsNumbered := by
  intro k i hi
  rw [Body.getElem?_ofStmts] at hi
  obtain ⟨s, -, rfl⟩ := Option.map_eq_some_iff.1 hi
  rfl

namespace Ascending

theorem strictOrder_pairLt : StrictOrder pairLt := by
  have hlt : StrictOrder fun a b : Nat => decide (a < b) := {
    irrefl := by simp
    trans := fun h h' => by
      simp only [decide_eq_true_eq] at h h' ⊢
      omega
    total := fun hne h => by
      simp only [decide_eq_true_eq, decide_eq_false_iff_not] at h ⊢
      omega }
  exact .lex hlt hlt Prod.fst Prod.snd fun _ _ => Prod.ext

theorem nodup_ofList {α : Type} [DecidableEq α] {lt : α → α → Bool} (o : StrictOrder lt)
    (l : List α) : (ofList lt l).Nodup := by
  refine (pairwise_ofList o l).imp ?_
  intro a b hlt heq
  rw [heq, o.irrefl] at hlt
  cases hlt

end Ascending

namespace Branches

theorem ofBody_concat (method : String) (stmts : List Stmt) (s : Stmt) :
    ofBody (Body.ofStmts method (stmts ++ [s])) =
      (ofBody (Body.ofStmts method stmts)).record stmts.length s := by
  simp [ofBody, Body.ofStmts, List.mapIdx_append, Instruction.ofStmt]

theorem mem_jumps {b : Branches} {j : Nat × Nat} :
    j ∈ b.jumps ↔ j ∈ b.gotos ∨ j ∈ b.conditionals ∨
      ∃ targets, (j.1, targets) ∈ b.switches.entries ∧ j.2 ∈ targets := by
  obtain ⟨k, t⟩ := j
  simp only [jumps, List.mem_append, List.mem_flatMap, List.mem_map, Prod.mk.injEq, or_assoc]
  refine or_congr_right (or_congr_right ⟨?_, ?_⟩)
  · rintro ⟨⟨k', targets⟩, he, t', ht, rfl, rfl⟩
    exact ⟨targets, he, ht⟩
  · rintro ⟨targets, he, ht⟩
    exact ⟨(k, targets), he, t, ht, rfl, rfl⟩

/-- A statement at an index that the table has no switch for adds the jumps to its targets. -/
theorem mem_jumps_record {b : Branches} {index : Nat} {s : Stmt} {j : Nat × Nat}
    (hnew : ∀ e ∈ b.switches.entries, e.1 ≠ index) :
    j ∈ (b.record index s).jumps ↔ j ∈ b.jumps ∨ j.1 = index ∧ j.2 ∈ s.targets := by
  obtain ⟨k, t⟩ := j
  cases s with
  | goto target => simp [record, mem_jumps, Stmt.targets, or_assoc, or_comm]
  | branch cond target => simp [record, mem_jumps, Stmt.targets, or_assoc, or_left_comm, or_comm]
  | switch key cases default =>
    simp only [record, mem_jumps, Table.mem_entries_insert, Prod.mk.injEq, or_assoc]
    refine or_congr_right (or_congr_right ⟨?_, ?_⟩)
    · rintro ⟨targets, ⟨rfl, rfl⟩ | ⟨he, -⟩, ht⟩
      · exact .inr ⟨rfl, ht⟩
      · exact .inl ⟨targets, he, ht⟩
    · rintro (⟨targets, he, ht⟩ | ⟨rfl, ht⟩)
      · exact ⟨targets, .inr ⟨he, hnew _ he⟩, ht⟩
      · exact ⟨_, .inl ⟨rfl, rfl⟩, ht⟩
  | _ => simp [record, Stmt.targets]

theorem switches_ofBody_lt (method : String) (stmts : List Stmt) :
    ∀ e ∈ (ofBody (Body.ofStmts method stmts)).switches.entries, e.1 < stmts.length := by
  induction stmts using List.reverseRecOn with
  | nil => simp [ofBody, Body.ofStmts, empty, Table.empty]
  | append_singleton stmts s ih =>
    intro e he
    have hold (h : e ∈ (ofBody (Body.ofStmts method stmts)).switches.entries) :
        e.1 < (stmts ++ [s]).length := by
      have := ih e h
      simp only [List.length_append, List.length_singleton]
      omega
    rw [ofBody_concat] at he
    cases s with
    | switch key cases default =>
      rcases Table.mem_entries_insert.1 he with rfl | ⟨he, -⟩
      · simp
      · exact hold he
    | _ => exact hold he

/-- The jumps of a numbered body are the pairs of an index and a target of the statement there. -/
theorem mem_jumps_ofBody {method : String} {stmts : List Stmt} {j : Nat × Nat} :
    j ∈ (ofBody (Body.ofStmts method stmts)).jumps ↔
      ∃ s, stmts[j.1]? = some s ∧ j.2 ∈ s.targets := by
  -- statements are recorded in order, so the last one is the one to take off
  induction stmts using List.reverseRecOn with
  | nil => simp [mem_jumps, ofBody, Body.ofStmts, empty, Table.empty]
  | append_singleton stmts s ih =>
    have hnew : ∀ e ∈ (ofBody (Body.ofStmts method stmts)).switches.entries,
        e.1 ≠ stmts.length := by
      intro e he
      have := switches_ofBody_lt method stmts e he
      omega
    rw [ofBody_concat, mem_jumps_record hnew, ih]
    obtain ⟨k, t⟩ := j
    rcases Nat.lt_trichotomy k stmts.length with hlt | rfl | hgt
    · simp [List.getElem?_append_left hlt, Nat.ne_of_lt hlt]
    · simp
    · have h : stmts[k]? = none := List.getElem?_eq_none (by omega)
      have h' : (stmts ++ [s])[k]? = none := List.getElem?_eq_none (by simp; omega)
      simp [h, h', Nat.ne_of_gt hgt]

/-- Every jump of a body starts at an instruction, whatever the numbers of the instructions. -/
theorem source_of_mem_jumps_ofBody {body : Body} {j : Nat × Nat} (h : j ∈ (ofBody body).jumps) :
    ∃ i ∈ body, i.index = j.1 := by
  have hrecord {b : Branches} {index : Nat} {s : Stmt} (h : j ∈ (b.record index s).jumps) :
      j ∈ b.jumps ∨ j.1 = index := by
    cases s with
    | switch key cases default =>
      simp only [record, mem_jumps, Table.mem_entries_insert, Prod.mk.injEq] at h ⊢
      grind
    | _ =>
      simp only [record, mem_jumps, List.mem_append, List.mem_singleton] at h ⊢
      grind
  induction body using List.reverseRecOn with
  | nil => simp [mem_jumps, ofBody, empty, Table.empty] at h
  | append_singleton body i ih =>
    rw [ofBody, List.foldl_append] at h
    rcases hrecord h with h | h
    · obtain ⟨i', hi', hindex⟩ := ih h
      exact ⟨i', List.mem_append_left _ hi', hindex⟩
    · exact ⟨i, by simp, h.symm⟩

theorem source_lt_of_mem_jumps_ofBody {body : Body} (hbody : body.IsNumbered) {j : Nat × Nat}
    (h : j ∈ (ofBody body).jumps) : j.1 < body.length := by
  obtain ⟨i, hi, hindex⟩ := source_of_mem_jumps_ofBody h
  obtain ⟨k, hk⟩ := List.mem_iff_getElem?.1 hi
  rw [← hindex, hbody k i hk]
  exact (List.getElem?_eq_some_iff.1 hk).1

theorem nodup_backEdges (b : Branches) : b.backEdges.Nodup :=
  Ascending.nodup_ofList Ascending.strictOrder_pairLt _

theorem mem_forwardJumps {b : Branches} {j : Nat × Nat} :
    j ∈ b.forwardJumps ↔ j ∈ b.jumps ∧ j.1 < j.2 := by
  simp [forwardJumps, Ascending.mem_ofList]

theorem mem_backEdges {b : Branches} {j : Nat × Nat} :
    j ∈ b.backEdges ↔ j ∈ b.jumps ∧ j.2 ≤ j.1 := by
  simp [backEdges, Ascending.mem_ofList]

end Branches

end Backslice
