import Backslice.Proofs.DeadCode
import Backslice.Proofs.Handovers

/-!
The arguments that a replay captures are those of its first live call of the method. Where every
jump is a branch to a later index the replay is right at each live index, however the branches
overlap, so each captured argument is the one that any run passes there.
-/

namespace Backslice.Segment

open Replay

variable {g : Segment} {k n : Nat} {s : Stmt} {callee : String} {args : List (Option Known)}

/-- Whether every jump is that of a branch and leads to a later index. -/
def BranchesForward (stmts : List Stmt) : Prop :=
  ∀ (k : Nat) s, stmts[k]? = some s → ∀ t ∈ s.targets, k < t ∧ ∃ cond, s = .branch cond t

namespace BranchesForward

theorem inLoop_eq_false (h : BranchesForward g.stmts) (k : Nat) : g.branches.inLoop k = false := by
  rw [Branches.inLoop, List.any_eq_false]
  intro edge hedge
  obtain ⟨hjump, hback⟩ := Branches.mem_backEdges.1 hedge
  obtain ⟨s, hs, htarget⟩ := Branches.mem_jumps_ofBody.1 hjump
  have hforward := (h edge.1 s hs edge.2 htarget).1
  omega

/-- Where a branch leads into code that another one makes dead, it is not taken itself: what it
would pass over has that other branch in it. -/
theorem guarded (h : BranchesForward g.stmts) : g.Guarded where
  entry := by
    intro k s t hs ht hlive hdead
    obtain ⟨hkt, cond, rfl⟩ := h k s hs t ht
    obtain ⟨i, c, target, hi, hilive, ⟨hv, hit, htarget⟩ | ⟨-, -, join, hgoto, -⟩⟩ :=
      isDead_iff.1 hdead
    · refine ⟨cond, t, rfl, ?_⟩
      -- `i` is the branch that makes the target dead
      rcases Nat.lt_trichotomy k i with hki | rfl | hik
      · cases hverdict : g.verdict k cond with
        | notTaken => rfl
        | taken =>
          exact absurd (isDead_iff.2 ⟨k, cond, t, hs, hlive, .inl ⟨hverdict, hki, hit⟩⟩) hilive
        | unknown =>
          have huncertain := not_isCertain hs hlive hverdict (.inl ⟨hki, hit⟩)
          simp [verdict, huncertain] at hv
      · rw [hs, Option.some.injEq, Stmt.branch.injEq] at hi
        omega
      · exact absurd
          (isDead_iff.2 ⟨i, c, target, hi, hilive, .inl ⟨hv, hik, by omega⟩⟩) hlive
    · obtain ⟨-, _, hbranch⟩ := h _ _ hgoto join (by simp [Stmt.targets])
      cases hbranch
  passage := by
    intro k s t hs ht hbranch
    obtain ⟨-, cond, heq⟩ := h k s hs t ht
    exact absurd heq (hbranch cond t)

end BranchesForward

theorem args?_step (body : Body) (params : List (Option Known)) (r : Replay) (certain : Bool) :
    (r.step body params certain k s).args? = r.args? := by
  cases s with
  | identity dest rhs => cases rhs <;> rfl
  | assign lhs rhs => cases lhs <;> rfl
  | branch cond target =>
    simp only [step]
    split
    · cases (if certain then r.frame.judge cond else .unknown) <;> rfl
    · rfl
  | _ => rfl

/-- A visit captures the arguments of a call of the method if none were captured before. -/
theorem args?_upTo_succ (hcallee : g.callee? = some callee) (hs : g.stmts[k]? = some s)
    (hlive : (g.upTo k).dead.contains k = false) :
    (g.upTo (k + 1)).args? = (g.upTo k).args?.or
      ((s.call?.filter fun c => c.method.text = callee).map fun c =>
        c.args.map (g.frame k).operand?) := by
  rw [upTo_succ hs, hcallee]
  simp only [visit, hlive, Bool.false_eq_true, if_false]
  rw [args?_step]
  exact args?_capture (g.upTo k) s

theorem callAt?_body (g : Segment) (k : Nat) :
    callAt? g.body k = g.stmts[k]?.bind Stmt.call? := by
  rw [callAt?, body, Body.getElem?_ofStmts]
  cases g.stmts[k]? <;> rfl

/-- Nothing is captured as long as the calls of the method are dead. -/
theorem args?_upTo_eq_none_iff (hcallee : g.callee? = some callee) :
    (g.upTo n).args? = none ↔ ∀ k < n, CallsAt g.body callee k → g.IsDead k := by
  have hsome : (g.upTo n).args? ≠ none ↔ ∃ k < n, ∃ s, g.stmts[k]? = some s ∧
      (g.upTo k).dead.contains k = false ∧ ∃ c ∈ s.call?, c.method.text = callee := by
    refine upTo_iff (P := fun r => r.args? ≠ none) (fun h => h rfl) fun k s hs hlive => ?_
    rw [args?_upTo_succ hcallee hs hlive]
    cases hargs : (g.upTo k).args? with
    | some args => simp
    | none => simp
  constructor
  · intro hnone k hk hcall
    by_contra hlive
    obtain ⟨c, hc, htext⟩ := hcall
    rw [callAt?_body] at hc
    obtain ⟨s, hs, hcall⟩ := Option.bind_eq_some_iff.1 hc
    exact hsome.2 ⟨k, hk, s, hs, not_isDead_iff_upTo.1 hlive, c, hcall, htext⟩ hnone
  · intro hdead
    by_contra hne
    obtain ⟨k, hk, s, hs, hlive, c, hc, htext⟩ := hsome.1 hne
    refine not_isDead_iff_upTo.2 hlive (hdead k hk ⟨c, ?_, htext⟩)
    rw [callAt?_body, hs]
    exact hc

/-- What is captured is known at the first live call of the method. -/
theorem args?_replay_eq_some_iff (hcallee : g.callee? = some callee) :
    g.replay.args? = some args ↔ ∃ k call, callAt? g.body k = some call ∧
      call.method.text = callee ∧ ¬ g.IsDead k ∧
      (∀ j < k, CallsAt g.body callee j → g.IsDead j) ∧
      args = call.args.map (g.frame k).operand? := by
  rw [← upTo_of_length_le (Nat.le_refl g.stmts.length)]
  have hiff : (g.upTo g.stmts.length).args? = some args ↔ ∃ k < g.stmts.length, ∃ s,
      g.stmts[k]? = some s ∧ (g.upTo k).dead.contains k = false ∧ (g.upTo k).args? = none ∧
        ∃ c ∈ s.call?, c.method.text = callee ∧ args = c.args.map (g.frame k).operand? := by
    refine upTo_iff (P := fun r => r.args? = some args) (by simp [start]) fun k s hs hlive => ?_
    rw [args?_upTo_succ hcallee hs hlive]
    cases hargs : (g.upTo k).args? with
    | some args => simp
    | none =>
      simp only [Option.none_or, Option.map_eq_some_iff, Option.filter_eq_some_iff,
        decide_eq_true_eq, reduceCtorEq, false_or, true_and]
      constructor
      · rintro ⟨c, ⟨hc, htext⟩, rfl⟩
        exact ⟨c, hc, htext, rfl⟩
      · rintro ⟨c, hc, htext, rfl⟩
        exact ⟨c, ⟨hc, htext⟩, rfl⟩
  rw [hiff]
  constructor
  · rintro ⟨k, -, s, hs, hlive, hnone, c, hc, htext, hargs⟩
    refine ⟨k, c, ?_, htext, not_isDead_iff_upTo.2 hlive,
      (args?_upTo_eq_none_iff hcallee).1 hnone, hargs⟩
    rw [callAt?_body, hs]
    exact hc
  · rintro ⟨k, c, hc, htext, hlive, hdead, hargs⟩
    rw [callAt?_body] at hc
    obtain ⟨s, hs, hcall⟩ := Option.bind_eq_some_iff.1 hc
    exact ⟨k, (List.getElem?_eq_some_iff.1 hs).1, s, hs, not_isDead_iff_upTo.1 hlive,
      (args?_upTo_eq_none_iff hcallee).2 hdead, c, hcall, htext, hargs⟩

/-- The arguments that a replay captures are those of its first live call of the method. Whatever
run comes to that call with the known parameters passes what is known of each argument there. -/
theorem captured_arguments_are_exact (method : String) (stmts : List Stmt)
    (params : List (Option Known)) (callee : String) (hforward : BranchesForward stmts)
    (args : List (Option Known))
    (hargs : (Replay.ofBody (.ofStmts method stmts) params (some callee)).args? = some args) :
    ∃ c call, callAt? (.ofStmts method stmts) c = some call ∧ call.method.text = callee ∧
      args.length = call.args.length ∧
      (∀ k ≤ c, CallsAt (.ofStmts method stmts) callee k →
        ((Replay.ofBody (.ofStmts method stmts) params (some callee)).dead.contains k = true ↔
          k < c)) ∧
      ∀ arguments : Nat → Datum,
        (∀ (n : Nat) v, params[n]? = some (some v) → arguments n = .known v) →
        ∀ locals σ, Runs stmts arguments ⟨0, locals⟩ σ → σ.index = c →
          ∀ (n : Nat) v arg, args[n]? = some (some v) → call.args[n]? = some arg →
            Datum.arithmetic.operand? σ.locals arg = some (.known v) := by
  let g : Segment := ⟨method, stmts, params, some callee⟩
  obtain ⟨c, call, hcall, htext, hlive, hfirst, rfl⟩ :=
    (args?_replay_eq_some_iff (g := g) rfl).1 hargs
  refine ⟨c, call, hcall, htext, List.length_map _, fun k hk hcalls => ?_, ?_⟩
  · constructor
    · intro hdead
      refine Nat.lt_of_le_of_ne hk ?_
      rintro rfl
      exact hlive hdead
    · exact fun hlt => hfirst k hlt hcalls
  · intro arguments hagree locals σ hrun hindex n v arg hv harg
    have hg : g.Guarded := BranchesForward.guarded hforward
    have hsound : g.Sound σ := .of_runs hg hagree hrun
    have hframe : (g.frame σ.index).Agrees σ.locals :=
      hsound.agrees_frame (BranchesForward.inLoop_eq_false hforward σ.index)
    rw [List.getElem?_map, harg, Option.map_some, Option.some.injEq, ← hindex] at hv
    exact hframe.operand? hv

def useMethod : MethodSig := ⟨"a.C", .void, "use", [.int, .string, .int]⟩

/-- A number is known behind branches that cross, and a name is not. -/
def crossedBranches : List Stmt :=
  [.identity ⟨"i0", .int⟩ (.parameter 0 .int),
    .assign (.loc ⟨"i1", .int⟩) (.const (.int 5)),
    .branch ⟨.eq, .loc ⟨"i1", .int⟩, .const (.int 5)⟩ 4,
    .assign (.loc ⟨"i1", .int⟩) (.const (.int 6)),
    .branch ⟨.ge, .loc ⟨"i0", .int⟩, .const (.int 3)⟩ 7,
    .assign (.loc ⟨"r1", .string⟩) (.const (.str "DES")),
    .branch ⟨.ge, .loc ⟨"i0", .int⟩, .const (.int 2)⟩ 8,
    .assign (.loc ⟨"r1", .string⟩) (.const (.str "AES")),
    .assign (.loc ⟨"i2", .int⟩) (.binOp .add (.loc ⟨"i1", .int⟩) (.const (.int 1))),
    .invoke ⟨.static, none, useMethod,
      [.loc ⟨"i1", .int⟩, .loc ⟨"r1", .string⟩, .loc ⟨"i2", .int⟩]⟩,
    .retVoid]

theorem branchesForward_crossedBranches : BranchesForward crossedBranches := by
  intro k s hs t ht
  have hall : ∀ i ∈ crossedBranches.zipIdx, ∀ t ∈ i.1.targets,
      i.2 < t ∧ ∃ cond, i.1 = .branch cond t := by
    simp [crossedBranches, Stmt.targets]
  exact hall (s, k) (List.mk_mem_zipIdx_iff_getElem?.2 hs) t ht

theorem captured_arguments_are_exact_crossedBranches :
    BranchesForward crossedBranches ∧
      (Replay.ofBody (.ofStmts "m" crossedBranches) [none] (some useMethod.text)).args? =
        some [some (.int 5), none, some (.int 6)] ∧
      ∀ arguments locals σ, Runs crossedBranches arguments ⟨0, locals⟩ σ → σ.index = 9 →
        σ.locals "i1" = .known (.int 5) ∧ σ.locals "i2" = .known (.int 6) := by
  have hargs : (Replay.ofBody (.ofStmts "m" crossedBranches) [none] (some useMethod.text)).args? =
      some [some (.int 5), none, some (.int 6)] := by decide +kernel
  refine ⟨branchesForward_crossedBranches, hargs, fun arguments locals σ hrun hindex => ?_⟩
  obtain ⟨c, call, hcall, htext, -, -, hexact⟩ := captured_arguments_are_exact "m" crossedBranches
    [none] useMethod.text branchesForward_crossedBranches _ hargs
  have honly : ∀ k < 11, CallsAt (.ofStmts "m" crossedBranches) useMethod.text k → k = 9 := by
    decide +kernel
  obtain rfl : c = 9 := honly c (CallsAt.lt ⟨call, hcall, htext⟩) ⟨call, hcall, htext⟩
  cases hcall
  have hvalue := hexact arguments (fun n v hv => by cases n <;> cases hv) locals σ hrun hindex
  exact ⟨Option.some.inj (hvalue 0 _ _ rfl rfl), Option.some.inj (hvalue 2 _ _ rfl rfl)⟩

end Backslice.Segment
