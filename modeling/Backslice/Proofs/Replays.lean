import Backslice.Proofs.Branches
import Backslice.Proofs.Runs

/-!
What a replay says of each index. A visit adds ranges that start behind its index, so that what is
said of an index is settled when the replay gets there: an index is dead because of a live branch
that is decided, uncertain because of one that is not, and the frame after a live statement is that
before it with the local that the statement assigns.
-/

namespace Backslice

namespace Ranges

theorem contains_add (r : Ranges) (first last p : Nat) :
    (r.add first last).contains p = true ↔ r.contains p = true ∨ first ≤ p ∧ p ≤ last := by
  unfold add
  split
  · simp [contains, List.any_append]
  · rename_i h
    constructor
    · exact .inl
    · rintro (hp | hp)
      · exact hp
      · omega

end Ranges

namespace Replay

def FirstArm (k target p : Nat) : Prop := k < p ∧ p < target

/-- The indices that the end of the first arm of a branch passes over. -/
def SecondArm (stmts : List Stmt) (k target p : Nat) : Prop :=
  k + 1 < target ∧ ∃ join, stmts[target - 1]? = some (.goto join) ∧ target ≤ p ∧ p < join

theorem FirstArm.lt {k target p : Nat} (h : FirstArm k target p) : k < target ∧ k < p :=
  ⟨Nat.lt_trans h.1 h.2, h.1⟩

theorem SecondArm.lt {stmts : List Stmt} {k target p : Nat} (h : SecondArm stmts k target p) :
    k < target ∧ k < p := by
  obtain ⟨hk, join, -, hp, -⟩ := h
  omega

variable {method : String} {stmts : List Stmt} {k target p : Nat}

theorem contains_addRange?_elseArm? (r : Ranges) :
    (addRange? r (elseArm? (Body.ofStmts method stmts) k target)).contains p = true ↔
      r.contains p = true ∨ SecondArm stmts k target p := by
  unfold elseArm? SecondArm
  rw [Body.getElem?_ofStmts]
  split
  · rename_i hle
    simp only [addRange?]
    constructor
    · exact .inl
    · rintro (hp | ⟨hk, -⟩)
      · exact hp
      · omega
  · rename_i hle
    cases hs : stmts[target - 1]? with
    | none => simp [addRange?]
    | some s =>
      cases s with
      | goto join =>
        simp only [Option.map_some, Instruction.ofStmt, Option.some.injEq, Stmt.goto.injEq]
        split
        · simp only [addRange?, Ranges.contains_add]
          constructor
          · rintro (hp | hp)
            · exact .inl hp
            · exact .inr ⟨by omega, join, rfl, by omega⟩
          · rintro (hp | ⟨-, j, rfl, hp⟩)
            · exact .inl hp
            · exact .inr (by omega)
        · rename_i hjoin
          simp only [addRange?]
          constructor
          · exact .inl
          · rintro (hp | ⟨-, j, rfl, hp⟩)
            · exact hp
            · omega
      | _ => simp [addRange?, Instruction.ofStmt]

/-- Whether a statement is a forward branch that makes an index dead by the way it is decided. -/
def Cuts (stmts : List Stmt) (k : Nat) (s : Stmt) (decide : Condition → Decision) (p : Nat) :
    Prop :=
  ∃ cond target, s = .branch cond target ∧ k < target ∧
    (decide cond = .taken ∧ FirstArm k target p ∨
      decide cond = .notTaken ∧ SecondArm stmts k target p)

/-- Whether a statement is a forward branch that is not decided and has the index in an arm. -/
def Blurs (stmts : List Stmt) (k : Nat) (s : Stmt) (decide : Condition → Decision) (p : Nat) :
    Prop :=
  ∃ cond target, s = .branch cond target ∧ k < target ∧ decide cond = .unknown ∧
    (FirstArm k target p ∨ SecondArm stmts k target p)

theorem Cuts.lt {s : Stmt} {decide : Condition → Decision} (h : Cuts stmts k s decide p) :
    k < p := by
  obtain ⟨cond, target, -, -, ⟨-, hp⟩ | ⟨-, hp⟩⟩ := h
  · exact hp.lt.2
  · exact hp.lt.2

theorem Blurs.lt {s : Stmt} {decide : Condition → Decision} (h : Blurs stmts k s decide p) :
    k < p := by
  obtain ⟨cond, target, -, -, -, hp | hp⟩ := h
  · exact hp.lt.2
  · exact hp.lt.2

def bound? (params : List (Option Known)) (f : Frame) : Stmt → Option Known
  | .identity _ (.parameter n _) => (params[n]?).join
  | .assign _ rhs => f.value? rhs
  | _ => none

/-- What is known after a statement. Where nothing is certain, an assigned local is forgotten. -/
def rebind (params : List (Option Known)) (certain : Bool) (f : Frame) (s : Stmt) : Frame :=
  match s.assigned? with
  | some l => f.assign l.name (if certain then bound? params f s else none)
  | none => f

variable {params : List (Option Known)} {r : Replay} {certain : Bool} {s : Stmt}

theorem frame_step (body : Body) :
    (r.step body params certain k s).frame = rebind params certain r.frame s := by
  cases s with
  | identity dest rhs => cases rhs <;> cases certain <;> rfl
  | assign lhs rhs => cases lhs <;> rfl
  | branch cond target =>
    simp only [step]
    split
    · cases (if certain then r.frame.judge cond else .unknown) <;> rfl
    · rfl
  | _ => rfl

theorem contains_dead_branch (hlt : k < target) (d : Decision) :
    (r.branch (Body.ofStmts method stmts) k target d).dead.contains p = true ↔
      r.dead.contains p = true ∨ d = .taken ∧ FirstArm k target p ∨
        d = .notTaken ∧ SecondArm stmts k target p := by
  cases d with
  | taken =>
    simp only [branch, Ranges.contains_add, FirstArm, true_and, reduceCtorEq, false_and, or_false]
    exact or_congr_right (by omega)
  | notTaken => simp [branch, contains_addRange?_elseArm?]
  | unknown => simp [branch]

theorem contains_uncertain_branch (hlt : k < target) (d : Decision) :
    (r.branch (Body.ofStmts method stmts) k target d).uncertain.contains p = true ↔
      r.uncertain.contains p = true ∨
        d = .unknown ∧ (FirstArm k target p ∨ SecondArm stmts k target p) := by
  cases d with
  | unknown =>
    simp only [branch, contains_addRange?_elseArm?, Ranges.contains_add, FirstArm, true_and,
      or_assoc]
    exact or_congr_right (or_congr_left (by omega))
  | _ => simp [branch]

/-- A statement is a forward branch, or leaves the ranges alone. -/
theorem step_cases (body : Body) (params : List (Option Known)) (r : Replay) (certain : Bool)
    (k : Nat) (s : Stmt) :
    (∃ cond target, s = .branch cond target ∧ k < target ∧
      r.step body params certain k s =
        r.branch body k target (if certain then r.frame.judge cond else .unknown)) ∨
    (∀ cond target, s = .branch cond target → ¬ k < target) ∧
      (r.step body params certain k s).dead = r.dead ∧
      (r.step body params certain k s).uncertain = r.uncertain := by
  cases s with
  | branch cond target =>
    by_cases hlt : k < target
    · exact .inl ⟨cond, target, rfl, hlt, if_pos hlt⟩
    · refine .inr ⟨?_, ?_⟩
      · rintro _ _ ⟨⟩
        exact hlt
      · simp [step, hlt]
  | identity dest rhs => cases rhs <;> exact .inr ⟨nofun, rfl, rfl⟩
  | assign lhs rhs => cases lhs <;> exact .inr ⟨nofun, rfl, rfl⟩
  | _ => exact .inr ⟨nofun, rfl, rfl⟩

/-- A statement adds to the ranges what a forward branch adds. -/
theorem contains_step :
    ((r.step (Body.ofStmts method stmts) params certain k s).dead.contains p = true ↔
      r.dead.contains p = true ∨
        Cuts stmts k s (fun c => if certain then r.frame.judge c else .unknown) p) ∧
    ((r.step (Body.ofStmts method stmts) params certain k s).uncertain.contains p = true ↔
      r.uncertain.contains p = true ∨
        Blurs stmts k s (fun c => if certain then r.frame.judge c else .unknown) p) := by
  rcases step_cases (.ofStmts method stmts) params r certain k s with
    ⟨cond, target, rfl, hlt, heq⟩ | ⟨hs, hdead, huncertain⟩
  · rw [heq, contains_dead_branch hlt, contains_uncertain_branch hlt]
    constructor
    · refine or_congr_right ⟨fun h => ⟨cond, target, rfl, hlt, h⟩, ?_⟩
      rintro ⟨_, _, ⟨⟩, -, h⟩
      exact h
    · refine or_congr_right ⟨fun h => ⟨cond, target, rfl, hlt, h⟩, ?_⟩
      rintro ⟨_, _, ⟨⟩, -, h⟩
      exact h
  · have hnone {P : Condition → Nat → Prop} :
        ¬ ∃ c t, s = .branch c t ∧ k < t ∧ P c t := by
      rintro ⟨c, t, hbranch, hlt, -⟩
      exact hs c t hbranch hlt
    rw [hdead, huncertain]
    exact ⟨(or_iff_left hnone).symm, (or_iff_left hnone).symm⟩

theorem capture_rest (callee? : Option String) (r : Replay) (s : Stmt) :
    (r.capture callee? s).frame = r.frame ∧ (r.capture callee? s).dead = r.dead ∧
      (r.capture callee? s).uncertain = r.uncertain := by
  unfold capture
  split
  · split <;> exact ⟨rfl, rfl, rfl⟩
  · exact ⟨rfl, rfl, rfl⟩

end Replay

structure Segment where
  method : String
  stmts : List Stmt
  params : List (Option Known)
  callee? : Option String

namespace Segment

open Replay

variable (g : Segment)

def body : Body := .ofStmts g.method g.stmts

def branches : Branches := .ofBody g.body

def replay : Replay := .ofBody g.body g.params g.callee?

def upTo (k : Nat) : Replay :=
  (g.body.zipIdx.take k).foldl (Replay.visit g.body g.branches g.params g.callee?) .start

def frame (k : Nat) : Frame := (g.upTo k).frame

def IsDead (k : Nat) : Prop := g.replay.dead.contains k = true

/-- Whether an index is in no loop and in no arm of an undecided branch. -/
def isCertain (k : Nat) : Bool := !g.replay.uncertain.contains k && !g.branches.inLoop k

def verdict (k : Nat) (cond : Condition) : Decision :=
  if g.isCertain k then (g.frame k).judge cond else .unknown

variable {g} {k n p : Nat} {s : Stmt}

theorem upTo_succ (hs : g.stmts[k]? = some s) :
    g.upTo (k + 1) =
      (g.upTo k).visit g.body g.branches g.params g.callee? (.ofStmt g.method k s, k) := by
  have hget : g.body.zipIdx[k]? = some (.ofStmt g.method k s, k) := by
    simp [body, Body.getElem?_ofStmts, hs]
  rw [upTo, List.take_add_one, hget, Option.toList_some, List.foldl_append]
  rfl

theorem upTo_succ_of_none (hs : g.stmts[k]? = none) : g.upTo (k + 1) = g.upTo k := by
  have hget : g.body.zipIdx[k]? = none := by
    simp [body, Body.getElem?_ofStmts, hs]
  rw [upTo, List.take_add_one, hget, Option.toList_none, List.append_nil]
  rfl

theorem upTo_of_length_le (hn : g.stmts.length ≤ n) : g.upTo n = g.replay := by
  have htake : g.body.zipIdx.take n = g.body.zipIdx := by
    rw [List.take_of_length_le]
    simpa [body] using hn
  rw [upTo, htake]
  rfl

def decision (g : Segment) (k : Nat) (cond : Condition) : Decision :=
  if !(g.upTo k).uncertain.contains k && !g.branches.inLoop k then (g.frame k).judge cond
  else .unknown

/-- What one visit does, unless the index is dead. -/
theorem upTo_succ_of_live (hs : g.stmts[k]? = some s)
    (hlive : (g.upTo k).dead.contains k = false) :
    g.frame (k + 1) = rebind g.params
        (!(g.upTo k).uncertain.contains k && !g.branches.inLoop k) (g.frame k) s ∧
      ∀ p, ((g.upTo (k + 1)).dead.contains p = true ↔
          (g.upTo k).dead.contains p = true ∨ Cuts g.stmts k s (g.decision k) p) ∧
        ((g.upTo (k + 1)).uncertain.contains p = true ↔
          (g.upTo k).uncertain.contains p = true ∨ Blurs g.stmts k s (g.decision k) p) := by
  obtain ⟨hframe, hdead, huncertain⟩ := capture_rest g.callee? (g.upTo k) s
  have hvisit : g.upTo (k + 1) = ((g.upTo k).capture g.callee? s).step (.ofStmts g.method g.stmts)
      g.params (!(g.upTo k).uncertain.contains k && !g.branches.inLoop k) k s := by
    rw [upTo_succ hs]
    simp only [visit, hlive]
    rfl
  refine ⟨?_, fun p => ⟨?_, ?_⟩⟩
  · rw [frame, hvisit, frame_step, hframe]
    rfl
  · rw [hvisit, contains_step.1, hdead, hframe]
    rfl
  · rw [hvisit, contains_step.2, huncertain, hframe]
    rfl

theorem upTo_succ_of_dead (hdead : (g.upTo k).dead.contains k = true) :
    g.upTo (k + 1) = g.upTo k := by
  cases hs : g.stmts[k]? with
  | none => exact upTo_succ_of_none hs
  | some s =>
    rw [upTo_succ hs]
    simp [visit, hdead]

/-- What holds of a replay because of one of its visits. -/
theorem upTo_iff {P : Replay → Prop} {Q : Nat → Stmt → Prop} (hstart : ¬ P .start)
    (hstep : ∀ k s, g.stmts[k]? = some s → (g.upTo k).dead.contains k = false →
      (P (g.upTo (k + 1)) ↔ P (g.upTo k) ∨ Q k s)) :
    P (g.upTo n) ↔ ∃ k < n, ∃ s, g.stmts[k]? = some s ∧
      (g.upTo k).dead.contains k = false ∧ Q k s := by
  induction n with
  | zero =>
    refine ⟨fun h => absurd h hstart, ?_⟩
    rintro ⟨k, hk, -⟩
    omega
  | succ n ih =>
    have hlast : P (g.upTo (n + 1)) ↔ P (g.upTo n) ∨ ∃ s, g.stmts[n]? = some s ∧
        (g.upTo n).dead.contains n = false ∧ Q n s := by
      cases hdead : (g.upTo n).dead.contains n with
      | true => simp [upTo_succ_of_dead hdead]
      | false =>
        cases hs : g.stmts[n]? with
        | none => simp [upTo_succ_of_none hs]
        | some s => simp [hstep n s hs hdead]
    rw [hlast, ih]
    constructor
    · rintro (⟨k, hk, h⟩ | h)
      · exact ⟨k, by omega, h⟩
      · exact ⟨n, by omega, h⟩
    · rintro ⟨k, hk, h⟩
      rcases Nat.lt_succ_iff_lt_or_eq.1 hk with hlt | rfl
      · exact .inl ⟨k, hlt, h⟩
      · exact .inr h

theorem contains_dead_upTo : (g.upTo n).dead.contains p = true ↔
    ∃ k < n, ∃ s, g.stmts[k]? = some s ∧ (g.upTo k).dead.contains k = false ∧
      Cuts g.stmts k s (g.decision k) p :=
  upTo_iff (P := fun r => r.dead.contains p = true) (Bool.false_ne_true ·)
    fun _ _ hs hlive => ((upTo_succ_of_live hs hlive).2 p).1

theorem contains_uncertain_upTo : (g.upTo n).uncertain.contains p = true ↔
    ∃ k < n, ∃ s, g.stmts[k]? = some s ∧ (g.upTo k).dead.contains k = false ∧
      Blurs g.stmts k s (g.decision k) p :=
  upTo_iff (P := fun r => r.uncertain.contains p = true) (Bool.false_ne_true ·)
    fun _ _ hs hlive => ((upTo_succ_of_live hs hlive).2 p).2

/-- What a replay says of an index is settled when it gets there. -/
theorem contains_upTo_of_le (hp : p ≤ n) :
    (g.upTo n).dead.contains p = (g.upTo p).dead.contains p ∧
      (g.upTo n).uncertain.contains p = (g.upTo p).uncertain.contains p := by
  constructor
  · rw [Bool.eq_iff_iff, contains_dead_upTo, contains_dead_upTo]
    constructor
    · rintro ⟨k, -, s, hs, hlive, h⟩
      exact ⟨k, h.lt, s, hs, hlive, h⟩
    · rintro ⟨k, hk, h⟩
      exact ⟨k, by omega, h⟩
  · rw [Bool.eq_iff_iff, contains_uncertain_upTo, contains_uncertain_upTo]
    constructor
    · rintro ⟨k, -, s, hs, hlive, h⟩
      exact ⟨k, h.lt, s, hs, hlive, h⟩
    · rintro ⟨k, hk, h⟩
      exact ⟨k, by omega, h⟩

theorem contains_replay (p : Nat) :
    g.replay.dead.contains p = (g.upTo p).dead.contains p ∧
      g.replay.uncertain.contains p = (g.upTo p).uncertain.contains p := by
  rw [← upTo_of_length_le (n := max p g.stmts.length) (by omega)]
  exact contains_upTo_of_le (by omega)

theorem decision_eq_verdict (k : Nat) : g.decision k = g.verdict k := by
  funext cond
  rw [decision, verdict, isCertain, (contains_replay k).2]

theorem isDead_iff_upTo : g.IsDead k ↔ (g.upTo k).dead.contains k = true := by
  rw [IsDead, (contains_replay k).1]

theorem not_isDead_iff_upTo : ¬ g.IsDead k ↔ (g.upTo k).dead.contains k = false := by
  rw [isDead_iff_upTo, Bool.not_eq_true]

/-- An index is dead because of a live branch that is decided. -/
theorem isDead_iff : g.IsDead p ↔ ∃ k cond target, g.stmts[k]? = some (.branch cond target) ∧
    ¬ g.IsDead k ∧ (g.verdict k cond = .taken ∧ FirstArm k target p ∨
      g.verdict k cond = .notTaken ∧ SecondArm g.stmts k target p) := by
  simp only [not_isDead_iff_upTo, ← decision_eq_verdict]
  rw [isDead_iff_upTo, contains_dead_upTo]
  constructor
  · rintro ⟨k, -, _, hs, hlive, cond, target, rfl, -, h⟩
    exact ⟨k, cond, target, hs, hlive, h⟩
  · rintro ⟨k, cond, target, hs, hlive, h⟩
    have hlt : k < target ∧ k < p := by
      rcases h with ⟨-, hp⟩ | ⟨-, hp⟩
      · exact hp.lt
      · exact hp.lt
    exact ⟨k, hlt.2, _, hs, hlive, cond, target, rfl, hlt.1, h⟩

/-- A live branch that is not decided makes its arms uncertain. -/
theorem not_isCertain {cond : Condition} {target : Nat}
    (hs : g.stmts[k]? = some (.branch cond target)) (hlive : ¬ g.IsDead k)
    (hv : g.verdict k cond = .unknown) (hp : FirstArm k target p ∨ SecondArm g.stmts k target p) :
    g.isCertain p = false := by
  rw [not_isDead_iff_upTo] at hlive
  rw [← decision_eq_verdict] at hv
  have hlt : k < target ∧ k < p := by
    rcases hp with hp | hp
    · exact hp.lt
    · exact hp.lt
  have hcontains : (g.upTo p).uncertain.contains p = true :=
    contains_uncertain_upTo.2 ⟨k, hlt.2, _, hs, hlive, cond, target, rfl, hlt.1, hv, hp⟩
  simp [isCertain, (contains_replay p).2, hcontains]

/-- What is known after a live statement. -/
theorem frame_succ (hs : g.stmts[k]? = some s) (hlive : ¬ g.IsDead k) :
    g.frame (k + 1) = rebind g.params (g.isCertain k) (g.frame k) s := by
  rw [(upTo_succ_of_live hs (not_isDead_iff_upTo.1 hlive)).1, isCertain, (contains_replay k).2]

theorem frame_succ_of_dead (hdead : g.IsDead k) : g.frame (k + 1) = g.frame k := by
  rw [frame, upTo_succ_of_dead (isDead_iff_upTo.1 hdead), frame]

theorem isCertain_of_inLoop (h : g.branches.inLoop k = true) : g.isCertain k = false := by
  simp [isCertain, h]

/-- A frame loses what is assigned where nothing is certain, and gains nothing there. -/
theorem frame_succ_below (h : g.IsDead k ∨ g.isCertain k = false) :
    (g.frame (k + 1)).Below (g.frame k) := by
  by_cases hdead : g.IsDead k
  · rw [frame_succ_of_dead hdead]
    exact .refl _
  · cases hs : g.stmts[k]? with
    | none =>
      rw [frame, upTo_succ_of_none hs]
      exact .refl _
    | some s =>
      rw [frame_succ hs hdead, h.resolve_left hdead]
      unfold rebind
      split
      · exact Frame.below_forget (g.frame k) _
      · exact .refl _

theorem frame_below (hle : k ≤ n)
    (h : ∀ j, k ≤ j → j < n → g.IsDead j ∨ g.isCertain j = false) :
    (g.frame n).Below (g.frame k) := by
  induction hle with
  | refl => exact .refl _
  | @step n hle ih =>
    exact (frame_succ_below (h n hle (Nat.lt_succ_self n))).trans
      (ih fun j hj hlt => h j hj (Nat.lt_succ_of_lt hlt))

end Segment

end Backslice
