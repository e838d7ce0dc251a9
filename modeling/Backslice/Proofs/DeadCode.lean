import Mathlib.Data.Nat.Find
import Backslice.Proofs.Replays

/-!
Whether an index that a replay takes for dead is never reached. A replay goes through the body once
and in order, so its frames are right only if what a run jumps over could not have been certain, and
a dead index stays dead only if no jump from elsewhere leads to it. Under these two conditions no
run that agrees with the known parameters comes to a dead index. Code with arms that are entered at
their start and left at their end meets both, and conditions that share a target do not.
-/

namespace Backslice.Segment

open Replay

variable {g : Segment} {k : Nat} {s : Stmt}

structure Exit (g : Segment) (k e : Nat) : Prop where
  le : k ≤ e
  looped : ∀ j, k ≤ j → j < e → g.branches.inLoop j = true
  outside : g.branches.inLoop e = false

namespace Exit

variable {e t : Nat}

theorem refl (h : g.branches.inLoop k = false) : g.Exit k k :=
  ⟨Nat.le_refl k, fun _ _ _ => by omega, h⟩

theorem of_succ (h : g.Exit (k + 1) e) (hk : g.branches.inLoop k = true) : g.Exit k e where
  le := by have := h.le; omega
  looped j hj hlt := by
    rcases Nat.eq_or_lt_of_le hj with rfl | hj
    · exact hk
    · exact h.looped j hj hlt
  outside := h.outside

/-- A jump back stays in its loop. -/
theorem of_back (h : g.Exit t e) (ht : t ≤ k)
    (hloop : ∀ j, t ≤ j → j ≤ k → g.branches.inLoop j = true) : g.Exit k e := by
  have hlt : k < e := by
    by_contra hge
    have hin := hloop e h.le (by omega)
    rw [h.outside] at hin
    cases hin
  exact ⟨Nat.le_of_lt hlt, fun j hj hje => h.looped j (by omega) hje, h.outside⟩

/-- What lies ahead of an index is in a loop up to some place, or all the way out. -/
theorem cases_of_lt (h : g.Exit t e) (hk : k < t) :
    g.Exit k e ∨ ∃ j, j < t ∧ g.Exit k j := by
  by_cases hall : ∀ j, k ≤ j → j < t → g.branches.inLoop j = true
  · refine .inl ⟨by have := h.le; omega, fun j hj hje => ?_, h.outside⟩
    rcases Nat.lt_or_ge j t with hlt | hge
    · exact hall j hj hlt
    · exact h.looped j hge hje
  · have hex : ∃ j, k ≤ j ∧ j < t ∧ g.branches.inLoop j = false := by
      simpa using hall
    classical
    obtain ⟨hj, hjt, hout⟩ := Nat.find_spec hex
    refine .inr ⟨Nat.find hex, hjt, hj, fun i hi hlt => ?_, hout⟩
    by_contra hin
    exact Nat.find_min hex hlt ⟨hi, by omega, by simpa using hin⟩

end Exit

/-- What holds of a run at any time: it is at a live index, and its locals have the values that are
known when it will be out of all loops. -/
structure Sound (g : Segment) (σ : State Datum) : Prop where
  live : ¬ g.IsDead σ.index
  agrees : ∀ e, g.Exit σ.index e → (g.frame e).Agrees σ.locals

namespace Sound

variable {σ : State Datum} {e : Nat}

/-- The frame of an index outside of loops is right. -/
theorem agrees_frame (h : g.Sound σ) (hout : g.branches.inLoop σ.index = false) :
    (g.frame σ.index).Agrees σ.locals :=
  h.agrees σ.index (.refl hout)

theorem agrees_of_exit_succ {locals : String → Datum}
    (h : (g.frame (k + 1)).Agrees locals) (he : g.Exit (k + 1) e) :
    (g.frame e).Agrees locals :=
  h.mono (frame_below he.le fun j hj hlt => .inr (isCertain_of_inLoop (he.looped j hj hlt)))

/-- A branch that is decided goes that way in the run. -/
theorem judge (h : g.Sound σ) {cond : Condition} {taken : Bool}
    (hv : g.verdict σ.index cond = .ofBool taken) :
    Datum.arithmetic.judge? σ.locals cond = some taken := by
  unfold verdict at hv
  split at hv
  · rename_i hcertain
    have hout : g.branches.inLoop σ.index = false := by
      simp only [isCertain, Bool.and_eq_true, Bool.not_eq_true'] at hcertain
      exact hcertain.2
    exact (h.agrees_frame hout).judge hv
  · cases taken <;> cases hv

/-- A statement that assigns nothing leaves what is known as it is. -/
theorem frame_next (h : g.Sound σ) (hs : g.stmts[σ.index]? = some s) (hnone : s.assigned? = none) :
    g.frame (σ.index + 1) = g.frame σ.index := by
  rw [frame_succ hs h.live, rebind, hnone]

theorem agrees_next (h : g.Sound σ) (hs : g.stmts[σ.index]? = some s) (hnone : s.assigned? = none)
    (he : g.Exit (σ.index + 1) e) : (g.frame e).Agrees σ.locals := by
  cases hloop : g.branches.inLoop σ.index with
  | true => exact h.agrees e (he.of_succ hloop)
  | false =>
    refine agrees_of_exit_succ ?_ he
    rw [h.frame_next hs hnone]
    exact h.agrees_frame hloop

/-- An assigned local has the value that the replay gives it, or is forgotten. -/
theorem agrees_bind (h : g.Sound σ) (hs : g.stmts[σ.index]? = some s) {l : Local}
    (hl : s.assigned? = some l) {d : Datum}
    (hd : (g.frame σ.index).Agrees σ.locals → ∀ v, bound? g.params (g.frame σ.index) s = some v →
      d = .known v) (he : g.Exit (σ.index + 1) e) :
    (g.frame e).Agrees (Function.update σ.locals l.name d) := by
  have hframe : g.frame (σ.index + 1) = (g.frame σ.index).assign l.name
      (if g.isCertain σ.index then bound? g.params (g.frame σ.index) s else none) := by
    rw [frame_succ hs h.live, rebind, hl]
  cases hloop : g.branches.inLoop σ.index with
  | true =>
    refine (h.agrees e (he.of_succ hloop)).bind_unknown ?_ d
    -- the local is forgotten here and not assigned with certainty before the way out
    have hforgot : (g.frame (σ.index + 1)).get? l.name = none := by
      simp [hframe, isCertain_of_inLoop hloop, Frame.get?_assign]
    have hbelow : (g.frame e).Below (g.frame (σ.index + 1)) :=
      frame_below he.le fun j hj hlt => .inr (isCertain_of_inLoop (he.looped j hj hlt))
    cases hget : (g.frame e).get? l.name with
    | none => rfl
    | some v =>
      rw [hbelow l.name v hget] at hforgot
      cases hforgot
  | false =>
    have hagrees := h.agrees_frame hloop
    refine agrees_of_exit_succ ?_ he
    rw [hframe]
    refine hagrees.bind l.name fun v hv => ?_
    split at hv
    · exact hd hagrees v hv
    · cases hv

/-- A forward jump keeps what is known if nothing that it passes over is certain. -/
theorem agrees_jump (h : g.Sound σ) (hs : g.stmts[σ.index]? = some s)
    (hnone : s.assigned? = none) {t : Nat} (ht : σ.index < t)
    (hover : ∀ j, σ.index < j → j < t → g.IsDead j ∨ g.isCertain j = false)
    (he : g.Exit t e) : (g.frame e).Agrees σ.locals := by
  have hquiet : ∀ j, σ.index < j → j < e → g.IsDead j ∨ g.isCertain j = false := by
    intro j hj hje
    rcases Nat.lt_or_ge j t with hlt | hge
    · exact hover j hj hlt
    · exact .inr (isCertain_of_inLoop (he.looped j hge hje))
  rcases he.cases_of_lt ht with hexit | ⟨j, hjt, hexit⟩
  · exact h.agrees e hexit
  · have hte := he.le
    have hagrees := h.agrees j hexit
    rcases Nat.eq_or_lt_of_le hexit.le with rfl | hlt
    · rw [← h.frame_next hs hnone] at hagrees
      exact hagrees.mono (frame_below (by omega) fun i hi => hquiet i (by omega))
    · exact hagrees.mono (frame_below (by omega) fun i hi => hquiet i (by omega))

end Sound

/-- Whether the jumps of a segment bear out its replay. -/
structure Guarded (g : Segment) : Prop where
  /-- A jump from a live index to a dead one is that of a branch that is not taken. -/
  entry : ∀ k s t, g.stmts[k]? = some s → t ∈ s.targets → ¬ g.IsDead k → g.IsDead t →
    ∃ cond target, s = .branch cond target ∧ g.verdict k cond = .notTaken
  /-- What an unconditional jump from a live index passes over is dead, or not certain. -/
  passage : ∀ k s t, g.stmts[k]? = some s → t ∈ s.targets →
    (∀ cond target, s ≠ .branch cond target) → ¬ g.IsDead k →
    ∀ j, k < j → j < t → g.IsDead j ∨ g.isCertain j = false

/-- A dead index follows a live one only after a branch that is taken or at the end of an arm. -/
theorem of_dead_succ (hs : g.stmts[k]? = some s) (hlive : ¬ g.IsDead k)
    (hdead : g.IsDead (k + 1)) :
    (∃ cond target, s = .branch cond target ∧ g.verdict k cond = .taken) ∨
      ∃ join, s = .goto join := by
  obtain ⟨i, cond, target, hi, hilive, ⟨hv, hp, hpt⟩ | ⟨hv, hlt, join, hgoto, hp, hpj⟩⟩ :=
    isDead_iff.1 hdead
  · rcases Nat.lt_succ_iff_lt_or_eq.1 hp with hik | rfl
    · exact absurd
        (isDead_iff.2 ⟨i, cond, target, hi, hilive, .inl ⟨hv, hik, by omega⟩⟩) hlive
    · rw [hs, Option.some.injEq] at hi
      exact .inl ⟨cond, target, hi, hv⟩
  · rcases Nat.eq_or_lt_of_le hp with rfl | htarget
    · rw [Nat.add_sub_cancel, hs, Option.some.injEq] at hgoto
      exact .inr ⟨join, hgoto⟩
    · exact absurd (isDead_iff.2 ⟨i, cond, target, hi, hilive,
        .inr ⟨hv, hlt, join, hgoto, by omega, by omega⟩⟩) hlive

namespace Sound

variable {σ τ : State Datum}

/-- The next index is live after a statement that neither branches nor jumps. -/
theorem live_next (h : g.Sound σ) (hs : g.stmts[σ.index]? = some s) (htargets : s.targets = []) :
    ¬ g.IsDead (σ.index + 1) := by
  intro hdead
  rcases of_dead_succ hs h.live hdead with ⟨cond, target, rfl, -⟩ | ⟨join, rfl⟩
  · cases htargets
  · cases htargets

/-- The jumps back are in loops. -/
theorem agrees_back (h : g.Sound σ) (hs : g.stmts[σ.index]? = some s) {t e : Nat}
    (htarget : t ∈ s.targets) (ht : t ≤ σ.index) (he : g.Exit t e) :
    (g.frame e).Agrees σ.locals := by
  refine h.agrees e (he.of_back ht fun j hj hle => ?_)
  have hedge : (σ.index, t) ∈ g.branches.backEdges :=
    Branches.mem_backEdges.2 ⟨Branches.mem_jumps_ofBody.2 ⟨s, hs, htarget⟩, ht⟩
  simp only [Branches.inLoop, List.any_eq_true, Bool.and_eq_true, decide_eq_true_eq]
  exact ⟨_, hedge, hj, hle⟩

/-- A jump that is no branch leads to a live index, and what is known there is right. -/
theorem jump (hg : g.Guarded) (h : g.Sound σ) (hs : g.stmts[σ.index]? = some s) {t : Nat}
    (htarget : t ∈ s.targets) (hbranch : ∀ cond target, s ≠ .branch cond target) :
    g.Sound (σ.jump t) where
  live hdead := by
    obtain ⟨cond, target, heq, -⟩ := hg.entry σ.index s t hs htarget h.live hdead
    exact hbranch cond target heq
  agrees e he := by
    have hnone : s.assigned? = none := by
      cases s with
      | assign | identity => cases htarget
      | _ => rfl
    rcases Nat.lt_or_ge σ.index t with hlt | hge
    · exact h.agrees_jump hs hnone hlt (hg.passage σ.index s t hs htarget hbranch h.live) he
    · exact h.agrees_back hs htarget hge he

theorem branch (hg : g.Guarded) (h : g.Sound σ) {cond : Condition} {target : Nat}
    (hs : g.stmts[σ.index]? = some (.branch cond target)) {taken : Bool}
    (htaken : ∀ b, Datum.arithmetic.judge? σ.locals cond = some b → taken = b) :
    g.Sound (if taken then σ.jump target else σ.next) := by
  have hverdict : g.verdict σ.index cond ≠ .ofBool !taken := fun hv => by
    have := htaken _ (h.judge hv)
    cases taken <;> cases this
  cases taken with
  | false =>
    constructor
    case live =>
      intro hdead
      rcases of_dead_succ hs h.live hdead with ⟨c, t, heq, hv⟩ | ⟨join, heq⟩
      · cases heq
        exact hverdict hv
      · cases heq
    case agrees => exact fun e he => h.agrees_next hs rfl he
  | true =>
    constructor
    case live =>
      intro hdead
      obtain ⟨c, t, heq, hv⟩ := hg.entry σ.index _ target hs (by simp [Stmt.targets]) h.live hdead
      cases heq
      exact hverdict hv
    case agrees =>
      intro e he
      rcases Nat.lt_or_ge σ.index target with hlt | hge
      · refine h.agrees_jump hs rfl hlt (fun j hj hjt => ?_) he
        -- the branch is taken in the replay too, or not decided
        cases hv : g.verdict σ.index cond with
        | taken =>
          exact .inl (isDead_iff.2 ⟨σ.index, cond, target, hs, h.live, .inl ⟨hv, hj, hjt⟩⟩)
        | notTaken => exact absurd hv hverdict
        | unknown =>
          exact .inr (not_isCertain hs h.live hv (.inl ⟨hj, hjt⟩))
      · exact h.agrees_back hs (by simp [Stmt.targets]) hge he

/-- One step of a run. -/
theorem step (hg : g.Guarded) {args : Nat → Datum}
    (hargs : ∀ (n : Nat) k, g.params[n]? = some (some k) → args n = .known k) (h : g.Sound σ)
    (hs : g.stmts[σ.index]? = some s) (hstep : σ.Step args s τ) : g.Sound τ := by
  cases hstep with
  | parameter dest n ty =>
    refine ⟨h.live_next hs rfl, fun e he => h.agrees_bind hs rfl (fun _ v hv => ?_) he⟩
    exact hargs n v (Option.join_eq_some_iff.1 hv)
  | @identity dest rhs hrhs v =>
    refine ⟨h.live_next hs rfl, fun e he => h.agrees_bind hs rfl (fun _ k hk => ?_) he⟩
    cases rhs with
    | parameter n ty => exact absurd rfl (hrhs n ty)
    | _ => cases hk
  | assign dest rhs v _ hv =>
    refine ⟨h.live_next hs rfl, fun e he => h.agrees_bind hs rfl (fun hagrees k hk => ?_) he⟩
    exact hv _ (hagrees.value? hk)
  | store hlhs rhs => exact ⟨h.live_next hs rfl, fun e he => h.agrees_next hs hlhs he⟩
  | invoke c => exact ⟨h.live_next hs rfl, fun e he => h.agrees_next hs rfl he⟩
  | nop => exact ⟨h.live_next hs rfl, fun e he => h.agrees_next hs rfl he⟩
  | branch cond target taken _ htaken => exact branch hg h hs htaken
  | goto target => exact jump hg h hs (by simp [Stmt.targets]) (by simp)
  | switch key cases default target _ hmem => exact jump hg h hs hmem (by simp)

theorem start (g : Segment) (locals : String → Datum) : g.Sound ⟨0, locals⟩ where
  live hdead := by
    obtain ⟨k, cond, target, -, -, ⟨-, hp⟩ | ⟨-, hp⟩⟩ := isDead_iff.1 hdead
    · exact Nat.not_lt_zero k hp.lt.2
    · exact Nat.not_lt_zero k hp.lt.2
  agrees e he := by
    have hbelow : (g.frame e).Below (g.frame 0) :=
      frame_below he.le fun j hj hlt => .inr (isCertain_of_inLoop (he.looped j hj hlt))
    intro x k hx
    cases hbelow x k hx

theorem of_runs (hg : g.Guarded) {args : Nat → Datum}
    (hargs : ∀ (n : Nat) k, g.params[n]? = some (some k) → args n = .known k)
    {locals : String → Datum} (hrun : Runs g.stmts args ⟨0, locals⟩ σ) : g.Sound σ := by
  induction hrun with
  | refl => exact .start g locals
  | tail _ hstep ih =>
    obtain ⟨s, hs, hstep⟩ := hstep
    exact ih.step hg hargs hs hstep

end Sound

/-- No run with the known parameters comes to an index that the replay takes for dead, if the jumps
of the body bear it out. -/
theorem runs_avoid_dead (g : Segment) (hg : g.Guarded) (args : Nat → Datum)
    (hargs : ∀ (n : Nat) k, g.params[n]? = some (some k) → args n = .known k)
    (locals : String → Datum) (σ : State Datum) (hrun : Runs g.stmts args ⟨0, locals⟩ σ) :
    (Replay.ofBody (.ofStmts g.method g.stmts) g.params g.callee?).dead.contains σ.index =
      false := by
  have hsound : g.Sound σ := .of_runs hg hargs hrun
  exact Bool.eq_false_iff.2 hsound.live

/-- Whether arms are entered at their start only, and left at their end only unless by a loop. -/
structure Nested (g : Segment) : Prop where
  first : ∀ i cond t, g.stmts[i]? = some (.branch cond t) →
    ∀ k s p, g.stmts[k]? = some s → p ∈ s.targets → FirstArm i t p → i ≤ k ∧ k < t
  second : ∀ i cond t, g.stmts[i]? = some (.branch cond t) →
    ∀ k s p, g.stmts[k]? = some s → p ∈ s.targets → SecondArm g.stmts i t p →
      k = i ∨ SecondArm g.stmts i t k
  passage : ∀ k s p, g.stmts[k]? = some s → p ∈ s.targets →
    (∀ cond target, s ≠ .branch cond target) → ∀ j, k < j → j < p →
      g.branches.inLoop j = true ∨ ∃ i cond, g.stmts[i]? = some (.branch cond (k + 1)) ∧
        SecondArm g.stmts i (k + 1) j

namespace Nested

/-- The branch with a first arm that ends at a live index is live. -/
theorem not_isDead (h : g.Nested) {i : Nat} {cond : Condition}
    (hi : g.stmts[i]? = some (.branch cond (k + 1))) (hlt : i < k) (hlive : ¬ g.IsDead k) :
    ¬ g.IsDead i := by
  intro hdead
  -- what makes the branch dead would end inside its first arm
  obtain ⟨b, c, t, hb, hblive, ⟨hv, hbi, hit⟩ | ⟨hv, hbt, join, hgoto, hti, hij⟩⟩ :=
    isDead_iff.1 hdead
  · rcases Nat.lt_or_ge k t with hkt | htk
    · exact hlive (isDead_iff.2 ⟨b, c, t, hb, hblive, .inl ⟨hv, by omega, hkt⟩⟩)
    · have := h.first i cond (k + 1) hi b _ t hb (by simp [Stmt.targets]) ⟨hit, by omega⟩
      omega
  · rcases Nat.lt_or_ge k join with hkj | hjk
    · exact hlive (isDead_iff.2
        ⟨b, c, t, hb, hblive, .inr ⟨hv, hbt, join, hgoto, by omega, hkj⟩⟩)
    · have := h.first i cond (k + 1) hi (t - 1) _ join hgoto (by simp [Stmt.targets])
        ⟨hij, by omega⟩
      omega

theorem guarded (h : g.Nested) : g.Guarded where
  entry := by
    intro k s p hs hp hlive hdead
    obtain ⟨i, cond, t, hi, hilive, ⟨hv, harm⟩ | ⟨hv, harm⟩⟩ := isDead_iff.1 hdead
    · obtain ⟨hik, hkt⟩ := h.first i cond t hi k s p hs hp harm
      rcases Nat.eq_or_lt_of_le hik with rfl | hlt
      · rw [hi, Option.some.injEq] at hs
        subst hs
        have hpt : p = t := by simpa [Stmt.targets] using hp
        exact absurd harm.2 (by omega)
      · exact absurd (isDead_iff.2 ⟨i, cond, t, hi, hilive, .inl ⟨hv, hlt, hkt⟩⟩) hlive
    · rcases h.second i cond t hi k s p hs hp harm with rfl | hk
      · rw [hi, Option.some.injEq] at hs
        exact ⟨cond, t, hs.symm, hv⟩
      · exact absurd (isDead_iff.2 ⟨i, cond, t, hi, hilive, .inr ⟨hv, hk⟩⟩) hlive
  passage := by
    intro k s p hs hp hbranch hlive j hkj hjp
    rcases h.passage k s p hs hp hbranch j hkj hjp with hloop | ⟨i, cond, hi, harm⟩
    · exact .inr (isCertain_of_inLoop hloop)
    · have hik : i < k := by
        have := harm.1
        omega
      have hilive := h.not_isDead hi hik hlive
      cases hv : g.verdict i cond with
      | taken =>
        exact absurd (isDead_iff.2
          ⟨i, cond, k + 1, hi, hilive, .inl ⟨hv, hik, Nat.lt_succ_self k⟩⟩) hlive
      | notTaken => exact .inl (isDead_iff.2 ⟨i, cond, k + 1, hi, hilive, .inr ⟨hv, harm⟩⟩)
      | unknown => exact .inr (not_isCertain hi hilive hv (.inr harm))

end Nested

def eitherName : Segment where
  method := "<a.B: void m(int)>"
  stmts :=
    [.identity ⟨"i0", .int⟩ (.parameter 0 .int),
      .branch ⟨.ge, .loc ⟨"i0", .int⟩, .const (.int 3)⟩ 4,
      .assign (.loc ⟨"r1", .string⟩) (.const (.str "DES")),
      .goto 5,
      .assign (.loc ⟨"r1", .string⟩) (.const (.str "AES")),
      .retVoid]
  params := [some (.int 5)]
  callee? := none

theorem jumps_eitherName {k t : Nat} {s : Stmt} (hs : eitherName.stmts[k]? = some s)
    (ht : t ∈ s.targets) : k = 1 ∧ t = 4 ∨ k = 3 ∧ t = 5 := by
  match k with
  | 0 | 2 | 4 | 5 => cases hs; cases ht
  | 1 => cases hs; exact .inl ⟨rfl, by simpa [Stmt.targets] using ht⟩
  | 3 => cases hs; exact .inr ⟨rfl, by simpa [Stmt.targets] using ht⟩
  | k + 6 => cases hs

theorem nested_eitherName : eitherName.Nested where
  first i cond t hi k s p hs hp harm := by
    have hjump := jumps_eitherName hs hp
    obtain ⟨hip, hpt⟩ := harm
    rcases jumps_eitherName hi (List.mem_singleton_self t) with ⟨rfl, rfl⟩ | ⟨rfl, rfl⟩
    · omega
    · cases hi
  second i cond t hi k s p hs hp harm := by
    have hbranch := jumps_eitherName hi (List.mem_singleton_self t)
    have hjump := jumps_eitherName hs hp
    obtain ⟨hit, join, hgoto, htp, hpj⟩ := harm
    have hend := jumps_eitherName hgoto (List.mem_singleton_self join)
    exact .inl (by omega)
  passage k s p hs hp hbranch j hkj hjp := by
    rcases jumps_eitherName hs hp with ⟨rfl, rfl⟩ | ⟨rfl, rfl⟩
    · cases hs
      exact absurd rfl (hbranch _ _)
    · exact .inr ⟨1, _, rfl, by decide, 5, rfl, hkj, hjp⟩

theorem runs_avoid_dead_eitherName : eitherName.replay.dead = ⟨[(2, 3)]⟩ ∧
    ∀ σ, Runs eitherName.stmts (fun _ => .known (.int 5)) ⟨0, fun _ => .object 0⟩ σ →
      σ.index ≠ 2 ∧ σ.index ≠ 3 := by
  have hdead : eitherName.replay.dead = ⟨[(2, 3)]⟩ := by decide +kernel
  refine ⟨hdead, fun σ hrun => ?_⟩
  have hargs : ∀ (n : Nat) k, eitherName.params[n]? = some (some k) →
      Datum.known (.int 5) = .known k := by
    intro n k hk
    match n with
    | 0 => cases hk; rfl
    | n + 1 => cases hk
  have havoid : eitherName.replay.dead.contains σ.index = false :=
    runs_avoid_dead eitherName nested_eitherName.guarded _ hargs _ σ hrun
  rw [hdead] at havoid
  simp only [Ranges.contains, List.any_cons, List.any_nil, Bool.or_false, Bool.and_eq_false_iff,
    decide_eq_false_iff_not] at havoid
  omega

/-- Two conditions that lead to one place, the first of which is known not to hold. -/
def sharedTarget : Segment where
  method := "<a.B: void m(int,int)>"
  stmts :=
    [.identity ⟨"i0", .int⟩ (.parameter 0 .int),
      .identity ⟨"i1", .int⟩ (.parameter 1 .int),
      .branch ⟨.eq, .loc ⟨"i0", .int⟩, .const (.int 0)⟩ 6,
      .branch ⟨.eq, .loc ⟨"i1", .int⟩, .const (.int 0)⟩ 6,
      .assign (.loc ⟨"r1", .string⟩) (.const (.str "AES")),
      .goto 7,
      .assign (.loc ⟨"r1", .string⟩) (.const (.str "DES")),
      .retVoid]
  params := [some (.int 1), none]
  callee? := none

/-- A switch that may pass over an assignment. -/
def skippedCase : Segment where
  method := "<a.B: void m(int)>"
  stmts :=
    [.identity ⟨"i0", .int⟩ (.parameter 0 .int),
      .assign (.loc ⟨"i1", .int⟩) (.const (.int 1)),
      .switch (.loc ⟨"i0", .int⟩) [(1, 4)] 3,
      .assign (.loc ⟨"i1", .int⟩) (.const (.int 2)),
      .branch ⟨.eq, .loc ⟨"i1", .int⟩, .const (.int 2)⟩ 6,
      .assign (.loc ⟨"r1", .string⟩) (.const (.str "DES")),
      .retVoid]
  params := [none]
  callee? := none

/-- Runs that agree with the known parameters come to dead indices: by the second of two conditions
with one target, and after a switch that passes over an assignment. -/
theorem runs_reach_dead :
    (sharedTarget.replay.dead.contains 6 = true ∧
      ∃ args σ, args 0 = .known (.int 1) ∧
        Runs sharedTarget.stmts args ⟨0, fun _ => .object 0⟩ σ ∧ σ.index = 6) ∧
    (skippedCase.replay.dead.contains 5 = true ∧
      ∃ args σ, Runs skippedCase.stmts args ⟨0, fun _ => .object 0⟩ σ ∧ σ.index = 5) := by
  constructor
  · let args : Nat → Datum := fun n => .known (.int (if n = 0 then 1 else 0))
    let σ₂ := State.bind (State.bind ⟨0, fun _ => .object 0⟩ "i0" (args 0)) "i1" (args 1)
    have h₂ : Datum.arithmetic.judge? σ₂.locals ⟨.eq, .loc ⟨"i0", .int⟩, .const (.int 0)⟩ =
      some false := rfl
    have h₃ : Datum.arithmetic.judge? σ₂.next.locals ⟨.eq, .loc ⟨"i1", .int⟩, .const (.int 0)⟩ =
      some true := rfl
    refine ⟨by decide +kernel, args, σ₂.jump 6, rfl, ?_, rfl⟩
    exact .head ⟨_, rfl, .parameter _ 0 _ _⟩ (.head ⟨_, rfl, .parameter _ 1 _ _⟩
      (.head ⟨_, rfl, .branch_of_judge? h₂ rfl⟩ (.single ⟨_, rfl, .branch_of_judge? h₃ rfl⟩)))
  · let args : Nat → Datum := fun _ => .known (.int 1)
    let σ₁ := State.bind ⟨0, fun _ => .object 0⟩ "i0" (args 0)
    let σ₂ := σ₁.bind "i1" (.known (.int 1))
    have h₁ : Datum.arithmetic.value? σ₁.locals (.const (.int 1)) = some (.known (.int 1)) := rfl
    have h₂ : Datum.arithmetic.choose? σ₂.locals (.loc ⟨"i0", .int⟩) [(1, 4)] 3 = some 4 := rfl
    have h₄ : Datum.arithmetic.judge? (σ₂.jump 4).locals
      ⟨.eq, .loc ⟨"i1", .int⟩, .const (.int 2)⟩ = some false := rfl
    refine ⟨by decide +kernel, args, (σ₂.jump 4).next, ?_, rfl⟩
    exact .head ⟨_, rfl, .parameter _ 0 _ _⟩ (.head ⟨_, rfl, .assign_of_value? h₁⟩
      (.head ⟨_, rfl, .switch_of_choose? h₂⟩ (.single ⟨_, rfl, .branch_of_judge? h₄ rfl⟩)))

end Backslice.Segment
