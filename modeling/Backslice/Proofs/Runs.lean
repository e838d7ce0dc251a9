import Backslice.Proofs.Machine
import Backslice.Proofs.Table
import Backslice.Replay.Basic

/-!
Runs of a body in which integers, strings and jumps mean what they say and everything else may come
out in any way, and what a frame of known values says about such a run.
-/

namespace Backslice

/-- A value that a run works with. Only integers and strings are told apart by what they hold. -/
inductive Datum where
  | known (k : Known)
  | literal (c : Constant)
  | object (id : Nat)

namespace Datum

def ofConstant (c : Constant) : Datum :=
  match Known.ofConstant? c with
  | some k => .known k
  | none => .literal c

/-- Integers add and compare exactly, strings are equal or not. Nothing is said of the rest. -/
def arithmetic : Arithmetic Datum where
  literal := ofConstant
  add?
    | .known (.int a), .known (.int b) => some (.known (.int (a + b)))
    | _, _ => none
  compare?
    | op, .known (.int a), .known (.int b) => some (op.holds a b)
    | .eq, .known (.str a), .known (.str b) => some (decide (a = b))
    | .ne, .known (.str a), .known (.str b) => some (decide (a ≠ b))
    | _, _, _ => none
  key?
    | .known (.int n) => some n
    | _ => none

end Datum

/-- Whether a run may go on from one state to another by a statement. Where the arithmetic has no
answer, every one is possible. -/
inductive State.Step (args : Nat → Datum) : Stmt → State Datum → State Datum → Prop
  | parameter (dest : Local) (n : Nat) (ty : Ty) (σ : State Datum) :
    Step args (.identity dest (.parameter n ty)) σ (σ.bind dest.name (args n))
  | identity (dest : Local) {rhs : Value} (h : ∀ n ty, rhs ≠ .parameter n ty) (v : Datum)
    (σ : State Datum) : Step args (.identity dest rhs) σ (σ.bind dest.name v)
  | assign (dest : Local) (rhs : Value) (v : Datum) (σ : State Datum)
    (h : ∀ u, Datum.arithmetic.value? σ.locals rhs = some u → v = u) :
    Step args (.assign (.loc dest) rhs) σ (σ.bind dest.name v)
  | store {lhs : Value} (h : lhs.local? = none) (rhs : Value) (σ : State Datum) :
    Step args (.assign lhs rhs) σ σ.next
  | invoke (c : Call) (σ : State Datum) : Step args (.invoke c) σ σ.next
  | nop (σ : State Datum) : Step args .nop σ σ.next
  | branch (cond : Condition) (target : Nat) (taken : Bool) (σ : State Datum)
    (h : ∀ b, Datum.arithmetic.judge? σ.locals cond = some b → taken = b) :
    Step args (.branch cond target) σ (if taken then σ.jump target else σ.next)
  | goto (target : Nat) (σ : State Datum) : Step args (.goto target) σ (σ.jump target)
  | switch (key : Value) (cases : List (Int × Nat)) (default target : Nat) (σ : State Datum)
    (hmem : target ∈ (Stmt.switch key cases default).targets)
    (h : ∀ t, Datum.arithmetic.choose? σ.locals key cases default = some t → target = t) :
    Step args (.switch key cases default) σ (σ.jump target)

namespace State.Step

variable {args : Nat → Datum} {σ : State Datum}

theorem assign_of_value? {dest : Local} {rhs : Value} {v : Datum}
    (h : Datum.arithmetic.value? σ.locals rhs = some v) :
    Step args (.assign (.loc dest) rhs) σ (σ.bind dest.name v) :=
  .assign dest rhs v σ fun _ hu => Option.some.inj (h.symm.trans hu)

theorem branch_of_judge? {cond : Condition} {target : Nat} {taken : Bool}
    (h : Datum.arithmetic.judge? σ.locals cond = some taken) {τ : State Datum}
    (hτ : τ = if taken then σ.jump target else σ.next) : Step args (.branch cond target) σ τ :=
  hτ ▸ .branch cond target taken σ fun _ hb => Option.some.inj (h.symm.trans hb)

theorem switch_of_choose? {key : Value} {cases : List (Int × Nat)} {default target : Nat}
    (h : Datum.arithmetic.choose? σ.locals key cases default = some target) :
    Step args (.switch key cases default) σ (σ.jump target) :=
  .switch key cases default target σ (Arithmetic.choose?_mem_targets h)
    fun _ ht => Option.some.inj (h.symm.trans ht)

end State.Step

def Runs (stmts : List Stmt) (args : Nat → Datum) : State Datum → State Datum → Prop :=
  Relation.ReflTransGen fun σ τ => ∃ s, stmts[σ.index]? = some s ∧ σ.Step args s τ

namespace Frame

def Agrees (f : Frame) (locals : String → Datum) : Prop :=
  ∀ x k, f.get? x = some k → locals x = .known k

def Below (f g : Frame) : Prop := ∀ x k, f.get? x = some k → g.get? x = some k

variable {f g : Frame} {σ : String → Datum}

theorem Below.refl (f : Frame) : Below f f := fun _ _ h => h

theorem Below.trans {h : Frame} (hf : Below f g) (hg : Below g h) : Below f h :=
  fun x k hx => hg x k (hf x k hx)

theorem Agrees.mono (hg : Agrees g σ) (h : Below f g) : Agrees f σ :=
  fun x k hx => hg x k (h x k hx)

theorem get?_assign (f : Frame) (x y : String) (v : Option Known) :
    (f.assign x v).get? y = if y = x then v else f.get? y := by
  cases v with
  | none => exact Table.get?_erase f x y
  | some k => exact Table.get?_insert f x y k

theorem below_forget (f : Frame) (x : String) : Below (f.assign x none) f := by
  intro y k hy
  rw [get?_assign] at hy
  split at hy
  · cases hy
  · exact hy

theorem Agrees.bind (h : Agrees f σ) (x : String) {v : Option Known} {d : Datum}
    (hv : ∀ k, v = some k → d = .known k) : Agrees (f.assign x v) (Function.update σ x d) := by
  intro y k hy
  rw [get?_assign] at hy
  split at hy
  · rename_i hyx
    rw [hyx, Function.update_self]
    exact hv k hy
  · rename_i hyx
    rw [Function.update_of_ne hyx]
    exact h y k hy

/-- A local that a frame does not know may take any value. -/
theorem Agrees.bind_unknown (h : Agrees f σ) {x : String} (hx : f.get? x = none) (d : Datum) :
    Agrees f (Function.update σ x d) := by
  intro y k hy
  have hyx : y ≠ x := by
    rintro rfl
    rw [hx] at hy
    cases hy
  rw [Function.update_of_ne hyx]
  exact h y k hy

theorem Agrees.operand? (h : Agrees f σ) {v : Value} {k : Known} (hk : f.operand? v = some k) :
    Datum.arithmetic.operand? σ v = some (.known k) := by
  cases v with
  | loc l => exact congrArg some (h l.name k hk)
  | const c =>
    have hc : Known.ofConstant? c = some k := hk
    simp only [Arithmetic.operand?, Datum.arithmetic, Datum.ofConstant, hc]
  | _ => cases hk

theorem operand?_of_bind_int? {v : Value} {a : Int} (h : (f.operand? v >>= Known.int?) = some a) :
    f.operand? v = some (.int a) := by
  obtain ⟨k, hk, ha⟩ := Option.bind_eq_some_iff.1 h
  cases k with
  | int n =>
    cases ha
    exact hk
  | str s => cases ha

/-- What a frame makes of a right-hand side is what it comes to in the run. -/
theorem Agrees.value? (h : Agrees f σ) {v : Value} {k : Known} (hk : f.value? v = some k) :
    Datum.arithmetic.value? σ v = some (.known k) := by
  unfold Frame.value? at hk
  split at hk
  · rename_i lhs rhs
    obtain ⟨a, ha, hk⟩ := Option.bind_eq_some_iff.1 hk
    obtain ⟨b, hb, hk⟩ := Option.bind_eq_some_iff.1 hk
    have hl := h.operand? (operand?_of_bind_int? ha)
    have hr := h.operand? (operand?_of_bind_int? hb)
    obtain ⟨sum, hsum, rfl⟩ := Option.map_eq_some_iff.1 hk
    -- a sum that is known is in range, so that it is the exact one
    obtain rfl : a + b = sum := by
      simp only [Known.add?] at hsum
      split at hsum
      · exact Option.some.inj hsum
      · cases hsum
    simp only [Arithmetic.value?, hl, hr, Option.bind_eq_bind, Option.bind_some]
    rfl
  · rename_i hadd
    have hoperand := h.operand? hk
    unfold Arithmetic.value?
    split
    · exact absurd rfl (hadd _ _)
    · exact hoperand

/-- A branch that a frame decides goes that way in the run. -/
theorem Agrees.judge (h : Agrees f σ) {c : Condition} {taken : Bool}
    (hc : f.judge c = .ofBool taken) : Datum.arithmetic.judge? σ c = some taken := by
  unfold Frame.judge at hc
  split at hc
  · rename_i a b ha hb
    simp only [Arithmetic.judge?, h.operand? ha, h.operand? hb, Option.bind_eq_bind,
      Option.bind_some]
    unfold Decision.ofKnown at hc
    split at hc
    all_goals cases taken <;> simp_all [Decision.ofBool, Datum.arithmetic]
  · cases taken <;> cases hc

end Frame

end Backslice
