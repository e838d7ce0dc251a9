import Mathlib.Logic.Function.Basic
import Mathlib.Logic.Relation
import Backslice.Code.UnitKind

namespace Backslice

/-- What constants, sums and comparisons come to over a type of values. A run stops where there is
no result. -/
structure Arithmetic (V : Type) where
  literal : Constant → V
  add? : V → V → Option V
  compare? : CmpOp → V → V → Option Bool
  key? : V → Option Int

namespace Arithmetic

variable {V : Type}

def operand? (m : Arithmetic V) (locals : String → V) : Value → Option V
  | .loc l => some (locals l.name)
  | .const c => some (m.literal c)
  | _ => none

def value? (m : Arithmetic V) (locals : String → V) : Value → Option V
  | .binOp .add lhs rhs => do m.add? (← m.operand? locals lhs) (← m.operand? locals rhs)
  | v => m.operand? locals v

def judge? (m : Arithmetic V) (locals : String → V) (c : Condition) : Option Bool := do
  m.compare? c.op (← m.operand? locals c.lhs) (← m.operand? locals c.rhs)

def choose? (m : Arithmetic V) (locals : String → V) (key : Value) (cases : List (Int × Nat))
    (default : Nat) : Option Nat := do
  let k ← m.key? (← m.operand? locals key)
  return (cases.lookup k).getD default

/-- Values as constants are written: integers wrap around at their width, others can only be told
apart. -/
def ofConstants : Arithmetic Constant where
  literal := id
  add?
    | .int a, .int b => some (.int (Int.bmod (a + b) 0x100000000))
    | .long a, .long b => some (.long (Int.bmod (a + b) 0x10000000000000000))
    | _, _ => none
  compare? op a b :=
    match a.int?, b.int?, op with
    | some x, some y, op => some (op.holds x y)
    | _, _, .eq => some (a.same b)
    | _, _, .ne => some (!a.same b)
    | _, _, _ => none
  key? := Constant.int?

theorem operand?_congr (m : Arithmetic V) {σ τ : String → V} {v : Value}
    (h : ∀ x ∈ v.ids, σ x = τ x) : m.operand? σ v = m.operand? τ v := by
  cases v with
  | loc l => simp only [operand?, h l.name (by simp [Value.ids])]
  | _ => rfl

theorem value?_congr (m : Arithmetic V) {σ τ : String → V} {v : Value}
    (h : ∀ x ∈ v.ids, σ x = τ x) : m.value? σ v = m.value? τ v := by
  unfold value?
  split
  · rename_i lhs rhs
    have hl : ∀ x ∈ lhs.ids, σ x = τ x := fun x hx => h x (by simp [Value.ids, hx])
    have hr : ∀ x ∈ rhs.ids, σ x = τ x := fun x hx => h x (by simp [Value.ids, hx])
    rw [m.operand?_congr hl, m.operand?_congr hr]
  · exact m.operand?_congr h

theorem judge?_congr (m : Arithmetic V) {σ τ : String → V} {c : Condition}
    (h : ∀ x ∈ c.lhs.ids ++ c.rhs.ids, σ x = τ x) : m.judge? σ c = m.judge? τ c := by
  have hl : ∀ x ∈ c.lhs.ids, σ x = τ x := fun x hx => h x (List.mem_append_left _ hx)
  have hr : ∀ x ∈ c.rhs.ids, σ x = τ x := fun x hx => h x (List.mem_append_right _ hx)
  unfold judge?
  rw [m.operand?_congr hl, m.operand?_congr hr]

theorem choose?_congr (m : Arithmetic V) {σ τ : String → V} {key : Value}
    (cases : List (Int × Nat)) (default : Nat) (h : ∀ x ∈ key.ids, σ x = τ x) :
    m.choose? σ key cases default = m.choose? τ key cases default := by
  unfold choose?
  rw [m.operand?_congr h]

theorem choose?_mem_targets {m : Arithmetic V} {σ : String → V} {key : Value}
    {cases : List (Int × Nat)} {default t : Nat} (h : m.choose? σ key cases default = some t) :
    t ∈ (Stmt.switch key cases default).targets := by
  simp only [choose?, Option.bind_eq_bind, Option.bind_eq_some_iff, Option.pure_def,
    Option.some.injEq] at h
  obtain ⟨v, -, k, -, rfl⟩ := h
  simp only [Stmt.targets, List.mem_append, List.mem_map, List.mem_singleton]
  cases hk : cases.lookup k with
  | none => exact .inr rfl
  | some t =>
    obtain ⟨before, after, heq, -⟩ := List.lookup_eq_some_iff.1 hk
    exact .inl ⟨(k, t), by simp [heq], rfl⟩

end Arithmetic

@[ext] structure State (V : Type) where
  index : Nat
  locals : String → V

namespace State

variable {V : Type}

def jump (σ : State V) (target : Nat) : State V := ⟨target, σ.locals⟩

def next (σ : State V) : State V := σ.jump (σ.index + 1)

def bind (σ : State V) (name : String) (v : V) : State V :=
  ⟨σ.index + 1, Function.update σ.locals name v⟩

/-- Carries out a statement. Runs end at returns and throws, and at what the machine has no
meaning for: calls, fields and arrays. -/
def step? (m : Arithmetic V) (args : Nat → V) (σ : State V) : Stmt → Option (State V)
  | .identity dest (.parameter n _) => some (σ.bind dest.name (args n))
  | .assign (.loc dest) rhs => (m.value? σ.locals rhs).map (σ.bind dest.name)
  | .branch cond target =>
    (m.judge? σ.locals cond).map fun taken => if taken then σ.jump target else σ.next
  | .goto target => some (σ.jump target)
  | .switch key cases default => (m.choose? σ.locals key cases default).map σ.jump
  | .nop => some σ.next
  | _ => none

/-- A step goes to the next instruction or to a target of the statement. -/
theorem index_of_step? {m : Arithmetic V} {args : Nat → V} {σ τ : State V} {s : Stmt}
    (h : σ.step? m args s = some τ) : τ.index = σ.index + 1 ∨ τ.index ∈ s.targets := by
  unfold step? at h
  split at h
  · cases h
    exact .inl rfl
  · obtain ⟨v, -, rfl⟩ := Option.map_eq_some_iff.1 h
    exact .inl rfl
  · obtain ⟨taken, -, rfl⟩ := Option.map_eq_some_iff.1 h
    cases taken
    · exact .inl rfl
    · exact .inr (by simp [jump, Stmt.targets])
  · cases h
    exact .inr (by simp [jump, Stmt.targets])
  · obtain ⟨t, ht, rfl⟩ := Option.map_eq_some_iff.1 h
    exact .inr (Arithmetic.choose?_mem_targets ht)
  · cases h
    exact .inl rfl
  · cases h

end State

inductive Value.IsOperand : Value → Prop
  | loc (l : Local) : IsOperand (.loc l)
  | const (c : Constant) : IsOperand (.const c)

namespace Stmt

/-- The statements that give a local a value of which the machine knows the meaning. -/
inductive Defines : Stmt → String → Prop
  | parameter (dest : Local) (n : Nat) (ty : Ty) :
    Defines (.identity dest (.parameter n ty)) dest.name
  | copy (dest : Local) {v : Value} (h : v.IsOperand) : Defines (.assign (.loc dest) v) dest.name
  | sum (dest : Local) {lhs rhs : Value} (hl : lhs.IsOperand) (hr : rhs.IsOperand) :
    Defines (.assign (.loc dest) (.binOp .add lhs rhs)) dest.name

/-- The statements that leave the locals as they are and only decide where a run goes on. -/
inductive IsControl : Stmt → Prop
  | branch {cond : Condition} (target : Nat) (hl : cond.lhs.IsOperand) (hr : cond.rhs.IsOperand) :
    IsControl (.branch cond target)
  | goto (target : Nat) : IsControl (.goto target)
  | switch {key : Value} (cases : List (Int × Nat)) (default : Nat) (h : key.IsOperand) :
    IsControl (.switch key cases default)
  | ret (v : Value) : IsControl (.ret v)
  | retVoid : IsControl .retVoid
  | throw (v : Value) : IsControl (.throw v)
  | nop : IsControl .nop

def IsCore (s : Stmt) : Prop := (∃ x, s.Defines x) ∨ s.IsControl

/-- A definition binds its local to a value that depends on the ids it uses only. -/
theorem Defines.step? {V : Type} {s : Stmt} {x : String} (h : s.Defines x) (m : Arithmetic V)
    (args : Nat → V) : ∃ value? : (String → V) → Option V,
      (∀ σ : State V, σ.step? m args s = (value? σ.locals).map (σ.bind x)) ∧
      ∀ σ τ : String → V, (∀ y ∈ s.uses, σ y = τ y) → value? σ = value? τ := by
  cases h with
  | parameter dest n ty => exact ⟨fun _ => some (args n), fun σ => rfl, fun _ _ _ => rfl⟩
  | copy dest h => exact ⟨fun σ => m.value? σ _, fun σ => rfl, fun _ _ h => m.value?_congr h⟩
  | sum dest hl hr => exact ⟨fun σ => m.value? σ _, fun σ => rfl, fun _ _ h => m.value?_congr h⟩

/-- Where a run goes on depends on the ids that the statement uses only. -/
theorem IsControl.step? {V : Type} {s : Stmt} (h : s.IsControl) (m : Arithmetic V)
    (args : Nat → V) (index : Nat) : ∃ goes? : (String → V) → Option Nat,
      (∀ σ : String → V, State.step? m args ⟨index, σ⟩ s = (goes? σ).map (⟨·, σ⟩)) ∧
      ∀ σ τ : String → V, (∀ y ∈ s.uses, σ y = τ y) → goes? σ = goes? τ := by
  cases h with
  | branch target hl hr =>
    refine ⟨fun σ => (m.judge? σ _).map fun taken => if taken then target else index + 1,
      fun σ => ?_, fun σ τ h => congrArg (Option.map _) (m.judge?_congr h)⟩
    simp only [State.step?, Option.map_map]
    congr 1
    funext taken
    cases taken <;> rfl
  | goto target => exact ⟨fun _ => some target, fun σ => rfl, fun _ _ _ => rfl⟩
  | switch cases default h =>
    exact ⟨fun σ => m.choose? σ _ cases default, fun σ => rfl,
      fun σ τ h => m.choose?_congr cases default h⟩
  | ret v => exact ⟨fun _ => none, fun σ => rfl, fun _ _ _ => rfl⟩
  | retVoid => exact ⟨fun _ => none, fun σ => rfl, fun _ _ _ => rfl⟩
  | throw v => exact ⟨fun _ => none, fun σ => rfl, fun _ _ _ => rfl⟩
  | nop => exact ⟨fun _ => some (index + 1), fun σ => rfl, fun _ _ _ => rfl⟩

end Stmt

namespace Body

variable {V : Type}

/-- Carries out the instruction at the index of the state. -/
def step? (body : Body) (m : Arithmetic V) (args : Nat → V) (σ : State V) : Option (State V) :=
  body[σ.index]? >>= fun i => σ.step? m args i.stmt

def Reaches (body : Body) (m : Arithmetic V) (args : Nat → V) : State V → State V → Prop :=
  Relation.ReflTransGen fun σ τ => body.step? m args σ = some τ

def IsForward (body : Body) : Prop :=
  ∀ (k : Nat) (i : Instruction), body[k]? = some i → ∀ t ∈ i.stmt.targets, k < t

/-- Puts a statement without effect in place of those before `stop` that are not kept. -/
def keeping (body : Body) (keep : Nat → Bool) (stop : Nat) : Body :=
  body.mapIdx fun k i => if k < stop && !keep k then .ofStmt i.method i.index .nop else i

theorem index_lt_of_step? {body : Body} {m : Arithmetic V} {args : Nat → V} {σ τ : State V}
    (hf : body.IsForward) (h : body.step? m args σ = some τ) : σ.index < τ.index := by
  obtain ⟨i, hi, hstep⟩ := Option.bind_eq_some_iff.1 h
  rcases State.index_of_step? hstep with hnext | htarget
  · omega
  · exact hf σ.index i hi τ.index htarget

theorem index_le_of_reaches {body : Body} {m : Arithmetic V} {args : Nat → V} {σ τ : State V}
    (hf : body.IsForward) (h : body.Reaches m args σ τ) : σ.index ≤ τ.index := by
  induction h with
  | refl => exact Nat.le_refl _
  | tail _ hstep ih => exact Nat.le_trans ih (Nat.le_of_lt (index_lt_of_step? hf hstep))

theorem step?_keeping_of_keep (body : Body) {keep : Nat → Bool} {stop : Nat} (m : Arithmetic V)
    (args : Nat → V) {σ : State V} (h : keep σ.index = true) :
    (body.keeping keep stop).step? m args σ = body.step? m args σ := by
  unfold step? keeping
  rw [List.getElem?_mapIdx]
  cases body[σ.index]? with
  | none => rfl
  | some i => simp [h]

theorem step?_keeping_of_drop {body : Body} {keep : Nat → Bool} {stop : Nat} (m : Arithmetic V)
    (args : Nat → V) {σ : State V} {i : Instruction} (hi : body[σ.index]? = some i)
    (hstop : σ.index < stop) (h : keep σ.index = false) :
    (body.keeping keep stop).step? m args σ = some σ.next := by
  unfold step? keeping
  rw [List.getElem?_mapIdx, hi]
  simp [h, hstop, Instruction.ofStmt, State.step?]

theorem isForward_keeping {body : Body} (hf : body.IsForward) (keep : Nat → Bool) (stop : Nat) :
    (body.keeping keep stop).IsForward := by
  intro k i hi t ht
  rw [keeping, List.getElem?_mapIdx, Option.map_eq_some_iff] at hi
  obtain ⟨j, hj, rfl⟩ := hi
  split at ht
  · simp [Instruction.ofStmt, Stmt.targets] at ht
  · exact hf k j hj t ht

/-- A run passes an index only once if all jumps go forward. -/
theorem eq_of_reaches {body : Body} {m : Arithmetic V} {args : Nat → V} {σ τ υ : State V}
    (hf : body.IsForward) (hτ : body.Reaches m args σ τ) (hυ : body.Reaches m args σ υ)
    (h : τ.index = υ.index) : τ = υ := by
  have stays {τ υ : State V} (hrun : body.Reaches m args τ υ) (h : τ.index = υ.index) : τ = υ := by
    rcases Relation.ReflTransGen.cases_head hrun with heq | ⟨ρ, hstep, hrest⟩
    · exact heq
    · have hlt := index_lt_of_step? hf hstep
      have hle := index_le_of_reaches hf hrest
      omega
  have hunique : Relator.RightUnique fun σ τ : State V => body.step? m args σ = some τ :=
    fun σ τ υ hτ hυ => Option.some.inj (hτ.symm.trans hυ)
  -- one run goes on where the other stops, and forward jumps do not come back
  rcases Relation.ReflTransGen.total_of_right_unique hunique hτ hυ with hrun | hrun
  · exact stays hrun h
  · exact (stays hrun h.symm).symm

end Body

end Backslice
