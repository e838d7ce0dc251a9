import Backslice.Proofs.Relevance
import Backslice.Proofs.Shape

/-!
Where the literals of a slice come from. What a statement that matters tells does not depend on the
live set, so the first visit gives a line all the literals of its statement and later ones round a
loop add none. Only the seed has others, which the criterion asks for.
-/

namespace Backslice

/-- Whether a value is a constant or has it as an operand: an argument of a call, or what is cast,
measured, tested or added. -/
def Value.HasOperand (k : Constant) : Value → Prop
  | .const k' => k' = k
  | .call c => .const k ∈ c.args
  | .cast _ op | .length op | .isInstance op _ => op = .const k
  | .binOp .add lhs rhs => lhs = .const k ∨ rhs = .const k
  | _ => False

namespace Stmt

def HasOperand (k : Constant) : Stmt → Prop
  | .invoke c => .const k ∈ c.args
  | .assign _ rhs => rhs.HasOperand k
  | .ret v => v = .const k
  | _ => False

/-- Whether a constant has its source in a statement: as an operand, or in the field that it
reads. -/
def IsSourceOf (t : ConstantTable) (s : Stmt) (k : Constant) : Prop :=
  s.HasOperand k ∨
    ∃ lhs rhs f, s = .assign lhs rhs ∧ rhs.field? = some f ∧ t.field? f = some k

theorem hasOperand_of_call? {s : Stmt} {c : Call} {k : Constant} (hs : s.call? = some c)
    (hk : .const k ∈ c.args) : s.HasOperand k := by
  cases s with
  | invoke c' =>
    cases hs
    exact hk
  | assign lhs rhs =>
    cases rhs with
    | call c' =>
      cases hs
      exact hk
    | _ => cases hs
  | _ => cases hs

end Stmt

def Call.ArgTells (text : String) (c : Call) : Prop :=
  ∃ (n : Nat) (k : Constant), c.args[n]? = some (.const k) ∧ k.textFor? (c.slot n) = some text

/-- Whether a call says the text. A copy between arrays says nothing. -/
def Call.Tells (text : String) (c : Call) : Prop := c.isBulkCopy = false ∧ c.ArgTells text

/-- Whether a value says the text when a local of the given type gets it. -/
def Value.Tells (t : ConstantTable) (slot : Ty) (text : String) : Value → Prop
  | .call c => c.Tells text
  | rhs => (∃ k, rhs.HasOperand k ∧ k.textFor? slot = some text) ∨
      ∃ f k, rhs.field? = some f ∧ t.field? f = some k ∧ k.textFor? f.ty = some text

def Value.storedTy? : Value → Option Ty
  | .element base _ => some base.ty.element
  | v => v.field?.map (·.ty)

/-- Whether a statement says a text: in an argument of a call, in what it gives to a local, or in
the constant that it stores. -/
def Stmt.Tells (t : ConstantTable) (text : String) : Stmt → Prop
  | .invoke c => c.Tells text
  | .assign (.loc dest) rhs => rhs.Tells t dest.ty text
  | .assign lhs rhs => ∃ k slot,
      rhs = .const k ∧ lhs.storedTy? = some slot ∧ k.textFor? slot = some text
  | _ => False

section
variable {t : ConstantTable} {text : String}

theorem Value.tells_iff {slot : Ty} {rhs : Value} (hcall : rhs.call? = none) :
    rhs.Tells t slot text ↔ (∃ k, rhs.HasOperand k ∧ k.textFor? slot = some text) ∨
      ∃ f k, rhs.field? = some f ∧ t.field? f = some k ∧ k.textFor? f.ty = some text := by
  cases rhs with
  | call c => cases hcall
  | _ => rfl

theorem Call.exists_mem_of_tells {c : Call} (h : c.Tells text) :
    ∃ k slot, .const k ∈ c.args ∧ k.textFor? slot = some text := by
  obtain ⟨-, n, k, hn, htext⟩ := h
  exact ⟨k, _, List.mem_of_getElem? hn, htext⟩

/-- What a statement says, a constant with its source there says. -/
theorem Stmt.exists_source_of_tells {s : Stmt} (h : s.Tells t text) :
    ∃ k slot, s.IsSourceOf t k ∧ k.textFor? slot = some text := by
  cases s with
  | invoke c =>
    obtain ⟨k, slot, hk, htext⟩ := Call.exists_mem_of_tells h
    exact ⟨k, slot, .inl hk, htext⟩
  | assign lhs rhs =>
    have hstored (hconst : ∃ k slot,
        rhs = .const k ∧ lhs.storedTy? = some slot ∧ k.textFor? slot = some text) :
        ∃ k slot, IsSourceOf t (.assign lhs rhs) k ∧ k.textFor? slot = some text := by
      obtain ⟨k, slot, rfl, -, htext⟩ := hconst
      exact ⟨k, slot, .inl rfl, htext⟩
    cases lhs with
    | loc dest =>
      have h : rhs.Tells t dest.ty text := h
      cases hcall : rhs.call? with
      | some c =>
        cases rhs with
        | call c' =>
          obtain ⟨k, slot, hk, htext⟩ := Call.exists_mem_of_tells h
          exact ⟨k, slot, .inl hk, htext⟩
        | _ => cases hcall
      | none =>
        rcases (Value.tells_iff hcall).1 h with ⟨k, hk, htext⟩ | ⟨f, k, hf, hk, htext⟩
        · exact ⟨k, dest.ty, .inl hk, htext⟩
        · exact ⟨k, f.ty, .inr ⟨_, rhs, f, rfl, hf, hk⟩, htext⟩
    | _ => exact hstored h
  | _ => cases h

end

namespace Effect

variable {e : Effect} {text : String} {slot : Ty}

theorem mem_constants_attach {k : Constant} :
    text ∈ (e.attach k slot).constants ↔ text ∈ e.constants ∨ k.textFor? slot = some text := by
  unfold attach
  cases hk : k.textFor? slot with
  | none => simp
  | some text' =>
    dsimp only
    split
    · rename_i hmem
      constructor
      · exact .inl
      · rintro (h | h)
        · exact h
        · cases h
          exact hmem
    · simp [eq_comm]

theorem mem_constants_reading {v : Value} :
    text ∈ (e.reading slot v).constants ↔
      text ∈ e.constants ∨ ∃ k, v = .const k ∧ k.textFor? slot = some text := by
  cases v with
  | const k => simpa [reading] using mem_constants_attach
  | _ => simp [reading, generating]

theorem mem_constants_readingText {v : Value} :
    text ∈ (e.readingText slot v).constants ↔
      text ∈ e.constants ∨ ∃ k, v = .const k ∧ k.textFor? slot = some text := by
  cases v with
  | loc l =>
    simp only [readingText]
    split <;> simp [generating]
  | _ => exact mem_constants_reading

/-- Taking in the arguments of a call one by one adds what each of them says. -/
theorem mem_constants_foldl_args {c : Call} {add : Effect → Value × Nat → Effect}
    (hadd : ∀ e a, text ∈ (add e a).constants ↔
      text ∈ e.constants ∨ ∃ k, a.1 = .const k ∧ k.textFor? (c.slot a.2) = some text) :
    text ∈ (c.args.zipIdx.foldl add e).constants ↔ text ∈ e.constants ∨ c.ArgTells text := by
  have hfold (l : List (Value × Nat)) (e : Effect) :
      text ∈ (l.foldl add e).constants ↔ text ∈ e.constants ∨
        ∃ a ∈ l, ∃ k, a.1 = .const k ∧ k.textFor? (c.slot a.2) = some text := by
    induction l generalizing e with
    | nil => simp
    | cons a l ih => rw [List.foldl_cons, ih, hadd, or_assoc, List.exists_mem_cons_iff]
  rw [hfold]
  refine or_congr_right ⟨?_, ?_⟩
  · rintro ⟨⟨v, n⟩, ha, k, rfl, htext⟩
    exact ⟨n, k, List.mk_mem_zipIdx_iff_getElem?.1 ha, htext⟩
  · rintro ⟨n, k, hn, htext⟩
    exact ⟨(.const k, n), List.mk_mem_zipIdx_iff_getElem?.2 hn, k, rfl, htext⟩

variable {live : LiveSet} {s : Surroundings} {kind : UnitKind}

theorem constants_ofBulkCopy {c : Call} : (ofBulkCopy live c).constants = [] := by
  unfold ofBulkCopy
  split
  · split
    · split
      · rename_i source _
        cases source <;> rfl
      · rfl
    · rfl
  · rfl

theorem mem_constants_ofPlainCall {c : Call} {result : Option Local}
    (hretain : (ofPlainCall live c result).retain = true) :
    text ∈ (ofPlainCall live c result).constants ↔ c.ArgTells text := by
  -- nothing is attached before the arguments, and nothing after them
  have hargs {e : Effect} (he : e.constants = []) :
      text ∈ (e.readingTextArgs c).constants ↔ c.ArgTells text := by
    refine (mem_constants_foldl_args fun _ _ => mem_constants_readingText).trans ?_
    simp [he]
  simp only [ofPlainCall] at hretain ⊢
  split at hretain
  · cases hretain
  · cases result.filter fun r => live.contains r.name with
    | none =>
      refine hargs ?_
      cases c.base <;> rfl
    | some r =>
      refine hargs ?_
      cases c.base <;> rfl

/-- A call that matters says all that its arguments say, whichever of its operands matter. -/
theorem mem_constants_ofCall {c : Call} {result : Option Local}
    (hretain : (ofCall live c result).retain = true) :
    text ∈ (ofCall live c result).constants ↔ c.Tells text := by
  unfold Call.Tells
  cases hcopy : c.isBulkCopy with
  | true => simp [ofCall, hcopy, constants_ofBulkCopy]
  | false =>
    simp only [true_and]
    simp only [ofCall, hcopy, Bool.false_eq_true, if_false] at hretain ⊢
    split at hretain
    · refine (mem_constants_foldl_args fun _ _ => mem_constants_reading).trans ?_
      simp [retained]
    · exact mem_constants_ofPlainCall hretain

theorem mem_constants_ofDefinition {dest : Local} {rhs : Value}
    (hkind : UnitKind.ofDefinition? rhs = some kind) (hcall : rhs.call? = none) :
    text ∈ (ofDefinition s kind dest rhs).constants ↔ rhs.Tells s.constants dest.ty text := by
  rw [Value.tells_iff hcall]
  have hkeep : ((retained dest.name).killing dest.name).constants = [] := rfl
  have hfield {field : FieldSig} (hfield : rhs.field? = some field) :
      text ∈ (ofDefinition s .assignField dest rhs).constants ↔
        ∃ f k, rhs.field? = some f ∧ s.constants.field? f = some k ∧
          k.textFor? f.ty = some text := by
    have hspawned (e : Effect) : (if s.readsField then e.spawning (.fieldWriters field)
        else e).constants = e.constants := by split <;> rfl
    simp only [ofDefinition, hfield, hspawned, generating]
    cases hk : s.constants.field? field with
    | none => simp [hk, hkeep]
    | some k => simp [hk, hkeep, mem_constants_attach]
  cases rhs with
  | loc source =>
    cases hkind
    simp [ofDefinition, generating, hkeep, Value.HasOperand, Value.field?]
  | const k =>
    cases hkind
    simp [ofDefinition, mem_constants_attach, hkeep, Value.HasOperand, Value.field?]
  | instanceField base field =>
    cases hkind
    rw [hfield rfl]
    simp [Value.HasOperand]
  | staticField field =>
    cases hkind
    rw [hfield rfl]
    simp [Value.HasOperand]
  | element base n =>
    cases hkind
    simp [ofDefinition, generating, hkeep, Value.HasOperand, Value.field?]
  | call c => cases hcall
  | newInstance ty =>
    have hnew : (ofDefinition s kind dest (.newInstance ty)).constants = [] := by
      cases kind <;> rfl
    simp [hnew, Value.HasOperand, Value.field?]
  | newArray elem size =>
    cases hkind
    simp [ofDefinition, hkeep, Value.HasOperand, Value.field?]
  | cast ty op =>
    cases hkind
    simp [ofDefinition, mem_constants_reading, hkeep, Value.HasOperand, Value.field?]
  | length op =>
    cases hkind
    simp [ofDefinition, mem_constants_reading, hkeep, Value.HasOperand, Value.field?]
  | isInstance op ty =>
    cases hkind
    simp [ofDefinition, mem_constants_reading, hkeep, Value.HasOperand, Value.field?]
  | binOp op lhs rhs =>
    cases op with
    | add =>
      cases hkind
      simp [ofDefinition, mem_constants_reading, hkeep, Value.HasOperand, Value.field?,
        or_and_right, exists_or]
    | _ => cases hkind
  | parameter n ty => cases hkind
  | this ty => cases hkind
  | caughtException => cases hkind

theorem ifLive_of_retain {id : String} {e : Effect} (h : (ifLive live id e).retain = true) :
    ifLive live id e = e := by
  unfold ifLive at h ⊢
  split at h
  · rename_i hlive
    rw [if_pos hlive]
  · cases h

/-- A statement that matters says all that it can say, whatever the live set. -/
theorem mem_constants_ofStmt {stmt : Stmt} (hkind : UnitKind.ofStmt? stmt = some kind)
    (hretain : (ofStmt s live kind stmt).retain = true) :
    text ∈ (ofStmt s live kind stmt).constants ↔ stmt.Tells s.constants text := by
  -- elements and both forms of a field are stored to alike
  have hstore {lhs rhs : Value} {id : String} {slot : Ty} {e : Effect}
      (hretain : (ifLive live id e).retain = true) (hslot : lhs.storedTy? = some slot)
      (he : text ∈ e.constants ↔ ∃ k, rhs = .const k ∧ k.textFor? slot = some text) :
      text ∈ (ifLive live id e).constants ↔ ∃ k slot,
        rhs = .const k ∧ lhs.storedTy? = some slot ∧ k.textFor? slot = some text := by
    rw [ifLive_of_retain hretain, he]
    simp [hslot]
  have hbind {id : String} {e : Effect} (hretain : (ifLive live id e).retain = true)
      (he : e.constants = []) : text ∈ (ifLive live id e).constants ↔ False := by
    simp [ifLive_of_retain hretain, he]
  cases stmt with
  | invoke c =>
    cases hkind
    simp only [ofStmt, UnitKind.isInvoke_ofCall, if_true] at hretain ⊢
    exact mem_constants_ofCall hretain
  | assign lhs rhs =>
    cases lhs with
    | loc dest =>
      have hdefined (hcall : rhs.call? = none) :
          text ∈ (ofStmt s live kind (.assign (.loc dest) rhs)).constants ↔
            rhs.Tells s.constants dest.ty text := by
        rw [ofStmt_assign_local s live hcall] at hretain ⊢
        rw [ifLive_of_retain hretain]
        exact mem_constants_ofDefinition hkind hcall
      cases rhs with
      | call c =>
        cases hkind
        simp only [ofStmt, UnitKind.isAssigningInvoke_ofAssignedCall, if_true] at hretain ⊢
        exact mem_constants_ofCall hretain
      | _ => exact hdefined rfl
    | element base n =>
      cases rhs with
      | const k =>
        cases hkind
        exact hstore hretain rfl (by simp [mem_constants_attach, retained])
      | loc source =>
        cases hkind
        exact hstore hretain rfl (by simp [generatingLocal, generating, retained])
      | _ => cases hkind
    | instanceField base field =>
      cases rhs with
      | const k =>
        cases hkind
        exact hstore hretain rfl (by simp [killing, mem_constants_attach, retained])
      | loc source =>
        cases hkind
        exact hstore hretain rfl (by simp [generatingLocal, generating, killing, retained])
      | _ => cases hkind
    | staticField field =>
      cases rhs with
      | const k =>
        cases hkind
        exact hstore hretain rfl (by simp [killing, mem_constants_attach, retained])
      | loc source =>
        cases hkind
        exact hstore hretain rfl (by simp [generatingLocal, generating, killing, retained])
      | _ => cases hkind
    | _ => cases hkind
  | identity dest rhs =>
    cases rhs with
    | parameter n ty =>
      cases hkind
      exact hbind hretain rfl
    | caughtException =>
      cases hkind
      exact hbind hretain rfl
    | _ => cases hkind
  | _ => cases hretain

end Effect

theorem Stmt.not_tells_of_isBranch {t : ConstantTable} {text : String} {s : Stmt} {kind : UnitKind}
    (hkind : UnitKind.ofStmt? s = some kind) (hbranch : kind.isBranch = true) :
    ¬ s.Tells t text := by
  cases s with
  | assign lhs rhs =>
    rw [(UnitKind.ofAssignment?_cases hkind).1.1] at hbranch
    cases hbranch
  | invoke c =>
    cases hkind
    cases hk : c.kind <;> simp [hk, UnitKind.ofCall, UnitKind.isBranch] at hbranch
  | _ => exact id

def Line.literals (l : Line) : List String := l.constants?.getD []

theorem Line.mem_literals_attachAll {l : Line} {literals : List String} {text : String} :
    text ∈ (l.attachAll literals).literals ↔ text ∈ l.literals ∨ text ∈ literals := by
  unfold Line.attachAll
  induction literals generalizing l with
  | nil => simp
  | cons literal rest ih =>
    have hattach : text ∈ (l.attach literal).literals ↔ text ∈ l.literals ∨ text = literal := by
      simp only [Line.literals, Line.attach, Option.getD_some]
      split
      · rename_i hmem
        exact ⟨.inl, fun h => h.elim id fun heq => heq ▸ hmem⟩
      · simp
    rw [List.foldl_cons, ih, hattach, or_assoc, List.mem_cons]

namespace Walk

variable {w : Walk} {k : Nat} {text : String}

def HasLiteral (w : Walk) (k : Nat) (text : String) : Prop :=
  ∃ l, w.lines.get? k = some l ∧ text ∈ l.literals

/-- Keeping a line once more takes no literal away and gives none to another line. -/
theorem hasLiteral_retain {i : Instruction} {literals : List String} :
    (w.retain i literals).HasLiteral k text ↔
      w.HasLiteral k text ∨ i.kind?.isSome = true ∧ k = i.index ∧ text ∈ literals := by
  unfold HasLiteral retain
  cases hkind : i.kind? with
  | none => simp
  | some kind =>
    by_cases hk : k = i.index
    · subst hk
      cases hget : w.lines.get? i.index with
      | none =>
        simp only [Table.get?_insert, if_true, Option.some.injEq, exists_eq_left',
          Line.mem_literals_attachAll, Option.getD_none]
        simp [Line.literals]
      | some l => simp [Table.get?_insert, Line.mem_literals_attachAll]
    · simp [Table.get?_insert, hk]

theorem HasLiteral.congr {v : Walk} (h : v.lines = w.lines) :
    v.HasLiteral k text ↔ w.HasLiteral k text := by
  simp only [HasLiteral, h]

/-- A visit leaves the lines alone, or keeps that of the instruction with all that it says. -/
theorem lines_visit_ofStmt (s : Surroundings) (w : Walk) (method : String) (index : Nat)
    (stmt : Stmt) :
    (w.visit s index (.ofStmt method index stmt)).lines = w.lines ∨
      ∃ literals, (w.visit s index (.ofStmt method index stmt)).lines =
          (w.retain (.ofStmt method index stmt) literals).lines ∧
        ∀ text, text ∈ literals ↔ stmt.Tells s.constants text := by
  rcases lines_visit_cases s w index (.ofStmt method index stmt) with
    hlines | ⟨-, literals, hlines, (⟨⟨kind, hkind, hbranch⟩, hnil⟩ | ⟨hretain, hconstants⟩)⟩
  · exact .inl hlines
  · refine .inr ⟨literals, hlines, fun text => iff_of_false (by simp [hnil]) ?_⟩
    exact Stmt.not_tells_of_isBranch hkind hbranch
  · refine .inr ⟨literals, hlines, fun text => ?_⟩
    rw [hconstants]
    cases hkind : UnitKind.ofStmt? stmt with
    | none => simp [Effect.ofInstruction, Instruction.ofStmt, hkind, Effect.skip] at hretain
    | some kind =>
      simp only [Effect.ofInstruction, Instruction.ofStmt, hkind] at hretain ⊢
      exact Effect.mem_constants_ofStmt hkind hretain

/-- What holds of the literals of a walk at any time. A line has those that its statement says, and
the seed has those that the criterion asks for besides. -/
structure Told (t : ConstantTable) (c : Criterion) (method : String) (stmts : List Stmt)
    (seed : Nat) (w : Walk) : Prop where
  body_eq : w.body = Body.ofStmts method stmts
  only : ∀ k text, w.HasLiteral k text → ∃ s, stmts[k]? = some s ∧
    (s.Tells t text ∨ k = seed ∧ text ∈ seedConstants t c s)
  all : ∀ k s text, stmts[k]? = some s → w.lines.contains k = true → k ≠ seed →
    s.Tells t text → w.HasLiteral k text
  planted : ∀ s text, stmts[seed]? = some s → (UnitKind.ofStmt? s).isSome = true →
    text ∈ seedConstants t c s → w.HasLiteral seed text

namespace Told

variable {t : ConstantTable} {c : Criterion} {method : String} {stmts : List Stmt} {seed : Nat}
  {v : Walk} {s : Surroundings}

theorem of_lines (h : w.Told t c method stmts seed) (hbody : v.body = w.body)
    (hlines : v.lines = w.lines) : v.Told t c method stmts seed where
  body_eq := hbody.trans h.body_eq
  only k text hliteral := h.only k text ((HasLiteral.congr hlines).1 hliteral)
  all k s text hs hk hseed htells :=
    (HasLiteral.congr hlines).2 (h.all k s text hs (hlines ▸ hk) hseed htells)
  planted s text hs hkind hmem := (HasLiteral.congr hlines).2 (h.planted s text hs hkind hmem)

/-- A line that is kept with what its statement says has it from then on. -/
theorem retain (h : w.Told t c method stmts seed) {index : Nat} {stmt : Stmt}
    (hstmt : stmts[index]? = some stmt) {literals : List String}
    (hliterals : ∀ text, text ∈ literals ↔ stmt.Tells t text) :
    (w.retain (.ofStmt method index stmt) literals).Told t c method stmts seed where
  body_eq := (congrArg (·.2.1) (retain_fixed w _ literals)).trans h.body_eq
  only k text hliteral := by
    -- what is not new was there before, also if the seed is kept again
    rcases hasLiteral_retain.1 hliteral with hliteral | ⟨-, rfl, hmem⟩
    · exact h.only k text hliteral
    · exact ⟨stmt, hstmt, .inl ((hliterals text).1 hmem)⟩
  all k s text hs hk hseed htells := by
    rw [lines_retain, Bool.or_eq_true, Bool.and_eq_true, decide_eq_true_eq] at hk
    rcases hk with ⟨hkind, rfl⟩ | hk
    · cases hstmt.symm.trans hs
      exact hasLiteral_retain.2 (.inr ⟨hkind, rfl, (hliterals text).2 htells⟩)
    · exact hasLiteral_retain.2 (.inl (h.all k s text hs hk hseed htells))
  planted s text hs hkind hmem := hasLiteral_retain.2 (.inl (h.planted s text hs hkind hmem))

theorem visitAt (h : w.Told s.constants c method stmts seed) (index : Nat) :
    (w.visitAt s index).Told s.constants c method stmts seed := by
  unfold Walk.visitAt
  cases hget : w.body[index]? with
  | none => exact h
  | some i =>
    rw [h.body_eq, Body.getElem?_ofStmts, Option.map_eq_some_iff] at hget
    obtain ⟨stmt, hstmt, rfl⟩ := hget
    have hbody : (w.visit s index (.ofStmt method index stmt)).body = w.body :=
      congrArg (·.2.1) (visit_fixed s w index _)
    rcases lines_visit_ofStmt s w method index stmt with hlines | ⟨literals, hlines, hliterals⟩
    · exact h.of_lines hbody hlines
    · refine (h.retain hstmt hliterals).of_lines (hbody.trans ?_) hlines
      exact (congrArg (·.2.1) (retain_fixed w _ literals)).symm

theorem run (h : w.Told s.constants c method stmts seed) (cursor : Nat) :
    (w.run s cursor).Told s.constants c method stmts seed := by
  fun_induction Walk.run s w cursor with
  | case1 => exact h
  | case2 w index tail v hloop ih =>
    obtain ⟨-, -, -, rfl⟩ := edge_of_takeLoop? hloop
    exact ih (h.of_lines rfl rfl)
  | case3 w index _ ih => exact ih (h.visitAt index)

end Told

/-- The only line of a walk that starts is the seed, with what the criterion asks for. -/
theorem told_plantSeed (t : ConstantTable) (c : Criterion) (method : String) (stmts : List Stmt)
    (b : Branches) :
    let w := start c (Body.ofStmts method stmts) b
    (w.plantSeed t).Told t c method stmts w.seed := by
  intro w
  have hnone (k : Nat) (text : String) : ¬ w.HasLiteral k text := by
    rintro ⟨l, hl, -⟩
    cases hl
  unfold plantSeed
  cases hget : w.body[w.seed]? with
  | none =>
    have hstmt : stmts[w.seed]? = none := by
      simpa [w, start, Body.getElem?_ofStmts] using hget
    exact {
      body_eq := rfl
      only := fun k text hliteral => absurd hliteral (hnone k text)
      all := fun k s text _ hk => by cases hk
      planted := fun s text hs => by simp [hstmt] at hs }
  | some i =>
    rw [show w.body = Body.ofStmts method stmts from rfl, Body.getElem?_ofStmts,
      Option.map_eq_some_iff] at hget
    obtain ⟨stmt, hstmt, rfl⟩ := hget
    let v := w.retain (.ofStmt method w.seed stmt) (seedConstants t c stmt)
    have hliteral (k : Nat) (text : String) : v.HasLiteral k text ↔
        (UnitKind.ofStmt? stmt).isSome = true ∧ k = w.seed ∧ text ∈ seedConstants t c stmt := by
      rw [hasLiteral_retain]
      exact or_iff_right (hnone k text)
    have htold : v.Told t c method stmts w.seed := {
      body_eq := congrArg (·.2.1) (retain_fixed w _ _)
      only := fun k text h => by
        obtain ⟨-, rfl, hmem⟩ := (hliteral k text).1 h
        exact ⟨stmt, hstmt, .inr ⟨rfl, hmem⟩⟩
      all := fun k s text hs hk hseed => by
        rw [lines_retain, Bool.or_eq_true, Bool.and_eq_true, decide_eq_true_eq] at hk
        rcases hk with ⟨-, hk⟩ | hk
        · exact absurd hk hseed
        · cases hk
      planted := fun s text hs hkind hmem => by
        cases hstmt.symm.trans hs
        exact (hliteral _ text).2 ⟨hkind, rfl, hmem⟩ }
    exact htold.of_lines rfl rfl

theorem told_ofCriterion (t : ConstantTable) (c : Criterion) (method : String)
    (stmts : List Stmt) (b : Branches) :
    (ofCriterion t c (Body.ofStmts method stmts) b).Told t c method stmts
      (stmts.length - 1 - c.index) := by
  have hplanted := told_plantSeed t c method stmts b
  have hwalked := hplanted.run (s := ⟨t, c.readsField⟩)
    ((start c (Body.ofStmts method stmts) b).plantSeed t).seed
  rw [← seed_start c method stmts b]
  exact hwalked

/-- What a criterion asks for at its seed, a constant with its source there says. -/
theorem exists_source_of_mem_seedConstants {t : ConstantTable} {c : Criterion} {s : Stmt}
    (h : text ∈ seedConstants t c s) :
    ∃ k slot, s.IsSourceOf t k ∧ k.textFor? slot = some text := by
  unfold seedConstants at h
  split at h
  · split at h
    · cases h
    · rename_i call hcall
      obtain ⟨p, -, htext⟩ := List.mem_filterMap.1 h
      split at htext
      · rename_i k hoperand
        refine ⟨k, _, .inl (Stmt.hasOperand_of_call? hcall ?_), htext⟩
        -- the receiver is a local, so what is constant is an argument
        unfold Call.operand? at hoperand
        split at hoperand
        · cases hbase : call.base <;> simp [hbase] at hoperand
        · exact List.mem_of_getElem? hoperand
      · cases htext
  · rename_i lhs rhs _
    simp only [Option.mem_toList, Option.bind_eq_bind, Option.bind_eq_some_iff] at h
    obtain ⟨f, hf, k, hk, htext⟩ := h
    exact ⟨k, f.ty, .inr ⟨lhs, rhs, f, rfl, hf, hk⟩, htext⟩
  · rename_i lhs k _
    simp only [Option.mem_toList, Option.bind_eq_bind, Option.bind_eq_some_iff] at h
    obtain ⟨f, -, htext⟩ := h
    exact ⟨k, f.ty, .inl rfl, htext⟩
  · rename_i k _
    exact ⟨k, _, .inl rfl, Option.mem_toList.1 h⟩
  · cases h

/-- The literals of a line are told by its statement, or asked for at the seed. -/
theorem told_line {t : ConstantTable} {c : Criterion} {method : String} {stmts : List Stmt}
    {seed : Nat} {edges : List (Nat × Nat)} (hshaped : w.Shaped method stmts seed edges)
    (htold : w.Told t c method stmts seed) {l : Line} (hl : l ∈ w.lines.values) :
    ∃ s, stmts[l.source]? = some s ∧
      (∀ text ∈ l.literals, ∃ k slot, s.IsSourceOf t k ∧ k.textFor? slot = some text) ∧
      (l.source ≠ seed → ∀ text, text ∈ l.literals ↔ s.Tells t text) ∧
      (l.source = seed → seedConstants t c s ⊆ l.literals) := by
  obtain ⟨e, he, rfl⟩ := List.mem_map.1 hl
  obtain ⟨s, hs, hline⟩ := (hshaped.lines e he).statement
  have hget : w.lines.get? e.1 = some e.2 := Table.get?_eq_some_iff.2 he
  have hliteral {text : String} : w.HasLiteral e.1 text ↔ text ∈ e.2.literals := by
    simp [HasLiteral, hget]
  have hcontains : w.lines.contains e.1 = true := by
    rw [Table.contains_eq_isSome_get?, hget, Option.isSome_some]
  have honly {text : String} (hmem : text ∈ e.2.literals) :
      s.Tells t text ∨ e.1 = seed ∧ text ∈ seedConstants t c s := by
    obtain ⟨s', hs', htext⟩ := htold.only e.1 text (hliteral.2 hmem)
    cases hs.symm.trans hs'
    exact htext
  rw [hshaped.source_eq e he]
  refine ⟨s, hs, fun text hmem => ?_, fun hseed text => ⟨fun hmem => ?_, fun htells => ?_⟩, ?_⟩
  · rcases honly hmem with htells | ⟨-, hplanted⟩
    · exact Stmt.exists_source_of_tells htells
    · exact exists_source_of_mem_seedConstants hplanted
  · exact (honly hmem).resolve_right fun h => hseed h.1
  · exact hliteral.1 (htold.all e.1 s text hs hcontains hseed htells)
  · intro hseed text hmem
    have hkind : (UnitKind.ofStmt? s).isSome = true := Option.isSome_iff_exists.2 ⟨_, hline.kind⟩
    rw [hseed] at hs hliteral
    exact hliteral.1 (htold.planted s text hs hkind hmem)

end Walk

namespace Worklist

/-- Whatever a build of a program says and whatever is asked for, a slice that is stored has only
literals with a source: what a constant says that the statement of the line has as an operand, or
that the build has for the field that the statement reads. Except at the seed, a line has all that
its statement says and nothing else, and the seed has all that the criterion asks for. -/
theorem stored_literals_have_sources (p : Program) (b : Build) (config : Config) (w : Worklist)
    (c : Criterion) (hp : p.Assembled) (h : (process ⟨p, b, config⟩ w c).store ≠ w.store) :
    ∃ m stmts r, MethodSig.parse c.caller = .ok m ∧ p.body m = .ok (Body.ofStmts m.text stmts) ∧
      (process ⟨p, b, config⟩ w c).store = w.store.insert r ∧ r.nodeId? = some c.id ∧
      ∀ l ∈ r.content, ∃ s, stmts[l.source]? = some s ∧
        (∀ text ∈ l.literals,
          ∃ k slot, s.IsSourceOf b.constants k ∧ k.textFor? slot = some text) ∧
        (l.source ≠ stmts.length - 1 - c.index →
          ∀ text, text ∈ l.literals ↔ s.Tells b.constants text) ∧
        (l.source = stmts.length - 1 - c.index →
          Walk.seedConstants b.constants c s ⊆ l.literals) := by
  rcases process_cases ⟨p, b, config⟩ w c with ⟨-, heq⟩ | ⟨-, -, heq⟩ | ⟨-, walk, hwalk, heq⟩
  · exact absurd (congrArg store heq) h
  · exact absurd (congrArg store heq) h
  · obtain ⟨body, hbody, -, rfl⟩ := Analysis.exists_body_of_walk? hwalk
    obtain ⟨m, hparse, hm⟩ := Program.exists_of_bodyOf hbody
    obtain ⟨stmts, rfl⟩ := hp.eq_ofStmts_of_body hm
    exact ⟨m, stmts, _, hparse, hm, congrArg store heq, rfl, fun l hl =>
      Walk.told_line (Walk.shaped_run ..) (Walk.told_ofCriterion ..) hl⟩

def nameField : FieldSig := ⟨"a.B", .string, "NAME"⟩

def charsetCallee : MethodSig := ⟨"a.C", .void, "use", [.string, .string]⟩

def fieldInLoop : Program :=
  Program.empty.addClass <| .ofMembers "a.B" none false [.constant nameField (.str "AES")]
    [⟨loopMethod, some
      [.assign (.loc ⟨"r1", .string⟩) (.staticField nameField),
        .invoke ⟨.static, none, charsetCallee, [.loc ⟨"r1", .string⟩, .const (.str "UTF-8")]⟩,
        .goto 0]⟩]

def charsetUse : Criterion := { loopUse with index := 1 }

theorem stored_literals_have_sources_fieldInLoop :
    let b := Build.ofProgram ⟨[]⟩ fieldInLoop
    let w := process ⟨fieldInLoop, b, .default⟩ ⟨[], .empty, {}⟩ charsetUse
    fieldInLoop.Assembled ∧ w.store ≠ .empty ∧
      ∃ m stmts r, MethodSig.parse charsetUse.caller = .ok m ∧
        fieldInLoop.body m = .ok (Body.ofStmts m.text stmts) ∧
        w.store = Store.empty.insert r ∧ r.nodeId? = some charsetUse.id ∧
        ∀ l ∈ r.content, ∃ s, stmts[l.source]? = some s ∧
          (∀ text ∈ l.literals,
            ∃ k slot, s.IsSourceOf b.constants k ∧ k.textFor? slot = some text) ∧
          (l.source ≠ stmts.length - 1 - charsetUse.index →
            ∀ text, text ∈ l.literals ↔ s.Tells b.constants text) ∧
          (l.source = stmts.length - 1 - charsetUse.index →
            Walk.seedConstants b.constants charsetUse s ⊆ l.literals) := by
  intro b w
  have hp : fieldInLoop.Assembled := .addClass .empty _
  have hbody : fieldInLoop.bodyOf charsetUse.caller = fieldInLoop.body loopMethod :=
    Program.bodyOf_text parse_loopMethod
  have hwalk := Analysis.walk?_of_bodyOf (a := ⟨fieldInLoop, b, .default⟩) (c := charsetUse)
    (hbody.trans rfl) (by decide)
  have hstored : w.store ≠ .empty := by
    rw [congrArg store (process_alone hwalk)]
    intro hempty
    cases hempty
  exact ⟨hp, hstored,
    stored_literals_have_sources fieldInLoop b .default _ charsetUse hp hstored⟩

end Worklist

end Backslice
