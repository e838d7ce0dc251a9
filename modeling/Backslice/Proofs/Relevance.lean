import Backslice.Analysis.Reach

/-!
Which instructions matter to a live set. The kind of an instruction, the ids that its statement
defines and uses, and its effect are each read off the shape of the statement; here they are shown
to agree, whatever the statement.
-/

namespace Backslice

namespace Call

variable {c : Call}

theorem name_mem_ids {b : Local} (h : c.base = some b) : b.name ∈ c.ids := by
  obtain ⟨kind, base, callee, args⟩ := c
  cases h
  simp [ids]

theorem ids_subset_of_mem_args {v : Value} (h : v ∈ c.args) : v.ids ⊆ c.ids := by
  obtain ⟨kind, base, callee, args⟩ := c
  intro id hid
  have hall : id ∈ Value.idsAll args := by
    rw [Value.idsAll_eq, List.mem_flatMap]
    exact ⟨v, h, hid⟩
  cases base <;> simp [ids, hall]

theorem ids_subset_of_arg? {n : Nat} {v : Value} (h : c.arg? n = some v) : v.ids ⊆ c.ids :=
  ids_subset_of_mem_args (List.mem_of_getElem? h)

end Call

namespace UnitKind

variable {kind : UnitKind}

theorem isInvoke_ofCall (k : CallKind) : (ofCall k).isInvoke = true := by cases k <;> rfl

theorem isAssigningInvoke_ofAssignedCall (k : CallKind) :
    (ofAssignedCall k).isAssigningInvoke = true := by cases k <;> rfl

theorem isInvoke_ofAssignedCall (k : CallKind) : (ofAssignedCall k).isInvoke = true := by
  cases k <;> rfl

/-- An assignment never jumps, and calls a method only if it gives a local the result of a call. -/
theorem ofAssignment?_cases {lhs rhs : Value} (h : ofAssignment? lhs rhs = some kind) :
    (kind.isBranch = false ∧ kind.isReturn = false) ∧
      (kind.isInvoke = true → ∃ dest c, lhs = .loc dest ∧ rhs = .call c) := by
  unfold ofAssignment? at h
  split at h
  · rename_i dest
    unfold ofDefinition? at h
    split at h
    · rename_i c
      cases h
      exact ⟨by cases c.kind <;> exact ⟨rfl, rfl⟩, fun _ => ⟨dest, c, rfl, rfl⟩⟩
    · cases h
      split
      · exact ⟨⟨rfl, rfl⟩, by simp [isInvoke]⟩
      · exact ⟨⟨rfl, rfl⟩, by simp [isInvoke]⟩
    all_goals cases h
    all_goals exact ⟨⟨rfl, rfl⟩, by simp [isInvoke]⟩
  all_goals cases h
  all_goals exact ⟨⟨rfl, rfl⟩, by simp [isInvoke]⟩

end UnitKind

namespace Effect

/-- Whether an effect keeps its instruction and stays within some ids: a live one of them makes the
instruction matter, what is killed is defined and live, and what is followed from then on is
used. -/
structure Within (live : LiveSet) (defs uses : List String) (e : Effect) : Prop where
  retain : e.retain = true
  trigger : ∃ id, e.trigger? = some id ∧ live.contains id = true ∧ (id ∈ defs ∨ id ∈ uses)
  kill : ∀ id ∈ e.kill, id ∈ defs ∧ live.contains id = true
  gen : e.gen ⊆ uses

namespace Within

variable {live : LiveSet} {defs uses : List String} {e : Effect} {id : String}

theorem retained (hlive : live.contains id = true) (hid : id ∈ defs ∨ id ∈ uses) :
    (Effect.retained id).Within live defs uses where
  retain := rfl
  trigger := ⟨id, rfl, hlive, hid⟩
  kill := by simp [Effect.retained]
  gen := List.nil_subset _

theorem killing (h : e.Within live defs uses) (hlive : live.contains id = true)
    (hid : id ∈ defs) : (e.killing id).Within live defs uses where
  retain := h.retain
  trigger := h.trigger
  kill x hx := by
    rcases List.mem_append.1 hx with hx | hx
    · exact h.kill x hx
    · rw [List.mem_singleton.1 hx]
      exact ⟨hid, hlive⟩
  gen := h.gen

theorem generating (h : e.Within live defs uses) (hid : id ∈ uses) :
    (e.generating id).Within live defs uses where
  retain := h.retain
  trigger := h.trigger
  kill := h.kill
  gen := List.append_subset.2 ⟨h.gen, List.cons_subset.2 ⟨hid, List.nil_subset _⟩⟩

theorem spawning (h : e.Within live defs uses) (spawn : Spawn) :
    (e.spawning spawn).Within live defs uses :=
  ⟨h.retain, h.trigger, h.kill, h.gen⟩

theorem attach (h : e.Within live defs uses) (c : Constant) (slot : Ty) :
    (e.attach c slot).Within live defs uses := by
  unfold Effect.attach
  split
  · split
    · exact h
    · exact ⟨h.retain, h.trigger, h.kill, h.gen⟩
  · exact h

theorem generatingLocal (h : e.Within live defs uses) {v : Value} (hv : v.ids ⊆ uses) :
    (e.generatingLocal v).Within live defs uses := by
  cases v with
  | loc l => exact h.generating (hv (by simp [Value.ids]))
  | _ => exact h

theorem reading (h : e.Within live defs uses) (slot : Ty) {v : Value} (hv : v.ids ⊆ uses) :
    (e.reading slot v).Within live defs uses := by
  cases v with
  | loc l => exact h.generating (hv (by simp [Value.ids]))
  | const c => exact h.attach c slot
  | _ => exact h

theorem readingText (h : e.Within live defs uses) (slot : Ty) {v : Value} (hv : v.ids ⊆ uses) :
    (e.readingText slot v).Within live defs uses := by
  cases v with
  | loc l =>
    have hl : l.name ∈ uses := hv (by simp [Value.ids])
    simp only [Effect.readingText]
    split
    · exact h.generating hl
    · exact h
  | _ => exact h.reading slot hv

section
variable {c : Call} (h : e.Within live defs uses) (hc : c.ids ⊆ uses)
include h hc

theorem foldl_args {add : Effect → Value × Nat → Effect}
    (hadd : ∀ e : Effect, e.Within live defs uses → ∀ a : Value × Nat, a.1.ids ⊆ uses →
      (add e a).Within live defs uses) : (c.args.zipIdx.foldl add e).Within live defs uses :=
  List.foldlRecOn (motive := fun e => e.Within live defs uses) _ _ h fun e he a ha =>
    hadd e he a (List.Subset.trans
      (Call.ids_subset_of_mem_args (List.fst_mem_of_mem_zipIdx ha)) hc)

theorem readingArgs : (e.readingArgs c).Within live defs uses :=
  h.foldl_args hc fun _ he _ ha => he.reading _ ha

theorem readingTextArgs : (e.readingTextArgs c).Within live defs uses :=
  h.foldl_args hc fun _ he _ ha => he.readingText _ ha

end

end Within

/-- Whether an effect is that of an instruction which matters exactly on a condition, and has no
effect at all otherwise. -/
def MattersIff (live : LiveSet) (defs uses : List String) (P : Prop) (e : Effect) : Prop :=
  P ∧ e.Within live defs uses ∨ ¬ P ∧ e = skip

namespace MattersIff

variable {live : LiveSet} {defs uses : List String} {P : Prop} {e : Effect}

theorem retain_iff (h : e.MattersIff live defs uses P) : e.retain = true ↔ P := by
  rcases h with ⟨hP, hwithin⟩ | ⟨hP, rfl⟩
  · exact iff_of_true hwithin.retain hP
  · exact iff_of_false Bool.false_ne_true hP

theorem within (h : e.MattersIff live defs uses P) (hretain : e.retain = true) :
    e.Within live defs uses := by
  rcases h with ⟨-, hwithin⟩ | ⟨-, rfl⟩
  · exact hwithin
  · cases hretain

theorem eq_skip (h : e.MattersIff live defs uses P) (hretain : e.retain = false) : e = skip := by
  rcases h with ⟨-, hwithin⟩ | ⟨-, heq⟩
  · rw [hwithin.retain] at hretain
    cases hretain
  · exact heq

end MattersIff

section
variable {live : LiveSet}

/-- A copy between arrays matters exactly if its destination is a live local. -/
theorem mattersIff_ofBulkCopy {c : Call} {defs : List String} :
    (ofBulkCopy live c).MattersIff live defs c.ids
      (∃ dest, c.arg? 2 = some (.loc dest) ∧ live.contains dest.name = true) := by
  unfold ofBulkCopy
  split
  · rename_i dest hdest
    have huses : dest.name ∈ c.ids := Call.ids_subset_of_arg? hdest (by simp [Value.ids])
    split
    · rename_i hlive
      have hretained : (retained dest.name).Within live defs c.ids := .retained hlive (.inr huses)
      refine .inl ⟨⟨dest, hdest, hlive⟩, ?_⟩
      split
      · rename_i source hsource
        exact hretained.generatingLocal (Call.ids_subset_of_arg? hsource)
      · exact hretained
    · rename_i hlive
      refine .inr ⟨?_, rfl⟩
      rintro ⟨dest', h, hlive'⟩
      rw [hdest] at h
      cases h
      exact hlive hlive'
  · rename_i hdest
    refine .inr ⟨?_, rfl⟩
    rintro ⟨dest, h, -⟩
    exact hdest dest h

variable {c : Call} {result : Option Local}

/-- A call without a rule of its own matters exactly if its result or an operand is live. -/
theorem mattersIff_ofPlainCall :
    (ofPlainCall live c result).MattersIff live (result.toList.map Local.name) c.ids
      (∃ id ∈ result.toList.map Local.name ++ c.ids, live.contains id = true) := by
  -- the receiver is followed before the arguments, if there is one
  have hreads {e e' : Effect} (he : e.Within live (result.toList.map Local.name) c.ids)
      (hnone : c.base = none → e' = e)
      (hsome : ∀ base, c.base = some base → e' = e.generating base.name) :
      (e'.readingTextArgs c).Within live (result.toList.map Local.name) c.ids := by
    refine Within.readingTextArgs ?_ (List.Subset.refl _)
    cases hbase : c.base with
    | none =>
      rw [hnone hbase]
      exact he
    | some base =>
      rw [hsome base hbase]
      exact he.generating (Call.name_mem_ids hbase)
  simp only [ofPlainCall]
  cases hresult : result.filter fun r => live.contains r.name with
  | some r =>
    obtain ⟨rfl, hlive⟩ := Option.filter_eq_some_iff.1 hresult
    have hdef : r.name ∈ (some r).toList.map Local.name := by simp
    refine .inl ⟨⟨r.name, List.mem_append_left _ hdef, hlive⟩, ?_⟩
    refine ((hreads (Within.retained hlive (.inl hdef)) (fun hbase => ?_)
      fun base hbase => ?_).killing hlive hdef).spawning _
    · simp [hbase]
    · simp [hbase]
  | none =>
    have hdead : ∀ id ∈ result.toList.map Local.name, live.contains id ≠ true := by
      intro id hid
      obtain ⟨r, hr, rfl⟩ := List.mem_map.1 hid
      exact Option.filter_eq_none_iff.1 hresult r (Option.mem_toList.1 hr)
    cases hfound : c.ids.find? live.contains with
    | some id =>
      have hid := List.mem_of_find?_eq_some hfound
      have hlive := List.find?_some hfound
      refine .inl ⟨⟨id, List.mem_append_right _ hid, hlive⟩,
        hreads (Within.retained hlive (.inr hid)) (fun hbase => ?_) fun base hbase => ?_⟩
      · simp [hbase]
      · simp [hbase]
    | none =>
      refine .inr ⟨?_, rfl⟩
      rintro ⟨id, hid, hlive⟩
      rcases List.mem_append.1 hid with hid | hid
      · exact hdead id hid hlive
      · exact List.find?_eq_none.1 hfound id hid hlive

/-- So does every other call except a copy between arrays: the receiver of an insertion is one of
the operands. -/
theorem mattersIff_ofCall (hcopy : c.isBulkCopy = false) :
    (ofCall live c result).MattersIff live (result.toList.map Local.name) c.ids
      (∃ id ∈ result.toList.map Local.name ++ c.ids, live.contains id = true) := by
  unfold ofCall
  rw [if_neg (by simp [hcopy])]
  split
  · rename_i receiver hreceiver
    obtain ⟨hbase, hlive⟩ := Option.filter_eq_some_iff.1 hreceiver
    have hid := Call.name_mem_ids hbase
    have hlive : live.contains receiver.name = true := (Bool.and_eq_true _ _ ▸ hlive).2
    exact .inl ⟨⟨receiver.name, List.mem_append_right _ hid, hlive⟩,
      (Within.retained hlive (.inr hid)).readingArgs (List.Subset.refl _)⟩
  · exact mattersIff_ofPlainCall

/-- An instruction with a rule of its own matters exactly if the id that it defines is live. -/
theorem mattersIff_ifLive {id : String} {uses : List String} {e : Effect}
    (he : live.contains id = true → e.Within live [id] uses) :
    (ifLive live id e).MattersIff live [id] uses (∃ x ∈ [id], live.contains x = true) := by
  simp only [List.mem_singleton, exists_eq_left]
  unfold ifLive
  split
  · rename_i hlive
    exact .inl ⟨hlive, he hlive⟩
  · rename_i hlive
    exact .inr ⟨hlive, rfl⟩

/-- The rule for a definition fits every right-hand side of its kind. -/
theorem within_ofDefinition (s : Surroundings) {kind : UnitKind} {dest : Local} {rhs : Value}
    (hkind : UnitKind.ofDefinition? rhs = some kind) (hcall : rhs.call? = none)
    (hlive : live.contains dest.name = true) :
    (ofDefinition s kind dest rhs).Within live [dest.name] rhs.ids := by
  have hdef : dest.name ∈ [dest.name] := List.mem_singleton_self _
  have hkeep : ((retained dest.name).killing dest.name).Within live [dest.name] rhs.ids :=
    (Within.retained hlive (.inl hdef)).killing hlive hdef
  have hfield {field : FieldSig} (hfield : rhs.field? = some field) (hid : field.text ∈ rhs.ids) :
      (ofDefinition s .assignField dest rhs).Within live [dest.name] rhs.ids := by
    simp only [ofDefinition, hfield]
    cases s.constants.field? field with
    | some c =>
      split
      · exact ((hkeep.attach c field.ty).generating hid).spawning _
      · exact (hkeep.attach c field.ty).generating hid
    | none =>
      split
      · exact (hkeep.generating hid).spawning _
      · exact hkeep.generating hid
  cases rhs with
  | loc source =>
    cases hkind
    exact hkeep.generating (by simp [Value.ids])
  | const c =>
    cases hkind
    exact hkeep.attach c dest.ty
  | instanceField base field =>
    cases hkind
    exact hfield rfl (by simp [Value.ids])
  | staticField field =>
    cases hkind
    exact hfield rfl (by simp [Value.ids])
  | element base n =>
    cases hkind
    exact hkeep.generating (by simp [Value.ids])
  | call c => cases hcall
  | newInstance ty =>
    cases ty with
    | ref cls =>
      simp only [UnitKind.ofDefinition?, Option.some.injEq] at hkind
      subst hkind
      split
      · exact hkeep
      · exact hkeep
    | _ =>
      cases hkind
      exact hkeep
  | newArray elem size =>
    cases hkind
    exact hkeep
  | cast ty op =>
    cases hkind
    exact hkeep.reading dest.ty (by simp [Value.ids])
  | length op =>
    cases hkind
    exact hkeep.reading dest.ty (by simp [Value.ids])
  | isInstance op ty =>
    cases hkind
    exact hkeep.reading dest.ty (by simp [Value.ids])
  | binOp op lhs rhs =>
    cases op with
    | add =>
      cases hkind
      exact (hkeep.reading dest.ty (by simp [Value.ids])).reading dest.ty (by simp [Value.ids])
    | _ => cases hkind
  | parameter n ty => cases hkind
  | this ty => cases hkind
  | caughtException => cases hkind

end

section
variable (s : Surroundings) (live : LiveSet) {kind : UnitKind} {stmt : Stmt}

theorem ofStmt_assign_local {dest : Local} {rhs : Value} (hcall : rhs.call? = none) :
    ofStmt s live kind (.assign (.loc dest) rhs) =
      ifLive live dest.name (ofDefinition s kind dest rhs) := by
  cases rhs with
  | call c => cases hcall
  | _ => rfl

theorem ofStmt_eq_skip (hkind : UnitKind.ofStmt? stmt = some kind)
    (hjump : kind.isBranch = true ∨ kind.isReturn = true) : ofStmt s live kind stmt = skip := by
  cases stmt with
  | assign lhs rhs =>
    obtain ⟨⟨hbranch, hreturn⟩, -⟩ := UnitKind.ofAssignment?_cases hkind
    simp [hbranch, hreturn] at hjump
  | identity dest rhs =>
    cases rhs with
    | parameter n ty =>
      cases hkind
      simp [UnitKind.isBranch, UnitKind.isReturn] at hjump
    | caughtException =>
      cases hkind
      simp [UnitKind.isBranch, UnitKind.isReturn] at hjump
    | _ => cases hkind
  | invoke c =>
    cases hkind
    cases hk : c.kind <;> simp [hk, UnitKind.ofCall, UnitKind.isBranch, UnitKind.isReturn] at hjump
  | _ => rfl

/-- The statements that neither call nor jump follow the ids that they define. -/
theorem mattersIff_ofStmt (hkind : UnitKind.ofStmt? stmt = some kind)
    (hjump : kind.isBranch = false ∧ kind.isReturn = false) (hinvoke : kind.isInvoke = false) :
    (ofStmt s live kind stmt).MattersIff live stmt.defs stmt.uses
      (∃ id ∈ stmt.defs, live.contains id = true) := by
  have hown {id : String} {uses : List String} (hlive : live.contains id = true) :
      (retained id).Within live [id] uses :=
    .retained hlive (.inl (List.mem_singleton_self id))
  -- both forms of a field are stored to alike
  have hstoreConst {field : FieldSig} {uses : List String} (c : Constant)
      (hlive : live.contains field.text = true) :
      (((retained field.text).attach c field.ty).killing field.text).Within live [field.text]
        uses :=
    ((hown hlive).attach c field.ty).killing hlive (List.mem_singleton_self _)
  have hstoreLocal {field : FieldSig} {uses : List String} {source : Local}
      (hsource : source.name ∈ uses) (hlive : live.contains field.text = true) :
      (((retained field.text).killing field.text).generating source.name).Within live
        [field.text] uses :=
    ((hown hlive).killing hlive (List.mem_singleton_self _)).generating hsource
  cases stmt with
  | identity dest rhs =>
    have hbind (hlive : live.contains dest.name = true) :
        ((retained dest.name).killing dest.name).Within live [dest.name] [] :=
      (hown hlive).killing hlive (List.mem_singleton_self dest.name)
    cases rhs with
    | parameter n ty =>
      cases hkind
      exact mattersIff_ifLive fun hlive =>
        ⟨rfl, (hbind hlive).trigger, (hbind hlive).kill, (hbind hlive).gen⟩
    | caughtException =>
      cases hkind
      exact mattersIff_ifLive hbind
    | _ => cases hkind
  | assign lhs rhs =>
    cases lhs with
    | loc dest =>
      have hcall : rhs.call? = none := by
        cases rhs with
        | call c =>
          cases hkind
          cases hk : c.kind <;> simp [hk, UnitKind.ofAssignedCall, UnitKind.isInvoke] at hinvoke
        | _ => rfl
      rw [ofStmt_assign_local s live hcall]
      exact mattersIff_ifLive (within_ofDefinition s hkind hcall)
    | element base n =>
      cases rhs with
      | const c =>
        cases hkind
        exact mattersIff_ifLive fun hlive => (hown hlive).attach c base.ty.element
      | loc source =>
        cases hkind
        exact mattersIff_ifLive fun hlive =>
          (hown hlive).generating (by simp [Stmt.uses, Value.ids])
      | _ => cases hkind
    | instanceField base field =>
      cases rhs with
      | const c =>
        cases hkind
        exact mattersIff_ifLive (hstoreConst c)
      | loc source =>
        cases hkind
        exact mattersIff_ifLive (hstoreLocal (by simp [Stmt.uses, Value.ids]))
      | _ => cases hkind
    | staticField field =>
      cases rhs with
      | const c =>
        cases hkind
        exact mattersIff_ifLive (hstoreConst c)
      | loc source =>
        cases hkind
        exact mattersIff_ifLive (hstoreLocal (by simp [Stmt.uses, Value.ids]))
      | _ => cases hkind
    | _ => cases hkind
  | invoke c =>
    cases hkind
    rw [UnitKind.isInvoke_ofCall] at hinvoke
    cases hinvoke
  | throw v => cases hkind
  | nop => cases hkind
  | ret v =>
    cases hkind
    cases hjump.2
  | retVoid =>
    cases hkind
    cases hjump.2
  | _ =>
    cases hkind
    cases hjump.1

/-- The statements that call a method have the effect of the call. -/
theorem exists_ofStmt_eq_ofCall (hkind : UnitKind.ofStmt? stmt = some kind)
    (hinvoke : kind.isInvoke = true) :
    ∃ c result, stmt.call? = some c ∧ stmt.defs = result.toList.map Local.name ∧
      stmt.uses = c.ids ∧ ofStmt s live kind stmt = ofCall live c result := by
  cases stmt with
  | invoke c => exact ⟨c, none, rfl, rfl, rfl, if_pos hinvoke⟩
  | assign lhs rhs =>
    obtain ⟨dest, c, rfl, rfl⟩ := (UnitKind.ofAssignment?_cases hkind).2 hinvoke
    cases hkind
    refine ⟨c, some dest, rfl, rfl, ?_, if_pos (UnitKind.isAssigningInvoke_ofAssignedCall c.kind)⟩
    simp [Stmt.uses, Value.ids]
  | identity dest rhs => cases rhs <;> cases hkind <;> cases hinvoke
  | throw v => cases hkind
  | nop => cases hkind
  | _ =>
    cases hkind
    cases hinvoke

theorem mattersIff_ofStmt_of_invoke (hkind : UnitKind.ofStmt? stmt = some kind)
    (hinvoke : kind.isInvoke = true) : ∃ c, stmt.call? = some c ∧
      (c.isBulkCopy = false → (ofStmt s live kind stmt).MattersIff live stmt.defs stmt.uses
        (∃ id ∈ stmt.defs ++ stmt.uses, live.contains id = true)) ∧
      (c.isBulkCopy = true → (ofStmt s live kind stmt).MattersIff live stmt.defs stmt.uses
        (∃ dest, c.arg? 2 = some (.loc dest) ∧ live.contains dest.name = true)) := by
  obtain ⟨c, result, hcall, hdefs, huses, heq⟩ := exists_ofStmt_eq_ofCall s live hkind hinvoke
  refine ⟨c, hcall, fun hcopy => ?_, fun hcopy => ?_⟩
  · rw [heq, hdefs, huses]
    exact mattersIff_ofCall hcopy
  · rw [heq, huses, ofCall, if_pos hcopy]
    exact mattersIff_ofBulkCopy

/-- Every statement of some kind matters on some condition. -/
theorem exists_mattersIff (hkind : UnitKind.ofStmt? stmt = some kind) :
    ∃ P, (ofStmt s live kind stmt).MattersIff live stmt.defs stmt.uses P := by
  by_cases hjump : kind.isBranch = true ∨ kind.isReturn = true
  · exact ⟨False, .inr ⟨id, ofStmt_eq_skip s live hkind hjump⟩⟩
  · simp only [not_or, Bool.not_eq_true] at hjump
    cases hinvoke : kind.isInvoke with
    | false => exact ⟨_, mattersIff_ofStmt s live hkind hjump hinvoke⟩
    | true =>
      obtain ⟨c, -, hplain, hcopy⟩ := mattersIff_ofStmt_of_invoke s live hkind hinvoke
      cases hc : c.isBulkCopy with
      | false => exact ⟨_, hplain hc⟩
      | true => exact ⟨_, hcopy hc⟩

end

/-- Whatever the statement, the live set and the surroundings, the rules agree with what the
statement defines and uses. An instruction that jumps, returns or has no kind has no effect. A call
matters exactly if an id that it defines or uses is live, or for a copy between arrays, if its
destination is a live local; every other instruction matters exactly if an id that it defines is
live. What matters has a live trigger, kills only live ids that it defines and follows only ids that
it uses; what does not matter has no effect. -/
theorem ofInstruction_agrees_with_defs_uses (s : Surroundings) (live : LiveSet) (method : String)
    (index : Nat) (stmt : Stmt) :
    let kind? := UnitKind.ofStmt? stmt
    let e := ofInstruction s live (.ofStmt method index stmt)
    ((∀ kind, kind? = some kind → kind.isBranch = true ∨ kind.isReturn = true) → e = skip) ∧
    (∀ kind, kind? = some kind → kind.isBranch = false ∧ kind.isReturn = false →
      kind.isInvoke = false →
        (e.retain = true ↔ ∃ id ∈ stmt.defs, live.contains id = true)) ∧
    (∀ kind, kind? = some kind → kind.isInvoke = true → ∃ c, stmt.call? = some c ∧
      (c.isBulkCopy = false →
        (e.retain = true ↔ ∃ id ∈ stmt.defs ++ stmt.uses, live.contains id = true)) ∧
      (c.isBulkCopy = true → (e.retain = true ↔
        ∃ dest, c.arg? 2 = some (.loc dest) ∧ live.contains dest.name = true))) ∧
    (e.retain = true → e.Within live stmt.defs stmt.uses) ∧
    (e.retain = false → e = skip) := by
  intro kind? e
  cases hkind : kind? with
  | none =>
    have he : e = skip := by simp [e, kind?, ofInstruction, Instruction.ofStmt, hkind]
    refine ⟨fun _ => he, by simp, by simp, fun hretain => ?_, fun _ => he⟩
    rw [he] at hretain
    cases hretain
  | some kind =>
    have he : e = ofStmt s live kind stmt := by
      simp [e, kind?, ofInstruction, Instruction.ofStmt, hkind]
    simp only [Option.some.injEq, forall_eq', he]
    obtain ⟨P, hP⟩ := exists_mattersIff s live hkind
    refine ⟨ofStmt_eq_skip s live hkind, fun hjump hinvoke => ?_, fun hinvoke => ?_, hP.within,
      hP.eq_skip⟩
    · exact (mattersIff_ofStmt s live hkind hjump hinvoke).retain_iff
    · obtain ⟨c, hcall, hplain, hcopy⟩ := mattersIff_ofStmt_of_invoke s live hkind hinvoke
      exact ⟨c, hcall, fun hc => (hplain hc).retain_iff, fun hc => (hcopy hc).retain_iff⟩

end Effect

end Backslice
