import Backslice.Walk.Basic

namespace Backslice

/-- Whether a spawn of a walk can come from a statement: a walk only goes down into methods that
the statement calls. -/
def Spawn.ArisesIn (stmt : Stmt) : Spawn → Prop
  | .downward m => ∃ c, stmt.call? = some c ∧ c.method = m
  | .fieldWriters _ => True

namespace Effect

@[simp] theorem skip_spawns : skip.spawns = [] := rfl

@[simp] theorem retained_spawns (id : String) : (retained id).spawns = [] := rfl

@[simp] theorem killing_spawns (e : Effect) (id : String) : (e.killing id).spawns = e.spawns := rfl

@[simp] theorem generating_spawns (e : Effect) (id : String) :
    (e.generating id).spawns = e.spawns := rfl

@[simp] theorem spawning_spawns (e : Effect) (s : Spawn) :
    (e.spawning s).spawns = e.spawns ++ [s] := rfl

@[simp] theorem attach_spawns (e : Effect) (c : Constant) (slot : Ty) :
    (e.attach c slot).spawns = e.spawns := by
  unfold attach
  split
  · split <;> rfl
  · rfl

@[simp] theorem reading_spawns (e : Effect) (slot : Ty) (v : Value) :
    (e.reading slot v).spawns = e.spawns := by
  unfold reading; split <;> simp

@[simp] theorem generatingLocal_spawns (e : Effect) (v : Value) :
    (e.generatingLocal v).spawns = e.spawns := by
  unfold generatingLocal; split <;> simp

@[simp] theorem readingText_spawns (e : Effect) (slot : Ty) (v : Value) :
    (e.readingText slot v).spawns = e.spawns := by
  unfold readingText
  split
  · split <;> simp
  · simp

theorem foldl_spawns {α : Type} {f : Effect → α → Effect}
    (h : ∀ e a, (f e a).spawns = e.spawns) (l : List α) (e : Effect) :
    (l.foldl f e).spawns = e.spawns := by
  induction l generalizing e with
  | nil => rfl
  | cons a l ih => rw [List.foldl_cons, ih, h]

@[simp] theorem readingArgs_spawns (e : Effect) (c : Call) :
    (e.readingArgs c).spawns = e.spawns :=
  foldl_spawns (fun _ _ => reading_spawns ..) _ e

@[simp] theorem readingTextArgs_spawns (e : Effect) (c : Call) :
    (e.readingTextArgs c).spawns = e.spawns :=
  foldl_spawns (fun _ _ => readingText_spawns ..) _ e

@[simp] theorem ofBulkCopy_spawns (live : LiveSet) (c : Call) :
    (ofBulkCopy live c).spawns = [] := by
  unfold ofBulkCopy
  split
  · split
    · split <;> simp
    · rfl
  · rfl

theorem mem_spawns_ofPlainCall {live : LiveSet} {c : Call} {result : Option Local} {s : Spawn}
    (h : s ∈ (ofPlainCall live c result).spawns) : s = .downward c.method := by
  simp only [ofPlainCall] at h
  cases hr : result.filter fun r => live.contains r.name with
  | none =>
    rw [hr] at h
    cases hf : c.ids.find? live.contains <;> cases hb : c.base <;> simp [hf, hb] at h
  | some r =>
    rw [hr] at h
    cases hb : c.base <;> simpa [hb] using h

theorem mem_spawns_ofCall {live : LiveSet} {c : Call} {result : Option Local} {s : Spawn}
    (h : s ∈ (ofCall live c result).spawns) : s = .downward c.method := by
  unfold ofCall at h
  split at h
  · simp at h
  · split at h
    · simp at h
    · exact mem_spawns_ofPlainCall h

theorem mem_spawns_ifLive {live : LiveSet} {id : String} {e : Effect} {s : Spawn}
    (h : s ∈ (ifLive live id e).spawns) : s ∈ e.spawns := by
  unfold ifLive at h
  split at h
  · exact h
  · simp at h

theorem mem_spawns_ofDefinition {su : Surroundings} {kind : UnitKind} {dest : Local} {rhs : Value}
    {s : Spawn} (h : s ∈ (ofDefinition su kind dest rhs).spawns) :
    ∃ field, s = .fieldWriters field := by
  unfold ofDefinition at h
  by_cases hk : kind = .assignField
  · subst hk
    cases hf : rhs.field? with
    | none => simp [hf] at h
    | some field =>
      cases hc : su.constants.field? field <;> cases hr : su.readsField <;>
        simp [hf, hc, hr] at h <;> exact ⟨field, h⟩
  · split at h <;> simp_all

theorem arisesIn_of_mem_ofStmt {su : Surroundings} {live : LiveSet} {kind : UnitKind} {stmt : Stmt}
    {s : Spawn} (h : s ∈ (ofStmt su live kind stmt).spawns) : s.ArisesIn stmt := by
  have writers {dest : Local} {rhs : Value}
      (h : s ∈ (ifLive live dest.name (ofDefinition su kind dest rhs)).spawns) :
      s.ArisesIn stmt := by
    obtain ⟨field, rfl⟩ := mem_spawns_ofDefinition (mem_spawns_ifLive h)
    trivial
  unfold ofStmt at h
  split at h
  · split at h
    · rw [mem_spawns_ofCall h]; exact ⟨_, rfl, rfl⟩
    · simp at h
  · split at h
    · simpa [retained, killing] using mem_spawns_ifLive h
    · simpa using mem_spawns_ifLive h
    · simp at h
  · split at h
    · rw [mem_spawns_ofCall h]; exact ⟨_, rfl, rfl⟩
    · exact writers h
  · exact writers h
  · split at h
    · simpa using mem_spawns_ifLive h
    · simpa using mem_spawns_ifLive h
    · simp at h
  · split at h
    · simpa using mem_spawns_ifLive h
    · simpa using mem_spawns_ifLive h
    · simp at h
  · simp at h

theorem arisesIn_of_mem_ofInstruction {su : Surroundings} {live : LiveSet} {i : Instruction}
    {s : Spawn} (h : s ∈ (ofInstruction su live i).spawns) : s.ArisesIn i.stmt := by
  unfold ofInstruction at h
  split at h
  · exact arisesIn_of_mem_ofStmt h
  · simp at h

end Effect

namespace Walk

@[simp] theorem makeAllLive_spawns (origin : String) (w : Walk) (ids : List String) :
    (makeAllLive origin w ids).spawns = w.spawns := by
  unfold makeAllLive
  induction ids generalizing w with
  | nil => rfl
  | cons id ids ih =>
    rw [List.foldl_cons, ih]
    unfold makeLive
    split <;> rfl

@[simp] theorem retain_spawns (w : Walk) (i : Instruction) (constants : List String) :
    (w.retain i constants).spawns = w.spawns := by
  unfold retain; split <;> rfl

theorem mem_spawns_addSpawns {w : Walk} {ss : List Spawn} {s : Spawn} :
    s ∈ (ss.foldl addSpawn w).spawns ↔ s ∈ ss ∨ s ∈ w.spawns := by
  induction ss generalizing w with
  | nil => simp
  | cons t ss ih =>
    rw [List.foldl_cons, ih, addSpawn]
    split
    · rename_i ht
      simp only [List.mem_cons]
      constructor
      · exact Or.imp_left .inr
      · rintro ((rfl | h) | h)
        · exact .inr ht
        · exact .inl h
        · exact .inr h
    · simp only [List.mem_append, List.mem_cons, List.not_mem_nil, or_false]
      constructor
      · rintro (h | h | h)
        · exact .inl (.inr h)
        · exact .inr h
        · exact .inl (.inl h)
      · rintro ((h | h) | h)
        · exact .inr (.inr h)
        · exact .inl h
        · exact .inr (.inl h)

theorem mem_spawns_apply {w : Walk} {index : Nat} {e : Effect} {s : Spawn} :
    s ∈ (w.apply index e).spawns ↔ s ∈ e.spawns ∨ s ∈ w.spawns := by
  simp only [apply, mem_spawns_addSpawns]
  cases e.ordinal? <;> simp only [addOrdinal, makeAllLive_spawns] <;> split <;> rfl

theorem mem_spawns_transfer {su : Surroundings} {w : Walk} {index : Nat} {i : Instruction}
    {s : Spawn} (h : s ∈ (w.transfer su index i).spawns) :
    s.ArisesIn i.stmt ∨ s ∈ w.spawns := by
  simp only [transfer] at h
  split at h
  · rcases mem_spawns_apply.1 h with h | h
    · exact .inl (Effect.arisesIn_of_mem_ofInstruction h)
    · exact .inr (by simpa using h)
  · exact .inr h

theorem mem_spawns_visit {su : Surroundings} {w : Walk} {index : Nat} {i : Instruction}
    {s : Spawn} (h : s ∈ (w.visit su index i).spawns) : s.ArisesIn i.stmt ∨ s ∈ w.spawns := by
  unfold visit at h
  split at h
  · split at h <;> exact .inr (by simpa using h)
  · exact .inr (by simpa using h)
  · split at h <;> exact .inr (by simpa using h)
  · split at h
    · exact .inr h
    · exact mem_spawns_transfer h
  · exact .inr h

/-- Whether every spawn so far comes from a statement of the body. -/
def SpawnsArise (w : Walk) : Prop := ∀ s ∈ w.spawns, ∃ i ∈ w.body, s.ArisesIn i.stmt

theorem visitAt_body (su : Surroundings) (w : Walk) (index : Nat) :
    (w.visitAt su index).body = w.body :=
  congrArg (·.2.1) (visitAt_fixed su w index)

theorem SpawnsArise.visitAt {su : Surroundings} {w : Walk} {index : Nat} (h : w.SpawnsArise) :
    (w.visitAt su index).SpawnsArise := by
  intro s hs
  rw [visitAt_body]
  unfold Walk.visitAt at hs
  split at hs
  · rename_i i hi
    rcases mem_spawns_visit hs with hs | hs
    · exact ⟨i, List.mem_of_getElem? hi, hs⟩
    · exact h s hs
  · exact h s hs

theorem body_of_takeLoop? {w v : Walk} {index tail : Nat}
    (h : w.takeLoop? index = some (tail, v)) : v.body = w.body ∧ v.spawns = w.spawns := by
  unfold takeLoop? at h
  split at h
  · simp only [Option.some.injEq, Prod.mk.injEq] at h
    obtain ⟨-, rfl⟩ := h
    exact ⟨rfl, rfl⟩
  · cases h

theorem run_body (su : Surroundings) (w : Walk) (cursor : Nat) :
    (w.run su cursor).body = w.body := by
  fun_induction run su w cursor with
  | case1 => rfl
  | case2 w index tail v h ih => rw [ih, (body_of_takeLoop? h).1]
  | case3 w index _ ih => rw [ih, visitAt_body]

theorem SpawnsArise.run {su : Surroundings} {w : Walk} {cursor : Nat} (h : w.SpawnsArise) :
    (w.run su cursor).SpawnsArise := by
  fun_induction Walk.run su w cursor with
  | case1 => exact h
  | case2 w index tail v hv ih =>
    refine ih fun s hs => ?_
    rw [(body_of_takeLoop? hv).1]
    exact h s ((body_of_takeLoop? hv).2 ▸ hs)
  | case3 w index _ ih => exact ih h.visitAt

theorem spawnsArise_plantSeed {constants : ConstantTable} {w : Walk} (h : w.spawns = []) :
    (w.plantSeed constants).SpawnsArise := by
  unfold plantSeed
  split
  · rename_i i hi
    intro s hs
    have hbody : (w.retain i (seedConstants constants w.criterion i.stmt)).body = w.body :=
      congrArg (·.2.1) (retain_fixed ..)
    simp only [retain_spawns, h, List.nil_append] at hs
    refine ⟨i, hbody ▸ List.mem_of_getElem? hi, ?_⟩
    unfold seedSpawns at hs
    split at hs
    · split at hs
      · obtain ⟨field, -, rfl⟩ := List.mem_map.1 hs
        trivial
      · cases hs
    · cases hs
  · intro s hs
    rw [h] at hs
    cases hs

theorem plantSeed_body (constants : ConstantTable) (w : Walk) :
    (w.plantSeed constants).body = w.body := by
  unfold plantSeed
  split
  · exact congrArg (·.2.1) (retain_fixed ..)
  · rfl

theorem ofCriterion_body (constants : ConstantTable) (c : Criterion) (body : Body) (b : Branches) :
    (ofCriterion constants c body b).body = body :=
  (run_body ..).trans (plantSeed_body ..)

theorem spawnsArise_ofCriterion (constants : ConstantTable) (c : Criterion) (body : Body)
    (b : Branches) : (ofCriterion constants c body b).SpawnsArise :=
  SpawnsArise.run (spawnsArise_plantSeed rfl)

end Walk

end Backslice
