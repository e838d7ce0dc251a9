import Backslice.Proofs.Branches
import Backslice.Proofs.Machine
import Backslice.Proofs.Visit
import Backslice.Walk.Spawns

namespace Backslice

namespace Effect

theorem attach_rest (e : Effect) (c : Constant) (slot : Ty) :
    (e.attach c slot).retain = e.retain ∧ (e.attach c slot).kill = e.kill ∧
      (e.attach c slot).gen = e.gen := by
  unfold attach
  split
  · split <;> exact ⟨rfl, rfl, rfl⟩
  · exact ⟨rfl, rfl, rfl⟩

/-- A definition of a live local is kept, ends the local's life and follows the ids it uses. -/
theorem ofInstruction_defines (s : Surroundings) (live : LiveSet) (method : String) (index : Nat)
    {stmt : Stmt} {x : String} (h : stmt.Defines x) :
    ∃ e : Effect, ofInstruction s live (.ofStmt method index stmt) = ifLive live x e ∧
      e.retain = true ∧ e.kill = [x] ∧ e.gen = stmt.uses := by
  cases h with
  | parameter dest n ty => exact ⟨_, rfl, rfl, rfl, rfl⟩
  | copy dest h =>
    cases h with
    | loc l => exact ⟨_, rfl, rfl, rfl, rfl⟩
    | const c => exact ⟨_, rfl, attach_rest ((retained dest.name).killing dest.name) c dest.ty⟩
  | sum dest hl hr =>
    refine ⟨_, rfl, ?_⟩
    cases hl <;> cases hr <;>
      simp [ofDefinition, reading, attach_rest, retained, killing, generating, Stmt.uses, Value.ids]

end Effect

namespace Walk

theorem visit_defines (s : Surroundings) (w : Walk) (method : String) (index : Nat) {stmt : Stmt}
    {x : String} (h : stmt.Defines x) :
    (UnitKind.ofStmt? stmt).isSome = true ∧
      w.visit s index (.ofStmt method index stmt) =
        w.transfer s index (.ofStmt method index stmt) := by
  cases h with
  | parameter dest n ty => exact ⟨rfl, rfl⟩
  | copy dest h => cases h <;> exact ⟨rfl, rfl⟩
  | sum dest hl hr => exact ⟨rfl, rfl⟩

theorem visit_defines_of_not_live (s : Surroundings) (w : Walk) (method : String) (index : Nat)
    {stmt : Stmt} {x : String} (h : stmt.Defines x) (hx : w.live.contains x = false) :
    w.visit s index (.ofStmt method index stmt) = w := by
  obtain ⟨e, he, -⟩ := Effect.ofInstruction_defines s w.live method index h
  rw [(visit_defines s w method index h).2]
  simp [transfer, he, Effect.ifLive, hx, Effect.skip]

theorem visit_defines_of_live (s : Surroundings) (w : Walk) (method : String) (index : Nat)
    {stmt : Stmt} {x : String} (h : stmt.Defines x) (hx : w.live.contains x = true) :
    (w.visit s index (.ofStmt method index stmt)).lines.contains index = true ∧
      ∀ y, (w.visit s index (.ofStmt method index stmt)).live.contains y =
        (decide (y ∈ stmt.uses) ||
          ((w.mayDefineOnly index || decide (y ≠ x)) && w.live.contains y)) := by
  obtain ⟨e, he, hretain, hkill, hgen⟩ := Effect.ofInstruction_defines s w.live method index h
  obtain ⟨hkind, hvisit⟩ := visit_defines s w method index h
  have ht : w.transfer s index (.ofStmt method index stmt) =
      (w.retain (.ofStmt method index stmt) e.constants).apply index e := by
    simp [transfer, he, Effect.ifLive, hx, hretain]
  have hmay := mayDefineOnly_of_fixed (retain_fixed w (.ofStmt method index stmt) e.constants) index
  rw [hvisit, ht]
  constructor
  · rw [lines_apply, lines_retain]
    simp [Instruction.ofStmt, hkind]
  · intro y
    rw [live_apply, hmay, hkill, hgen, live_retain]
    simp

/-- Control statements are kept, and what they use followed, unless they only lead beyond the
seed. -/
theorem visit_control (s : Surroundings) (w : Walk) (method : String) (index : Nat) {stmt : Stmt}
    (h : stmt.IsControl) :
    ((w.visit s index (.ofStmt method index stmt)).lines.contains index = true ∧
      ∀ y, (w.visit s index (.ofStmt method index stmt)).live.contains y =
        (decide (y ∈ stmt.uses) || w.live.contains y)) ∨
    (w.visit s index (.ofStmt method index stmt) = w ∧ ∀ t ∈ stmt.targets, w.seed < t) := by
  cases h with
  | @branch cond target hl hr =>
    by_cases ht : target ≤ w.seed
    · refine .inl ⟨?_, fun y => ?_⟩
      · simp [visit, Instruction.ofStmt, UnitKind.ofStmt?, ht, lines_retain]
      · simp [visit, Instruction.ofStmt, UnitKind.ofStmt?, ht, Stmt.uses]
    · refine .inr ⟨?_, ?_⟩
      · simp [visit, Instruction.ofStmt, UnitKind.ofStmt?, ht]
      · simpa [Stmt.targets] using ht
  | goto target =>
    by_cases ht : target ≤ w.seed
    · refine .inl ⟨?_, fun y => ?_⟩
      · simp [visit, Instruction.ofStmt, UnitKind.ofStmt?, ht, lines_retain]
      · simp [visit, Instruction.ofStmt, UnitKind.ofStmt?, ht, Stmt.uses]
    · refine .inr ⟨?_, ?_⟩
      · simp [visit, Instruction.ofStmt, UnitKind.ofStmt?, ht]
      · simpa [Stmt.targets] using ht
  | switch cases default h =>
    refine .inl ⟨?_, fun y => ?_⟩
    · simp [visit, Instruction.ofStmt, UnitKind.ofStmt?, lines_retain]
    · simp only [visit, Instruction.ofStmt, UnitKind.ofStmt?, live_makeAllLive, live_retain]
      rfl
  | ret v => exact .inr ⟨rfl, by simp [Stmt.targets]⟩
  | retVoid => exact .inr ⟨rfl, by simp [Stmt.targets]⟩
  | throw v => exact .inr ⟨rfl, by simp [Stmt.targets]⟩
  | nop => exact .inr ⟨rfl, by simp [Stmt.targets]⟩

end Walk

section Agreement

variable {V : Type} (m : Arithmetic V) (args : Nat → V) (body : Body) (keep : Nat → Bool)
  (seed : Nat) (wanted : LiveSet)

/-- Whether runs from an index to the seed carry over to the body with the kept statements alone,
if they start with the same values of the live ids: they arrive with the same wanted values. -/
def AgreesFrom (index : Nat) (live : LiveSet) : Prop :=
  ∀ σ τ σ' : String → V, (∀ x, live.contains x = true → σ x = τ x) →
    body.Reaches m args ⟨index, σ⟩ ⟨seed, σ'⟩ →
    ∃ τ', (body.keeping keep seed).Reaches m args ⟨index, τ⟩ ⟨seed, τ'⟩ ∧
      ∀ x, wanted.contains x = true → σ' x = τ' x

variable {m args body keep seed wanted}

theorem AgreesFrom.mono {index : Nat} {live live' : LiveSet}
    (h : AgreesFrom m args body keep seed wanted index live)
    (hsub : ∀ x, live.contains x = true → live'.contains x = true) :
    AgreesFrom m args body keep seed wanted index live' :=
  fun σ τ σ' hagree hrun => h σ τ σ' (fun x hx => hagree x (hsub x hx)) hrun

theorem agreesFrom_seed (hf : body.IsForward) :
    AgreesFrom m args body keep seed wanted seed wanted := by
  intro σ τ σ' hagree hrun
  rcases Relation.ReflTransGen.cases_head hrun with heq | ⟨υ, hstep, hrest⟩
  · cases heq
    exact ⟨τ, .refl, hagree⟩
  · have hlt := Body.index_lt_of_step? hf hstep
    have hle := Body.index_le_of_reaches hf hrest
    simp only at hlt hle
    omega

/-- It is enough that one step is followed by a step to the same index with agreement there. -/
theorem agreesFrom_of_step {index : Nat} {live : LiveSet} (next : LiveSet) (hf : body.IsForward)
    (hi : index < seed)
    (h : ∀ (σ τ : String → V) (υ : State V), (∀ x, live.contains x = true → σ x = τ x) →
      body.step? m args ⟨index, σ⟩ = some υ → υ.index ≤ seed →
      AgreesFrom m args body keep seed wanted υ.index next ∧
      ∃ τ', (body.keeping keep seed).step? m args ⟨index, τ⟩ = some ⟨υ.index, τ'⟩ ∧
        ∀ x, next.contains x = true → υ.locals x = τ' x) :
    AgreesFrom m args body keep seed wanted index live := by
  intro σ τ σ' hagree hrun
  rcases Relation.ReflTransGen.cases_head hrun with heq | ⟨υ, hstep, hrest⟩
  · cases heq
    omega
  · have hle := Body.index_le_of_reaches hf hrest
    obtain ⟨hfrom, τ₁, hstep', hagree'⟩ := h σ τ υ hagree hstep hle
    obtain ⟨τ', hrun', hwanted⟩ := hfrom υ.locals τ₁ σ' hagree' hrest
    exact ⟨τ', .head hstep' hrun', hwanted⟩

variable {method : String} {index : Nat} {su : Surroundings} {w : Walk}

theorem agreesFrom_visit_defines {s : Stmt} {x : String} (hf : body.IsForward)
    (hi : body[index]? = some (.ofStmt method index s)) (hlt : index < seed) (hx : s.Defines x)
    (hfresh : w.lines.contains index = false)
    (hkeep : keep index = (w.visit su index (.ofStmt method index s)).lines.contains index)
    (hnext : AgreesFrom m args body keep seed wanted (index + 1) w.live) :
    AgreesFrom m args body keep seed wanted index
      (w.visit su index (.ofStmt method index s)).live := by
  obtain ⟨value?, hstep?, hcongr⟩ := hx.step? m args
  have hbody (σ : String → V) : body.step? m args ⟨index, σ⟩ =
      (value? σ).map (State.bind ⟨index, σ⟩ x) := by
    simp only [Body.step?, hi, Option.bind_eq_bind, Option.bind_some]
    exact hstep? ⟨index, σ⟩
  refine agreesFrom_of_step w.live hf hlt fun σ τ υ hagree hstep _ => ?_
  rw [hbody, Option.map_eq_some_iff] at hstep
  obtain ⟨v, hv, rfl⟩ := hstep
  refine ⟨hnext, ?_⟩
  cases hlive : w.live.contains x with
  | false =>
    -- the body that is left does nothing here, and nobody asks for the local any more
    rw [Walk.visit_defines_of_not_live su w method index hx hlive] at hkeep hagree
    refine ⟨τ, Body.step?_keeping_of_drop m args hi hlt (hkeep.trans hfresh), fun y hy => ?_⟩
    have hne : y ≠ x := by
      rintro rfl
      rw [hlive] at hy
      cases hy
    simpa [State.bind, Function.update_of_ne hne] using hagree y hy
  | true =>
    obtain ⟨hline, hlive'⟩ := Walk.visit_defines_of_live su w method index hx hlive
    have huses : ∀ y ∈ s.uses, σ y = τ y := fun y hy => hagree y (by simp [hlive', hy])
    refine ⟨Function.update τ x v, ?_, fun y hy => ?_⟩
    · rw [Body.step?_keeping_of_keep body m args (hkeep.trans hline), hbody, ← hcongr σ τ huses, hv]
      rfl
    · by_cases hyx : y = x
      · subst hyx
        simp [State.bind]
      · have hσ : σ y = τ y := hagree y (by simp [hlive', hyx, hy])
        simpa [State.bind, Function.update_of_ne hyx] using hσ

theorem agreesFrom_visit_control {s : Stmt} (hf : body.IsForward)
    (hi : body[index]? = some (.ofStmt method index s)) (hlt : index < seed) (hs : s.IsControl)
    (hseed : w.seed = seed) (hfresh : w.lines.contains index = false)
    (hkeep : keep index = (w.visit su index (.ofStmt method index s)).lines.contains index)
    (hnext : AgreesFrom m args body keep seed wanted (index + 1) w.live)
    (hjump : ∀ t ∈ s.targets, t ≤ seed → AgreesFrom m args body keep seed wanted t w.live) :
    AgreesFrom m args body keep seed wanted index
      (w.visit su index (.ofStmt method index s)).live := by
  obtain ⟨goes?, hstep?, hcongr⟩ := hs.step? m args index
  have hbody (σ : String → V) : body.step? m args ⟨index, σ⟩ = (goes? σ).map (⟨·, σ⟩) := by
    simp only [Body.step?, hi, Option.bind_eq_bind, Option.bind_some]
    exact hstep? σ
  refine agreesFrom_of_step w.live hf hlt fun σ τ υ hagree hstep hle => ?_
  have hplace := State.index_of_step? ((hstep? σ).trans ((hbody σ).symm.trans hstep))
  rw [hbody, Option.map_eq_some_iff] at hstep
  obtain ⟨t, ht, rfl⟩ := hstep
  have hfrom : AgreesFrom m args body keep seed wanted t w.live := by
    rcases hplace with rfl | htarget
    · exact hnext
    · exact hjump t htarget hle
  refine ⟨hfrom, τ, ?_⟩
  rcases Walk.visit_control su w method index hs with ⟨hline, hlive⟩ | ⟨hvisit, hbeyond⟩
  · have huses : ∀ y ∈ s.uses, σ y = τ y := fun y hy => hagree y (by simp [hlive, hy])
    rw [Body.step?_keeping_of_keep body m args (hkeep.trans hline), hbody, ← hcongr σ τ huses, ht]
    exact ⟨rfl, fun y hy => hagree y (by simp [hlive, hy])⟩
  · -- a run that gets to the seed has not jumped beyond it
    rw [hvisit] at hkeep hagree
    rw [Body.step?_keeping_of_drop m args hi hlt (hkeep.trans hfresh)]
    rcases hplace with rfl | htarget
    · exact ⟨rfl, hagree⟩
    · have := hbeyond t htarget
      simp only at hle
      omega

end Agreement

structure Walk.Follows (w : Walk) (method : String) (stmts : List Stmt) (seed : Nat) : Prop where
  body : w.body = Body.ofStmts method stmts
  loops : w.loops = []
  jumps : w.jumps = (Branches.ofBody (Body.ofStmts method stmts)).forwardJumps
  seed : w.seed = seed

namespace Walk

variable {method : String} {stmts : List Stmt} {seed : Nat} {su : Surroundings} {w : Walk}

theorem Follows.of_fixed {v : Walk} (h : w.Follows method stmts seed) (hv : v.fixed = w.fixed) :
    v.Follows method stmts seed where
  body := (congrArg (·.2.1) hv).trans h.body
  loops := (congrArg (·.2.2.1) hv).trans h.loops
  jumps := (congrArg (·.2.2.2) hv).trans h.jumps
  seed := (seed_of_fixed hv).trans h.seed

theorem Follows.visitAt (h : w.Follows method stmts seed) (su : Surroundings) (index : Nat) :
    (w.visitAt su index).Follows method stmts seed :=
  h.of_fixed (visitAt_fixed su w index)

theorem Follows.takeLoop? (h : w.Follows method stmts seed) (index : Nat) :
    w.takeLoop? index = none := by
  simp [Walk.takeLoop?, h.loops]

theorem Follows.visitAt_eq (h : w.Follows method stmts seed) (su : Surroundings) {index : Nat}
    {s : Stmt} (hs : stmts[index]? = some s) :
    w.visitAt su index = w.visit su index (.ofStmt method index s) := by
  simp [Walk.visitAt, h.body, Body.getElem?_ofStmts, hs]

theorem Follows.lines_visitAt (h : w.Follows method stmts seed) {index k : Nat}
    (hk : k ≠ index) : (w.visitAt su index).lines.contains k = w.lines.contains k := by
  cases hs : stmts[index]? with
  | none => simp [Walk.visitAt, h.body, Body.getElem?_ofStmts, hs]
  | some s =>
    rw [h.visitAt_eq su hs]
    exact lines_visit su w index _ hk

theorem Follows.lines_run (h : w.Follows method stmts seed) {cursor k : Nat} (hk : cursor ≤ k) :
    (w.run su cursor).lines.contains k = w.lines.contains k := by
  fun_induction Walk.run su w cursor with
  | case1 => rfl
  | case2 w index tail v hv ih => simp [h.takeLoop? index] at hv
  | case3 w index _ ih => rw [ih (h.visitAt su index) (by omega), h.lines_visitAt (by omega)]

end Walk

section Cover

variable {V : Type} (m : Arithmetic V) (args : Nat → V) (method : String) (stmts : List Stmt)
  (keep : Nat → Bool) (seed : Nat) (wanted : LiveSet)

/-- Whether runs carry over from the cursor of a walk and from all places behind it to which jumps
from before it lead. -/
def Covers (w : Walk) (cursor : Nat) : Prop :=
  ∀ t, (t = cursor ∨ cursor ≤ t ∧ t ≤ seed ∧ ∃ k, k < cursor ∧ (k, t) ∈ w.jumps) →
    AgreesFrom m args (Body.ofStmts method stmts) keep seed wanted t w.live

variable {m args method stmts keep seed wanted}

theorem Covers.visitAt {su : Surroundings} {w : Walk} {index : Nat}
    (hcore : ∀ s ∈ stmts, s.IsCore) (hf : (Body.ofStmts method stmts).IsForward)
    (hw : w.Follows method stmts seed) (hlt : index < seed) (hin : index < stmts.length)
    (hfresh : w.lines.contains index = false)
    (hkeep : keep index = (w.visitAt su index).lines.contains index)
    (h : Covers m args method stmts keep seed wanted w (index + 1)) :
    Covers m args method stmts keep seed wanted (w.visitAt su index) index := by
  obtain ⟨s, hs⟩ : ∃ s, stmts[index]? = some s := ⟨_, List.getElem?_eq_getElem hin⟩
  have hi : (Body.ofStmts method stmts)[index]? = some (.ofStmt method index s) := by
    rw [Body.getElem?_ofStmts, hs]
    rfl
  have hv := hw.visitAt_eq su hs
  have hnext := h (index + 1) (.inl rfl)
  have hjump : ∀ t ∈ s.targets, t ≤ seed →
      AgreesFrom m args (Body.ofStmts method stmts) keep seed wanted t w.live := by
    intro t ht hle
    have hlt' : index < t := hf index _ hi t ht
    refine h t (.inr ⟨hlt', hle, index, Nat.lt_succ_self index, ?_⟩)
    rw [hw.jumps, Branches.mem_forwardJumps, Branches.mem_jumps_ofBody]
    exact ⟨⟨s, hs, ht⟩, hlt'⟩
  have hhere : AgreesFrom m args (Body.ofStmts method stmts) keep seed wanted index
      (w.visitAt su index).live := by
    rw [hv] at hkeep ⊢
    rcases hcore s (List.mem_of_getElem? hs) with ⟨x, hx⟩ | hs
    · exact agreesFrom_visit_defines hf hi hlt hx hfresh hkeep hnext
    · exact agreesFrom_visit_control hf hi hlt hs hw.seed hfresh hkeep hnext hjump
  rintro t (rfl | ⟨hle, hseed, k, hk, hmem⟩)
  · exact hhere
  · rcases Nat.eq_or_lt_of_le hle with rfl | hbehind
    · exact hhere
    · -- the jump passes over the index, so that nothing has left the live set
      have hmem' : (k, t) ∈ w.jumps := by
        rwa [hw.jumps, ← (hw.visitAt su index).jumps]
      have hmay : w.mayDefineOnly index = true := by
        simp only [Walk.mayDefineOnly, List.any_eq_true, Bool.and_eq_true, decide_eq_true_eq]
        exact ⟨(k, t), hmem', ⟨hk, hbehind⟩, by rw [hw.seed]; exact hseed⟩
      have hfrom := h t (.inr ⟨hbehind, hseed, k, by omega, hmem'⟩)
      rw [hv]
      exact hfrom.mono fun x hx => Walk.live_visit_of_mayDefineOnly su w _ hmay hx

theorem Covers.run {su : Surroundings} {w : Walk} {cursor : Nat}
    (hcore : ∀ s ∈ stmts, s.IsCore) (hf : (Body.ofStmts method stmts).IsForward)
    (hw : w.Follows method stmts seed) (hcursor : cursor ≤ seed) (hin : seed < stmts.length)
    (hfresh : ∀ k < cursor, w.lines.contains k = false)
    (hkeep : ∀ k < cursor, keep k = (w.run su cursor).lines.contains k)
    (h : Covers m args method stmts keep seed wanted w cursor) :
    AgreesFrom m args (Body.ofStmts method stmts) keep seed wanted 0 (w.run su cursor).live := by
  -- `keep` speaks of the lines at the end of the walk, which no later visit changes
  fun_induction Walk.run su w cursor with
  | case1 w => exact h 0 (.inl rfl)
  | case2 w index tail v hv ih => simp [hw.takeLoop? index] at hv
  | case3 w index _ ih =>
    refine ih (hw.visitAt su index) (by omega) (fun k hk => ?_) (fun k hk => hkeep k (by omega)) ?_
    · rw [hw.lines_visitAt (by omega)]
      exact hfresh k (by omega)
    · refine h.visitAt hcore hf hw (by omega) (by omega) (hfresh index (by omega)) ?_
      rw [hkeep index (by omega), (hw.visitAt su index).lines_run (Nat.le_refl index)]

end Cover

namespace Walk

theorem follows_start {c : Criterion} {method : String} {stmts : List Stmt} {seed : Nat}
    (hf : (Body.ofStmts method stmts).IsForward) (hseed : seed < stmts.length)
    (hc : c.index = stmts.length - 1 - seed) :
    (start c (Body.ofStmts method stmts) (.ofBody (Body.ofStmts method stmts))).Follows
      method stmts seed where
  body := rfl
  loops := by
    apply List.eq_nil_iff_forall_not_mem.2
    intro j hj
    obtain ⟨hjump, hback⟩ := Branches.mem_backEdges.1 hj
    obtain ⟨s, hs, ht⟩ := Branches.mem_jumps_ofBody.1 hjump
    have hlt := hf j.1 (.ofStmt method j.1 s) (by rw [Body.getElem?_ofStmts, hs]; rfl) j.2 ht
    omega
  jumps := rfl
  seed := by
    simp only [Walk.seed, programIndex, start, Body.length_ofStmts, hc]
    omega

theorem lines_plantSeed {constants : ConstantTable} {w : Walk} {method : String}
    {stmts : List Stmt} {seed : Nat} (hw : w.Follows method stmts seed) {k : Nat} (hk : k ≠ seed) :
    (w.plantSeed constants).lines.contains k = w.lines.contains k := by
  unfold plantSeed
  split
  · rename_i i hi
    rw [hw.body, hw.seed, Body.getElem?_ofStmts, Option.map_eq_some_iff] at hi
    obtain ⟨s, -, rfl⟩ := hi
    simp only [lines_retain]
    simp [Instruction.ofStmt, hk]
  · rfl

/-- In code without loops, the statements that a walk keeps are enough: every run that gets to the
seed gets there without the others, with the same values of the ids that the walk started from. -/
theorem keeping_lines_reaches_seed {V : Type} (m : Arithmetic V) (args : Nat → V)
    (constants : ConstantTable) (method : String) (stmts : List Stmt) (seed : Nat) (c : Criterion)
    (start arrival : String → V) (hcore : ∀ s ∈ stmts, s.IsCore)
    (hforward : (Body.ofStmts method stmts).IsForward) (hseed : seed < stmts.length)
    (hc : c.index = stmts.length - 1 - seed)
    (hrun : (Body.ofStmts method stmts).Reaches m args ⟨0, start⟩ ⟨seed, arrival⟩) :
    let body := Body.ofStmts method stmts
    let walk := ofCriterion constants c body (.ofBody body)
    let slice := body.keeping walk.lines.contains seed
    (∃ arrival', slice.Reaches m args ⟨0, start⟩ ⟨seed, arrival'⟩) ∧
      ∀ arrival', slice.Reaches m args ⟨0, start⟩ ⟨seed, arrival'⟩ →
        ∀ x ∈ c.live.keys, arrival' x = arrival x := by
  intro body walk slice
  have hstart := follows_start (c := c) hforward hseed hc
  have hplant := hstart.of_fixed (plantSeed_fixed constants _)
  have hwalk : walk = run ⟨constants, c.readsField⟩
      ((Walk.start c body (.ofBody body)).plantSeed constants) seed := by
    simp only [walk, ofCriterion]
    rw [hplant.seed]
  have hlive : ((Walk.start c body (.ofBody body)).plantSeed constants).live = c.live :=
    live_plantSeed constants _
  have hcover : Covers m args method stmts walk.lines.contains seed c.live
      ((Walk.start c body (.ofBody body)).plantSeed constants) seed := by
    rintro t (rfl | ⟨hle, hle', -⟩)
    · rw [hlive]
      exact agreesFrom_seed hforward
    · obtain rfl : t = seed := by omega
      rw [hlive]
      exact agreesFrom_seed hforward
  have hagree := Covers.run hcore hforward hplant (Nat.le_refl seed) hseed
    (fun k hk => (lines_plantSeed hstart (by omega)).trans (Table.contains_empty k))
    (fun k _ => by rw [hwalk]) hcover
  obtain ⟨arrival', hrun', hwanted⟩ := hagree start start arrival (fun _ _ => rfl) hrun
  refine ⟨⟨arrival', hrun'⟩, fun arrival'' hrun'' x hx => ?_⟩
  have heq := Body.eq_of_reaches (Body.isForward_keeping hforward _ seed) hrun'' hrun' rfl
  cases heq
  exact (hwanted x ((Table.contains_eq_true_iff c.live x).2 hx)).symm

/-- A local with one of two names in it, chosen by a parameter, and a sum that does not touch it. -/
def chosenName : List Stmt :=
  [.identity ⟨"i0", .int⟩ (.parameter 0 .int), .assign (.loc ⟨"r1", .string⟩) (.const (.str "AES")),
   .branch ⟨.eq, .loc ⟨"i0", .int⟩, .const (.int 0)⟩ 4,
   .assign (.loc ⟨"r1", .string⟩) (.const (.str "DES")),
   .assign (.loc ⟨"i9", .int⟩) (.binOp .add (.loc ⟨"i0", .int⟩) (.const (.int 1))), .nop]

theorem isCore_chosenName : ∀ s ∈ chosenName, s.IsCore := by
  simp only [chosenName, List.mem_cons, List.not_mem_nil, or_false, forall_eq_or_imp, forall_eq]
  exact ⟨.inl ⟨_, .parameter ..⟩, .inl ⟨_, .copy _ (.const _)⟩,
    .inr (.branch _ (.loc _) (.const _)), .inl ⟨_, .copy _ (.const _)⟩,
    .inl ⟨_, .sum _ (.loc _) (.const _)⟩, .inr .nop⟩

theorem isForward_chosenName (method : String) : (Body.ofStmts method chosenName).IsForward := by
  intro k i hi t ht
  rw [Body.getElem?_ofStmts] at hi
  match k with
  | 2 =>
    cases hi
    cases ht with
    | head => decide
    | tail _ h => cases h
  | 0 | 1 | 3 | 4 | 5 => cases hi; cases ht
  | k + 6 => cases hi

theorem reaches_chosenName (method : String) : ∃ arrival,
    (Body.ofStmts method chosenName).Reaches .ofConstants (fun _ => .int 7) ⟨0, fun _ => .null⟩
      ⟨5, arrival⟩ ∧ arrival "r1" = .str "DES" := by
  let step := (Body.ofStmts method chosenName).step? .ofConstants fun _ => .int 7
  let σ₁ : String → Constant := Function.update (fun _ => .null) "i0" (.int 7)
  let σ₂ := Function.update σ₁ "r1" (.str "AES")
  let σ₄ := Function.update σ₂ "r1" (.str "DES")
  let σ₅ := Function.update σ₄ "i9" (.int 8)
  have h₀ : step ⟨0, fun _ => .null⟩ = some ⟨1, σ₁⟩ := rfl
  have h₁ : step ⟨1, σ₁⟩ = some ⟨2, σ₂⟩ := rfl
  have h₂ : step ⟨2, σ₂⟩ = some ⟨3, σ₂⟩ := rfl
  have h₃ : step ⟨3, σ₂⟩ = some ⟨4, σ₄⟩ := rfl
  have h₄ : step ⟨4, σ₄⟩ = some ⟨5, σ₅⟩ := rfl
  exact ⟨σ₅, .head h₀ (.head h₁ (.head h₂ (.head h₃ (.head h₄ .refl)))), rfl⟩

theorem keeping_lines_reaches_seed_chosenName :
    let c : Criterion :=
      { caller := "<a.B: void m(int)>", target := "nop", kind := .invocation, index := 0
        live := Table.empty.insert "r1" "nop#0" }
    let body := Body.ofStmts c.caller chosenName
    let walk := ofCriterion .empty c body (.ofBody body)
    ∃ arrival, (body.keeping walk.lines.contains 5).Reaches .ofConstants (fun _ => .int 7)
      ⟨0, fun _ => .null⟩ ⟨5, arrival⟩ ∧ arrival "r1" = .str "DES" := by
  intro c body walk
  obtain ⟨arrival, hrun, hname⟩ := reaches_chosenName c.caller
  obtain ⟨⟨arrival', hrun'⟩, hsame⟩ := keeping_lines_reaches_seed .ofConstants (fun _ => .int 7)
    .empty c.caller chosenName 5 c (fun _ => .null) arrival isCore_chosenName
    (isForward_chosenName _) (by decide) rfl hrun
  have hlive : "r1" ∈ c.live.keys := by decide
  exact ⟨arrival', hrun', (hsame arrival' hrun' "r1" hlive).trans hname⟩

end Walk

end Backslice
