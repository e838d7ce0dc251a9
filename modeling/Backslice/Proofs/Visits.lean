import Backslice.Proofs.Visit
import Backslice.Walk.Spawns

namespace Backslice

namespace Effect

theorem retain_readingTextArgs (e : Effect) (c : Call) :
    (e.readingTextArgs c).retain = e.retain := by
  have hstep (e : Effect) (a : Value × Nat) :
      (e.readingText (c.slot a.2) a.1).retain = e.retain := by
    obtain ⟨v, n⟩ := a
    cases v with
    | loc l =>
      simp only [readingText]
      split <;> rfl
    | const k =>
      simp only [readingText, reading, attach]
      split
      · split <;> rfl
      · rfl
    | _ => rfl
  unfold readingTextArgs
  induction c.args.zipIdx generalizing e with
  | nil => rfl
  | cons a l ih => rw [List.foldl_cons, ih, hstep]

/-- A call with a followed result leads into the method. -/
theorem ofCall_of_live {live : LiveSet} {c : Call} {dest : Local}
    (hlive : live.contains dest.name = true) (hcopy : c.isBulkCopy = false)
    (hmap : ∀ b, c.base = some b → c.isMapInsert = true → live.contains b.name = false) :
    (ofCall live c (some dest)).retain = true ∧
      .downward c.method ∈ (ofCall live c (some dest)).spawns := by
  have hbase : (c.base.filter fun b => c.isMapInsert && live.contains b.name) = none := by
    cases hb : c.base with
    | none => rfl
    | some b =>
      cases hi : c.isMapInsert with
      | false => simp
      | true => simp [hmap b hb hi]
  simp only [ofCall, hcopy, hbase, ofPlainCall, Option.filter_some, hlive]
  cases c.base <;>
    simp [killing, spawning, retain_readingTextArgs, generating, retained]

end Effect

namespace Walk

variable {s : Surroundings}

/-- Whether a walk that goes on below the cursor comes to visit the index, being then in the state
given last. -/
inductive Visits (s : Surroundings) : Walk → Nat → Nat → Walk → Prop
  | here {w : Walk} {index : Nat} (h : w.takeLoop? index = none) :
    Visits s w (index + 1) index w
  | loop {w v u : Walk} {index tail k : Nat} (h : w.takeLoop? index = some (tail, v))
    (hv : Visits s v (tail + 1) k u) : Visits s w (index + 1) k u
  | next {w u : Walk} {index k : Nat} (h : w.takeLoop? index = none)
    (hv : Visits s (w.visitAt s index) index k u) : Visits s w (index + 1) k u

theorem spawns_subset_visit (w : Walk) (index : Nat) (i : Instruction) :
    w.spawns ⊆ (w.visit s index i).spawns := by
  have htransfer : w.spawns ⊆ (w.transfer s index i).spawns := by
    intro x hx
    simp only [transfer]
    split
    · exact mem_spawns_apply.2 (.inr (by simpa using hx))
    · exact hx
  intro x hx
  unfold visit
  split
  · split <;> simpa using hx
  · simpa using hx
  · split <;> simpa using hx
  · split
    · exact hx
    · exact htransfer hx
  · exact hx

theorem spawns_subset_visitAt (w : Walk) (index : Nat) :
    w.spawns ⊆ (w.visitAt s index).spawns := by
  unfold visitAt
  split
  · exact spawns_subset_visit w index _
  · exact fun _ hx => hx

theorem spawns_subset_run (w : Walk) (cursor : Nat) : w.spawns ⊆ (w.run s cursor).spawns := by
  fun_induction run s w cursor with
  | case1 => exact fun _ hx => hx
  | case2 w index tail v h ih => exact (body_of_takeLoop? h).2 ▸ ih
  | case3 w index _ ih => exact fun _ hx => ih (spawns_subset_visitAt w index hx)

theorem Visits.spawns_subset {w v : Walk} {cursor index : Nat} (h : Visits s w cursor index v) :
    (v.visitAt s index).spawns ⊆ (w.run s cursor).spawns := by
  induction h with
  | here h =>
    rw [run_of_no_loop h]
    exact spawns_subset_run _ _
  | loop h _ ih =>
    rw [run_of_loop h]
    exact ih
  | next h _ ih =>
    rw [run_of_no_loop h]
    exact ih

theorem Visits.body_eq {w v : Walk} {cursor index : Nat} (h : Visits s w cursor index v) :
    v.body = w.body := by
  induction h with
  | here => rfl
  | loop h _ ih => exact ih.trans (body_of_takeLoop? h).1
  | next _ _ ih => exact ih.trans (visitAt_body ..)

/-- Whether the walk of a criterion visits the index after its seed, being then in the state given
last. -/
def VisitsFrom (constants : ConstantTable) (c : Criterion) (body : Body) (b : Branches)
    (index : Nat) (v : Walk) : Prop :=
  let w := (start c body b).plantSeed constants
  Visits ⟨constants, c.readsField⟩ w w.seed index v

/-- A followed call that is visited leads into the method. -/
theorem VisitsFrom.downward_mem_spawns {constants : ConstantTable} {c : Criterion} {body : Body}
    {b : Branches} {index : Nat} {v : Walk} (h : VisitsFrom constants c body b index v)
    {i : Instruction} (hi : body[index]? = some i) (hkind : i.kind? = UnitKind.ofStmt? i.stmt)
    {dest : Local} {call : Call} (hstmt : i.stmt = .assign (.loc dest) (.call call))
    (hlive : v.live.contains dest.name = true) (hcopy : call.isBulkCopy = false)
    (hmap : ∀ b, call.base = some b → call.isMapInsert = true →
      v.live.contains b.name = false) :
    .downward call.method ∈ (ofCriterion constants c body b).spawns := by
  refine h.spawns_subset ?_
  have hi' : v.body[index]? = some i := by
    rw [h.body_eq, plantSeed_body]
    exact hi
  have hkind' : i.kind? = some (UnitKind.ofAssignedCall call.kind) := by
    rw [hkind, hstmt]
    rfl
  obtain ⟨hretain, hspawn⟩ := Effect.ofCall_of_live hlive hcopy hmap
  have hassigning : (UnitKind.ofAssignedCall call.kind).isAssigningInvoke = true := by
    cases call.kind <;> rfl
  have heffect (s : Surroundings) :
      Effect.ofInstruction s v.live i = Effect.ofCall v.live call (some dest) := by
    simp [Effect.ofInstruction, hkind', hstmt, Effect.ofStmt, hassigning]
  have hvisit (s : Surroundings) : v.visit s index i = v.transfer s index i := by
    unfold visit
    rw [hkind', hstmt]
    cases call.kind <;> rfl
  unfold visitAt
  simp only [hi', hvisit, transfer, heffect, hretain, if_true]
  exact mem_spawns_apply.2 (.inl hspawn)

/-- A walk from a field read leads to the writers of the field. -/
theorem fieldWriters_mem_spawns {constants : ConstantTable} {c : Criterion} {body : Body}
    {b : Branches} (hkind : c.kind = .fieldRead) {i : Instruction}
    (hi : body[body.length - 1 - c.index]? = some i) {lhs rhs : Value}
    (hstmt : i.stmt = .assign lhs rhs) {field : FieldSig} (hfield : rhs.field? = some field) :
    .fieldWriters field ∈ (ofCriterion constants c body b).spawns := by
  refine spawns_subset_run _ _ ?_
  have hi' : (start c body b).body[(start c body b).seed]? = some i := hi
  have hseed : seedSpawns c i.stmt = [.fieldWriters field] := by
    simp [seedSpawns, hstmt, Criterion.readsField, hkind, hfield]
  have hcriterion (ks : List String) : ((start c body b).retain i ks).criterion = c :=
    congrArg (·.1) (retain_fixed (start c body b) i ks)
  unfold plantSeed
  simp [hi', hcriterion, hseed]

end Walk

end Backslice
