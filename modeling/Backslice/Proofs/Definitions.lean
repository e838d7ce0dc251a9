import Mathlib.Logic.Relation
import Backslice.Proofs.Arrival
import Backslice.Proofs.Effects
import Backslice.Proofs.Shape

/-!
Which definitions of a local a walk keeps, in code with any jumps. A definition is kept if it comes
to the seed by a path that stays before the seed, or by one that goes round a loop that starts
before the seed, unless a part behind the seed that the walk goes through first gives the local a
value too. It may be lost if a loop starts at the seed itself, or if the tail of a loop hides what
comes before the loop.
-/

namespace Backslice

def Stmt.fallsThrough : Stmt → Bool
  | .goto _ | .switch _ _ _ | .ret _ | .retVoid | .throw _ => false
  | _ => true

section Flow

open Relation

variable (stmts : List Stmt) (x : String) (seed : Nat)

def Flows (a b : Nat) : Prop :=
  ∃ s, stmts[a]? = some s ∧ (b ∈ s.targets ∨ s.fallsThrough = true ∧ b = a + 1)

def AssignedAt (k : Nat) : Prop := ∃ s, stmts[k]? = some s ∧ s.Assigns x

/-- Whether control may go from one index to another, past a statement that leaves the local as it
is. -/
def Passes (a b : Nat) : Prop := Flows stmts a b ∧ ¬ AssignedAt stmts x a

/-- Whether what an index gives the local may be its value at the seed. -/
def Reaching (d : Nat) : Prop := ∃ n, Flows stmts d n ∧ ReflTransGen (Passes stmts x) n seed

structure PassesBefore (a b : Nat) : Prop where
  passes : Passes stmts x a b
  source : a < seed
  target : b ≤ seed

/-- A step that a walk can follow backwards: from before the seed it does not pass over it, and from
behind the seed it leads further on or to a place before it. -/
structure Direct (a b : Nat) : Prop where
  ahead : a < seed → b ≤ seed
  behind : seed < a → a < b ∨ b < seed

/-- Whether a definition comes to the seed by a path that a walk can follow backwards, and the index
to which the walk has to go down for that. -/
inductive Approach : (d low : Nat) → Prop
  | here : Approach seed seed
  /-- All of the path is before the seed. -/
  | ahead {d n : Nat} (hd : d < seed) (hflow : Flows stmts d n) (hn : n ≤ seed)
    (hpath : ReflTransGen (PassesBefore stmts x seed) n seed) : Approach d d
  /-- The definition is behind the seed, in a loop around it. -/
  | around {d tail head : Nat} (hd : seed < d) (htail : d ≤ tail) (hflow : Flows stmts tail head)
    (hhead : head < seed) (hpath : ReflTransGen (PassesBefore stmts x seed) head seed) :
    Approach d head

structure Loops (low tail head : Nat) : Prop where
  flows : Flows stmts tail head
  low_le : low ≤ head
  head_le : head ≤ seed
  seed_lt : seed < tail

/-- Whether a walk down to the given index goes through an index behind the seed, or at it. It comes
to know loops that start at the seed only in a loop that starts before it. -/
def Rewalked (low k : Nat) : Prop :=
  (∃ tail head, Loops stmts seed low tail head ∧ head < seed) ∧
    ∃ tail head, Loops stmts seed low tail head ∧ seed ≤ k ∧ k ≤ tail

/-- Whether a jump that leads to the seed or before it passes over the index. -/
def Skipped (k : Nat) : Prop := ∃ a b, Flows stmts a b ∧ a < k ∧ k < b ∧ b ≤ seed

variable {stmts x seed}

/-- A step forward to anything but the next index is a jump. -/
theorem Flows.mem_targets {a b : Nat} (h : Flows stmts a b) (hb : b ≠ a + 1) :
    ∃ s, stmts[a]? = some s ∧ b ∈ s.targets := by
  obtain ⟨s, hs, htarget | ⟨-, hnext⟩⟩ := h
  · exact ⟨s, hs, htarget⟩
  · exact absurd hnext hb

/-- A path before the seed jumps over every assignment of the local that comes after its start. -/
theorem skipped_of_path {n k : Nat} (hpath : ReflTransGen (PassesBefore stmts x seed) n seed)
    (hn : n ≤ k) (hk : k < seed) (hassigned : AssignedAt stmts x k) : Skipped stmts seed k := by
  induction hpath using ReflTransGen.head_induction_on with
  | refl => omega
  | @head a b hstep _ ih =>
    have hne : a ≠ k := fun h => hstep.passes.2 (h ▸ hassigned)
    by_cases hb : b ≤ k
    · exact ih hb
    · exact ⟨a, b, hstep.passes.1, by omega, by omega, hstep.target⟩

theorem Approach.skipped {d low k : Nat} (h : Approach stmts x seed d low) (hlow : low ≤ k)
    (hk : k < seed) (hne : k ≠ d) (hassigned : AssignedAt stmts x k) : Skipped stmts seed k := by
  cases h with
  | here => omega
  | @ahead _ n hd hflow hn hpath =>
    by_cases hle : n ≤ k
    · exact skipped_of_path hpath hle hk hassigned
    · exact ⟨d, n, hflow, by omega, by omega, hn⟩
  | around _ _ _ _ hpath => exact skipped_of_path hpath hlow hk hassigned

theorem Approach.low_le {d low : Nat} (h : Approach stmts x seed d low) : low ≤ d := by
  cases h with
  | here | ahead => exact Nat.le_refl _
  | around hd _ _ hhead _ => omega

/-- From an index before the seed a path of direct steps stays before it, and from one behind it the
path goes on to the tail of a loop around the seed. -/
theorem of_direct_path {a : Nat}
    (hpath : ReflTransGen (fun a b => Passes stmts x a b ∧ Direct seed a b) a seed) :
    (a ≤ seed → ReflTransGen (PassesBefore stmts x seed) a seed) ∧
      (seed < a → ∃ tail head, a ≤ tail ∧ Flows stmts tail head ∧ head < seed ∧
        ReflTransGen (PassesBefore stmts x seed) head seed) := by
  induction hpath using ReflTransGen.head_induction_on with
  | refl => exact ⟨fun _ => .refl, fun h => absurd h (Nat.lt_irrefl _)⟩
  | @head a b hstep _ ih =>
    obtain ⟨hpass, hdirect⟩ := hstep
    constructor
    · intro ha
      rcases Nat.lt_or_eq_of_le ha with hlt | rfl
      · have hb := hdirect.ahead hlt
        exact .head ⟨hpass, hlt, hb⟩ (ih.1 hb)
      · exact .refl
    · intro ha
      rcases hdirect.behind ha with hon | hback
      · obtain ⟨tail, head, htail, hrest⟩ := ih.2 (by omega)
        exact ⟨tail, head, by omega, hrest⟩
      · exact ⟨a, b, Nat.le_refl a, hpass.1, hback, ih.1 (by omega)⟩

/-- A definition that reaches the seed by direct steps approaches it. -/
theorem exists_approach {d n : Nat} (hflow : Flows stmts d n) (hdirect : Direct seed d n)
    (hpath : ReflTransGen (fun a b => Passes stmts x a b ∧ Direct seed a b) n seed) :
    ∃ low, Approach stmts x seed d low := by
  obtain ⟨hbefore, hbehind⟩ := of_direct_path hpath
  rcases Nat.lt_trichotomy d seed with hlt | rfl | hgt
  · have hn := hdirect.ahead hlt
    exact ⟨d, .ahead hlt hflow hn (hbefore hn)⟩
  · exact ⟨d, .here⟩
  · rcases hdirect.behind hgt with hon | hback
    · obtain ⟨tail, head, htail, hjump, hhead, hrest⟩ := hbehind (by omega)
      exact ⟨head, .around hgt (by omega) hjump hhead hrest⟩
    · exact ⟨n, .around hgt (Nat.le_refl d) hflow hback (hbefore (by omega))⟩

end Flow

namespace Walk

variable {method : String} {stmts : List Stmt} {x : String} {seed d low : Nat} {su : Surroundings}
  {w : Walk}

structure Roams (w : Walk) (method : String) (stmts : List Stmt) (seed : Nat) : Prop where
  body : w.body = Body.ofStmts method stmts
  jumps : w.jumps = (Branches.ofBody (Body.ofStmts method stmts)).forwardJumps
  seed : w.seed = seed
  loops : w.loops ⊆ (Branches.ofBody (Body.ofStmts method stmts)).backEdges

namespace Roams

theorem of_fixed {v : Walk} (h : w.Roams method stmts seed) (hv : v.fixed = w.fixed) :
    v.Roams method stmts seed where
  body := (congrArg (·.2.1) hv).trans h.body
  jumps := (congrArg (·.2.2.2) hv).trans h.jumps
  seed := (seed_of_fixed hv).trans h.seed
  loops := (congrArg (·.2.2.1) hv : v.loops = w.loops) ▸ h.loops

theorem flows (h : w.Roams method stmts seed) {e : Nat × Nat} (he : e ∈ w.loops) :
    Flows stmts e.1 e.2 := by
  obtain ⟨s, hs, ht⟩ := Branches.mem_jumps_ofBody.1 (Branches.mem_backEdges.1 (h.loops he)).1
  exact ⟨s, hs, .inl ht⟩

theorem mayDefineOnly (h : w.Roams method stmts seed) {k : Nat} (hk : Skipped stmts seed k) :
    w.mayDefineOnly k = true := by
  obtain ⟨a, b, hflow, ha, hb, hseed⟩ := hk
  have hjump : (a, b) ∈ w.jumps := by
    rw [h.jumps, Branches.mem_forwardJumps, Branches.mem_jumps_ofBody]
    exact ⟨hflow.mem_targets (by omega), by omega⟩
  simp only [Walk.mayDefineOnly, List.any_eq_true, Bool.and_eq_true, decide_eq_true_eq]
  exact ⟨(a, b), hjump, ⟨ha, hb⟩, h.seed ▸ hseed⟩

theorem visitAt_eq (h : w.Roams method stmts seed) {index : Nat} {s : Stmt}
    (hs : stmts[index]? = some s) :
    w.visitAt su index = w.visit su index (.ofStmt method index s) := by
  simp [Walk.visitAt, h.body, Body.getElem?_ofStmts, hs]

/-- A local that is no field stays live past statements that do not assign it, and past those that a
jump passes over. -/
theorem live_visitAt (h : w.Roams method stmts seed) (hfield : ∀ f : FieldSig, f.text ≠ x)
    {index : Nat} (hassigned : AssignedAt stmts x index → Skipped stmts seed index)
    (hlive : w.live.contains x = true) : (w.visitAt su index).live.contains x = true := by
  cases hs : stmts[index]? with
  | none => simpa [Walk.visitAt, h.body, Body.getElem?_ofStmts, hs] using hlive
  | some s =>
    rw [h.visitAt_eq hs]
    refine live_visit su w _ ?_ hlive
    by_cases hkill : x ∈ (Effect.ofInstruction su w.live (.ofStmt method index s)).kill
    · rcases Effect.assigns_of_mem_kill hkill with hassigns | ⟨f, hf⟩
      · exact .inl (h.mayDefineOnly (hassigned ⟨s, hs, hassigns⟩))
      · exact absurd hf (hfield f)
    · exact .inr hkill

end Roams

/-- Whether a walk is still to come to the definition: below the cursor, or in a loop around the
seed that starts below the cursor. -/
def Awaits (w : Walk) (seed d low cursor : Nat) : Prop :=
  d < cursor ∨ ∃ e ∈ w.loops, low ≤ e.2 ∧ e.2 < cursor ∧ e.2 ≤ seed ∧ seed < e.1 ∧ d ≤ e.1

theorem Awaits.low_le {index : Nat} (h : w.Awaits seed d low (index + 1)) (hlow : low ≤ d) :
    low ≤ index := by
  rcases h with hd | ⟨e, -, he, hcursor, -⟩ <;> omega

theorem Awaits.takeLoop? {v : Walk} {index tail : Nat} (h : w.Awaits seed d low (index + 1))
    (hseed : w.seed = seed) (hloop : w.takeLoop? index = some (tail, v)) :
    v.Awaits seed d low (tail + 1) := by
  obtain ⟨hedge, hhead, htail, rfl⟩ := edge_of_takeLoop? hloop
  by_cases hd : d < tail + 1
  · exact .inl hd
  · rcases h with hlt | ⟨e, he, hlow, hcursor, hle, hlt, hde⟩
    · omega
    · refine .inr ⟨e, (List.mem_erase_of_ne ?_).2 he, hlow, by omega, hle, hlt, hde⟩
      rintro rfl
      simp only at hde
      omega

theorem Awaits.visitAt {index : Nat} (h : w.Awaits seed d low (index + 1)) (hseed : w.seed = seed)
    (hloop : w.takeLoop? index = none) (hne : index ≠ d) :
    (w.visitAt su index).Awaits seed d low index := by
  rcases h with hd | ⟨e, he, hlow, hcursor, hle, hlt, hde⟩
  · exact .inl (by omega)
  · have hfree : e.2 ≠ index := by
      rintro rfl
      unfold Walk.takeLoop? at hloop
      split at hloop
      · cases hloop
      · rename_i hnone
        have := List.find?_eq_none.1 hnone e he
        simp [encloses, hseed, hle, hlt] at this
    exact .inr ⟨e, visitAt_loops su w index ▸ he, hlow, by omega, hle, hlt, hde⟩

/-- A walk that awaits a definition of a live local comes to it while the local is live. -/
theorem keeps_awaited {cursor : Nat} (hfield : ∀ f : FieldSig, f.text ≠ x)
    (happroach : Approach stmts x seed d low) {s : Stmt} (hs : stmts[d]? = some s)
    (hdefines : s.Defines x)
    (hrewalked : ∀ k, Rewalked stmts seed low k → k ≠ d → ¬ AssignedAt stmts x k)
    (hw : w.Roams method stmts seed) (hlive : w.live.contains x = true)
    (hcursor : ∀ k < cursor, k < seed ∨ Rewalked stmts seed low k)
    (hawaits : w.Awaits seed d low cursor) :
    (w.run su cursor).lines.contains d = true := by
  fun_induction Walk.run su w cursor with
  | case1 => rcases hawaits with hd | ⟨e, -, -, he, -⟩ <;> omega
  | case2 w index tail v hloop ih =>
    have hlow := hawaits.low_le happroach.low_le
    have hawaits' := hawaits.takeLoop? hw.seed hloop
    obtain ⟨hedge, hhead, htail, rfl⟩ := edge_of_takeLoop? hloop
    rw [hw.seed] at hhead htail
    have hloops : Loops stmts seed low tail index := ⟨hw.flows hedge, hlow, hhead, htail⟩
    refine ih { hw with loops := fun e he => hw.loops (List.mem_of_mem_erase he) } hlive
      (fun k hk => ?_) hawaits'
    -- a loop that starts at the seed is met only on the way through another one
    have houter : ∃ tail head, Loops stmts seed low tail head ∧ head < seed := by
      rcases Nat.lt_or_eq_of_le hhead with hlt | rfl
      · exact ⟨tail, index, hloops, hlt⟩
      · rcases hcursor index (Nat.lt_succ_self index) with hlt | ⟨houter, -⟩
        · omega
        · exact houter
    rcases Nat.lt_or_ge k seed with hlt | hge
    · exact .inl hlt
    · exact .inr ⟨houter, tail, index, hloops, hge, Nat.lt_succ_iff.1 hk⟩
  | case3 w index hloop ih =>
    by_cases hd : index = d
    · subst hd
      refine contains_run su _ _ ?_
      rw [hw.visitAt_eq hs]
      exact (visit_defines_of_live su w method index hdefines hlive).1
    · refine ih (hw.of_fixed (visitAt_fixed su w index)) (hw.live_visitAt hfield ?_ hlive)
        (fun k hk => hcursor k (Nat.lt_succ_of_lt hk)) (hawaits.visitAt hw.seed hloop hd)
      intro hassigned
      rcases hcursor index (Nat.lt_succ_self index) with hlt | hrewalk
      · exact happroach.skipped (hawaits.low_le happroach.low_le) hlt hd hassigned
      · exact absurd hassigned (hrewalked index hrewalk hd)

theorem roams_plantSeed (constants : ConstantTable) (c : Criterion) (method : String)
    (stmts : List Stmt) :
    let body := Body.ofStmts method stmts
    ((start c body (.ofBody body)).plantSeed constants).Roams method stmts
      (stmts.length - 1 - c.index) := by
  intro body
  have hstart : (start c body (.ofBody body)).Roams method stmts (stmts.length - 1 - c.index) :=
    ⟨rfl, rfl, seed_start c method stmts _, fun _ he => he⟩
  exact hstart.of_fixed (plantSeed_fixed constants _)

theorem awaits_plantSeed (constants : ConstantTable) (c : Criterion) (method : String)
    (h : Approach stmts x (stmts.length - 1 - c.index) d low)
    (hd : d ≠ stmts.length - 1 - c.index) :
    let body := Body.ofStmts method stmts
    ((start c body (.ofBody body)).plantSeed constants).Awaits (stmts.length - 1 - c.index) d low
      (stmts.length - 1 - c.index) := by
  intro body
  cases h with
  | here => exact absurd rfl hd
  | ahead hlt => exact .inl hlt
  | @around _ tail _ hlt htail hflow hhead =>
    refine .inr ⟨(tail, low), ?_, Nat.le_refl _, hhead, Nat.le_of_lt hhead, by omega, htail⟩
    have hloops : ((start c body (.ofBody body)).plantSeed constants).loops =
        (Branches.ofBody body).backEdges :=
      congrArg (·.2.2.1) (plantSeed_fixed constants (start c body (.ofBody body)))
    rw [hloops, Branches.mem_backEdges, Branches.mem_jumps_ofBody]
    exact ⟨hflow.mem_targets (by omega), by omega⟩

/-- The walk of a criterion keeps every constant that comes to its seed by a path that it can follow
backwards, if no other part behind the seed that it goes through gives the local a value. -/
theorem contains_ofCriterion_of_approach (constants : ConstantTable) (c : Criterion)
    (method : String) {l : Local} {k : Constant}
    (hd : stmts[d]? = some (.assign (.loc l) (.const k)))
    (hlive : c.live.contains l.name = true) (hfield : ∀ f : FieldSig, f.text ≠ l.name)
    (happroach : Approach stmts l.name (stmts.length - 1 - c.index) d low)
    (hrewalked : ∀ k, Rewalked stmts (stmts.length - 1 - c.index) low k → k ≠ d →
      ¬ AssignedAt stmts l.name k) :
    let body := Body.ofStmts method stmts
    (ofCriterion constants c body (.ofBody body)).lines.contains d = true := by
  intro body
  by_cases hseed : d = stmts.length - 1 - c.index
  · subst hseed
    exact contains_seed method stmts constants c _ hd rfl
  · have hw := roams_plantSeed constants c method stmts
    have hlive' :
        ((start c body (.ofBody body)).plantSeed constants).live.contains l.name = true := by
      rw [live_plantSeed]
      exact hlive
    simp only [ofCriterion]
    rw [hw.seed]
    exact keeps_awaited hfield happroach hd (.copy l (.const k)) hrewalked hw hlive'
      (fun k hk => .inl hk) (awaits_plantSeed constants c method happroach hseed)

end Walk

namespace Worklist

/-- A slice that is new has the lines of the walk through the caller's body. -/
theorem stored_lines (p : Program) (b : Build) (config : Config) (w : Worklist) (c : Criterion)
    {method : String} {stmts : List Stmt} (hsigs : p.ReadsBack) (hb : p.Built b)
    (hbody : p.bodyOf c.caller = .ok (Body.ofStmts method stmts)) (hindex : c.index < stmts.length)
    (hnew : w.store.containsNode c.id = false) :
    let body := Body.ofStmts method stmts
    ∃ r, (process ⟨p, b, config⟩ w c).store = w.store.insert r ∧ r.nodeId? = some c.id ∧
      ∀ k, (∃ line ∈ r.content, line.source = k) ↔
        (Walk.ofCriterion b.constants c body (.ofBody body)).lines.contains k = true := by
  have hwalk := Analysis.walk?_of_bodyOf (a := ⟨p, b, config⟩) hbody (by simpa using hindex)
  simp only [hb.branchesFor_eq hsigs hbody] at hwalk
  rcases process_cases ⟨p, b, config⟩ w c with ⟨hstored, -⟩ | ⟨-, hnone, -⟩ | ⟨-, walk, hsome, heq⟩
  · rw [hnew] at hstored
    cases hstored
  · rw [hwalk] at hnone
    cases hnone
  · rw [hwalk] at hsome
    cases hsome
    exact ⟨_, congrArg store heq, rfl,
      fun k => (Walk.shaped_run method stmts b.constants c _).exists_line_iff⟩

/-- A slice that is new has the line of every constant that comes to the seed by a path that stays
before it, or by one that goes round a loop that starts before it, unless the walk first goes
through an index behind the seed that gives the local another value. -/
theorem approaching_constants_are_kept (p : Program) (b : Build) (config : Config) (w : Worklist)
    (c : Criterion) (method : String) (stmts : List Stmt) (l : Local) (k : Constant) (d low : Nat)
    (hsigs : p.ReadsBack) (hb : p.Built b)
    (hbody : p.bodyOf c.caller = .ok (Body.ofStmts method stmts)) (hindex : c.index < stmts.length)
    (hnew : w.store.containsNode c.id = false)
    (hd : stmts[d]? = some (.assign (.loc l) (.const k)))
    (hlive : l.name ∈ c.live.keys) (hfield : ∀ f : FieldSig, f.text ≠ l.name)
    (happroach : Approach stmts l.name (stmts.length - 1 - c.index) d low)
    (hrewalked : ∀ k, Rewalked stmts (stmts.length - 1 - c.index) low k → k ≠ d →
      ¬ AssignedAt stmts l.name k) :
    ∃ r, (process ⟨p, b, config⟩ w c).store = w.store.insert r ∧ r.nodeId? = some c.id ∧
      ∃ line ∈ r.content, line.source = d := by
  obtain ⟨r, hstore, hid, hlines⟩ := stored_lines p b config w c hsigs hb hbody hindex hnew
  have hkept := Walk.contains_ofCriterion_of_approach b.constants c method hd
    ((Table.contains_eq_true_iff c.live l.name).2 hlive) hfield happroach hrewalked
  exact ⟨r, hstore, hid, (hlines d).2 hkept⟩

/-- A name is used inside a loop and replaced at its tail. -/
def usedInside : List Stmt :=
  [.assign (.loc ⟨"r1", .string⟩) (.const (.str "AES")),
    .nop,
    .invoke ⟨.static, none, loopCallee, [.loc ⟨"r1", .string⟩]⟩,
    .assign (.loc ⟨"r1", .string⟩) (.const (.str "DES")),
    .goto 1]

/-- A name is used at the head of a loop and replaced behind it. -/
def usedAtHead : List Stmt :=
  [.assign (.loc ⟨"r1", .string⟩) (.const (.str "AES")),
    .invoke ⟨.static, none, loopCallee, [.loc ⟨"r1", .string⟩]⟩,
    .assign (.loc ⟨"r1", .string⟩) (.const (.str "DES")),
    .goto 1]

def loopProgram (stmts : List Stmt) : Program :=
  Program.empty.addClass <| .ofMembers "a.B" none false [] [⟨loopMethod, some stmts⟩]

theorem bodyOf_loopProgram (stmts : List Stmt) :
    (loopProgram stmts).bodyOf loopUse.caller = .ok (.ofStmts loopMethod.text stmts) := by
  change (loopProgram stmts).bodyOf loopMethod.text = _
  rw [Program.bodyOf_text parse_loopMethod]
  rfl

theorem readsBack_loopProgram {stmts : List Stmt}
    (h : ∀ s ∈ stmts, ∀ call, s.call? = some call → call.method = loopCallee) :
    (loopProgram stmts).ReadsBack := by
  have hcallee : MethodSig.parse loopCallee.text = .ok loopCallee := by decide +kernel
  constructor
  · intro c hc m hm
    rw [List.mem_singleton.1 hc] at hm
    rw [List.mem_singleton.1 hm]
    exact parse_loopMethod
  · intro body hbody i hi call hcall
    rw [List.mem_singleton.1 hbody] at hi
    obtain ⟨k, hk, rfl⟩ := List.mem_mapIdx.1 hi
    rw [h _ (List.getElem_mem hk) call hcall]
    exact hcallee

theorem readsBack_usedInside : (loopProgram usedInside).ReadsBack := by
  refine readsBack_loopProgram ?_
  simp [usedInside, Stmt.call?, Value.call?]

theorem readsBack_usedAtHead : (loopProgram usedAtHead).ReadsBack := by
  refine readsBack_loopProgram ?_
  simp [usedAtHead, Stmt.call?, Value.call?]

theorem assignedAt_usedInside {k : Nat} (h : AssignedAt usedInside "r1" k) : k = 0 ∨ k = 3 := by
  obtain ⟨s, hs, l, hl, -⟩ := h
  match k with
  | 0 => exact .inl rfl
  | 3 => exact .inr rfl
  | 1 | 2 | 4 => cases hs; cases hl
  | k + 5 => cases hs

theorem approaching_constants_are_kept_usedInside :
    let p := loopProgram usedInside
    ∃ r, (process ⟨p, .ofProgram ⟨[]⟩ p, .default⟩ ⟨[], .empty, {}⟩ loopUse).store =
        Store.empty.insert r ∧ r.nodeId? = some loopUse.id ∧
      ∃ line ∈ r.content, line.source = 3 := by
  intro p
  have hkeeps {k : Nat} (h : k ≠ 0 ∧ k ≠ 3) : ¬ AssignedAt usedInside "r1" k := fun hassigned => by
    have := assignedAt_usedInside hassigned
    omega
  have h₃ : Flows usedInside 3 4 := ⟨_, rfl, .inr ⟨rfl, rfl⟩⟩
  have h₄ : Passes usedInside "r1" 4 1 := ⟨⟨_, rfl, .inl (by decide)⟩, hkeeps (by decide)⟩
  have h₁ : Passes usedInside "r1" 1 2 := ⟨⟨_, rfl, .inr ⟨rfl, rfl⟩⟩, hkeeps (by decide)⟩
  have hdirect : Direct 2 3 4 := ⟨by decide, by decide⟩
  obtain ⟨low, happroach⟩ := exists_approach h₃ hdirect
    (.head ⟨h₄, by decide, by decide⟩ (.single ⟨h₁, by decide, by decide⟩))
  refine approaching_constants_are_kept p _ .default _ loopUse loopMethod.text usedInside
    ⟨"r1", .string⟩ (.str "DES") 3 low readsBack_usedInside (.extend .empty ⟨[]⟩)
    (bodyOf_loopProgram usedInside) (by decide) rfl rfl (by decide) ?_ happroach ?_
  · intro f hf
    have hhead := congrArg (fun t : String => t.toList.head?) hf
    simp [FieldSig.text] at hhead
  · rintro k ⟨-, tail, head, -, hk, -⟩ hne
    have hle : 2 ≤ k := hk
    exact hkeeps ⟨by omega, hne⟩

def loopWalk (stmts : List Stmt) : Walk :=
  let body := Body.ofStmts loopMethod.text stmts
  .ofCriterion (Build.ofProgram ⟨[]⟩ (loopProgram stmts)).constants loopUse body (.ofBody body)

theorem lines_usedAtHead : (loopWalk usedAtHead).lines.contains 2 = false := by
  let body := Body.ofStmts loopMethod.text usedAtHead
  let constants := (Build.ofProgram ⟨[]⟩ (loopProgram usedAtHead)).constants
  let w := (Walk.start loopUse body (.ofBody body)).plantSeed constants
  -- the only loop starts at the seed, and the walk begins below it
  have h₀ : w.takeLoop? 0 = none := rfl
  change (w.run ⟨constants, false⟩ 1).lines.contains 2 = false
  rw [Walk.run_of_no_loop h₀, Walk.run]
  decide +kernel

theorem lines_usedInside : (loopWalk usedInside).lines.contains 0 = false := by
  let body := Body.ofStmts loopMethod.text usedInside
  let su : Surroundings := ⟨(Build.ofProgram ⟨[]⟩ (loopProgram usedInside)).constants, false⟩
  let w := (Walk.start loopUse body (.ofBody body)).plantSeed su.constants
  let v : Walk := { w with loops := [] }
  have h₁ : w.takeLoop? 1 = some (4, v) := rfl
  have hrun (u : Walk) (hu : u.fixed = v.fixed) (k : Nat) :
      u.run su (k + 1) = (u.visitAt su k).run su k := by
    have hloops : u.loops = [] := congrArg (·.2.2.1) hu
    exact Walk.run_of_no_loop (by simp [Walk.takeLoop?, hloops])
  change (w.run su 2).lines.contains 0 = false
  -- once the walk has met the definition at the tail, the local is no longer live
  rw [Walk.run_of_loop h₁, hrun _ rfl, hrun _ (by simp), hrun _ (by simp), hrun _ (by simp),
    hrun _ (by simp), Walk.run]
  decide +kernel

/-- Whether the slice of the use in a loop is stored without a line at the index. -/
def SliceMisses (stmts : List Stmt) (d : Nat) : Prop :=
  let p := loopProgram stmts
  ∃ r, (process ⟨p, .ofProgram ⟨[]⟩ p, .default⟩ ⟨[], .empty, {}⟩ loopUse).store =
    Store.empty.insert r ∧ ∀ line ∈ r.content, line.source ≠ d

theorem sliceMisses {stmts : List Stmt} {d : Nat} (hsigs : (loopProgram stmts).ReadsBack)
    (hindex : loopUse.index < stmts.length)
    (hlines : (loopWalk stmts).lines.contains d = false) : SliceMisses stmts d := by
  obtain ⟨r, hstore, -, hr⟩ := stored_lines (loopProgram stmts) _ .default ⟨[], .empty, {}⟩ loopUse
    hsigs (.extend .empty ⟨[]⟩) (bodyOf_loopProgram stmts) hindex rfl
  refine ⟨r, hstore, fun line hline hsource => ?_⟩
  have hcontains : (loopWalk stmts).lines.contains d = true := (hr d).1 ⟨line, hline, hsource⟩
  rw [hlines] at hcontains
  cases hcontains

theorem passes_of_assigned? {stmts : List Stmt} {x : String} {a b : Nat} {s : Stmt}
    (hs : stmts[a]? = some s) (hflow : b ∈ s.targets ∨ s.fallsThrough = true ∧ b = a + 1)
    (hkeeps : s.assigned? = none) : Passes stmts x a b := by
  refine ⟨⟨s, hs, hflow⟩, ?_⟩
  rintro ⟨s', hs', l, hl, -⟩
  rw [hs, Option.some.injEq] at hs'
  rw [← hs', hkeeps] at hl
  cases hl

/-- A constant that reaches the seed is missing from the slice if a loop starts at the seed, or if
the tail of a loop around it gives the local another value. -/
theorem loops_hide_constants :
    (Reaching usedAtHead "r1" 1 2 ∧ SliceMisses usedAtHead 2) ∧
      (Reaching usedInside "r1" 2 0 ∧ SliceMisses usedInside 0) := by
  have hhead : Reaching usedAtHead "r1" 1 2 :=
    ⟨3, ⟨_, rfl, .inr ⟨rfl, rfl⟩⟩, .single (passes_of_assigned? rfl (.inl (by decide)) rfl)⟩
  have hinside : Reaching usedInside "r1" 2 0 :=
    ⟨1, ⟨_, rfl, .inr ⟨rfl, rfl⟩⟩, .single (passes_of_assigned? rfl (.inr ⟨rfl, rfl⟩) rfl)⟩
  exact ⟨⟨hhead, sliceMisses readsBack_usedAtHead (by decide) lines_usedAtHead⟩,
    hinside, sliceMisses readsBack_usedInside (by decide) lines_usedInside⟩

end Worklist

end Backslice
