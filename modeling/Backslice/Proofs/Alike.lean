import Mathlib.Data.List.Induction
import Backslice.Proofs.Visit

namespace Backslice

namespace Line

/-- The line without its literals, if it is the one with the number given. -/
def forget (number? : Option Nat) (l : Line) : Line :=
  if number? = some l.number then { l with constants? := none } else l

theorem forget_none : forget none = id := by
  funext l
  simp [forget]

theorem forget_attach (number? : Option Nat) (l : Line) (literal : String) :
    forget number? (l.attach literal) =
      forget number? ((forget number? l).attach literal) := by
  simp only [forget, attach]
  split <;> simp_all

theorem forget_attachAll {number? : Option Nat} {k l : Line}
    (h : forget number? k = forget number? l) (literals : List String) :
    forget number? (k.attachAll literals) = forget number? (l.attachAll literals) := by
  unfold attachAll
  induction literals generalizing k l with
  | nil => exact h
  | cons literal literals ih =>
    refine ih ?_
    rw [forget_attach, h, ← forget_attach]

theorem attachAll_eq (l : Line) (literals : List String) :
    l.attachAll literals = { l with constants? := (l.attachAll literals).constants? } := by
  unfold attachAll
  induction literals generalizing l with
  | nil => rfl
  | cons literal literals ih => exact ih (l.attach literal)

theorem forget_attachAll_self {number? : Option Nat} {l : Line} (h : number? = some l.number)
    (literals : List String) :
    forget number? (l.attachAll literals) = { l with constants? := none } := by
  rw [attachAll_eq]
  simp [forget, h]

/-- A line that has no literals yet takes each of them once. -/
theorem attachAll_of_none {l : Line} (h : l.constants? = none) (literals : List String) :
    l.attachAll literals = if literals = [] then l
      else { l with constants? := some literals.eraseDups } := by
  induction literals using List.reverseRecOn with
  | nil => rfl
  | append_singleton literals literal ih =>
    have hstep : l.attachAll (literals ++ [literal]) = (l.attachAll literals).attach literal := by
      simp [attachAll]
    have hdups : (literals ++ [literal]).eraseDups =
        if literal ∈ literals then literals.eraseDups else literals.eraseDups ++ [literal] := by
      rw [List.eraseDups_append]
      by_cases hmem : literal ∈ literals <;> simp [List.removeAll, hmem, List.eraseDups_cons]
    rw [hstep, ih, hdups]
    by_cases hnil : literals = []
    · simp [hnil, attach, h]
    · simp [hnil, attach]

theorem attachAll_congr {l : Line} (h : l.constants? = none) {ks ms : List String}
    (heq : ks.eraseDups = ms.eraseDups) : l.attachAll ks = l.attachAll ms := by
  have hnil : ks = [] ↔ ms = [] := by
    cases ks <;> cases ms <;> simp [List.eraseDups_cons] at heq ⊢
  simp only [attachAll_of_none h, heq, hnil]

end Line

namespace Effect

/-- Of the live set, an effect depends on nothing but the ids. -/
theorem ofInstruction_congr (s : Surroundings) {live live' : LiveSet}
    (h : ∀ id, live.contains id = live'.contains id) (i : Instruction) :
    ofInstruction s live i = ofInstruction s live' i := by
  have hfun : live.contains = live'.contains := funext h
  have hcall (c : Call) (result : Option Local) : ofCall live c result = ofCall live' c result := by
    simp only [ofCall, ofBulkCopy, ofPlainCall, hfun]
  simp only [ofInstruction, ofStmt, ifLive, hfun, hcall]

end Effect

namespace Walk

/-- Whether two walks differ at most in where their live ids come from and in the literals of the
line with the number given. -/
structure Alike (number? : Option Nat) (w v : Walk) : Prop where
  body : w.body = v.body
  loops : w.loops = v.loops
  jumps : w.jumps = v.jumps
  seed : w.seed = v.seed
  live : ∀ id, w.live.contains id = v.live.contains id
  ordinals : w.ordinals = v.ordinals
  spawns : w.spawns = v.spawns
  lines : w.lines.map (Line.forget number?) = v.lines.map (Line.forget number?)

namespace Alike

variable {number? : Option Nat} {w v : Walk}

theorem mayDefineOnly (h : Alike number? w v) (index : Nat) :
    w.mayDefineOnly index = v.mayDefineOnly index := by
  unfold Walk.mayDefineOnly
  rw [h.jumps, h.seed]

theorem makeLive (h : Alike number? w v) (origin origin' id : String) :
    Alike number? (w.makeLive origin id) (v.makeLive origin' id) := by
  unfold Walk.makeLive
  rw [h.live id]
  split
  · exact h
  · exact { h with live := fun id' => by simp [h.live] }

theorem makeAllLive (h : Alike number? w v) (origin origin' : String) (ids : List String) :
    Alike number? (w.makeAllLive origin ids) (v.makeAllLive origin' ids) := by
  unfold Walk.makeAllLive
  induction ids generalizing w v with
  | nil => exact h
  | cons id ids ih => exact ih (h.makeLive origin origin' id)

theorem retain (h : Alike number? w v) (i : Instruction) (literals : List String) :
    Alike number? (w.retain i literals) (v.retain i literals) := by
  unfold Walk.retain
  cases i.kind? with
  | none => exact h
  | some kind =>
    refine { h with lines := ?_ }
    have hget := congrArg (Table.get? · i.index) h.lines
    simp only [Table.get?_map] at hget
    simp only [Table.map_insert]
    rw [h.lines]
    congr 1
    refine Line.forget_attachAll ?_ literals
    cases hw : w.lines.get? i.index <;> cases hv : v.lines.get? i.index <;> simp_all

theorem addOrdinal (h : Alike number? w v) (n : Nat) :
    Alike number? (w.addOrdinal n) (v.addOrdinal n) :=
  { h with ordinals := by simp only [Walk.addOrdinal, h.ordinals] }

theorem addSpawns (h : Alike number? w v) (ss : List Spawn) :
    Alike number? (ss.foldl addSpawn w) (ss.foldl addSpawn v) := by
  induction ss generalizing w v with
  | nil => exact h
  | cons s ss ih =>
    refine ih ?_
    unfold addSpawn
    rw [h.spawns]
    split
    · exact h
    · exact { h with spawns := rfl }

theorem apply (h : Alike number? w v) (index : Nat) (e : Effect) :
    Alike number? (w.apply index e) (v.apply index e) := by
  have hkill : Alike number?
      (if w.mayDefineOnly index then w else { w with live := e.kill.foldl Table.erase w.live })
      (if v.mayDefineOnly index then v
        else { v with live := e.kill.foldl Table.erase v.live }) := by
    rw [h.mayDefineOnly index]
    split
    · exact h
    · exact { h with live := fun id => by simp [Table.contains_foldl_erase, h.live] }
  -- the origins may differ, but no origin decides what is live
  have hgen := hkill.makeAllLive ((e.trigger? >>= w.live.get?).getD w.criterion.target)
    ((e.trigger? >>= v.live.get?).getD v.criterion.target) e.gen
  unfold Walk.apply
  cases e.ordinal? with
  | none => exact hgen.addSpawns e.spawns
  | some n => exact (hgen.addOrdinal n).addSpawns e.spawns

theorem transfer (h : Alike number? w v) (s : Surroundings) (index : Nat) (i : Instruction) :
    Alike number? (w.transfer s index i) (v.transfer s index i) := by
  simp only [Walk.transfer, Effect.ofInstruction_congr s h.live i]
  split
  · exact (h.retain i _).apply index _
  · exact h

theorem visit (h : Alike number? w v) (s : Surroundings) (index : Nat) (i : Instruction) :
    Alike number? (w.visit s index i) (v.visit s index i) := by
  unfold Walk.visit
  split
  · rw [h.seed]
    split
    · exact (h.retain i []).makeAllLive _ _ _
    · exact h
  · exact (h.retain i []).makeAllLive _ _ _
  · rw [h.seed]
    split
    · exact h.retain i []
    · exact h
  · split
    · exact h
    · exact h.transfer s index i
  · exact h

theorem visitAt (h : Alike number? w v) (s : Surroundings) (index : Nat) :
    Alike number? (w.visitAt s index) (v.visitAt s index) := by
  unfold Walk.visitAt
  rw [h.body]
  split
  · exact h.visit s index _
  · exact h

theorem takeLoop? (h : Alike number? w v) (index : Nat) :
    (w.takeLoop? index = none ∧ v.takeLoop? index = none) ∨
      ∃ tail w' v', w.takeLoop? index = some (tail, w') ∧ v.takeLoop? index = some (tail, v') ∧
        Alike number? w' v' := by
  have hencloses : w.encloses index = v.encloses index := by
    funext edge
    unfold encloses
    rw [h.seed]
  unfold Walk.takeLoop?
  rw [hencloses, h.loops]
  cases v.loops.find? (v.encloses index) with
  | none => exact .inl ⟨rfl, rfl⟩
  | some edge =>
    exact .inr ⟨_, _, _, rfl, rfl,
      ⟨h.body, rfl, h.jumps, h.seed, h.live, h.ordinals, h.spawns, h.lines⟩⟩

theorem run (h : Alike number? w v) (s : Surroundings) (cursor : Nat) :
    Alike number? (w.run s cursor) (v.run s cursor) := by
  fun_induction Walk.run s w cursor generalizing v with
  | case1 w => rwa [Walk.run]
  | case2 w index tail w' hloop ih =>
    rcases h.takeLoop? index with ⟨hnone, -⟩ | ⟨tail', w'', v', hw, hv, h'⟩
    · rw [hloop] at hnone
      cases hnone
    · rw [hloop] at hw
      cases hw
      rw [run_of_loop hv]
      exact ih h'
  | case3 w index hloop ih =>
    rcases h.takeLoop? index with ⟨-, hnone⟩ | ⟨tail, w', v', hw, -⟩
    · rw [run_of_no_loop hnone]
      exact ih (h.visitAt s index)
    · rw [hloop] at hw
      cases hw

/-- The first line of both walks. -/
theorem retain_of_empty (h : Alike number? w v) (hw : w.lines = .empty) (hv : v.lines = .empty)
    {i : Instruction} {ks ms : List String}
    (hliterals : number? = some i.index ∨ ks.eraseDups = ms.eraseDups) :
    Alike number? (w.retain i ks) (v.retain i ms) := by
  unfold Walk.retain
  cases i.kind? with
  | none => exact h
  | some kind =>
    refine { h with lines := ?_ }
    simp only [Table.map_insert, hw, hv]
    refine congrArg (Table.insert _ i.index) ?_
    rcases hliterals with hnumber | hliterals
    · rw [Line.forget_attachAll_self hnumber, Line.forget_attachAll_self hnumber]
    · rw [Line.attachAll_congr rfl hliterals]

end Alike

section
variable {number? : Option Nat} {constants : ConstantTable} {x y : Criterion} {body : Body}
  {i : Instruction}

theorem alike_plantSeed (b : Branches) (hkind : x.kind = y.kind) (hindex : x.index = y.index)
    (hlive : ∀ id, x.live.contains id = y.live.contains id)
    (hi : body[body.length - 1 - x.index]? = some i)
    (hliterals : number? = some i.index ∨ (seedConstants constants x i.stmt).eraseDups =
      (seedConstants constants y i.stmt).eraseDups) :
    Alike number? ((start x body b).plantSeed constants)
      ((start y body b).plantSeed constants) := by
  have hseed : (start x body b).seed = (start y body b).seed := by
    simp only [seed, programIndex, start, hindex]
  have hstart : Alike number? (start x body b) (start y body b) :=
    ⟨rfl, rfl, rfl, hseed, hlive, rfl, rfl, rfl⟩
  have hretain := hstart.retain_of_empty rfl rfl hliterals
  have hspawns : seedSpawns x i.stmt = seedSpawns y i.stmt := by
    unfold seedSpawns Criterion.readsField
    rw [hkind]
  have hcriterion (c : Criterion) (ks : List String) :
      ((start c body b).retain i ks).criterion = c :=
    congrArg (·.1) (retain_fixed (start c body b) i ks)
  have hix : (start x body b).body[(start x body b).seed]? = some i := hi
  have hiy : (start y body b).body[(start y body b).seed]? = some i := hseed ▸ hi
  unfold plantSeed
  rw [hix, hiy]
  refine { hretain with spawns := ?_ }
  simp only [hcriterion, hspawns]
  exact congrArg (· ++ seedSpawns y i.stmt) hretain.spawns

theorem alike_ofCriterion (b : Branches) (hkind : x.kind = y.kind) (hindex : x.index = y.index)
    (hlive : ∀ id, x.live.contains id = y.live.contains id)
    (hi : body[body.length - 1 - x.index]? = some i)
    (hliterals : number? = some i.index ∨ (seedConstants constants x i.stmt).eraseDups =
      (seedConstants constants y i.stmt).eraseDups) :
    Alike number? (ofCriterion constants x body b) (ofCriterion constants y body b) := by
  have hplant := alike_plantSeed b hkind hindex hlive hi hliterals
  have hreads : x.readsField = y.readsField := by
    unfold Criterion.readsField
    rw [hkind]
  simp only [ofCriterion]
  rw [hreads, hplant.seed]
  exact hplant.run _ _

end

end Walk

end Backslice
