import Backslice.Proofs.Alike
import Backslice.Proofs.Children
import Backslice.Proofs.SignatureText

namespace Backslice

namespace Request

def targetOf (kind : UnitKind) : TargetKind :=
  if kind = .assignField then .fieldRead
  else if kind = .fieldStoreConstant ∨ kind = .fieldStoreVariable then .fieldWrite
  else if kind = .returnValue then .returnValue
  else .invocation

theorem eq_targetOf_of_suits {kind : TargetKind} {i : Instruction} (h : suits kind i = true) :
    i.kind?.map targetOf = some kind := by
  unfold suits at h
  split at h
  · rename_i u hu
    simp only [decide_eq_true_eq] at h
    rw [hu, h]
    rfl
  · rename_i u hu
    simp only [Bool.or_eq_true, decide_eq_true_eq] at h
    rw [hu]
    rcases h with rfl | rfl <;> rfl
  · rename_i u hu
    have hne : ∀ k, UnitKind.isInvoke k = false → u ≠ k := by
      rintro k hk rfl
      rw [h] at hk
      cases hk
    rw [hu]
    simp [targetOf, hne .assignField rfl, hne .fieldStoreConstant rfl, hne .fieldStoreVariable rfl,
      hne .returnValue rfl]
  · rename_i u hu
    simp only [decide_eq_true_eq] at h
    rw [hu, h]
    rfl
  · cases h

structure Means (r : Request) (i : Instruction) (live : LiveSet) : Prop where
  suits : suits r.kind i = true
  contains : Text.contains i.stmt.text r.target = true
  seed : r.seed? i.stmt = some live

def root (r : Request) (caller : String) (index : Nat) (live : LiveSet) : Criterion :=
  { caller, target := r.target, kind := r.kind, index, positions := r.positions, live }

theorem exists_of_mem_collect {r : Request} {caller : String} {ps : List (Instruction × Nat)}
    {seen : List (List String)} {c : Criterion} (h : c ∈ r.collect caller ps seen) :
    ∃ i index live, (i, index) ∈ ps ∧ r.Means i live ∧ c = r.root caller index live := by
  -- what is passed over only makes the list of statements longer
  have hlater {p : Instruction × Nat} {rest : List (Instruction × Nat)}
      (ih : ∃ i index live, (i, index) ∈ rest ∧ r.Means i live ∧ c = r.root caller index live) :
      ∃ i index live, (i, index) ∈ p :: rest ∧ r.Means i live ∧ c = r.root caller index live := by
    obtain ⟨i, index, live, hi, hc⟩ := ih
    exact ⟨i, index, live, List.mem_cons_of_mem _ hi, hc⟩
  fun_induction collect r caller ps seen with
  | case1 => cases h
  | case2 i index rest seen hsuits hseed ih => exact hlater (ih h)
  | case3 i index rest seen hsuits live hseed key hseen ih => exact hlater (ih h)
  | case4 i index rest seen hsuits live hseed key hseen ih =>
    rcases List.mem_cons.1 h with rfl | h
    · rw [Bool.and_eq_true] at hsuits
      exact ⟨i, index, live, List.mem_cons_self, ⟨hsuits.1, hsuits.2, hseed⟩, rfl⟩
    · exact hlater (ih h)
  | case5 i index rest seen hsuits ih => exact hlater (ih h)

theorem exists_of_mem_criteria {p : Program} {r : Request} {c : Criterion}
    (h : c ∈ r.criteria p) : ∃ m body i index live, MethodSig.parse r.caller = .ok m ∧
      p.body m = .ok body ∧ body.reverse[index]? = some i ∧ r.Means i live ∧
      c = r.root m.text index live := by
  unfold criteria at h
  split at h
  · cases h
  · rename_i m hm
    split at h
    · split at h
      · cases h
      · rename_i body hbody
        obtain ⟨i, index, live, hi, hmeans, hc⟩ := exists_of_mem_collect h
        exact ⟨m, body, i, index, live, hm, hbody, List.mem_zipIdx_iff_getElem?.1 hi, hmeans, hc⟩
    · cases h

/-- A root criterion stands at an instruction of the kind it asks for, in a body that loads. -/
theorem of_mem_criteria {p : Program} {r : Request} {c : Criterion} (h : c ∈ r.criteria p) :
    (c.depth = 0 ∧ c.group? = none) ∧ ∃ body i, p.bodyOf c.caller = .ok body ∧
      c.index < body.length ∧ body[body.length - 1 - c.index]? = some i ∧
      Request.suits c.kind i = true := by
  obtain ⟨m, body, i, index, live, hm, hbody, hi, hmeans, rfl⟩ := exists_of_mem_criteria h
  refine ⟨⟨rfl, rfl⟩, body, i, ?_, ?_⟩
  · change p.bodyOf m.text = _
    rw [Program.bodyOf, MethodSig.parse_text_of_parse hm]
    exact hbody
  · have hlt : index < body.length := by
      simpa using (List.getElem?_eq_some_iff.1 hi).1
    rw [List.getElem?_reverse hlt] at hi
    exact ⟨hlt, hi, hmeans.suits⟩

end Request

namespace Analysis

variable {a : Analysis}

/-- Walks that are alike lead to the same criteria, if they start from the same depth and group. -/
theorem children_congr {x y : Criterion} {w v : Walk} {number? : Option Nat}
    (h : Walk.Alike number? w v) (hw : a.walk? x = some w) (hv : a.walk? y = some v)
    (hcaller : x.caller = y.caller) (hdepth : x.depth = y.depth) (hroot : x.rootId = y.rootId) :
    a.children w = a.children v ∧ ∀ s, a.countSpawned w s = a.countSpawned v s := by
  rw [← criterion_of_walk? hw, ← criterion_of_walk? hv] at hcaller hdepth hroot
  have hcalls : a.callSites w = a.callSites v := by
    simp only [callSites, h.ordinals, hcaller, hdepth, hroot]
  have hspawned : a.spawned w = a.spawned v := by
    funext s
    cases s with
    | downward callee => simp only [spawned, returnSites, hdepth, hroot]
    | fieldWriters field => simp only [spawned, storeSites, hcaller, hdepth, hroot]
  constructor
  · simp only [children, h.spawns, hcalls, hspawned]
  · intro s
    simp only [countSpawned, h.spawns, hcalls, hspawned]

theorem walk?_of_bodyOf {c : Criterion} {body : Body} (hbody : a.program.bodyOf c.caller = .ok body)
    (hindex : c.index < body.length) : a.walk? c =
      some (.ofCriterion a.build.constants c body (a.build.branchesFor c.caller body)) := by
  simp [walk?, bodyOf?, hbody, Except.toOption, hindex]

end Analysis

namespace Walk

/-- A walk from the first statement visits no other. -/
theorem ofCriterion_of_first {constants : ConstantTable} {c : Criterion} {body : Body}
    {b : Branches} (h : (start c body b).seed = 0) :
    ofCriterion constants c body b = (start c body b).plantSeed constants := by
  simp only [ofCriterion]
  rw [seed_of_fixed (plantSeed_fixed constants (start c body b)), h, run]

/-- Only calls have literals that depend on the positions asked for. -/
theorem seedConstants_congr {constants : ConstantTable} {x y : Criterion} {s : Stmt}
    (hkind : x.kind = y.kind) (hcaller : x.caller = y.caller) (hcall : x.kind ≠ .invocation) :
    seedConstants constants x s = seedConstants constants y s := by
  unfold seedConstants
  rw [← hkind, ← hcaller]
  split
  · contradiction
  · rfl
  · rfl
  · rfl
  · rfl

end Walk

namespace Worklist

variable {a : Analysis}

/-- A criterion that is sliced alone. -/
theorem process_alone {c : Criterion} {w : Walk} (h : a.walk? c = some w) :
    process a ⟨[], .empty, {}⟩ c =
      ⟨a.children w, .ofRecords [w.toRecord c.id ((a.children w).map Criterion.id).eraseDups],
        { a.countSpawned w {} with processed := (a.countSpawned w {}).processed + 1 }⟩ := by
  have hnew : Store.empty.containsNode c.id = false := rfl
  rw [process_of_new hnew h]
  rfl

/-- Whether two criteria at an instruction, each sliced alone, lead to the same criteria and have
slices that differ at most in the literals of that instruction, and there only if it is a call and
they ask for other literals of it. -/
def SlicedAlike (a : Analysis) (i : Instruction) (x y : Criterion) : Prop :=
  ∃ rx ry queue stats,
    process a ⟨[], .empty, {}⟩ x = ⟨queue, .ofRecords [rx], stats⟩ ∧
    process a ⟨[], .empty, {}⟩ y = ⟨queue, .ofRecords [ry], stats⟩ ∧
    rx.nodeId? = some y.id ∧ ry.nodeId? = some y.id ∧ rx.related = ry.related ∧
    rx.content.map (Line.forget (some i.index)) = ry.content.map (Line.forget (some i.index)) ∧
    ((x.kind = .invocation → (Walk.seedConstants a.build.constants x i.stmt).eraseDups =
      (Walk.seedConstants a.build.constants y i.stmt).eraseDups) → rx.content = ry.content)

theorem slicedAlike_of_same {x y : Criterion} {body : Body} {i : Instruction}
    (hbody : a.program.bodyOf x.caller = .ok body) (hlt : x.index < body.length)
    (hi : body[body.length - 1 - x.index]? = some i) (hsame : x.same y = true)
    (hkind : x.kind = y.kind) (hdepth : x.depth = y.depth) (hgroup : x.group? = y.group?) :
    SlicedAlike a i x y := by
  simp only [Criterion.same, Bool.and_eq_true, decide_eq_true_eq] at hsame
  obtain ⟨⟨⟨hcaller, htarget⟩, hindex⟩, hkeys⟩ := hsame
  have hid : x.id = y.id := by
    simp only [Criterion.id, hcaller, htarget, hindex, hkeys]
  have hlive (id : String) : x.live.contains id = y.live.contains id := by
    rw [Bool.eq_iff_iff, Table.contains_eq_true_iff, Table.contains_eq_true_iff, hkeys]
  have hwx := Analysis.walk?_of_bodyOf hbody hlt
  have hwy := Analysis.walk?_of_bodyOf (hcaller ▸ hbody) (hindex ▸ hlt)
  rw [← hcaller] at hwy
  generalize hx : Walk.ofCriterion a.build.constants x body _ = wx at hwx
  generalize hy : Walk.ofCriterion a.build.constants y body _ = wy at hwy
  have halike (number? : Option Nat) (h : number? = some i.index ∨
      (Walk.seedConstants a.build.constants x i.stmt).eraseDups =
        (Walk.seedConstants a.build.constants y i.stmt).eraseDups) : Walk.Alike number? wx wy := by
    rw [← hx, ← hy]
    exact Walk.alike_ofCriterion _ hkind hindex hlive hi h
  have hshape := halike (some i.index) (.inl rfl)
  obtain ⟨hchildren, hcount⟩ := Analysis.children_congr hshape hwx hwy hcaller hdepth
    (by rw [Criterion.rootId, Criterion.rootId, hgroup, hid])
  refine ⟨_, wy.toRecord y.id ((a.children wy).map Criterion.id).eraseDups, _, _,
    process_alone hwx, ?_, ?_, rfl, ?_, ?_, ?_⟩
  · rw [process_alone hwy, hchildren, hcount]
  · rw [← hid]
    rfl
  · exact congrArg (fun children => (children.map Criterion.id).eraseDups) hchildren
  · have hvalues := congrArg Table.values hshape.lines
    rwa [Table.values_map, Table.values_map] at hvalues
  · intro hliterals
    have heq : (Walk.seedConstants a.build.constants x i.stmt).eraseDups =
        (Walk.seedConstants a.build.constants y i.stmt).eraseDups := by
      by_cases hcall : x.kind = .invocation
      · exact hliterals hcall
      · rw [Walk.seedConstants_congr hkind hcaller hcall]
    have hvalues := congrArg Table.values (halike none (.inr heq)).lines
    rwa [Table.values_map, Table.values_map, Line.forget_none, List.map_id, List.map_id] at hvalues

/-- Root criteria that are the same lead to the same slices elsewhere, and their own slices differ
at most in the literals of the call they start from. -/
theorem same_roots_slice_alike (a : Analysis) (r₁ r₂ : Request) (x y : Criterion)
    (hx : x ∈ r₁.criteria a.program) (hy : y ∈ r₂.criteria a.program) (h : x.same y = true) :
    ∃ body i, a.bodyOf? x.caller = some body ∧ body[body.length - 1 - x.index]? = some i ∧
      SlicedAlike a i x y := by
  obtain ⟨⟨hxdepth, hxgroup⟩, body, i, hbody, hlt, hi, hxsuits⟩ := Request.of_mem_criteria hx
  obtain ⟨⟨hydepth, hygroup⟩, body', i', hbody', -, hi', hysuits⟩ := Request.of_mem_criteria hy
  have hplace := h
  simp only [Criterion.same, Bool.and_eq_true, decide_eq_true_eq] at hplace
  obtain ⟨⟨⟨hcaller, -⟩, hindex⟩, -⟩ := hplace
  -- both stand at the same instruction, and its kind tells what they ask for
  have hkind : x.kind = y.kind := by
    rw [← hcaller, hbody] at hbody'
    cases hbody'
    rw [← hindex, hi] at hi'
    cases hi'
    have hboth := Request.eq_targetOf_of_suits hxsuits
    rw [Request.eq_targetOf_of_suits hysuits] at hboth
    exact (Option.some.inj hboth).symm
  have halike : SlicedAlike a i x y := slicedAlike_of_same hbody hlt hi h hkind
    (hxdepth.trans hydepth.symm) (hxgroup.trans hygroup.symm)
  exact ⟨body, i, by simp [Analysis.bodyOf?, hbody, Except.toOption], hi, halike⟩

def callTwoNames : Stmt :=
  .invoke ⟨.static, none, ⟨"a.C", .void, "use", [.string, .string]⟩,
    [.const (.str "AES"), .const (.str "DES")]⟩

def twoNames : Program :=
  Program.empty.addClass <|
    .ofMembers "a.B" none false [] [⟨⟨"a.B", .void, "m", []⟩, some [callTwoNames]⟩]

def askTwoNames (position : Int) : Request :=
  { caller := "<a.B: void m()>", target := "use", kind := .invocation, positions := [position] }

def rootTwoNames (position : Int) : Criterion :=
  { caller := "<a.B: void m()>", target := "use", kind := .invocation, index := 0
    positions := [position] }

theorem mem_criteria_twoNames : rootTwoNames 0 ∈ (askTwoNames 0).criteria twoNames ∧
    rootTwoNames 1 ∈ (askTwoNames 1).criteria twoNames := by
  constructor <;> decide +kernel

theorem same_roots_slice_alike_twoNames :
    let a : Analysis := ⟨twoNames, .ofProgram ⟨[]⟩ twoNames, .default⟩
    let x := rootTwoNames 0
    let y := rootTwoNames 1
    ∃ body i, a.bodyOf? x.caller = some body ∧ body[body.length - 1 - x.index]? = some i ∧
      SlicedAlike a i x y := by
  intro a x y
  obtain ⟨hx, hy⟩ := mem_criteria_twoNames
  exact same_roots_slice_alike a (askTwoNames 0) (askTwoNames 1) x y hx hy (by decide)

theorem process_rootTwoNames (build : Build) (position : Int) :
    let body := Body.ofStmts "<a.B: void m()>" [callTwoNames]
    let root := rootTwoNames position
    ∃ r, (process ⟨twoNames, build, .default⟩ ⟨[], .empty, {}⟩ root).store = .ofRecords [r] ∧
      r.content = ((Walk.start root body (build.branchesFor root.caller body)).plantSeed
        build.constants).lines.values := by
  intro body root
  have hcanonical : MethodSig.IsCanonical ⟨"a.B", .void, "m", []⟩ := {
    cls_ne := by decide
    cls := List.all_eq_true.1 (by decide)
    ret := by
      intro name hname
      cases hname
    ret_text := List.all_eq_true.1 (by decide)
    name_ne := by decide
    name := List.all_eq_true.1 (by decide)
    params := by simp }
  have htext : root.caller = MethodSig.text ⟨"a.B", .void, "m", []⟩ := by
    change "<a.B: void m()>" = _
    decide
  have hparse : MethodSig.parse root.caller = .ok ⟨"a.B", .void, "m", []⟩ := by
    rw [htext]
    exact MethodSig.parse_text hcanonical
  have hbody : twoNames.bodyOf root.caller = .ok body := by
    rw [Program.bodyOf, hparse]
    rfl
  have hwalk := Analysis.walk?_of_bodyOf (a := ⟨twoNames, build, .default⟩) (c := root) hbody
    (Nat.one_pos)
  rw [Walk.ofCriterion_of_first rfl] at hwalk
  exact ⟨_, congrArg Worklist.store (process_alone hwalk), rfl⟩

/-- Which literals the slice holds depends on which of the roots comes first. -/
theorem same_roots_hold_other_literals :
    let a : Analysis := ⟨twoNames, .ofProgram ⟨[]⟩ twoNames, .default⟩
    let x := rootTwoNames 0
    let y := rootTwoNames 1
    x ∈ (askTwoNames 0).criteria twoNames ∧ y ∈ (askTwoNames 1).criteria twoNames ∧
      x.same y = true ∧ ∃ rx ry, (process a ⟨[], .empty, {}⟩ x).store = .ofRecords [rx] ∧
        (process a ⟨[], .empty, {}⟩ y).store = .ofRecords [ry] ∧
        rx.constants = ["AES"] ∧ ry.constants = ["DES"] := by
  intro a x y
  obtain ⟨rx, hrx, hx⟩ := process_rootTwoNames a.build 0
  obtain ⟨ry, hry, hy⟩ := process_rootTwoNames a.build 1
  refine ⟨mem_criteria_twoNames.1, mem_criteria_twoNames.2, by decide, rx, ry, hrx, hry, ?_, ?_⟩
  · rw [Record.constants, hx]
    rfl
  · rw [Record.constants, hy]
    rfl

end Worklist

end Backslice
