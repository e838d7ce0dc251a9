import Backslice.Proofs.Groups
import Backslice.Proofs.Memo
import Backslice.Proofs.Sites

namespace Backslice

def Store.HoldsNode (s : Store) (id : String) : Prop :=
  ∃ r : Record, r.nodeId? = some id ∧ r.toJson ∈ s.documents

namespace Worklist

variable {a : Analysis}

/-- Whether a run slices the criterion: it comes to it when there is no slice of it yet, and walks
as given. -/
def Slices (a : Analysis) (start : Worklist) (c : Criterion) (walk : Walk) : Prop :=
  ∃ w rest, Turns a start w ∧ w.queue = c :: rest ∧ w.store.containsNode c.id = false ∧
    a.walk? c = some walk

/-- Whether a store holds the slices of all places where the walk of a criterion goes on. -/
structure Continued (a : Analysis) (f : ClassFilter) (c : Criterion) (walk : Walk) (s : Store) :
    Prop where
  /-- The calls of the method, at the parameters that the walk came to. -/
  up : c.depth < a.config.maxUpwardDepth → walk.ordinals ≠ [] →
    ∀ m body, a.program.Provides f m body →
    ∀ i ∈ body, ∀ call, i.stmt.call? = some call → call.method.text = c.caller →
      s.HoldsNode (Criterion.idOf m.text c.caller (body.length - 1 - i.index)
        (call.localsAt walk.ordinals))
  /-- The returns of the methods whose results were live when the walk came to the calls. -/
  down : -(a.config.maxDownwardDepth : Int) ≤ c.depth - 1 →
    ∀ index v, Walk.VisitsFrom a.build.constants c walk.body
      (a.build.branchesFor c.caller walk.body) index v →
    ∀ i dest call, walk.body[index]? = some i → i.stmt = .assign (.loc dest) (.call call) →
      v.live.contains dest.name = true → call.isBulkCopy = false →
      (∀ b, call.base = some b → call.isMapInsert = true → v.live.contains b.name = false) →
      a.build.isProcessed call.method.cls = true →
    ∀ body, a.program.body call.method = .ok body → ∀ j ∈ body, ∀ v, j.stmt = .ret v →
      s.HoldsNode (Criterion.idOf call.method.text j.stmt.text (body.length - 1 - j.index)
        v.localName?.toList)
  /-- The stores of other methods to the field that the criterion reads. -/
  fields : c.kind = .fieldRead →
    ∀ i lhs rhs field, walk.body[walk.body.length - 1 - c.index]? = some i →
      i.stmt = .assign lhs rhs → rhs.field? = some field →
      a.isEnumConstant field = false → a.program.isLoaded field.cls = true →
    ∀ m body, a.program.Provides f m body → m.text ≠ c.caller →
    ∀ j ∈ body, ∀ lhs rhs, j.stmt = .assign lhs rhs → lhs.field? = some field →
      s.HoldsNode (Criterion.idOf m.text field.text (body.length - 1 - j.index)
        rhs.localName?.toList)

/-- The criteria that a slice leads to have slices at the end. -/
theorem Slices.containsNode_child {start : Worklist} {c d : Criterion} {walk : Walk}
    (h : Slices a start c walk) (hd : d ∈ a.children walk) :
    (run a start).store.containsNode d.id = true := by
  obtain ⟨w, rest, hturns, hqueue, hnew, hwalk⟩ := h
  have hresolves : (a.walk? d).isSome = true := by
    obtain ⟨_, hstands, -⟩ := Analysis.stands_of_mem_children hd
    exact Analysis.isSome_walk?_iff.2 hstands.resolves
  have hadded : d ∈ (process a { w with queue := rest } c).queue := by
    rcases process_cases a { w with queue := rest } c with
      ⟨hstored, -⟩ | ⟨-, hnone, -⟩ | ⟨-, walk', hwalk', heq⟩
    · rw [hnew] at hstored
      cases hstored
    · rw [hwalk] at hnone
      cases hnone
    · rw [hwalk] at hwalk'
      cases hwalk'
      rw [heq]
      exact List.mem_append_right _ hd
  rw [run_of_turns (hturns.tail (.slice hqueue))]
  exact containsNode_run_of_mem_queue hresolves hadded

theorem exists_ofRecords_of_turn {u v : Worklist} (hturn : Turn a u v)
    (h : ∃ records, u.store = .ofRecords records) : ∃ records, v.store = .ofRecords records := by
  obtain ⟨records, hstore⟩ := h
  cases hturn with
  | @slice c rest hqueue =>
    rcases process_cases a { u with queue := rest } c with
      ⟨-, heq⟩ | ⟨-, -, heq⟩ | ⟨-, walk, -, heq⟩
    · exact ⟨records, by rw [heq, hstore]⟩
    · exact ⟨records, by rw [heq, hstore]⟩
    · exact ⟨_, by rw [heq, hstore, Store.insert_ofRecords]⟩

theorem Slices.holdsNode_child {queue : List Criterion} {old : List Record} {stats : SliceStats}
    {c : Criterion} {walk : Walk} {id : String}
    (h : Slices a ⟨queue, .ofRecords old, stats⟩ c walk)
    (hchild : ∃ d ∈ a.children walk, d.id = id) :
    (run a ⟨queue, .ofRecords old, stats⟩).store.HoldsNode id := by
  obtain ⟨d, hd, rfl⟩ := hchild
  obtain ⟨records, hstore⟩ := turns_preserve (fun _ _ => exists_ofRecords_of_turn)
    (turns_run a ⟨queue, .ofRecords old, stats⟩) ⟨old, rfl⟩
  have hcontains := h.containsNode_child hd
  rw [hstore] at hcontains ⊢
  obtain ⟨r, hr, hid⟩ := (Store.containsNode_ofRecords _ _).1 hcontains
  exact ⟨r, hid, List.mem_map.2 ⟨r, hr, rfl⟩⟩

end Worklist

theorem Config.le_depthLimit_of_validate {config : Config} (h : config.validate = .ok ()) :
    config.maxUpwardDepth ≤ depthLimit ∧ config.maxDownwardDepth ≤ depthLimit := by
  unfold validate at h
  split at h
  · cases h
  · rename_i hup
    split at h
    · cases h
    · rename_i hdown
      exact ⟨Nat.le_of_not_lt hup, Nat.le_of_not_lt hdown⟩

namespace Worklist

/-- No continuation is missed: wherever the walk of a criterion that a run slices goes on, there is
a slice at the end of the run. The arguments of a call that count are those at the positions of the
parameters, which are the parameters' own numbers below `2 ^ 31`. -/
theorem sliced_is_continued (p : Program) (f : ClassFilter) (config : Config) (hp : p.Assembled)
    (hsigs : p.ReadsBack) (hconfig : config.validate = .ok ()) (queue : List Criterion)
    (old : List Record) (stats : SliceStats) (c : Criterion) (walk : Walk)
    (h : Slices ⟨p, .ofProgram f p, config⟩ ⟨queue, .ofRecords old, stats⟩ c walk) :
    Continued ⟨p, .ofProgram f p, config⟩ f c walk
        (run ⟨p, .ofProgram f p, config⟩ ⟨queue, .ofRecords old, stats⟩).store ∧
      ((∀ n ∈ walk.ordinals, n < 0x80000000) →
        ∀ call : Call, call.localsAt walk.ordinals = call.localArgs walk.ordinals) := by
  have ⟨_, _, _, _, _, hwalk⟩ := h
  have hcriterion := Analysis.criterion_of_walk? hwalk
  obtain ⟨hbodyOf, hofCriterion⟩ := Analysis.of_walk? hwalk
  obtain ⟨hup, hdown⟩ := Config.le_depthLimit_of_validate hconfig
  unfold Config.depthLimit at hup hdown
  have hsignedUp : Config.signedDepth config.maxUpwardDepth = config.maxUpwardDepth :=
    Config.signedDepth_of_lt (by omega)
  have hsignedDown : Config.signedDepth config.maxDownwardDepth = config.maxDownwardDepth :=
    Config.signedDepth_of_lt (by omega)
  refine ⟨⟨?_, ?_, ?_⟩, fun hsmall call => call.localsAt_eq_localArgs hsmall⟩
  · intro hdepth hordinals m body hm i hi call hcall hmethod
    rw [← hcriterion] at hdepth hmethod ⊢
    refine h.holdsNode_child (Analysis.exists_child_of_call ?_ hordinals ?_
      (Analysis.bodyOf?_of_provides hsigs.declared hm) hi hcall hmethod)
    · rw [hsignedUp]
      exact Int.add_one_le_of_lt hdepth
    · rw [← hmethod]
      exact Build.mem_callersOf hp hm hi hcall
  · intro hdepth index v hvisits i dest call hi hstmt hlive hcopy hmap hprocessed body hbody j hj
      value hret
    have hmem : walk.body ∈ p.bodies.values := (Analysis.spawnsArise_of_walk? hwalk).1
    have hin : i ∈ walk.body := List.mem_of_getElem? hi
    have hparse := hsigs.called walk.body hmem i hin call (by rw [hstmt]; rfl)
    have hload := Analysis.bodyOf?_text (a := ⟨p, .ofProgram f p, config⟩) hparse hbody
    have hspawn : .downward call.method ∈ walk.spawns := by
      rw [hofCriterion]
      exact hvisits.downward_mem_spawns hi (hp.kind_eq hmem hin) hstmt hlive hcopy hmap
    refine h.holdsNode_child (Analysis.exists_child_of_return hspawn ?_ hprocessed hload hj
      (hp.kind_eq (Analysis.mem_bodies_of_bodyOf? hload) hj) hret)
    rw [hsignedDown, hcriterion]
    exact hdepth
  · intro hkind i lhs rhs field hi hstmt hfield henum hloaded m body hm hother j hj target value
      hstore htarget
    have hspawn : .fieldWriters field ∈ walk.spawns := by
      rw [hofCriterion]
      exact Walk.fieldWriters_mem_spawns hkind hi hstmt hfield
    exact h.holdsNode_child (Analysis.exists_child_of_store hspawn henum
      (Build.mem_writersOf hp hm hj hstore htarget hloaded) (by rwa [hcriterion])
      (Analysis.bodyOf?_of_provides hsigs.declared hm) hj hstore htarget)

def takeName : MethodSig := ⟨"a.B", .void, "take", [.string]⟩

def giveName : MethodSig := ⟨"a.B", .void, "give", []⟩

def useName : MethodSig := ⟨"a.C", .void, "use", [.string]⟩

def takeNameBody (n : Nat) : List Stmt :=
  [.identity ⟨"r0", .string⟩ (.parameter n .string),
   .invoke ⟨.static, none, useName, [.loc ⟨"r0", .string⟩]⟩]

def giveNameCall : Call := ⟨.static, none, takeName, [.loc ⟨"r1", .string⟩]⟩

/-- A method that uses its parameter of the given number, and a method that calls it. -/
def passedName (n : Nat) : Program :=
  Program.empty.addClass <| .ofMembers "a.B" none false []
    [⟨takeName, some (takeNameBody n)⟩, ⟨giveName, some [.invoke giveNameCall]⟩]

theorem bodies_passedName (n : Nat) : (passedName n).bodies =
    (Table.empty.insert takeName.text (.ofStmts takeName.text (takeNameBody n))).insert
      giveName.text (.ofStmts giveName.text [.invoke giveNameCall]) := rfl

theorem body_passedName (n : Nat) :
    (passedName n).body takeName = .ok (.ofStmts takeName.text (takeNameBody n)) ∧
      (passedName n).body giveName = .ok (.ofStmts giveName.text [.invoke giveNameCall]) := by
  have hne : takeName.text ≠ giveName.text := by decide
  have hload {m : MethodSig} {body : Body} (hcls : m.cls = "a.B")
      (hget : (passedName n).bodies.get? m.text = some body) :
      (passedName n).body m = .ok body := by
    have hfault : (passedName n).faults.get? m.text = none := rfl
    have hclass : ∃ c, (passedName n).class? "a.B" = some c ∧ c.isPhantom = false := ⟨_, rfl, rfl⟩
    obtain ⟨c, hc, hloaded⟩ := hclass
    simp [Program.body, hfault, Program.lookup, hcls, hc, hloaded, hget]
  constructor
  · refine hload rfl ?_
    rw [bodies_passedName, Table.get?_insert, if_neg hne, Table.get?_insert, if_pos rfl]
  · refine hload rfl ?_
    rw [bodies_passedName, Table.get?_insert, if_pos rfl]

theorem parse_takeName : MethodSig.parse takeName.text = .ok takeName := by decide +kernel

theorem parse_giveName : MethodSig.parse giveName.text = .ok giveName := by decide +kernel

theorem bodyOf_passedName (n : Nat) :
    (passedName n).bodyOf takeName.text = .ok (.ofStmts takeName.text (takeNameBody n)) ∧
      (passedName n).bodyOf giveName.text =
        .ok (.ofStmts giveName.text [.invoke giveNameCall]) := by
  rw [Program.bodyOf_text parse_takeName, Program.bodyOf_text parse_giveName]
  exact body_passedName n

theorem readsBack_passedName (n : Nat) : (passedName n).ReadsBack := by
  have huse : MethodSig.parse useName.text = .ok useName := by decide +kernel
  constructor
  · intro c hc m hm
    rw [List.mem_singleton.1 hc] at hm
    rcases List.mem_cons.1 hm with rfl | hm
    · exact parse_takeName
    · rw [List.mem_singleton.1 hm]
      exact parse_giveName
  · intro body hbody i hi call hcall
    rw [bodies_passedName] at hbody
    obtain ⟨e, he, rfl⟩ := List.mem_map.1 hbody
    rcases Table.mem_entries_insert.1 he with rfl | ⟨he, -⟩
    · rw [List.mem_singleton.1 hi] at hcall
      cases hcall
      exact parse_takeName
    · rw [List.mem_singleton.1 he] at hi
      rcases List.mem_cons.1 hi with rfl | hi
      · cases hcall
      · rw [List.mem_singleton.1 hi] at hcall
        cases hcall
        exact huse

theorem provides_passedName (n : Nat) :
    (passedName n).Provides ⟨[]⟩ takeName (.ofStmts takeName.text (takeNameBody n)) ∧
      (passedName n).Provides ⟨[]⟩ giveName (.ofStmts giveName.text [.invoke giveNameCall]) :=
  ⟨⟨_, List.mem_cons_self, rfl, List.mem_cons_self, (body_passedName n).1⟩,
    ⟨_, List.mem_cons_self, rfl, List.mem_cons_of_mem _ List.mem_cons_self, (body_passedName n).2⟩⟩

def passing (n : Nat) : Analysis :=
  ⟨passedName n, .ofProgram ⟨[]⟩ (passedName n), .default⟩

def nameUsed : Criterion :=
  { caller := takeName.text, target := "use", kind := .invocation, index := 0
    live := Table.empty.insert "r0" "use#0" }

theorem ofCriterion_nameUsed (n : Nat) (k : ConstantTable) {b : Branches} (hb : b.backEdges = []) :
    (Walk.ofCriterion k nameUsed (.ofStmts takeName.text (takeNameBody n)) b).ordinals = [n] ∧
      (Walk.ofCriterion k nameUsed (.ofStmts takeName.text (takeNameBody n)) b).spawns = [] := by
  let w := (Walk.start nameUsed (.ofStmts takeName.text (takeNameBody n)) b).plantSeed k
  have hloop : w.takeLoop? 0 = none := by
    have hloops : w.loops = [] := hb
    simp [Walk.takeLoop?, hloops]
  have hrun : Walk.ofCriterion k nameUsed (.ofStmts takeName.text (takeNameBody n)) b =
      w.visitAt ⟨k, false⟩ 0 := by
    have hseed : w.seed = 0 + 1 := rfl
    simp only [Walk.ofCriterion]
    change w.run ⟨k, false⟩ w.seed = _
    rw [hseed, Walk.run_of_no_loop hloop, Walk.run]
  rw [hrun]
  have hvisit : w.visitAt ⟨k, false⟩ 0 = w.transfer ⟨k, false⟩ 0
      (.ofStmt takeName.text 0 (.identity ⟨"r0", .string⟩ (.parameter n .string))) := rfl
  have heffect : Effect.ofInstruction ⟨k, false⟩ w.live
      (.ofStmt takeName.text 0 (.identity ⟨"r0", .string⟩ (.parameter n .string))) =
        { retain := true, trigger? := some "r0", kill := ["r0"], ordinal? := some n } := rfl
  simp only [hvisit, Walk.transfer, heffect, if_true, Walk.apply]
  constructor
  · split <;> rfl
  · split <;> rfl

theorem walk?_nameUsed {n : Nat} (hloops : ((passing n).build.branchesFor takeName.text
      (.ofStmts takeName.text (takeNameBody n))).backEdges = []) :
    ∃ walk, (passing n).walk? nameUsed = some walk ∧ walk.ordinals = [n] ∧ walk.spawns = [] :=
  ⟨_, Analysis.walk?_of_bodyOf (c := nameUsed) (bodyOf_passedName n).1 Nat.zero_lt_two,
    ofCriterion_nameUsed n _ hloops⟩

def nameGiven : Criterion :=
  { caller := giveName.text, target := takeName.text, kind := .invocation, index := 0
    positions := [0], live := Table.empty.insert "r1" (takeName.text ++ "#0"), depth := 1
    group? := some nameUsed.id }

theorem children_nameUsed {n : Nat} (hloops : ((passing n).build.branchesFor takeName.text
      (.ofStmts takeName.text (takeNameBody n))).backEdges = [])
    (hsites : (passing n).callSites
      { (default : Walk) with criterion := nameUsed, ordinals := [n] } = [nameGiven])
    {w : Walk} (hw : (passing n).walk? nameUsed = some w) :
    (passing n).children w = [nameGiven] := by
  obtain ⟨walk, hwalk, hordinals, hspawns⟩ := walk?_nameUsed hloops
  rw [hw] at hwalk
  cases hwalk
  have hsame : (passing n).callSites w = [nameGiven] := by
    rw [← hsites]
    simp only [Analysis.callSites, Analysis.criterion_of_walk? hw, hordinals]
  rw [Analysis.children, hspawns, List.flatMap_nil, List.nil_append, hsame]

theorem children_nameGiven {n : Nat} {w : Walk} (hw : (passing n).walk? nameGiven = some w) :
    (passing n).children w = [] := by
  have hwalk := Analysis.walk?_of_bodyOf (a := passing n) (c := nameGiven) (bodyOf_passedName n).2
    Nat.zero_lt_one
  rw [hw, Walk.ofCriterion_of_first rfl] at hwalk
  cases hwalk
  have hspawns : (Walk.plantSeed (passing n).build.constants (.start nameGiven
    (.ofStmts giveName.text [.invoke giveNameCall])
    ((passing n).build.branchesFor nameGiven.caller
      (.ofStmts giveName.text [.invoke giveNameCall])))).spawns = [] := rfl
  have hordinals : (Walk.plantSeed (passing n).build.constants (.start nameGiven
    (.ofStmts giveName.text [.invoke giveNameCall])
    ((passing n).build.branchesFor nameGiven.caller
      (.ofStmts giveName.text [.invoke giveNameCall])))).ordinals = [] := rfl
  simp [Analysis.children, Analysis.callSites, hspawns, hordinals]

theorem nameGiven_ne_nameUsed : nameGiven.id ≠ nameUsed.id := by decide +kernel

/-- The slice of the root lists the slice of the call. -/
theorem run_nameUsed {n : Nat} (hloops : ((passing n).build.branchesFor takeName.text
      (.ofStmts takeName.text (takeNameBody n))).backEdges = [])
    (hsites : (passing n).callSites
      { (default : Walk) with criterion := nameUsed, ordinals := [n] } = [nameGiven]) :
    ∃ used given : Record,
      (run (passing n) ⟨[nameUsed], .ofRecords [], {}⟩).store = .ofRecords [used, given] ∧
      (∀ r ∈ [used, given], r.Fits) ∧
      (used.nodeId? = some nameUsed.id ∧ used.related = [nameGiven.id]) ∧
      given.nodeId? = some nameGiven.id ∧ given.related = [] ∧ given.group = nameUsed.id := by
  obtain ⟨used, hused, -⟩ := walk?_nameUsed hloops
  have hchildren := children_nameUsed hloops hsites hused
  obtain ⟨given, hgiven⟩ : ∃ given, (passing n).walk? nameGiven = some given :=
    ⟨_, Analysis.walk?_of_bodyOf (bodyOf_passedName n).2 Nat.zero_lt_one⟩
  have hnone := children_nameGiven hgiven
  have husedCriterion := Analysis.criterion_of_walk? hused
  have hgivenCriterion := Analysis.criterion_of_walk? hgiven
  obtain ⟨stats, hfirst⟩ := run_of_new hused [] [] List.not_mem_nil {}
  obtain ⟨stats', hsecond⟩ := run_of_new hgiven []
    [used.toRecord nameUsed.id [nameGiven.id]]
    (by simp [Record.ids, Walk.toRecord, nameGiven_ne_nameUsed]) stats
  refine ⟨used.toRecord nameUsed.id [nameGiven.id], given.toRecord nameGiven.id [], ?_, ?_,
    ⟨rfl, rfl⟩, rfl, rfl, congrArg Criterion.rootId hgivenCriterion⟩
  · rw [hfirst, hchildren]
    change (run (passing n) ⟨[nameGiven], .ofRecords [used.toRecord nameUsed.id [nameGiven.id]],
      stats⟩).store = _
    rw [hsecond, hnone, run]
    rfl
  · intro r hr
    rcases List.mem_pair.1 hr with rfl | rfl
    · rw [Record.Fits, Walk.toRecord, husedCriterion]
      exact (by decide : ∀ p ∈ nameUsed.positions, Call.IsPosition p)
    · rw [Record.Fits, Walk.toRecord, hgivenCriterion]
      exact (by decide : ∀ p ∈ nameGiven.positions, Call.IsPosition p)

theorem passed_name_is_continued :
    (passedName 0).Assembled ∧ (passedName 0).ReadsBack ∧ Config.default.validate = .ok () ∧
    ∃ walk, Slices (passing 0) ⟨[nameUsed], .ofRecords [], {}⟩ nameUsed walk ∧
      (run (passing 0) ⟨[nameUsed], .ofRecords [], {}⟩).store.HoldsNode
        (Criterion.idOf giveName.text takeName.text 0 ["r1"]) := by
  refine ⟨.addClass .empty _, readsBack_passedName 0, rfl, ?_⟩
  obtain ⟨walk, hwalk, hordinals, -⟩ := walk?_nameUsed (n := 0) (by decide +kernel)
  have hslices : Slices (passing 0) ⟨[nameUsed], .ofRecords [], {}⟩ nameUsed walk :=
    ⟨_, [], .refl, rfl, rfl, hwalk⟩
  have hcontinued := sliced_is_continued (passedName 0) ⟨[]⟩ .default (.addClass .empty _)
    (readsBack_passedName 0) rfl _ _ _ _ _ hslices
  have hup := hcontinued.1.up (by decide) (by simp [hordinals]) _ _ (provides_passedName 0).2 _
    List.mem_cons_self giveNameCall rfl rfl
  rw [hordinals] at hup
  exact ⟨walk, hslices, hup⟩

/-- A parameter with the number `2 ^ 32` has no argument, and yet the first argument of the calls is
followed in its place. -/
theorem wide_parameter_follows_other_argument :
    (passedName 0x100000000).Assembled ∧ (passedName 0x100000000).ReadsBack ∧
    Config.default.validate = .ok () ∧
    ∃ walk body i, Slices (passing 0x100000000) ⟨[nameUsed], .ofRecords [], {}⟩ nameUsed walk ∧
      nameUsed.depth < Config.default.maxUpwardDepth ∧ walk.ordinals = [0x100000000] ∧
      (passedName 0x100000000).Provides ⟨[]⟩ giveName body ∧ i ∈ body ∧
      i.stmt.call? = some giveNameCall ∧ giveNameCall.method.text = nameUsed.caller ∧
      giveNameCall.localArgs walk.ordinals = [] ∧
      ¬ (run (passing 0x100000000) ⟨[nameUsed], .ofRecords [], {}⟩).store.HoldsNode
        (Criterion.idOf giveName.text nameUsed.caller (body.length - 1 - i.index)
          (giveNameCall.localArgs walk.ordinals)) := by
  obtain ⟨walk, hwalk, hordinals, -⟩ := walk?_nameUsed (n := 0x100000000) (by decide +kernel)
  have hargs : giveNameCall.localArgs walk.ordinals = [] := by
    rw [hordinals]
    rfl
  refine ⟨.addClass .empty _, readsBack_passedName _, rfl, walk, _, _,
    ⟨_, [], .refl, rfl, rfl, hwalk⟩, by decide, hordinals, (provides_passedName _).2,
    List.mem_cons_self, rfl, rfl, hargs, ?_⟩
  rw [hargs]
  rintro ⟨r, hid, hr⟩
  -- the number of the parameter comes to position 0, so there is a slice for the first argument
  obtain ⟨used, given, hstore, -, hused, hgiven, -⟩ := run_nameUsed (n := 0x100000000)
    (by decide +kernel) (by decide +kernel)
  have hother : ∀ c ∈ [nameUsed, nameGiven],
      c.id ≠ Criterion.idOf giveName.text takeName.text 0 [] := by decide +kernel
  rw [hstore] at hr
  rcases List.mem_pair.1 hr with heq | heq
  · rw [Record.nodeId?_eq_of_toJson heq, hused.1] at hid
    exact hother nameUsed (by simp) (Option.some.inj hid)
  · rw [Record.nodeId?_eq_of_toJson heq, hgiven] at hid
    exact hother nameGiven (by simp) (Option.some.inj hid)

end Worklist

end Backslice
