import Backslice.Proofs.Increments

namespace Backslice

theorem Stmt.call?_eq_some_iff {s : Stmt} {c : Call} :
    s.call? = some c ↔ s = .invoke c ∨ ∃ lhs, s = .assign lhs (.call c) := by
  constructor
  · intro h
    cases s with
    | invoke d =>
      cases h
      exact .inl rfl
    | assign lhs rhs =>
      cases rhs with
      | call d =>
        cases h
        exact .inr ⟨lhs, rfl⟩
      | _ => cases h
    | _ => cases h
  · rintro (rfl | ⟨lhs, rfl⟩) <;> rfl

def FieldDef.tags (d : FieldDef) (field : FieldSig) : Bool :=
  d.isStatic && d.isFinal && d.constant?.isSome &&
    d.sig.cls = field.cls && d.sig.text = field.text

namespace Program

variable {p : Program} {f : ClassFilter} {e : Edge}

def acceptedClasses (p : Program) (f : ClassFilter) : List ClassDef :=
  p.loadedClasses.filter f.accepts

/-- The calls, writes and reads that stand in the methods of the accepted classes. A field counts if
its class is there and is no phantom. -/
inductive HasEdge (p : Program) (f : ClassFilter) : Edge → Prop
  | call {m : MethodSig} {body : Body} {i : Instruction} {c : Call} (hm : p.Provides f m body)
    (hi : i ∈ body) (hstmt : i.stmt = .invoke c ∨ ∃ lhs, i.stmt = .assign lhs (.call c)) :
    HasEdge p f ⟨m.text, c.method.text, .calls⟩
  | write {m : MethodSig} {body : Body} {i : Instruction} {lhs rhs : Value} {field : FieldSig}
    {cls : ClassDef} (hm : p.Provides f m body) (hi : i ∈ body) (hstmt : i.stmt = .assign lhs rhs)
    (hfield : lhs.field? = some field) (hcls : p.class? field.cls = some cls)
    (hloaded : cls.isPhantom = false) : HasEdge p f ⟨m.text, field.text, .writes⟩
  | read {m : MethodSig} {body : Body} {i : Instruction} {lhs rhs : Value} {field : FieldSig}
    {cls : ClassDef} (hm : p.Provides f m body) (hi : i ∈ body) (hstmt : i.stmt = .assign lhs rhs)
    (hfield : rhs.field? = some field) (hcls : p.class? field.cls = some cls)
    (hloaded : cls.isPhantom = false) : HasEdge p f ⟨m.text, field.text, .reads⟩

theorem isLoaded_eq_true_iff {name : String} :
    p.isLoaded name = true ↔ ∃ c, p.class? name = some c ∧ c.isPhantom = false := by
  simp [isLoaded, Option.any_eq_true]

theorem Assembled.pairwise_acceptedClasses (hp : p.Assembled) :
    (p.acceptedClasses f).Pairwise fun c d => c.name < d.name := by
  refine List.Pairwise.filter _ (List.Pairwise.filter _ (List.pairwise_map.2 ?_))
  refine p.classes.sorted.imp_of_mem fun he he' hlt => ?_
  rw [hp.name_eq_key he, hp.name_eq_key he']
  exact hlt

theorem Assembled.mem_acceptedClasses (hp : p.Assembled) {c : ClassDef} :
    c ∈ p.acceptedClasses f ↔
      p.class? c.name = some c ∧ c.isPhantom = false ∧ f.excludes c.name = false := by
  rw [acceptedClasses, List.mem_filter, hp.mem_loadedClasses, and_assoc]
  refine and_congr_right fun _ => and_congr_right fun hloaded => ?_
  simp [ClassFilter.accepts, hloaded]

end Program

namespace Build

variable {p : Program} {f : ClassFilter} {b : Build} {e : Edge}

theorem mem_edges_iff (hp : p.Assembled) :
    e ∈ (ofProgram f p).graph.edges ↔ p.HasEdge f e := by
  rw [CallGraph.mem_edges, mem_links_ofProgram hp]
  constructor
  · rintro ⟨m, body, hm, i, hi, he⟩
    rcases mem_edgesOf_iff.1 he with ⟨c, hc, rfl⟩ | ⟨lhs, rhs, field, hstmt, hfield, hloaded, rfl⟩ |
      ⟨lhs, rhs, field, hstmt, hfield, hloaded, rfl⟩
    · exact .call hm hi (Stmt.call?_eq_some_iff.1 hc)
    · obtain ⟨cls, hcls, hloaded⟩ := Program.isLoaded_eq_true_iff.1 hloaded
      exact .write hm hi hstmt hfield hcls hloaded
    · obtain ⟨cls, hcls, hloaded⟩ := Program.isLoaded_eq_true_iff.1 hloaded
      exact .read hm hi hstmt hfield hcls hloaded
  · intro he
    cases he with
    | call hm hi hstmt =>
      exact ⟨_, _, hm, _, hi, mem_edgesOf_iff.2 (.inl ⟨_, Stmt.call?_eq_some_iff.2 hstmt, rfl⟩)⟩
    | write hm hi hstmt hfield hcls hloaded =>
      have hloads := Program.isLoaded_eq_true_iff.2 ⟨_, hcls, hloaded⟩
      exact ⟨_, _, hm, _, hi,
        mem_edgesOf_iff.2 (.inr (.inl ⟨_, _, _, hstmt, hfield, hloads, rfl⟩))⟩
    | read hm hi hstmt hfield hcls hloaded =>
      have hloads := Program.isLoaded_eq_true_iff.2 ⟨_, hcls, hloaded⟩
      exact ⟨_, _, hm, _, hi,
        mem_edgesOf_iff.2 (.inr (.inr ⟨_, _, _, hstmt, hfield, hloads, rfl⟩))⟩

theorem field?_addConstant (t : ConstantTable) (d : FieldDef) (field : FieldSig) :
    (addConstant t d).field? field =
      (t.field? field).or (if d.tags field then d.constant? else none) := by
  unfold addConstant
  split
  · rename_i value hvalue
    change (t.record d.sig value).at? field.cls field.text = _
    rw [ConstantTable.at?_record]
    change (t.field? field).or _ = _
    unfold FieldDef.staticFinal? at hvalue
    split at hvalue
    · rename_i hfinal
      simp only [Bool.and_eq_true] at hfinal
      simp [FieldDef.tags, hfinal, hvalue]
    · cases hvalue
  · rename_i hnone
    have hno : (if d.tags field then d.constant? else none) = none := by
      unfold FieldDef.staticFinal? at hnone
      unfold FieldDef.tags
      cases hc : d.constant? <;> simp_all
    rw [hno, Option.or_none]

/-- Of all declarations that give a field a constant, the first counts. -/
theorem field?_addConstants (t : ConstantTable) (ds : List FieldDef) (field : FieldSig) :
    (ds.foldl addConstant t).field? field =
      (t.field? field).or ((ds.find? (·.tags field)).bind (·.constant?)) := by
  induction ds generalizing t with
  | nil => simp
  | cons d ds ih =>
    rw [List.foldl_cons, ih, field?_addConstant, Option.or_assoc, List.find?_cons]
    cases htags : d.tags field with
    | false => simp
    | true =>
      have hsome : d.constant?.isSome = true := by
        simp only [FieldDef.tags, Bool.and_eq_true] at htags
        exact htags.1.1.2
      simp [Option.or_of_isSome hsome]

theorem constants_addClass (c : ClassDef) :
    (addClass p b c).constants = c.fields.foldl addConstant b.constants := by
  have hmethods (ms : List MethodSig) (b : Build) :
      (ms.foldl (addMethod p) b).constants = b.constants := by
    induction ms generalizing b with
    | nil => rfl
    | cons m ms ih =>
      rw [List.foldl_cons, ih, addMethod]
      split <;> rfl
  simp only [addClass, hmethods]

theorem constants_takeIns {cs : List ClassDef} (hnames : (cs.map (·.name)).Nodup)
    (hnew : ∀ c ∈ cs, c.name ∉ b.processed) :
    (cs.foldl (takeIn f p) b).constants =
      ((cs.filter f.accepts).flatMap (·.fields)).foldl addConstant b.constants := by
  induction cs generalizing b with
  | nil => rfl
  | cons c cs ih =>
    obtain ⟨hfresh, hnames⟩ := List.nodup_cons.1 hnames
    have hrest : ∀ d ∈ cs, d.name ∉ (takeIn f p b c).processed := by
      intro d hd hmem
      rcases mem_processed_takeIn.1 hmem with hmem | ⟨-, heq⟩
      · exact hnew d (List.mem_cons_of_mem _ hd) hmem
      · exact hfresh (List.mem_map.2 ⟨d, hd, heq.symm⟩)
    rw [List.foldl_cons, ih hnames hrest]
    have hprocessed := hnew c List.mem_cons_self
    cases haccepts : f.accepts c with
    | false => simp [takeIn, haccepts]
    | true => simp [takeIn, isProcessed, haccepts, hprocessed, constants_addClass]

theorem constants_ofProgram (hp : p.Assembled) :
    (ofProgram f p).constants =
      ((p.acceptedClasses f).flatMap (·.fields)).foldl addConstant .empty :=
  constants_takeIns hp.nodup_names fun _ _ => List.not_mem_nil

/-- A build knows the code of a program exactly. Its edges are the calls, writes and reads in the
methods of the accepted classes, in strict order; these classes are the processed ones; and the
constant of a field is that of its first tagged declaration in them. -/
theorem ofProgram_is_exact (p : Program) (f : ClassFilter) (hp : p.Assembled) :
    ((ofProgram f p).graph.edges.Pairwise (fun a b => a.before b = true) ∧
      ∀ e, e ∈ (ofProgram f p).graph.edges ↔ p.HasEdge f e) ∧
    ((p.acceptedClasses f).Pairwise (fun c d => c.name < d.name) ∧
      ∀ c, c ∈ p.acceptedClasses f ↔
        p.class? c.name = some c ∧ c.isPhantom = false ∧ f.excludes c.name = false) ∧
    (∀ name, (ofProgram f p).isProcessed name = true ↔
      ∃ c ∈ p.acceptedClasses f, c.name = name) ∧
    ∀ field, (ofProgram f p).constants.field? field =
      (((p.acceptedClasses f).flatMap (·.fields)).find? (·.tags field)).bind (·.constant?) := by
  refine ⟨⟨(ofProgram f p).inStep.pairwise_edges, fun e => mem_edges_iff hp⟩,
    ⟨hp.pairwise_acceptedClasses, fun c => hp.mem_acceptedClasses⟩, ?_, ?_⟩
  · intro name
    rw [isProcessed, decide_eq_true_eq, mem_processed_ofProgram]
    simp only [Program.acceptedClasses, List.mem_filter, and_assoc]
  · intro field
    rw [constants_ofProgram hp, field?_addConstants]
    rfl

/-- A field that two classes tag, its own class first, and a class of which only the name is
known. -/
def keyTaggedTwice : Program :=
  let own : ClassSource :=
    .ofMembers "b.C" none false [.plain keyField, .constant keyField (.str "AES")] []
  let other : ClassSource := .ofMembers "c.D" none false [.constant keyField (.str "DES")] []
  ((keyRead.addClass own).addClass other).addPhantom "d.E"

theorem ofProgram_is_exact_keyTaggedTwice :
    keyTaggedTwice.Assembled ∧
    keyTaggedTwice.HasEdge ⟨["b."]⟩ ⟨readKey.text, keyField.text, .reads⟩ ∧
    (ofProgram ⟨[]⟩ keyTaggedTwice).constants.field? keyField = some (.str "AES") ∧
    (ofProgram ⟨["b."]⟩ keyTaggedTwice).constants.field? keyField = some (.str "DES") := by
  have hp : keyTaggedTwice.Assembled :=
    .addPhantom (.addClass (.addClass (.addClass .empty _) _) _) _
  have hall := ofProgram_is_exact keyTaggedTwice ⟨[]⟩ hp
  have hsome := ofProgram_is_exact keyTaggedTwice ⟨["b."]⟩ hp
  have hread := (hsome.1.2 ⟨readKey.text, keyField.text, .reads⟩).1
    (CallGraph.mem_edges.2 (by decide +kernel))
  exact ⟨hp, hread, (hall.2.2.2 keyField).trans (by decide +kernel),
    (hsome.2.2.2 keyField).trans (by decide +kernel)⟩

end Build

end Backslice
