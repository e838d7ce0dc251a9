import Backslice.Proofs.Refreshing

namespace Backslice

namespace ClassSource

def Named (cs : List ClassSource) (name : String) : Prop := ∃ c ∈ cs, c.cls.name = name

def Bodied (cs : List ClassSource) (text : String) : Prop :=
  ∃ c ∈ cs, ∃ m ∈ c.bodies, m.1.text = text

def OwnsMembers (c : ClassSource) : Prop :=
  (∀ m ∈ c.cls.methods, m.sig.cls = c.cls.name) ∧ (∀ m ∈ c.bodies, m.1.cls = c.cls.name) ∧
    ∀ field ∈ c.cls.fields, field.sig.cls = c.cls.name

instance (c : ClassSource) : Decidable c.OwnsMembers :=
  inferInstanceAs (Decidable (_ ∧ _ ∧ _))

end ClassSource

namespace Program

variable {p : Program} {f : ClassFilter} {cs : List ClassSource}

theorem Assembled.mem_loadedClasses (hp : p.Assembled) {c : ClassDef} :
    c ∈ p.loadedClasses ↔ p.class? c.name = some c ∧ c.isPhantom = false := by
  rw [loadedClasses, List.mem_filter, Bool.not_eq_true', class?, Table.get?_eq_some_iff]
  refine and_congr_left fun _ => ⟨fun hc => ?_, fun he => List.mem_map.2 ⟨_, he, rfl⟩⟩
  obtain ⟨e, he, rfl⟩ := List.mem_map.1 hc
  rw [hp.name_eq_key he]
  exact he

/-- Whether a class that the filter accepts declares the method as concrete. -/
def Declares (p : Program) (f : ClassFilter) (m : MethodSig) : Prop :=
  ∃ c ∈ p.loadedClasses, f.accepts c = true ∧ m ∈ c.concreteMethods

def addClasses (p : Program) (cs : List ClassSource) : Program := cs.foldl addClass p

theorem Assembled.addClasses (hp : p.Assembled) : (p.addClasses cs).Assembled := by
  unfold Program.addClasses
  induction cs generalizing p with
  | nil => exact hp
  | cons c cs ih => exact ih (hp.addClass c)

theorem faults_addClasses (p : Program) (cs : List ClassSource) :
    (p.addClasses cs).faults = p.faults := by
  unfold addClasses
  induction cs generalizing p with
  | nil => rfl
  | cons c cs ih => exact ih (p.addClass c)

theorem class?_addClasses {name : String} (h : ¬ ClassSource.Named cs name) :
    (p.addClasses cs).class? name = p.class? name := by
  unfold addClasses
  induction cs generalizing p with
  | nil => rfl
  | cons c cs ih =>
    rw [List.foldl_cons, ih fun ⟨d, hd, hname⟩ => h ⟨d, List.mem_cons_of_mem _ hd, hname⟩]
    have hne : name ≠ c.cls.name := fun heq => h ⟨c, List.mem_cons_self, heq.symm⟩
    rw [class?, addClass, Table.get?_insert, if_neg hne, class?]

theorem get?_addBodies {bodies : Table String Body} {ms : List (MethodSig × List Stmt)}
    {text : String} (h : ∀ m ∈ ms, m.1.text ≠ text) :
    (ms.foldl addBody bodies).get? text = bodies.get? text := by
  induction ms generalizing bodies with
  | nil => rfl
  | cons m ms ih =>
    rw [List.foldl_cons, ih fun m' hm' => h m' (List.mem_cons_of_mem _ hm'), addBody,
      Table.get?_insert, if_neg (Ne.symm (h m List.mem_cons_self))]

theorem get?_bodies_addClasses {text : String} (h : ¬ ClassSource.Bodied cs text) :
    (p.addClasses cs).bodies.get? text = p.bodies.get? text := by
  unfold addClasses
  induction cs generalizing p with
  | nil => rfl
  | cons c cs ih =>
    rw [List.foldl_cons, ih fun ⟨d, hd, hbody⟩ => h ⟨d, List.mem_cons_of_mem _ hd, hbody⟩]
    exact get?_addBodies fun m hm htext => h ⟨c, List.mem_cons_self, m, hm, htext⟩

/-- A method that is not of the classes and gets no body from them has the body it had. -/
theorem body_addClasses {m : MethodSig} (hcls : ¬ ClassSource.Named cs m.cls)
    (htext : ¬ ClassSource.Bodied cs m.text) : (p.addClasses cs).body m = p.body m := by
  simp only [body, lookup, faults_addClasses, class?_addClasses hcls,
    get?_bodies_addClasses htext]

theorem isLoaded_addClasses {name : String} (h : ¬ ClassSource.Named cs name) :
    (p.addClasses cs).isLoaded name = p.isLoaded name := by
  rw [isLoaded, class?_addClasses h, isLoaded]

/-- Classes whose names are new leave those that were loaded as they are. -/
theorem Assembled.mem_loadedClasses_addClasses (hp : p.Assembled) {c : ClassDef}
    (h : ¬ ClassSource.Named cs c.name) :
    c ∈ (p.addClasses cs).loadedClasses ↔ c ∈ p.loadedClasses := by
  rw [hp.addClasses.mem_loadedClasses, hp.mem_loadedClasses, class?_addClasses h]

theorem Assembled.not_named_of_loaded (hp : p.Assembled)
    (hnew : ∀ c ∈ cs, p.class? c.cls.name = none) {c : ClassDef} (hc : c ∈ p.loadedClasses) :
    ¬ ClassSource.Named cs c.name := by
  rintro ⟨d, hd, hname⟩
  have hnone := hnew d hd
  rw [hname, (hp.mem_loadedClasses.1 hc).1] at hnone
  cases hnone

theorem class?_of_body {m : MethodSig} {body : Body} (h : p.body m = .ok body) :
    ∃ c, p.class? m.cls = some c := by
  unfold Program.body at h
  split at h
  · cases h
  · unfold lookup at h
    split at h
    · cases h
    · rename_i c hc
      exact ⟨c, hc⟩

/-- The edges from the code of a program that depend on whether the classes come before it is built
or after. -/
inductive Late (p : Program) (f : ClassFilter) (cs : List ClassSource) : Edge → Prop
  /-- A class of the program declares the method on one of the classes, so it loads only later. -/
  | unloaded {m : MethodSig} {e : Edge} (hm : p.Declares f m) (hcls : ClassSource.Named cs m.cls)
    (huses : (p.addClasses cs).Uses m e) : Late p f cs e
  /-- One of the classes has a method of the same text, and only one of the two bodies has the
  edge. -/
  | replaced {m : MethodSig} {e : Edge} (hm : p.Declares f m)
    (htext : ClassSource.Bodied cs m.text)
    (hdiffers : ¬ ((p.addClasses cs).Uses m e ↔ p.Uses m e)) : Late p f cs e
  | write {m : MethodSig} {body : Body} {i : Instruction} {lhs rhs : Value} {field : FieldSig}
    (hm : p.Declares f m) (hbody : (p.addClasses cs).body m = .ok body) (hi : i ∈ body)
    (hstmt : i.stmt = .assign lhs rhs) (hfield : lhs.field? = some field)
    (hcls : ClassSource.Named cs field.cls)
    (hloaded : (p.addClasses cs).isLoaded field.cls = true) :
    Late p f cs ⟨m.text, field.text, .writes⟩
  | read {m : MethodSig} {body : Body} {i : Instruction} {lhs rhs : Value} {field : FieldSig}
    (hm : p.Declares f m) (hbody : (p.addClasses cs).body m = .ok body) (hi : i ∈ body)
    (hstmt : i.stmt = .assign lhs rhs) (hfield : rhs.field? = some field)
    (hcls : ClassSource.Named cs field.cls)
    (hloaded : (p.addClasses cs).isLoaded field.cls = true) :
    Late p f cs ⟨m.text, field.text, .reads⟩

end Program

namespace Build

variable {p q : Program} {f : ClassFilter} {cs : List ClassSource} {e : Edge}

theorem mem_edgesOf_iff {method : String} {s : Stmt} :
    e ∈ edgesOf p method s ↔
      (∃ c, s.call? = some c ∧ e = ⟨method, c.method.text, .calls⟩) ∨
      (∃ lhs rhs field, s = .assign lhs rhs ∧ lhs.field? = some field ∧
        p.isLoaded field.cls = true ∧ e = ⟨method, field.text, .writes⟩) ∨
      ∃ lhs rhs field, s = .assign lhs rhs ∧ rhs.field? = some field ∧
        p.isLoaded field.cls = true ∧ e = ⟨method, field.text, .reads⟩ := by
  cases s <;> grind [edgesOf]

/-- A field that is loaded before the classes come is not one of theirs, and is loaded then too. -/
theorem isLoaded_addClasses_of_isLoaded (hnew : ∀ c ∈ cs, p.class? c.cls.name = none)
    {name : String} (h : p.isLoaded name = true) : (p.addClasses cs).isLoaded name = true := by
  rw [Program.isLoaded_addClasses, h]
  rintro ⟨c, hc, rfl⟩
  rw [Program.isLoaded, hnew c hc] at h
  cases h

theorem mem_edgesOf_addClasses (hnew : ∀ c ∈ cs, p.class? c.cls.name = none) {method : String}
    {s : Stmt} (h : e ∈ edgesOf p method s) : e ∈ edgesOf (p.addClasses cs) method s := by
  have hloads {name : String} (hname : p.isLoaded name = true) :=
    isLoaded_addClasses_of_isLoaded hnew hname
  rw [mem_edgesOf_iff] at h ⊢
  rcases h with hcall | ⟨lhs, rhs, field, hs, hfield, hloaded, he⟩ |
    ⟨lhs, rhs, field, hs, hfield, hloaded, he⟩
  · exact .inl hcall
  · exact .inr (.inl ⟨lhs, rhs, field, hs, hfield, hloads hloaded, he⟩)
  · exact .inr (.inr ⟨lhs, rhs, field, hs, hfield, hloads hloaded, he⟩)

/-- Code whose body stays the same has the same edges before and after classes are added, but for
the late ones. -/
theorem mem_edgesOf_of_not_late (he : ¬ p.Late f cs e) {m : MethodSig} (hm : p.Declares f m)
    {body : Body} (hbody : (p.addClasses cs).body m = .ok body) {i : Instruction} (hi : i ∈ body)
    (h : e ∈ edgesOf (p.addClasses cs) m.text i.stmt) : e ∈ edgesOf p m.text i.stmt := by
  have hloads {name : String} (hloaded : (p.addClasses cs).isLoaded name = true)
      (hcls : ¬ ClassSource.Named cs name) : p.isLoaded name = true := by
    rwa [Program.isLoaded_addClasses hcls] at hloaded
  rw [mem_edgesOf_iff] at h ⊢
  rcases h with hcall | ⟨lhs, rhs, field, hs, hfield, hloaded, rfl⟩ |
    ⟨lhs, rhs, field, hs, hfield, hloaded, rfl⟩
  · exact .inl hcall
  · have hcls : ¬ ClassSource.Named cs field.cls := fun hcls =>
      he (.write hm hbody hi hs hfield hcls hloaded)
    exact .inr (.inl ⟨lhs, rhs, field, hs, hfield, hloads hloaded hcls, rfl⟩)
  · have hcls : ¬ ClassSource.Named cs field.cls := fun hcls =>
      he (.read hm hbody hi hs hfield hcls hloaded)
    exact .inr (.inr ⟨lhs, rhs, field, hs, hfield, hloads hloaded hcls, rfl⟩)

/-- Code that is there already uses the same edges before and after classes are added, but for the
late ones. -/
theorem uses_addClasses (hnew : ∀ c ∈ cs, p.class? c.cls.name = none) (he : ¬ p.Late f cs e)
    {m : MethodSig} (hm : p.Declares f m) : (p.addClasses cs).Uses m e ↔ p.Uses m e := by
  by_cases htext : ClassSource.Bodied cs m.text
  · by_contra hdiffers
    exact he (.replaced hm htext hdiffers)
  · by_cases hcls : ClassSource.Named cs m.cls
    · refine ⟨fun huses => absurd (.unloaded hm hcls huses) he, ?_⟩
      -- a method on a class that is not there has no body yet
      rintro ⟨body, hbody, -⟩
      obtain ⟨c, hc, hname⟩ := hcls
      obtain ⟨d, hd⟩ := Program.class?_of_body hbody
      rw [← hname, hnew c hc] at hd
      cases hd
    · have hsame := Program.body_addClasses (p := p) hcls htext
      constructor
      · rintro ⟨body, hbody, i, hi, hmem⟩
        exact ⟨body, hsame ▸ hbody, i, hi, mem_edgesOf_of_not_late he hm hbody hi hmem⟩
      · rintro ⟨body, hbody, i, hi, hmem⟩
        exact ⟨body, hsame.trans hbody, i, hi, mem_edgesOf_addClasses hnew hmem⟩

theorem mem_processed_ofProgram {name : String} :
    name ∈ (ofProgram f p).processed ↔ ∃ c ∈ p.loadedClasses, f.accepts c = true ∧ c.name = name :=
  mem_processed_takeIns.trans (by simp [empty])

theorem mem_links_ofProgram_iff_uses (hp : p.Assembled) :
    e ∈ (ofProgram f p).graph.links ↔ ∃ m, p.Declares f m ∧ p.Uses m e := by
  rw [mem_links_ofProgram hp]
  constructor
  · rintro ⟨m, body, ⟨c, hc, haccepts, hm, hbody⟩, huses⟩
    exact ⟨m, ⟨c, hc, haccepts, hm⟩, body, hbody, huses⟩
  · rintro ⟨m, ⟨c, hc, haccepts, hm⟩, body, hbody, huses⟩
    exact ⟨m, body, ⟨c, hc, haccepts, hm, hbody⟩, huses⟩

/-- Builds a program, adds classes to it and takes them in. -/
def increment (f : ClassFilter) (p : Program) (cs : List ClassSource) : Build :=
  (ofProgram f p).extend f (p.addClasses cs)

/-- The edges of a whole build are those of the new classes and of the old code as it is now. -/
theorem mem_links_whole (hp : p.Assembled) (hnew : ∀ c ∈ cs, p.class? c.cls.name = none) :
    e ∈ (ofProgram f (p.addClasses cs)).graph.links ↔
      (∃ c ∈ (p.addClasses cs).loadedClasses, f.accepts c = true ∧
        c.name ∉ (ofProgram f p).processed ∧
          ∃ m ∈ c.concreteMethods, (p.addClasses cs).Uses m e) ∨
      ∃ m, p.Declares f m ∧ (p.addClasses cs).Uses m e := by
  rw [mem_links_ofProgram_iff_uses hp.addClasses]
  constructor
  · rintro ⟨m, ⟨c, hc, haccepts, hm⟩, huses⟩
    by_cases hold : c.name ∈ (ofProgram f p).processed
    · obtain ⟨d, hd, -, hname⟩ := mem_processed_ofProgram.1 hold
      have hcls : ¬ ClassSource.Named cs c.name := hname ▸ hp.not_named_of_loaded hnew hd
      exact .inr ⟨m, ⟨c, (hp.mem_loadedClasses_addClasses hcls).1 hc, haccepts, hm⟩, huses⟩
    · exact .inl ⟨c, hc, haccepts, hold, m, hm, huses⟩
  · rintro (⟨c, hc, haccepts, -, m, hm, huses⟩ | ⟨m, ⟨c, hc, haccepts, hm⟩, huses⟩)
    · exact ⟨m, ⟨c, hc, haccepts, hm⟩, huses⟩
    · have hcls := hp.not_named_of_loaded hnew hc
      exact ⟨m, ⟨c, (hp.mem_loadedClasses_addClasses hcls).2 hc, haccepts, hm⟩, huses⟩

theorem mem_links_increment (hp : p.Assembled) (hnew : ∀ c ∈ cs, p.class? c.cls.name = none)
    (he : ¬ p.Late f cs e) :
    e ∈ (increment f p cs).graph.links ↔ e ∈ (ofProgram f (p.addClasses cs)).graph.links := by
  rw [increment, mem_links_extend hp.addClasses, mem_links_ofProgram_iff_uses hp,
    mem_links_whole hp hnew]
  exact or_congr_right (exists_congr fun m =>
    and_congr_right fun hm => (uses_addClasses hnew he hm).symm)

theorem source_of_uses {m : MethodSig} (h : p.Uses m e) : e.source = m.text := by
  obtain ⟨body, -, i, -, hmem⟩ := h
  rcases mem_edgesOf_iff.1 hmem with ⟨_, -, rfl⟩ | ⟨_, _, _, -, -, -, rfl⟩ | ⟨_, _, _, -, -, -, rfl⟩
  all_goals rfl

/-- Unless a body is replaced, the late edges are edges of the program in the end. -/
theorem uses_of_late (h : p.Late f cs e)
    (hkept : ∀ m, p.Declares f m → ¬ ClassSource.Bodied cs m.text) :
    ∃ m, p.Declares f m ∧ (p.addClasses cs).Uses m e := by
  cases h with
  | unloaded hm _ huses => exact ⟨_, hm, huses⟩
  | replaced hm htext _ => exact absurd htext (hkept _ hm)
  | write hm hbody hi hstmt hfield _ hloaded =>
    exact ⟨_, hm, _, hbody, _, hi,
      mem_edgesOf_iff.2 (.inr (.inl ⟨_, _, _, hstmt, hfield, hloaded, rfl⟩))⟩
  | read hm hbody hi hstmt hfield _ hloaded =>
    exact ⟨_, hm, _, hbody, _, hi,
      mem_edgesOf_iff.2 (.inr (.inr ⟨_, _, _, hstmt, hfield, hloaded, rfl⟩))⟩

theorem links_increment_subset (hp : p.Assembled) (hnew : ∀ c ∈ cs, p.class? c.cls.name = none)
    (hkept : ∀ m, p.Declares f m → ¬ ClassSource.Bodied cs m.text) :
    (increment f p cs).graph.links ⊆ (ofProgram f (p.addClasses cs)).graph.links := by
  intro e he
  by_cases hlate : p.Late f cs e
  · exact (mem_links_whole hp hnew).2 (.inr (uses_of_late hlate hkept))
  · exact (mem_links_increment hp hnew hlate).1 he

theorem sources_increment (hp : p.Assembled) (hnew : ∀ c ∈ cs, p.class? c.cls.name = none)
    {kind : EdgeKind} {target : String} (h : ∀ source, ¬ p.Late f cs ⟨source, target, kind⟩) :
    (increment f p cs).graph.sources kind target =
      (ofProgram f (p.addClasses cs)).graph.sources kind target :=
  (increment f p cs).inStep.sources_congr (ofProgram f (p.addClasses cs)).inStep
    fun source => mem_links_increment hp hnew (h source)

/-- Classes whose names are new may be taken in later: the build that was there when they came has
the same edges in the end as one of the whole program, but for the late ones. So the callers of a
method and the readers and writers of a field are the same unless one of them is late, and all
edges are the same if no code refers to classes that come later. Unless a body is replaced, late
edges are only missed. -/
theorem increment_agrees_unless_late (p : Program) (f : ClassFilter) (cs : List ClassSource)
    (hp : p.Assembled) (hnew : ∀ c ∈ cs, p.class? c.cls.name = none) :
    let later := (increment f p cs).graph
    let whole := (ofProgram f (p.addClasses cs)).graph
    (∀ e, ¬ p.Late f cs e → (e ∈ later.edges ↔ e ∈ whole.edges)) ∧
    ((∀ e, ¬ p.Late f cs e) → later.edges = whole.edges) ∧
    (∀ id, (∀ source, ¬ p.Late f cs ⟨source, id, .calls⟩) →
      later.callersOf id = whole.callersOf id) ∧
    (∀ id, (∀ source, ¬ p.Late f cs ⟨source, id, .reads⟩) →
      later.readersOf id = whole.readersOf id) ∧
    (∀ id, (∀ source, ¬ p.Late f cs ⟨source, id, .writes⟩) →
      later.writersOf id = whole.writersOf id) ∧
    ((∀ m, p.Declares f m → ¬ ClassSource.Bodied cs m.text) → later.edges ⊆ whole.edges) := by
  intro later whole
  refine ⟨fun e he => ?_, fun hnone => ?_, fun _ => sources_increment hp hnew,
    fun _ => sources_increment hp hnew, fun _ => sources_increment hp hnew, fun hkept e he => ?_⟩
  · rw [CallGraph.mem_edges, CallGraph.mem_edges]
    exact mem_links_increment hp hnew he
  · exact (increment f p cs).inStep.edges_congr (ofProgram f (p.addClasses cs)).inStep fun e =>
      mem_links_increment hp hnew (hnone e)
  · rw [CallGraph.mem_edges] at he ⊢
    exact links_increment_subset hp hnew hkept he

def keyField : FieldSig := ⟨"b.C", .ref "java.lang.String", "KEY"⟩

def readKey : MethodSig := ⟨"a.B", .void, "m", []⟩

/-- A method that reads a field of a class that is not there. -/
def keyRead : Program :=
  Program.empty.addClass <| .ofMembers "a.B" none false []
    [⟨readKey, some [.assign (.loc ⟨"r1", .ref "java.lang.String"⟩) (.staticField keyField)]⟩]

def keyHolder : ClassSource :=
  .ofMembers "b.C" none false [.plain keyField]
    [⟨⟨"b.C", .void, "n", []⟩, some [.invoke ⟨.static, none, readKey, []⟩]⟩]

def callOf (name : String) : List Stmt := [.invoke ⟨.static, none, ⟨"a.D", .void, name, []⟩, []⟩]

def strayCall : MethodSig := ⟨"b.C", .void, "m", []⟩

def strayMethod : Program :=
  Program.empty.addClass <| .ofMembers "a.B" none false [] [⟨strayCall, some (callOf "use")⟩]

/-- Of the edges of the whole program, the call in the method is late and the other one is not. -/
theorem late_strayMethod {e : Edge} (h : strayMethod.Late ⟨[]⟩ [keyHolder] e) :
    e = ⟨strayCall.text, "<a.D: void use()>", .calls⟩ := by
  have hdeclares {m : MethodSig} (hm : strayMethod.Declares ⟨[]⟩ m) : m = strayCall := by
    obtain ⟨c, hc, -, hm⟩ := hm
    obtain rfl := List.mem_singleton.1 hc
    exact List.mem_singleton.1 hm
  have hkept : ∀ m, strayMethod.Declares ⟨[]⟩ m → ¬ ClassSource.Bodied [keyHolder] m.text := by
    rintro m hm ⟨c, hc, n, hbody, htext⟩
    obtain rfl := List.mem_singleton.1 hc
    obtain rfl := List.mem_singleton.1 hbody
    rw [hdeclares hm] at htext
    exact absurd htext (by decide +kernel)
  have hlinks : (ofProgram ⟨[]⟩ (strayMethod.addClasses [keyHolder])).graph.links =
      [⟨strayCall.text, "<a.D: void use()>", .calls⟩,
        ⟨"<b.C: void n()>", readKey.text, .calls⟩] := by decide +kernel
  obtain ⟨m, hm, huses⟩ := uses_of_late h hkept
  have hp : strayMethod.Assembled := .addClass .empty _
  have hwhole := (mem_links_whole hp (by decide +kernel)).2 (.inr ⟨m, hm, huses⟩)
  rw [hlinks] at hwhole
  rcases List.mem_pair.1 hwhole with rfl | rfl
  · rfl
  · have hsource := source_of_uses huses
    rw [hdeclares hm] at hsource
    exact absurd hsource (by decide +kernel)

theorem increment_agrees_unless_late_strayMethod :
    strayMethod.Assembled ∧ (∀ c ∈ [keyHolder], strayMethod.class? c.cls.name = none) ∧
    (∀ id, id ≠ "<a.D: void use()>" →
      (increment ⟨[]⟩ strayMethod [keyHolder]).graph.callersOf id =
        (ofProgram ⟨[]⟩ (strayMethod.addClasses [keyHolder])).graph.callersOf id) ∧
    ∀ id, (increment ⟨[]⟩ strayMethod [keyHolder]).graph.readersOf id =
        (ofProgram ⟨[]⟩ (strayMethod.addClasses [keyHolder])).graph.readersOf id ∧
      (increment ⟨[]⟩ strayMethod [keyHolder]).graph.writersOf id =
        (ofProgram ⟨[]⟩ (strayMethod.addClasses [keyHolder])).graph.writersOf id := by
  have hp : strayMethod.Assembled := .addClass .empty _
  have hnew : ∀ c ∈ [keyHolder], strayMethod.class? c.cls.name = none := by decide +kernel
  have hagrees := increment_agrees_unless_late strayMethod ⟨[]⟩ [keyHolder] hp hnew
  refine ⟨hp, hnew, fun id hid => ?_, fun id => ⟨?_, ?_⟩⟩
  · refine hagrees.2.2.1 id fun source hlate => ?_
    exact hid (congrArg Edge.target (late_strayMethod hlate))
  · refine hagrees.2.2.2.1 id fun source hlate => ?_
    cases congrArg Edge.kind (late_strayMethod hlate)
  · refine hagrees.2.2.2.2.1 id fun source hlate => ?_
    cases congrArg Edge.kind (late_strayMethod hlate)

/-- Classes whose methods may have the same text, as a class name and a type make it up. -/
def withText (cls ret name : String) : ClassSource :=
  .ofMembers cls none false [] [⟨⟨cls, .ref ret, "m", []⟩, some (callOf name)⟩]

def sameText : Program := Program.empty.addClass (withText "a" "b: T" "old")

/-- Each kind of late edge makes a difference. A field of a class that comes later has no reader, a
method that is declared on such a class calls nothing, and a method whose text is that of another
one by then still calls what it called. -/
theorem late_references_are_missed :
    (keyRead.class? "b.C" = none ∧ strayMethod.class? "b.C" = none ∧ keyHolder.OwnsMembers ∧
      sameText.class? "a: b" = none ∧ (withText "a: b" "T" "new").OwnsMembers) ∧
    ((increment ⟨[]⟩ keyRead [keyHolder]).graph.readersOf keyField.text = [] ∧
      (ofProgram ⟨[]⟩ (keyRead.addClasses [keyHolder])).graph.readersOf keyField.text =
        ["<a.B: void m()>"]) ∧
    ((increment ⟨[]⟩ strayMethod [keyHolder]).graph.callersOf "<a.D: void use()>" = [] ∧
      (ofProgram ⟨[]⟩ (strayMethod.addClasses [keyHolder])).graph.callersOf "<a.D: void use()>" =
        ["<b.C: void m()>"]) ∧
    ((increment ⟨[]⟩ sameText [withText "a: b" "T" "new"]).graph.callersOf "<a.D: void old()>" =
        ["<a: b: T m()>"] ∧
      (ofProgram ⟨[]⟩ (sameText.addClasses [withText "a: b" "T" "new"])).graph.callersOf
        "<a.D: void old()>" = []) := by
  decide +kernel

end Build

end Backslice
