import Mathlib.Data.List.Basic
import Backslice.CallGraph.Build
import Backslice.Proofs.Table

namespace Backslice

namespace Program

/-- Whether a program is put together class by class. Any method of it may have a fault. -/
inductive Assembled : Program → Prop
  | empty : Assembled .empty
  | addClass {p : Program} (h : Assembled p) (c : ClassSource) : Assembled (p.addClass c)
  | addPhantom {p : Program} (h : Assembled p) (name : String) : Assembled (p.addPhantom name)
  | withFaults {p : Program} (h : Assembled p) (faults : Table String (Option String)) :
    Assembled { p with faults }

namespace Assembled

variable {p : Program}

theorem name_eq_key (h : p.Assembled) {e : String × ClassDef} (he : e ∈ p.classes.entries) :
    e.2.name = e.1 := by
  induction h with
  | empty => cases he
  | addClass _ c ih =>
    rcases Table.mem_entries_insert.1 he with rfl | ⟨he, -⟩
    · rfl
    · exact ih he
  | addPhantom _ name ih =>
    rcases Table.mem_entries_insert.1 he with rfl | ⟨he, -⟩
    · rfl
    · exact ih he
  | withFaults _ _ ih => exact ih he

theorem nodup_names (h : p.Assembled) : (p.loadedClasses.map (·.name)).Nodup := by
  have hkeys : p.classes.values.map (·.name) = p.classes.keys := by
    rw [Table.values, Table.keys, List.map_map]
    exact List.map_congr_left fun e he => h.name_eq_key he
  have hsorted : p.classes.keys.Pairwise (· < ·) := List.pairwise_map.2 p.classes.sorted
  have hnodup : (p.classes.values.map (·.name)).Nodup := by
    rw [hkeys]
    refine List.Pairwise.imp ?_ hsorted
    rintro k _ hlt rfl
    exact Std.lt_irrefl hlt
  exact hnodup.sublist (List.filter_sublist.map _)

/-- A body is numbered, and its instructions belong to the method that it is stored under. -/
theorem eq_ofStmts (h : p.Assembled) {e : String × Body} (he : e ∈ p.bodies.entries) :
    ∃ stmts, e.2 = Body.ofStmts e.1 stmts := by
  have hadd {bodies : Table String Body} (ms : List (MethodSig × List Stmt))
      (hall : ∀ e ∈ bodies.entries, ∃ stmts, e.2 = Body.ofStmts e.1 stmts) :
      ∀ e ∈ (ms.foldl addBody bodies).entries, ∃ stmts, e.2 = Body.ofStmts e.1 stmts := by
    induction ms generalizing bodies with
    | nil => exact hall
    | cons m ms ih =>
      refine ih fun e he => ?_
      rcases Table.mem_entries_insert.1 he with rfl | ⟨he, -⟩
      · exact ⟨_, rfl⟩
      · exact hall e he
  induction h generalizing e with
  | empty => cases he
  | addClass _ c ih => exact hadd c.bodies (fun _ => ih) e he
  | addPhantom _ _ ih => exact ih he
  | withFaults _ _ ih => exact ih he

theorem mem_bodies (h : p.Assembled) {body : Body} (hbody : body ∈ p.bodies.values) :
    ∃ method stmts, body = Body.ofStmts method stmts := by
  obtain ⟨e, he, rfl⟩ := List.mem_map.1 hbody
  exact ⟨e.1, h.eq_ofStmts he⟩

theorem kind_eq (h : p.Assembled) {body : Body} (hbody : body ∈ p.bodies.values)
    {i : Instruction} (hi : i ∈ body) : i.kind? = UnitKind.ofStmt? i.stmt := by
  obtain ⟨method, stmts, rfl⟩ := h.mem_bodies hbody
  obtain ⟨k, hk, rfl⟩ := List.mem_mapIdx.1 hi
  rfl

end Assembled

/-- Whether an edge comes from a statement of the method, which has a body that loads. -/
def Uses (p : Program) (m : MethodSig) (e : Edge) : Prop :=
  ∃ body, p.body m = .ok body ∧ ∃ i ∈ body, e ∈ Build.edgesOf p m.text i.stmt

/-- Whether a class that the filter accepts declares the method with a body that loads. -/
def Provides (p : Program) (f : ClassFilter) (m : MethodSig) (body : Body) : Prop :=
  ∃ c ∈ p.loadedClasses, f.accepts c = true ∧ m ∈ c.concreteMethods ∧ p.body m = .ok body

end Program

namespace CallGraph

variable {g : CallGraph} {a b : Arc} {e : Edge}

@[simp] theorem links_empty : links .empty = [] := rfl

theorem arcs_ensure (g : CallGraph) (s : Symbol) : (g.ensure s).2.arcs = g.arcs := by
  rcases g.ensure_cases s with ⟨_, -, heq⟩ | ⟨-, heq⟩ <;> rw [heq]

namespace InStep

theorem number_eq (hg : g.InStep) {m n : Nat} {id : String} (hm : g.idAt? m = some id)
    (hn : g.idAt? n = some id) : m = n := by
  rw [← hg.index] at hm hn
  exact Option.some.inj (hm.symm.trans hn)

/-- Different arcs are different edges. -/
theorem arc_eq (hg : g.InStep) (ha : g.edge? a = some e) (hb : g.edge? b = some e) : a = b := by
  obtain ⟨hsource, htarget, hkind⟩ := edge?_eq_some_iff.1 ha
  obtain ⟨hsource', htarget', hkind'⟩ := edge?_eq_some_iff.1 hb
  cases a
  cases b
  rw [Arc.mk.injEq]
  exact ⟨hg.number_eq hsource hsource', hg.number_eq htarget htarget', hkind.trans hkind'.symm⟩

theorem mem_links_iff (hg : g.InStep) (ha : g.edge? a = some e) : e ∈ g.links ↔ a ∈ g.arcs := by
  rw [links, List.mem_filterMap]
  constructor
  · rintro ⟨b, hb, hedge⟩
    exact hg.arc_eq ha hedge ▸ hb
  · exact fun hmem => ⟨a, hmem, ha⟩

/-- New symbols do not change what the arcs stand for. -/
theorem links_ensure (hg : g.InStep) (s : Symbol) : (g.ensure s).2.links = g.links := by
  rw [links, arcs_ensure]
  refine List.filterMap_congr fun a ha => ?_
  obtain ⟨e, he⟩ := hg.ends a ha
  rw [he, edge?_ensure_of_eq he]

theorem link_cases (hg : g.InStep) (ha : g.edge? a = some e) :
    (e ∈ g.links ∧ (g.link a).1 = false ∧ (g.link a).2.links = g.links) ∨
      (e ∉ g.links ∧ (g.link a).1 = true ∧ (g.link a).2.links = g.links ++ [e]) := by
  rw [hg.mem_links_iff ha, ← hg.keys]
  unfold CallGraph.link
  split
  · rename_i hold
    exact .inl ⟨hold, rfl, rfl⟩
  · rename_i hnew
    refine .inr ⟨hnew, rfl, ?_⟩
    change (g.arcs ++ [a]).filterMap g.edge? = g.links ++ [e]
    rw [List.filterMap_append, List.filterMap_cons_some ha, List.filterMap_nil, links]

/-- An edge that is not there comes last, and it is the keys that tell. -/
theorem insert_cases (hg : g.InStep) (e : Edge) :
    (e ∈ g.links ∧ (g.insert e).1 = false ∧ (g.insert e).2.links = g.links) ∨
      (e ∉ g.links ∧ (g.insert e).1 = true ∧ (g.insert e).2.links = g.links ++ [e]) := by
  have hsource := hg.ensure ⟨e.source, .method⟩
  have hlink := (hsource.ensure ⟨e.target, e.kind.targetKind⟩).link_cases (hg.edge?_ends e)
  rw [hsource.links_ensure, hg.links_ensure] at hlink
  exact hlink

theorem mem_links_insert (hg : g.InStep) {x : Edge} :
    x ∈ (g.insert e).2.links ↔ x = e ∨ x ∈ g.links := by
  rcases hg.insert_cases e with ⟨hold, -, heq⟩ | ⟨-, -, heq⟩
  · rw [heq]
    exact ⟨.inr, fun h => h.elim (fun hx => hx ▸ hold) id⟩
  · simp [heq, or_comm]

theorem mem_links_addEdges (hg : g.InStep) {es : List Edge} :
    e ∈ (es.foldl addEdge g).links ↔ e ∈ es ∨ e ∈ g.links := by
  induction es generalizing g with
  | nil => simp
  | cons x es ih =>
    rw [List.foldl_cons, addEdge, ih (hg.insert x), hg.mem_links_insert, List.mem_cons, or_assoc]
    exact or_left_comm

theorem mem_sources_iff (hg : g.InStep) {kind : EdgeKind} {target source : String} :
    source ∈ g.sources kind target ↔ ⟨source, target, kind⟩ ∈ g.links := by
  simp only [links, List.mem_filterMap, edge?_eq_some_iff]
  unfold sources
  split
  · rename_i hnone
    refine ⟨fun h => absurd h List.not_mem_nil, ?_⟩
    rintro ⟨a, -, -, htarget, -⟩
    rw [← hg.index, hnone] at htarget
    cases htarget
  · rename_i n hn
    rw [Ascending.mem_ofList, List.mem_filterMap]
    simp only [List.mem_filter, Bool.and_eq_true, decide_eq_true_eq]
    rw [hg.index] at hn
    constructor
    · rintro ⟨a, ⟨ha, rfl, hkind⟩, hsource⟩
      exact ⟨a, ha, hsource, hn, hkind⟩
    · rintro ⟨a, ha, hsource, htarget, hkind⟩
      exact ⟨a, ⟨ha, hg.number_eq htarget hn, hkind⟩, hsource⟩

end InStep

end CallGraph

namespace Build

variable {p : Program} {b : Build} {e : Edge}

theorem processed_addMethod (m : MethodSig) : (addMethod p b m).processed = b.processed := by
  unfold addMethod
  split <;> rfl

theorem processed_addClass (c : ClassDef) :
    (addClass p b c).processed = b.processed ++ [c.name] := by
  have hmethods (ms : List MethodSig) (b : Build) :
      (ms.foldl (addMethod p) b).processed = b.processed := by
    induction ms generalizing b with
    | nil => rfl
    | cons m ms ih => rw [List.foldl_cons, ih, processed_addMethod]
  simp only [addClass, hmethods]

theorem mem_links_addMethod {m : MethodSig} :
    e ∈ (addMethod p b m).graph.links ↔ p.Uses m e ∨ e ∈ b.graph.links := by
  unfold addMethod Program.Uses
  cases h : p.body m with
  | error err => simp
  | ok body =>
    simp [addBody_eq, (b.inStep.ensure _).mem_links_addEdges, b.inStep.links_ensure]

theorem mem_links_addMethods {ms : List MethodSig} :
    e ∈ (ms.foldl (addMethod p) b).graph.links ↔
      (∃ m ∈ ms, p.Uses m e) ∨ e ∈ b.graph.links := by
  induction ms generalizing b with
  | nil => simp
  | cons m ms ih =>
    rw [List.foldl_cons, ih, mem_links_addMethod]
    simp only [List.mem_cons, exists_eq_or_imp, or_assoc]
    exact or_left_comm

theorem mem_links_addClass {c : ClassDef} :
    e ∈ (addClass p b c).graph.links ↔
      (∃ m ∈ c.concreteMethods, p.Uses m e) ∨ e ∈ b.graph.links :=
  mem_links_addMethods

def takeIn (f : ClassFilter) (p : Program) (b : Build) (c : ClassDef) : Build :=
  if f.accepts c && !b.isProcessed c.name then addClass p b c else b

theorem extend_eq (f : ClassFilter) (p : Program) (b : Build) :
    extend f p b =
      let b := p.loadedClasses.foldl (takeIn f p) b
      { b with stats := { b.stats with constants := b.constants.size } } := rfl

theorem takeIn_of_processed (f : ClassFilter) {c : ClassDef}
    (h : f.accepts c = true → c.name ∈ b.processed) : takeIn f p b c = b := by
  unfold takeIn
  split
  · rename_i hnew
    simp only [isProcessed, Bool.and_eq_true, Bool.not_eq_true', decide_eq_false_iff_not] at hnew
    exact absurd (h hnew.1) hnew.2
  · rfl

theorem mem_processed_takeIn {f : ClassFilter} {c : ClassDef} {name : String} :
    name ∈ (takeIn f p b c).processed ↔
      name ∈ b.processed ∨ f.accepts c = true ∧ c.name = name := by
  unfold takeIn
  split
  · rename_i hnew
    simp only [Bool.and_eq_true] at hnew
    simp [processed_addClass, hnew.1, eq_comm]
  · rename_i hold
    refine ⟨.inl, ?_⟩
    rintro (hmem | ⟨haccepts, rfl⟩)
    · exact hmem
    · simpa [haccepts, isProcessed] using hold

theorem mem_processed_takeIns {f : ClassFilter} {cs : List ClassDef} {name : String} :
    name ∈ (cs.foldl (takeIn f p) b).processed ↔
      name ∈ b.processed ∨ ∃ c ∈ cs, f.accepts c = true ∧ c.name = name := by
  induction cs generalizing b with
  | nil => simp
  | cons c cs ih =>
    rw [List.foldl_cons, ih, mem_processed_takeIn]
    simp only [List.mem_cons, exists_eq_or_imp, or_assoc]

/-- Of classes with different names, those that are not processed yet are taken in. -/
theorem mem_links_takeIns {f : ClassFilter} {cs : List ClassDef}
    (hnames : (cs.map (·.name)).Nodup) :
    e ∈ (cs.foldl (takeIn f p) b).graph.links ↔
      (∃ c ∈ cs, f.accepts c = true ∧ c.name ∉ b.processed ∧
        ∃ m ∈ c.concreteMethods, p.Uses m e) ∨ e ∈ b.graph.links := by
  induction cs generalizing b with
  | nil => simp
  | cons c cs ih =>
    obtain ⟨hfresh, hnames⟩ := List.nodup_cons.1 hnames
    -- taking in one class does not change which of the others are new
    have hothers : ∀ d ∈ cs, (d.name ∉ (takeIn f p b c).processed ↔ d.name ∉ b.processed) := by
      intro d hd
      have hne : c.name ≠ d.name := fun heq => hfresh (List.mem_map.2 ⟨d, hd, heq.symm⟩)
      simp [mem_processed_takeIn, hne]
    have hone : e ∈ (takeIn f p b c).graph.links ↔
        (f.accepts c = true ∧ c.name ∉ b.processed ∧ ∃ m ∈ c.concreteMethods, p.Uses m e) ∨
          e ∈ b.graph.links := by
      unfold takeIn
      split
      · rename_i hnew
        simp only [isProcessed, Bool.and_eq_true, Bool.not_eq_true', decide_eq_false_iff_not]
          at hnew
        rw [mem_links_addClass, and_iff_right hnew.1, and_iff_right hnew.2]
      · rename_i hold
        refine ⟨.inr, ?_⟩
        rintro (⟨haccepts, hnew, -⟩ | hmem)
        · exact absurd (by simp [haccepts, isProcessed, hnew]) hold
        · exact hmem
    rw [List.foldl_cons, ih hnames, hone]
    simp only [List.mem_cons, exists_eq_or_imp]
    constructor
    · rintro (⟨d, hd, haccepts, hnew, huses⟩ | hc | hmem)
      · exact .inl (.inr ⟨d, hd, haccepts, (hothers d hd).1 hnew, huses⟩)
      · exact .inl (.inl hc)
      · exact .inr hmem
    · rintro ((hc | ⟨d, hd, haccepts, hnew, huses⟩) | hmem)
      · exact .inr (.inl hc)
      · exact .inl ⟨d, hd, haccepts, (hothers d hd).2 hnew, huses⟩
      · exact .inr (.inr hmem)

theorem mem_links_extend {f : ClassFilter} (hp : p.Assembled) :
    e ∈ (extend f p b).graph.links ↔
      (∃ c ∈ p.loadedClasses, f.accepts c = true ∧ c.name ∉ b.processed ∧
        ∃ m ∈ c.concreteMethods, p.Uses m e) ∨ e ∈ b.graph.links :=
  mem_links_takeIns hp.nodup_names

/-- The edges of a build are those of the methods that the accepted classes provide. -/
theorem mem_links_ofProgram {f : ClassFilter} (hp : p.Assembled) :
    e ∈ (ofProgram f p).graph.links ↔
      ∃ m body, p.Provides f m body ∧ ∃ i ∈ body, e ∈ edgesOf p m.text i.stmt := by
  rw [ofProgram, mem_links_extend hp]
  simp only [empty, CallGraph.links_empty, List.not_mem_nil, or_false, not_false_eq_true, true_and]
  constructor
  · rintro ⟨c, hc, haccepts, m, hm, body, hbody, huses⟩
    exact ⟨m, body, ⟨c, hc, haccepts, hm, hbody⟩, huses⟩
  · rintro ⟨m, body, ⟨c, hc, haccepts, hm, hbody⟩, huses⟩
    exact ⟨c, hc, haccepts, m, hm, body, hbody, huses⟩

theorem mem_callersOf {f : ClassFilter} (hp : p.Assembled) {m : MethodSig} {body : Body}
    (hm : p.Provides f m body) {i : Instruction} (hi : i ∈ body) {c : Call}
    (hc : i.stmt.call? = some c) : m.text ∈ (ofProgram f p).graph.callersOf c.method.text := by
  rw [CallGraph.callersOf, (ofProgram f p).inStep.mem_sources_iff, mem_links_ofProgram hp]
  refine ⟨m, body, hm, i, hi, ?_⟩
  unfold edgesOf
  rw [hc]
  split <;> simp

theorem mem_writersOf {f : ClassFilter} (hp : p.Assembled) {m : MethodSig} {body : Body}
    (hm : p.Provides f m body) {i : Instruction} (hi : i ∈ body) {lhs rhs : Value}
    (hstmt : i.stmt = .assign lhs rhs) {field : FieldSig} (hfield : lhs.field? = some field)
    (hloaded : p.isLoaded field.cls = true) :
    m.text ∈ (ofProgram f p).graph.writersOf field.text := by
  rw [CallGraph.writersOf, (ofProgram f p).inStep.mem_sources_iff, mem_links_ofProgram hp]
  refine ⟨m, body, hm, i, hi, ?_⟩
  rw [hstmt]
  simp [edgesOf, hfield, hloaded]

end Build

end Backslice
