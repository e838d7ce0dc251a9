import Mathlib.Data.List.Nodup
import Backslice.Pipeline
import Backslice.Proofs.Edges

namespace Backslice

theorem Edge.strictOrder_before : Ascending.StrictOrder Edge.before := by
  have hrank : Ascending.StrictOrder fun a b : EdgeKind => decide (a.rank < b.rank) := {
    irrefl := by simp
    trans := fun h h' => by
      simp only [decide_eq_true_eq] at h h' ⊢
      omega
    total := fun {a b} => by cases a <;> cases b <;> decide }
  have htarget : Ascending.StrictOrder fun a b : String × EdgeKind =>
      Ascending.textLt a.1 b.1 || (a.1 = b.1 && decide (a.2.rank < b.2.rank)) :=
    .lex Ascending.strictOrder_textLt hrank Prod.fst Prod.snd fun _ _ => Prod.ext
  refine .lex Ascending.strictOrder_textLt htarget Edge.source (fun e => (e.target, e.kind)) ?_
  intro a b hsource hrest
  cases a
  cases b
  simp_all

namespace CallGraph

variable {g h k : CallGraph}

theorem mem_edges {e : Edge} : e ∈ g.edges ↔ e ∈ g.links := List.mem_mergeSort

theorem pairwise_sources (g : CallGraph) (kind : EdgeKind) (target : String) :
    (g.sources kind target).Pairwise (Ascending.textLt · ·) := by
  unfold sources
  split
  · exact .nil
  · exact Ascending.pairwise_ofList Ascending.strictOrder_textLt _

namespace InStep

theorem nodup_links (hg : g.InStep) : g.links.Nodup :=
  hg.nodup.filterMap fun _ _ _ ha hb => hg.arc_eq ha hb

theorem length_links (hg : g.InStep) : g.links.length = g.edgeCount :=
  List.filterMap_length_eq_length.2 fun a ha => Option.isSome_iff_exists.2 (hg.ends a ha)

/-- No edge is there twice, so sorting puts the edges in strict order. -/
theorem pairwise_edges (hg : g.InStep) : g.edges.Pairwise fun a b => a.before b = true :=
  Ascending.pairwise_mergeSort Edge.strictOrder_before hg.nodup_links

theorem nodup_edges (hg : g.InStep) : g.edges.Nodup :=
  (List.mergeSort_perm _ _).nodup_iff.2 hg.nodup_links

theorem edges_congr (hg : g.InStep) (hh : h.InStep) (hlinks : ∀ e, e ∈ g.links ↔ e ∈ h.links) :
    g.edges = h.edges := by
  refine Ascending.eq_of_pairwise Edge.strictOrder_before hg.pairwise_edges hh.pairwise_edges ?_
  intro e
  rw [mem_edges, mem_edges, hlinks]

theorem sources_congr (hg : g.InStep) (hh : h.InStep) {kind : EdgeKind} {target : String}
    (hlinks : ∀ source, ⟨source, target, kind⟩ ∈ g.links ↔ ⟨source, target, kind⟩ ∈ h.links) :
    g.sources kind target = h.sources kind target := by
  refine Ascending.eq_of_pairwise Ascending.strictOrder_textLt (pairwise_sources g kind target)
    (pairwise_sources h kind target) ?_
  intro source
  rw [hg.mem_sources_iff, hh.mem_sources_iff, hlinks]

end InStep

/-- Whether the edges of a graph are those of another one and then new ones, each once. -/
structure Grows (g h : CallGraph) (added : List Edge) : Prop where
  links : h.links = g.links ++ added
  nodup : added.Nodup
  new : ∀ e ∈ added, e ∉ g.links

namespace Grows

variable {added more : List Edge}

theorem refl (g : CallGraph) : g.Grows g [] := ⟨by simp, .nil, by simp⟩

theorem trans (hg : g.Grows h added) (hh : h.Grows k more) : g.Grows k (added ++ more) where
  links := by rw [hh.links, hg.links, List.append_assoc]
  nodup := by
    refine List.nodup_append.2 ⟨hg.nodup, hh.nodup, ?_⟩
    rintro a ha b hb rfl
    exact hh.new a hb (hg.links ▸ List.mem_append_right _ ha)
  new e he hmem := by
    rcases List.mem_append.1 he with he | he
    · exact hg.new e he hmem
    · exact hh.new e he (hg.links ▸ List.mem_append_left _ hmem)

theorem ensure (hg : g.InStep) (s : Symbol) : g.Grows (g.ensure s).2 [] :=
  ⟨by simp [hg.links_ensure], .nil, by simp⟩

theorem insert (hg : g.InStep) (e : Edge) : ∃ added, g.Grows (g.insert e).2 added := by
  rcases hg.insert_cases e with ⟨-, -, heq⟩ | ⟨hnew, -, heq⟩
  · exact ⟨[], by simp [heq], .nil, by simp⟩
  · exact ⟨[e], heq, List.nodup_singleton e, by simpa using hnew⟩

theorem addEdges (hg : g.InStep) (es : List Edge) :
    ∃ added, g.Grows (es.foldl CallGraph.addEdge g) added := by
  induction es generalizing g with
  | nil => exact ⟨[], refl g⟩
  | cons e es ih =>
    obtain ⟨added, hadded⟩ := insert hg e
    obtain ⟨more, hmore⟩ := ih (hg.insert e)
    exact ⟨added ++ more, hadded.trans hmore⟩

/-- The new edges are as many as the graph has become larger by. -/
theorem length_eq (hadded : g.Grows h added) (hg : g.InStep) (hh : h.InStep) :
    (h.edges.filter (· ∉ g.edges)).length = h.edgeCount - g.edgeCount := by
  have hperm : (h.edges.filter (· ∉ g.edges)).Perm added := by
    refine (List.perm_ext_iff_of_nodup (hh.nodup_edges.filter _) hadded.nodup).2 fun e => ?_
    simp only [List.mem_filter, mem_edges, hadded.links, List.mem_append, decide_eq_true_eq]
    constructor
    · rintro ⟨hmem | hmem, hnew⟩
      · exact absurd hmem hnew
      · exact hmem
    · exact fun hmem => ⟨.inr hmem, hadded.new e hmem⟩
  rw [hperm.length_eq, ← hh.length_links, ← hg.length_links, hadded.links, List.length_append]
  omega

end Grows

end CallGraph

namespace ConstantTable

def at? (t : ConstantTable) (cls text : String) : Option Constant :=
  t.byClass.get? cls >>= fun fields => fields.get? text

theorem get?_eq (t : ConstantTable) (text : String) :
    t.get? text = match FieldSig.parse text with
      | .ok f => t.at? f.cls text
      | .error _ => none := rfl

theorem at?_eq (t : ConstantTable) (cls text : String) :
    t.at? cls text = ((t.byClass.get? cls).getD .empty).get? text := by
  unfold at?
  cases t.byClass.get? cls <;> rfl

/-- A constant is recorded where there is none. -/
theorem at?_record (t : ConstantTable) (f : FieldSig) (value : Constant) (cls text : String) :
    (t.record f value).at? cls text = (t.at? cls text).or
      (if f.cls = cls ∧ f.text = text then some value else none) := by
  simp only [record, at?_eq]
  split
  · rename_i hold
    rw [Table.contains_eq_isSome_get?] at hold
    by_cases hsame : f.cls = cls ∧ f.text = text
    · obtain ⟨rfl, rfl⟩ := hsame
      rw [Option.or_of_isSome hold]
    · rw [if_neg hsame, Option.or_none]
  · rename_i hnew
    rw [Table.contains_eq_isSome_get?, Bool.not_eq_true, Option.isSome_eq_false_iff,
      Option.isNone_iff_eq_none] at hnew
    rw [Table.get?_insert]
    by_cases hcls : cls = f.cls
    · subst hcls
      rw [if_pos rfl, Option.getD_some, Table.get?_insert]
      by_cases htext : text = f.text
      · subst htext
        rw [if_pos rfl, hnew, if_pos ⟨rfl, rfl⟩, Option.none_or]
      · rw [if_neg htext, if_neg fun h => htext h.2.symm, Option.or_none]
    · rw [if_neg hcls, if_neg fun h => hcls h.1.symm, Option.or_none]

end ConstantTable

namespace Build

theorem at?_addConstants {t : ConstantTable} {cls text : String} {value : Constant}
    (h : t.at? cls text = some value) (fields : List FieldDef) :
    (fields.foldl addConstant t).at? cls text = some value := by
  induction fields generalizing t with
  | nil => exact h
  | cons f fields ih =>
    refine ih ?_
    unfold addConstant
    split
    · rw [ConstantTable.at?_record, h, Option.some_or]
    · exact h

structure Keeps (b b' : Build) : Prop where
  edges : ∃ added, b.graph.Grows b'.graph added
  processed : b.processed ⊆ b'.processed
  constants : ∀ cls text value, b.constants.at? cls text = some value →
    b'.constants.at? cls text = some value

namespace Keeps

/-- Branches and statistics do not matter. -/
theorem of_eq {b b' : Build} (hgraph : b'.graph = b.graph) (hprocessed : b'.processed = b.processed)
    (hconstants : b'.constants = b.constants) : b.Keeps b' where
  edges := ⟨[], hgraph ▸ .refl b.graph⟩
  processed := hprocessed ▸ List.Subset.refl b.processed
  constants := fun _ _ _ h => hconstants ▸ h

theorem trans {b b' b'' : Build} (h : b.Keeps b') (h' : b'.Keeps b'') : b.Keeps b'' where
  edges := by
    obtain ⟨added, hadded⟩ := h.edges
    obtain ⟨more, hmore⟩ := h'.edges
    exact ⟨added ++ more, hadded.trans hmore⟩
  processed := fun _ hname => h'.processed (h.processed hname)
  constants := fun cls text value hvalue =>
    h'.constants cls text value (h.constants cls text value hvalue)

theorem foldl {α : Type} {step : Build → α → Build} (h : ∀ b x, Keeps b (step b x)) (l : List α)
    (b : Build) : b.Keeps (l.foldl step b) := by
  induction l generalizing b with
  | nil => exact of_eq rfl rfl rfl
  | cons x l ih => exact (h b x).trans (ih (step b x))

theorem addMethod (p : Program) (b : Build) (m : MethodSig) :
    b.Keeps (Build.addMethod p b m) := by
  unfold Build.addMethod
  split
  · exact of_eq rfl rfl rfl
  · rename_i body hbody
    have hmethod := CallGraph.Grows.ensure b.inStep ⟨m.text, .method⟩
    obtain ⟨added, hadded⟩ := CallGraph.Grows.addEdges (b.inStep.ensure ⟨m.text, .method⟩)
      (body.flatMap fun i => edgesOf p m.text i.stmt)
    have hbodyGrows : b.graph.Grows (addBody p m.text b.graph body).1 ([] ++ added) := by
      rw [addBody_eq]
      exact hmethod.trans hadded
    exact {
      edges := ⟨_, hbodyGrows⟩
      processed := List.Subset.refl b.processed
      constants := fun _ _ _ h => h }

theorem addClass (p : Program) (b : Build) (c : ClassDef) : b.Keeps (Build.addClass p b c) := by
  let withConstants : Build := { b with constants := c.fields.foldl addConstant b.constants }
  have hconstants : b.Keeps withConstants := {
    edges := ⟨[], .refl b.graph⟩
    processed := List.Subset.refl b.processed
    constants := fun _ _ _ h => at?_addConstants h c.fields }
  have hmethods := foldl (addMethod p) c.concreteMethods withConstants
  have hprocessed : Keeps (c.concreteMethods.foldl (Build.addMethod p) withConstants)
      (Build.addClass p b c) := {
    edges := ⟨[], .refl _⟩
    processed := List.subset_append_left _ _
    constants := fun _ _ _ h => h }
  exact (hconstants.trans hmethods).trans hprocessed

theorem extend (f : ClassFilter) (p : Program) (b : Build) : b.Keeps (b.extend f p) := by
  have htaken : b.Keeps (p.loadedClasses.foldl (takeIn f p) b) := by
    refine foldl (fun b c => ?_) p.loadedClasses b
    unfold takeIn
    split
    · exact addClass p b c
    · exact of_eq rfl rfl rfl
  exact htaken.trans (of_eq rfl rfl rfl)

end Keeps

theorem takeIns_of_processed (f : ClassFilter) {p : Program} {b : Build} {cs : List ClassDef}
    (h : ∀ c ∈ cs, f.accepts c = true → c.name ∈ b.processed) :
    cs.foldl (takeIn f p) b = b := by
  induction cs with
  | nil => rfl
  | cons c cs ih =>
    rw [List.foldl_cons, takeIn_of_processed f (h c List.mem_cons_self)]
    exact ih fun d hd => h d (List.mem_cons_of_mem _ hd)

/-- After one pass over a program no class is left for the next. -/
theorem extend_extend (f : ClassFilter) (p : Program) (b : Build) :
    (b.extend f p).extend f p = b.extend f p := by
  have hall : ∀ c ∈ p.loadedClasses, f.accepts c = true → c.name ∈ (b.extend f p).processed :=
    fun c hc haccepts => mem_processed_takeIns.2 (.inr ⟨c, hc, haccepts, rfl⟩)
  rw [extend_eq f p (b.extend f p), takeIns_of_processed f hall]
  rfl

end Build

namespace Pipeline

inductive Update where
  | addClass (c : ClassSource)
  | addPhantom (name : String)
  | refresh

def update (p : Pipeline) : Update → Pipeline
  | .addClass c => p.addClass c
  | .addPhantom name => p.addPhantom name
  | .refresh => p.refresh.2

theorem keeps_updates (p : Pipeline) (us : List Update) :
    p.build.Keeps (us.foldl update p).build := by
  induction us generalizing p with
  | nil => exact .of_eq rfl rfl rfl
  | cons u us ih =>
    have hone : p.build.Keeps (p.update u).build := by
      cases u with
      | refresh => exact .extend p.filter p.program p.build
      | _ => exact .of_eq rfl rfl rfl
    exact hone.trans (ih (p.update u))

/-- A pipeline whose program changes in any way and is taken in at any time never loses an edge, a
class or the constant of a field that a refresh has found before. A refresh gives the number of
edges that were not there, and one right after it finds nothing and changes nothing. -/
theorem refresh_monotone_idempotent (p : Pipeline) (before after : List Update) :
    let q := before.foldl update p
    let r := q.refresh.2
    let later := after.foldl update r
    q.build.graph.edges ⊆ later.build.graph.edges ∧
    q.build.processed ⊆ later.build.processed ∧
    (∀ f value, q.build.constants.field? f = some value →
      later.build.constants.field? f = some value) ∧
    (∀ text value, q.build.constants.get? text = some value →
      later.build.constants.get? text = some value) ∧
    q.refresh.1 = (r.build.graph.edges.filter (· ∉ q.build.graph.edges)).length ∧
    r.refresh = (0, r) := by
  intro q r later
  have hrefresh : q.build.Keeps r.build := .extend q.filter q.program q.build
  have hkeeps : q.build.Keeps later.build := hrefresh.trans (keeps_updates r after)
  refine ⟨?_, hkeeps.processed, ?_, ?_, ?_, ?_⟩
  · obtain ⟨added, hadded⟩ := hkeeps.edges
    intro e he
    rw [CallGraph.mem_edges] at he ⊢
    exact hadded.links ▸ List.mem_append_left _ he
  · intro f value hvalue
    exact hkeeps.constants _ _ _ hvalue
  · intro text value hvalue
    rw [ConstantTable.get?_eq] at hvalue ⊢
    split at hvalue
    · exact hkeeps.constants _ _ _ hvalue
    · cases hvalue
  · obtain ⟨added, hadded⟩ := hrefresh.edges
    exact (hadded.length_eq q.build.inStep r.build.inStep).symm
  · have hsame : r.build.extend r.filter r.program = r.build :=
      Build.extend_extend q.filter q.program q.build
    rw [refresh, hsame, Nat.sub_self]

end Pipeline

end Backslice
