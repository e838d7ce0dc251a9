import Mathlib.Data.List.Dedup
import Backslice.Proofs.Refreshing

namespace Backslice.CallGraph

variable {g h : CallGraph}

namespace InStep

theorem mem_ids_iff (hg : g.InStep) {id : String} :
    id ∈ g.ids ↔ ∃ n, g.index.get? id = some n := by
  simp only [hg.index, ids, List.mem_iff_getElem?, List.getElem?_map, idAt?]

theorem nodup_ids (hg : g.InStep) : g.ids.Nodup := by
  rw [List.nodup_iff_getElem?_ne_getElem?]
  intro i j hlt hj heq
  have hid : g.ids[j]? = some g.ids[j] := List.getElem?_eq_getElem hj
  have hsame (n : Nat) : g.ids[n]? = g.idAt? n := List.getElem?_map ..
  rw [hid, hsame] at heq
  rw [hsame] at hid
  exact Nat.ne_of_lt hlt (hg.number_eq heq hid)

theorem contains_iff (hg : g.InStep) {id : String} : g.contains id = true ↔ id ∈ g.ids := by
  rw [contains, Table.contains_eq_isSome_get?, Option.isSome_iff_exists, hg.mem_ids_iff]

theorem isNew_insert (hg : g.InStep) (e : Edge) : (g.insert e).1 = decide (e ∉ g.links) := by
  rcases hg.insert_cases e with ⟨hold, heq, -⟩ | ⟨hnew, heq, -⟩
  · simp [heq, hold]
  · simp [heq, hnew]

end InStep

/-- What a graph may be told. One id may name a method at one time and a field at another. -/
inductive Operation where
  | ensure (symbol : Symbol)
  | addCall (caller callee : String)
  | addRead (method field : String)
  | addWrite (method field : String)

inductive Answer where
  | number (n : Nat)
  | added (isNew : Bool)

namespace Operation

def edge? : Operation → Option Edge
  | .ensure _ => none
  | .addCall caller callee => some ⟨caller, callee, .calls⟩
  | .addRead method field => some ⟨method, field, .reads⟩
  | .addWrite method field => some ⟨method, field, .writes⟩

def symbols : Operation → List Symbol
  | .ensure symbol => [symbol]
  | .addCall caller callee => [⟨caller, .method⟩, ⟨callee, .method⟩]
  | .addRead method field | .addWrite method field => [⟨method, .method⟩, ⟨field, .field⟩]

end Operation

def perform (g : CallGraph) : Operation → Answer × CallGraph
  | .ensure symbol => (g.ensure symbol).map .number id
  | .addCall caller callee => (g.insert ⟨caller, callee, .calls⟩).map .added id
  | .addRead method field => (g.insert ⟨method, field, .reads⟩).map .added id
  | .addWrite method field => (g.insert ⟨method, field, .writes⟩).map .added id

def after (ops : List Operation) : CallGraph := ops.foldl (fun g op => (g.perform op).2) .empty

def mentions (ops : List Operation) : List Symbol := ops.flatMap Operation.symbols

def mentioned (ops : List Operation) : List String := (mentions ops).map (·.id)

def stated (ops : List Operation) : List Edge := ops.filterMap Operation.edge?

theorem symbols_insert (g : CallGraph) (e : Edge) :
    (g.insert e).2.symbols =
      ((g.ensure ⟨e.source, .method⟩).2.ensure ⟨e.target, e.kind.targetKind⟩).2.symbols := by
  unfold insert link
  dsimp only
  split <;> rfl

/-- A mention comes first if it did before, or if it is the last one and its id is new. -/
theorem isFirst_concat_iff {mentions : List Symbol} {s t : Symbol} :
    (mentions ++ [s]).find? (·.id = t.id) = some t ↔
      mentions.find? (·.id = t.id) = some t ∨ s.id ∉ mentions.map (·.id) ∧ t = s := by
  rw [List.find?_append, Option.or_eq_some_iff, List.find?_eq_none]
  refine or_congr_right ?_
  simp only [List.find?_singleton, decide_eq_true_eq, List.mem_map, not_exists, not_and]
  constructor
  · rintro ⟨hnew, hlast⟩
    split at hlast
    · cases hlast
      exact ⟨hnew, rfl⟩
    · cases hlast
  · rintro ⟨hnew, rfl⟩
    exact ⟨hnew, if_pos rfl⟩

/-- Whether a graph is in step and has just the symbols that were mentioned, as they were mentioned
first, and just the given edges. -/
structure Holds (g : CallGraph) (mentions : List Symbol) (facts : List Edge) : Prop where
  inStep : g.InStep
  mem_symbols : ∀ s, s ∈ g.symbols ↔ mentions.find? (·.id = s.id) = some s
  mem_links : ∀ e, e ∈ g.links ↔ e ∈ facts

namespace Holds

variable {mentions mentions' : List Symbol} {facts facts' : List Edge}

theorem empty : Holds .empty [] [] :=
  ⟨.empty, fun s => by simp [CallGraph.empty], fun _ => Iff.rfl⟩

theorem mem_ids (hg : g.Holds mentions facts) {id : String} :
    id ∈ g.ids ↔ id ∈ mentions.map (·.id) := by
  simp only [ids, List.mem_map, hg.mem_symbols]
  constructor
  · rintro ⟨s, hs, rfl⟩
    exact ⟨s, List.mem_of_find?_eq_some hs, rfl⟩
  · rintro ⟨s, hs, rfl⟩
    have hfound : (mentions.find? (·.id = s.id)).isSome = true := by
      rw [List.find?_isSome]
      exact ⟨s, hs, decide_eq_true rfl⟩
    obtain ⟨t, ht⟩ := Option.isSome_iff_exists.1 hfound
    have hid : t.id = s.id := by simpa using List.find?_some ht
    exact ⟨t, hid ▸ ht, hid⟩

theorem ensure (hg : g.Holds mentions facts) (s : Symbol) :
    (g.ensure s).2.Holds (mentions ++ [s]) facts := by
  refine ⟨hg.inStep.ensure s, fun t => ?_, fun e => ?_⟩
  · rw [isFirst_concat_iff, ← hg.mem_symbols, ← hg.mem_ids, hg.inStep.mem_ids_iff]
    rcases g.ensure_cases s with ⟨n, hn, heq⟩ | ⟨hnone, heq⟩
    · simp [heq, hn]
    · simp [heq, hnone]
  · rw [hg.inStep.links_ensure, hg.mem_links]

theorem insert (hg : g.Holds mentions facts) (e : Edge) :
    (g.insert e).2.Holds
      (mentions ++ [⟨e.source, .method⟩, ⟨e.target, e.kind.targetKind⟩]) (facts ++ [e]) := by
  have hends := (hg.ensure ⟨e.source, .method⟩).ensure ⟨e.target, e.kind.targetKind⟩
  rw [List.append_assoc, List.singleton_append] at hends
  refine ⟨hg.inStep.insert e, fun s => ?_, fun x => ?_⟩
  · rw [← hends.mem_symbols, symbols_insert]
  · rw [hg.inStep.mem_links_insert, hg.mem_links, List.mem_append, List.mem_singleton, or_comm]

/-- One operation adds the symbols it mentions and the fact it states. -/
theorem perform (hg : g.Holds mentions facts) (op : Operation) :
    (g.perform op).2.Holds (mentions ++ op.symbols) (facts ++ op.edge?.toList) := by
  cases op with
  | ensure symbol =>
    rw [Operation.edge?, Option.toList_none, List.append_nil]
    exact hg.ensure symbol
  | addCall caller callee => exact hg.insert ⟨caller, callee, .calls⟩
  | addRead method field => exact hg.insert ⟨method, field, .reads⟩
  | addWrite method field => exact hg.insert ⟨method, field, .writes⟩

theorem performAll (hg : g.Holds mentions facts) (ops : List Operation) :
    (ops.foldl (fun g op => (g.perform op).2) g).Holds (mentions ++ CallGraph.mentions ops)
      (facts ++ stated ops) := by
  induction ops generalizing g mentions facts with
  | nil => simpa [CallGraph.mentions, stated] using hg
  | cons op ops ih =>
    have hrest := ih (hg.perform op)
    have hstated : stated (op :: ops) = op.edge?.toList ++ stated ops := by
      cases hedge : op.edge? <;> simp [stated, hedge]
    rw [List.append_assoc, List.append_assoc, ← hstated] at hrest
    exact hrest

theorem after (ops : List Operation) : (after ops).Holds (CallGraph.mentions ops) (stated ops) :=
  empty.performAll ops

theorem nodeCount_eq (hg : g.Holds mentions facts) :
    g.nodeCount = (mentions.map (·.id)).dedup.length := by
  have hperm : g.ids.Perm (mentions.map (·.id)).dedup := by
    refine (List.perm_ext_iff_of_nodup hg.inStep.nodup_ids (List.nodup_dedup _)).2 fun id => ?_
    rw [hg.mem_ids, List.mem_dedup]
  rw [← hperm.length_eq, nodeCount, ids, List.length_map]

theorem edgeCount_eq (hg : g.Holds mentions facts) : g.edgeCount = facts.dedup.length := by
  have hperm : g.links.Perm facts.dedup := by
    refine (List.perm_ext_iff_of_nodup hg.inStep.nodup_links facts.nodup_dedup).2 fun e => ?_
    rw [hg.mem_links, List.mem_dedup]
  rw [← hperm.length_eq, hg.inStep.length_links]

theorem mem_edges (hg : g.Holds mentions facts) {e : Edge} : e ∈ g.edges ↔ e ∈ facts := by
  rw [CallGraph.mem_edges, hg.mem_links]

theorem mem_sources (hg : g.Holds mentions facts) {kind : EdgeKind} {target source : String} :
    source ∈ g.sources kind target ↔ ⟨source, target, kind⟩ ∈ facts := by
  rw [hg.inStep.mem_sources_iff, hg.mem_links]

theorem perform_eq_added (hg : g.Holds mentions facts) {op : Operation} {e : Edge}
    (h : op.edge? = some e) : (g.perform op).1 = .added (e ∉ facts) := by
  simp only [← hg.mem_links, ← hg.inStep.isNew_insert]
  cases op with
  | ensure symbol => cases h
  | _ => cases h; rfl

end Holds

structure AnswersAlike (g h : CallGraph) : Prop where
  nodeCount : g.nodeCount = h.nodeCount
  edgeCount : g.edgeCount = h.edgeCount
  contains : ∀ id, g.contains id = h.contains id
  edges : g.edges = h.edges
  callersOf : ∀ method, g.callersOf method = h.callersOf method
  readersOf : ∀ field, g.readersOf field = h.readersOf field
  writersOf : ∀ field, g.writersOf field = h.writersOf field

/-- What a graph answers is decided by the set of its ids and the set of its facts. -/
theorem Holds.answersAlike {mentions mentions' : List Symbol} {facts facts' : List Edge}
    (hg : g.Holds mentions facts) (hh : h.Holds mentions' facts')
    (hids : ∀ id, id ∈ mentions.map (·.id) ↔ id ∈ mentions'.map (·.id))
    (hfacts : ∀ e, e ∈ facts ↔ e ∈ facts') : g.AnswersAlike h := by
  have hnodes : g.ids.Perm h.ids := by
    refine (List.perm_ext_iff_of_nodup hg.inStep.nodup_ids hh.inStep.nodup_ids).2 fun id => ?_
    rw [hg.mem_ids, hh.mem_ids, hids]
  have hmem (e : Edge) : e ∈ g.links ↔ e ∈ h.links := by
    rw [hg.mem_links, hh.mem_links, hfacts]
  have hlinks : g.links.Perm h.links :=
    (List.perm_ext_iff_of_nodup hg.inStep.nodup_links hh.inStep.nodup_links).2 hmem
  exact {
    nodeCount := by simpa only [nodeCount, ids, List.length_map] using hnodes.length_eq
    edgeCount := by rw [← hg.inStep.length_links, hlinks.length_eq, hh.inStep.length_links]
    contains := fun id => by
      rw [Bool.eq_iff_iff, hg.inStep.contains_iff, hh.inStep.contains_iff, hnodes.mem_iff]
    edges := hg.inStep.edges_congr hh.inStep hmem
    callersOf := fun _ => hg.inStep.sources_congr hh.inStep fun _ => hmem _
    readersOf := fun _ => hg.inStep.sources_congr hh.inStep fun _ => hmem _
    writersOf := fun _ => hg.inStep.sources_congr hh.inStep fun _ => hmem _ }

/-- Whether a list has the sources of the facts of a kind about a symbol, in strict order. -/
def ListsSources (facts : List Edge) (kind : EdgeKind) (target : String) (l : List String) : Prop :=
  l.Pairwise (· < ·) ∧ ∀ source, source ∈ l ↔ ⟨source, target, kind⟩ ∈ facts

/-- A graph is the set of the facts that it was told. Its index and its keys stay in step with its
symbols, of which it has one for each id, and with its arcs. It counts each id and each fact once,
says of every fact whether it is new, lists the facts in strict order, and gives for every id the
methods that call, read or write it. Order and repetition of the operations do not matter. -/
theorem graph_is_set_of_facts (ops : List Operation) :
    (after ops).InStep ∧
    (∀ s, s ∈ (after ops).symbols ↔ (mentions ops).find? (·.id = s.id) = some s) ∧
    (after ops).nodeCount = (mentioned ops).dedup.length ∧
    (after ops).edgeCount = (stated ops).dedup.length ∧
    (∀ earlier op later e, ops = earlier ++ op :: later → op.edge? = some e →
      ((after earlier).perform op).1 = .added (e ∉ stated earlier)) ∧
    ((after ops).edges.Pairwise (fun a b => a.before b = true) ∧
      ∀ e, e ∈ (after ops).edges ↔ e ∈ stated ops) ∧
    (∀ id, ListsSources (stated ops) .calls id ((after ops).callersOf id) ∧
      ListsSources (stated ops) .reads id ((after ops).readersOf id) ∧
      ListsSources (stated ops) .writes id ((after ops).writersOf id)) ∧
    ∀ others, (∀ id, id ∈ mentioned ops ↔ id ∈ mentioned others) →
      (∀ e, e ∈ stated ops ↔ e ∈ stated others) → (after ops).AnswersAlike (after others) := by
  have hops := Holds.after ops
  have hsources (kind : EdgeKind) (id : String) :
      ListsSources (stated ops) kind id ((after ops).sources kind id) :=
    ⟨(pairwise_sources _ kind id).imp fun hlt => of_decide_eq_true hlt, fun _ => hops.mem_sources⟩
  refine ⟨hops.inStep, hops.mem_symbols, hops.nodeCount_eq, hops.edgeCount_eq, ?_,
    ⟨hops.inStep.pairwise_edges, fun _ => hops.mem_edges⟩,
    fun id => ⟨hsources .calls id, hsources .reads id, hsources .writes id⟩, ?_⟩
  · intro earlier op later e _ hedge
    exact (Holds.after earlier).perform_eq_added hedge
  · intro others hids hfacts
    exact hops.answersAlike (Holds.after others) hids hfacts

def callAndAccess : List Operation :=
  [.addCall "a" "b", .addCall "a" "b", .addRead "a" "f", .addWrite "a" "f"]

/-- The same in another order, with the field first taken for a method and one edge twice. -/
def accessAndCall : List Operation :=
  [.ensure ⟨"f", .method⟩, .addWrite "a" "f", .addRead "a" "f", .addWrite "a" "f", .addCall "a" "b"]

theorem graph_is_set_of_facts_callAndAccess :
    (∀ id, id ∈ mentioned callAndAccess ↔ id ∈ mentioned accessAndCall) ∧
    (∀ e, e ∈ stated callAndAccess ↔ e ∈ stated accessAndCall) ∧
    (after callAndAccess).AnswersAlike (after accessAndCall) := by
  have hids (id : String) : id ∈ mentioned callAndAccess ↔ id ∈ mentioned accessAndCall :=
    ⟨(by decide : ∀ id ∈ mentioned callAndAccess, id ∈ mentioned accessAndCall) id,
      (by decide : ∀ id ∈ mentioned accessAndCall, id ∈ mentioned callAndAccess) id⟩
  have hfacts (e : Edge) : e ∈ stated callAndAccess ↔ e ∈ stated accessAndCall :=
    ⟨(by decide : ∀ e ∈ stated callAndAccess, e ∈ stated accessAndCall) e,
      (by decide : ∀ e ∈ stated accessAndCall, e ∈ stated callAndAccess) e⟩
  exact ⟨hids, hfacts,
    (graph_is_set_of_facts callAndAccess).2.2.2.2.2.2.2 accessAndCall hids hfacts⟩

end Backslice.CallGraph
