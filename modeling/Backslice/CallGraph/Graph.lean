import Backslice.Ascending
import Backslice.Table

namespace Backslice

inductive SymbolKind where
  | method | field
  deriving DecidableEq, Repr, Inhabited

structure Symbol where
  id : String
  kind : SymbolKind
  deriving DecidableEq, Repr, Inhabited

inductive EdgeKind where
  | calls | reads | writes
  deriving DecidableEq, Repr, Inhabited

namespace EdgeKind

def text : EdgeKind → String
  | .calls => "CALLS"
  | .reads => "READS"
  | .writes => "WRITES"

def rank : EdgeKind → Nat
  | .calls => 0
  | .reads => 1
  | .writes => 2

/-- What an edge leads to. -/
def targetKind : EdgeKind → SymbolKind
  | .calls => .method
  | .reads | .writes => .field

end EdgeKind

/-- A method's use of another method or of a field. -/
structure Edge where
  source : String
  target : String
  kind : EdgeKind
  deriving DecidableEq, Repr, Inhabited

/-- The order by source, then target, then kind. -/
def Edge.before (a b : Edge) : Bool :=
  a.source < b.source || (a.source = b.source &&
    (a.target < b.target || (a.target = b.target && a.kind.rank < b.kind.rank)))

/-- An edge between symbols that are given by their numbers. -/
structure Arc where
  source : Nat
  target : Nat
  kind : EdgeKind
  deriving DecidableEq, Repr, Inhabited

/-- Symbols and arcs, numbered in the order they came. The index has the number of each id, and the
keys are the set of the arcs. -/
structure CallGraph where
  symbols : List Symbol
  arcs : List Arc
  index : Table String Nat
  keys : List Arc
  deriving DecidableEq, Inhabited

namespace CallGraph

def empty : CallGraph := ⟨[], [], .empty, []⟩

/-- The number of a symbol. One whose id is not there is added. -/
def ensure (g : CallGraph) (s : Symbol) : Nat × CallGraph :=
  match g.index.get? s.id with
  | some n => (n, g)
  | none =>
    let n := g.symbols.length
    (n, { g with symbols := g.symbols ++ [s], index := g.index.insert s.id n })

/-- Adds an arc that is not among the keys, and says whether it did. -/
def link (g : CallGraph) (a : Arc) : Bool × CallGraph :=
  if a ∈ g.keys then (false, g)
  else (true, { g with arcs := g.arcs ++ [a], keys := a :: g.keys })

/-- Adds an edge with its ends, and says whether it is new. -/
def insert (g : CallGraph) (e : Edge) : Bool × CallGraph :=
  let source := g.ensure ⟨e.source, .method⟩
  let target := source.2.ensure ⟨e.target, e.kind.targetKind⟩
  target.2.link ⟨source.1, target.1, e.kind⟩

def addEdge (g : CallGraph) (e : Edge) : CallGraph := (g.insert e).2

def contains (g : CallGraph) (id : String) : Bool := g.index.contains id

def nodeCount (g : CallGraph) : Nat := g.symbols.length

def edgeCount (g : CallGraph) : Nat := g.arcs.length

def ids (g : CallGraph) : List String := g.symbols.map (·.id)

def idAt? (g : CallGraph) (n : Nat) : Option String := g.symbols[n]?.map (·.id)

/-- The edge that an arc stands for. -/
def edge? (g : CallGraph) (a : Arc) : Option Edge :=
  (g.idAt? a.source).bind fun source =>
    (g.idAt? a.target).map fun target => ⟨source, target, a.kind⟩

/-- All edges in the order they came. -/
def links (g : CallGraph) : List Edge := g.arcs.filterMap g.edge?

def edges (g : CallGraph) : List Edge := g.links.mergeSort fun a b => !b.before a

def sources (g : CallGraph) (kind : EdgeKind) (target : String) : List String :=
  match g.index.get? target with
  | none => []
  | some n =>
    let arcs := g.arcs.filter fun a => a.target = n && a.kind = kind
    Ascending.ofList Ascending.textLt (arcs.filterMap fun a => g.idAt? a.source)

def callersOf (g : CallGraph) (method : String) : List String := g.sources .calls method

def readersOf (g : CallGraph) (field : String) : List String := g.sources .reads field

def writersOf (g : CallGraph) (field : String) : List String := g.sources .writes field

/-- Whether the index and the keys of a graph say what its symbols and arcs are. -/
structure InStep (g : CallGraph) : Prop where
  index : ∀ id n, g.index.get? id = some n ↔ g.idAt? n = some id
  keys : ∀ a, a ∈ g.keys ↔ a ∈ g.arcs
  nodup : g.arcs.Nodup
  ends : ∀ a ∈ g.arcs, ∃ e, g.edge? a = some e

variable {g : CallGraph}

theorem ensure_cases (g : CallGraph) (s : Symbol) :
    (∃ n, g.index.get? s.id = some n ∧ g.ensure s = (n, g)) ∨
    (g.index.get? s.id = none ∧ g.ensure s = (g.symbols.length,
      { g with symbols := g.symbols ++ [s], index := g.index.insert s.id g.symbols.length })) := by
  unfold ensure
  cases h : g.index.get? s.id with
  | some n => exact .inl ⟨n, rfl, rfl⟩
  | none => exact .inr ⟨rfl, rfl⟩

/-- A symbol keeps its number and its kind. -/
theorem getElem?_symbols_ensure {n : Nat} {s t : Symbol} (h : g.symbols[n]? = some s) :
    (g.ensure t).2.symbols[n]? = some s := by
  rcases g.ensure_cases t with ⟨m, -, heq⟩ | ⟨-, heq⟩
  · rw [heq]
    exact h
  · rw [heq]
    exact (List.getElem?_append_left (List.getElem?_eq_some_iff.1 h).1).trans h

theorem idAt?_ensure_of_eq {n : Nat} {id : String} (h : g.idAt? n = some id) (t : Symbol) :
    (g.ensure t).2.idAt? n = some id := by
  obtain ⟨s, hs, rfl⟩ := Option.map_eq_some_iff.1 h
  rw [idAt?, getElem?_symbols_ensure hs, Option.map_some]

theorem idAt?_concat (g : CallGraph) (s : Symbol) (index : Table String Nat) (n : Nat) :
    { g with symbols := g.symbols ++ [s], index }.idAt? n =
      if n = g.symbols.length then some s.id else g.idAt? n := by
  unfold idAt?
  rcases Nat.lt_trichotomy n g.symbols.length with hlt | rfl | hgt
  · rw [List.getElem?_append_left hlt, if_neg (Nat.ne_of_lt hlt)]
  · simp
  · rw [if_neg (Nat.ne_of_gt hgt), List.getElem?_eq_none (Nat.le_of_lt hgt),
      List.getElem?_eq_none (by simp; omega)]

theorem edge?_eq_some_iff {a : Arc} {e : Edge} :
    g.edge? a = some e ↔
      g.idAt? a.source = some e.source ∧ g.idAt? a.target = some e.target ∧ a.kind = e.kind := by
  obtain ⟨source, target, kind⟩ := e
  simp only [edge?, Option.bind_eq_some_iff, Option.map_eq_some_iff, Edge.mk.injEq]
  constructor
  · rintro ⟨_, hsource, _, htarget, rfl, rfl, hkind⟩
    exact ⟨hsource, htarget, hkind⟩
  · rintro ⟨hsource, htarget, hkind⟩
    exact ⟨_, hsource, _, htarget, rfl, rfl, hkind⟩

theorem edge?_ensure_of_eq {a : Arc} {e : Edge} (h : g.edge? a = some e) (s : Symbol) :
    (g.ensure s).2.edge? a = some e := by
  obtain ⟨hsource, htarget, hkind⟩ := edge?_eq_some_iff.1 h
  exact edge?_eq_some_iff.2 ⟨idAt?_ensure_of_eq hsource s, idAt?_ensure_of_eq htarget s, hkind⟩

namespace InStep

theorem empty : InStep .empty where
  index id n := by simp [CallGraph.empty, Table.get?, Table.empty, idAt?]
  keys _ := Iff.rfl
  nodup := .nil
  ends _ ha := absurd ha List.not_mem_nil

theorem idAt?_ensure (hg : g.InStep) (s : Symbol) :
    (g.ensure s).2.idAt? (g.ensure s).1 = some s.id := by
  rcases g.ensure_cases s with ⟨n, hget, heq⟩ | ⟨-, heq⟩
  · rw [heq]
    exact (hg.index _ _).1 hget
  · simp [heq, idAt?]

theorem ensure (hg : g.InStep) (s : Symbol) : (g.ensure s).2.InStep := by
  have hends : ∀ a ∈ g.arcs, ∃ e, (g.ensure s).2.edge? a = some e := by
    intro a ha
    obtain ⟨e, he⟩ := hg.ends a ha
    exact ⟨e, edge?_ensure_of_eq he s⟩
  rcases g.ensure_cases s with ⟨n, -, heq⟩ | ⟨hnone, heq⟩
  · rw [heq]
    exact hg
  · rw [heq] at hends ⊢
    refine ⟨fun id n => ?_, hg.keys, hg.nodup, hends⟩
    rw [Table.get?_insert, idAt?_concat]
    by_cases hn : n = g.symbols.length
    · have hfree : g.index.get? id ≠ some n := by
        rw [Ne, hg.index, hn, idAt?, List.getElem?_eq_none (Nat.le_refl _)]
        simp
      by_cases hid : id = s.id
      · simp [hid, hn]
      · simp [hid, hn ▸ hfree, hn, Ne.symm hid]
    · by_cases hid : id = s.id
      · simp [hid, hn, Ne.symm hn, ← hg.index, hnone]
      · simp [hid, hn, hg.index]

theorem link (hg : g.InStep) {a : Arc} {e : Edge} (ha : g.edge? a = some e) :
    (g.link a).2.InStep := by
  unfold CallGraph.link
  split
  · exact hg
  · rename_i hnew
    refine ⟨hg.index, fun b => ?_, ?_, fun b hb => ?_⟩
    · rw [List.mem_cons, hg.keys, List.mem_append, List.mem_singleton, or_comm]
    · rw [hg.keys] at hnew
      exact List.nodup_append.2 ⟨hg.nodup, List.pairwise_singleton _ _, fun b hb c hc heq =>
        hnew (List.mem_singleton.1 hc ▸ heq ▸ hb)⟩
    · rcases List.mem_append.1 hb with hb | hb
      · exact hg.ends b hb
      · exact ⟨e, List.mem_singleton.1 hb ▸ ha⟩

/-- The ends of an edge are there before it is linked. -/
theorem edge?_ends (hg : g.InStep) (e : Edge) :
    let source := g.ensure ⟨e.source, .method⟩
    let target := source.2.ensure ⟨e.target, e.kind.targetKind⟩
    target.2.edge? ⟨source.1, target.1, e.kind⟩ = some e :=
  edge?_eq_some_iff.2 ⟨idAt?_ensure_of_eq (hg.idAt?_ensure _) _, (hg.ensure _).idAt?_ensure _, rfl⟩

theorem insert (hg : g.InStep) (e : Edge) : (g.insert e).2.InStep :=
  ((hg.ensure _).ensure _).link (hg.edge?_ends e)

theorem addEdges (hg : g.InStep) (es : List Edge) : (es.foldl addEdge g).InStep := by
  induction es generalizing g with
  | nil => exact hg
  | cons e es ih => exact ih (hg.insert e)

end InStep

end CallGraph

end Backslice
