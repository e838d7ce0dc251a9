import Backslice.CallGraph.Branches
import Backslice.CallGraph.Constants
import Backslice.CallGraph.Graph
import Backslice.Program.Basic

namespace Backslice

/-- Leaves out the classes whose names start with one of the given texts. -/
structure ClassFilter where
  excluded : List String
  deriving DecidableEq, Repr, Inhabited

namespace ClassFilter

def excludes (f : ClassFilter) (name : String) : Bool :=
  f.excluded.any fun start => Text.startsWith name start

def accepts (f : ClassFilter) (c : ClassDef) : Bool := !c.isPhantom && !f.excludes c.name

end ClassFilter

structure BuildStats where
  classes : Nat := 0
  methods : Nat := 0
  skipped : Nat := 0
  constants : Nat := 0
  deriving DecidableEq, Repr, Inhabited

/-- What one pass over the classes of a program has found. -/
structure Build where
  graph : CallGraph
  inStep : graph.InStep
  constants : ConstantTable
  branches : Table String Branches
  stats : BuildStats
  processed : List String

namespace Build

def empty : Build := ⟨.empty, .empty, .empty, .empty, {}, []⟩

instance : Inhabited Build := ⟨empty⟩

def isProcessed (b : Build) (cls : String) : Bool := cls ∈ b.processed

/-- The recorded jumps of a method, or those of the body at hand. -/
def branchesFor (b : Build) (method : String) (body : Body) : Branches :=
  (b.branches.get? method).getD (.ofBody body)

/-- The edges that a statement of a method gives rise to. Fields count if their class is loaded. -/
def edgesOf (p : Program) (method : String) (s : Stmt) : List Edge :=
  let call := s.call?.toList.map fun c => Edge.mk method c.method.text .calls
  let access (v : Value) (kind : EdgeKind) : List Edge :=
    (v.field?.toList.filter fun f => p.isLoaded f.cls).map fun f => Edge.mk method f.text kind
  match s with
  | .assign lhs rhs => call ++ access lhs .writes ++ access rhs .reads
  | _ => call

/-- Adds what an instruction of a method shows: its edges and its jumps. -/
def addInstruction (p : Program) (method : String) (found : CallGraph × Branches)
    (i : Instruction) : CallGraph × Branches :=
  ((edgesOf p method i.stmt).foldl CallGraph.addEdge found.1, found.2.record i.index i.stmt)

/-- Adds a method and all that its body shows. -/
def addBody (p : Program) (method : String) (g : CallGraph) (body : Body) :
    CallGraph × Branches :=
  body.foldl (addInstruction p method) ((g.ensure ⟨method, .method⟩).2, .empty)

theorem foldl_addInstruction (p : Program) (method : String) (body : Body)
    (found : CallGraph × Branches) :
    body.foldl (addInstruction p method) found =
      ((body.flatMap fun i => edgesOf p method i.stmt).foldl CallGraph.addEdge found.1,
        body.foldl (fun b i => b.record i.index i.stmt) found.2) := by
  induction body generalizing found with
  | nil => rfl
  | cons i body ih => rw [List.foldl_cons, ih, List.flatMap_cons, List.foldl_append]; rfl

/-- One pass over a body finds its edges in order, and its jumps. -/
theorem addBody_eq (p : Program) (method : String) (g : CallGraph) (body : Body) :
    addBody p method g body =
      ((body.flatMap fun i => edgesOf p method i.stmt).foldl CallGraph.addEdge
        (g.ensure ⟨method, .method⟩).2, .ofBody body) :=
  foldl_addInstruction p method body _

theorem inStep_addBody {p : Program} {method : String} {g : CallGraph} {body : Body}
    (hg : g.InStep) : (addBody p method g body).1.InStep := by
  rw [addBody_eq]
  exact (hg.ensure _).addEdges _

def addMethod (p : Program) (b : Build) (m : MethodSig) : Build :=
  match p.body m with
  | .error _ => { b with stats := { b.stats with skipped := b.stats.skipped + 1 } }
  | .ok body =>
    let found := addBody p m.text b.graph body
    { b with
      graph := found.1
      inStep := inStep_addBody b.inStep
      branches := b.branches.insert m.text found.2
      stats := { b.stats with methods := b.stats.methods + 1 } }

def addConstant (t : ConstantTable) (f : FieldDef) : ConstantTable :=
  match f.staticFinal? with
  | some value => t.record f.sig value
  | none => t

def addClass (p : Program) (b : Build) (c : ClassDef) : Build :=
  let b := { b with constants := c.fields.foldl addConstant b.constants }
  let b := c.concreteMethods.foldl (addMethod p) b
  { b with
    processed := b.processed ++ [c.name]
    stats := { b.stats with classes := b.stats.classes + 1 } }

/-- Adds the accepted classes that were not seen before. -/
def extend (f : ClassFilter) (p : Program) (b : Build) : Build :=
  let b := p.loadedClasses.foldl
    (fun b c => if f.accepts c && !b.isProcessed c.name then addClass p b c else b) b
  { b with stats := { b.stats with constants := b.constants.size } }

def ofProgram (f : ClassFilter) (p : Program) : Build := extend f p empty

end Build

end Backslice
