import Backslice.Merge.Basic
import Backslice.Worklist

namespace Backslice

/-- A program made ready for slicing. -/
structure Pipeline where
  program : Program
  config : Config
  build : Build
  deriving Inhabited

/-- What came of a request: the ids of its root criteria and the merged slices of their groups. -/
structure Run where
  roots : List String
  merged : List Record
  slicing : SliceStats
  merging : MergeStats
  deriving Inhabited

namespace Pipeline

def filter (p : Pipeline) : ClassFilter := ⟨p.config.excludedNamespaces⟩

def create (program : Program) (config : Config) : Except SliceError Pipeline :=
  match config.validate with
  | .error e => .error (.config e)
  | .ok _ => .ok ⟨program, config, .ofProgram ⟨config.excludedNamespaces⟩ program⟩

def addClass (p : Pipeline) (c : ClassSource) : Pipeline :=
  { p with program := p.program.addClass c }

def addPhantom (p : Pipeline) (name : String) : Pipeline :=
  { p with program := p.program.addPhantom name }

/-- Takes in the classes that are new; gives the number of new edges. -/
def refresh (p : Pipeline) : Nat × Pipeline :=
  let build := p.build.extend p.filter p.program
  (build.graph.edgeCount - p.build.graph.edgeCount, { p with build })

def analysis (p : Pipeline) : Analysis := ⟨p.program, p.build, p.config⟩

/-- Merges the group of a root and finds its merged slices. A local error skips the merging. -/
def mergeRoot (p : Pipeline) (m : Merger) (root : String) :
    Except SliceError (MergeStats × List Record) × Merger :=
  let found (m : Merger) (stats : MergeStats) :=
    (m.store.selectAll (Store.mergedPredicates root)).map fun records => (stats, records)
  match m.mergeGroup p.program p.config root with
  | (.error e, m) => (if e.isLocal then found m {} else .error e, m)
  | (.ok stats, m) => (found m stats, m)

/-- Merges the groups of the roots one after another, up to the first that fails. -/
def mergeRoots (p : Pipeline) (m : Merger) :
    List String → Except SliceError (MergeStats × List Record) × Store
  | [] => (.ok ({}, []), m.store)
  | root :: roots =>
    match p.mergeRoot m root with
    | (.error e, m) => (.error e, m.store)
    | (.ok (stats, found), m) =>
      let (rest, store) := p.mergeRoots m roots
      (rest.map fun (more, records) => (stats.add more, found ++ records), store)

def slice (p : Pipeline) (store : Store) (r : Request) : Except SliceError Run × Store :=
  let criteria := r.criteria p.program
  let roots := criteria.map Criterion.id
  let w := Worklist.sliceAll p.analysis ⟨[], store, {}⟩ criteria
  if p.config.merge then
    let (result, store) := p.mergeRoots (.ofStore w.store) roots
    (result.map fun (stats, merged) => ⟨roots, merged, w.stats, stats⟩, store)
  else (.ok ⟨roots, [], w.stats, {}⟩, w.store)

/-- Slices the requests in order, up to the first that fails. -/
def sliceBatch (p : Pipeline) (store : Store) : List Request → Except SliceError (List Run) × Store
  | [] => (.ok [], store)
  | r :: rs =>
    match p.slice store r with
    | (.error e, store) => (.error e, store)
    | (.ok run, store) =>
      let (runs, store) := p.sliceBatch store rs
      (runs.map (run :: ·), store)

end Pipeline

end Backslice
