import Backslice.Config.Basic
import Backslice.Merge.Paths
import Backslice.Replay.DeadLines
import Backslice.Replay.Folding
import Backslice.Store.Basic

namespace Backslice

structure MergeStats where
  paths : Nat := 0
  written : Nat := 0
  /-- Paths that start at a parameter nobody passes. -/
  dropped : Nat := 0
  deadLines : Nat := 0
  foldedLines : Nat := 0
  truncated : Bool := false
  deriving DecidableEq, Repr, Inhabited

def MergeStats.add (a b : MergeStats) : MergeStats where
  paths := a.paths + b.paths
  written := a.written + b.written
  dropped := a.dropped + b.dropped
  deadLines := a.deadLines + b.deadLines
  foldedLines := a.foldedLines + b.foldedLines
  truncated := a.truncated || b.truncated

/-- A store with what has been looked up in it by node id, found or not. -/
structure Merger where
  store : Store
  seen : Table String (Option Record)
  deriving Inhabited

namespace Merger

def ofStore (s : Store) : Merger := ⟨s, .empty⟩

/-- The first slice of each node in the store. -/
def storedIndex (s : Store) : Index :=
  s.documents.foldr (fun doc index =>
    match Record.ofJson? doc with
    | some r => match r.nodeId? with
      | some id => index.insert id r
      | none => index
    | none => index) .empty

/-- The slices by node id. What was seen before counts, even if the store has changed. -/
def index (m : Merger) : Index :=
  m.seen.entries.foldl (fun index e =>
    match e.2 with
    | some r => index.insert e.1 r
    | none => index.erase e.1) (storedIndex m.store)

def see (index : Index) (seen : Table String (Option Record)) (id : String) :
    Table String (Option Record) :=
  if seen.contains id then seen else seen.insert id (index.get? id)

/-- The slices of the group are looked up anew. -/
def seeGroup (seen : Table String (Option Record)) (records : List Record) :
    Table String (Option Record) :=
  records.foldl (fun seen r =>
    match r.nodeId? with
    | some id => seen.insert id (some r)
    | none => seen) seen

def relatedOf (index : Index) (id : String) : List String :=
  ((index.get? id).map (·.related)).getD []

/-- The first line of a path is that of its first segment with any. -/
def startsAtParameter (segments : List Record) : Bool :=
  (segments.findSome? fun r => r.content.head?).any fun l => l.kind = .parameterIdentity

def renumber (lines : List Line) : List Line := lines.mapIdx fun i l => { l with number := i }

/-- What becomes of a path. -/
inductive Merged where
  | dropped
  | written (r : Record) (deadLines foldedLines : Nat)
  deriving Inhabited

/-- One slice of the segments of a path, which goes from the root to a leaf. -/
def mergePath (p : Program) (config : Config) (index : Index) (root : String)
    (path : List String) : Merged :=
  let segments := (path.filterMap index.get?).reverse
  match segments.getLast? with
  | none => .dropped
  | some last =>
    if startsAtParameter segments then .dropped
    else
      let optimize := config.optimize && 1 < segments.length
      let dead := if optimize then Replay.deadPlaces p segments else []
      let lines := (segments.flatMap (·.content)).filter fun l => (l.method, l.source) ∉ dead
      let folded :=
        if optimize && config.foldStringConstants then Folding.pass p lines [] else (0, lines)
      .written
        { group := root, related := path, caller := last.caller, target := last.target,
          positions := last.positions, live := last.live, content := renumber folded.2 }
        dead.length folded.1

def addPath (p : Program) (config : Config) (index : Index) (root : String)
    (acc : MergeStats × Store) (path : List String) : MergeStats × Store :=
  let stats := { acc.1 with paths := acc.1.paths + 1 }
  match mergePath p config index root path with
  | .dropped => ({ stats with dropped := stats.dropped + 1 }, acc.2)
  | .written r dead folded =>
    ({ stats with
        written := stats.written + 1
        deadLines := stats.deadLines + dead
        foldedLines := stats.foldedLines + folded },
      acc.2.insert r)

/-- Merges the slices of the group with this root, one slice for each path. A group that has merged
slices is left alone. -/
def mergeGroup (p : Program) (config : Config) (m : Merger) (root : String) :
    Except SliceError MergeStats × Merger :=
  if !(m.store.select (Store.mergedPredicates root)).isEmpty then (.ok {}, m)
  else match m.store.selectAll [Store.groupPredicate root] with
    | .error e => (.error e, m)
    | .ok records =>
      let m := { m with seen := seeGroup m.seen records }
      let index := m.index
      let seen := see index m.seen root
      if !index.contains root then
        (.error (.unresolved ("slice group root " ++ root)), { m with seen })
      else
        let found := index.firstPaths (config.maxMergePaths + 1) [root]
        let visited := found.flatten.flatMap fun id => id :: relatedOf index id
        let (stats, store) := (found.take config.maxMergePaths).foldl
          (addPath p config index root) ({}, m.store)
        (.ok { stats with truncated := config.maxMergePaths < found.length },
          ⟨store, visited.foldl (see index) seen⟩)

end Merger

end Backslice
