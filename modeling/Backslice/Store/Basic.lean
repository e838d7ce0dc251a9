import Backslice.Record
import Backslice.Store.Predicate

namespace Backslice

/-- Slices as documents, in the order they came. -/
structure Store where
  documents : List Json
  deriving Inhabited

namespace Store

def empty : Store := ⟨[]⟩

def size (s : Store) : Nat := s.documents.length

def insert (s : Store) (r : Record) : Store := ⟨s.documents ++ [r.toJson]⟩

def select (s : Store) (ps : List Predicate) : List Json :=
  s.documents.filter (Predicate.holdAll ps)

def nodePredicate (id : String) : Predicate := .eq ⟨["nodeId"]⟩ (.str id)

def groupPredicate (id : String) : Predicate := .eq ⟨["groupId"]⟩ (.str id)

/-- The conditions on a merged slice of a group. -/
def mergedPredicates (group : String) : List Predicate :=
  [.missing ⟨["nodeId"]⟩, groupPredicate group]

def containsNode (s : Store) (id : String) : Bool := !(s.select [nodePredicate id]).isEmpty

theorem containsNode_insert_of_containsNode {s : Store} {id : String} (h : s.containsNode id = true)
    (r : Record) : (s.insert r).containsNode id = true := by
  simp only [containsNode, select, insert, Bool.not_eq_true', List.isEmpty_eq_false_iff,
    ne_eq, List.filter_append, List.append_eq_nil_iff, not_and] at h ⊢
  exact fun h' => absurd h' h

theorem holdAll_nodePredicate_toJson {r : Record} {id : String} (h : r.nodeId? = some id) :
    Predicate.holdAll [nodePredicate id] r.toJson = true := by
  simp [Predicate.holdAll, Predicate.holds, nodePredicate, Path.resolve_singleton, Path.step,
    Record.toJson, h, List.lookup_cons, Predicate.matchesValue, Json.same]

theorem containsNode_insert_self (s : Store) {r : Record} {id : String} (h : r.nodeId? = some id) :
    (s.insert r).containsNode id = true := by
  simp [containsNode, select, insert, holdAll_nodePredicate_toJson h]

/-- Inserts a slice unless its node is there; says whether it did. -/
def insertIfAbsent (s : Store) (r : Record) : Bool × Store :=
  if r.nodeId?.any s.containsNode then (false, s) else (true, s.insert r)

theorem insertIfAbsent_of_new {s : Store} {r : Record} {id : String} (hid : r.nodeId? = some id)
    (hnew : s.containsNode id = false) : s.insertIfAbsent r = (true, s.insert r) := by
  simp [insertIfAbsent, hid, hnew]

def readRecord (doc : Json) : Except SliceError Record :=
  match Record.ofJson? doc with
  | some r => .ok r
  | none => .error .malformedRecord

def selectAll (s : Store) (ps : List Predicate) : Except SliceError (List Record) :=
  (s.select ps).mapM readRecord

def selectOne (s : Store) (ps : List Predicate) : Except SliceError (Option Record) :=
  match s.select ps with
  | [] => .ok none
  | doc :: _ => (readRecord doc).map some

/-- Puts the slice in place of every document that meets the conditions, and counts them. -/
def update (s : Store) (r : Record) (ps : List Predicate) : Nat × Store :=
  ((s.select ps).length,
    ⟨s.documents.map fun doc => if Predicate.holdAll ps doc then r.toJson else doc⟩)

def delete (s : Store) (ps : List Predicate) : Nat × Store :=
  ((s.select ps).length, ⟨s.documents.filter fun doc => !Predicate.holdAll ps doc⟩)

end Store

end Backslice
