import Backslice.Counting
import Backslice.Record

namespace Backslice

/-- The slices that can be reached, by node id. -/
abbrev Index := Table String Record

namespace Index

/-- The related slices of the last node of a trail that are not on it. Trails have their last node
first. -/
def next (index : Index) : List String → List String
  | [] => []
  | last :: trail =>
    match index.get? last with
    | none => []
    | some r => r.related.filter fun id => index.contains id && id ∉ last :: trail

/-- The ids that a trail may still come to. -/
def unvisited (index : Index) (trail : List String) : Nat :=
  (index.keys.filter (· ∉ trail)).length

theorem contains_iff_mem_keys {index : Index} {id : String} :
    index.contains id = true ↔ id ∈ index.keys := by
  simp [Table.contains, Table.keys]

theorem unvisited_lt {index : Index} {trail : List String} {id : String}
    (h : id ∈ index.next trail) : index.unvisited (id :: trail) < index.unvisited trail := by
  unfold next at h
  split at h
  · cases h
  · split at h
    · cases h
    · simp only [List.mem_filter, Bool.and_eq_true, decide_eq_true_eq] at h
      exact length_filter_lt_of_mem (contains_iff_mem_keys.1 h.2.1) (by simp [h.2.2]) (by simp)
        (by simp only [decide_eq_true_eq]; exact fun y hy hm => hy (List.mem_cons_of_mem _ hm))

/-- The ways to go on from a trail until no related slice is left, depth first. -/
def paths (index : Index) (trail : List String) : List (List String) :=
  if (index.next trail).isEmpty then [trail.reverse]
  else (index.next trail).attach.flatMap fun ⟨id, _h⟩ => paths index (id :: trail)
termination_by index.unvisited trail
decreasing_by exact unvisited_lt _h

/-- The first few of the ways to go on from a trail. -/
def firstPaths (index : Index) (limit : Nat) (trail : List String) : List (List String) :=
  if limit = 0 then []
  else if (index.next trail).isEmpty then [trail.reverse]
  else (index.next trail).attach.foldl
    (fun found ⟨id, _h⟩ => found ++ firstPaths index (limit - found.length) (id :: trail)) []
termination_by index.unvisited trail
decreasing_by exact unvisited_lt _h

end Index

end Backslice
