import Backslice.Proofs.RecordDocument

namespace Backslice.Store

inductive Insertion where
  | always (r : Record)
  | ifAbsent (r : Record)

namespace Insertion

def record : Insertion → Record
  | .always r => r
  | .ifAbsent r => r

def apply (s : Store) : Insertion → Store
  | .always r => s.insert r
  | .ifAbsent r => (s.insertIfAbsent r).2

def adds (stored : List Record) : Insertion → Bool
  | .always _ => true
  | .ifAbsent r => r.nodeId?.isNone || stored.all fun earlier => earlier.nodeId? ≠ r.nodeId?

def addTo (stored : List Record) (i : Insertion) : List Record :=
  if i.adds stored then stored ++ [i.record] else stored

/-- The slices that a sequence of calls stores, in the order of the calls. -/
def kept (calls : List Insertion) : List Record := calls.foldl addTo []

theorem any_containsNode_ofRecords (stored : List Record) (r : Record) :
    r.nodeId?.any (ofRecords stored).containsNode = !(ifAbsent r).adds stored := by
  cases hid : r.nodeId? with
  | none => simp [adds, hid]
  | some id =>
    rw [Bool.eq_iff_iff, Option.any_some, containsNode_ofRecords]
    simp [adds, hid]

theorem apply_ofRecords (stored : List Record) (i : Insertion) :
    i.apply (.ofRecords stored) = .ofRecords (i.addTo stored) := by
  cases i with
  | always r => exact insert_ofRecords stored r
  | ifAbsent r =>
    rw [apply, insertIfAbsent, any_containsNode_ofRecords, addTo]
    cases (ifAbsent r).adds stored with
    | true => exact insert_ofRecords stored r
    | false => rfl

theorem foldl_apply_ofRecords (calls : List Insertion) (stored : List Record) :
    calls.foldl apply (.ofRecords stored) = .ofRecords (calls.foldl addTo stored) := by
  induction calls generalizing stored with
  | nil => rfl
  | cons i calls ih => rw [List.foldl_cons, apply_ofRecords, ih, List.foldl_cons]

theorem mem_addTo {stored : List Record} {i : Insertion} {r : Record} (h : r ∈ i.addTo stored) :
    r ∈ stored ∨ r = i.record := by
  unfold addTo at h
  split at h
  · simpa using h
  · exact .inl h

theorem mem_kept {calls : List Insertion} {r : Record} (h : r ∈ kept calls) :
    ∃ i ∈ calls, r = i.record := by
  unfold kept at h
  induction calls using List.reverseRecOn with
  | nil => cases h
  | append_singleton calls i ih =>
    rw [List.foldl_concat] at h
    rcases mem_addTo h with h | rfl
    · obtain ⟨j, hj, rfl⟩ := ih h
      exact ⟨j, List.mem_append_left _ hj, rfl⟩
    · exact ⟨i, by simp, rfl⟩

end Insertion

/-- Whatever calls an empty store gets, all that it then holds comes back as it was given: the
slices of the calls that add theirs, in the order of the calls. -/
theorem insertions_come_back (calls : List Insertion) (hfits : ∀ i ∈ calls, i.record.Fits) :
    (calls.foldl Insertion.apply .empty).selectAll [] = .ok (Insertion.kept calls) := by
  have hstore : calls.foldl Insertion.apply .empty = ofRecords (Insertion.kept calls) :=
    Insertion.foldl_apply_ofRecords calls []
  have hkept : ∀ r ∈ Insertion.kept calls, r.Fits := by
    intro r hr
    obtain ⟨i, hi, rfl⟩ := Insertion.mem_kept hr
    exact hfits i hi
  rw [hstore, selectAll_ofRecords hkept (q := fun _ => true) fun _ => rfl, List.filter_true]

/-- A slice for the result and the first operand of a call, with a line that has the last index
there is and an empty list of literals. -/
def cipherSlice : Record where
  nodeId? := some "n1"
  group := "g"
  caller := "<a.B: void m()>"
  target := "doFinal"
  positions := [-1, 0]
  live := .ofList [("r1", "r1")]
  content := [⟨"r1 = r2", .assignVariable, "<a.B: void m()>", 0, 0xFFFFFFFFFFFFFFFF, some []⟩]

/-- The slice under its node twice if absent and once in any case, then twice without a node. -/
def repeatedCalls : List Insertion :=
  [.ifAbsent cipherSlice, .ifAbsent cipherSlice, .always cipherSlice,
   .ifAbsent { cipherSlice with nodeId? := none }, .ifAbsent { cipherSlice with nodeId? := none }]

theorem insertions_come_back_repeatedCalls :
    (∀ i ∈ repeatedCalls, i.record.Fits) ∧
    (repeatedCalls.foldl Insertion.apply .empty).selectAll [] =
      .ok [cipherSlice, cipherSlice, { cipherSlice with nodeId? := none },
        { cipherSlice with nodeId? := none }] := by
  have hfits : ∀ i ∈ repeatedCalls, i.record.Fits := by
    unfold Record.Fits
    decide
  exact ⟨hfits, (insertions_come_back repeatedCalls hfits).trans rfl⟩

end Backslice.Store
