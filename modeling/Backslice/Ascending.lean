namespace Backslice.Ascending

variable {α : Type} [DecidableEq α]

/-- Puts an element in its place in an ascending list, unless it is there already. -/
def insert (lt : α → α → Bool) (x : α) : List α → List α
  | [] => [x]
  | y :: ys => if x = y then y :: ys else if lt x y then x :: y :: ys else y :: insert lt x ys

/-- The elements in ascending order, each once. -/
def ofList (lt : α → α → Bool) (l : List α) : List α := l.foldr (insert lt) []

theorem mem_insert {lt : α → α → Bool} {x y : α} {l : List α} :
    y ∈ insert lt x l ↔ y = x ∨ y ∈ l := by
  induction l with
  | nil => simp [insert]
  | cons z zs ih =>
    simp only [insert]
    split
    · rename_i eq
      subst eq
      simp
    · split
      · simp
      · simp only [List.mem_cons, ih]
        exact or_left_comm

theorem mem_ofList {lt : α → α → Bool} {x : α} {l : List α} : x ∈ ofList lt l ↔ x ∈ l := by
  induction l with
  | nil => simp [ofList]
  | cons y ys ih =>
    simp only [ofList, List.foldr_cons, mem_insert, List.mem_cons]
    exact or_congr_right ih

/-- A strict order in which any two different elements are related. -/
structure StrictOrder (lt : α → α → Bool) : Prop where
  irrefl (x : α) : lt x x = false
  trans {x y z : α} : lt x y = true → lt y z = true → lt x z = true
  total {x y : α} : x ≠ y → lt x y = false → lt y x = true

theorem pairwise_insert {lt : α → α → Bool} (o : StrictOrder lt) (x : α) {l : List α}
    (h : l.Pairwise (lt · ·)) : (insert lt x l).Pairwise (lt · ·) := by
  induction l with
  | nil => simp [insert]
  | cons y ys ih =>
    have ⟨hy, hys⟩ := List.pairwise_cons.1 h
    simp only [insert]
    split
    · exact h
    · rename_i ne
      split
      · rename_i lt
        refine List.pairwise_cons.2 ⟨fun z hz => ?_, h⟩
        rcases List.mem_cons.1 hz with rfl | hz
        · exact lt
        · exact o.trans lt (hy z hz)
      · rename_i nlt
        refine List.pairwise_cons.2 ⟨fun z hz => ?_, ih hys⟩
        rcases mem_insert.1 hz with rfl | hz
        · exact o.total ne (Bool.not_eq_true _ ▸ nlt)
        · exact hy z hz

theorem pairwise_ofList {lt : α → α → Bool} (o : StrictOrder lt) (l : List α) :
    (ofList lt l).Pairwise (lt · ·) := by
  induction l with
  | nil => exact .nil
  | cons x xs ih => exact pairwise_insert o x ih

omit [DecidableEq α] in
theorem eq_of_pairwise {lt : α → α → Bool} (o : StrictOrder lt) {l l' : List α}
    (h : l.Pairwise (lt · ·)) (h' : l'.Pairwise (lt · ·)) (mem : ∀ x, x ∈ l ↔ x ∈ l') :
    l = l' := by
  induction l generalizing l' with
  | nil => exact (List.eq_nil_iff_forall_not_mem.2 fun x hx => by simpa using (mem x).2 hx).symm
  | cons x xs ih =>
    cases l' with
    | nil => simpa using (mem x).1 (List.mem_cons_self ..)
    | cons y ys =>
      have ⟨hx, hxs⟩ := List.pairwise_cons.1 h
      have ⟨hy, hys⟩ := List.pairwise_cons.1 h'
      have notLt (z : α) : ¬ lt z z = true := by simp [o.irrefl z]
      have eq : x = y := by
        rcases List.mem_cons.1 ((mem x).1 (List.mem_cons_self ..)) with eq | hxy
        · exact eq
        · rcases List.mem_cons.1 ((mem y).2 (List.mem_cons_self ..)) with eq | hyx
          · exact eq.symm
          · exact absurd (o.trans (hx y hyx) (hy x hxy)) (notLt x)
      subst eq
      congr 1
      refine ih hxs hys fun z => ⟨fun hz => ?_, fun hz => ?_⟩
      · rcases List.mem_cons.1 ((mem z).1 (List.mem_cons_of_mem _ hz)) with rfl | hz'
        · exact absurd (hx z hz) (notLt z)
        · exact hz'
      · rcases List.mem_cons.1 ((mem z).2 (List.mem_cons_of_mem _ hz)) with rfl | hz'
        · exact absurd (hy z hz) (notLt z)
        · exact hz'

/-- Order and repetition do not matter. -/
theorem ofList_congr {lt : α → α → Bool} (o : StrictOrder lt) {l l' : List α}
    (mem : ∀ x, x ∈ l ↔ x ∈ l') : ofList lt l = ofList lt l' :=
  eq_of_pairwise o (pairwise_ofList o l) (pairwise_ofList o l') fun x => by
    rw [mem_ofList, mem_ofList, mem]

omit [DecidableEq α] in
/-- Sorting different elements puts them in strict order. -/
theorem pairwise_mergeSort {lt : α → α → Bool} (o : StrictOrder lt) {l : List α} (h : l.Nodup) :
    (l.mergeSort fun x y => !lt y x).Pairwise (lt · ·) := by
  have total : ∀ x y, (!lt y x || !lt x y) = true := by
    intro x y
    cases hlt : lt x y with
    | false => simp
    | true =>
      cases hgt : lt y x with
      | false => rfl
      | true => simpa [o.irrefl] using o.trans hlt hgt
  have trans : ∀ x y z, (!lt y x) = true → (!lt z y) = true → (!lt z x) = true := by
    intro x y z hyx hzy
    simp only [Bool.not_eq_true'] at hyx hzy ⊢
    by_cases eq : x = y
    · exact eq ▸ hzy
    · cases hzx : lt z x with
      | false => rfl
      | true => exact (o.trans hzx (o.total (Ne.symm eq) hyx)).symm.trans hzy
  refine (List.pairwise_mergeSort trans total l).imp₂ (fun x y hle ne => ?_)
    ((List.mergeSort_perm l _).nodup_iff.2 h)
  exact o.total (Ne.symm ne) (by simpa using hle)

/-- The order of pairs by the first component, then the second. -/
def pairLt (a b : Nat × Nat) : Bool := a.1 < b.1 || (a.1 = b.1 && a.2 < b.2)

def textLt (a b : String) : Bool := a < b

theorem strictOrder_textLt : StrictOrder textLt where
  irrefl x := by simp [textLt]
  trans h h' := by
    simp only [textLt, decide_eq_true_eq] at h h' ⊢
    exact Std.lt_trans h h'
  total ne h := by
    simp only [textLt, decide_eq_true_eq, decide_eq_false_iff_not] at h ⊢
    exact Std.lt_of_le_of_ne (Std.not_lt.1 h) (Ne.symm ne)

omit [DecidableEq α] in
/-- Two strict orders one after the other, on two parts that make up an element. -/
theorem StrictOrder.lex {β γ : Type} [DecidableEq β] {ltFirst : β → β → Bool}
    {ltSecond : γ → γ → Bool} (o : StrictOrder ltFirst) (o' : StrictOrder ltSecond)
    (first : α → β) (second : α → γ)
    (inj : ∀ x y, first x = first y → second x = second y → x = y) :
    StrictOrder fun x y => ltFirst (first x) (first y) ||
      (first x = first y && ltSecond (second x) (second y)) where
  irrefl x := by simp [o.irrefl, o'.irrefl]
  trans {x y z} h h' := by
    simp only [Bool.or_eq_true, Bool.and_eq_true, decide_eq_true_eq] at h h' ⊢
    rcases h with h | ⟨heq, h⟩
    · rcases h' with h' | ⟨heq', -⟩
      · exact .inl (o.trans h h')
      · exact .inl (heq' ▸ h)
    · rcases h' with h' | ⟨heq', h'⟩
      · exact .inl (heq ▸ h')
      · exact .inr ⟨heq.trans heq', o'.trans h h'⟩
  total {x y} ne h := by
    simp only [Bool.or_eq_false_iff] at h
    by_cases heq : first x = first y
    · have ne' : second x ≠ second y := fun hsecond => ne (inj x y heq hsecond)
      have hgt := o'.total ne' (by simpa [heq] using h.2)
      simp [heq, hgt]
    · simp [o.total heq h.1]

end Backslice.Ascending
