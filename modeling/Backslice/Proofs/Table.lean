import Backslice.Table

namespace Backslice.Table

section
variable {κ α : Type} [LT κ]

def map {β : Type} (f : α → β) (t : Table κ α) : Table κ β :=
  ⟨t.entries.map fun e => (e.1, f e.2), List.pairwise_map.2 t.sorted⟩

theorem values_map {β : Type} (f : α → β) (t : Table κ α) : (t.map f).values = t.values.map f := by
  simp [values, map]

variable [DecidableEq κ]

@[simp] theorem contains_empty (k : κ) : (empty : Table κ α).contains k = false := rfl

theorem contains_eq_true_iff (t : Table κ α) (k : κ) : t.contains k = true ↔ k ∈ t.keys := by
  simp [contains, keys]

theorem mem_keys_insertEntry [DecidableLT κ] (k k' : κ) (v : α) (l : List (κ × α)) :
    k' ∈ (insertEntry k v l).map (·.1) ↔ k' = k ∨ k' ∈ l.map (·.1) := by
  induction l with
  | nil => simp [insertEntry]
  | cons e rest ih =>
    obtain ⟨k₁, v₁⟩ := e
    simp only [insertEntry]
    by_cases hlt : k < k₁
    · simp [hlt]
    · by_cases heq : k = k₁
      · subst heq
        simp [hlt]
      · simp only [hlt, heq, if_false, List.map_cons, List.mem_cons, ih]
        exact or_left_comm

@[simp] theorem contains_erase (t : Table κ α) (k k' : κ) :
    (t.erase k).contains k' = (decide (k' ≠ k) && t.contains k') := by
  rw [Bool.eq_iff_iff, contains_eq_true_iff]
  simp only [keys, erase, contains, List.mem_map, List.mem_filter, Bool.and_eq_true,
    decide_eq_true_eq, List.any_eq_true]
  constructor
  · rintro ⟨e, ⟨he, hne⟩, rfl⟩
    exact ⟨hne, e, he, rfl⟩
  · rintro ⟨hne, e, he, rfl⟩
    exact ⟨e, ⟨he, hne⟩, rfl⟩

theorem contains_foldl_erase (ks : List κ) (t : Table κ α) (k : κ) :
    (ks.foldl erase t).contains k = (decide (k ∉ ks) && t.contains k) := by
  induction ks generalizing t with
  | nil => simp
  | cons k' ks ih =>
    rw [List.foldl_cons, ih, contains_erase, Bool.eq_iff_iff]
    simp only [Bool.and_eq_true, decide_eq_true_eq, List.mem_cons, not_or]
    constructor
    · rintro ⟨hks, hne, ht⟩
      exact ⟨⟨hne, hks⟩, ht⟩
    · rintro ⟨⟨hne, hks⟩, ht⟩
      exact ⟨hks, hne, ht⟩

theorem get?_map {β : Type} (f : α → β) (t : Table κ α) (k : κ) :
    (t.map f).get? k = (t.get? k).map f := by
  simp [get?, map, List.find?_map, Function.comp_def]

theorem insertEntry_map {β : Type} [DecidableLT κ] (f : α → β) (k : κ) (v : α) (l : List (κ × α)) :
    (insertEntry k v l).map (fun e => (e.1, f e.2)) =
      insertEntry k (f v) (l.map fun e => (e.1, f e.2)) := by
  induction l with
  | nil => rfl
  | cons e rest ih =>
    simp only [insertEntry, List.map_cons]
    split
    · rfl
    · split
      · rfl
      · rw [List.map_cons, ih]

end

section
variable {κ α : Type} [LE κ] [LT κ] [DecidableLT κ] [DecidableEq κ]
  [Std.IsLinearOrder κ] [Std.LawfulOrderLT κ]

theorem map_insert {β : Type} (f : α → β) (t : Table κ α) (k : κ) (v : α) :
    (t.insert k v).map f = (t.map f).insert k (f v) := by
  simp only [insert, map, insertEntry_map]

@[simp] theorem contains_insert (t : Table κ α) (k k' : κ) (v : α) :
    (t.insert k v).contains k' = (decide (k' = k) || t.contains k') := by
  have h := mem_keys_insertEntry k k' v t.entries
  rw [Bool.eq_iff_iff, contains_eq_true_iff]
  simpa [contains_eq_true_iff, keys, insert] using h

omit [DecidableLT κ] [Std.IsLinearOrder κ] in
theorem get?_erase (t : Table κ α) (k k' : κ) :
    (t.erase k).get? k' = if k' = k then none else t.get? k' := by
  ext v'
  rw [get?_eq_some_iff]
  split
  · rename_i h
    simp [erase, h]
  · rename_i h
    simp [erase, h, get?_eq_some_iff]

omit [DecidableLT κ] in
/-- A table is what it gives for each key. -/
theorem ext_get? {s t : Table κ α} (h : ∀ k, s.get? k = t.get? k) : s = t := by
  have hmem (e : κ × α) : e ∈ s.entries ↔ e ∈ t.entries := by
    rw [← get?_eq_some_iff, ← get?_eq_some_iff, h]
  have hne {e f : κ × α} (hlt : e.1 < f.1) : e ≠ f := by
    rintro rfl
    exact Std.lt_irrefl hlt
  have hperm : s.entries.Perm t.entries :=
    (List.perm_ext_iff_of_nodup (s.sorted.imp hne) (t.sorted.imp hne)).2 hmem
  have heq := hperm.eq_of_pairwise
    (fun e f _ _ hlt hgt => absurd (Std.lt_trans hlt hgt) Std.lt_irrefl) s.sorted t.sorted
  cases s
  cases t
  cases heq
  rfl

omit [DecidableLT κ] [Std.IsLinearOrder κ] in
/-- What a fold over the entries of a table gives for a key is decided by the entry of that key, if
every step sets its own key and no other. -/
theorem get?_foldl_entries {β : Type} {f : Table κ β → κ × α → Table κ β} {g : α → Option β}
    (hf : ∀ t e k, (f t e).get? k = if k = e.1 then g e.2 else t.get? k) (s : Table κ α)
    (t : Table κ β) (k : κ) :
    (s.entries.foldl f t).get? k = ((s.get? k).map g).getD (t.get? k) := by
  suffices hlist : ∀ (l : List (κ × α)), (l.Pairwise fun a b => a.1 < b.1) → ∀ t,
      (l.foldl f t).get? k =
        (((l.find? fun e => e.1 = k).map (·.2)).map g).getD (t.get? k) from
    hlist s.entries s.sorted t
  intro l hl
  induction l with
  | nil => exact fun _ => rfl
  | cons e rest ih =>
    intro t
    obtain ⟨hhead, hrest⟩ := List.pairwise_cons.1 hl
    rw [List.foldl_cons, ih hrest, hf]
    by_cases hk : e.1 = k
    · have hnone : rest.find? (fun e => e.1 = k) = none := by
        rw [List.find?_eq_none]
        intro e' he' heq
        rw [decide_eq_true_eq] at heq
        exact Std.lt_irrefl (heq ▸ hk ▸ hhead e' he')
      simp [hnone, hk]
    · simp [hk, Ne.symm hk]

theorem ofList_entries (t : Table κ α) : ofList t.entries = t := by
  apply ext_get?
  intro k
  rw [ofList, get?_foldl_entries (g := some) fun t e k => get?_insert t e.1 k e.2]
  cases t.get? k <;> rfl

end

end Backslice.Table
