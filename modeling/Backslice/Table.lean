namespace Backslice

/-- A finite map, held as its entries in strictly increasing key order. -/
structure Table (κ α : Type) [LT κ] where
  entries : List (κ × α)
  sorted : entries.Pairwise fun a b => a.1 < b.1

namespace Table

section
variable {κ α : Type} [LT κ] [DecidableLT κ] [DecidableEq κ]

/-- Puts an entry in its place, over the entry of the same key if there is one. -/
def insertEntry (k : κ) (v : α) : List (κ × α) → List (κ × α)
  | [] => [(k, v)]
  | (k', v') :: rest =>
    if k < k' then (k, v) :: (k', v') :: rest
    else if k = k' then (k, v) :: rest
    else (k', v') :: insertEntry k v rest

theorem mem_insertEntry {k : κ} {v : α} {e : κ × α} {l : List (κ × α)}
    (h : e ∈ insertEntry k v l) : e = (k, v) ∨ e ∈ l := by
  induction l with
  | nil => simpa [insertEntry] using h
  | cons a rest ih =>
    obtain ⟨k', v'⟩ := a
    simp only [insertEntry] at h
    split at h
    · simpa using h
    · split at h
      · rcases List.mem_cons.1 h with h | h
        · exact .inl h
        · exact .inr (List.mem_cons_of_mem _ h)
      · rcases List.mem_cons.1 h with h | h
        · exact .inr (by simp [h])
        · exact (ih h).imp_right (List.mem_cons_of_mem _)

end

section
variable {κ α : Type} [LE κ] [LT κ] [DecidableLT κ] [DecidableEq κ]
  [Std.IsLinearOrder κ] [Std.LawfulOrderLT κ]

theorem insertEntry_sorted (k : κ) (v : α) {l : List (κ × α)}
    (h : l.Pairwise fun a b => a.1 < b.1) :
    (insertEntry k v l).Pairwise fun a b => a.1 < b.1 := by
  induction l with
  | nil => simp [insertEntry]
  | cons a rest ih =>
    obtain ⟨k', v'⟩ := a
    rw [List.pairwise_cons] at h
    simp only [insertEntry]
    split
    · rename_i lt
      rw [List.pairwise_cons]
      refine ⟨fun e he => ?_, List.pairwise_cons.2 h⟩
      rcases List.mem_cons.1 he with rfl | he
      · exact lt
      · exact Std.lt_trans lt (h.1 e he)
    · rename_i nlt
      split
      · rename_i eq
        subst eq
        exact List.pairwise_cons.2 ⟨fun e he => h.1 e he, h.2⟩
      · rename_i ne
        have gt : k' < k := Std.lt_of_le_of_ne (Std.not_lt.1 nlt) (Ne.symm ne)
        refine List.pairwise_cons.2 ⟨fun e he => ?_, ih h.2⟩
        rcases mem_insertEntry he with rfl | he
        · exact gt
        · exact h.1 e he

def empty : Table κ α := ⟨[], .nil⟩

def insert (t : Table κ α) (k : κ) (v : α) : Table κ α :=
  ⟨insertEntry k v t.entries, insertEntry_sorted k v t.sorted⟩

def erase (t : Table κ α) (k : κ) : Table κ α :=
  ⟨t.entries.filter fun e => e.1 ≠ k, t.sorted.filter _⟩

def get? (t : Table κ α) (k : κ) : Option α :=
  (t.entries.find? fun e => e.1 = k).map (·.2)

def contains (t : Table κ α) (k : κ) : Bool :=
  t.entries.any fun e => e.1 = k

def keys (t : Table κ α) : List κ := t.entries.map (·.1)

def values (t : Table κ α) : List α := t.entries.map (·.2)

def size (t : Table κ α) : Nat := t.entries.length

/-- Later entries go over earlier ones of the same key. -/
def ofList (l : List (κ × α)) : Table κ α :=
  l.foldl (fun t e => t.insert e.1 e.2) empty

theorem mem_keys_insert {t : Table κ α} {k k' : κ} {v : α} (h : k' ∈ (t.insert k v).keys) :
    k' = k ∨ k' ∈ t.keys := by
  obtain ⟨e, he, rfl⟩ := List.mem_map.1 h
  rcases mem_insertEntry he with rfl | he
  · exact .inl rfl
  · exact .inr (List.mem_map.2 ⟨e, he, rfl⟩)

theorem mem_insertEntry_iff {k : κ} {v : α} {e : κ × α} {l : List (κ × α)}
    (hl : l.Pairwise fun a b => a.1 < b.1) :
    e ∈ insertEntry k v l ↔ e = (k, v) ∨ e ∈ l ∧ e.1 ≠ k := by
  induction l with
  | nil => simp [insertEntry]
  | cons a rest ih =>
    obtain ⟨k₁, v₁⟩ := a
    obtain ⟨hhead, hrest⟩ := List.pairwise_cons.1 hl
    have habove {e : κ × α} (he : e ∈ rest) : k₁ < e.1 := hhead e he
    simp only [insertEntry]
    split
    · rename_i hlt
      have hne : ∀ e ∈ (k₁, v₁) :: rest, e.1 ≠ k := by
        intro e he heq
        rcases List.mem_cons.1 he with rfl | he
        · exact Std.lt_irrefl (heq ▸ hlt)
        · exact Std.lt_irrefl (heq ▸ Std.lt_trans hlt (habove he))
      rw [List.mem_cons]
      exact or_congr_right ⟨fun he => ⟨he, hne e he⟩, fun he => he.1⟩
    · split
      · rename_i heq
        subst heq
        have hne : ∀ e ∈ rest, e.1 ≠ k := fun e he heq => Std.lt_irrefl (heq ▸ habove he)
        rw [List.mem_cons, List.mem_cons]
        refine or_congr_right ⟨fun he => ⟨.inr he, hne e he⟩, ?_⟩
        rintro ⟨rfl | he, hk⟩
        · exact absurd rfl hk
        · exact he
      · rename_i hne
        rw [List.mem_cons, List.mem_cons, ih hrest]
        constructor
        · rintro (rfl | rfl | ⟨he, hk⟩)
          · exact .inr ⟨.inl rfl, Ne.symm hne⟩
          · exact .inl rfl
          · exact .inr ⟨.inr he, hk⟩
        · rintro (rfl | ⟨rfl | he, hk⟩)
          · exact .inr (.inl rfl)
          · exact .inl rfl
          · exact .inr (.inr ⟨he, hk⟩)

theorem mem_entries_insert {t : Table κ α} {k : κ} {v : α} {e : κ × α} :
    e ∈ (t.insert k v).entries ↔ e = (k, v) ∨ e ∈ t.entries ∧ e.1 ≠ k :=
  mem_insertEntry_iff t.sorted

omit [DecidableLT κ] [Std.IsLinearOrder κ] in
theorem get?_eq_some_iff {t : Table κ α} {k : κ} {v : α} :
    t.get? k = some v ↔ (k, v) ∈ t.entries := by
  obtain ⟨l, hl⟩ := t
  simp only [get?, Option.map_eq_some_iff]
  induction l with
  | nil => simp
  | cons e rest ih =>
    obtain ⟨hhead, hrest⟩ := List.pairwise_cons.1 hl
    by_cases hk : e.1 = k
    · -- the keys after it are larger
      have hnot : (k, v) ∉ rest := fun h => Std.lt_irrefl (hk ▸ hhead _ h)
      simp [hk, hnot, Prod.ext_iff, eq_comm]
    · have hne : (k, v) ≠ e := fun h => hk (h ▸ rfl)
      simpa [List.find?_cons, hk, hne] using ih hrest

theorem get?_insert (t : Table κ α) (k k' : κ) (v : α) :
    (t.insert k v).get? k' = if k' = k then some v else t.get? k' := by
  ext v'
  rw [get?_eq_some_iff, mem_entries_insert]
  split
  · rename_i h
    subst h
    simp [eq_comm]
  · rename_i h
    simp [h, get?_eq_some_iff]

instance : Inhabited (Table κ α) := ⟨empty⟩

instance [DecidableEq α] : DecidableEq (Table κ α) := fun s t =>
  match decEq s.entries t.entries with
  | isTrue h => isTrue (by cases s; cases t; cases h; rfl)
  | isFalse h => isFalse fun e => h (e ▸ rfl)

end

section
variable {κ α : Type} [LT κ] [DecidableEq κ]

theorem contains_eq_isSome_get? (t : Table κ α) (k : κ) : t.contains k = (t.get? k).isSome := by
  rw [Bool.eq_iff_iff]
  simp [contains, get?]

theorem mem_values_of_get? {t : Table κ α} {k : κ} {v : α} (h : t.get? k = some v) :
    v ∈ t.values := by
  obtain ⟨e, he, rfl⟩ := Option.map_eq_some_iff.1 h
  exact List.mem_map.2 ⟨e, List.mem_of_find?_eq_some he, rfl⟩

end

end Table

end Backslice
