namespace Backslice

theorem length_filter_le_of_imp {α : Type} {p q : α → Bool} (l : List α)
    (h : ∀ x, q x = true → p x = true) : (l.filter q).length ≤ (l.filter p).length := by
  simpa only [List.countP_eq_length_filter] using List.countP_mono_left fun x _ => h x

theorem length_filter_lt_of_mem {α : Type} {p q : α → Bool} {l : List α} {x : α} (hx : x ∈ l)
    (hp : p x = true) (hq : q x = false) (h : ∀ y, q y = true → p y = true) :
    (l.filter q).length < (l.filter p).length := by
  induction l with
  | nil => cases hx
  | cons y ys ih =>
    rcases List.mem_cons.1 hx with rfl | hx
    · simp only [List.filter_cons, hp, hq]
      exact Nat.lt_succ_of_le (length_filter_le_of_imp ys h)
    · have := ih hx
      simp only [List.filter_cons]
      cases hqy : q y
      · cases p y <;> simp <;> omega
      · simp [h y hqy, this]

end Backslice
