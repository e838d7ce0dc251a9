import Backslice.Walk.Effect

/-!
What an effect kills: the local that the instruction assigns, or the field that it stores to. What
an instruction reads never adds to it.
-/

namespace Backslice

def Stmt.Assigns (s : Stmt) (x : String) : Prop := ∃ l, s.assigned? = some l ∧ l.name = x

namespace Effect

@[simp] theorem kill_generating (e : Effect) (id : String) : (e.generating id).kill = e.kill := rfl

@[simp] theorem kill_spawning (e : Effect) (s : Spawn) : (e.spawning s).kill = e.kill := rfl

@[simp] theorem kill_attach (e : Effect) (c : Constant) (slot : Ty) :
    (e.attach c slot).kill = e.kill := by
  unfold attach
  split
  · split <;> rfl
  · rfl

@[simp] theorem kill_reading (e : Effect) (slot : Ty) (v : Value) :
    (e.reading slot v).kill = e.kill := by
  unfold reading
  split <;> simp

@[simp] theorem kill_generatingLocal (e : Effect) (v : Value) :
    (e.generatingLocal v).kill = e.kill := by
  unfold generatingLocal
  split <;> simp

theorem kill_readingText (e : Effect) (slot : Ty) (v : Value) :
    (e.readingText slot v).kill = e.kill := by
  unfold readingText
  split
  · split <;> simp
  · simp

theorem kill_foldl {α : Type} {f : Effect → α → Effect} (h : ∀ e a, (f e a).kill = e.kill)
    (l : List α) (e : Effect) : (l.foldl f e).kill = e.kill := by
  induction l generalizing e with
  | nil => rfl
  | cons a l ih => rw [List.foldl_cons, ih, h]

@[simp] theorem kill_readingArgs (e : Effect) (c : Call) : (e.readingArgs c).kill = e.kill :=
  kill_foldl (fun _ _ => kill_reading ..) _ e

@[simp] theorem kill_readingTextArgs (e : Effect) (c : Call) :
    (e.readingTextArgs c).kill = e.kill :=
  kill_foldl (fun _ _ => kill_readingText ..) _ e

theorem of_mem_kill_ofPlainCall {live : LiveSet} {c : Call} {result : Option Local} {x : String}
    (h : x ∈ (ofPlainCall live c result).kill) : ∃ r, result = some r ∧ r.name = x := by
  simp only [ofPlainCall] at h
  cases hr : result.filter fun r => live.contains r.name with
  | none =>
    rw [hr] at h
    cases hf : c.ids.find? live.contains <;> cases hb : c.base <;>
      simp [hf, hb, retained, skip] at h
  | some r =>
    rw [hr] at h
    have hx : r.name = x := by
      cases hb : c.base <;> simpa [hb, retained, killing, eq_comm] using h
    exact ⟨r, (Option.filter_eq_some_iff.1 hr).1, hx⟩

/-- A call kills the local that its result goes to. -/
theorem of_mem_kill_ofCall {live : LiveSet} {c : Call} {result : Option Local} {x : String}
    (h : x ∈ (ofCall live c result).kill) : ∃ r, result = some r ∧ r.name = x := by
  unfold ofCall at h
  split at h
  · unfold ofBulkCopy at h
    split at h
    · split at h
      · split at h <;> simp [retained] at h
      · cases h
    · cases h
  · split at h
    · simp [retained] at h
    · exact of_mem_kill_ofPlainCall h

theorem mem_kill_of_ifLive {live : LiveSet} {id x : String} {e : Effect}
    (h : x ∈ (ifLive live id e).kill) : x ∈ e.kill := by
  unfold ifLive at h
  split at h
  · exact h
  · cases h

theorem of_mem_kill_ofDefinition {s : Surroundings} {kind : UnitKind} {dest : Local} {rhs : Value}
    {x : String} (h : x ∈ (ofDefinition s kind dest rhs).kill) : dest.name = x := by
  unfold ofDefinition at h
  split at h
  case h_11 =>
    split at h
    · cases h
    · split at h <;> split at h <;> simpa [retained, killing, eq_comm] using h
  case h_12 => cases h
  all_goals simpa [retained, killing, eq_comm] using h

/-- What an instruction kills is the local that it assigns, or the field that it stores to. -/
theorem assigns_of_mem_kill {s : Surroundings} {live : LiveSet} {method : String} {index : Nat}
    {stmt : Stmt} {x : String}
    (h : x ∈ (ofInstruction s live (.ofStmt method index stmt)).kill) :
    stmt.Assigns x ∨ ∃ field : FieldSig, field.text = x := by
  have field {f : FieldSig} {e : Effect} (hf : x ∈ (ifLive live f.text e).kill)
      (he : e.kill = [f.text]) : ∃ field : FieldSig, field.text = x :=
    ⟨f, (List.mem_singleton.1 (he ▸ mem_kill_of_ifLive hf)).symm⟩
  unfold ofInstruction at h
  split at h
  case h_2 => cases h
  rename_i kind hkind
  change x ∈ (ofStmt s live kind stmt).kill at h
  unfold ofStmt at h
  split at h
  · split at h
    · obtain ⟨r, hr, -⟩ := of_mem_kill_ofCall h
      cases hr
    · cases h
  · rename_i dest rhs
    have hx : dest.name = x := by
      split at h
      · simpa [retained, killing, eq_comm] using mem_kill_of_ifLive h
      · simpa [retained, killing, eq_comm] using mem_kill_of_ifLive h
      · cases h
    exact .inl ⟨dest, rfl, hx⟩
  · rename_i dest c
    split at h
    · obtain ⟨r, hr, hx⟩ := of_mem_kill_ofCall h
      cases hr
      exact .inl ⟨dest, rfl, hx⟩
    · exact .inl ⟨dest, rfl, of_mem_kill_ofDefinition (mem_kill_of_ifLive h)⟩
  · rename_i dest rhs _
    exact .inl ⟨dest, rfl, of_mem_kill_ofDefinition (mem_kill_of_ifLive h)⟩
  · -- a store to an element kills nothing
    split at h
    · simpa [retained] using mem_kill_of_ifLive h
    · simpa [retained] using mem_kill_of_ifLive h
    · cases h
  · split at h
    · exact .inr (field h (by simp [retained, killing]))
    · exact .inr (field h (by simp [retained, killing]))
    · cases h
  · cases h

end Effect

end Backslice
