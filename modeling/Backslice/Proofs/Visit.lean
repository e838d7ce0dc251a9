import Backslice.Proofs.Table
import Backslice.Walk.Basic

namespace Backslice.Walk

@[simp] theorem live_makeAllLive (origin : String) (w : Walk) (ids : List String) (id : String) :
    (makeAllLive origin w ids).live.contains id = (decide (id ∈ ids) || w.live.contains id) := by
  unfold makeAllLive
  induction ids generalizing w with
  | nil => simp
  | cons x ids ih =>
    have hone : (makeLive origin w x).live.contains id =
        (decide (id = x) || w.live.contains id) := by
      unfold makeLive
      split
      · rename_i hx
        by_cases h : id = x
        · simp [h, hx]
        · simp [h]
      · simp
    rw [List.foldl_cons, ih, hone, Bool.eq_iff_iff]
    simp only [Bool.or_eq_true, decide_eq_true_eq, List.mem_cons, or_assoc]
    exact or_left_comm

@[simp] theorem lines_makeAllLive (origin : String) (w : Walk) (ids : List String) :
    (makeAllLive origin w ids).lines = w.lines := by
  unfold makeAllLive
  induction ids generalizing w with
  | nil => rfl
  | cons x ids ih =>
    rw [List.foldl_cons, ih]
    unfold makeLive
    split <;> rfl

@[simp] theorem live_retain (w : Walk) (i : Instruction) (constants : List String) :
    (w.retain i constants).live = w.live := by
  unfold retain; split <;> rfl

theorem lines_retain (w : Walk) (i : Instruction) (constants : List String) (k : Nat) :
    (w.retain i constants).lines.contains k =
      ((i.kind?.isSome && decide (k = i.index)) || w.lines.contains k) := by
  unfold retain
  split <;> rename_i hk <;> simp [hk]

theorem live_lines_addSpawns (w : Walk) (ss : List Spawn) :
    (ss.foldl addSpawn w).live = w.live ∧ (ss.foldl addSpawn w).lines = w.lines := by
  induction ss generalizing w with
  | nil => exact ⟨rfl, rfl⟩
  | cons s ss ih =>
    rw [List.foldl_cons, (ih _).1, (ih _).2]
    unfold addSpawn
    split <;> exact ⟨rfl, rfl⟩

/-- An effect takes its ids out of the live set where no jump passes over the index, and then puts
in those it follows. -/
theorem live_apply (w : Walk) (index : Nat) (e : Effect) (id : String) :
    (w.apply index e).live.contains id =
      (decide (id ∈ e.gen) ||
        ((w.mayDefineOnly index || decide (id ∉ e.kill)) && w.live.contains id)) := by
  have hkill : (if w.mayDefineOnly index then w
      else { w with live := e.kill.foldl Table.erase w.live }).live.contains id =
        ((w.mayDefineOnly index || decide (id ∉ e.kill)) && w.live.contains id) := by
    split
    · rename_i h
      simp [h]
    · rename_i h
      simp [h, Table.contains_foldl_erase]
  simp only [apply, (live_lines_addSpawns _ _).1]
  cases e.ordinal? <;> simp only [addOrdinal, live_makeAllLive, hkill]

@[simp] theorem lines_apply (w : Walk) (index : Nat) (e : Effect) :
    (w.apply index e).lines = w.lines := by
  simp only [apply, (live_lines_addSpawns _ _).2]
  cases e.ordinal? <;> simp only [addOrdinal, lines_makeAllLive] <;> split <;> rfl

theorem seed_of_fixed {w v : Walk} (h : w.fixed = v.fixed) : w.seed = v.seed := by
  have hc : w.criterion = v.criterion := congrArg (·.1) h
  have hb : w.body = v.body := congrArg (·.2.1) h
  unfold seed programIndex
  rw [hc, hb]

theorem mayDefineOnly_of_fixed {w v : Walk} (h : w.fixed = v.fixed) (index : Nat) :
    w.mayDefineOnly index = v.mayDefineOnly index := by
  have hj : w.jumps = v.jumps := congrArg (·.2.2.2) h
  unfold mayDefineOnly
  rw [hj, seed_of_fixed h]

theorem lines_transfer (s : Surroundings) (w : Walk) (index : Nat) (i : Instruction) {k : Nat}
    (hk : k ≠ i.index) : (w.transfer s index i).lines.contains k = w.lines.contains k := by
  simp only [transfer]
  split
  · rw [lines_apply, lines_retain]
    simp [hk]
  · rfl

/-- A visit touches no line but that of its instruction. -/
theorem lines_visit (s : Surroundings) (w : Walk) (index : Nat) (i : Instruction) {k : Nat}
    (hk : k ≠ i.index) : (w.visit s index i).lines.contains k = w.lines.contains k := by
  unfold visit
  split
  · split
    · rw [lines_makeAllLive, lines_retain]
      simp [hk]
    · rfl
  · rw [lines_makeAllLive, lines_retain]
    simp [hk]
  · split
    · rw [lines_retain]
      simp [hk]
    · rfl
  · split
    · rfl
    · exact lines_transfer s w index i hk
  · rfl

/-- An id leaves the live set only if the instruction kills it and no jump may pass over the
index. -/
theorem live_visit (s : Surroundings) (w : Walk) {index : Nat} (i : Instruction) {id : String}
    (h : w.mayDefineOnly index = true ∨ id ∉ (Effect.ofInstruction s w.live i).kill)
    (hid : w.live.contains id = true) : (w.visit s index i).live.contains id = true := by
  have htransfer : (w.transfer s index i).live.contains id = true := by
    simp only [transfer]
    split
    · rw [live_apply, mayDefineOnly_of_fixed (retain_fixed w i _) index, live_retain]
      rcases h with h | h <;> simp [h, hid]
    · exact hid
  unfold visit
  split
  · split
    · simp [hid]
    · exact hid
  · simp [hid]
  · split
    · simp [hid]
    · exact hid
  · split
    · exact hid
    · exact htransfer
  · exact hid

/-- Where a jump may pass over the index, nothing leaves the live set. -/
theorem live_visit_of_mayDefineOnly (s : Surroundings) (w : Walk) {index : Nat} (i : Instruction)
    (h : w.mayDefineOnly index = true) {id : String} (hid : w.live.contains id = true) :
    (w.visit s index i).live.contains id = true :=
  live_visit s w i (.inl h) hid

theorem plantSeed_fixed (constants : ConstantTable) (w : Walk) :
    (w.plantSeed constants).fixed = w.fixed := by
  unfold plantSeed
  split
  · exact retain_fixed w _ _
  · rfl

theorem live_plantSeed (constants : ConstantTable) (w : Walk) :
    (w.plantSeed constants).live = w.live := by
  unfold plantSeed
  split
  · exact live_retain w _ _
  · rfl

theorem run_of_loop {s : Surroundings} {w v : Walk} {index tail : Nat}
    (h : w.takeLoop? index = some (tail, v)) : w.run s (index + 1) = v.run s (tail + 1) := by
  rw [run]
  split
  · rename_i heq
    rw [h] at heq
    cases heq
    rfl
  · rename_i heq
    rw [h] at heq
    cases heq

theorem run_of_no_loop {s : Surroundings} {w : Walk} {index : Nat}
    (h : w.takeLoop? index = none) : w.run s (index + 1) = (w.visitAt s index).run s index := by
  rw [run]
  split
  · rename_i heq
    rw [h] at heq
    cases heq
  · rfl

/-- A loop is taken from its head to its tail, around the seed. -/
theorem edge_of_takeLoop? {w v : Walk} {index tail : Nat}
    (h : w.takeLoop? index = some (tail, v)) :
    (tail, index) ∈ w.loops ∧ index ≤ w.seed ∧ w.seed < tail ∧
      v = { w with loops := w.loops.erase (tail, index) } := by
  unfold takeLoop? at h
  split at h
  · rename_i edge hfound
    simp only [Option.some.injEq, Prod.mk.injEq] at h
    obtain ⟨rfl, rfl⟩ := h
    have hencloses := List.find?_some hfound
    simp only [encloses, Bool.and_eq_true, decide_eq_true_eq] at hencloses
    obtain ⟨⟨rfl, hhead⟩, htail⟩ := hencloses
    exact ⟨List.mem_of_find?_eq_some hfound, hhead, htail, rfl⟩
  · cases h

end Backslice.Walk
