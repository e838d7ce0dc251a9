import Backslice.Proofs.Turns
import Backslice.Proofs.Visit

namespace Backslice

namespace Store

def ofRecords (rs : List Record) : Store := ⟨rs.map Record.toJson⟩

theorem insert_ofRecords (rs : List Record) (r : Record) :
    (ofRecords rs).insert r = ofRecords (rs ++ [r]) := by
  simp [insert, ofRecords]

theorem holds_nodePredicate_toJson (id : String) (r : Record) :
    (nodePredicate id).holds r.toJson = true ↔ r.nodeId? = some id := by
  cases h : r.nodeId? with
  | none => simp [Predicate.holds, nodePredicate, Path.resolve_singleton, Path.step,
      Record.toJson, h, List.lookup_cons]
  | some id' => simp [Predicate.holds, nodePredicate, Path.resolve_singleton, Path.step,
      Record.toJson, h, List.lookup_cons, Predicate.matchesValue, Json.same, Predicate.scalarText?]

theorem containsNode_ofRecords (rs : List Record) (id : String) :
    (ofRecords rs).containsNode id = true ↔ ∃ r ∈ rs, r.nodeId? = some id := by
  simp [containsNode, select, ofRecords, Predicate.holdAll, holds_nodePredicate_toJson]

end Store

theorem Config.signedDepth_of_lt {n : Nat} (h : n < 2 ^ 31) : Config.signedDepth n = n := by
  unfold signedDepth
  exact Int.bmod_eq_of_le (by omega) (by omega)

theorem Walk.criterion_run (s : Surroundings) (w : Walk) (cursor : Nat) :
    (w.run s cursor).criterion = w.criterion := by
  fun_induction run s w cursor with
  | case1 => rfl
  | case2 w index tail v h ih =>
    rw [ih]
    unfold takeLoop? at h
    split at h
    · cases h
      rfl
    · cases h
  | case3 w index _ ih => exact ih.trans (congrArg (·.1) (visitAt_fixed s w index))

/-- Whether the depth of a criterion is a signed number of 32 bits. -/
def Criterion.FitsDepth (c : Criterion) : Prop := -0x80000000 ≤ c.depth ∧ c.depth < 0x80000000

namespace Analysis

variable {a : Analysis} {w : Walk} {c d : Criterion}

theorem isSome_walk?_iff :
    (a.walk? c).isSome = true ↔ ∃ body, a.bodyOf? c.caller = some body ∧ c.index < body.length := by
  unfold walk?
  cases a.bodyOf? c.caller with
  | none => simp
  | some body => by_cases h : c.index < body.length <;> simp [h]

theorem criterion_of_walk? (h : a.walk? c = some w) : w.criterion = c := by
  unfold walk? at h
  split at h
  · cases h
  · split at h
    · cases h
      unfold Walk.ofCriterion
      rw [Walk.criterion_run]
      exact congrArg (·.1) (Walk.plantSeed_fixed _ _)
    · cases h

structure Stands (a : Analysis) (d : Criterion) (depth : Int) (group : String) : Prop where
  resolves : ∃ body, a.bodyOf? d.caller = some body ∧ d.index < body.length
  depth : d.depth = depth
  group : d.group? = some group

theorem stands_criterionAt {caller target : String} {kind : TargetKind} {body : Body}
    {i : Instruction} {depth : Int} {group : String} {positions : List Int} {live : LiveSet}
    (hbody : a.bodyOf? caller = some body) (hi : i ∈ body) :
    a.Stands (criterionAt caller target kind body i depth group positions live) depth group := by
  have hpos : 0 < body.length := List.length_pos_of_mem hi
  refine ⟨⟨body, hbody, ?_⟩, rfl, rfl⟩
  simp only [criterionAt]
  omega

theorem stands_of_mem_callSites (h : d ∈ a.callSites w) :
    a.Stands d (w.criterion.depth + 1) w.criterion.rootId ∧
      w.criterion.depth + 1 ≤ Config.signedDepth a.config.maxUpwardDepth := by
  simp only [callSites] at h
  split at h
  · cases h
  · rename_i hlimit
    obtain ⟨caller, -, h⟩ := List.mem_flatMap.1 h
    split at h
    · cases h
    · rename_i body hbody
      obtain ⟨i, hi, h⟩ := List.mem_filterMap.1 h
      split at h
      · cases h
      · split at h
        · cases h
          simp only [Bool.or_eq_true, decide_eq_true_eq, not_or] at hlimit
          exact ⟨stands_criterionAt hbody hi, by omega⟩
        · cases h

theorem stands_of_mem_returnSites {callee : MethodSig} (h : d ∈ a.returnSites w callee) :
    a.Stands d (w.criterion.depth - 1) w.criterion.rootId ∧
      -Config.signedDepth a.config.maxDownwardDepth ≤ w.criterion.depth - 1 := by
  simp only [returnSites] at h
  split at h
  · cases h
  · rename_i hlimit
    split at h
    · cases h
    · rename_i body hbody
      obtain ⟨i, hi, h⟩ := List.mem_filterMap.1 h
      split at h
      · cases h
        simp only [Bool.or_eq_true, decide_eq_true_eq, not_or] at hlimit
        exact ⟨stands_criterionAt hbody hi, by omega⟩
      · cases h

theorem stands_of_mem_storeSites {field : FieldSig} (h : d ∈ a.storeSites w field) :
    a.Stands d w.criterion.depth w.criterion.rootId := by
  simp only [storeSites] at h
  split at h
  · cases h
  · obtain ⟨writer, -, h⟩ := List.mem_flatMap.1 h
    split at h
    · cases h
    · rename_i body hbody
      obtain ⟨i, hi, h⟩ := List.mem_filterMap.1 h
      split at h
      · split at h
        · cases h
          exact stands_criterionAt hbody hi
        · cases h
      · cases h

/-- A child stands one call above or below its parent, or level with it, and no further out than
the limits allow. -/
theorem stands_of_mem_children (h : d ∈ a.children w) :
    ∃ depth, a.Stands d depth w.criterion.rootId ∧
      (depth = w.criterion.depth ∨
        depth = w.criterion.depth + 1 ∧ depth ≤ Config.signedDepth a.config.maxUpwardDepth ∨
        depth = w.criterion.depth - 1 ∧
          -Config.signedDepth a.config.maxDownwardDepth ≤ depth) := by
  rcases List.mem_append.1 h with h | h
  · obtain ⟨s, -, h⟩ := List.mem_flatMap.1 h
    cases s with
    | downward callee =>
      rw [spawned] at h
      obtain ⟨hstands, hle⟩ := stands_of_mem_returnSites h
      exact ⟨_, hstands, .inr (.inr ⟨rfl, hle⟩)⟩
    | fieldWriters field =>
      rw [spawned] at h
      exact ⟨_, stands_of_mem_storeSites h, .inl rfl⟩
  · obtain ⟨hstands, hle⟩ := stands_of_mem_callSites h
    exact ⟨_, hstands, .inr (.inl ⟨rfl, hle⟩)⟩

theorem signedDepth_bounds (n : Nat) :
    -0x80000000 ≤ Config.signedDepth n ∧ Config.signedDepth n < 0x80000000 := by
  have hle := Int.le_bmod (x := n) (m := 0x100000000) (by decide)
  have hlt := Int.bmod_lt (x := n) (m := 0x100000000) (by decide)
  unfold Config.signedDepth
  omega

theorem fitsDepth_of_mem_children (hw : w.criterion.FitsDepth) (h : d ∈ a.children w) :
    d.FitsDepth := by
  obtain ⟨depth, hstands, hdepth⟩ := stands_of_mem_children h
  have hup := signedDepth_bounds a.config.maxUpwardDepth
  have hdown := signedDepth_bounds a.config.maxDownwardDepth
  unfold Criterion.FitsDepth at hw ⊢
  rw [hstands.depth]
  omega

def IsChild (a : Analysis) (c d : Criterion) : Prop :=
  ∃ w, a.walk? c = some w ∧ d ∈ a.children w

structure IsOffspring (a : Analysis) (roots : List Criterion) (d : Criterion) : Prop where
  resolves : ∃ body, a.bodyOf? d.caller = some body ∧ d.index < body.length
  depth_ge : -(a.config.maxDownwardDepth : Int) ≤ d.depth
  depth_le : d.depth ≤ a.config.maxUpwardDepth
  group : ∃ root ∈ roots, Relation.TransGen a.IsChild root d ∧ d.group? = some root.id

theorem isOffspring_of_isChild {roots : List Criterion}
    (hup : a.config.maxUpwardDepth < 2 ^ 31) (hdown : a.config.maxDownwardDepth < 2 ^ 31)
    (hroots : ∀ root ∈ roots, root.depth = 0 ∧ root.group? = none)
    (hc : c ∈ roots ∨ a.IsOffspring roots c) (h : a.IsChild c d) : a.IsOffspring roots d := by
  obtain ⟨w, hw, hd⟩ := h
  obtain ⟨depth, hstands, hdepth⟩ := stands_of_mem_children hd
  rw [Config.signedDepth_of_lt hup, Config.signedDepth_of_lt hdown] at hdepth
  rw [criterion_of_walk? hw] at hdepth hstands
  -- A child moves by one call at most, and the limit on the side it moves to holds it back.
  have hbounds : -(a.config.maxDownwardDepth : Int) ≤ c.depth ∧
      c.depth ≤ a.config.maxUpwardDepth := by
    rcases hc with hroot | hc
    · have := (hroots c hroot).1
      omega
    · exact ⟨hc.depth_ge, hc.depth_le⟩
  have hgroup : ∃ root ∈ roots, Relation.ReflTransGen a.IsChild root c ∧ c.rootId = root.id := by
    rcases hc with hroot | hc
    · exact ⟨c, hroot, .refl, by simp [Criterion.rootId, (hroots c hroot).2]⟩
    · obtain ⟨root, hroot, hpath, hgroup⟩ := hc.group
      exact ⟨root, hroot, hpath.to_reflTransGen, by simp [Criterion.rootId, hgroup]⟩
  obtain ⟨root, hroot, hpath, hid⟩ := hgroup
  refine ⟨hstands.resolves, ?_, ?_, root, hroot, ?_, ?_⟩
  · rw [hstands.depth]
    omega
  · rw [hstands.depth]
    omega
  · exact .tail' hpath ⟨w, hw, hd⟩
  · rw [hstands.group, hid]

end Analysis

namespace Worklist

/-- From criteria whose depths are signed numbers of 32 bits a run never gets to others. -/
theorem fitsDepth_of_turns {a : Analysis} {start w : Worklist} (hturns : Turns a start w)
    (h : ∀ c ∈ start.queue, c.FitsDepth) : ∀ c ∈ w.queue, c.FitsDepth := by
  refine turns_preserve (P := fun w => ∀ c ∈ w.queue, c.FitsDepth) ?_ hturns h
  intro u v hturn hu
  cases hturn with
  | @slice c rest hqueue =>
    rw [hqueue] at hu
    have hrest : ∀ d ∈ rest, d.FitsDepth := fun d hd => hu d (List.mem_cons_of_mem _ hd)
    rcases process_cases a { u with queue := rest } c with
      ⟨-, heq⟩ | ⟨-, -, heq⟩ | ⟨-, walk, hwalk, heq⟩
    · rw [heq]
      exact hrest
    · rw [heq]
      exact hrest
    · rw [heq]
      intro d hd
      rcases List.mem_append.1 hd with hd | hd
      · exact hrest d hd
      · refine Analysis.fitsDepth_of_mem_children ?_ hd
        rw [Analysis.criterion_of_walk? hwalk]
        exact hu c List.mem_cons_self

end Worklist

end Backslice
