import Mathlib.Data.List.Basic
import Backslice.Analysis.Reach
import Backslice.Proofs.Edges
import Backslice.Proofs.Visits

namespace Backslice

def Value.localName? (v : Value) : Option String := v.local?.map (·.name)

namespace Call

/-- The names of the locals that a call passes at the positions of some parameters. -/
def localsAt (c : Call) (ordinals : List Nat) : List String :=
  ordinals.filterMap fun n => c.operand? (positionOf n) >>= Value.localName?

def localArgs (c : Call) (numbers : List Nat) : List String :=
  numbers.filterMap fun n => c.args[n]? >>= Value.localName?

/-- A parameter is the argument of its number, unless the number is too large for a position. -/
theorem localsAt_eq_localArgs (c : Call) {ordinals : List Nat}
    (h : ∀ n ∈ ordinals, n < 0x80000000) : c.localsAt ordinals = c.localArgs ordinals := by
  refine List.filterMap_congr fun n hn => ?_
  have hlt := h n hn
  have hpos : positionOf n = n := Int.bmod_eq_of_le (by omega) (by omega)
  have hneg : ¬ (n : Int) < 0 := by omega
  simp [operand?, hpos, hneg, arg?]

end Call

namespace Request

theorem mem_keys_addOperands_iff {target : String} {c : Call} {positions : List Int}
    {live : LiveSet} {id : String} :
    id ∈ (positions.foldl (addOperand target c) live).keys ↔
      (∃ p ∈ positions, (c.operand? p >>= Value.localName?) = some id) ∨ id ∈ live.keys := by
  induction positions generalizing live with
  | nil => simp
  | cons p ps ih =>
    have hone : id ∈ (addOperand target c live p).keys ↔
        (c.operand? p >>= Value.localName?) = some id ∨ id ∈ live.keys := by
      unfold addOperand
      split
      · rename_i l hl
        rw [← Table.contains_eq_true_iff, Table.contains_insert, Bool.or_eq_true,
          decide_eq_true_eq, Table.contains_eq_true_iff, hl]
        exact or_congr_left ⟨fun h => h ▸ rfl, fun h => (Option.some.inj h).symm⟩
      · rename_i hl
        have hnone : (c.operand? p >>= Value.localName?) ≠ some id := by
          intro h
          obtain ⟨v, hv, hname⟩ := Option.bind_eq_some_iff.1 h
          cases v with
          | loc l => exact hl l hv
          | _ => cases hname
        exact (or_iff_right hnone).symm
    rw [List.foldl_cons, ih, hone]
    simp only [List.mem_cons, exists_eq_or_imp, or_assoc]
    exact or_left_comm

theorem mem_keys_operandsLive_iff {target : String} {c : Call} {ordinals : List Nat}
    {id : String} :
    id ∈ (operandsLive target c (ordinals.map Call.positionOf)).keys ↔
      id ∈ c.localsAt ordinals := by
  rw [operandsLive, mem_keys_addOperands_iff, Call.localsAt, List.mem_filterMap]
  simp [Table.keys, Table.empty]

theorem mem_keys_localLive_iff {origin : String} {v : Value} {id : String} :
    id ∈ (localLive origin v).keys ↔ id ∈ v.localName?.toList := by
  rw [Option.mem_toList]
  unfold localLive
  split
  · rw [← Table.contains_eq_true_iff, Table.contains_insert]
    simp [Value.localName?, Value.local?, eq_comm]
  · rename_i hv
    have hnone : v.localName? = none := by
      cases v with
      | loc l => exact absurd rfl (hv l)
      | _ => rfl
    simp [hnone, Table.keys, Table.empty]

end Request

namespace Program

def DeclaredReadBack (p : Program) : Prop :=
  ∀ c ∈ p.classes.values, ∀ m ∈ c.methods, MethodSig.parse m.sig.text = .ok m.sig

/-- Whether every method signature that is declared or called is what its text is read as. -/
structure ReadsBack (p : Program) : Prop where
  declared : p.DeclaredReadBack
  called : ∀ body ∈ p.bodies.values, ∀ i ∈ body, ∀ call, i.stmt.call? = some call →
    MethodSig.parse call.method.text = .ok call.method

theorem DeclaredReadBack.parse_of_provides {p : Program} (h : p.DeclaredReadBack)
    {f : ClassFilter} {m : MethodSig} {body : Body} (hm : p.Provides f m body) :
    MethodSig.parse m.text = .ok m := by
  obtain ⟨c, hc, -, hm, -⟩ := hm
  obtain ⟨d, hd, rfl⟩ := List.mem_map.1 hm
  exact h c (List.mem_filter.1 hc).1 d (List.mem_filter.1 hd).1

theorem bodyOf_text {p : Program} {m : MethodSig} (hparse : MethodSig.parse m.text = .ok m) :
    p.bodyOf m.text = p.body m := by
  rw [bodyOf, hparse]
  rfl

end Program

namespace Analysis

variable {a : Analysis} {w : Walk}

theorem bodyOf?_text {m : MethodSig} {body : Body} (hparse : MethodSig.parse m.text = .ok m)
    (hbody : a.program.body m = .ok body) : a.bodyOf? m.text = some body := by
  rw [bodyOf?, Program.bodyOf_text hparse, hbody]
  rfl

theorem bodyOf?_of_provides (hsigs : a.program.DeclaredReadBack) {f : ClassFilter} {m : MethodSig}
    {body : Body} (hm : a.program.Provides f m body) : a.bodyOf? m.text = some body := by
  have hparse := hsigs.parse_of_provides hm
  obtain ⟨-, -, -, -, hbody⟩ := hm
  exact bodyOf?_text hparse hbody

theorem exists_child_of_call {caller : String} {body : Body} {i : Instruction} {call : Call}
    (hdepth : w.criterion.depth + 1 ≤ Config.signedDepth a.config.maxUpwardDepth)
    (hordinals : w.ordinals ≠ [])
    (hcaller : caller ∈ a.build.graph.callersOf w.criterion.caller)
    (hbody : a.bodyOf? caller = some body) (hi : i ∈ body) (hcall : i.stmt.call? = some call)
    (hmethod : call.method.text = w.criterion.caller) :
    ∃ d ∈ a.children w, d.id = Criterion.idOf caller w.criterion.caller
      (body.length - 1 - i.index) (call.localsAt w.ordinals) := by
  let d := criterionAt caller w.criterion.caller .invocation body i (w.criterion.depth + 1)
    w.criterion.rootId (w.ordinals.map Call.positionOf)
    (Request.operandsLive w.criterion.caller call (w.ordinals.map Call.positionOf))
  refine ⟨d, List.mem_append_right _ ?_, Criterion.idOf_congr fun _ =>
    Request.mem_keys_operandsLive_iff⟩
  have hopen : ¬ (decide (Config.signedDepth a.config.maxUpwardDepth < w.criterion.depth + 1) ||
      w.ordinals.isEmpty) = true := by
    simp [hordinals]
    omega
  simp only [callSites, if_neg hopen, List.mem_flatMap]
  refine ⟨caller, hcaller, ?_⟩
  simp only [hbody, List.mem_filterMap]
  exact ⟨i, hi, by simp [hcall, hmethod, d]⟩

theorem exists_child_of_return {callee : MethodSig} {body : Body} {i : Instruction} {v : Value}
    (hspawn : .downward callee ∈ w.spawns)
    (hdepth : -Config.signedDepth a.config.maxDownwardDepth ≤ w.criterion.depth - 1)
    (hprocessed : a.build.isProcessed callee.cls = true)
    (hbody : a.bodyOf? callee.text = some body) (hi : i ∈ body)
    (hkind : i.kind? = UnitKind.ofStmt? i.stmt) (hstmt : i.stmt = .ret v) :
    ∃ d ∈ a.children w, d.id = Criterion.idOf callee.text i.stmt.text
      (body.length - 1 - i.index) v.localName?.toList := by
  let d := criterionAt callee.text i.stmt.text .returnValue body i (w.criterion.depth - 1)
    w.criterion.rootId [] (Request.localLive "return" v)
  have hmem : d ∈ a.returnSites w callee := by
    have hopen : ¬ (decide (w.criterion.depth - 1 < -Config.signedDepth a.config.maxDownwardDepth)
        || !a.build.isProcessed callee.cls) = true := by
      simp [hprocessed]
      omega
    have hreturn : i.kind? = some .returnValue := by
      rw [hkind, hstmt]
      rfl
    simp only [returnSites, if_neg hopen, hbody, List.mem_filterMap]
    exact ⟨i, hi, by simp [hreturn, hstmt, d]⟩
  exact ⟨d, List.mem_append_left _ (List.mem_flatMap.2 ⟨_, hspawn, hmem⟩),
    Criterion.idOf_congr fun _ => Request.mem_keys_localLive_iff⟩

theorem exists_child_of_store {field : FieldSig} {writer : String} {body : Body} {i : Instruction}
    {lhs rhs : Value} (hspawn : .fieldWriters field ∈ w.spawns)
    (henum : a.isEnumConstant field = false)
    (hwriter : writer ∈ a.build.graph.writersOf field.text) (hother : writer ≠ w.criterion.caller)
    (hbody : a.bodyOf? writer = some body) (hi : i ∈ body) (hstmt : i.stmt = .assign lhs rhs)
    (hfield : lhs.field? = some field) :
    ∃ d ∈ a.children w, d.id = Criterion.idOf writer field.text (body.length - 1 - i.index)
      rhs.localName?.toList := by
  let d := criterionAt writer field.text .fieldWrite body i w.criterion.depth w.criterion.rootId []
    (Request.localLive field.text rhs)
  have hmem : d ∈ a.storeSites w field := by
    simp only [storeSites, henum, Bool.false_eq_true, if_false, List.mem_flatMap]
    refine ⟨writer, List.mem_filter.2 ⟨hwriter, by simpa using hother⟩, ?_⟩
    simp only [hbody, List.mem_filterMap]
    exact ⟨i, hi, by simp [hstmt, hfield, d]⟩
  exact ⟨d, List.mem_append_left _ (List.mem_flatMap.2 ⟨_, hspawn, hmem⟩),
    Criterion.idOf_congr fun _ => Request.mem_keys_localLive_iff⟩

theorem exists_body_of_walk? {c : Criterion} (h : a.walk? c = some w) :
    ∃ body, a.program.bodyOf c.caller = .ok body ∧ c.index < body.length ∧
      w = .ofCriterion a.build.constants c body (a.build.branchesFor c.caller body) := by
  unfold walk? bodyOf? at h
  cases hbody : a.program.bodyOf c.caller with
  | error e => simp [hbody, Except.toOption] at h
  | ok body =>
    simp only [hbody, Except.toOption, Option.ite_none_right_eq_some, Option.some.injEq] at h
    exact ⟨body, rfl, h.1, h.2.symm⟩

theorem of_walk? {c : Criterion} (h : a.walk? c = some w) :
    a.bodyOf? c.caller = some w.body ∧
      w = .ofCriterion a.build.constants c w.body (a.build.branchesFor c.caller w.body) := by
  obtain ⟨body, hbody, -, rfl⟩ := exists_body_of_walk? h
  rw [Walk.ofCriterion_body, bodyOf?, hbody]
  exact ⟨rfl, rfl⟩

theorem mem_bodies_of_bodyOf? {text : String} {body : Body} (h : a.bodyOf? text = some body) :
    body ∈ a.program.bodies.values := by
  unfold bodyOf? at h
  cases hbody : a.program.bodyOf text with
  | error e =>
    rw [hbody] at h
    cases h
  | ok b =>
    rw [hbody] at h
    cases h
    exact Program.mem_bodies_of_bodyOf hbody

end Analysis

end Backslice
