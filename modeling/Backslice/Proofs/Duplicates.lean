import Backslice.Proofs.CodeFacts
import Backslice.Proofs.Memo
import Backslice.Proofs.Relevance

namespace Backslice

namespace Stmt

/-- Whether a statement makes a call and either drops the result or keeps it in a local. -/
def Invokes (s : Stmt) (c : Call) : Prop :=
  s = .invoke c ∨ ∃ dest, s = .assign (.loc dest) (.call c)

theorem invokes_iff {s : Stmt} {c : Call} :
    s.Invokes c ↔ (UnitKind.ofStmt? s).any UnitKind.isInvoke = true ∧ s.call? = some c := by
  constructor
  · rintro (rfl | ⟨dest, rfl⟩)
    · exact ⟨UnitKind.isInvoke_ofCall c.kind, rfl⟩
    · exact ⟨UnitKind.isInvoke_ofAssignedCall c.kind, rfl⟩
  · rintro ⟨hkind, hcall⟩
    rcases call?_eq_some_iff.1 hcall with rfl | ⟨lhs, rfl⟩
    · exact .inl rfl
    · -- a call has no kind where its result goes to a field or an array
      cases lhs with
      | loc dest => exact .inr ⟨dest, rfl⟩
      | _ => cases hkind

end Stmt

namespace Request

inductive OperandSort where
  | missing | constant | loc | expression
  deriving DecidableEq

def sortOf : Option Value → OperandSort
  | none => .missing
  | some (.const _) => .constant
  | some (.loc _) => .loc
  | some _ => .expression

/-- Whether operands are both missing, constants with the same literal, the same local, or other
values with the same text. -/
inductive Alike : Option Value → Option Value → Prop
  | missing : Alike none none
  | constant {c d : Constant} (h : c.literal = d.literal) :
    Alike (some (.const c)) (some (.const d))
  | loc {l k : Local} (h : l.name = k.name) : Alike (some (.loc l)) (some (.loc k))
  | expression {v w : Value} (hv : sortOf (some v) = .expression)
    (hw : sortOf (some w) = .expression) (h : v.text = w.text) : Alike (some v) (some w)

theorem sortOf_eq_missing {x : Option Value} (h : sortOf x = .missing) : x = none := by
  cases x with
  | none => rfl
  | some v => cases v <;> cases h

theorem sortOf_eq_constant {x : Option Value} (h : sortOf x = .constant) :
    ∃ c, x = some (.const c) := by
  cases x with
  | none => cases h
  | some v =>
    cases v with
    | const c => exact ⟨c, rfl⟩
    | _ => cases h

theorem sortOf_eq_loc {x : Option Value} (h : sortOf x = .loc) : ∃ l, x = some (.loc l) := by
  cases x with
  | none => cases h
  | some v =>
    cases v with
    | loc l => exact ⟨l, rfl⟩
    | _ => cases h

theorem sortOf_eq_expression {x : Option Value} (h : sortOf x = .expression) :
    ∃ v, x = some v ∧ operandKey x = v.text := by
  cases x with
  | none => cases h
  | some v =>
    refine ⟨v, rfl, ?_⟩
    cases v with
    | const c => cases h
    | _ => rfl

/-- The key tells operands of one sort apart. -/
theorem alike_of_operandKey_eq {x y : Option Value} (hsort : sortOf x = sortOf y)
    (hkey : operandKey x = operandKey y) : Alike x y := by
  cases hx : sortOf x with
  | missing =>
    rw [sortOf_eq_missing hx, sortOf_eq_missing (hsort.symm.trans hx)]
    exact .missing
  | constant =>
    obtain ⟨c, rfl⟩ := sortOf_eq_constant hx
    obtain ⟨d, rfl⟩ := sortOf_eq_constant (hsort.symm.trans hx)
    exact .constant hkey
  | loc =>
    obtain ⟨l, rfl⟩ := sortOf_eq_loc hx
    obtain ⟨k, rfl⟩ := sortOf_eq_loc (hsort.symm.trans hx)
    exact .loc hkey
  | expression =>
    have hy := hsort.symm.trans hx
    obtain ⟨v, rfl, hv⟩ := sortOf_eq_expression hx
    obtain ⟨w, rfl, hw⟩ := sortOf_eq_expression hy
    exact .expression hx hy (hv.symm.trans (hkey.trans hw))

variable {r : Request}

theorem positionsIn_eq_of_keys_eq {positions : List Int} {c d : Call}
    {f g : Int → String} (h : (positionsIn positions c).map f = (positionsIn positions d).map g) :
    positionsIn positions c = positionsIn positions d := by
  unfold positionsIn at h ⊢
  split
  · -- all arguments are asked for, so that the keys count them
    rename_i hnone
    simp only [hnone, if_true] at h
    have hlen := congrArg List.length h
    simp only [List.length_map, List.length_range] at hlen
    rw [hlen]
  · rfl

theorem key_invocation (hr : r.kind = .invocation) {s : Stmt} {c : Call} (hs : s.call? = some c)
    (live : LiveSet) :
    r.key s live = (positionsIn r.positions c).map fun q => operandKey (c.operand? q) := by
  simp only [key, hr, hs]

theorem operandKey_eq_of_key_eq (hr : r.kind = .invocation) {s t : Stmt} {c d : Call}
    {live live' : LiveSet} (hs : s.call? = some c) (ht : t.call? = some d)
    (h : r.key s live = r.key t live') :
    positionsIn r.positions c = positionsIn r.positions d ∧
      ∀ q ∈ positionsIn r.positions c, operandKey (c.operand? q) = operandKey (d.operand? q) := by
  rw [key_invocation hr hs, key_invocation hr ht] at h
  have hpositions := positionsIn_eq_of_keys_eq h
  rw [← hpositions] at h
  exact ⟨hpositions, List.map_inj_left.1 h⟩

/-- Every statement that is meant is taken, unless its key was met before or is the key of a
statement that comes first. -/
theorem exists_mem_collect {caller : String} {ps : List (Instruction × Nat)}
    {seen : List (List String)} {i : Instruction} {k : Nat} {live : LiveSet}
    (hps : ps.Pairwise (·.2 < ·.2)) (hi : (i, k) ∈ ps) (hmeans : r.Means i live)
    (hnew : r.key i.stmt live ∉ seen) :
    ∃ j index live', (j, index) ∈ ps ∧ index ≤ k ∧ r.Means j live' ∧
      r.key j.stmt live' = r.key i.stmt live ∧
      r.root caller index live' ∈ r.collect caller ps seen := by
  have hlater {p : Instruction × Nat} {rest : List (Instruction × Nat)}
      {P : Instruction → Nat → LiveSet → Prop}
      (h : ∃ j index live', (j, index) ∈ rest ∧ P j index live') :
      ∃ j index live', (j, index) ∈ p :: rest ∧ P j index live' := by
    obtain ⟨j, index, live', hj, h⟩ := h
    exact ⟨j, index, live', List.mem_cons_of_mem _ hj, h⟩
  have hwanted : (suits r.kind i && Text.contains i.stmt.text r.target) = true := by
    rw [hmeans.suits, hmeans.contains, Bool.and_self]
  fun_induction collect r caller ps seen with
  | case1 => cases hi
  | case2 j index rest seen hsuits hseed ih =>
    rcases List.mem_cons.1 hi with heq | hi
    · cases heq
      cases hseed.symm.trans hmeans.seed
    · exact hlater (ih hps.of_cons hi hnew)
  | case3 j index rest seen hsuits live' hseed key hseen ih =>
    rcases List.mem_cons.1 hi with heq | hi
    · cases heq
      cases hseed.symm.trans hmeans.seed
      exact absurd hseen hnew
    · exact hlater (ih hps.of_cons hi hnew)
  | case4 j index rest seen hsuits live' hseed key hseen ih =>
    -- the first statement is taken and stands for all that come after it with its key
    by_cases hkey : key = r.key i.stmt live
    · have hle : index ≤ k := by
        rcases List.mem_cons.1 hi with heq | hi
        · cases heq
          exact Nat.le_refl _
        · exact Nat.le_of_lt (List.rel_of_pairwise_cons hps hi)
      rw [Bool.and_eq_true] at hsuits
      exact ⟨j, index, live', List.mem_cons_self, hle, ⟨hsuits.1, hsuits.2, hseed⟩, hkey,
        List.mem_cons_self⟩
    · rcases List.mem_cons.1 hi with heq | hi
      · cases heq
        cases hseed.symm.trans hmeans.seed
        exact absurd rfl hkey
      · have hnew' : r.key i.stmt live ∉ key :: seen :=
          fun h => (List.mem_cons.1 h).elim (fun h => hkey h.symm) hnew
        obtain ⟨j', index', live'', hj, hle, hmeans', hsame, hmem⟩ := ih hps.of_cons hi hnew'
        exact ⟨j', index', live'', List.mem_cons_of_mem _ hj, hle, hmeans', hsame,
          List.mem_cons_of_mem _ hmem⟩
  | case5 j index rest seen hsuits ih =>
    rcases List.mem_cons.1 hi with heq | hi
    · cases heq
      exact absurd hwanted hsuits
    · exact hlater (ih hps.of_cons hi hnew)

theorem means_invocation_iff (hr : r.kind = .invocation) {i : Instruction} {live : LiveSet}
    (hi : i.kind? = UnitKind.ofStmt? i.stmt) :
    r.Means i live ↔ ∃ c, i.stmt.Invokes c ∧ r.target.toList <:+: i.stmt.text.toList ∧
      live = operandsLive r.target c (positionsIn r.positions c) := by
  have hsuits : suits r.kind i = (UnitKind.ofStmt? i.stmt).any UnitKind.isInvoke := by
    rw [hr, ← hi]
    cases h : i.kind? <;> simp only [suits, h, Option.any]
  have hseed : r.seed? i.stmt =
      i.stmt.call?.map fun c => operandsLive r.target c (positionsIn r.positions c) := by
    simp only [seed?, hr]
  constructor
  · rintro ⟨hkind, hcontains, hlive⟩
    rw [hseed, Option.map_eq_some_iff] at hlive
    obtain ⟨c, hc, rfl⟩ := hlive
    exact ⟨c, Stmt.invokes_iff.2 ⟨hsuits.symm.trans hkind, hc⟩,
      Text.contains_eq_true_iff.1 hcontains, rfl⟩
  · rintro ⟨c, hc, hinfix, rfl⟩
    obtain ⟨hkind, hcall⟩ := Stmt.invokes_iff.1 hc
    exact ⟨hsuits.trans hkind, Text.contains_eq_true_iff.2 hinfix, by rw [hseed, hcall]; rfl⟩

theorem criteria_eq_collect {p : Program} {m : MethodSig} {body : Body}
    (hm : MethodSig.parse r.caller = .ok m) (hbody : p.body m = .ok body)
    (htracks : r.tracks m = true) :
    r.criteria p = r.collect m.text body.reverse.zipIdx [] := by
  simp only [criteria, hm, htracks, if_true, hbody]

/-- Whether a call stands at an index, counted from the end, in a statement that contains the
target. -/
def Asked (body : Body) (target : String) (index : Nat) (c : Call) : Prop :=
  ∃ i, body.reverse[index]? = some i ∧ i.stmt.Invokes c ∧ target.toList <:+: i.stmt.text.toList

/-- Each root stands at a call that is asked for. A call without a root has one later in the
method, with the same positions and operands that read the same there. -/
theorem criteria_cover_invocations (p : Program) (r : Request) (m : MethodSig) (body : Body)
    (hp : p.Assembled) (hr : r.kind = .invocation) (hm : MethodSig.parse r.caller = .ok m)
    (hbody : p.body m = .ok body) (htracks : r.tracks m = true) :
    (∀ c ∈ r.criteria p, ∃ call, Asked body r.target c.index call) ∧
    ∀ k call, Asked body r.target k call → (∀ c ∈ r.criteria p, c.index ≠ k) →
      ∃ c ∈ r.criteria p, c.index < k ∧ ∃ later, Asked body r.target c.index later ∧
        positionsIn r.positions later = positionsIn r.positions call ∧
        ∀ q ∈ positionsIn r.positions call,
          Alike (call.operand? q) (later.operand? q) ∨
          sortOf (call.operand? q) ≠ sortOf (later.operand? q) ∧
            operandKey (call.operand? q) = operandKey (later.operand? q) := by
  have hkinds {k : Nat} {i : Instruction} (hi : body.reverse[k]? = some i) :
      i.kind? = UnitKind.ofStmt? i.stmt :=
    hp.kind_eq (Table.mem_values_of_get? (Program.get?_bodies_of_body hbody))
      (List.mem_reverse.1 (List.mem_of_getElem? hi))
  rw [criteria_eq_collect hm hbody htracks]
  constructor
  · intro c hc
    obtain ⟨i, index, live, hi, hmeans, rfl⟩ := exists_of_mem_collect hc
    have hi := List.mem_zipIdx_iff_getElem?.1 hi
    obtain ⟨call, hcall, hinfix, -⟩ := (means_invocation_iff hr (hkinds hi)).1 hmeans
    exact ⟨call, i, hi, hcall, hinfix⟩
  · rintro k call ⟨i, hi, hcall, hinfix⟩ hnone
    have hmeans := (means_invocation_iff hr (hkinds hi)).2 ⟨call, hcall, hinfix, rfl⟩
    have hordered : body.reverse.zipIdx.Pairwise (·.2 < ·.2) := by
      rw [← List.pairwise_map, List.zipIdx_map_snd]
      exact List.pairwise_lt_range'
    obtain ⟨j, index, live, hj, hle, hmeans', hkey, hmem⟩ := exists_mem_collect hordered
      (List.mem_zipIdx_iff_getElem?.2 hi) hmeans List.not_mem_nil
    have hj := List.mem_zipIdx_iff_getElem?.1 hj
    obtain ⟨later, hlater, hinfix', -⟩ := (means_invocation_iff hr (hkinds hj)).1 hmeans'
    obtain ⟨hpositions, hkeys⟩ := operandKey_eq_of_key_eq hr (Stmt.invokes_iff.1 hcall).2
      (Stmt.invokes_iff.1 hlater).2 hkey.symm
    refine ⟨_, hmem, Nat.lt_of_le_of_ne hle (hnone _ hmem), later, ⟨j, hj, hlater, hinfix'⟩,
      hpositions.symm, fun q hq => ?_⟩
    by_cases hsort : sortOf (call.operand? q) = sortOf (later.operand? q)
    · exact .inl (alike_of_operandKey_eq hsort (hkeys q hq))
    · exact .inr ⟨hsort, hkeys q hq⟩

def usesName : MethodSig := ⟨"a.B", .void, "m", []⟩

def useOf (ty : Ty) (v : Value) : Call := ⟨.static, none, ⟨"a.C", .void, "use", [ty]⟩, [v]⟩

def usesBody (calls : List Call) : Body := .ofStmts usesName.text (calls.map .invoke)

def usesInTurn (calls : List Call) : Program :=
  Program.empty.addClass <| .ofMembers "a.B" none false [] [⟨usesName, some (calls.map .invoke)⟩]

def askUse : Request :=
  { caller := "<a.B: void m()>", target := "use", kind := .invocation, positions := [0] }

theorem parse_askUse : MethodSig.parse askUse.caller = .ok usesName := by decide +kernel

theorem body_usesInTurn (calls : List Call) :
    (usesInTurn calls).body usesName = .ok (usesBody calls) := rfl

def nameTwice : List Call :=
  [useOf .string (.loc ⟨"r1", .string⟩), useOf .string (.const (.str "AES")),
   useOf .string (.const (.str "AES"))]

theorem criteria_cover_invocations_nameTwice :
    (askUse.criteria (usesInTurn nameTwice)).map (·.index) = [0, 2] ∧
    ∃ c ∈ askUse.criteria (usesInTurn nameTwice), c.index < 1 ∧ ∃ later,
      Asked (usesBody nameTwice) "use" c.index later ∧
      (Alike (some (.const (.str "AES"))) (later.operand? 0) ∨
        sortOf (later.operand? 0) ≠ .constant ∧ operandKey (later.operand? 0) = "AES") := by
  have hroots : (askUse.criteria (usesInTurn nameTwice)).map (·.index) = [0, 2] := by
    decide +kernel
  have hnone : ∀ c ∈ askUse.criteria (usesInTurn nameTwice), c.index ≠ 1 := by
    intro c hc
    have hmem := List.mem_map_of_mem (f := (·.index)) hc
    rw [hroots] at hmem
    exact (by decide : ∀ index ∈ [0, 2], index ≠ 1) _ hmem
  have hasked : Asked (usesBody nameTwice) "use" 1 (useOf .string (.const (.str "AES"))) :=
    ⟨_, rfl, .inl rfl, Text.contains_eq_true_iff.1 (by decide +kernel)⟩
  obtain ⟨-, hcover⟩ := criteria_cover_invocations (usesInTurn nameTwice) askUse usesName _
    (.addClass .empty _) rfl parse_askUse (body_usesInTurn nameTwice) (by decide +kernel)
  obtain ⟨c, hc, hlt, later, hlater, -, halike⟩ := hcover 1 _ hasked hnone
  exact ⟨hroots, c, hc, hlt, later, hlater,
    (halike 0 List.mem_cons_self).imp_right fun h => ⟨h.1.symm, h.2.symm⟩⟩

def SameValue (x y : Option Value) : Prop :=
  Alike x y ∧ ∀ c d, x = some (.const c) → y = some (.const d) → c = d

/-- Whether a call has no root and no root stands at a call with the same value. -/
def Hides (calls : List Call) (index : Nat) (call : Call) : Prop :=
  Asked (usesBody calls) askUse.target index call ∧
  (∀ c ∈ askUse.criteria (usesInTurn calls), c.index ≠ index) ∧
  ∀ c ∈ askUse.criteria (usesInTurn calls), ∀ later,
    Asked (usesBody calls) askUse.target c.index later →
      ¬ SameValue (call.operand? 0) (later.operand? 0)

theorem hides_of {first second : Call}
    (hroots : (askUse.criteria (usesInTurn [first, second])).map (·.index) = [0])
    (hcontains : Text.contains first.text askUse.target = true)
    (hother : ¬ SameValue (first.operand? 0) (second.operand? 0)) :
    Hides [first, second] 1 first := by
  have hzero {c : Criterion} (hc : c ∈ askUse.criteria (usesInTurn [first, second])) :
      c.index = 0 := by
    have hmem := List.mem_map_of_mem (f := (·.index)) hc
    rw [hroots] at hmem
    exact List.mem_singleton.1 hmem
  refine ⟨⟨_, rfl, .inl rfl, Text.contains_eq_true_iff.1 hcontains⟩,
    fun c hc => by rw [hzero hc]; decide, ?_⟩
  rintro c hc later ⟨i, hi, hinvokes, -⟩
  rw [hzero hc] at hi
  cases hi
  rcases hinvokes with hinvoke | ⟨dest, hassign⟩
  · cases hinvoke
    exact hother
  · cases hassign

/-- A number has no root before a string that reads the same, and neither has a local. -/
theorem roots_hide_other_values :
    Hides [useOf .int (.const (.int 1)), useOf .string (.const (.str "1"))] 1
      (useOf .int (.const (.int 1))) ∧
    Hides [useOf .string (.loc ⟨"r1", .string⟩), useOf .string (.const (.str "r1"))] 1
      (useOf .string (.loc ⟨"r1", .string⟩)) := by
  constructor
  · refine hides_of (by decide +kernel) (by decide +kernel) ?_
    rintro ⟨-, hconst⟩
    cases hconst (.int 1) (.str "1") rfl rfl
  · refine hides_of (by decide +kernel) (by decide +kernel) ?_
    rintro ⟨halike, -⟩
    cases halike with
    | expression hv => cases hv

end Request

end Backslice
