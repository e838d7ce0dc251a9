import Backslice.Proofs.Replays
import Backslice.Proofs.Segments

/-!
What a segment is replayed with. The segment before it hands over the arguments of its first call of
the method, also where its lines lead to a later call. This is told for methods without jumps, where
every call is replayed, and known at a call is what a replay of the statements before it knows.
-/

namespace Backslice

def Body.IsStraight (body : Body) : Prop := ∀ i ∈ body, i.stmt.targets = []

instance (body : Body) : Decidable body.IsStraight :=
  inferInstanceAs (Decidable (∀ i ∈ body, i.stmt.targets = []))

theorem Body.IsStraight.of_append {body rest : Body} (h : Body.IsStraight (body ++ rest)) :
    body.IsStraight :=
  fun i hi => h i (List.mem_append_left _ hi)

theorem Branches.ofBody_of_straight {body : Body} (h : body.IsStraight) : ofBody body = .empty := by
  have hrecord {s : Stmt} (hs : s.targets = []) (b : Branches) (index : Nat) :
      b.record index s = b := by
    cases s with
    | goto target => cases hs
    | branch cond target => cases hs
    | switch key cases default => simp [Stmt.targets] at hs
    | _ => rfl
  unfold ofBody
  induction body with
  | nil => rfl
  | cons i rest ih =>
    rw [List.foldl_cons, hrecord (h i List.mem_cons_self)]
    exact ih fun j hj => h j (List.mem_cons_of_mem _ hj)

namespace Replay

def callAt? (body : Body) (k : Nat) : Option Call := body[k]?.bind (·.stmt.call?)

def CallsAt (body : Body) (callee : String) (k : Nat) : Prop :=
  ∃ c ∈ callAt? body k, c.method.text = callee

instance (body : Body) (callee : String) (k : Nat) : Decidable (CallsAt body callee k) :=
  inferInstanceAs (Decidable (∃ c ∈ callAt? body k, c.method.text = callee))

theorem callAt?_append_left {body rest : Body} {k : Nat} (h : k < body.length) :
    callAt? (body ++ rest) k = callAt? body k := by
  rw [callAt?, List.getElem?_append_left h, callAt?]

theorem callAt?_concat_length (body : Body) (i : Instruction) :
    callAt? (body ++ [i]) body.length = i.stmt.call? := by
  simp [callAt?]

theorem CallsAt.lt {body : Body} {callee : String} {k : Nat} (h : CallsAt body callee k) :
    k < body.length := by
  obtain ⟨c, hc, -⟩ := h
  obtain ⟨i, hi, -⟩ := Option.bind_eq_some_iff.1 hc
  exact (List.getElem?_eq_some_iff.1 hi).1

section
variable (params : List (Option Known))

/-- The arguments of the call at an index, as far as a replay of what is before it knows them. -/
def argsAt (body : Body) (k : Nat) : List (Option Known) :=
  ((callAt? body k).map fun c =>
    c.args.map (ofBody (body.take k) params none).frame.operand?).getD []

section
variable (callee? : Option String)

def advance (r : Replay) (i : Instruction) : Replay :=
  { r.capture callee? i.stmt with frame := rebind params true r.frame i.stmt }

theorem ranges_foldl_advance (body : Body) :
    (body.foldl (advance params callee?) start).dead = .empty ∧
      (body.foldl (advance params callee?) start).uncertain = .empty := by
  refine List.foldlRecOn (motive := fun r : Replay => r.dead = .empty ∧ r.uncertain = .empty) body _
    ⟨rfl, rfl⟩ ?_
  intro r hr i _
  obtain ⟨-, hdead, huncertain⟩ := capture_rest callee? r i.stmt
  exact ⟨hdead.trans hr.1, huncertain.trans hr.2⟩

theorem visit_of_straight (body : Body) {r : Replay} {i : Instruction} (hi : i.stmt.targets = [])
    (hr : r.dead = .empty ∧ r.uncertain = .empty) (k : Nat) :
    visit body .empty params callee? r (i, k) = advance params callee? r i := by
  have hstep (r : Replay) : r.step body params true k i.stmt =
      { r with frame := rebind params true r.frame i.stmt } := by
    cases hs : i.stmt with
    | identity dest rhs => cases rhs <;> rfl
    | assign lhs rhs => cases lhs <;> rfl
    | branch cond target => simp [hs, Stmt.targets] at hi
    | _ => rfl
  have hnone : Ranges.empty.contains k = false := rfl
  have hloop : Branches.empty.inLoop k = false := rfl
  obtain ⟨hframe, -, -⟩ := capture_rest callee? r i.stmt
  simp only [visit, hr.1, hr.2, hnone, hloop, Bool.not_false, Bool.and_true, Bool.false_eq_true,
    if_false, hstep, advance, hframe]

theorem ofBody_of_straight {body : Body} (h : body.IsStraight) :
    ofBody body params callee? = body.foldl (advance params callee?) start := by
  rw [ofBody, Branches.ofBody_of_straight h]
  -- where the arms of branches end is looked up in the whole body, which stays as it is
  generalize hwhole : visit body .empty params callee? = visitAt
  have hvisit : ∀ r i k, i.stmt.targets = [] → r.dead = .empty ∧ r.uncertain = .empty →
      visitAt r (i, k) = advance params callee? r i := by
    subst hwhole
    exact fun r i k hi hr => visit_of_straight params callee? body hi hr k
  clear hwhole
  induction body using List.reverseRecOn with
  | nil => rfl
  | append_singleton body i ih =>
    rw [List.zipIdx_append, List.foldl_append, ih h.of_append, List.foldl_concat]
    exact hvisit _ i _ (h i (by simp)) (ranges_foldl_advance params callee? body)

theorem ofBody_concat {body : Body} {i : Instruction} (h : Body.IsStraight (body ++ [i])) :
    ofBody (body ++ [i]) params callee? =
      advance params callee? (ofBody body params callee?) i := by
  rw [ofBody_of_straight params callee? h, ofBody_of_straight params callee? h.of_append,
    List.foldl_concat]

theorem dead_ofBody_of_straight {body : Body} (h : body.IsStraight) :
    (ofBody body params callee?).dead = .empty := by
  rw [ofBody_of_straight params callee? h]
  exact (ranges_foldl_advance params callee? body).1

/-- What is known does not depend on the call that is looked for. -/
theorem frame_ofBody_of_straight {body : Body} (h : body.IsStraight) :
    (ofBody body params callee?).frame = (ofBody body params none).frame := by
  induction body using List.reverseRecOn with
  | nil => rfl
  | append_singleton body i ih =>
    rw [ofBody_concat params callee? h, ofBody_concat params none h]
    exact congrArg (rebind params true · i.stmt) (ih h.of_append)

end

variable {callee : String}

theorem args?_capture (r : Replay) (s : Stmt) :
    (r.capture (some callee) s).args? = r.args?.or
      ((s.call?.filter fun c => c.method.text = callee).map fun c =>
        c.args.map r.frame.operand?) := by
  unfold capture
  cases hargs : r.args? with
  | some args => simp [hargs]
  | none =>
    cases s.call? with
    | none => simp [hargs]
    | some c => by_cases hc : c.method.text = callee <;> simp [hc, hargs]

theorem args?_ofBody_concat {body : Body} {i : Instruction} (h : Body.IsStraight (body ++ [i])) :
    (ofBody (body ++ [i]) params (some callee)).args? =
      (ofBody body params (some callee)).args?.or
        ((i.stmt.call?.filter fun c => c.method.text = callee).map fun c =>
          c.args.map (ofBody body params none).frame.operand?) := by
  rw [ofBody_concat params (some callee) h, ← frame_ofBody_of_straight params (some callee)
    h.of_append]
  exact args?_capture (ofBody body params (some callee)) i.stmt

theorem args?_ofBody_of_no_call {body : Body} (h : body.IsStraight)
    (hno : ∀ k < body.length, ¬ CallsAt body callee k) :
    (ofBody body params (some callee)).args? = none := by
  induction body using List.reverseRecOn with
  | nil => rfl
  | append_singleton body i ih =>
    have hbefore : (ofBody body params (some callee)).args? = none := by
      refine ih h.of_append fun k hk hcall => hno k (by simp; omega) ?_
      rwa [CallsAt, callAt?_append_left hk]
    have hlast : ∀ c ∈ i.stmt.call?, c.method.text ≠ callee := by
      intro c hc heq
      exact hno body.length (by simp) ⟨c, by rwa [callAt?_concat_length], heq⟩
    rw [args?_ofBody_concat params h, hbefore, Option.none_or, Option.map_eq_none_iff,
      Option.filter_eq_none_iff]
    simpa using hlast

/-- A replay hands over the arguments of the first call. -/
theorem args?_ofBody_of_first_call {body : Body} (h : body.IsStraight) {first : Nat}
    (hcall : CallsAt body callee first) (hno : ∀ k < first, ¬ CallsAt body callee k) :
    (ofBody body params (some callee)).args? = some (argsAt params body first) := by
  induction body using List.reverseRecOn with
  | nil => cases hcall.lt
  | append_singleton body i ih =>
    rw [args?_ofBody_concat params h]
    have hlength := hcall.lt
    rw [List.length_append, List.length_singleton] at hlength
    -- once the arguments are known the last instruction does not change them
    rcases Nat.lt_succ_iff_lt_or_eq.1 hlength with hlt | rfl
    · have hbefore : (ofBody body params (some callee)).args? =
          some (argsAt params body first) := by
        refine ih h.of_append ?_ fun k hk hcall => hno k hk ?_
        · rwa [CallsAt, callAt?_append_left hlt] at hcall
        · rwa [CallsAt, callAt?_append_left (hk.trans hlt)]
      rw [hbefore, argsAt, argsAt, callAt?_append_left hlt,
        List.take_append_of_le_length (Nat.le_of_lt hlt)]
      rfl
    · have hbefore : (ofBody body params (some callee)).args? = none := by
        refine args?_ofBody_of_no_call params h.of_append fun k hk hcall => hno k hk ?_
        rwa [CallsAt, callAt?_append_left hk]
      obtain ⟨c, hc, heq⟩ := hcall
      rw [callAt?_concat_length] at hc
      rw [hbefore, argsAt, callAt?_concat_length, List.take_left, hc]
      simp [heq]

end

/-- Whether a segment has a line of its method at an index that is dead when the method gets some
arguments. -/
def LosesLine (segment : Record) (body : Body) (args : List (Option Known)) (k : Nat) : Prop :=
  (∃ l ∈ segment.content, l.method = segment.caller ∧ l.source = k) ∧
    (ofBody body args none).dead.contains k = true

instance (segment : Record) (body : Body) (args : List (Option Known)) (k : Nat) :
    Decidable (LosesLine segment body args k) :=
  inferInstanceAs (Decidable (_ ∧ _))

section
variable {p : Program} {calling called : Record} {outer inner : Body}
  (houter : p.bodyOf calling.caller = .ok outer) (hinner : p.bodyOf called.caller = .ok inner)
include houter hinner

theorem replays_pair {args : List (Option Known)}
    (hargs : (ofBody outer [] (some called.caller)).args? = some args) :
    replays p [calling, called] none =
      [(calling, (ofBody outer [] (some called.caller)).dead),
        (called, (ofBody inner args none).dead)] := by
  simp [replays, houter, hinner, hargs, paramsFor]

/-- A segment loses the lines that are dead with the arguments of the first call of its method in
the segment before it, whatever call the lines of that segment end at. These are the lines that are
dead with the arguments of a later call where the same is known of both. -/
theorem first_call_hands_over (hstraight : outer.IsStraight) {c : Nat}
    (hcall : CallsAt outer called.caller c) :
    ∃ first ≤ c, CallsAt outer called.caller first ∧
      (∀ k < first, ¬ CallsAt outer called.caller k) ∧
      (∀ k, (called.caller, k) ∈ deadPlaces p [calling, called] ↔
        LosesLine called inner (argsAt [] outer first) k) ∧
      (argsAt [] outer first = argsAt [] outer c →
        ∀ k, (called.caller, k) ∈ deadPlaces p [calling, called] ↔
          LosesLine called inner (argsAt [] outer c) k) := by
  have hexists : ∃ k, CallsAt outer called.caller k := ⟨c, hcall⟩
  have hfirst := Nat.find_spec hexists
  have hno : ∀ k < Nat.find hexists, ¬ CallsAt outer called.caller k :=
    fun k => Nat.find_min hexists
  have hargs := args?_ofBody_of_first_call [] hstraight hfirst hno
  have hplaces : ∀ k, (called.caller, k) ∈ deadPlaces p [calling, called] ↔
      LosesLine called inner (argsAt [] outer (Nat.find hexists)) k := by
    intro k
    -- without jumps nothing of the calling method is dead, so the place is one of the other
    have hnone : Ranges.empty.contains k = false := rfl
    rw [mk_mem_deadPlaces, replays_pair houter hinner hargs,
      dead_ofBody_of_straight [] _ hstraight]
    simp [LosesLine, hnone, and_comm]
  exact ⟨_, Nat.find_le hcall, hfirst, hno, hplaces, fun hsame => hsame ▸ hplaces⟩

end

def cipherMethod : MethodSig := ⟨"a.B", .void, "m", [.int]⟩

def twiceMethod : MethodSig := ⟨"a.B", .void, "main", []⟩

def cipherBody : Body := .ofStmts cipherMethod.text
  [.identity ⟨"i0", .int⟩ (.parameter 0 .int),
    .branch ⟨.ge, .loc ⟨"i0", .int⟩, .const (.int 3)⟩ 3,
    .assign (.loc ⟨"r1", .string⟩) (.const (.str "DES")),
    .invoke ⟨.static, none, ⟨"a.C", .void, "use", [.string]⟩, [.loc ⟨"r1", .string⟩]⟩,
    .retVoid]

def twiceBody : Body := .ofStmts twiceMethod.text
  [.invoke ⟨.static, none, cipherMethod, [.const (.int 5)]⟩,
    .invoke ⟨.static, none, cipherMethod, [.const (.int 1)]⟩,
    .retVoid]

def calledTwice : Program :=
  Program.empty.addClass <| .ofMembers "a.B" none false []
    [⟨cipherMethod, some (cipherBody.map (·.stmt))⟩, ⟨twiceMethod, some (twiceBody.map (·.stmt))⟩]

def cipherCall : Record :=
  { nodeId? := some "call", group := "use", caller := twiceMethod.text, target := "m"
    content := [{ text := "m(1)", kind := .staticInvoke, method := twiceMethod.text
                  number := 1, source := 1 }] }

def cipherUse : Record :=
  { nodeId? := some "use", group := "use", related := ["call"], caller := cipherMethod.text
    target := "use"
    content := [
      { text := "r1 = \"DES\"", kind := .assignConstant, method := cipherMethod.text
        number := 2, source := 2 },
      { text := "use(r1)", kind := .staticInvoke, method := cipherMethod.text
        number := 3, source := 3 }] }

theorem bodyOf_calledTwice : calledTwice.bodyOf cipherCall.caller = .ok twiceBody ∧
    calledTwice.bodyOf cipherUse.caller = .ok cipherBody := by
  have htwice : MethodSig.parse cipherCall.caller = .ok twiceMethod := by decide +kernel
  have hcipher : MethodSig.parse cipherUse.caller = .ok cipherMethod := by decide +kernel
  rw [Program.bodyOf, htwice, Program.bodyOf, hcipher]
  exact ⟨rfl, rfl⟩

theorem first_call_hands_over_cipherUse :
    calledTwice.bodyOf cipherCall.caller = .ok twiceBody ∧
      calledTwice.bodyOf cipherUse.caller = .ok cipherBody ∧ twiceBody.IsStraight ∧
      CallsAt twiceBody cipherUse.caller 1 ∧
      ∀ k, (cipherUse.caller, k) ∈ deadPlaces calledTwice [cipherCall, cipherUse] ↔
        LosesLine cipherUse cipherBody [some (.int 5)] k := by
  obtain ⟨houter, hinner⟩ := bodyOf_calledTwice
  have hstraight : twiceBody.IsStraight := by decide +kernel
  have hcall : CallsAt twiceBody cipherUse.caller 1 := by decide +kernel
  refine ⟨houter, hinner, hstraight, hcall, ?_⟩
  obtain ⟨first, -, -, hno, hplaces, -⟩ := first_call_hands_over houter hinner hstraight hcall
  have hfirst : first = 0 := by
    by_contra hne
    exact hno 0 (Nat.pos_of_ne_zero hne) (by decide +kernel)
  have hargs : argsAt [] twiceBody 0 = [some (.int 5)] := by decide +kernel
  rwa [hfirst, hargs] at hplaces

/-- The lines of the second call are judged by the arguments of the first one. -/
theorem second_call_takes_first_arguments :
    cipherCall.content.getLast?.map (·.source) = some 1 ∧ CallsAt twiceBody cipherUse.caller 1 ∧
      deadPlaces calledTwice [cipherCall, cipherUse] = [(cipherUse.caller, 2)] ∧
      ∀ k, ¬ LosesLine cipherUse cipherBody (argsAt [] twiceBody 1) k := by
  have hempty : (ofBody cipherBody (argsAt [] twiceBody 1) none).dead = .empty := by decide +kernel
  refine ⟨rfl, by decide +kernel, ?_, ?_⟩
  · decide +kernel
  · rintro k ⟨-, hdead⟩
    rw [hempty] at hdead
    cases hdead

end Replay

end Backslice
