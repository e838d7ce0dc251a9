import Backslice.Proofs.Definitions
import Backslice.Proofs.Refolding
import Backslice.Proofs.Runs

/-!
Whether the string that a pass writes into a line is what runs assign there. A pass reads the lines
of a method in the order of the program and keeps one string for a local, as if every statement came
after the one above it. A run may come to the line another way, by a jump over an assignment or past
a statement that is no line, and then have another string there.
-/

namespace Backslice

open Relation

namespace Datum

def str? : Datum → Option String
  | .known k => k.str?
  | _ => none

def char? : Datum → Option Char
  | .known (.int n) => if 0 ≤ n && n.toNat.isValidChar then some (Char.ofNat n.toNat) else none
  | _ => none

end Datum

def Line.ofInstruction? (i : Instruction) : Option Line :=
  i.kind?.map fun kind =>
    { text := i.stmt.text, kind, method := i.method, number := i.index, source := i.index }

def Body.lines (body : Body) : List Line := body.filterMap Line.ofInstruction?

def Stmt.rhs? : Stmt → Option Value
  | .assign _ rhs => some rhs
  | _ => none

namespace Folding

/-- What a replacement of characters comes to, by what is said of its receiver and arguments. -/
def replacing (text? : Local → Option String) (char? : Value → Option Char) (c : Call) :
    Option String :=
  if c.isCharReplace then do
    let text ← c.base >>= text?
    let old ← c.arg? 0 >>= char?
    let new ← c.arg? 1 >>= char?
    return String.ofList (text.toList.map fun x => if x = old then new else x)
  else none

/-- What a string, a copy or a replacement of characters comes to in a run. -/
def meant? (locals : String → Datum) : Value → Option Datum
  | .const (.str s) => some (.known (.str s))
  | .loc l => some (locals l.name)
  | .call c =>
    (replacing (fun r => (locals r.name).str?)
      (fun v => Datum.arithmetic.operand? locals v >>= Datum.char?) c).map (.known <| .str ·)
  | _ => none

section
variable (stmts : List Stmt)

/-- A step of a run in which strings, copies and replacements mean what they say. Every other value
may come out in any way, and control may take any branch. -/
inductive Moves (σ : State Datum) : State Datum → Prop
  | assign {s : Stmt} {l : Local} (hs : stmts[σ.index]? = some s) (hl : s.assigned? = some l)
    {v : Datum} (hv : ∀ u, (s.rhs? >>= meant? σ.locals) = some u → v = u) :
    Moves σ (σ.bind l.name v)
  | pass {s : Stmt} (hs : stmts[σ.index]? = some s) (hl : s.assigned? = none) {t : Nat}
    (ht : Flows stmts σ.index t) : Moves σ (σ.jump t)

/-- Whether every run that carries out the statement at an index gives the local a string there. -/
def AlwaysAssigns (k : Nat) (x s : String) : Prop :=
  ∀ locals σ τ, ReflTransGen (Moves stmts) ⟨0, locals⟩ σ → σ.index = k → Moves stmts σ τ →
    τ.locals x = .known (.str s)

variable (method : String)

/-- What is known when a statement has been carried out. -/
def carry (known : Strings) (s : Stmt) : Strings :=
  match s.assigned? with
  | some l => learn known (method, l.name) (s.rhs? >>= fun rhs => value? rhs method known)
  | none => known

inductive Along : Nat → Strings → Prop
  | start : Along 0 []
  | step {k t : Nat} {s : Stmt} {known : Strings} (h : Along k known)
    (hs : stmts[k]? = some s) (ht : Flows stmts k t) : Along t (carry method known s)

end

section Lookup

variable {known : Strings} {key key' : String × String}

theorem lookup_cons (s : String) :
    List.lookup key' ((key, s) :: known) = if key' = key then some s else known.lookup key' := by
  rw [List.lookup_cons]
  by_cases h : key' = key
  · rw [if_pos h, beq_iff_eq.2 h]
  · rw [if_neg h, beq_eq_false_iff_ne.2 h]

theorem lookup_filter : (known.filter fun e => e.1 ≠ key).lookup key' =
    if key' = key then none else known.lookup key' := by
  induction known with
  | nil => simp
  | cons e rest ih =>
    obtain ⟨k, s⟩ := e
    rw [lookup_cons]
    by_cases hk : k = key
    · rw [List.filter_cons_of_neg (by simpa using hk), ih, hk]
      split <;> rfl
    · rw [List.filter_cons_of_pos (by simpa using hk), lookup_cons, ih]
      grind

theorem lookup_learn (value : Option String) :
    (learn known key value).lookup key' = if key' = key then value else known.lookup key' := by
  cases value with
  | none => exact lookup_filter
  | some s =>
    simp only [learn, lookup_cons, lookup_filter]
    split <;> rfl

end Lookup

section Exact

variable {method s : String} {known known' : Strings} {locals : String → Datum}

theorem replaced?_eq (c : Call) (method : String) (known : Strings) :
    replaced? c method known =
      replacing (fun r => known.lookup (method, r.name)) charArg? c := by
  unfold replaced? replacing
  cases c.base <;> rfl

theorem replacing_mono {text? text?' : Local → Option String} {char? char?' : Value → Option Char}
    {c : Call} (htext : ∀ r ∈ c.base, ∀ s, text? r = some s → text?' r = some s)
    (hchar : ∀ v x, char? v = some x → char?' v = some x)
    (h : replacing text? char? c = some s) : replacing text?' char?' c = some s := by
  unfold replacing at h ⊢
  split at h
  · rename_i hreplace
    obtain ⟨text, ht, h⟩ := Option.bind_eq_some_iff.1 h
    obtain ⟨old, ho, h⟩ := Option.bind_eq_some_iff.1 h
    obtain ⟨new, hn, h⟩ := Option.bind_eq_some_iff.1 h
    obtain ⟨r, hr, ht⟩ := Option.bind_eq_some_iff.1 ht
    obtain ⟨v, hv, ho⟩ := Option.bind_eq_some_iff.1 ho
    obtain ⟨w, hw, hn⟩ := Option.bind_eq_some_iff.1 hn
    simpa [hreplace, hr, htext r hr text ht, hv, hchar v old ho, hw, hchar w new hn] using h
  · cases h

theorem charArg?_const (c : Constant) : charArg? (.const c) = (Datum.ofConstant c).char? := by
  cases c <;> rfl

def Agrees (method : String) (known : Strings) (locals : String → Datum) : Prop :=
  ∀ x s, known.lookup (method, x) = some s → locals x = .known (.str s)

/-- What a table makes of a right-hand side is what it comes to in the run. -/
theorem Agrees.meant? (h : Agrees method known locals) {rhs : Value}
    (hs : value? rhs method known = some s) :
    Folding.meant? locals rhs = some (.known (.str s)) := by
  unfold value? at hs
  split at hs
  · cases hs
    rfl
  · rename_i source
    exact congrArg some (h source.name s hs)
  · rename_i c
    rw [replaced?_eq] at hs
    have hreplaced : replacing (fun r => (locals r.name).str?)
        (fun v => Datum.arithmetic.operand? locals v >>= Datum.char?) c = some s := by
      refine replacing_mono (fun r _ t ht => ?_) (fun v x hx => ?_) hs
      · rw [h r.name t ht]
        rfl
      · cases v with
        | const c => exact (charArg?_const c).symm.trans hx
        | _ => cases hx
    rw [Folding.meant?, hreplaced, Option.map_some]
  · cases hs

/-- The local whose string a right-hand side goes back to. -/
def source? : Value → Option Local
  | .loc l => some l
  | .call c => c.base.filter fun _ => c.isCharReplace
  | _ => none

theorem value?_mono {rhs : Value} (h : ∀ r ∈ source? rhs, ∀ t,
      known.lookup (method, r.name) = some t → known'.lookup (method, r.name) = some t)
    (hs : value? rhs method known = some s) : value? rhs method known' = some s := by
  cases rhs with
  | const c => cases c <;> exact hs
  | loc l => exact h l rfl s hs
  | call c =>
    have hreplaced : replaced? c method known = some s := hs
    change replaced? c method known' = some s
    rw [replaced?_eq] at hreplaced ⊢
    refine replacing_mono (fun r hr t ht => h r ?_ t ht) (fun _ _ hx => hx) hreplaced
    have hreplace : c.isCharReplace = true := by
      by_contra hno
      simp [replacing, hno] at hreplaced
    exact Option.mem_filter_iff.2 ⟨hr, hreplace⟩
  | _ => cases hs

def ofText : Option String → Datum
  | some s => .known (.str s)
  | none => .object 0

/-- The locals of a run of which no more can be said than what a table knows. -/
def held (method : String) (known : Strings) (x : String) : Datum :=
  ofText (known.lookup (method, x))

theorem meant?_held {rhs : Value} {v : Datum}
    (h : Folding.meant? (held method known) rhs = some v) :
    v = ofText (value? rhs method known) := by
  have hstr (x : String) : (held method known x).str? = known.lookup (method, x) := by
    unfold held
    cases known.lookup (method, x) <;> rfl
  have hchar (x : String) : (held method known x).char? = none := by
    unfold held
    cases known.lookup (method, x) <;> rfl
  unfold Folding.meant? at h
  split at h
  · cases h
    rfl
  · cases h
    rfl
  · rename_i c
    obtain ⟨s, hs, rfl⟩ := Option.map_eq_some_iff.1 h
    have hreplaced : value? (.call c) method known = some s := by
      change replaced? c method known = some s
      rw [replaced?_eq]
      refine replacing_mono (fun r _ t ht => ?_) (fun w x hx => ?_) hs
      · rwa [hstr] at ht
      · cases w with
        | const c => exact (charArg?_const c).trans hx
        | loc l => rw [← hx]; exact (hchar l.name).symm
        | _ => cases hx
    rw [hreplaced]
    rfl
  · cases h

end Exact

section Ways

variable {stmts : List Stmt} {method : String} {k t : Nat} {s : Stmt} {l : Local}
  {known : Strings} {locals : String → Datum}

/-- Control goes on with the next statement after one that assigns a local. -/
theorem flows_iff_of_assigned? (hs : stmts[k]? = some s) (hl : s.assigned? = some l) :
    Flows stmts k t ↔ t = k + 1 := by
  have hnext : s.targets = [] ∧ s.fallsThrough = true := by
    cases s with
    | assign lhs rhs => exact ⟨rfl, rfl⟩
    | identity dest rhs => exact ⟨rfl, rfl⟩
    | _ => cases hl
  simp [Flows, hs, hnext]

theorem carry_of_none (hl : s.assigned? = none) : carry method known s = known := by
  rw [carry, hl]

theorem lookup_carry (hl : s.assigned? = some l) (x : String) :
    (carry method known s).lookup (method, x) =
      if x = l.name then s.rhs? >>= fun rhs => value? rhs method known
      else known.lookup (method, x) := by
  rw [carry, hl, lookup_learn]
  simp only [Prod.mk.injEq, true_and]

theorem lookup_carry_of_ne {x : String} (hx : ¬ s.Assigns x) :
    (carry method known s).lookup (method, x) = known.lookup (method, x) := by
  cases hl : s.assigned? with
  | none => rw [carry_of_none hl]
  | some l =>
    rw [lookup_carry hl, if_neg]
    rintro rfl
    exact hx ⟨l, hl, rfl⟩

theorem Agrees.carry (h : Agrees method known locals) (hl : s.assigned? = some l) {v : Datum}
    (hv : ∀ u, (s.rhs? >>= Folding.meant? locals) = some u → v = u) :
    Agrees method (carry method known s) (Function.update locals l.name v) := by
  intro x text hx
  rw [lookup_carry hl] at hx
  split at hx
  · rename_i hname
    rw [hname, Function.update_self]
    obtain ⟨rhs, hrhs, hvalue⟩ := Option.bind_eq_some_iff.1 hx
    exact hv _ (Option.bind_eq_some_iff.2 ⟨rhs, hrhs, h.meant? hvalue⟩)
  · rename_i hname
    rw [Function.update_of_ne hname]
    exact h x text hx

/-- A run comes along some way, and its locals are as is known there. -/
theorem exists_along (method : String) {σ : State Datum}
    (hrun : ReflTransGen (Moves stmts) ⟨0, locals⟩ σ) :
    ∃ known, Along stmts method σ.index known ∧ Agrees method known σ.locals := by
  induction hrun with
  | refl =>
    refine ⟨[], .start, fun x s h => ?_⟩
    cases h
  | tail _ hmove ih =>
    obtain ⟨known, halong, hagrees⟩ := ih
    cases hmove with
    | @assign s l hs hl v hv =>
      exact ⟨_, halong.step hs ((flows_iff_of_assigned? hs hl).2 rfl), hagrees.carry hl hv⟩
    | @pass s hs hl t ht =>
      refine ⟨_, halong.step hs ht, ?_⟩
      rw [carry_of_none hl]
      exact hagrees

theorem held_carry (hl : s.assigned? = some l) : held method (carry method known s) =
    Function.update (held method known) l.name
      (ofText (s.rhs? >>= fun rhs => value? rhs method known)) := by
  funext x
  rw [held, lookup_carry hl, Function.update_apply]
  split <;> rfl

theorem moves_held (hs : stmts[k]? = some s) (ht : Flows stmts k t) :
    Moves stmts ⟨k, held method known⟩ ⟨t, held method (carry method known s)⟩ := by
  cases hl : s.assigned? with
  | none =>
    rw [carry_of_none hl]
    exact .pass hs hl ht
  | some l =>
    rw [held_carry hl, (flows_iff_of_assigned? hs hl).1 ht]
    refine .assign hs hl fun u hu => ?_
    obtain ⟨rhs, hrhs, hu⟩ := Option.bind_eq_some_iff.1 hu
    rw [meant?_held hu, hrhs]
    rfl

/-- Along every way goes a run that has nothing else to go by. -/
theorem Along.run (h : Along stmts method k known) :
    ReflTransGen (Moves stmts) ⟨0, fun _ => .object 0⟩ ⟨k, held method known⟩ := by
  induction h with
  | start => exact .refl
  | step _ hs ht ih => exact ih.tail (moves_held hs ht)

/-- A string is assigned in all runs if and only if it is what each way carries. -/
theorem alwaysAssigns_iff (method : String) {dest : Local} {rhs : Value} {text : String}
    (hs : stmts[k]? = some (.assign (.loc dest) rhs)) :
    AlwaysAssigns stmts k dest.name text ↔
      ∀ known, Along stmts method k known → value? rhs method known = some text := by
  constructor
  · intro hall known halong
    -- the run along this way has no string but those that the way carries
    have hmove : Moves stmts ⟨k, held method known⟩ ⟨k + 1, held method (carry method known _)⟩ :=
      moves_held hs ((flows_iff_of_assigned? hs rfl).2 rfl)
    have hvalue : held method (carry method known _) dest.name = .known (.str text) :=
      hall _ _ _ halong.run rfl hmove
    have hheld : held method (carry method known (.assign (.loc dest) rhs)) dest.name =
        ofText (value? rhs method known) := by
      rw [held_carry rfl]
      exact Function.update_self ..
    rw [hheld] at hvalue
    cases hknown : value? rhs method known with
    | none =>
      rw [hknown] at hvalue
      cases hvalue
    | some s =>
      rw [hknown] at hvalue
      cases hvalue
      rfl
  · rintro hall locals σ τ hrun rfl hmove
    obtain ⟨known, halong, hagrees⟩ := exists_along method hrun
    have hexact := hagrees.meant? (hall known halong)
    cases hmove with
    | @assign s l hs' hl v hv =>
      rw [hs, Option.some.injEq] at hs'
      subst hs'
      cases hl
      rw [← hv _ hexact]
      exact Function.update_self ..
    | @pass s hs' hl =>
      rw [hs, Option.some.injEq] at hs'
      subst hs'
      cases hl

end Ways

section Listed

variable {p : Program} {method : String} {stmts : List Stmt} {k : Nat} {s : Stmt}

def isListed (s : Stmt) : Bool := s.rhs?.isSome && (UnitKind.ofStmt? s).isSome

def knownAt (stmts : List Stmt) (method : String) (k : Nat) : Strings :=
  (stmts.take k).foldl (fun known s => if isListed s then carry method known s else known) []

theorem knownAt_succ (hs : stmts[k]? = some s) : knownAt stmts method (k + 1) =
    if isListed s then carry method (knownAt stmts method k) s else knownAt stmts method k := by
  rw [knownAt, List.take_add_one, hs, Option.toList_some, List.foldl_append]
  rfl

theorem knownAt_succ_of_none (hs : stmts[k]? = none) :
    knownAt stmts method (k + 1) = knownAt stmts method k := by
  rw [knownAt, List.take_add_one, hs, Option.toList_none, List.append_nil, knownAt]

theorem mem_foldLines {lines : List Line} {known : Strings} {l : Line}
    (h : l ∈ foldLines p lines known) : ∃ before k after, lines = before ++ k :: after ∧
      l = folded p (before.foldl (learned p) known) k := by
  induction lines generalizing known with
  | nil => cases h
  | cons k rest ih =>
    rw [foldLines_cons, List.mem_cons] at h
    rcases h with rfl | h
    · exact ⟨[], k, rest, rfl, rfl⟩
    · obtain ⟨before, k', after, rfl, rfl⟩ := ih h
      exact ⟨k :: before, k', after, rfl, rfl⟩

theorem exists_of_result? {known : Strings} {l : Line} {dest : Local} {text : String}
    (h : result? p known l = some (dest, text)) : ∃ c,
      stmt? p l = some (.assign (.loc dest) (.call c)) ∧
        value? (.call c) l.method known = some text := by
  unfold result? at h
  split at h
  · rename_i c hstmt
    obtain ⟨s, hs, heq⟩ := Option.map_eq_some_iff.1 h
    cases heq
    exact ⟨c, hstmt, hs⟩
  · cases h

def lineAt (method : String) (k : Nat) (s : Stmt) (kind : UnitKind) : Line :=
  { text := s.text, kind, method, number := k, source := k }

theorem ofInstruction?_ofStmt (method : String) (k : Nat) (s : Stmt) :
    Line.ofInstruction? (.ofStmt method k s) = (UnitKind.ofStmt? s).map (lineAt method k s) := rfl

theorem stmt?_lineAt (hbody : p.bodyOf method = .ok (.ofStmts method stmts))
    (hs : stmts[k]? = some s) (kind : UnitKind) : stmt? p (lineAt method k s kind) = some s := by
  simp [stmt?, lineAt, hbody, Body.getElem?_ofStmts, hs, Instruction.ofStmt]

theorem learned_lineAt (hbody : p.bodyOf method = .ok (.ofStmts method stmts))
    (hs : stmts[k]? = some s) {kind : UnitKind} (hkind : UnitKind.ofStmt? s = some kind)
    (known : Strings) :
    learned p known (lineAt method k s kind) =
      if isListed s then carry method known s else known := by
  rw [learned, stmt?_lineAt hbody hs, isListed, hkind]
  cases s with
  | assign lhs rhs => cases lhs <;> rfl
  | _ => rfl

/-- The lines before an index tell a pass what it knows there. -/
theorem learned_lines (hbody : p.bodyOf method = .ok (.ofStmts method stmts)) (k : Nat) :
    (Body.lines ((Body.ofStmts method stmts).take k)).foldl (learned p) [] =
      knownAt stmts method k := by
  induction k with
  | zero => rfl
  | succ k ih =>
    rw [Body.lines] at ih
    rw [List.take_add_one, Body.lines, List.filterMap_append, List.foldl_append, ih,
      Body.getElem?_ofStmts]
    cases hs : stmts[k]? with
    | none => exact (knownAt_succ_of_none hs).symm
    | some s =>
      rw [knownAt_succ hs, Option.map_some, Option.toList_some, List.filterMap_cons,
        ofInstruction?_ofStmt]
      cases hkind : UnitKind.ofStmt? s with
      | none => simp [isListed, hkind]
      | some kind => exact learned_lineAt hbody hs hkind _

/-- A line that comes out of a pass over a method is what the pass makes of the line at its
index. -/
theorem exists_lineAt (hbody : p.bodyOf method = .ok (.ofStmts method stmts)) {l : Line}
    (h : l ∈ fold p (Body.lines (.ofStmts method stmts))) :
    ∃ k s kind, stmts[k]? = some s ∧ lineAt method k s kind ∈ Body.lines (.ofStmts method stmts) ∧
      l = folded p (knownAt stmts method k) (lineAt method k s kind) := by
  obtain ⟨before, line, after, hlines, rfl⟩ := mem_foldLines h
  obtain ⟨first, rest, hsplit, hfirst, hrest⟩ := List.filterMap_eq_append_iff.1 hlines
  -- between the lines before and this one are only instructions without a line
  obtain ⟨gap, i, later, rfl, hgap, hline, -⟩ := List.filterMap_eq_cons_iff.1 hrest
  let k := (first ++ gap).length
  rw [← List.append_assoc] at hsplit
  have hget : (Body.ofStmts method stmts)[k]? = some i := by
    rw [hsplit, List.getElem?_append_right (Nat.le_refl _), Nat.sub_self]
    rfl
  have hbefore : Body.lines ((Body.ofStmts method stmts).take k) = before := by
    rw [hsplit, List.take_left, Body.lines, List.filterMap_append, hfirst,
      List.filterMap_eq_nil_iff.2 hgap, List.append_nil]
  rw [Body.getElem?_ofStmts, Option.map_eq_some_iff] at hget
  obtain ⟨s, hs, rfl⟩ := hget
  rw [ofInstruction?_ofStmt, Option.map_eq_some_iff] at hline
  obtain ⟨kind, -, rfl⟩ := hline
  refine ⟨k, s, kind, hs, ?_, ?_⟩
  · rw [hlines]
    exact List.mem_append_right _ List.mem_cons_self
  · rw [← learned_lines hbody k, hbefore]

end Listed

/-- Whether the locals of a kind get their values, up to an index, as a pass takes it: by lines,
from locals of the kind, and where no jump passes over on its way to the index or before it. -/
structure Settled (stmts : List Stmt) (T : String → Prop) (stop : Nat) : Prop where
  listed : ∀ x k s, T x → k < stop → stmts[k]? = some s → s.Assigns x → isListed s = true
  sources : ∀ x k s, T x → k < stop → stmts[k]? = some s → s.Assigns x →
    ∀ rhs ∈ s.rhs?, ∀ r ∈ source? rhs, T r.name
  unskipped : ∀ x k s, T x → k < stop → stmts[k]? = some s → s.Assigns x → ¬ Skipped stmts stop k

namespace Settled

variable {method : String} {stmts : List Stmt} {T : String → Prop} {stop k n : Nat}
  {x text : String}

theorem lookup_knownAt_succ (hx : ∀ s, stmts[k]? = some s → ¬ s.Assigns x) :
    (knownAt stmts method (k + 1)).lookup (method, x) =
      (knownAt stmts method k).lookup (method, x) := by
  cases hs : stmts[k]? with
  | none => rw [knownAt_succ_of_none hs]
  | some s =>
    rw [knownAt_succ hs]
    split
    · exact lookup_carry_of_ne (hx s hs)
    · rfl

theorem lookup_knownAt_of_skip (h : Settled stmts T stop) (hx : T x) (hskip : Flows stmts k n)
    (hn : n ≤ stop) (hle : k + 1 ≤ n) : (knownAt stmts method n).lookup (method, x) =
      (knownAt stmts method (k + 1)).lookup (method, x) := by
  have hall : ∀ m, k + 1 ≤ m → m ≤ n → (knownAt stmts method m).lookup (method, x) =
      (knownAt stmts method (k + 1)).lookup (method, x) := by
    intro m hm
    induction m, hm using Nat.le_induction with
    | base => exact fun _ => rfl
    | succ m hm ih =>
      intro hmn
      rw [lookup_knownAt_succ, ih (by omega)]
      exact fun s hs hassigns =>
        h.unskipped x m s hx (by omega) hs hassigns ⟨k, n, hskip, by omega, by omega, hn⟩
  exact hall n hle (Nat.le_refl n)

/-- Along every way to the index, what a pass knows of the locals is known. -/
theorem lookup (h : Settled stmts T stop) (hforward : ∀ a b, Flows stmts a b → a < b)
    {known : Strings} (halong : Along stmts method k known) (hk : k ≤ stop) (hx : T x)
    (hknown : (knownAt stmts method k).lookup (method, x) = some text) :
    known.lookup (method, x) = some text := by
  induction halong generalizing x text with
  | start => exact hknown
  | @step k t s known halong hs ht ih =>
    have hlt := hforward k t ht
    -- what control passes over here assigns no such local, so the pass has learned nothing there
    rw [h.lookup_knownAt_of_skip hx ht hk hlt] at hknown
    by_cases hassigns : s.Assigns x
    · have hlisted := h.listed x k s hx (by omega) hs hassigns
      have hsources := h.sources x k s hx (by omega) hs hassigns
      rw [knownAt_succ hs, if_pos hlisted] at hknown
      obtain ⟨l, hl, rfl⟩ := hassigns
      rw [lookup_carry hl, if_pos rfl] at hknown ⊢
      obtain ⟨rhs, hrhs, hvalue⟩ := Option.bind_eq_some_iff.1 hknown
      refine Option.bind_eq_some_iff.2 ⟨rhs, hrhs, value?_mono (fun r hr u hu => ?_) hvalue⟩
      exact ih (by omega) (hsources rhs hrhs r hr) hu
    · rw [lookup_knownAt_succ] at hknown
      · rw [lookup_carry_of_ne hassigns]
        exact ih (by omega) hx hknown
      · intro s' hs'
        rw [hs, Option.some.injEq] at hs'
        exact hs' ▸ hassigns

end Settled

/-- A line that a pass over the lines of a method writes anew has the string that every run assigns
there if and only if each way to the line carries it. That is so where the string goes back to
locals that are settled. -/
theorem folded_literal_iff (p : Program) (method : String) (stmts : List Stmt)
    (hbody : p.bodyOf method = .ok (.ofStmts method stmts))
    (hforward : (Body.ofStmts method stmts).IsForward) (l : Line)
    (hl : l ∈ fold p (Body.lines (.ofStmts method stmts)))
    (hnew : l ∉ Body.lines (.ofStmts method stmts)) :
    ∃ dest c s, stmts[l.source]? = some (.assign (.loc dest) (.call c)) ∧
      l.text = dest.name ++ " = " ++ (Constant.str s).text ∧ l.constants? = some [s] ∧
      (AlwaysAssigns stmts l.source dest.name s ↔
        ∀ known, Along stmts method l.source known → value? (.call c) method known = some s) ∧
      ∀ T, Settled stmts T l.source → (∀ r ∈ source? (.call c), T r.name) →
        AlwaysAssigns stmts l.source dest.name s := by
  obtain ⟨k, stmt, kind, hs, hmem, rfl⟩ := exists_lineAt hbody hl
  cases hresult : result? p (knownAt stmts method k) (lineAt method k stmt kind) with
  | none =>
    rw [folded, hresult] at hnew
    exact absurd hmem hnew
  | some r =>
    obtain ⟨dest, text⟩ := r
    obtain ⟨c, hstmt, hvalue⟩ := exists_of_result? hresult
    rw [stmt?_lineAt hbody hs, Option.some.injEq] at hstmt
    subst hstmt
    rw [folded, hresult]
    have hflows : ∀ a b, Flows stmts a b → a < b := by
      rintro a b ⟨s, hs, hb | ⟨-, rfl⟩⟩
      · refine hforward a (.ofStmt method a s) ?_ b hb
        rw [Body.getElem?_ofStmts, hs]
        rfl
      · exact Nat.lt_succ_self a
    refine ⟨dest, c, text, hs, rfl, rfl, alwaysAssigns_iff method hs, fun T hsettled hsource => ?_⟩
    refine (alwaysAssigns_iff method hs).2 fun known halong => ?_
    refine value?_mono (fun r hr t ht => ?_) hvalue
    exact hsettled.lookup hflows halong (Nat.le_refl k) (hsource r hr) ht

theorem isForward_ofStmts (method : String) {stmts : List Stmt}
    (h : ∀ i ∈ stmts.zipIdx, ∀ t ∈ i.1.targets, i.2 < t) :
    (Body.ofStmts method stmts).IsForward := by
  intro k i hi t ht
  rw [Body.getElem?_ofStmts, Option.map_eq_some_iff] at hi
  obtain ⟨s, hs, rfl⟩ := hi
  exact h (s, k) (List.mk_mem_zipIdx_iff_getElem?.2 hs) t ht

def nameMethod : MethodSig := ⟨"a.B", .void, "m", [.int]⟩

def replaceMethod : MethodSig := ⟨"java.lang.String", .string, "replace", [.char, .char]⟩

def nameProgram (stmts : List Stmt) : Program :=
  Program.empty.addClass <| .ofMembers "a.B" none false [] [⟨nameMethod, some stmts⟩]

def respelled (name : String) : Value :=
  .call ⟨.virtual, some ⟨name, .string⟩, replaceMethod, [.const (.int 88), .const (.int 69)]⟩

theorem bodyOf_nameProgram (stmts : List Stmt) :
    (nameProgram stmts).bodyOf nameMethod.text = .ok (.ofStmts nameMethod.text stmts) := by
  have hparse : MethodSig.parse nameMethod.text = .ok nameMethod := by decide +kernel
  rw [Program.bodyOf_text hparse]
  rfl

/-- A name is copied behind a branch that does not touch it, and spelled in another way. -/
def copiedName : List Stmt :=
  [.identity ⟨"i0", .int⟩ (.parameter 0 .int),
    .assign (.loc ⟨"r1", .string⟩) (.const (.str "AXS")),
    .branch ⟨.eq, .loc ⟨"i0", .int⟩, .const (.int 0)⟩ 4,
    .assign (.loc ⟨"i0", .int⟩) (.const (.int 5)),
    .assign (.loc ⟨"r3", .string⟩) (.loc ⟨"r1", .string⟩),
    .assign (.loc ⟨"r2", .string⟩) (respelled "r3"),
    .retVoid]

theorem flows_copiedName {a b : Nat} (h : Flows copiedName a b) : b = a + 1 ∨ a = 2 ∧ b = 4 := by
  obtain ⟨s, hs, hb | ⟨-, hb⟩⟩ := h
  · have hall : ∀ i ∈ copiedName.zipIdx, ∀ t ∈ i.1.targets, i.2 = 2 ∧ t = 4 := by
      simp [copiedName, Stmt.targets]
    exact .inr (hall (s, a) (List.mk_mem_zipIdx_iff_getElem?.2 hs) b hb)
  · exact .inl hb

theorem settled_copiedName : Settled copiedName (fun x => x = "r1" ∨ x = "r3") 5 := by
  have hall : ∀ i ∈ copiedName.zipIdx, ∀ x, x = "r1" ∨ x = "r3" → i.1.Assigns x →
      i.2 = 1 ∨ i.2 = 4 := by
    simp [copiedName, Stmt.Assigns, Stmt.assigned?, Value.local?]
  have hwhere {x : String} {k : Nat} {s : Stmt} (hx : x = "r1" ∨ x = "r3")
      (hs : copiedName[k]? = some s) (h : s.Assigns x) : k = 1 ∨ k = 4 :=
    hall (s, k) (List.mk_mem_zipIdx_iff_getElem?.2 hs) x hx h
  constructor
  · rintro x k s hx - hs h
    rcases hwhere hx hs h with rfl | rfl <;> cases hs <;> rfl
  · rintro x k s hx - hs h rhs hrhs r hr
    rcases hwhere hx hs h with rfl | rfl
    · cases hs
      cases hrhs
      cases hr
    · cases hs
      cases hrhs
      cases hr
      exact .inl rfl
  · rintro x k s hx - hs h ⟨a, b, hflow, hak, hkb, -⟩
    have hjump := flows_copiedName hflow
    have hk := hwhere hx hs h
    omega

theorem folded_literal_iff_copiedName :
    (nameProgram copiedName).bodyOf nameMethod.text = .ok (.ofStmts nameMethod.text copiedName) ∧
      (Body.ofStmts nameMethod.text copiedName).IsForward ∧
      ∃ l, l ∈ fold (nameProgram copiedName) (Body.lines (.ofStmts nameMethod.text copiedName)) ∧
        l ∉ Body.lines (.ofStmts nameMethod.text copiedName) ∧ l.text = "r2 = \"AES\"" ∧
        AlwaysAssigns copiedName 5 "r2" "AES" := by
  have hforward : (Body.ofStmts nameMethod.text copiedName).IsForward :=
    isForward_ofStmts _ (by decide)
  let l : Line := { lineAt nameMethod.text 5 (.assign (.loc ⟨"r2", .string⟩) (respelled "r3"))
    .assignVirtualInvoke with text := "r2 = \"AES\"", constants? := some ["AES"] }
  have hl : l ∈ fold (nameProgram copiedName)
      (Body.lines (.ofStmts nameMethod.text copiedName)) := by decide +kernel
  have hnew : l ∉ Body.lines (.ofStmts nameMethod.text copiedName) := by decide +kernel
  obtain ⟨dest, c, s, hs, -, hliteral, -, halways⟩ := folded_literal_iff (nameProgram copiedName)
    nameMethod.text copiedName (bodyOf_nameProgram copiedName) hforward l hl hnew
  cases hs
  cases hliteral
  refine ⟨bodyOf_nameProgram copiedName, hforward, l, hl, hnew, rfl, ?_⟩
  refine halways _ settled_copiedName fun r hr => ?_
  cases hr
  exact .inr rfl

def eitherSpelling : List Stmt :=
  [.identity ⟨"i0", .int⟩ (.parameter 0 .int),
    .assign (.loc ⟨"r1", .string⟩) (.const (.str "AXS")),
    .branch ⟨.eq, .loc ⟨"i0", .int⟩, .const (.int 0)⟩ 4,
    .assign (.loc ⟨"r1", .string⟩) (.const (.str "DXS")),
    .assign (.loc ⟨"r2", .string⟩) (respelled "r1"),
    .retVoid]

def caughtName : List Stmt :=
  [.assign (.loc ⟨"r1", .string⟩) (.const (.str "AXS")),
    .identity ⟨"r1", .string⟩ .caughtException,
    .assign (.loc ⟨"r2", .string⟩) (respelled "r1"),
    .retVoid]

/-- A pass writes the string of the last line before it that assigns the name. A run that passes
over this line has another one, and so may a run that comes by a statement which binds the name
without being an assignment. -/
theorem folded_literals_differ_from_runs :
    ((Body.ofStmts nameMethod.text eitherSpelling).IsForward ∧
      ((fold (nameProgram eitherSpelling)
        (Body.lines (.ofStmts nameMethod.text eitherSpelling)))[4]?).map (·.text) =
          some "r2 = \"DES\"" ∧
      ¬ AlwaysAssigns eitherSpelling 4 "r2" "DES") ∧
    ((Body.ofStmts nameMethod.text caughtName).IsForward ∧
      ((fold (nameProgram caughtName)
        (Body.lines (.ofStmts nameMethod.text caughtName)))[2]?).map (·.text) =
          some "r2 = \"AES\"" ∧
      ¬ AlwaysAssigns caughtName 2 "r2" "AES") := by
  refine ⟨⟨isForward_ofStmts _ (by decide), by decide +kernel, ?_⟩,
    isForward_ofStmts _ (by decide), by decide +kernel, ?_⟩
  · intro halways
    have hs : eitherSpelling[4]? = some (.assign (.loc ⟨"r2", .string⟩) (respelled "r1")) := rfl
    have hfirst : Along eitherSpelling nameMethod.text 2 _ :=
      (Along.start.step rfl ⟨_, rfl, .inr ⟨rfl, rfl⟩⟩).step rfl ⟨_, rfl, .inr ⟨rfl, rfl⟩⟩
    have hjump : Along eitherSpelling nameMethod.text 4 _ :=
      hfirst.step rfl ⟨_, rfl, .inl (List.mem_singleton_self 4)⟩
    have hvalue := (alwaysAssigns_iff nameMethod.text hs).1 halways _ hjump
    exact absurd hvalue (by decide +kernel)
  · intro halways
    have hs : caughtName[2]? = some (.assign (.loc ⟨"r2", .string⟩) (respelled "r1")) := rfl
    have hcaught : Along caughtName nameMethod.text 2 _ :=
      (Along.start.step rfl ⟨_, rfl, .inr ⟨rfl, rfl⟩⟩).step rfl ⟨_, rfl, .inr ⟨rfl, rfl⟩⟩
    have hvalue := (alwaysAssigns_iff nameMethod.text hs).1 halways _ hcaught
    exact absurd hvalue (by decide +kernel)

end Folding

end Backslice
