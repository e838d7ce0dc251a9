import Backslice.CallGraph.Branches
import Backslice.Record
import Backslice.Walk.Effect

namespace Backslice

/-- The state of a backward walk through the body of a criterion's caller. `loops` are the back
edges not taken yet, `jumps` the forward jumps. -/
structure Walk where
  criterion : Criterion
  body : Body
  loops : List (Nat × Nat)
  jumps : List (Nat × Nat)
  live : LiveSet
  ordinals : List Nat
  spawns : List Spawn
  lines : Table Nat Line
  deriving Inhabited

namespace Walk

def start (c : Criterion) (body : Body) (b : Branches) : Walk where
  criterion := c
  body := body
  loops := b.backEdges
  jumps := b.forwardJumps
  live := c.live
  ordinals := []
  spawns := []
  lines := .empty

/-- The program index of an index counted from the end. -/
def programIndex (w : Walk) (reversed : Nat) : Nat := w.body.length - 1 - reversed

def seed (w : Walk) : Nat := w.programIndex w.criterion.index

/-- Whether an edge closes a loop around the seed that starts at the given index. -/
def encloses (w : Walk) (index : Nat) (edge : Nat × Nat) : Bool :=
  edge.2 = index && edge.2 ≤ w.seed && w.seed < edge.1

/-- From the head of a loop around the seed, goes to its tail, once for each edge. -/
def takeLoop? (w : Walk) (index : Nat) : Option (Nat × Walk) :=
  match w.loops.find? (w.encloses index) with
  | some edge => some (edge.1, { w with loops := w.loops.erase edge })
  | none => none

/-- Whether a jump may pass over the index on its way to the seed. -/
def mayDefineOnly (w : Walk) (index : Nat) : Bool :=
  w.jumps.any fun j => j.1 < index && index < j.2 && j.2 ≤ w.seed

def isLive (w : Walk) (id : String) : Bool := w.live.contains id

/-- An id that is live already keeps its origin. -/
def makeLive (origin : String) (w : Walk) (id : String) : Walk :=
  if w.live.contains id then w else { w with live := w.live.insert id origin }

def makeAllLive (origin : String) (w : Walk) (ids : List String) : Walk :=
  ids.foldl (makeLive origin) w

/-- Keeps the line of an instruction, with literals. Instructions without a kind have no line. -/
def retain (w : Walk) (i : Instruction) (constants : List String) : Walk :=
  match i.kind? with
  | none => w
  | some kind =>
    let line := (w.lines.get? i.index).getD
      { text := i.stmt.text, kind, method := i.method, number := i.index, source := i.index }
    { w with lines := w.lines.insert i.index (line.attachAll constants) }

def addOrdinal (w : Walk) (n : Nat) : Walk :=
  { w with ordinals := Ascending.insert (fun a b => a < b) n w.ordinals }

def addSpawn (w : Walk) (s : Spawn) : Walk :=
  if s ∈ w.spawns then w else { w with spawns := w.spawns ++ [s] }

/-- Carries out an effect at an index. Ids are killed only where every path to the seed passes. -/
def apply (w : Walk) (index : Nat) (e : Effect) : Walk :=
  let origin := (e.trigger? >>= w.live.get?).getD w.criterion.target
  let w := if w.mayDefineOnly index then w
    else { w with live := e.kill.foldl Table.erase w.live }
  let w := w.makeAllLive origin e.gen
  let w := match e.ordinal? with
    | some n => w.addOrdinal n
    | none => w
  e.spawns.foldl addSpawn w

/-- Keeps an instruction that matters and carries out its effect. -/
def transfer (s : Surroundings) (w : Walk) (index : Nat) (i : Instruction) : Walk :=
  let e := Effect.ofInstruction s w.live i
  if e.retain then (w.retain i e.constants).apply index e else w

/-- Jumps to the seed or before it are kept, with what decides them. -/
def visit (s : Surroundings) (w : Walk) (index : Nat) (i : Instruction) : Walk :=
  match i.kind?, i.stmt with
  | some .branch, .branch cond target =>
    if target ≤ w.seed then
      (w.retain i []).makeAllLive i.stmt.text (cond.lhs.ids ++ cond.rhs.ids)
    else w
  | some .switch, .switch key _ _ => (w.retain i []).makeAllLive i.stmt.text key.ids
  | some .goto, .goto target => if target ≤ w.seed then w.retain i [] else w
  | some kind, _ => if kind.isReturn then w else w.transfer s index i
  | none, _ => w

def visitAt (s : Surroundings) (w : Walk) (index : Nat) : Walk :=
  match w.body[index]? with
  | some i => w.visit s index i
  | none => w

/-- The parts of a walk that no visit changes. -/
def fixed (w : Walk) : Criterion × Body × List (Nat × Nat) × List (Nat × Nat) :=
  (w.criterion, w.body, w.loops, w.jumps)

@[simp] theorem makeLive_fixed (origin : String) (w : Walk) (id : String) :
    (makeLive origin w id).fixed = w.fixed := by
  unfold makeLive; split <;> rfl

@[simp] theorem makeAllLive_fixed (origin : String) (w : Walk) (ids : List String) :
    (makeAllLive origin w ids).fixed = w.fixed := by
  unfold makeAllLive
  induction ids generalizing w with
  | nil => rfl
  | cons id ids ih => simp [ih]

@[simp] theorem retain_fixed (w : Walk) (i : Instruction) (constants : List String) :
    (w.retain i constants).fixed = w.fixed := by
  unfold retain; split <;> rfl

@[simp] theorem addSpawn_fixed (w : Walk) (s : Spawn) : (w.addSpawn s).fixed = w.fixed := by
  unfold addSpawn; split <;> rfl

@[simp] theorem addSpawns_fixed (w : Walk) (ss : List Spawn) :
    (ss.foldl addSpawn w).fixed = w.fixed := by
  induction ss generalizing w with
  | nil => rfl
  | cons s ss ih => simp [ih]

@[simp] theorem addOrdinal_fixed (w : Walk) (n : Nat) : (w.addOrdinal n).fixed = w.fixed := rfl

@[simp] theorem apply_fixed (w : Walk) (index : Nat) (e : Effect) :
    (w.apply index e).fixed = w.fixed := by
  simp only [apply, addSpawns_fixed]
  cases e.ordinal? <;> simp only [addOrdinal_fixed, makeAllLive_fixed] <;> split <;> rfl

@[simp] theorem transfer_fixed (s : Surroundings) (w : Walk) (index : Nat) (i : Instruction) :
    (w.transfer s index i).fixed = w.fixed := by
  simp only [transfer]; split <;> simp

@[simp] theorem visit_fixed (s : Surroundings) (w : Walk) (index : Nat) (i : Instruction) :
    (w.visit s index i).fixed = w.fixed := by
  unfold visit
  split
  · split <;> simp
  · simp
  · split <;> simp
  · split <;> simp
  · rfl

@[simp] theorem visitAt_fixed (s : Surroundings) (w : Walk) (index : Nat) :
    (w.visitAt s index).fixed = w.fixed := by
  unfold visitAt; split <;> simp

theorem visitAt_loops (s : Surroundings) (w : Walk) (index : Nat) :
    (w.visitAt s index).loops = w.loops :=
  congrArg (·.2.2.1) (visitAt_fixed s w index)

theorem length_loops_of_takeLoop? {w v : Walk} {index tail : Nat}
    (h : w.takeLoop? index = some (tail, v)) : v.loops.length < w.loops.length := by
  unfold takeLoop? at h
  split at h
  · rename_i edge found
    have hmem := List.mem_of_find?_eq_some found
    simp only [Option.some.injEq, Prod.mk.injEq] at h
    obtain ⟨-, rfl⟩ := h
    have := List.length_pos_of_mem hmem
    simp only [List.length_erase_of_mem hmem]
    omega
  · cases h

/-- Visits the instructions below the cursor from the last one down, going through every loop
around the seed once more. -/
def run (s : Surroundings) (w : Walk) (cursor : Nat) : Walk :=
  match cursor with
  | 0 => w
  | index + 1 =>
    match _h : w.takeLoop? index with
    | some (tail, v) => run s v (tail + 1)
    | none => run s (w.visitAt s index) index
termination_by (w.loops.length, cursor)
decreasing_by
  · exact Prod.Lex.left _ _ (length_loops_of_takeLoop? _h)
  · rw [visitAt_loops]
    exact Prod.Lex.right _ (Nat.lt_succ_self index)

/-- The literals of the statement that a criterion points at. -/
def seedConstants (constants : ConstantTable) (c : Criterion) (s : Stmt) : List String :=
  match c.kind, s with
  | .invocation, s =>
    match s.call? with
    | none => []
    | some call =>
      let positions := if c.positions.isEmpty then (List.range call.args.length).map Int.ofNat
        else c.positions
      positions.filterMap fun p =>
        match call.operand? p with
        | some (.const k) => k.textFor? ((call.operandTy? p).getD .unknown)
        | _ => none
  | .fieldRead, .assign _ rhs =>
    (rhs.field? >>= fun f => constants.field? f >>= fun k => k.textFor? f.ty).toList
  | .fieldWrite, .assign lhs (.const k) => (lhs.field? >>= fun f => k.textFor? f.ty).toList
  | .returnValue, .ret (.const k) =>
    let ty := match MethodSig.parse c.caller with
      | .ok m => m.ret
      | .error _ => .unknown
    (k.textFor? ty).toList
  | _, _ => []

/-- A criterion at a field read leads to the writers of the field. -/
def seedSpawns (c : Criterion) (s : Stmt) : List Spawn :=
  match s with
  | .assign _ rhs => if c.readsField then rhs.field?.toList.map .fieldWriters else []
  | _ => []

def plantSeed (constants : ConstantTable) (w : Walk) : Walk :=
  match w.body[w.seed]? with
  | some i =>
    let w := w.retain i (seedConstants constants w.criterion i.stmt)
    { w with spawns := w.spawns ++ seedSpawns w.criterion i.stmt }
  | none => w

/-- The whole walk of a criterion. -/
def ofCriterion (constants : ConstantTable) (c : Criterion) (body : Body) (b : Branches) : Walk :=
  let w := (start c body b).plantSeed constants
  w.run ⟨constants, c.readsField⟩ w.seed

def toRecord (w : Walk) (nodeId : String) (related : List String) : Record where
  nodeId? := some nodeId
  group := w.criterion.rootId
  related := related
  caller := w.criterion.caller
  target := w.criterion.target
  positions := w.criterion.positions
  live := w.criterion.live
  content := w.lines.values

end Walk

end Backslice
