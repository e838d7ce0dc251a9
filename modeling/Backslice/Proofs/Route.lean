import Backslice.Proofs.Branches
import Backslice.Proofs.Visit
import Backslice.Walk.Spawns

/-!
The way of a walk through a body. Each move takes the cursor one instruction down, or from the head
of a loop up to its tail; a loop is used up by that, so that the moves come to an end. A loop ends
with a jump, which is an instruction of the body, so that the cursor stays within the body.
-/

namespace Backslice.Walk

inductive Move where
  | visit (index : Nat)
  | loop (head tail : Nat)
  deriving DecidableEq, Repr

namespace Move

def index : Move → Nat
  | visit index => index
  | loop head _ => head

def edge? : Move → Option (Nat × Nat)
  | visit _ => none
  | loop head tail => some (tail, head)

end Move

inductive Step (s : Surroundings) : Walk × Nat → Move → Walk × Nat → Prop
  | visit {w : Walk} {index : Nat} (h : w.takeLoop? index = none) :
    Step s (w, index + 1) (.visit index) (w.visitAt s index, index)
  | loop {w v : Walk} {index tail : Nat} (h : w.takeLoop? index = some (tail, v)) :
    Step s (w, index + 1) (.loop index tail) (v, tail + 1)

/-- The moves that lead from one state of a walk to another, in their order. -/
inductive Route (s : Surroundings) : Walk × Nat → List Move → Walk × Nat → Prop
  | stay (p : Walk × Nat) : Route s p [] p
  | go {p q r : Walk × Nat} {move : Move} {moves : List Move} (hstep : Step s p move q)
    (hroute : Route s q moves r) : Route s p (move :: moves) r

def around (w : Walk) : List (Nat × Nat) :=
  w.loops.filter fun edge => edge.2 ≤ w.seed && w.seed < edge.1

/-- How far a walk can still go: down from the cursor, and through the body for every loop. -/
def range (p : Walk × Nat) : Nat := p.2 + p.1.around.length * p.1.body.length

structure Confined (p : Walk × Nat) : Prop where
  cursor_le : p.2 ≤ p.1.body.length
  tail_lt : ∀ edge ∈ p.1.loops, edge.1 < p.1.body.length

theorem around_of_fixed {w v : Walk} (h : w.fixed = v.fixed) : w.around = v.around := by
  have hloops : w.loops = v.loops := congrArg (·.2.2.1) h
  unfold around
  rw [hloops, seed_of_fixed h]

variable {s : Surroundings} {p q : Walk × Nat} {move : Move} {moves : List Move}

namespace Step

theorem body_eq (h : Step s p move q) : q.1.body = p.1.body := by
  cases h with
  | visit => exact visitAt_body s _ _
  | loop h => exact (body_of_takeLoop? h).1

theorem loops_subset (h : Step s p move q) : q.1.loops ⊆ p.1.loops := by
  cases h with
  | @visit w index => exact visitAt_loops s w index ▸ List.Subset.refl _
  | loop h =>
    obtain ⟨-, -, -, rfl⟩ := edge_of_takeLoop? h
    exact List.erase_subset

/-- A loop that is taken is used up. -/
theorem around_perm (h : Step s p move q) :
    p.1.around.Perm (move.edge?.toList ++ q.1.around) := by
  cases h with
  | @visit w index => exact .of_eq (around_of_fixed (visitAt_fixed s w index)).symm
  | @loop w _ index tail h =>
    obtain ⟨hmem, hhead, htail, rfl⟩ := edge_of_takeLoop? h
    have hencloses : (decide (index ≤ w.seed) && decide (w.seed < tail)) = true := by
      simp [hhead, htail]
    have hperm := (List.perm_cons_erase hmem).filter fun edge =>
      decide (edge.2 ≤ w.seed) && decide (w.seed < edge.1)
    rw [List.filter_cons, if_pos hencloses] at hperm
    exact hperm

theorem confined (h : Step s p move q) (hp : Confined p) : Confined q where
  cursor_le := by
    have hle := hp.cursor_le
    rw [h.body_eq]
    cases h with
    | visit =>
      dsimp only at hle ⊢
      omega
    | loop h => exact hp.tail_lt _ (edge_of_takeLoop? h).1
  tail_lt edge hedge := by
    rw [h.body_eq]
    exact hp.tail_lt edge (h.loops_subset hedge)

/-- Going up to the tail of a loop costs less than the loop was worth. -/
theorem range_lt (h : Step s p move q) (hp : Confined p) : range q < range p := by
  have hle := (h.confined hp).cursor_le
  have hlength := h.around_perm.length_eq
  unfold range
  rw [h.body_eq] at hle ⊢
  rw [hlength]
  cases h with
  | visit => simp [Move.edge?]
  | loop =>
    simp only [Move.edge?, Option.toList_some, List.length_append, List.length_singleton,
      Nat.add_mul, Nat.one_mul] at hle ⊢
    omega

theorem index_lt (h : Step s p move q) (hp : Confined p) : move.index < p.1.body.length := by
  cases h with
  | visit => exact hp.cursor_le
  | loop => exact hp.cursor_le

theorem run_eq (h : Step s p move q) : p.1.run s p.2 = q.1.run s q.2 := by
  cases h with
  | visit h => exact run_of_no_loop h
  | loop h => exact run_of_loop h

end Step

namespace Route

/-- The loops that a walk goes through are those that it has used up. -/
theorem around_perm (h : Route s p moves q) :
    p.1.around.Perm (moves.filterMap Move.edge? ++ q.1.around) := by
  induction h with
  | stay => exact .refl _
  | @go _ _ _ move moves hstep _ ih =>
    have hedges : (move :: moves).filterMap Move.edge? =
        move.edge?.toList ++ moves.filterMap Move.edge? := by
      cases move <;> rfl
    rw [hedges, List.append_assoc]
    exact hstep.around_perm.trans (ih.append_left _)

/-- Moves and the way that is left never add up to more than the way at the start. -/
theorem length_add_range_le (h : Route s p moves q) (hp : Confined p) :
    moves.length + range q ≤ range p := by
  induction h with
  | stay => simp
  | go hstep _ ih =>
    have hlt := hstep.range_lt hp
    have hle := ih (hstep.confined hp)
    rw [List.length_cons]
    omega

theorem index_lt (h : Route s p moves q) (hp : Confined p) :
    ∀ move ∈ moves, move.index < p.1.body.length := by
  induction h with
  | stay => simp
  | go hstep _ ih =>
    refine List.forall_mem_cons.2 ⟨hstep.index_lt hp, fun move hmove => ?_⟩
    rw [← hstep.body_eq]
    exact ih (hstep.confined hp) move hmove

theorem run_eq (h : Route s p moves q) : p.1.run s p.2 = q.1.run s q.2 := by
  induction h with
  | stay => rfl
  | go hstep _ ih => exact hstep.run_eq.trans ih

end Route

/-- A walk goes on until its cursor is at the start of the body. -/
theorem exists_step (s : Surroundings) (w : Walk) {cursor : Nat} (h : cursor ≠ 0) :
    ∃ move q, Step s (w, cursor) move q := by
  obtain ⟨index, rfl⟩ := Nat.exists_eq_succ_of_ne_zero h
  cases htake : w.takeLoop? index with
  | none => exact ⟨_, _, .visit htake⟩
  | some taken => exact ⟨_, _, .loop htake⟩

theorem exists_route (s : Surroundings) (w : Walk) (cursor : Nat) :
    ∃ moves, Route s (w, cursor) moves (w.run s cursor, 0) := by
  fun_induction run s w cursor with
  | case1 w => exact ⟨[], .stay _⟩
  | case2 w index tail v h ih =>
    obtain ⟨moves, hroute⟩ := ih
    exact ⟨_, .go (.loop h) hroute⟩
  | case3 w index h ih =>
    obtain ⟨moves, hroute⟩ := ih
    exact ⟨_, .go (.visit h) hroute⟩

section
variable (constants : ConstantTable) (c : Criterion) (body : Body) (b : Branches)

theorem body_start : ((start c body b).plantSeed constants).body = body :=
  congrArg (·.2.1) (plantSeed_fixed constants (start c body b))

theorem loops_start : ((start c body b).plantSeed constants).loops = b.backEdges :=
  congrArg (·.2.2.1) (plantSeed_fixed constants (start c body b))

theorem around_start :
    ((start c body b).plantSeed constants).around = b.backEdges.filter fun edge =>
      edge.2 ≤ body.length - 1 - c.index && body.length - 1 - c.index < edge.1 :=
  around_of_fixed (plantSeed_fixed constants (start c body b))

theorem run_start :
    ((start c body b).plantSeed constants).run ⟨constants, c.readsField⟩
      (body.length - 1 - c.index) = ofCriterion constants c body b := by
  have hseed := seed_of_fixed (plantSeed_fixed constants (start c body b))
  rw [ofCriterion, hseed]
  rfl

/-- A loop ends with an instruction, so within a body that is numbered by position. -/
theorem confined_start (hbody : body.IsNumbered) :
    Confined ((start c body (.ofBody body)).plantSeed constants, body.length - 1 - c.index) := by
  constructor
  · rw [body_start]
    omega
  · intro edge hedge
    rw [loops_start] at hedge
    rw [body_start]
    exact Branches.source_lt_of_mem_jumps_ofBody hbody (Branches.mem_backEdges.1 hedge).1

end

/-- Whatever the jumps of a body that is numbered by position, and wherever they lead, the walk of a
criterion within the body comes to an end, after no more moves than there are instructions below
the seed and in the body for each loop around the seed. All indices that it comes to and the tails
of all loops that it takes are within the body, and it takes each loop around the seed at most
once. -/
theorem route_ends_within_body (constants : ConstantTable) (c : Criterion) (body : Body)
    (hbody : body.IsNumbered) (hindex : c.index < body.length) :
    let b := Branches.ofBody body
    let seed := body.length - 1 - c.index
    let loops := b.backEdges.filter fun edge => edge.2 ≤ seed && seed < edge.1
    let s : Surroundings := ⟨constants, c.readsField⟩
    let planted := ((start c body b).plantSeed constants, seed)
    seed < body.length ∧
    (∃ moves, Route s planted moves (ofCriterion constants c body b, 0)) ∧
    ∀ moves v cursor, Route s planted moves (v, cursor) →
      moves.length ≤ seed + loops.length * body.length ∧
      (cursor = 0 → v = ofCriterion constants c body b) ∧
      (cursor ≠ 0 → ∃ move q, Step s (v, cursor) move q) ∧
      (∀ move ∈ moves, move.index < body.length) ∧
      (∀ edge ∈ moves.filterMap Move.edge?, edge ∈ loops ∧ edge.1 < body.length) ∧
      (moves.filterMap Move.edge?).Nodup := by
  intro b seed loops s planted
  have hconfined : Confined planted := confined_start constants c body hbody
  have hsame : planted.1.body = body := body_start constants c body b
  have haround : planted.1.around = loops := around_start constants c body b
  have hrun : planted.1.run s planted.2 = ofCriterion constants c body b :=
    run_start constants c body b
  refine ⟨by omega, hrun ▸ exists_route s planted.1 planted.2, fun moves v cursor hroute => ?_⟩
  have hperm := hroute.around_perm
  rw [haround] at hperm
  refine ⟨?_, ?_, exists_step s v, ?_, ?_, ?_⟩
  · have hlength := hroute.length_add_range_le hconfined
    have hrange : range planted = seed + loops.length * body.length := by
      rw [range, haround, hsame]
    omega
  · intro hzero
    subst hzero
    rw [← hrun, hroute.run_eq, run]
  · rw [← hsame]
    exact hroute.index_lt hconfined
  · intro edge hedge
    have hloop : edge ∈ loops := hperm.mem_iff.2 (List.mem_append_left _ hedge)
    have hback := (List.mem_filter.1 hloop).1
    exact ⟨hloop, Branches.source_lt_of_mem_jumps_ofBody hbody (Branches.mem_backEdges.1 hback).1⟩
  · have hnodup : loops.Nodup := (Branches.nodup_backEdges b).filter _
    exact (List.nodup_append.1 (hperm.nodup_iff.1 hnodup)).1

/-- Three loops around the third statement, two of them from the same head, and a jump out of the
body. -/
def crossedLoops : Body := .ofStmts "" [.nop, .nop, .nop, .goto 1, .goto 0, .goto 1, .goto 9]

theorem route_ends_within_body_crossedLoops :
    let c : Criterion := { caller := "", target := "", kind := .invocation, index := 4 }
    let b := Branches.ofBody crossedLoops
    let s : Surroundings := ⟨.empty, false⟩
    crossedLoops.IsNumbered ∧ c.index < crossedLoops.length ∧
      b.backEdges = [(3, 1), (4, 0), (5, 1)] ∧
      ∃ moves, Route s ((start c crossedLoops b).plantSeed .empty, 2) moves
          (ofCriterion .empty c crossedLoops b, 0) ∧
        moves.length ≤ 23 ∧ (∀ move ∈ moves, move.index < 7) ∧
        (∀ edge ∈ moves.filterMap Move.edge?, edge ∈ b.backEdges) ∧
        (moves.filterMap Move.edge?).Nodup := by
  intro c b s
  have hbody : crossedLoops.IsNumbered := Body.isNumbered_ofStmts _ _
  have hindex : c.index < crossedLoops.length := by decide
  have hedges : b.backEdges = [(3, 1), (4, 0), (5, 1)] := by decide
  refine ⟨hbody, hindex, hedges, ?_⟩
  obtain ⟨-, ⟨moves, hroute⟩, hall⟩ := route_ends_within_body .empty c crossedLoops hbody hindex
  obtain ⟨hlength, -, -, hvisited, htaken, hnodup⟩ := hall moves _ 0 hroute
  refine ⟨moves, hroute, ?_, hvisited, fun edge hedge => ?_, hnodup⟩
  · change moves.length ≤ 2 + (b.backEdges.filter _).length * 7 at hlength
    rw [hedges] at hlength
    exact hlength
  · exact (List.mem_filter.1 (htaken edge hedge).1).1

end Backslice.Walk
