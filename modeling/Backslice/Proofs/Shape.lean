import Backslice.Proofs.Branches
import Backslice.Proofs.Memo
import Backslice.Proofs.Sites
import Backslice.Proofs.Turns

namespace Backslice

namespace Build

variable {p : Program} {b : Build} {f : ClassFilter}

/-- Whether the jumps of a build are those of the bodies that the program provides. -/
def HasBranchesOf (b : Build) (p : Program) : Prop :=
  ∀ method branches, b.branches.get? method = some branches →
    ∃ f m body, p.Provides f m body ∧ m.text = method ∧ branches = .ofBody body

namespace HasBranchesOf

theorem addMethod (h : b.HasBranchesOf p) {c : ClassDef} (hc : c ∈ p.loadedClasses)
    (haccepts : f.accepts c = true) {m : MethodSig} (hm : m ∈ c.concreteMethods) :
    (Build.addMethod p b m).HasBranchesOf p := by
  intro method branches hget
  unfold Build.addMethod at hget
  split at hget
  · exact h method branches hget
  · rename_i body hbody
    simp only [addBody_eq, Table.get?_insert] at hget
    split at hget
    · rename_i htext
      exact ⟨f, m, body, ⟨c, hc, haccepts, hm, hbody⟩, htext.symm, (Option.some.inj hget).symm⟩
    · exact h method branches hget

theorem takeIn (h : b.HasBranchesOf p) {c : ClassDef} (hc : c ∈ p.loadedClasses) :
    (Build.takeIn f p b c).HasBranchesOf p := by
  unfold Build.takeIn
  split
  · rename_i hnew
    have haccepts : f.accepts c = true := (Bool.and_eq_true .. ▸ hnew).1
    have hmethods : HasBranchesOf (c.concreteMethods.foldl (Build.addMethod p)
        { b with constants := c.fields.foldl addConstant b.constants }) p := by
      refine List.foldlRecOn (motive := (HasBranchesOf · p)) c.concreteMethods _ ?_ ?_
      · exact h
      · exact fun _ hb _ hm => hb.addMethod hc haccepts hm
    exact hmethods
  · exact h

end HasBranchesOf

end Build

namespace Program

/-- Whether a build comes from passes over the program, each with a filter of its own. -/
inductive Built (p : Program) : Build → Prop
  | empty : Built p .empty
  | extend {b : Build} (h : Built p b) (f : ClassFilter) : Built p (b.extend f p)

variable {p : Program} {b : Build}

/-- What holds of an empty build and is kept whenever a class is taken in holds of every build. -/
theorem Built.invariant {P : Build → Prop} (h : p.Built b) (hempty : P .empty)
    (htakeIn : ∀ f b c, c ∈ p.loadedClasses → P b → P (Build.takeIn f p b c))
    (hstats : ∀ b stats, P b → P { b with stats }) : P b := by
  induction h with
  | empty => exact hempty
  | extend _ f ih =>
    apply hstats
    exact List.foldlRecOn (motive := P) p.loadedClasses _ ih fun b hb c hc => htakeIn f b c hc hb

theorem Built.hasBranches (h : p.Built b) : b.HasBranchesOf p := by
  refine h.invariant (P := (·.HasBranchesOf p)) ?_ (fun f b c hc hb => hb.takeIn hc)
    fun _ _ hb => hb
  intro _ _ hget
  cases hget

/-- Bodies are stored by the text of their signature, so a method that a build has seen under this
text had the same body. -/
theorem Built.branchesFor_of_bodies (h : p.Built b) {method : String} {body : Body}
    (hbody : p.bodies.get? method = some body) : b.branchesFor method body = .ofBody body := by
  unfold Build.branchesFor
  cases hget : b.branches.get? method with
  | none => rfl
  | some branches =>
    obtain ⟨f, m, body', ⟨-, -, -, -, hm⟩, rfl, rfl⟩ := h.hasBranches method branches hget
    rw [get?_bodies_of_body hm] at hbody
    cases hbody
    rfl

theorem Built.branchesFor_of_bodyOf (h : p.Built b) (hsigs : p.DeclaredReadBack) {caller : String}
    {body : Body} (hbody : p.bodyOf caller = .ok body) :
    b.branchesFor caller body = .ofBody body := by
  cases hget : b.branches.get? caller with
  | none => rw [Build.branchesFor, hget, Option.getD_none]
  | some branches =>
    obtain ⟨f, m, body', hm, rfl, -⟩ := h.hasBranches caller branches hget
    rw [bodyOf_text (hsigs.parse_of_provides hm)] at hbody
    exact h.branchesFor_of_bodies (get?_bodies_of_body hbody)

/-- The jumps that a build has for a method are those of the body that a walk goes through. -/
theorem Built.branchesFor_eq (h : p.Built b) (hsigs : p.ReadsBack) {caller : String} {body : Body}
    (hbody : p.bodyOf caller = .ok body) : b.branchesFor caller body = .ofBody body :=
  h.branchesFor_of_bodyOf hsigs.declared hbody

/-- A body that loads is numbered, and its instructions belong to the method. -/
theorem Assembled.eq_ofStmts_of_body (hp : p.Assembled) {m : MethodSig} {body : Body}
    (hbody : p.body m = .ok body) : ∃ stmts, body = Body.ofStmts m.text stmts :=
  hp.eq_ofStmts (Table.get?_eq_some_iff.1 (get?_bodies_of_body hbody))

end Program

namespace Line

structure IsOf (i : Instruction) (l : Line) : Prop where
  text : l.text = i.stmt.text
  kind : i.kind? = some l.kind
  method : l.method = i.method
  number : l.number = i.index
  source : l.source = i.index
  literals : ∀ literals, l.constants? = some literals → literals ≠ [] ∧ literals.Nodup

theorem IsOf.attachAll {i : Instruction} {l : Line} (h : l.IsOf i) (literals : List String) :
    (l.attachAll literals).IsOf i := by
  unfold Line.attachAll
  induction literals generalizing l with
  | nil => exact h
  | cons literal rest ih =>
    refine ih { h with literals := ?_ }
    rintro _ ⟨⟩
    have hold : (l.constants?.getD []).Nodup := by
      cases hl : l.constants? with
      | none => exact .nil
      | some literals => exact (h.literals literals hl).2
    split
    · rename_i hmem
      exact ⟨List.ne_nil_of_mem hmem, hold⟩
    · rename_i hmem
      exact ⟨by simp, List.nodup_append.2 ⟨hold, by simp, by grind⟩⟩

end Line

namespace Walk

/-- Whether an index is before the seed or in a loop around it. -/
def Encircled (edges : List (Nat × Nat)) (seed k : Nat) : Prop :=
  k ≤ seed ∨ ∃ edge ∈ edges, edge.2 ≤ seed ∧ seed < edge.1 ∧ k ≤ edge.1

structure MayKeep (method : String) (stmts : List Stmt) (seed : Nat) (edges : List (Nat × Nat))
    (k : Nat) (l : Line) : Prop where
  encircled : Encircled edges seed k
  returns : l.kind.isReturn = true → k = seed
  statement : ∃ s, stmts[k]? = some s ∧ l.IsOf (.ofStmt method k s)

/-- What holds of a walk through the given statements at any time. -/
structure Shaped (method : String) (stmts : List Stmt) (seed : Nat) (edges : List (Nat × Nat))
    (w : Walk) : Prop where
  body_eq : w.body = Body.ofStmts method stmts
  seed_eq : w.seed = seed
  loops : w.loops ⊆ edges
  lines : ∀ e ∈ w.lines.entries, MayKeep method stmts seed edges e.1 e.2

/-- A visit leaves the lines alone, or keeps that of the instruction, which does not return: a jump
without literals, anything else with those of its effect. -/
theorem lines_visit_cases (s : Surroundings) (w : Walk) (index : Nat) (i : Instruction) :
    (w.visit s index i).lines = w.lines ∨
      (∀ kind, i.kind? = some kind → kind.isReturn = false) ∧
        ∃ literals, (w.visit s index i).lines = (w.retain i literals).lines ∧
          ((∃ kind, i.kind? = some kind ∧ kind.isBranch = true) ∧ literals = [] ∨
            (Effect.ofInstruction s w.live i).retain = true ∧
              literals = (Effect.ofInstruction s w.live i).constants) := by
  unfold visit
  split
  · rename_i hkind _
    split
    · exact .inr ⟨by simp [hkind, UnitKind.isReturn], [], by simp, .inl ⟨⟨_, hkind, rfl⟩, rfl⟩⟩
    · exact .inl rfl
  · rename_i hkind _
    exact .inr ⟨by simp [hkind, UnitKind.isReturn], [], by simp, .inl ⟨⟨_, hkind, rfl⟩, rfl⟩⟩
  · rename_i hkind _
    split
    · exact .inr ⟨by simp [hkind, UnitKind.isReturn], [], rfl, .inl ⟨⟨_, hkind, rfl⟩, rfl⟩⟩
    · exact .inl rfl
  · rename_i hkind _ _ _
    split
    · exact .inl rfl
    · rename_i hreturn
      simp only [transfer]
      split
      · rename_i hretain
        exact .inr ⟨by simpa [hkind] using hreturn, _, by rw [lines_apply], .inr ⟨hretain, rfl⟩⟩
      · exact .inl rfl
  · exact .inl rfl

theorem contains_visitAt (s : Surroundings) (w : Walk) (index : Nat) {k : Nat}
    (h : w.lines.contains k = true) : (w.visitAt s index).lines.contains k = true := by
  unfold visitAt
  split
  · rename_i i _
    rcases lines_visit_cases s w index i with hlines | ⟨-, literals, hlines, -⟩
    · rw [hlines, h]
    · rw [hlines, lines_retain, h, Bool.or_true]
  · exact h

theorem contains_run (s : Surroundings) (w : Walk) (cursor : Nat) {k : Nat}
    (h : w.lines.contains k = true) : (w.run s cursor).lines.contains k = true := by
  fun_induction run s w cursor with
  | case1 => exact h
  | case2 w index tail v hloop ih =>
    obtain ⟨-, -, -, rfl⟩ := edge_of_takeLoop? hloop
    exact ih h
  | case3 w index _ ih => exact ih (contains_visitAt s w index h)

namespace Shaped

variable {method : String} {stmts : List Stmt} {seed : Nat} {edges : List (Nat × Nat)} {w v : Walk}

theorem of_fixed (h : w.Shaped method stmts seed edges) (hfixed : v.fixed = w.fixed)
    (hlines : ∀ e ∈ v.lines.entries, MayKeep method stmts seed edges e.1 e.2) :
    v.Shaped method stmts seed edges where
  body_eq := (congrArg (·.2.1) hfixed).trans h.body_eq
  seed_eq := (seed_of_fixed hfixed).trans h.seed_eq
  loops := (congrArg (·.2.2.1) hfixed : v.loops = w.loops) ▸ h.loops
  lines := hlines

/-- A line that is kept once more takes the new literals and is otherwise the same. -/
theorem retain (h : w.Shaped method stmts seed edges) {index : Nat} {s : Stmt}
    (hs : stmts[index]? = some s) (hindex : Encircled edges seed index)
    (hreturn : ∀ kind, UnitKind.ofStmt? s = some kind → kind.isReturn = true → index = seed)
    (literals : List String) :
    (w.retain (.ofStmt method index s) literals).Shaped method stmts seed edges := by
  refine h.of_fixed (retain_fixed ..) ?_
  cases hkind : UnitKind.ofStmt? s with
  | none => simpa [Walk.retain, Instruction.ofStmt, hkind] using h.lines
  | some kind =>
    intro e he
    simp only [Walk.retain, Instruction.ofStmt, hkind, Table.mem_entries_insert] at he
    rcases he with rfl | ⟨he, -⟩
    · have hline : Line.IsOf (.ofStmt method index s) ((w.lines.get? index).getD
          { text := s.text, kind, method, number := index, source := index }) := by
        cases hget : w.lines.get? index with
        | none => exact ⟨rfl, hkind, rfl, rfl, rfl, by simp⟩
        | some l =>
          obtain ⟨s', hs', hl⟩ := (h.lines _ (Table.get?_eq_some_iff.1 hget)).statement
          rw [hs, Option.some.injEq] at hs'
          exact hs' ▸ hl
      have hattached := hline.attachAll literals
      exact {
        encircled := hindex
        returns := fun hret => hreturn _ hattached.kind hret
        statement := ⟨s, hs, hattached⟩ }
    · exact h.lines e he

theorem visitAt (h : w.Shaped method stmts seed edges) (s : Surroundings) {index : Nat}
    (hindex : Encircled edges seed index) :
    (w.visitAt s index).Shaped method stmts seed edges := by
  unfold Walk.visitAt
  cases hget : w.body[index]? with
  | none => exact h
  | some i =>
    rw [h.body_eq, Body.getElem?_ofStmts, Option.map_eq_some_iff] at hget
    obtain ⟨stmt, hstmt, rfl⟩ := hget
    rcases lines_visit_cases s w index (.ofStmt method index stmt) with
      hlines | ⟨hreturn, literals, hlines, -⟩
    · exact h.of_fixed (visit_fixed ..) (hlines ▸ h.lines)
    · have hkept := h.retain hstmt hindex
        (fun kind hkind hret => by simp [hreturn kind hkind] at hret) literals
      exact hkept.of_fixed ((visit_fixed ..).trans (retain_fixed ..).symm) (hlines ▸ hkept.lines)

/-- All that a walk may still visit is before the seed or in a loop around it, as it goes on from
the tail of such a loop. -/
theorem run (h : w.Shaped method stmts seed edges) (s : Surroundings) (cursor : Nat)
    (hcursor : ∀ k < cursor, Encircled edges seed k) :
    (w.run s cursor).Shaped method stmts seed edges := by
  fun_induction Walk.run s w cursor with
  | case1 => exact h
  | case2 w index tail v hloop ih =>
    obtain ⟨hedge, hhead, htail, rfl⟩ := edge_of_takeLoop? hloop
    rw [h.seed_eq] at hhead htail
    refine ih { h with loops := fun x hx => h.loops (List.mem_of_mem_erase hx) } fun k hk => ?_
    exact .inr ⟨(tail, index), h.loops hedge, hhead, htail, Nat.lt_succ_iff.1 hk⟩
  | case3 w index _ ih =>
    exact ih (h.visitAt s (hcursor index (Nat.lt_succ_self index)))
      fun k hk => hcursor k (Nat.lt_succ_of_lt hk)

theorem source_eq (h : w.Shaped method stmts seed edges) :
    ∀ e ∈ w.lines.entries, e.2.source = e.1 := by
  intro e he
  obtain ⟨s, -, hl⟩ := (h.lines e he).statement
  exact hl.source

theorem exists_line_iff (h : w.Shaped method stmts seed edges) {k : Nat} :
    (∃ l ∈ w.lines.values, l.source = k) ↔ w.lines.contains k = true := by
  rw [w.lines.contains_eq_true_iff k]
  constructor
  · rintro ⟨l, hl, rfl⟩
    obtain ⟨e, he, rfl⟩ := List.mem_map.1 hl
    exact List.mem_map.2 ⟨e, he, (h.source_eq e he).symm⟩
  · intro hk
    obtain ⟨e, he, rfl⟩ := List.mem_map.1 hk
    exact ⟨e.2, List.mem_map.2 ⟨e, he, rfl⟩, h.source_eq e he⟩

end Shaped

theorem shaped_plantSeed (method : String) (stmts : List Stmt) (constants : ConstantTable)
    (c : Criterion) (b : Branches) :
    let w := start c (Body.ofStmts method stmts) b
    (w.plantSeed constants).Shaped method stmts w.seed b.backEdges := by
  intro w
  have hstart : w.Shaped method stmts w.seed b.backEdges :=
    ⟨rfl, rfl, List.Subset.refl _, fun _ he => nomatch he⟩
  unfold plantSeed
  cases hget : w.body[w.seed]? with
  | none => exact hstart
  | some i =>
    rw [hstart.body_eq, Body.getElem?_ofStmts, Option.map_eq_some_iff] at hget
    obtain ⟨stmt, hstmt, rfl⟩ := hget
    have hkept := hstart.retain hstmt (.inl (Nat.le_refl _)) (fun _ _ _ => rfl)
      (seedConstants constants w.criterion stmt)
    exact hkept.of_fixed rfl hkept.lines

theorem contains_plantSeed {w : Walk} {i : Instruction} (hi : w.body[w.seed]? = some i)
    (hindex : i.index = w.seed) (constants : ConstantTable) :
    (w.plantSeed constants).lines.contains w.seed =
      (i.kind?.isSome || w.lines.contains w.seed) := by
  simp [plantSeed, hi, lines_retain, hindex]

end Walk

/-- Whether a slice consists of classified statements of a method in order, each with its literals
once. The seed is there, nothing else returns, and what comes after the seed is in a loop around
it. -/
structure Record.Shaped (method : String) (stmts : List Stmt) (seed : Nat) (r : Record) : Prop where
  ascending : r.content.Pairwise fun l k => l.source < k.source
  numbered : ∀ l ∈ r.content, l.number = l.source
  classified : ∀ l ∈ r.content, l.method = method ∧
    ∃ s, stmts[l.source]? = some s ∧ l.text = s.text ∧ UnitKind.ofStmt? s = some l.kind
  seeded : (∃ l ∈ r.content, l.source = seed) ↔
    ∃ s, stmts[seed]? = some s ∧ (UnitKind.ofStmt? s).isSome = true
  returns : ∀ l ∈ r.content, l.kind.isReturn = true → l.source = seed
  looped : ∀ l ∈ r.content, seed < l.source →
    ∃ tail head s, stmts[tail]? = some s ∧ head ∈ s.targets ∧ head ≤ seed ∧ seed < tail ∧
      l.source ≤ tail
  literals : ∀ l ∈ r.content, ∀ literals, l.constants? = some literals →
    literals ≠ [] ∧ literals.Nodup

namespace Walk

theorem Shaped.toRecord {method : String} {stmts : List Stmt} {seed : Nat} {w : Walk}
    (h : w.Shaped method stmts seed (Branches.ofBody (Body.ofStmts method stmts)).backEdges)
    (hseed : ∀ s, stmts[seed]? = some s → (UnitKind.ofStmt? s).isSome = true →
      w.lines.contains seed = true) (id : String) (related : List String) :
    (w.toRecord id related).Shaped method stmts seed := by
  have hsource := h.source_eq
  have hentry : ∀ l ∈ w.lines.values, (l.source, l) ∈ w.lines.entries := by
    intro l hl
    obtain ⟨e, he, rfl⟩ := List.mem_map.1 hl
    rw [hsource e he]
    exact he
  constructor
  case ascending =>
    refine List.pairwise_map.2 (w.lines.sorted.imp_of_mem fun {e e'} he he' hlt => ?_)
    rw [hsource e he, hsource e' he']
    exact hlt
  case numbered =>
    intro l hl
    obtain ⟨s, -, hline⟩ := (h.lines _ (hentry l hl)).statement
    exact hline.number
  case classified =>
    intro l hl
    obtain ⟨s, hs, hline⟩ := (h.lines _ (hentry l hl)).statement
    exact ⟨hline.method, s, hs, hline.text, hline.kind⟩
  case seeded =>
    constructor
    · rintro ⟨l, hl, rfl⟩
      obtain ⟨s, hs, hline⟩ := (h.lines _ (hentry l hl)).statement
      have hkind : UnitKind.ofStmt? s = some l.kind := hline.kind
      exact ⟨s, hs, by rw [hkind, Option.isSome_some]⟩
    · rintro ⟨s, hs, hkind⟩
      exact h.exists_line_iff.2 (hseed s hs hkind)
  case returns =>
    exact fun l hl => (h.lines _ (hentry l hl)).returns
  case looped =>
    intro l hl hlt
    rcases (h.lines _ (hentry l hl)).encircled with hle | ⟨edge, hedge, hhead, htail, hle⟩
    · exact absurd hle (Nat.not_le.2 hlt)
    · obtain ⟨s, hs, htarget⟩ := Branches.mem_jumps_ofBody.1 (Branches.mem_backEdges.1 hedge).1
      exact ⟨edge.1, edge.2, s, hs, htarget, hhead, htail, hle⟩
  case literals =>
    intro l hl
    obtain ⟨s, -, hline⟩ := (h.lines _ (hentry l hl)).statement
    exact hline.literals

theorem seed_start (c : Criterion) (method : String) (stmts : List Stmt) (b : Branches) :
    (start c (Body.ofStmts method stmts) b).seed = stmts.length - 1 - c.index := by
  simp only [seed, programIndex, start, Body.length_ofStmts]

theorem shaped_run (method : String) (stmts : List Stmt) (constants : ConstantTable)
    (c : Criterion) (b : Branches) :
    (ofCriterion constants c (Body.ofStmts method stmts) b).Shaped method stmts
      (stmts.length - 1 - c.index) b.backEdges := by
  have hplanted := shaped_plantSeed method stmts constants c b
  have hwalked := hplanted.run ⟨constants, c.readsField⟩
    ((start c (Body.ofStmts method stmts) b).plantSeed constants).seed
    fun k hk => .inl (hplanted.seed_eq ▸ Nat.le_of_lt hk)
  rw [← seed_start c method stmts b]
  exact hwalked

/-- The walk of a criterion keeps the statement that it points at. -/
theorem contains_seed (method : String) (stmts : List Stmt) (constants : ConstantTable)
    (c : Criterion) (b : Branches) {s : Stmt} (hs : stmts[stmts.length - 1 - c.index]? = some s)
    (hkind : (UnitKind.ofStmt? s).isSome = true) :
    (ofCriterion constants c (Body.ofStmts method stmts) b).lines.contains
      (stmts.length - 1 - c.index) = true := by
  let w := start c (Body.ofStmts method stmts) b
  have hseed : w.seed = stmts.length - 1 - c.index := seed_start c method stmts b
  rw [← hseed] at hs ⊢
  have hi : w.body[w.seed]? = some (.ofStmt method w.seed s) := by
    change (Body.ofStmts method stmts)[w.seed]? = _
    rw [Body.getElem?_ofStmts, hs]
    rfl
  refine contains_run _ _ _ ?_
  rw [contains_plantSeed hi rfl]
  simp [Instruction.ofStmt, hkind]

/-- The whole walk of a criterion gives a slice of that shape. -/
theorem shaped_ofCriterion (method : String) (stmts : List Stmt) (c : Criterion)
    (constants : ConstantTable) (id : String) (related : List String) :
    let body := Body.ofStmts method stmts
    ((ofCriterion constants c body (.ofBody body)).toRecord id related).Shaped method stmts
      (stmts.length - 1 - c.index) :=
  (shaped_run method stmts constants c _).toRecord
    (fun _ hs hkind => contains_seed method stmts constants c _ hs hkind) id related

end Walk

namespace Worklist

/-- Whatever a build of a program says and whatever is asked for, a slice that is stored has the
shape of a slice of the caller's body. -/
theorem stored_slices_are_shaped (p : Program) (b : Build) (config : Config) (w : Worklist)
    (c : Criterion) (hp : p.Assembled) (hsigs : p.ReadsBack) (hb : p.Built b)
    (h : (process ⟨p, b, config⟩ w c).store ≠ w.store) :
    ∃ m stmts r, MethodSig.parse c.caller = .ok m ∧ p.body m = .ok (Body.ofStmts m.text stmts) ∧
      c.index < stmts.length ∧ (process ⟨p, b, config⟩ w c).store = w.store.insert r ∧
      r.nodeId? = some c.id ∧ r.Shaped m.text stmts (stmts.length - 1 - c.index) := by
  rcases process_cases ⟨p, b, config⟩ w c with ⟨-, heq⟩ | ⟨-, -, heq⟩ | ⟨-, walk, hwalk, heq⟩
  · exact absurd (congrArg store heq) h
  · exact absurd (congrArg store heq) h
  · obtain ⟨body, hbody, hindex, rfl⟩ := Analysis.exists_body_of_walk? hwalk
    obtain ⟨m, hparse, hm⟩ := Program.exists_of_bodyOf hbody
    obtain ⟨stmts, rfl⟩ := hp.eq_ofStmts_of_body hm
    rw [Body.length_ofStmts] at hindex
    refine ⟨m, stmts, _, hparse, hm, hindex, congrArg store heq, rfl, ?_⟩
    dsimp only
    rw [hb.branchesFor_eq hsigs hbody]
    exact Walk.shaped_ofCriterion ..

def loopMethod : MethodSig := ⟨"a.B", .void, "m", []⟩

def loopCallee : MethodSig := ⟨"a.C", .void, "use", [.string]⟩

def loopBody : List Stmt :=
  [.assign (.loc ⟨"r0", .string⟩) (.const (.str "AES")),
    .assign (.loc ⟨"r1", .string⟩) (.loc ⟨"r0", .string⟩),
    .invoke ⟨.static, none, loopCallee, [.loc ⟨"r1", .string⟩]⟩,
    .assign (.loc ⟨"r0", .string⟩) (.const (.str "DES")),
    .goto 1]

def nameInLoop : Program :=
  Program.empty.addClass <| .ofMembers "a.B" none false [] [⟨loopMethod, some loopBody⟩]

def loopUse : Criterion :=
  { caller := loopMethod.text, target := "use", kind := .invocation, index := 2
    live := Table.empty.insert "r1" "use#0" }

theorem parse_loopMethod : MethodSig.parse loopMethod.text = .ok loopMethod := by decide +kernel

theorem readsBack_nameInLoop : nameInLoop.ReadsBack := by
  have hcallee : MethodSig.parse loopCallee.text = .ok loopCallee := by decide +kernel
  constructor
  · intro c hc m hm
    rw [List.mem_singleton.1 hc] at hm
    rw [List.mem_singleton.1 hm]
    exact parse_loopMethod
  · intro body hbody i hi call hcall
    rw [List.mem_singleton.1 hbody] at hi
    obtain ⟨k, hk, rfl⟩ := List.mem_mapIdx.1 hi
    match k with
    | 0 | 1 | 3 | 4 => cases hcall
    | 2 =>
      cases hcall
      exact hcallee

theorem stored_slices_are_shaped_nameInLoop :
    let b := Build.ofProgram ⟨[]⟩ nameInLoop
    let w := process ⟨nameInLoop, b, .default⟩ ⟨[], .empty, {}⟩ loopUse
    nameInLoop.Assembled ∧ nameInLoop.ReadsBack ∧ nameInLoop.Built b ∧ w.store ≠ .empty ∧
      ∃ m stmts r, MethodSig.parse loopUse.caller = .ok m ∧
        nameInLoop.body m = .ok (Body.ofStmts m.text stmts) ∧ loopUse.index < stmts.length ∧
        w.store = Store.empty.insert r ∧ r.nodeId? = some loopUse.id ∧
        r.Shaped m.text stmts (stmts.length - 1 - loopUse.index) := by
  intro b w
  have hp : nameInLoop.Assembled := .addClass .empty _
  have hb : nameInLoop.Built b := .extend .empty ⟨[]⟩
  have hbody : nameInLoop.bodyOf loopUse.caller = .ok (.ofStmts loopMethod.text loopBody) := by
    change nameInLoop.bodyOf loopMethod.text = _
    rw [Program.bodyOf_text parse_loopMethod]
    rfl
  have hwalk := Analysis.walk?_of_bodyOf (a := ⟨nameInLoop, b, .default⟩) (c := loopUse) hbody
    (by decide)
  have hstored : w.store ≠ .empty := by
    rw [congrArg store (process_alone hwalk)]
    exact fun hempty => nomatch hempty
  exact ⟨hp, readsBack_nameInLoop, hb, hstored,
    stored_slices_are_shaped nameInLoop b .default _ loopUse hp readsBack_nameInLoop hb hstored⟩

end Worklist

end Backslice
