import Backslice.Proofs.Increments
import Backslice.Proofs.Shape

namespace Backslice

def Body.JumpsTo (body : Body) (source target : Nat) : Prop :=
  ∃ i, body[source]? = some i ∧ i.index = source ∧ target ∈ i.stmt.targets

theorem Body.jumpsTo_ofStmts {method : String} {stmts : List Stmt} {source target : Nat} :
    (Body.ofStmts method stmts).JumpsTo source target ↔
      ∃ s, stmts[source]? = some s ∧ target ∈ s.targets := by
  unfold JumpsTo
  rw [Body.getElem?_ofStmts]
  constructor
  · rintro ⟨i, hi, -, ht⟩
    obtain ⟨s, hs, rfl⟩ := Option.map_eq_some_iff.1 hi
    exact ⟨s, hs, ht⟩
  · rintro ⟨s, hs, ht⟩
    exact ⟨.ofStmt method source s, Option.map_eq_some_iff.2 ⟨s, hs, rfl⟩, rfl, ht⟩

theorem Ascending.pairwise_lex_ofList (l : List (Nat × Nat)) :
    (ofList pairLt l).Pairwise (Prod.Lex (· < ·) (· < ·)) := by
  refine (pairwise_ofList strictOrder_pairLt l).imp ?_
  intro a b hlt
  rw [Prod.lex_def]
  simpa [pairLt] using hlt

namespace Branches

structure AgreesWith (b : Branches) (body : Body) : Prop where
  backEdges_ascending : b.backEdges.Pairwise (Prod.Lex (· < ·) (· < ·))
  forwardJumps_ascending : b.forwardJumps.Pairwise (Prod.Lex (· < ·) (· < ·))
  disjoint : b.backEdges.Disjoint b.forwardJumps
  jumps : ∀ source target, (source, target) ∈ b.backEdges ∨ (source, target) ∈ b.forwardJumps ↔
    body.JumpsTo source target
  back : ∀ source target, body.JumpsTo source target →
    ((source, target) ∈ b.backEdges ↔ target ≤ source)
  inLoop : ∀ index, b.inLoop index = true ↔
    ∃ tail head, (tail, head) ∈ b.backEdges ∧ head ≤ index ∧ index ≤ tail

theorem inLoop_iff {b : Branches} {index : Nat} :
    b.inLoop index = true ↔
      ∃ tail head, (tail, head) ∈ b.backEdges ∧ head ≤ index ∧ index ≤ tail := by
  rw [Branches.inLoop, List.any_eq_true]
  simp only [Prod.exists, Bool.and_eq_true, decide_eq_true_eq]

theorem agreesWith_ofBody (method : String) (stmts : List Stmt) :
    (ofBody (Body.ofStmts method stmts)).AgreesWith (Body.ofStmts method stmts) := by
  have hjumps (source target : Nat) :
      (source, target) ∈ (ofBody (Body.ofStmts method stmts)).jumps ↔
        (Body.ofStmts method stmts).JumpsTo source target :=
    mem_jumps_ofBody.trans Body.jumpsTo_ofStmts.symm
  constructor
  case backEdges_ascending => exact Ascending.pairwise_lex_ofList _
  case forwardJumps_ascending => exact Ascending.pairwise_lex_ofList _
  case disjoint =>
    intro j hback hforward
    have hle := (mem_backEdges.1 hback).2
    have hlt := (mem_forwardJumps.1 hforward).2
    omega
  case jumps =>
    intro source target
    rw [mem_backEdges, mem_forwardJumps, ← and_or_left, hjumps]
    exact and_iff_left (Nat.lt_or_ge source target).symm
  case back =>
    intro source target h
    rw [mem_backEdges]
    exact and_iff_right ((hjumps source target).2 h)
  case inLoop => exact fun index => inLoop_iff

end Branches

namespace Build

variable {p : Program} {b : Build} {f : ClassFilter} {method : String}

/-- Whether a build has the jumps of exactly those methods that the classes it has processed declare
with a body that loads. -/
def RecordsJumps (b : Build) (p : Program) : Prop :=
  ∀ method, b.branches.contains method = true ↔
    ∃ c ∈ p.loadedClasses, b.isProcessed c.name = true ∧
      ∃ m ∈ c.concreteMethods, m.text = method ∧ ∃ body, p.body m = .ok body

theorem contains_branches_addMethods {ms : List MethodSig} :
    (ms.foldl (addMethod p) b).branches.contains method = true ↔
      (∃ m ∈ ms, m.text = method ∧ ∃ body, p.body m = .ok body) ∨
        b.branches.contains method = true := by
  induction ms generalizing b with
  | nil => simp
  | cons m ms ih =>
    have hone : (addMethod p b m).branches.contains method = true ↔
        (m.text = method ∧ ∃ body, p.body m = .ok body) ∨ b.branches.contains method = true := by
      unfold addMethod
      cases hbody : p.body m with
      | error e => simp
      | ok body =>
        simp only [Table.contains_insert, Bool.or_eq_true, decide_eq_true_eq]
        exact or_congr_left ⟨fun h => ⟨h.symm, body, rfl⟩, fun h => h.1.symm⟩
    rw [List.foldl_cons, ih, hone]
    simp only [List.mem_cons, exists_eq_or_imp, or_assoc]
    exact or_left_comm

theorem contains_branches_addClass {c : ClassDef} :
    (addClass p b c).branches.contains method = true ↔
      (∃ m ∈ c.concreteMethods, m.text = method ∧ ∃ body, p.body m = .ok body) ∨
        b.branches.contains method = true :=
  contains_branches_addMethods

theorem RecordsJumps.takeIn (h : b.RecordsJumps p) (hp : p.Assembled) {c : ClassDef}
    (hc : c ∈ p.loadedClasses) : (Build.takeIn f p b c).RecordsJumps p := by
  intro method
  unfold Build.takeIn
  split
  · rw [contains_branches_addClass, h method]
    simp only [isProcessed, decide_eq_true_eq, processed_addClass, List.mem_append,
      List.mem_singleton]
    constructor
    · rintro (hm | ⟨d, hd, hprocessed, hm⟩)
      · exact ⟨c, hc, .inr rfl, hm⟩
      · exact ⟨d, hd, .inl hprocessed, hm⟩
    · rintro ⟨d, hd, hprocessed | hname, hm⟩
      · exact .inr ⟨d, hd, hprocessed, hm⟩
      · -- no two classes of a program have the same name
        have hclass := (hp.mem_loadedClasses.1 hd).1
        rw [hname, (hp.mem_loadedClasses.1 hc).1] at hclass
        cases hclass
        exact .inl hm
  · exact h method

end Build

namespace Program

variable {p : Program} {b : Build}

theorem Built.recordsJumps (h : p.Built b) (hp : p.Assembled) : b.RecordsJumps p := by
  refine h.invariant (P := (·.RecordsJumps p)) ?_ (fun f b c hc hb => hb.takeIn hp hc)
    fun _ _ hb => hb
  intro method
  simp [Build.empty, Build.isProcessed]

/-- The bodies that a program loads for a method, which is given by its signature or by a text that
is read as one. -/
inductive Loads (p : Program) : String → Body → Prop
  | signature {m : MethodSig} {body : Body} (h : p.body m = .ok body) : Loads p m.text body
  | text {method : String} {body : Body} (h : p.bodyOf method = .ok body) : Loads p method body

theorem Loads.branchesFor_eq {method : String} {body : Body} (h : p.Loads method body)
    (hb : p.Built b) (hsigs : p.DeclaredReadBack) :
    b.branchesFor method body = .ofBody body := by
  cases h with
  | signature h => exact hb.branchesFor_of_bodies (get?_bodies_of_body h)
  | text h => exact hb.branchesFor_of_bodyOf hsigs h

theorem Loads.eq_ofStmts {method : String} {body : Body} (h : p.Loads method body)
    (hp : p.Assembled) : ∃ m stmts, body = Body.ofStmts m stmts := by
  cases h with
  | signature h => exact ⟨_, hp.eq_ofStmts_of_body h⟩
  | text h =>
    obtain ⟨m, -, h⟩ := exists_of_bodyOf h
    exact ⟨_, hp.eq_ofStmts_of_body h⟩

end Program

namespace Build

/-- The jumps that a build gives for a method are those of its body, whether they were recorded or
not. Recorded are those of the methods that the processed classes declare. -/
theorem recorded_jumps_agree_with_bodies (p : Program) (b : Build) (hp : p.Assembled)
    (hsigs : p.DeclaredReadBack) (hb : p.Built b) :
    (∀ method body, p.Loads method body →
      b.branchesFor method body = .ofBody body ∧
        (b.branchesFor method body).AgreesWith body) ∧
    b.RecordsJumps p := by
  refine ⟨fun method body h => ?_, hb.recordsJumps hp⟩
  have hbranches := h.branchesFor_eq hb hsigs
  obtain ⟨m, stmts, rfl⟩ := h.eq_ofStmts hp
  rw [hbranches]
  exact ⟨rfl, Branches.agreesWith_ofBody m stmts⟩

def pollMethod : MethodSig := ⟨"a.B", .void, "poll", []⟩

/-- Two ways back to the head of a loop, and a switch with a way to itself and two ways out. -/
def pollBody : List Stmt :=
  [.branch ⟨.eq, .loc ⟨"i0", .int⟩, .const (.int 0)⟩ 3,
    .switch (.loc ⟨"i0", .int⟩) [(0, 3), (1, 0), (2, 3)] 1,
    .goto 0,
    .retVoid]

def polling : Program :=
  Program.empty.addClass <| .ofMembers "a.B" none false [] [⟨pollMethod, some pollBody⟩]

theorem recorded_jumps_agree_with_bodies_polling :
    polling.Assembled ∧ polling.DeclaredReadBack ∧
    polling.Loads pollMethod.text (.ofStmts pollMethod.text pollBody) ∧
    (polling.Built (ofProgram ⟨[]⟩ polling) ∧
      (ofProgram ⟨[]⟩ polling).branches.contains pollMethod.text = true ∧
      ((ofProgram ⟨[]⟩ polling).branchesFor pollMethod.text
        (.ofStmts pollMethod.text pollBody)).backEdges = [(1, 0), (1, 1), (2, 0)]) ∧
    polling.Built (ofProgram ⟨["a."]⟩ polling) ∧
      (ofProgram ⟨["a."]⟩ polling).branches.contains pollMethod.text = false ∧
      ((ofProgram ⟨["a."]⟩ polling).branchesFor pollMethod.text
        (.ofStmts pollMethod.text pollBody)).forwardJumps = [(0, 3), (1, 3)] := by
  have hp : polling.Assembled := .addClass .empty _
  have hsigs : polling.DeclaredReadBack := by
    intro c hc m hm
    rw [List.mem_singleton.1 hc] at hm
    rw [List.mem_singleton.1 hm]
    change MethodSig.parse pollMethod.text = .ok pollMethod
    decide +kernel
  have hloads : polling.Loads pollMethod.text (.ofStmts pollMethod.text pollBody) :=
    .signature rfl
  have hbuilt (f : ClassFilter) : polling.Built (ofProgram f polling) := .extend .empty f
  have hagrees (f : ClassFilter) :=
    recorded_jumps_agree_with_bodies polling (ofProgram f polling) hp hsigs (hbuilt f)
  refine ⟨hp, hsigs, hloads, ⟨hbuilt _, ?_, ?_⟩, hbuilt _, ?_, ?_⟩
  · decide +kernel
  · rw [((hagrees ⟨[]⟩).1 _ _ hloads).1]
    decide
  · decide +kernel
  · rw [((hagrees ⟨["a."]⟩).1 _ _ hloads).1]
    decide

end Build

end Backslice
