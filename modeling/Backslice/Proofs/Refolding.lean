import Mathlib.Data.List.Forall2
import Backslice.Replay.Folding

/-!
A pass that carries out replacements goes line by line, with a table of the strings that are known.
What a line adds to the table depends on its place only, and the place is not rewritten: a second
pass meets the same tables and finds every line as it would write it.
-/

namespace Backslice.Folding

structure SamePlace (l k : Line) : Prop where
  kind : k.kind = l.kind
  method : k.method = l.method
  number : k.number = l.number
  source : k.source = l.source

section
variable (p : Program) (known : Strings) (l : Line)

def learned : Strings :=
  match stmt? p l with
  | some (.assign (.loc dest) rhs) => learn known (l.method, dest.name) (value? rhs l.method known)
  | _ => known

/-- What the replacement at a line comes to, with the local that gets it. -/
def result? : Option (Local × String) :=
  match stmt? p l with
  | some (.assign (.loc dest) (.call c)) => (replaced? c l.method known).map (dest, ·)
  | _ => none

def resultText (r : Local × String) : String := r.1.name ++ " = " ++ (Constant.str r.2).text

def folded : Line :=
  match result? p known l with
  | some r => { l with text := resultText r, constants? := some [r.2] }
  | none => l

theorem pass_cons (rest : List Line) :
    pass p (l :: rest) known =
      (((result? p known l).any (resultText · ≠ l.text)).toNat +
          (pass p rest (learned p known l)).1,
        folded p known l :: (pass p rest (learned p known l)).2) := by
  rw [pass, folded, result?, learned]
  cases stmt? p l with
  | none => simp
  | some s =>
    cases s with
    | assign lhs rhs =>
      cases lhs with
      | loc dest =>
        cases rhs with
        | call c =>
          simp only [value?]
          cases replaced? c l.method known <;> rfl
        | _ => simp [foldLine]
      | _ => simp
    | _ => simp

theorem foldLines_cons (rest : List Line) :
    foldLines p (l :: rest) known = folded p known l :: foldLines p rest (learned p known l) :=
  congrArg Prod.snd (pass_cons p known l rest)

theorem samePlace_folded : SamePlace l (folded p known l) := by
  unfold folded
  split <;> exact ⟨rfl, rfl, rfl, rfl⟩

variable {l} in
theorem SamePlace.stmt?_eq {k : Line} (h : SamePlace l k) : stmt? p k = stmt? p l := by
  rw [stmt?, stmt?, h.method, h.source]

theorem learned_folded : learned p known (folded p known l) = learned p known l := by
  have hplace := samePlace_folded p known l
  rw [learned, learned, hplace.stmt?_eq, hplace.method]

theorem result?_folded : result? p known (folded p known l) = result? p known l := by
  have hplace := samePlace_folded p known l
  rw [result?, result?, hplace.stmt?_eq, hplace.method]

theorem folded_folded : folded p known (folded p known l) = folded p known l := by
  have hresult := result?_folded p known l
  cases h : result? p known l with
  | none =>
    have hsame : folded p known l = l := by rw [folded, h]
    rw [hsame, hsame]
  | some r =>
    have hnew : folded p known l = { l with text := resultText r, constants? := some [r.2] } := by
      rw [folded, h]
    rw [folded, hresult, h, hnew]

end

variable (p : Program)

theorem samePlace_foldLines (lines : List Line) (known : Strings) :
    List.Forall₂ SamePlace lines (foldLines p lines known) := by
  induction lines generalizing known with
  | nil => exact .nil
  | cons l rest ih =>
    rw [foldLines_cons]
    exact .cons (samePlace_folded p known l) (ih _)

/-- A second pass has the same table at each line as the first. -/
theorem foldLines_foldLines (lines : List Line) (known : Strings) :
    foldLines p (foldLines p lines known) known = foldLines p lines known := by
  induction lines generalizing known with
  | nil => rfl
  | cons l rest ih =>
    rw [foldLines_cons, foldLines_cons, folded_folded, learned_folded, ih]

def changed (before after : List Line) : Nat :=
  (before.zip after).countP fun (a, b) => a.text ≠ b.text

theorem changed_cons (l k : Line) (lines others : List Line) :
    changed (l :: lines) (k :: others) =
      (decide (l.text ≠ k.text)).toNat + changed lines others := by
  rw [changed, List.zip_cons_cons, List.countP_cons, Nat.add_comm]
  by_cases h : l.text = k.text <;> simp [h, changed]

theorem changed_self (lines : List Line) : changed lines lines = 0 := by
  induction lines with
  | nil => rfl
  | cons l rest ih => simp [changed_cons, ih]

theorem text_folded_ne (known : Strings) (l : Line) :
    decide (l.text ≠ (folded p known l).text) =
      (result? p known l).any (resultText · ≠ l.text) := by
  unfold folded
  cases result? p known l with
  | none => simp
  | some r => simp only [Option.any_some, ne_comm]

/-- The lines that a pass counts are those that come out changed. -/
theorem changed_foldLines (lines : List Line) (known : Strings) :
    changed lines (foldLines p lines known) = rewrites p lines known := by
  induction lines generalizing known with
  | nil => rfl
  | cons l rest ih =>
    rw [foldLines_cons, changed_cons, text_folded_ne, ih, rewrites, rewrites, pass_cons]

/-- Whatever a program has and lines say, a pass writes texts and literals only, and as many texts
as come out changed. A second pass finds nothing to write. -/
theorem folding_is_local_and_idempotent (lines : List Line) :
    List.Forall₂ SamePlace lines (fold p lines) ∧
      changed lines (fold p lines) = rewrites p lines [] ∧
      fold p (fold p lines) = fold p lines ∧
      changed (fold p lines) (fold p (fold p lines)) = 0 ∧ rewrites p (fold p lines) [] = 0 := by
  have hagain : fold p (fold p lines) = fold p lines := foldLines_foldLines p lines []
  have hnone : changed (fold p lines) (fold p (fold p lines)) = 0 := by
    rw [hagain, changed_self]
  refine ⟨samePlace_foldLines p lines [], changed_foldLines p lines [], hagain, hnone, ?_⟩
  rw [← changed_foldLines p (fold p lines) []]
  exact hnone

end Backslice.Folding
