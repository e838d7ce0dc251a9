import Backslice.Analysis.Reach
import Backslice.Proofs.SignatureText

namespace Backslice

namespace Text

variable {sep : Char} {a b x y : List Char}

/-- A text is split at its first separator in one way. -/
theorem append_sep_inj (ha : sep ∉ a) (hb : sep ∉ b) (h : a ++ sep :: x = b ++ sep :: y) :
    a = b ∧ x = y := by
  induction a generalizing b with
  | nil =>
    cases b with
    | nil => exact ⟨rfl, (List.cons.inj h).2⟩
    | cons c b =>
      have hc : sep = c := (List.cons.inj h).1
      exact absurd (hc ▸ List.mem_cons_self) hb
  | cons c a ih =>
    cases b with
    | nil =>
      have hc : c = sep := (List.cons.inj h).1
      exact absurd (hc ▸ List.mem_cons_self) ha
    | cons d b =>
      obtain ⟨hcd, hrest⟩ := List.cons.inj h
      rw [List.mem_cons, not_or] at ha hb
      obtain ⟨hab, hxy⟩ := ih ha.2 hb.2 hrest
      exact ⟨by rw [hcd, hab], hxy⟩

/-- A text is split at its last separator in one way. -/
theorem append_sep_inj_of_last (hx : sep ∉ x) (hy : sep ∉ y) (h : a ++ sep :: x = b ++ sep :: y) :
    a = b ∧ x = y := by
  have hrev : x.reverse ++ sep :: a.reverse = y.reverse ++ sep :: b.reverse := by
    simpa using congrArg List.reverse h
  obtain ⟨hxy, hab⟩ :=
    append_sep_inj (by rwa [List.mem_reverse]) (by rwa [List.mem_reverse]) hrev
  exact ⟨List.reverse_injective hab, List.reverse_injective hxy⟩

/-- Pieces that are not empty are read back from between their separators, also if there is none. -/
theorem filter_splitChars_intercalate {pieces : List (List Char)}
    (h : ∀ piece ∈ pieces, piece ≠ [] ∧ sep ∉ piece) :
    (splitChars sep ([sep].intercalate pieces)).filter (!·.isEmpty) = pieces := by
  cases pieces with
  | nil => rfl
  | cons piece pieces =>
    rw [splitChars_intercalate (List.cons_ne_nil _ _) fun p hp => (h p hp).2, List.filter_eq_self]
    intro p hp
    simpa using (h p hp).1

end Text

namespace Criterion

variable {a b c : Criterion}

def identity (c : Criterion) : String := identityText c.caller c.target c.index c.live.keys

/-- Whether the parts of the identifying text can be told apart. The target may be any text. -/
structure Separable (c : Criterion) : Prop where
  caller : '|' ∉ c.caller.toList
  live : ∀ id ∈ c.live.keys, id ≠ "" ∧ ',' ∉ id.toList ∧ '|' ∉ id.toList

def liveText (c : Criterion) : List Char := [','].intercalate (c.live.keys.map String.toList)

theorem ofList_keys (t : LiveSet) : Ascending.ofList Ascending.textLt t.keys = t.keys := by
  refine Ascending.eq_of_pairwise Ascending.strictOrder_textLt
    (Ascending.pairwise_ofList Ascending.strictOrder_textLt _) ?_ fun _ => Ascending.mem_ofList
  refine List.pairwise_map.2 (t.sorted.imp fun hlt => ?_)
  simpa [Ascending.textLt] using hlt

theorem toList_identity (c : Criterion) :
    c.identity.toList = c.caller.toList ++ '|' :: ((c.target.toList ++ '|' ::
      Nat.toDigits 10 c.index) ++ '|' :: c.liveText) := by
  simp [identity, identityText, ofList_keys, liveText, String.toList_intercalate]

theorem bar_not_mem_toDigits (n : Nat) : '|' ∉ Nat.toDigits 10 n := by
  intro h
  have hdigit := Nat.isDigit_of_mem_toDigits (by decide) (by decide) h
  exact absurd hdigit (by decide)

namespace Separable

theorem bar_not_mem_liveText (h : c.Separable) : '|' ∉ c.liveText := by
  intro hbar
  rcases Text.mem_intercalate hbar with heq | ⟨piece, hpiece, hmem⟩
  · exact absurd heq (by decide)
  · obtain ⟨id, hid, rfl⟩ := List.mem_map.1 hpiece
    exact (h.live id hid).2.2 hmem

theorem filter_splitChars_liveText (h : c.Separable) :
    (Text.splitChars ',' c.liveText).filter (!·.isEmpty) = c.live.keys.map String.toList := by
  refine Text.filter_splitChars_intercalate fun piece hpiece => ?_
  obtain ⟨id, hid, rfl⟩ := List.mem_map.1 hpiece
  exact ⟨fun hnil => (h.live id hid).1 (String.toList_eq_nil_iff.1 hnil), (h.live id hid).2.1⟩

/-- The bars that the target may have lie between the first bar of the text and the last two. -/
theorem parts_eq (ha : a.Separable) (hb : b.Separable) (h : a.identity = b.identity) :
    a.caller = b.caller ∧ a.target = b.target ∧ a.index = b.index ∧ a.live.keys = b.live.keys := by
  have htext := congrArg String.toList h
  rw [toList_identity, toList_identity] at htext
  obtain ⟨hcaller, hrest⟩ := Text.append_sep_inj ha.caller hb.caller htext
  obtain ⟨hplace, hlive⟩ :=
    Text.append_sep_inj_of_last ha.bar_not_mem_liveText hb.bar_not_mem_liveText hrest
  obtain ⟨htarget, hindex⟩ :=
    Text.append_sep_inj_of_last (bar_not_mem_toDigits _) (bar_not_mem_toDigits _) hplace
  have hkeys : a.live.keys.map String.toList = b.live.keys.map String.toList := by
    rw [← ha.filter_splitChars_liveText, hlive, hb.filter_splitChars_liveText]
  refine ⟨String.toList_inj.1 hcaller, String.toList_inj.1 htarget, ?_,
    List.map_injective_iff.2 (fun _ _ => String.toList_inj.1) hkeys⟩
  calc
    a.index = Nat.ofDigitChars 10 (Nat.toDigits 10 a.index) 0 :=
      Nat.ofDigitChars_ten_toDigits.symm
    _ = Nat.ofDigitChars 10 (Nat.toDigits 10 b.index) 0 := by rw [hindex]
    _ = b.index := Nat.ofDigitChars_ten_toDigits

end Separable

theorem same_eq_true_iff : a.same b = true ↔
    a.caller = b.caller ∧ a.target = b.target ∧ a.index = b.index ∧
      a.live.keys = b.live.keys := by
  simp [same, and_assoc]

theorem identity_eq_iff (ha : a.Separable) (hb : b.Separable) :
    a.identity = b.identity ↔ a.same b = true := by
  rw [same_eq_true_iff]
  refine ⟨ha.parts_eq hb, ?_⟩
  rintro ⟨hcaller, htarget, hindex, hlive⟩
  rw [identity, identity, hcaller, htarget, hindex, hlive]

def Collide (a b : Criterion) : Prop := a.identity ≠ b.identity ∧ a.id = b.id

/-- The text that identifies a criterion says no more and no less than what makes two criteria the
same: order and repetition of the live ids leave it as it is, and it can be split into its parts
again, whatever stands in the target. So ids tell criteria apart as far as the digest tells texts
apart. -/
theorem identity_tells_criteria_apart (a b : Criterion) (ha : a.Separable) (hb : b.Separable) :
    (∀ (caller target : String) (index : Nat) (live live' : List String),
      live ⊆ live' → live' ⊆ live →
        identityText caller target index live = identityText caller target index live') ∧
    (a.identity = b.identity ↔ a.same b = true) ∧
    (¬ Collide a b → (a.id = b.id ↔ a.same b = true)) := by
  have hiff := identity_eq_iff ha hb
  refine ⟨?_, hiff, ?_⟩
  · intro caller target index live live' hsub hsub'
    exact identityText_congr fun x => ⟨fun hx => hsub hx, fun hx => hsub' hx⟩
  · intro hfree
    rw [← hiff]
    constructor
    · intro hid
      by_contra hne
      exact hfree ⟨hne, hid⟩
    · intro htext
      exact congrArg (fun text => String.ofList ((Digest.sha256 text).take 32)) htext

def calledWith (target : String) (index : Nat) : Criterion where
  caller := "<a.B: void m()>"
  target := target
  kind := .invocation
  index := index
  live := Table.empty.insert "r1" (target ++ "#0")

theorem separable_calledWith (target : String) (index : Nat) :
    (calledWith target index).Separable where
  caller := (by decide : '|' ∉ "<a.B: void m()>".toList)
  live := by
    intro id hid
    have hid : id ∈ ["r1"] := hid
    rw [List.mem_singleton] at hid
    subst hid
    decide

/-- A bar in the target does not pass for the one before the index. -/
theorem identity_tells_criteria_apart_barredTarget :
    let a := calledWith "use|1" 1
    let b := calledWith "use" 11
    a.Separable ∧ b.Separable ∧ a.identity ≠ b.identity ∧ (¬ Collide a b → a.id ≠ b.id) := by
  intro a b
  have ha : a.Separable := separable_calledWith _ _
  have hb : b.Separable := separable_calledWith _ _
  have hother : ¬ a.same b = true := by decide
  obtain ⟨-, htexts, hids⟩ := identity_tells_criteria_apart a b ha hb
  exact ⟨ha, hb, fun h => hother (htexts.1 h), fun hfree h => hother ((hids hfree).1 h)⟩

end Criterion

end Backslice
