import Mathlib.Data.List.DropRight
import Backslice.Code.Signature

namespace Backslice

namespace Text

theorem trimEnd_eq_rdropWhile (cs : List Char) : trimEnd cs = cs.rdropWhile isBlank := rfl

theorem mem_of_mem_trimChars {c : Char} {cs : List Char} (h : c ∈ trimChars cs) : c ∈ cs := by
  rw [trimChars, trimEnd_eq_rdropWhile] at h
  exact (List.dropWhile_sublist isBlank).subset ((List.rdropWhile_prefix isBlank _).subset h)

theorem trimChars_eq_self_iff {cs : List Char} : trimChars cs = cs ↔
    ∀ h : cs ≠ [], isBlank (cs.head h) = false ∧ isBlank (cs.getLast h) = false := by
  constructor
  · intro heq h
    have hdrop : cs.dropWhile isBlank = cs := by
      have hle := length_trimEnd_le (cs.dropWhile isBlank)
      rw [← trimChars, heq] at hle
      exact (List.dropWhile_sublist isBlank).eq_of_length_le hle
    rw [trimChars, hdrop, trimEnd_eq_rdropWhile, List.rdropWhile_eq_self_iff] at heq
    rw [List.dropWhile_eq_self_iff] at hdrop
    refine ⟨?_, by simpa using heq h⟩
    rw [List.head_eq_getElem]
    simpa using hdrop (List.length_pos_of_ne_nil h)
  · intro h
    have hdrop : cs.dropWhile isBlank = cs := by
      rw [List.dropWhile_eq_self_iff]
      intro hpos
      have := (h (List.ne_nil_of_length_pos hpos)).1
      rw [List.head_eq_getElem] at this
      simpa using this
    rw [trimChars, hdrop, trimEnd_eq_rdropWhile, List.rdropWhile_eq_self_iff]
    intro hne
    simp [(h hne).2]

theorem trimChars_trimChars (cs : List Char) : trimChars (trimChars cs) = trimChars cs := by
  rw [trimChars_eq_self_iff]
  intro h
  have hpre : trimChars cs <+: cs.dropWhile isBlank := List.rdropWhile_prefix isBlank _
  have hne : cs.dropWhile isBlank ≠ [] := fun hnil => h (by simpa [hnil] using hpre)
  have hlast := List.rdropWhile_last_not isBlank (cs.dropWhile isBlank) h
  refine ⟨?_, Bool.not_eq_true _ ▸ hlast⟩
  rw [hpre.head h]
  exact List.head_dropWhile_not isBlank hne

theorem trimChars_append {cs ds : List Char} (hcs : trimChars cs = cs) (hne : cs ≠ [])
    (hds : trimChars ds = ds) (hne' : ds ≠ []) : trimChars (cs ++ ds) = cs ++ ds := by
  rw [trimChars_eq_self_iff] at hcs hds ⊢
  intro h
  rw [List.head_append_of_ne_nil hne, List.getLast_append_of_ne_nil _ hne']
  exact ⟨(hcs hne).1, (hds hne').2⟩

theorem trimChars_enclosed {first last : Char} (hfirst : isBlank first = false)
    (hlast : isBlank last = false) (inner : List Char) :
    trimChars (first :: (inner ++ [last])) = first :: (inner ++ [last]) := by
  rw [trimChars_eq_self_iff]
  intro _
  rw [List.head_cons, List.getLast_cons (by simp), List.getLast_concat]
  exact ⟨hfirst, hlast⟩

theorem trim_eq_self_iff {s : String} : trim s = s ↔ trimChars s.toList = s.toList := by
  rw [trim, ← String.toList_inj, String.toList_ofList]

section
variable {p : Char → Bool} {word rest : List Char}

theorem takeWhile_append_of_stop (hword : ∀ c ∈ word, p c = true)
    (hrest : ∀ c ∈ rest.head?, p c = false) : (word ++ rest).takeWhile p = word := by
  have hstop : rest.takeWhile p = [] := by
    cases rest with
    | nil => rfl
    | cons c rest => simp [hrest c rfl]
  rw [List.takeWhile_append_of_pos hword, hstop, List.append_nil]

theorem dropWhile_append_of_stop (hword : ∀ c ∈ word, p c = true)
    (hrest : ∀ c ∈ rest.head?, p c = false) : (word ++ rest).dropWhile p = rest := by
  rw [List.dropWhile_append_of_pos hword]
  cases rest with
  | nil => rfl
  | cons c rest => simp [hrest c rfl]

end

theorem hasInfix_eq_true_iff {needle text : List Char} :
    hasInfix needle text = true ↔ needle <:+: text := by
  induction text with
  | nil => simp [hasInfix]
  | cons c rest ih =>
    rw [hasInfix, Bool.or_eq_true, List.isPrefixOf_iff_prefix, ih, List.infix_cons_iff]

theorem contains_eq_true_iff {text needle : String} :
    contains text needle = true ↔ needle.toList <:+: text.toList :=
  hasInfix_eq_true_iff

theorem splitChars_of_not_mem {sep : Char} {cs : List Char} (h : sep ∉ cs) :
    splitChars sep cs = [cs] := by
  induction cs with
  | nil => rfl
  | cons c cs ih =>
    rw [List.mem_cons, not_or] at h
    rw [splitChars, if_neg (Ne.symm h.1), ih h.2]

theorem splitChars_ne_nil (sep : Char) (cs : List Char) : splitChars sep cs ≠ [] := by
  cases cs with
  | nil => simp [splitChars]
  | cons c cs =>
    rw [splitChars]
    split
    · simp
    · split <;> simp

theorem splitChars_append_sep (sep : Char) (cs ds : List Char) :
    splitChars sep (cs ++ sep :: ds) = splitChars sep cs ++ splitChars sep ds := by
  induction cs with
  | nil => simp [splitChars]
  | cons c cs ih =>
    by_cases hc : c = sep
    · simp [splitChars, hc, ih]
    · obtain ⟨piece, pieces, hpieces⟩ := List.exists_cons_of_ne_nil (splitChars_ne_nil sep cs)
      simp [splitChars, hc, ih, hpieces]

theorem splitChars_append {sep : Char} {cs : List Char} (rest : List Char) (h : sep ∉ cs) :
    splitChars sep (cs ++ sep :: rest) = cs :: splitChars sep rest := by
  rw [splitChars_append_sep, splitChars_of_not_mem h, List.singleton_append]

theorem splitChars_intercalate {sep : Char} {pieces : List (List Char)} (hne : pieces ≠ [])
    (h : ∀ piece ∈ pieces, sep ∉ piece) : splitChars sep ([sep].intercalate pieces) = pieces := by
  induction pieces with
  | nil => exact absurd rfl hne
  | cons piece pieces ih =>
    cases pieces with
    | nil => simpa using splitChars_of_not_mem (h piece (by simp))
    | cons next pieces =>
      rw [List.intercalate_cons_cons, List.append_assoc, List.singleton_append,
        splitChars_append _ (h piece (by simp)), ih (by simp) fun p hp => h p (by simp [hp])]

theorem mem_intercalate {sep c : Char} {pieces : List (List Char)}
    (h : c ∈ [sep].intercalate pieces) : c = sep ∨ ∃ piece ∈ pieces, c ∈ piece := by
  induction pieces with
  | nil => cases h
  | cons piece pieces ih =>
    cases pieces with
    | nil => exact .inr ⟨piece, by simp, by simpa using h⟩
    | cons next pieces =>
      rw [List.intercalate_cons_cons, List.mem_append, List.mem_append, List.mem_singleton] at h
      rcases h with (h | h) | h
      · exact .inr ⟨piece, by simp, h⟩
      · exact .inl h
      · exact (ih h).imp_right fun ⟨p, hp, hc⟩ => ⟨p, List.mem_cons_of_mem _ hp, hc⟩

/-- The pieces hold characters of the text, and no separator. -/
theorem mem_of_mem_splitChars {sep c : Char} {cs piece : List Char}
    (hpiece : piece ∈ splitChars sep cs) (hc : c ∈ piece) : c ∈ cs ∧ c ≠ sep := by
  induction cs generalizing piece with
  | nil => simp [splitChars] at hpiece; simp [hpiece] at hc
  | cons d cs ih =>
    rw [splitChars] at hpiece
    split at hpiece
    · rcases List.mem_cons.1 hpiece with rfl | hpiece
      · cases hc
      · exact ⟨List.mem_cons_of_mem _ (ih hpiece hc).1, (ih hpiece hc).2⟩
    · rename_i hd
      split at hpiece
      · rw [List.mem_singleton.1 hpiece, List.mem_singleton] at hc
        exact ⟨by simp [hc], hc ▸ hd⟩
      · rename_i first rest hsplit
        rcases List.mem_cons.1 hpiece with rfl | hpiece
        · rcases List.mem_cons.1 hc with rfl | hc
          · exact ⟨by simp, hd⟩
          · have := ih (hsplit ▸ List.mem_cons_self) hc
            exact ⟨List.mem_cons_of_mem _ this.1, this.2⟩
        · have := ih (hsplit ▸ List.mem_cons_of_mem _ hpiece) hc
          exact ⟨List.mem_cons_of_mem _ this.1, this.2⟩

end Text

namespace Ty

def refName? : Ty → Option String
  | .ref name => some name
  | .array elem => elem.refName?
  | _ => none

def IsCanonical (t : Ty) : Prop :=
  ∀ name ∈ t.refName?, Text.trimChars name.toList = name.toList ∧ keywords.lookup name = none ∧
    stripBrackets? name.toList = none

theorem stripBrackets?_append (cs : List Char) : stripBrackets? (cs ++ ['[', ']']) = some cs := by
  simp [stripBrackets?]

theorem eq_of_stripBrackets? {cs rest : List Char} (h : stripBrackets? cs = some rest) :
    cs = rest ++ ['[', ']'] := by
  unfold stripBrackets? at h
  split at h
  · rename_i rev heq
    cases h
    rw [← List.reverse_reverse cs, heq]
    simp
  · cases h

theorem ofChars_of_brackets {cs elem : List Char}
    (h : stripBrackets? (Text.trimChars cs) = some elem) : ofChars cs = .array (ofChars elem) := by
  rw [ofChars]
  split
  · rename_i heq
    rw [h] at heq
    cases heq
    rfl
  · rename_i heq
    rw [h] at heq
    cases heq

theorem ofChars_of_no_brackets {cs : List Char} (h : stripBrackets? (Text.trimChars cs) = none) :
    ofChars cs = named (String.ofList (Text.trimChars cs)) := by
  rw [ofChars]
  split
  · rename_i heq
    rw [h] at heq
    cases heq
  · rfl

theorem mem_keywords_of_lookup {name : String} {t : Ty} (h : keywords.lookup name = some t) :
    (name, t) ∈ keywords := by
  obtain ⟨before, after, heq, -⟩ := List.lookup_eq_some_iff.1 h
  simp [heq]

theorem refName?_of_mem_keywords : ∀ k ∈ keywords, k.2.refName? = none := by decide

theorem text_of_mem_keywords : ∀ k ∈ keywords, k.2.text = k.1 ∨ k.2.text = "unknown" := by decide

theorem isCanonical_named {cs : List Char} (htrim : Text.trimChars cs = cs)
    (hstrip : stripBrackets? cs = none) : (named (String.ofList cs)).IsCanonical := by
  intro name hname
  unfold named at hname
  cases hl : keywords.lookup (String.ofList cs) with
  | none =>
    rw [hl] at hname
    cases hname
    exact ⟨by simpa using htrim, hl, by simpa using hstrip⟩
  | some t =>
    rw [hl, Option.getD_some, refName?_of_mem_keywords _ (mem_keywords_of_lookup hl)] at hname
    cases hname

theorem isCanonical_ofChars (cs : List Char) : (ofChars cs).IsCanonical := by
  fun_induction ofChars cs with
  | case1 cs elem h ih => exact ih
  | case2 cs h => exact isCanonical_named (Text.trimChars_trimChars cs) h

theorem mem_text_named {c : Char} {cs : List Char}
    (h : c ∈ (named (String.ofList cs)).text.toList) : c ∈ cs ∨ c ∈ "unknown".toList := by
  unfold named at h
  cases hl : keywords.lookup (String.ofList cs) with
  | none =>
    rw [hl] at h
    exact .inl (by simpa [text] using h)
  | some t =>
    rw [hl, Option.getD_some] at h
    rcases text_of_mem_keywords _ (mem_keywords_of_lookup hl) with ht | ht
    · rw [ht] at h
      exact .inl (by simpa using h)
    · rw [ht] at h
      exact .inr h

/-- A type that is read brings no new characters but those that stand for a missing name. -/
theorem mem_text_ofChars {c : Char} {cs : List Char} (h : c ∈ (ofChars cs).text.toList) :
    c ∈ cs ∨ c ∈ "unknown".toList := by
  fun_induction ofChars cs with
  | case1 cs elem hstrip ih =>
    have hsub : ∀ d ∈ elem ++ ['[', ']'], d ∈ cs := fun d hd =>
      Text.mem_of_mem_trimChars (eq_of_stripBrackets? hstrip ▸ hd)
    rw [text, String.toList_append, List.mem_append] at h
    rcases h with h | h
    · exact (ih h).imp_left fun hc => hsub c (List.mem_append_left _ hc)
    · exact .inl (hsub c (List.mem_append_right _ h))
  | case2 cs hstrip => exact (mem_text_named h).imp_left Text.mem_of_mem_trimChars

theorem trimChars_text {t : Ty} (h : t.IsCanonical) :
    Text.trimChars t.text.toList = t.text.toList ∧ t.text.toList ≠ [] := by
  induction t with
  | ref name =>
    obtain ⟨htrim, hlookup, -⟩ := h name rfl
    refine ⟨htrim, fun hnil => ?_⟩
    rw [text, String.toList_eq_nil_iff] at hnil
    rw [hnil] at hlookup
    cases hlookup
  | array elem ih =>
    obtain ⟨htrim, hne⟩ := ih h
    rw [text, String.toList_append]
    exact ⟨Text.trimChars_append htrim hne (by decide) (by decide), by simp [hne]⟩
  | _ => exact ⟨by decide, by decide⟩

theorem ofChars_text {t : Ty} (h : t.IsCanonical) : ofChars t.text.toList = t := by
  induction t with
  | ref name =>
    obtain ⟨htrim, hlookup, hstrip⟩ := h name rfl
    rw [text, ofChars_of_no_brackets (by rwa [htrim]), htrim, String.ofList_toList, named, hlookup]
    rfl
  | array elem ih =>
    have hstrip : stripBrackets? (Text.trimChars (text (.array elem)).toList) =
        some elem.text.toList := by
      rw [(trimChars_text (t := .array elem) h).1, text, String.toList_append]
      exact stripBrackets?_append _
    rw [ofChars_of_brackets hstrip, ih h]
  | _ => exact (ofChars_of_no_brackets (by decide)).trans (by decide)

end Ty

namespace Signature

theorem run?_append {p : Char → Bool} {word rest : List Char} {c : Char} (hne : word ≠ [])
    (hword : ∀ d ∈ word, p d = true) (hc : p c = false) :
    run? p (word ++ c :: rest) = some (word, c :: rest) := by
  have hstop : ∀ d ∈ (c :: rest).head?, p d = false := by
    rintro _ ⟨⟩
    exact hc
  unfold run?
  rw [Text.takeWhile_append_of_stop hword hstop, Text.dropWhile_append_of_stop hword hstop]
  cases word with
  | nil => exact absurd rfl hne
  | cons d word => rfl

theorem of_run? {p : Char → Bool} {cs word rest : List Char}
    (h : run? p cs = some (word, rest)) : word ≠ [] ∧ ∀ c ∈ word, p c = true := by
  unfold run? at h
  split at h
  · cases h
  · rename_i hne
    cases h
    exact ⟨hne, fun c hc => List.mem_takeWhile_imp hc⟩

theorem expect?_append (word rest : List Char) : expect? word (word ++ rest) = some rest := by
  induction word with
  | nil => rfl
  | cons c word ih => simpa [expect?] using ih

theorem head?_append {cls ty rest : List Char} (hcls : cls ≠ [])
    (hcls' : ∀ c ∈ cls, isClassChar c = true) (hty : ty ≠ [])
    (hty' : ∀ c ∈ ty, isTypeChar c = true) :
    head? (['<'] ++ (cls ++ ':' :: ([' '] ++ (ty ++ ' ' :: rest)))) = some (cls, ty, rest) := by
  have hread₁ := expect?_append [':', ' '] (ty ++ ' ' :: rest)
  have hread₂ := expect?_append [' '] rest
  rw [head?, expect?_append]
  simp only [Option.bind_eq_bind, Option.bind_some, List.cons_append, List.nil_append,
    run?_append (c := ':') hcls hcls' (by decide)] at hread₁ hread₂ ⊢
  rw [hread₁, Option.bind_some, run?_append (c := ' ') hty hty' (by decide), Option.bind_some,
    hread₂]
  rfl

theorem of_head? {cs cls ty rest : List Char} (h : head? cs = some (cls, ty, rest)) :
    (cls ≠ [] ∧ ∀ c ∈ cls, isClassChar c = true) ∧ ∀ c ∈ ty, isTypeChar c = true := by
  simp only [head?, Option.bind_eq_bind, Option.bind_eq_some_iff, Option.pure_def, Prod.exists,
    Option.some.injEq, Prod.mk.injEq] at h
  obtain ⟨_, -, _, _, hcls, _, -, _, _, hty, _, -, rfl, rfl, -⟩ := h
  exact ⟨of_run? hcls, (of_run? hty).2⟩

end Signature

namespace MethodSig

open Signature

structure IsCanonical (m : MethodSig) : Prop where
  cls_ne : m.cls.toList ≠ []
  cls : ∀ c ∈ m.cls.toList, Signature.isClassChar c = true
  ret : m.ret.IsCanonical
  ret_text : ∀ c ∈ m.ret.text.toList, Signature.isTypeChar c = true
  name_ne : m.name.toList ≠ []
  name : ∀ c ∈ m.name.toList, Signature.isMethodNameChar c = true
  params : ∀ t ∈ m.params, t.IsCanonical ∧ ∀ c ∈ t.text.toList, c ≠ ',' ∧ c ≠ ')'

def paramText (m : MethodSig) : List Char :=
  [','].intercalate (m.params.map fun t => t.text.toList)

theorem toList_text (m : MethodSig) : m.text.toList =
    ['<'] ++ (m.cls.toList ++ ':' :: ([' '] ++ (m.ret.text.toList ++ ' ' ::
      (m.name.toList ++ '(' :: (m.paramText ++ [')', '>']))))) := by
  simp [text, subSignature, paramText, String.toList_intercalate, Function.comp_def]

theorem paramsOf_paramText {m : MethodSig} (h : m.IsCanonical) :
    paramsOf m.paramText = m.params := by
  by_cases hnil : m.params = []
  · -- no parameters leave one empty piece, which is no parameter either
    rw [paramText, hnil]
    rfl
  · have hsplit : Text.splitChars ',' m.paramText = m.params.map fun t => t.text.toList := by
      refine Text.splitChars_intercalate (by simpa using hnil) fun piece hpiece hcomma => ?_
      obtain ⟨t, ht, rfl⟩ := List.mem_map.1 hpiece
      exact ((h.params t ht).2 _ hcomma).1 rfl
    have htrim : (m.params.map fun t => t.text.toList).map Text.trimChars =
        m.params.map fun t => t.text.toList := by
      rw [List.map_map]
      exact List.map_congr_left fun t ht => (Ty.trimChars_text (h.params t ht).1).1
    have hfilter : (m.params.map fun t => t.text.toList).filter (!·.isEmpty) =
        m.params.map fun t => t.text.toList := by
      rw [List.filter_eq_self]
      intro piece hpiece
      obtain ⟨t, ht, rfl⟩ := List.mem_map.1 hpiece
      simpa using (Ty.trimChars_text (h.params t ht).1).2
    rw [paramsOf, hsplit, htrim, hfilter, List.map_map]
    exact (List.map_congr_left fun t ht => Ty.ofChars_text (h.params t ht).1).trans (List.map_id _)

theorem ne_of_mem_paramText {m : MethodSig} (h : m.IsCanonical) {c : Char}
    (hc : c ∈ m.paramText) : c ≠ ')' := by
  rcases Text.mem_intercalate hc with rfl | ⟨piece, hpiece, hc⟩
  · decide
  · obtain ⟨t, ht, rfl⟩ := List.mem_map.1 hpiece
    exact ((h.params t ht).2 c hc).2

theorem trimChars_toList_text (m : MethodSig) :
    Text.trimChars m.text.toList = m.text.toList := by
  have henclosed : m.text.toList = '<' :: ((m.cls ++ ": " ++ m.subSignature).toList ++ ['>']) := by
    simp [text]
  rw [henclosed, Text.trimChars_enclosed (by decide) (by decide)]

theorem parse_text {m : MethodSig} (h : m.IsCanonical) : parse m.text = .ok m := by
  have hread : ofChars? m.text.toList = some m := by
    rw [toList_text, ofChars?, head?_append h.cls_ne h.cls (Ty.trimChars_text h.ret).2 h.ret_text]
    have hparams : ∀ c ∈ m.paramText, decide (c ≠ ')') = true := fun c hc =>
      decide_eq_true (ne_of_mem_paramText h hc)
    have hopen := expect?_append ['('] (m.paramText ++ [')', '>'])
    simp only [Option.bind_eq_bind, Option.bind_some, List.cons_append, List.nil_append,
      run?_append (c := '(') h.name_ne h.name (by decide)] at hopen ⊢
    rw [hopen, Option.bind_some, List.takeWhile_append_of_pos hparams,
      List.dropWhile_append_of_pos hparams]
    simp [paramsOf_paramText h, Ty.ofChars_text h.ret]
  rw [parse, trimChars_toList_text, hread]

theorem of_mem_paramsOf {cs : List Char} {t : Ty} (h : t ∈ paramsOf cs)
    (hcs : ∀ c ∈ cs, c ≠ ')') : t.IsCanonical ∧ ∀ c ∈ t.text.toList, c ≠ ',' ∧ c ≠ ')' := by
  obtain ⟨word, hword, rfl⟩ := List.mem_map.1 h
  obtain ⟨piece, hpiece, rfl⟩ := List.mem_map.1 (List.mem_filter.1 hword).1
  refine ⟨Ty.isCanonical_ofChars _, fun c hc => ?_⟩
  rcases Ty.mem_text_ofChars hc with hc | hc
  · obtain ⟨hmem, hcomma⟩ := Text.mem_of_mem_splitChars hpiece (Text.mem_of_mem_trimChars hc)
    exact ⟨hcomma, hcs c hmem⟩
  · have hletters : "unknown".toList.all (fun c => c ≠ ',' ∧ c ≠ ')') = true := by decide
    simpa using List.all_eq_true.1 hletters c hc

theorem isCanonical_of_parse {s : String} {m : MethodSig} (h : parse s = .ok m) :
    m.IsCanonical := by
  unfold parse at h
  split at h
  · rename_i m' hread
    cases h
    simp only [ofChars?, Option.bind_eq_bind, Option.bind_eq_some_iff, Option.pure_def,
      Prod.exists] at hread
    obtain ⟨cls, ty, _, hhead, name, _, hname, cs, -, hread⟩ := hread
    split at hread
    · cases hread
      obtain ⟨hcls, hty⟩ := of_head? hhead
      obtain ⟨hne, hname⟩ := of_run? hname
      have hletters : "unknown".toList.all isTypeChar = true := by decide
      exact {
        cls_ne := by simpa using hcls.1
        cls := by simpa using hcls.2
        ret := Ty.isCanonical_ofChars ty
        ret_text := fun c hc =>
          (Ty.mem_text_ofChars hc).elim (hty c) (List.all_eq_true.1 hletters c)
        name_ne := by simpa using hne
        name := by simpa using hname
        params := fun t ht => of_mem_paramsOf ht fun c hc => by
          simpa using List.mem_takeWhile_imp hc }
    · cases hread
  · cases h

/-- What is read once is read the same from its own text. -/
theorem parse_text_of_parse {s : String} {m : MethodSig} (h : parse s = .ok m) :
    parse m.text = .ok m :=
  parse_text (isCanonical_of_parse h)

end MethodSig

end Backslice
