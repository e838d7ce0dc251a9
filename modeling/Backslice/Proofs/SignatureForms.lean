import Backslice.Proofs.SignatureText

namespace Backslice

namespace Ty

def reserved : List String :=
  ["boolean", "byte", "char", "short", "int", "long", "float", "double", "void", "null_type",
   "unknown"]

structure IsClassName (name : String) : Prop where
  ne : name ≠ ""
  trimmed : Text.trim name = name
  free : name ∉ reserved
  scalar : ¬['[', ']'] <:+ name.toList

theorem lookup_keywords_eq_none_iff {name : String} :
    keywords.lookup name = none ↔ name ≠ "" ∧ name ∉ reserved := by
  have hwords : (keywords.map Prod.fst).Perm ("" :: reserved) := by decide
  have hmem : keywords.lookup name = none ↔ name ∉ keywords.map Prod.fst := by
    simp only [List.lookup_eq_none_iff, List.mem_map, bne_iff_ne, not_exists, not_and]
    exact forall₂_congr fun _ _ => ne_comm
  rw [hmem, hwords.mem_iff, List.mem_cons, not_or]

theorem stripBrackets?_eq_none_iff {cs : List Char} :
    stripBrackets? cs = none ↔ ¬['[', ']'] <:+ cs := by
  constructor
  · rintro h ⟨rest, rfl⟩
    rw [stripBrackets?_append] at h
    cases h
  · intro h
    rw [Option.eq_none_iff_forall_ne_some]
    intro rest hrest
    exact h ⟨rest, (eq_of_stripBrackets? hrest).symm⟩

theorem isCanonical_iff {t : Ty} : t.IsCanonical ↔ ∀ name ∈ t.refName?, IsClassName name := by
  refine forall₂_congr fun name _ => ?_
  rw [← Text.trim_eq_self_iff, lookup_keywords_eq_none_iff, stripBrackets?_eq_none_iff]
  exact ⟨fun ⟨ht, ⟨hne, hfree⟩, hs⟩ => ⟨hne, ht, hfree, hs⟩,
    fun h => ⟨h.trimmed, ⟨h.ne, h.free⟩, h.scalar⟩⟩

end Ty

namespace Signature

def IsWord (avoided : List Char) (s : String) : Prop :=
  s ≠ "" ∧ ∀ c ∈ s.toList, c ∉ avoided ∧ Text.isBlank c = false

theorem isWord_iff {p : Char → Bool} {avoided : List Char}
    (hp : ∀ c, p c = true ↔ c ∉ avoided ∧ Text.isBlank c = false) {s : String} :
    IsWord avoided s ↔ s.toList ≠ [] ∧ ∀ c ∈ s.toList, p c = true := by
  simp only [IsWord, hp, ne_eq, String.toList_eq_nil_iff]

theorem isWord_cls {s : String} :
    IsWord [':', '<', '>'] s ↔ s.toList ≠ [] ∧ ∀ c ∈ s.toList, isClassChar c = true :=
  isWord_iff fun c => by simp [isClassChar, and_assoc]

theorem isWord_methodName {s : String} :
    IsWord ['('] s ↔ s.toList ≠ [] ∧ ∀ c ∈ s.toList, isMethodNameChar c = true :=
  isWord_iff fun c => by simp [isMethodNameChar]

theorem isWord_fieldName {s : String} :
    IsWord ['(', ')', '<', '>'] s ↔ s.toList ≠ [] ∧ ∀ c ∈ s.toList, isFieldNameChar c = true :=
  isWord_iff fun c => by simp [isFieldNameChar, and_assoc]

theorem isTypeChar_iff {c : Char} : isTypeChar c = true ↔ Text.isBlank c = false := by
  simp [isTypeChar]

theorem eq_append_of_run? {p : Char → Bool} {cs word rest : List Char}
    (h : run? p cs = some (word, rest)) : cs = word ++ rest := by
  unfold run? at h
  split at h
  · cases h
  · cases h
    exact List.takeWhile_append_dropWhile.symm

theorem eq_append_of_expect? {word cs rest : List Char} (h : expect? word cs = some rest) :
    cs = word ++ rest := by
  fun_induction expect? word cs with
  | case1 => simpa using h
  | case2 => cases h
  | case3 w ws cs ih => rw [ih h, List.cons_append]
  | case4 => cases h

end Signature

namespace MethodSig

open Signature

/-- Whether each part of a method's signature has a form that sets it off from the next. -/
structure WellFormed (m : MethodSig) : Prop where
  cls : IsWord [':', '<', '>'] m.cls
  name : IsWord ['('] m.name
  types : ∀ t ∈ m.ret :: m.params, ∀ name ∈ t.refName?, Ty.IsClassName name
  ret_text : ∀ c ∈ m.ret.text.toList, Text.isBlank c = false
  param_text : ∀ t ∈ m.params, ∀ c ∈ t.text.toList, c ≠ ',' ∧ c ≠ ')'

theorem isCanonical_iff_wellFormed {m : MethodSig} : m.IsCanonical ↔ m.WellFormed := by
  constructor
  · intro h
    refine ⟨isWord_cls.2 ⟨h.cls_ne, h.cls⟩, isWord_methodName.2 ⟨h.name_ne, h.name⟩, ?_,
      fun c hc => isTypeChar_iff.1 (h.ret_text c hc), fun t ht => (h.params t ht).2⟩
    intro t ht
    rcases List.mem_cons.1 ht with rfl | ht
    · exact Ty.isCanonical_iff.1 h.ret
    · exact Ty.isCanonical_iff.1 (h.params t ht).1
  · intro h
    have hcls := isWord_cls.1 h.cls
    have hname := isWord_methodName.1 h.name
    exact {
      cls_ne := hcls.1
      cls := hcls.2
      ret := Ty.isCanonical_iff.2 (h.types m.ret List.mem_cons_self)
      ret_text := fun c hc => isTypeChar_iff.2 (h.ret_text c hc)
      name_ne := hname.1
      name := hname.2
      params := fun t ht =>
        ⟨Ty.isCanonical_iff.2 (h.types t (List.mem_cons_of_mem _ ht)), h.param_text t ht⟩ }

/-- A method's signature is read back from its own text if and only if its parts are well formed,
and these are all the signatures that are read from any text. -/
theorem reads_back_iff_wellFormed (m : MethodSig) :
    (parse m.text = .ok m ↔ m.WellFormed) ∧ ((∃ s, parse s = .ok m) ↔ m.WellFormed) := by
  rw [← isCanonical_iff_wellFormed]
  have himage : (∃ s, parse s = .ok m) ↔ m.IsCanonical :=
    ⟨fun ⟨_, h⟩ => isCanonical_of_parse h, fun h => ⟨m.text, parse_text h⟩⟩
  exact ⟨⟨isCanonical_of_parse, parse_text⟩, himage⟩

theorem eq_of_parse_error {s : String} {e : SliceError} (h : parse s = .error e) :
    e = .invalidSignature s := by
  unfold parse at h
  split at h
  · cases h
  · cases h
    rfl

/-- After the class and the type, a method's text goes on to a parenthesis. -/
theorem exists_head?_of_parse {s : String} {m : MethodSig} (h : parse s = .ok m) :
    ∃ cls ty rest, head? (Text.trimChars s.toList) = some (cls, ty, rest) ∧ '(' ∈ rest := by
  unfold parse at h
  split at h
  · rename_i m' hread
    simp only [ofChars?, Option.bind_eq_bind, Option.bind_eq_some_iff, Prod.exists] at hread
    obtain ⟨cls, ty, rest, hhead, name, rest', hname, cs, hopen, -⟩ := hread
    refine ⟨cls, ty, rest, hhead, ?_⟩
    rw [eq_append_of_run? hname, eq_append_of_expect? hopen]
    simp
  · cases h

end MethodSig

namespace FieldSig

open Signature

/-- Whether each part of a field's signature has a form that sets it off from the next. -/
structure WellFormed (f : FieldSig) : Prop where
  cls : IsWord [':', '<', '>'] f.cls
  ty : ∀ name ∈ f.ty.refName?, Ty.IsClassName name
  ty_text : ∀ c ∈ f.ty.text.toList, Text.isBlank c = false
  name : IsWord ['(', ')', '<', '>'] f.name

theorem toList_text (f : FieldSig) : f.text.toList =
    ['<'] ++ (f.cls.toList ++ ':' :: ([' '] ++ (f.ty.text.toList ++ ' ' ::
      (f.name.toList ++ ['>'])))) := by
  simp [text]

theorem trimChars_toList_text (f : FieldSig) :
    Text.trimChars f.text.toList = f.text.toList := by
  have henclosed : f.text.toList =
      '<' :: ((f.cls ++ ": " ++ f.ty.text ++ " " ++ f.name).toList ++ ['>']) := by
    simp [text]
  rw [henclosed, Text.trimChars_enclosed (by decide) (by decide)]

theorem parse_text {f : FieldSig} (h : f.WellFormed) : parse f.text = .ok f := by
  have hcls := isWord_cls.1 h.cls
  have hname := isWord_fieldName.1 h.name
  have hty : f.ty.IsCanonical := Ty.isCanonical_iff.2 h.ty
  have hread : ofChars? f.text.toList = some f := by
    rw [toList_text, ofChars?, head?_append hcls.1 hcls.2 (Ty.trimChars_text hty).2
      fun c hc => isTypeChar_iff.2 (h.ty_text c hc)]
    simp only [Option.bind_eq_bind, Option.bind_some,
      run?_append (c := '>') hname.1 hname.2 (by decide)]
    simp [Ty.ofChars_text hty]
  rw [parse, trimChars_toList_text, hread]

theorem exists_head?_of_parse {s : String} {f : FieldSig} (h : parse s = .ok f) :
    ∃ cls ty name, head? (Text.trimChars s.toList) = some (cls, ty, name ++ ['>']) ∧
      name ≠ [] ∧ (∀ c ∈ name, isFieldNameChar c = true) ∧
      f = ⟨String.ofList cls, Ty.ofChars ty, String.ofList name⟩ := by
  unfold parse at h
  split at h
  · rename_i f' hread
    cases h
    simp only [ofChars?, Option.bind_eq_bind, Option.bind_eq_some_iff, Option.pure_def,
      Prod.exists] at hread
    obtain ⟨cls, ty, rest, hhead, name, rest', hname, hread⟩ := hread
    split at hread
    · rename_i hend
      cases hread
      rw [eq_append_of_run? hname, hend] at hhead
      exact ⟨cls, ty, name, hhead, (of_run? hname).1, (of_run? hname).2, rfl⟩
    · cases hread
  · cases h

theorem eq_of_parse_error {s : String} {e : SliceError} (h : parse s = .error e) :
    e = .invalidSignature s := by
  unfold parse at h
  split at h
  · cases h
  · cases h
    rfl

theorem wellFormed_of_parse {s : String} {f : FieldSig} (h : parse s = .ok f) :
    f.WellFormed := by
  obtain ⟨cls, ty, name, hhead, hne, hname, rfl⟩ := exists_head?_of_parse h
  obtain ⟨hcls, hty⟩ := of_head? hhead
  have hletters : "unknown".toList.all isTypeChar = true := by decide
  refine ⟨isWord_cls.2 (by simpa using hcls), Ty.isCanonical_iff.1 (Ty.isCanonical_ofChars ty),
    fun c hc => isTypeChar_iff.1 ?_, isWord_fieldName.2 (by simpa using ⟨hne, hname⟩)⟩
  exact (Ty.mem_text_ofChars hc).elim (hty c) (List.all_eq_true.1 hletters c)

end FieldSig

namespace Signature

/-- A field's text goes on with a name alone, so it has no parenthesis where a method's has one. -/
theorem not_parse_both {s : String} {m : MethodSig} {f : FieldSig}
    (hm : MethodSig.parse s = .ok m) : FieldSig.parse s ≠ .ok f := by
  intro hf
  obtain ⟨cls, ty, rest, hhead, hopen⟩ := MethodSig.exists_head?_of_parse hm
  obtain ⟨cls', ty', name, hhead', -, hname, -⟩ := FieldSig.exists_head?_of_parse hf
  rw [hhead, Option.some.injEq, Prod.mk.injEq, Prod.mk.injEq] at hhead'
  rw [hhead'.2.2, List.mem_append, List.mem_singleton] at hopen
  rcases hopen with hopen | hopen
  · exact absurd (hname _ hopen) (by decide)
  · exact absurd hopen (by decide)

def parseFieldFirst (text : String) : Except SliceError Signature :=
  match FieldSig.parse text with
  | .ok f => .ok (.field f)
  | .error _ => (MethodSig.parse text).map .method

def IsRead : Signature → Prop
  | .method m => ∃ s, MethodSig.parse s = .ok m
  | .field f => ∃ s, FieldSig.parse s = .ok f

theorem parse_eq_method_iff {s : String} {m : MethodSig} :
    parse s = .ok (.method m) ↔ MethodSig.parse s = .ok m := by
  unfold parse
  cases MethodSig.parse s with
  | ok m' => simp
  | error e => cases FieldSig.parse s <;> simp [Except.map]

theorem parse_eq_field_iff {s : String} {f : FieldSig} :
    parse s = .ok (.field f) ↔ FieldSig.parse s = .ok f := by
  unfold parse
  cases hm : MethodSig.parse s with
  | ok m => simpa using not_parse_both hm
  | error e => cases FieldSig.parse s <;> simp [Except.map]

theorem parse_eq_parseFieldFirst (s : String) : parse s = parseFieldFirst s := by
  unfold parseFieldFirst
  cases hf : FieldSig.parse s with
  | ok f => exact parse_eq_field_iff.2 hf
  | error e =>
    cases hm : MethodSig.parse s with
    | ok m => exact parse_eq_method_iff.2 hm
    | error e' =>
      -- both kinds refuse a text with the same error
      rw [parse, hf, hm, FieldSig.eq_of_parse_error hf, MethodSig.eq_of_parse_error hm]
      rfl

theorem parse_text_iff_isRead (g : Signature) : parse g.text = .ok g ↔ g.IsRead := by
  cases g with
  | method m =>
    rw [text, parse_eq_method_iff]
    exact ⟨fun h => ⟨m.text, h⟩, fun ⟨_, h⟩ => MethodSig.parse_text_of_parse h⟩
  | field f =>
    rw [text, parse_eq_field_iff]
    exact ⟨fun h => ⟨f.text, h⟩, fun ⟨_, h⟩ => FieldSig.parse_text (FieldSig.wellFormed_of_parse h)⟩

/-- A field's signature is read back from its own text if and only if its parts are well formed,
and these are all that are read. No text names both a field and a method, so the order in which the
two are tried does not matter, and every signature that is read at all is read back as itself. -/
theorem fields_read_back_apart_from_methods :
    (∀ f : FieldSig, (FieldSig.parse f.text = .ok f ↔ f.WellFormed) ∧
      ((∃ s, FieldSig.parse s = .ok f) ↔ f.WellFormed)) ∧
    (∀ s, ¬((∃ m, MethodSig.parse s = .ok m) ∧ ∃ f, FieldSig.parse s = .ok f)) ∧
    (∀ s, parse s = parseFieldFirst s) ∧
    (∀ g : Signature, parse g.text = .ok g ↔ g.IsRead) := by
  refine ⟨fun f => ⟨⟨FieldSig.wellFormed_of_parse, FieldSig.parse_text⟩, ?_⟩,
    fun _ ⟨⟨_, hm⟩, _, hf⟩ => not_parse_both hm hf, parse_eq_parseFieldFirst,
    parse_text_iff_isRead⟩
  exact ⟨fun ⟨_, h⟩ => FieldSig.wellFormed_of_parse h, fun h => ⟨f.text, FieldSig.parse_text h⟩⟩

end Signature

end Backslice
