import Mathlib.Data.List.Forall2
import Backslice.Proofs.Merging

namespace Backslice

namespace Folding

/-- Whether the instruction of a line assigns a replacement of characters in a string to a local. -/
def AtReplacement (p : Program) (l : Line) : Prop :=
  ∃ dest c, stmt? p l = some (.assign (.loc dest) (.call c)) ∧ c.isCharReplace = true

end Folding

/-- Whether two lines are of the same instruction. They have the same text and literals, unless the
instruction is a replacement that may have been carried out. -/
structure Line.Matches (p : Program) (l k : Line) : Prop where
  kind : l.kind = k.kind
  method : l.method = k.method
  source : l.source = k.source
  written : l.text = k.text ∧ l.constants? = k.constants? ∨ Folding.AtReplacement p k

namespace Line.Matches

variable {p : Program}

instance : Std.Refl (Line.Matches p) := ⟨fun _ => ⟨rfl, rfl, rfl, .inl ⟨rfl, rfl⟩⟩⟩

instance : IsTrans Line (Line.Matches p) where
  trans l k j h h' := by
    refine ⟨h.kind.trans h'.kind, h.method.trans h'.method, h.source.trans h'.source, ?_⟩
    have hstmt : Folding.stmt? p k = Folding.stmt? p j := by
      simp only [Folding.stmt?, h'.method, h'.source]
    rcases h.written with ⟨htext, hconstants⟩ | ⟨dest, c, hc, hreplace⟩
    · exact h'.written.imp_left fun hsame => ⟨htext.trans hsame.1, hconstants.trans hsame.2⟩
    · exact .inr ⟨dest, c, hstmt ▸ hc, hreplace⟩

end Line.Matches

namespace Folding

variable {p : Program}

theorem isCharReplace_of_replaced? {c : Call} {method s : String} {known : Strings}
    (h : replaced? c method known = some s) : c.isCharReplace = true := by
  unfold replaced? at h
  split at h
  · assumption
  · cases h

/-- A line is written anew only where the value of a replacement is known. -/
theorem matches_foldLine {l : Line} {dest : Local} {rhs : Value}
    (hstmt : stmt? p l = some (.assign (.loc dest) rhs)) (known : Strings) :
    (foldLine l dest rhs (value? rhs l.method known)).2.Matches p l := by
  unfold foldLine
  split
  · rename_i c s hvalue
    have hreplace := isCharReplace_of_replaced? (c := c) (s := s) hvalue
    exact ⟨rfl, rfl, rfl, .inr ⟨dest, c, hstmt, hreplace⟩⟩
  · exact refl l

theorem matches_foldLines (lines : List Line) (known : Strings) :
    List.Forall₂ (Line.Matches p) (foldLines p lines known) lines := by
  induction lines generalizing known with
  | nil => exact .nil
  | cons l rest ih =>
    unfold foldLines pass
    split
    · rename_i dest rhs hstmt
      exact .cons (matches_foldLine hstmt known) (ih _)
    · exact .cons (refl l) (ih known)

end Folding

/-- Whether a slice comes from the plain one by optimizing: lines are left out or written anew, and
nothing else changes. The slice of a single node stays as it is. -/
structure Record.Optimizes (p : Program) (r plain : Record) : Prop where
  rest : { r with content := plain.content } = plain
  lines : List.SublistForall₂ (Line.Matches p) r.content plain.content
  single : plain.related.length = 1 → r = plain

def Record.Numbered (r : Record) : Prop :=
  r.content.map (·.number) = List.range r.content.length

/-- What merging counts besides the lines that optimizing touches. -/
def MergeStats.outline (s : MergeStats) : Nat × Nat × Nat × Bool :=
  (s.paths, s.written, s.dropped, s.truncated)

namespace Merger

variable {p : Program}

def writtenIn : Except SliceError MergeStats → Nat
  | .ok stats => stats.written
  | .error _ => 0

theorem number_renumber (lines : List Line) :
    (renumber lines).map (·.number) = List.range (renumber lines).length := by
  apply List.ext_getElem
  · simp
  · intro i hi hi'
    simp [renumber]

theorem matches_renumber (lines : List Line) :
    List.Forall₂ (Line.Matches p) (renumber lines) lines ∧
      List.Forall₂ (Line.Matches p) lines (renumber lines) := by
  constructor <;> refine List.forall₂_iff_get.2 ⟨by simp [renumber], fun i hi hi' => ?_⟩
  all_goals
    simp only [renumber, List.get_eq_getElem, List.getElem_mapIdx]
    exact ⟨rfl, rfl, rfl, .inl ⟨rfl, rfl⟩⟩

/-- Lines that are left out, folded and numbered again match some of the lines in order. -/
theorem sublist_optimized (lines : List Line) (keep : Line → Bool) (fold : Bool) :
    List.SublistForall₂ (Line.Matches p)
      (renumber (if fold then Folding.pass p (lines.filter keep) [] else (0, lines.filter keep)).2)
      (renumber lines) := by
  let kept := lines.filter keep
  let folded := (if fold then Folding.pass p kept [] else (0, kept)).2
  have hfolded : List.Forall₂ (Line.Matches p) folded kept := by
    simp only [folded]
    split
    · exact Folding.matches_foldLines kept []
    · exact List.forall₂_refl kept
  have hleft : List.SublistForall₂ (Line.Matches p) (renumber folded) folded :=
    List.sublistForall₂_iff.2 ⟨folded, (matches_renumber folded).1, .refl folded⟩
  have hmiddle : List.SublistForall₂ (Line.Matches p) folded lines :=
    List.sublistForall₂_iff.2 ⟨kept, hfolded, List.filter_sublist⟩
  have hright : List.SublistForall₂ (Line.Matches p) lines (renumber lines) :=
    List.sublistForall₂_iff.2 ⟨renumber lines, (matches_renumber lines).2, .refl _⟩
  exact IsTrans.trans _ _ _ hleft (IsTrans.trans _ _ _ hmiddle hright)

theorem numbered_of_mergePath {config : Config} {index : Index} {root : String}
    {path : List String} {r : Record}
    (h : (mergePath p config index root path).record? = some r) : r.Numbered := by
  simp only [mergePath] at h
  split at h
  · cases h
  · split at h
    · cases h
    · cases h
      exact number_renumber _

/-- A path is dropped or written with optimizing if and only if it is without. -/
theorem optimizes_mergePath (config : Config) (index : Index) (root : String)
    (path : List String) :
    Option.Rel (Record.Optimizes p)
      (mergePath p { config with optimize := true } index root path).record?
      (mergePath p { config with optimize := false } index root path).record? := by
  simp only [mergePath]
  split
  · exact .none
  · split
    · exact .none
    · -- without optimizing no place is dead, so every line is kept as it is
      simp only [Bool.false_and, Bool.false_eq_true, if_false, Bool.true_and, List.not_mem_nil,
        not_false_eq_true, decide_true, List.filter_true]
      refine .some ⟨rfl, sublist_optimized _ _ _, fun hsingle => ?_⟩
      have hfew : ¬ 1 < (path.filterMap index.get?).reverse.length := by
        have hle := List.length_filterMap_le index.get? path
        dsimp only at hsingle
        rw [List.length_reverse]
        omega
      simp only [hfew, decide_false, Bool.false_and, Bool.false_eq_true, if_false,
        List.not_mem_nil, not_false_eq_true, decide_true, List.filter_true]

/-- Which paths a group is merged along does not depend on how they are merged. -/
theorem mergeGroup_cases (p : Program) (m : Merger) (root : String) (limit : Nat) :
    (∀ config : Config, config.maxMergePaths = limit → m.mergeGroup p config root = (.ok {}, m)) ∨
    (∃ e seen, ∀ config : Config, config.maxMergePaths = limit →
      m.mergeGroup p config root = (.error e, ⟨m.store, seen⟩)) ∨
    ∃ index, ∃ paths : List (List String), ∃ truncated seen,
      ∀ config : Config, config.maxMergePaths = limit →
      let result := paths.foldl (addPath p config index root) ({}, m.store)
      m.mergeGroup p config root = (.ok { result.1 with truncated }, ⟨result.2, seen⟩) := by
  by_cases hmerged : (m.store.select (Store.mergedPredicates root)).isEmpty
  · right
    cases hrecords : m.store.selectAll [Store.groupPredicate root] with
    | error e =>
      left
      refine ⟨e, m.seen, fun config _ => ?_⟩
      simp [mergeGroup, hmerged, hrecords]
    | ok records =>
      let index := index ⟨m.store, seeGroup m.seen records⟩
      by_cases hroot : index.contains root
      · right
        let found := index.firstPaths (limit + 1) [root]
        let visited := found.flatten.flatMap fun id => id :: relatedOf index id
        refine ⟨index, found.take limit, limit < found.length,
          visited.foldl (see index) (see index (seeGroup m.seen records) root), ?_⟩
        rintro config rfl
        simp [mergeGroup, hmerged, hrecords, hroot, index, found, visited]
      · left
        refine ⟨.unresolved ("slice group root " ++ root),
          see index (seeGroup m.seen records) root, fun config _ => ?_⟩
        simp [mergeGroup, hmerged, hrecords, hroot, index]
  · left
    intro config _
    simp [mergeGroup, hmerged]

theorem optimizes_written (config : Config) (index : Index) (root : String)
    (paths : List (List String)) :
    List.Forall₂ (Record.Optimizes p)
      (written p { config with optimize := true } index root paths)
      (written p { config with optimize := false } index root paths) :=
  List.rel_filterMap (R := Eq) (fun path _ heq => heq ▸ optimizes_mergePath config index root path)
    (List.forall₂_refl paths)

theorem numbered_of_mem_written {config : Config} {index : Index} {root : String}
    {paths : List (List String)} {r : Record} (h : r ∈ written p config index root paths) :
    r.Numbered := by
  obtain ⟨path, -, hpath⟩ := List.mem_filterMap.1 h
  exact numbered_of_mergePath hpath

/-- Whatever the store holds, a group is merged with optimizing as it is without: it fails alike or
has the same paths, of which the same are written and dropped. Slice by slice, optimizing leaves out
lines and carries out replacements, and the lines are numbered in order both ways. -/
theorem optimizing_only_removes_or_rewrites (p : Program) (config : Config) (m : Merger)
    (root : String) :
    let optimized := m.mergeGroup p { config with optimize := true } root
    let plain := m.mergeGroup p { config with optimize := false } root
    optimized.1.map MergeStats.outline = plain.1.map MergeStats.outline ∧
    ∃ rs plains : List Record,
      optimized.2.store.documents = m.store.documents ++ rs.map Record.toJson ∧
      plain.2.store.documents = m.store.documents ++ plains.map Record.toJson ∧
      plains.length = writtenIn plain.1 ∧
      List.Forall₂ (Record.Optimizes p) rs plains ∧ ∀ r ∈ rs ++ plains, r.Numbered := by
  intro optimized plain
  rcases mergeGroup_cases p m root config.maxMergePaths with
    hdone | ⟨e, seen, hfails⟩ | ⟨index, paths, truncated, seen, hmerges⟩
  · have hoptimized : optimized = (.ok {}, m) := hdone _ rfl
    have hplain : plain = (.ok {}, m) := hdone _ rfl
    rw [hoptimized, hplain]
    exact ⟨rfl, [], [], by simp, by simp, rfl, .nil, by simp⟩
  · have hoptimized : optimized = (.error e, ⟨m.store, seen⟩) := hfails _ rfl
    have hplain : plain = (.error e, ⟨m.store, seen⟩) := hfails _ rfl
    rw [hoptimized, hplain]
    exact ⟨rfl, [], [], by simp, by simp, rfl, .nil, by simp⟩
  · let rs := written p { config with optimize := true } index root paths
    let plains := written p { config with optimize := false } index root paths
    have hpairs : List.Forall₂ (Record.Optimizes p) rs plains :=
      optimizes_written config index root paths
    have hlength : rs.length = plains.length := hpairs.length_eq
    obtain ⟨hstore, hpaths, hwritten, hdropped⟩ :=
      foldl_addPath p { config with optimize := true } index root paths {} m.store
    obtain ⟨hstore', hpaths', hwritten', hdropped'⟩ :=
      foldl_addPath p { config with optimize := false } index root paths {} m.store
    have hoptimized := hmerges { config with optimize := true } rfl
    have hplain := hmerges { config with optimize := false } rfl
    refine ⟨?_, rs, plains, ?_, ?_, ?_, hpairs, ?_⟩
    · have hdrop := hdropped.trans hdropped'.symm
      change _ + rs.length = _ + plains.length at hdrop
      rw [hlength, Nat.add_right_cancel_iff] at hdrop
      change _ = _ + rs.length at hwritten
      simp only [optimized, plain, hoptimized, hplain, Except.map, MergeStats.outline, hpaths,
        hpaths', hwritten, hwritten', hlength, hdrop, plains]
    · simp only [optimized, hoptimized, hstore, rs]
    · simp only [plain, hplain, hstore', plains]
    · simp only [plain, hplain, writtenIn, hwritten', plains]
      exact (Nat.zero_add _).symm
    · intro r hr
      exact (List.mem_append.1 hr).elim numbered_of_mem_written numbered_of_mem_written

end Merger

end Backslice
