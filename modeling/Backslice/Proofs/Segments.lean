import Backslice.Proofs.Optimizing

/-!
What leaving out dead lines does to the segments of a path. A line goes if its place is dead in the
replay of any segment that has a line there, so that two segments of one method take lines from each
other. That every segment loses its own dead lines only is therefore the same as a condition on
such places, which holds on every path without recursion.
-/

namespace Backslice

namespace Replay

variable {p : Program}

def IsDeadIn (s : Record × Ranges) (l : Line) : Prop :=
  l.method = s.1.caller ∧ s.2.contains l.source = true

instance (s : Record × Ranges) (l : Line) : Decidable (IsDeadIn s l) :=
  inferInstanceAs (Decidable (_ ∧ _))

def Shows (s : Record × Ranges) (l : Line) : Prop :=
  ∃ k ∈ s.1.content, k.method = l.method ∧ k.source = l.source

/-- The lines of a segment without those that are dead in its own replay. -/
def ownLines (s : Record × Ranges) : List Line := s.1.content.filter fun l => ¬ IsDeadIn s l

/-- Whether no segment takes a line from another one: a line whose place is dead in the replay of a
segment that shows it is dead in the replay of its own segment. -/
def KeepApart (segments : List (Record × Ranges)) : Prop :=
  ∀ s ∈ segments, ∀ l ∈ s.1.content, ∀ t ∈ segments, IsDeadIn t l → Shows t l → IsDeadIn s l

theorem map_fst_replays (p : Program) (segments : List Record) (incoming : Handover) :
    (replays p segments incoming).map (·.1) = segments := by
  induction segments generalizing incoming with
  | nil => rfl
  | cons segment rest ih =>
    unfold replays
    split <;> simp [ih]

theorem mk_mem_deadPlaces {segments : List Record} {method : String} {k : Nat} :
    (method, k) ∈ deadPlaces p segments ↔
      ∃ t ∈ replays p segments none, (method = t.1.caller ∧ t.2.contains k = true) ∧
        ∃ l ∈ t.1.content, l.method = method ∧ l.source = k := by
  rw [deadPlaces, Ascending.mem_ofList, deadLines, List.mem_flatMap]
  refine exists_congr fun t => and_congr_right fun _ => ?_
  simp only [deadIn, List.mem_map, List.mem_filter, Bool.and_eq_true, decide_eq_true_eq,
    Prod.mk.injEq]
  constructor
  · rintro ⟨l, ⟨hl, hmethod, hdead⟩, rfl, rfl⟩
    exact ⟨⟨hmethod, hdead⟩, l, hl, rfl, rfl⟩
  · rintro ⟨⟨hmethod, hdead⟩, l, hl, rfl, rfl⟩
    exact ⟨l, ⟨hl, hmethod, hdead⟩, rfl, rfl⟩

theorem mem_deadPlaces {segments : List Record} {l : Line} :
    (l.method, l.source) ∈ deadPlaces p segments ↔
      ∃ t ∈ replays p segments none, IsDeadIn t l ∧ Shows t l :=
  mk_mem_deadPlaces

/-- What is left of the lines is left of those that are not dead in their own segment. -/
theorem filter_deadPlaces (p : Program) (segments : List Record) :
    ((segments.flatMap (·.content)).filter fun l =>
        (l.method, l.source) ∉ deadPlaces p segments) =
      ((replays p segments none).flatMap ownLines).filter fun l =>
        (l.method, l.source) ∉ deadPlaces p segments := by
  have hsegments : segments.flatMap (·.content) =
      (replays p segments none).flatMap (·.1.content) := by
    conv_lhs => rw [← map_fst_replays p segments none, List.flatMap_map]
  rw [hsegments, List.filter_flatMap, List.filter_flatMap]
  refine List.flatMap_congr fun s hs => ?_
  simp only [ownLines, List.filter_filter]
  refine List.filter_congr fun l hl => ?_
  -- a segment shows its own lines
  have hown (hdead : IsDeadIn s l) : (l.method, l.source) ∈ deadPlaces p segments :=
    mem_deadPlaces.2 ⟨s, hs, hdead, l, hl, rfl, rfl⟩
  by_cases hdead : IsDeadIn s l
  · simp [hown hdead, hdead]
  · simp [hdead]

theorem keepApart_iff (p : Program) (segments : List Record) :
    KeepApart (replays p segments none) ↔
      ∀ l ∈ (replays p segments none).flatMap ownLines,
        (l.method, l.source) ∉ deadPlaces p segments := by
  simp only [mem_deadPlaces, ownLines, List.mem_flatMap, List.mem_filter, decide_not,
    Bool.not_eq_true', decide_eq_false_iff_not, KeepApart]
  constructor
  · rintro h l ⟨s, hs, hl, halive⟩ ⟨t, ht, hdead, hshows⟩
    exact halive (h s hs l hl t ht hdead hshows)
  · intro h s hs l hl t ht hdead hshows
    by_contra halive
    exact h l ⟨s, hs, hl, halive⟩ ⟨t, ht, hdead, hshows⟩

/-- Segments of different methods have no places in common. -/
theorem keepApart_of_nodup {segments : List (Record × Ranges)}
    (hcallers : (segments.map (·.1.caller)).Nodup)
    (hown : ∀ s ∈ segments, ∀ l ∈ s.1.content, l.method = s.1.caller) : KeepApart segments := by
  intro s hs l hl t ht hdead _
  have hsame : s.1.caller = t.1.caller := (hown s hs l hl).symm.trans hdead.1
  rwa [List.inj_on_of_nodup_map hcallers hs ht hsame]

end Replay

namespace Merger

theorem renumber_filter_eq_iff (lines : List Line) (keep : Line → Bool) :
    renumber (lines.filter keep) = renumber lines ↔ ∀ l ∈ lines, keep l = true := by
  constructor
  · intro h
    have hlength : (lines.filter keep).length = lines.length := by
      simpa [renumber] using congrArg List.length h
    exact List.length_filter_eq_length_iff.1 hlength
  · intro h
    rw [List.filter_eq_self.2 h]

open Replay

/-- A path of several segments that does not start at a parameter is merged, and loses the lines at
dead places. -/
theorem exists_mergePath_eq (p : Program) (config : Config) (index : Index) (root : String)
    (path : List String) (hoptimize : config.optimize = true)
    (hfold : config.foldStringConstants = false) {segments : List Record}
    (hsegments : (path.filterMap index.get?).reverse = segments) (hseveral : 1 < segments.length)
    (hstart : startsAtParameter segments = false) :
    ∃ r dead, mergePath p config index root path = .written r dead 0 ∧
      r.content = renumber ((segments.flatMap (·.content)).filter fun l =>
        (l.method, l.source) ∉ deadPlaces p segments) := by
  have hne : segments ≠ [] := List.ne_nil_of_length_pos (Nat.zero_lt_of_lt hseveral)
  unfold mergePath
  simp only [hsegments, List.getLast?_eq_some_getLast hne, hstart, hoptimize, hseveral, hfold,
    decide_true, Bool.and_true, Bool.and_false, Bool.false_eq_true, if_false, if_true]
  exact ⟨_, _, rfl, rfl⟩

/-- A path of several segments that does not start at a parameter is merged into a slice. Where
replacements are not carried out, the slice consists of the lines of each segment without those that
are dead in its own replay, if and only if no segment takes a line from another one. None does on a
path where no method comes twice. -/
theorem merges_own_lines_iff (p : Program) (config : Config) (index : Index) (root : String)
    (path : List String) (segments : List Record) (hoptimize : config.optimize = true)
    (hfold : config.foldStringConstants = false)
    (hsegments : (path.filterMap index.get?).reverse = segments) (hseveral : 1 < segments.length)
    (hstart : startsAtParameter segments = false) :
    ∃ r dead, mergePath p config index root path = .written r dead 0 ∧
      (r.content = renumber ((replays p segments none).flatMap ownLines) ↔
        KeepApart (replays p segments none)) ∧
      ((segments.map (·.caller)).Nodup →
        (∀ s ∈ segments, ∀ l ∈ s.content, l.method = s.caller) →
        r.content = renumber ((replays p segments none).flatMap ownLines)) := by
  obtain ⟨r, dead, hmerged, hcontent⟩ :=
    exists_mergePath_eq p config index root path hoptimize hfold hsegments hseveral hstart
  have hiff : r.content = renumber ((replays p segments none).flatMap ownLines) ↔
      KeepApart (replays p segments none) := by
    rw [keepApart_iff, hcontent, filter_deadPlaces, renumber_filter_eq_iff]
    simp only [decide_eq_true_eq]
  have hfst := map_fst_replays p segments none
  refine ⟨r, dead, hmerged, hiff, fun hcallers hown => hiff.2 (keepApart_of_nodup ?_ ?_)⟩
  · rw [← hfst, List.map_map] at hcallers
    exact hcallers
  · intro s hs
    exact hown s.1 (hfst ▸ List.mem_map_of_mem hs)

def recurMethod : MethodSig := ⟨"a.B", .void, "m", [.int]⟩

def recurStart : MethodSig := ⟨"a.B", .void, "main", []⟩

def recurBody : List Stmt :=
  [.identity ⟨"i0", .int⟩ (.parameter 0 .int),
    .assign (.loc ⟨"r1", .string⟩) (.const (.str "AES")),
    .branch ⟨.ge, .loc ⟨"i0", .int⟩, .const (.int 3)⟩ 4,
    .assign (.loc ⟨"r1", .string⟩) (.const (.str "DES")),
    .invoke ⟨.static, none, recurMethod, [.const (.int 5)]⟩,
    .invoke ⟨.static, none, ⟨"a.C", .void, "use", [.string]⟩, [.loc ⟨"r1", .string⟩]⟩,
    .retVoid]

def recursive : Program :=
  Program.empty.addClass <| .ofMembers "a.B" none false []
    [⟨recurMethod, some recurBody⟩,
      ⟨recurStart, some [.invoke ⟨.static, none, recurMethod, [.const (.int 5)]⟩, .retVoid]⟩]

def recurLine (method : MethodSig) (source : Nat) (kind : UnitKind) (text : String) : Line :=
  { text, kind, method := method.text, number := source, source }

/-- The name where it is used, with one of its definitions. -/
def recurUse : Record :=
  { nodeId? := some "use", group := "use", related := ["again", "first"]
    caller := recurMethod.text, target := "use"
    content := [recurLine recurMethod 3 .assignConstant "r1 = \"DES\"",
      recurLine recurMethod 5 .staticInvoke "use(r1)"] }

def recurAgain : Record :=
  { nodeId? := some "again", group := "use", caller := recurMethod.text, target := "m"
    content := [recurLine recurMethod 3 .assignConstant "r1 = \"DES\"",
      recurLine recurMethod 4 .staticInvoke "m(5)"] }

def recurFirst : Record :=
  { nodeId? := some "first", group := "use", caller := recurStart.text, target := "m"
    content := [recurLine recurStart 0 .staticInvoke "m(5)"] }

def recurIndex : Index := .ofList [("use", recurUse), ("again", recurAgain), ("first", recurFirst)]

def recurConfig : Config := { Config.default with foldStringConstants := false }

theorem merges_own_lines_iff_recurFirst :
    let segments := (["use", "first"].filterMap recurIndex.get?).reverse
    recurConfig.optimize = true ∧ recurConfig.foldStringConstants = false ∧ 1 < segments.length ∧
      startsAtParameter segments = false ∧ KeepApart (replays recursive segments none) ∧
      ∃ r dead, mergePath recursive recurConfig recurIndex "use" ["use", "first"] =
          .written r dead 0 ∧
        r.content = renumber ((replays recursive segments none).flatMap ownLines) ∧
        r.content.map (·.source) = [0, 5] := by
  intro segments
  have hsegments : segments = [recurFirst, recurUse] := by decide +kernel
  have hseveral : 1 < segments.length := by simp [hsegments]
  have hstart : startsAtParameter segments = false := by
    rw [hsegments]
    rfl
  obtain ⟨r, dead, hmerged, hiff, hapart⟩ := merges_own_lines_iff recursive recurConfig recurIndex
    "use" ["use", "first"] segments rfl rfl rfl hseveral hstart
  have hcallers : (segments.map (·.caller)).Nodup := by
    rw [hsegments]
    decide +kernel
  have hown : ∀ s ∈ segments, ∀ l ∈ s.content, l.method = s.caller := by
    rw [hsegments]
    decide +kernel
  have hcontent := hapart hcallers hown
  refine ⟨rfl, rfl, hseveral, hstart, hiff.1 hcontent, r, dead, hmerged, hcontent, ?_⟩
  rw [hcontent]
  decide +kernel

/-- Where a method calls itself, a line that runs in one segment goes because it does not run in the
other. -/
theorem recursion_takes_lines :
    let segments := (["use", "again"].filterMap recurIndex.get?).reverse
    ∃ r dead, mergePath recursive recurConfig recurIndex "use" ["use", "again"] =
        .written r dead 0 ∧
      r.content.map (·.source) = [4, 5] ∧
      ((replays recursive segments none).flatMap ownLines).map (·.source) = [3, 4, 5] ∧
      r.content ≠ renumber ((replays recursive segments none).flatMap ownLines) := by
  intro segments
  have hsegments : segments = [recurAgain, recurUse] := by decide +kernel
  obtain ⟨r, dead, hmerged, hcontent⟩ := exists_mergePath_eq recursive recurConfig recurIndex
    "use" ["use", "again"] rfl rfl hsegments (by decide) rfl
  have hsources : r.content.map (·.source) = [4, 5] := by
    rw [hcontent]
    decide +kernel
  have hown : ((replays recursive segments none).flatMap ownLines).map (·.source) = [3, 4, 5] := by
    rw [hsegments]
    decide +kernel
  refine ⟨r, dead, hmerged, hsources, hown, fun heq => ?_⟩
  have hlength : (r.content.map (·.source)).length =
      (((replays recursive segments none).flatMap ownLines).map (·.source)).length := by
    rw [heq]
    simp [renumber]
  rw [hsources, hown] at hlength
  cases hlength

end Merger

end Backslice
