import Backslice.Proofs.Merging

/-!
A group is merged once. What a merger remembers makes no difference when the group is merged again,
also if all of its paths were dropped and the store does not show that it was merged.
-/

namespace Backslice

namespace Record

section
variable {records : List Record} {group id : String}

def ofGroup (records : List Record) (group : String) : List Record :=
  records.filter fun r => r.group = group

/-- The slice that is taken for a node while a group is merged: the last one of the group, or else
the first of all. -/
def inGroup? (records : List Record) (group id : String) : Option Record :=
  (ofNode? (ofGroup records group).reverse id).or (ofNode? records id)

theorem isSome_inGroup? : (inGroup? records group id).isSome = true ↔ id ∈ ids records := by
  rw [inGroup?, Option.isSome_or, Bool.or_eq_true, isSome_ofNode?, isSome_ofNode?,
    or_iff_right_iff_imp]
  intro hid
  obtain ⟨r, hr, hnode⟩ := mem_ids.1 hid
  exact mem_ids.2 ⟨r, (List.mem_filter.1 (List.mem_reverse.1 hr)).1, hnode⟩

def groupIndex (records : List Record) (group : String) : Index :=
  Merger.index ⟨.ofRecords records, Merger.seeGroup .empty (ofGroup records group)⟩

theorem mergedOf_eq_nil_iff :
    mergedOf records group = [] ↔ ∀ r ∈ records, r.nodeId? = none → r.group ≠ group := by
  simp [mergedOf, isMerged]

theorem not_mem_ids_iff : id ∉ ids records ↔ ∀ r ∈ records, r.nodeId? ≠ some id := by
  simp [mem_ids]

end

end Record

namespace Merger

/-- Whether a merger works on the records and what it has seen outside the group is what they
are. -/
structure Recalls (m : Merger) (records : List Record) (group : String) : Prop where
  store : m.store = .ofRecords records
  seen : ∀ id found, m.seen.get? id = some found →
    Record.ofNode? (Record.ofGroup records group).reverse id = none →
    found = Record.ofNode? records id

theorem Faithful.recalls {m : Merger} {records : List Record} (h : Faithful m records)
    (group : String) : Recalls m records group where
  store := h.store
  seen id found hfound _ := h.seen id found hfound

namespace Recalls

section
variable {m : Merger} {records : List Record} {root : String} (h : Recalls m records root)
include h

theorem get?_seeGroup {id : String} {found : Option Record}
    (hfound : (seeGroup m.seen (Record.ofGroup records root)).get? id = some found) :
    found = Record.inGroup? records root id := by
  rw [Merger.get?_seeGroup] at hfound
  unfold Record.inGroup?
  cases hlast : Record.ofNode? (Record.ofGroup records root).reverse id with
  | none =>
    rw [hlast] at hfound
    exact h.seen id found hfound hlast
  | some r =>
    rw [hlast] at hfound
    exact (Option.some.inj hfound).symm

theorem get?_index (hfits : ∀ r ∈ records, r.Fits) (id : String) :
    (index ⟨m.store, seeGroup m.seen (Record.ofGroup records root)⟩).get? id =
      Record.inGroup? records root id := by
  let looked : Merger := ⟨m.store, seeGroup m.seen (Record.ofGroup records root)⟩
  rw [Merger.get?_index (m := looked) h.store hfits]
  cases hseen : (seeGroup m.seen (Record.ofGroup records root)).get? id with
  | some found => exact h.get?_seeGroup hseen
  | none =>
    -- then the group has no slice of the node
    rw [Merger.get?_seeGroup, Option.or_eq_none_iff, Option.map_eq_none_iff] at hseen
    rw [Record.inGroup?, hseen.1]
    rfl

end

end Recalls

section
variable {records : List Record} (hfits : ∀ r ∈ records, r.Fits)
include hfits

theorem get?_groupIndex (root id : String) :
    (Record.groupIndex records root).get? id = Record.inGroup? records root id :=
  ((Faithful.ofStore records).recalls root).get?_index hfits id

theorem contains_groupIndex (root id : String) :
    (Record.groupIndex records root).contains id = true ↔ id ∈ Record.ids records := by
  rw [Table.contains_eq_isSome_get?, get?_groupIndex hfits, Record.isSome_inGroup?]

variable (p : Program) (config : Config) {m : Merger} {root : String}

/-- Of what a merger remembers nothing counts. -/
theorem Recalls.exists_mergeGroup_eq (h : Recalls m records root)
    (hnone : Record.mergedOf records root = []) :
    ∃ seen,
      (∀ ids : List String,
        Recalls ⟨m.store, ids.foldl (see (Record.groupIndex records root)) seen⟩ records root) ∧
      m.mergeGroup p config root =
        mergeIndexed p config ⟨m.store, seen⟩ (Record.groupIndex records root) root := by
  have hindex : index ⟨m.store, seeGroup m.seen (Record.ofGroup records root)⟩ =
      Record.groupIndex records root := by
    apply Table.ext_get?
    intro id
    rw [h.get?_index hfits, get?_groupIndex hfits]
  refine ⟨_, fun ids => ⟨h.store, ?_⟩,
    mergeGroup_of_unmerged p config h.store hfits hnone rfl hindex⟩
  -- what is seen on the way is what the index has, which outside the group is the first slice
  intro id found hfound hother
  have hseen := get?_foldl_see (get?_groupIndex hfits root) (fun _ _ => h.get?_seeGroup)
    (root :: ids)
  rw [hseen id found hfound, Record.inGroup?, hother]
  rfl

/-- A group whose root has no slice is not merged. -/
theorem Recalls.mergeGroup_of_no_root (h : Recalls m records root)
    (hnone : Record.mergedOf records root = []) (hroot : root ∉ Record.ids records) :
    ∃ seen, m.mergeGroup p config root =
      (.error (.unresolved ("slice group root " ++ root)), ⟨m.store, seen⟩) := by
  obtain ⟨seen, -, heq⟩ := h.exists_mergeGroup_eq hfits p config hnone
  rw [mergeIndexed, if_neg fun hcontains => hroot
    ((contains_groupIndex hfits root root).1 hcontains)] at heq
  exact ⟨seen, heq⟩

def groupWritten (records : List Record) (root : String) : List Record :=
  written p config (Record.groupIndex records root) root
    (((Record.groupIndex records root).paths [root]).take config.maxMergePaths)

/-- A group whose root has a slice is merged, and every path is counted. -/
theorem Recalls.mergeGroup_of_root (h : Recalls m records root)
    (hnone : Record.mergedOf records root = []) (hroot : root ∈ Record.ids records) :
    ∃ stats seen, m.mergeGroup p config root =
        (.ok stats, ⟨.ofRecords (records ++ groupWritten p config records root), seen⟩) ∧
      stats.written = (groupWritten p config records root).length ∧
      stats.written + stats.dropped = stats.paths ∧ stats.paths ≤ config.maxMergePaths ∧
      Recalls ⟨.ofRecords records, seen⟩ records root := by
  obtain ⟨seen, hseen, heq⟩ := h.exists_mergeGroup_eq hfits p config hnone
  rw [mergeIndexed, if_pos ((contains_groupIndex hfits root root).2 hroot)] at heq
  obtain ⟨hstore, hpaths, hwritten, hdropped⟩ := foldl_addPath p config
    (Record.groupIndex records root) root
    (((Record.groupIndex records root).paths [root]).take config.maxMergePaths) {} m.store
  have hlength := List.length_take_le config.maxMergePaths
    ((Record.groupIndex records root).paths [root])
  refine ⟨_, _, heq.trans (congrArg _ (congrArg₂ _ (hstore.trans ?_) rfl)), ?_, ?_, ?_,
    h.store ▸ hseen _⟩
  · simp [h.store, Store.ofRecords, groupWritten]
  all_goals dsimp only [groupWritten] at hpaths hwritten hdropped ⊢; omega

omit hfits in
theorem of_mem_groupWritten {r : Record} (hr : r ∈ groupWritten p config records root) :
    r.nodeId? = none ∧ r.group = root := by
  obtain ⟨path, -, hpath⟩ := List.mem_filterMap.1 hr
  obtain ⟨hmerged, hgroup, -⟩ := of_mergePath p config hpath
  exact ⟨Option.isNone_iff_eq_none.1 hmerged, hgroup⟩

/-- The group is not merged again, also by another merger. -/
theorem mergeGroup_again (hnone : Record.mergedOf records root = [])
    (hroot : root ∈ Record.ids records)
    (hstore : m.store = .ofRecords (records ++ groupWritten p config records root))
    (hseen : Recalls ⟨.ofRecords records, m.seen⟩ records root) :
    ∃ stats, (m.mergeGroup p config root).1 = .ok stats ∧ stats.written = 0 ∧
      (m.mergeGroup p config root).2.store = m.store := by
  by_cases hadded : groupWritten p config records root = []
  · -- the store does not show that the group was merged, so its paths are dropped once more
    rw [hadded, List.append_nil] at hstore
    have hm : Recalls m records root := ⟨hstore, hseen.seen⟩
    obtain ⟨stats, seen, heq, hwritten, -⟩ := hm.mergeGroup_of_root hfits p config hnone hroot
    rw [hadded, List.append_nil] at heq
    rw [hadded] at hwritten
    refine ⟨stats, ?_, hwritten, ?_⟩
    · rw [heq]
    · rw [heq, hstore]
  · obtain ⟨r, hr⟩ := List.exists_mem_of_ne_nil _ hadded
    obtain ⟨hmerged, hgroup⟩ := of_mem_groupWritten p config hr
    have hmergedOf : Record.mergedOf (records ++ groupWritten p config records root) root ≠ [] :=
      fun hnil => Record.mergedOf_eq_nil_iff.1 hnil r (List.mem_append_right _ hr) hmerged hgroup
    rw [mergeGroup_of_merged p config hstore hmergedOf]
    exact ⟨{}, rfl, rfl, rfl⟩

/-- A group that is merged is left alone, one without a slice of its root is refused, and any other
gets the slices of its paths. -/
theorem Faithful.mergeGroup_cases (hm : Faithful m records) (root : String) :
    (Record.mergedOf records root ≠ [] ∧ m.mergeGroup p config root = (.ok {}, m)) ∨
    (Record.mergedOf records root = [] ∧ root ∉ Record.ids records ∧ ∃ seen,
      m.mergeGroup p config root =
        (.error (.unresolved ("slice group root " ++ root)), ⟨m.store, seen⟩)) ∨
    (Record.mergedOf records root = [] ∧ root ∈ Record.ids records ∧ ∃ stats seen,
      m.mergeGroup p config root =
        (.ok stats, ⟨.ofRecords (records ++ groupWritten p config records root), seen⟩) ∧
      stats.written = (groupWritten p config records root).length ∧
      stats.written + stats.dropped = stats.paths ∧ stats.paths ≤ config.maxMergePaths ∧
      Recalls ⟨.ofRecords records, seen⟩ records root) := by
  by_cases hnone : Record.mergedOf records root = []
  · by_cases hroot : root ∈ Record.ids records
    · exact .inr (.inr ⟨hnone, hroot,
        (hm.recalls root).mergeGroup_of_root hfits p config hnone hroot⟩)
    · exact .inr (.inl ⟨hnone, hroot,
        (hm.recalls root).mergeGroup_of_no_root hfits p config hnone hroot⟩)
  · exact .inl ⟨hnone, mergeGroup_of_merged p config hm.store hnone⟩

theorem Faithful.mergeGroup_fails_iff (hm : Faithful m records) (root : String) :
    (∃ e, (m.mergeGroup p config root).1 = .error e) ↔
      (∀ r ∈ records, r.nodeId? = none → r.group ≠ root) ∧
        ∀ r ∈ records, r.nodeId? ≠ some root := by
  rw [← Record.mergedOf_eq_nil_iff, ← Record.not_mem_ids_iff]
  rcases hm.mergeGroup_cases hfits p config root with
    ⟨hmerged, heq⟩ | ⟨hnone, hroot, seen, heq⟩ | ⟨hnone, hroot, stats, seen, heq, -⟩
  · simp [heq, hmerged]
  · simp [heq, hnone, hroot]
  · simp [heq, hroot]

theorem Faithful.store_of_mergeGroup_fails (hm : Faithful m records) {root : String}
    {e : SliceError} (h : (m.mergeGroup p config root).1 = .error e) :
    e = .unresolved ("slice group root " ++ root) ∧
      (m.mergeGroup p config root).2.store = m.store := by
  rcases hm.mergeGroup_cases hfits p config root with
    ⟨-, heq⟩ | ⟨-, -, seen, heq⟩ | ⟨-, -, stats, seen, heq, -⟩
  all_goals rw [heq] at h ⊢; cases h
  exact ⟨rfl, rfl⟩

theorem Faithful.added_of_mergeGroup (hm : Faithful m records) {root : String} {stats : MergeStats}
    (h : (m.mergeGroup p config root).1 = .ok stats) :
    stats.written + stats.dropped = stats.paths ∧ stats.paths ≤ config.maxMergePaths ∧
      ∃ added : List Record, (m.mergeGroup p config root).2.store = .ofRecords (records ++ added) ∧
        added.length = stats.written ∧ ∀ r ∈ added, r.nodeId? = none ∧ r.group = root := by
  rcases hm.mergeGroup_cases hfits p config root with
    ⟨-, heq⟩ | ⟨-, -, seen, heq⟩ | ⟨-, -, stats', seen, heq, hwritten, htotal, hpaths, -⟩
  all_goals rw [heq] at h ⊢; cases h
  · exact ⟨rfl, Nat.zero_le _, [], by simpa using hm.store, rfl, by simp⟩
  · exact ⟨htotal, hpaths, _, rfl, hwritten.symm, fun r => of_mem_groupWritten p config⟩

/-- The merger itself and a new one both find nothing more to write. -/
theorem Faithful.mergeGroup_twice (hm : Faithful m records) {root : String} {stats : MergeStats}
    (h : (m.mergeGroup p config root).1 = .ok stats) :
    ∀ again ∈ [(m.mergeGroup p config root).2, .ofStore (m.mergeGroup p config root).2.store],
      ∃ stats', (again.mergeGroup p config root).1 = .ok stats' ∧ stats'.written = 0 ∧
        (again.mergeGroup p config root).2.store = (m.mergeGroup p config root).2.store := by
  intro again hagain
  rcases hm.mergeGroup_cases hfits p config root with
    ⟨hmerged, heq⟩ | ⟨-, -, seen, heq⟩ | ⟨hnone, hroot, stats', seen, heq, -, -, -, hseen⟩
  all_goals rw [heq] at h hagain ⊢; cases h
  · have hstore : again.store = m.store := by
      rcases List.mem_pair.1 hagain with rfl | rfl <;> rfl
    rw [mergeGroup_of_merged p config (hstore.trans hm.store) hmerged]
    exact ⟨{}, rfl, rfl, hstore⟩
  · rcases List.mem_pair.1 hagain with rfl | rfl
    · exact mergeGroup_again hfits p config hnone hroot rfl hseen
    · exact mergeGroup_again hfits p config hnone hroot rfl
        ((Faithful.ofStore records).recalls root)

theorem Faithful.of_mergeGroup (hm : Faithful m records) {root : String} {stats : MergeStats}
    (h : (m.mergeGroup p config root).1 = .ok stats) :
    stats.written + stats.dropped = stats.paths ∧ stats.paths ≤ config.maxMergePaths ∧
      (∃ added : List Record, (m.mergeGroup p config root).2.store = .ofRecords (records ++ added) ∧
        added.length = stats.written ∧ ∀ r ∈ added, r.nodeId? = none ∧ r.group = root) ∧
      ∀ again ∈ [(m.mergeGroup p config root).2, .ofStore (m.mergeGroup p config root).2.store],
        ∃ stats', (again.mergeGroup p config root).1 = .ok stats' ∧ stats'.written = 0 ∧
          (again.mergeGroup p config root).2.store = (m.mergeGroup p config root).2.store := by
  obtain ⟨htotal, hpaths, hadded⟩ := hm.added_of_mergeGroup hfits p config h
  exact ⟨htotal, hpaths, hadded, hm.mergeGroup_twice hfits p config h⟩

end

/-- Merging fails if and only if the group has neither a merged slice nor a slice of its root, and
then the store is as before. Otherwise it adds the slices that it counts, and merging again adds
none. -/
theorem merging_is_atomic_and_idempotent (p : Program) (config : Config) {m : Merger}
    {records : List Record} (hfits : ∀ r ∈ records, r.Fits) (hm : Faithful m records)
    (root : String) :
    let first := m.mergeGroup p config root
    ((∃ e, first.1 = .error e) ↔
        (∀ r ∈ records, r.nodeId? = none → r.group ≠ root) ∧
          ∀ r ∈ records, r.nodeId? ≠ some root) ∧
      (∀ e, first.1 = .error e →
        e = .unresolved ("slice group root " ++ root) ∧ first.2.store = m.store) ∧
      ∀ stats, first.1 = .ok stats →
        stats.written + stats.dropped = stats.paths ∧ stats.paths ≤ config.maxMergePaths ∧
          (∃ added : List Record, first.2.store = .ofRecords (records ++ added) ∧
            added.length = stats.written ∧ ∀ r ∈ added, r.nodeId? = none ∧ r.group = root) ∧
          ∀ again ∈ [first.2, .ofStore first.2.store], ∃ stats',
            (again.mergeGroup p config root).1 = .ok stats' ∧ stats'.written = 0 ∧
              (again.mergeGroup p config root).2.store = first.2.store := by
  intro first
  exact ⟨hm.mergeGroup_fails_iff hfits p config root,
    fun e he => hm.store_of_mergeGroup_fails hfits p config he,
    fun stats hstats => hm.of_mergeGroup hfits p config hstats⟩

/-- The same for a new merger, which has seen nothing yet. -/
theorem merging_ofStore_is_atomic_and_idempotent (p : Program) (config : Config)
    {records : List Record} (hfits : ∀ r ∈ records, r.Fits) (root : String) :
    let first := mergeGroup p config (.ofStore (.ofRecords records)) root
    ((∃ e, first.1 = .error e) ↔
        (∀ r ∈ records, r.nodeId? = none → r.group ≠ root) ∧
          ∀ r ∈ records, r.nodeId? ≠ some root) ∧
      (∀ e, first.1 = .error e →
        e = .unresolved ("slice group root " ++ root) ∧ first.2.store = .ofRecords records) ∧
      ∀ stats, first.1 = .ok stats →
        stats.written + stats.dropped = stats.paths ∧ stats.paths ≤ config.maxMergePaths ∧
          (∃ added : List Record, first.2.store = .ofRecords (records ++ added) ∧
            added.length = stats.written ∧ ∀ r ∈ added, r.nodeId? = none ∧ r.group = root) ∧
          ∀ again ∈ [first.2, .ofStore first.2.store], ∃ stats',
            (again.mergeGroup p config root).1 = .ok stats' ∧ stats'.written = 0 ∧
              (again.mergeGroup p config root).2.store = first.2.store := by
  intro first
  have hm := Faithful.ofStore records
  exact ⟨hm.mergeGroup_fails_iff hfits p config root,
    fun e he => hm.store_of_mergeGroup_fails hfits p config he,
    fun stats hstats => hm.of_mergeGroup hfits p config hstats⟩

/-- A slice of a use whose name is a parameter that nobody passes. -/
def passedUse (related : List String) : Record :=
  { nodeId? := some "use", group := "use", related, caller := "m", target := "use"
    content := [{ text := "r1 := @parameter0", kind := .parameterIdentity, method := "m"
                  number := 0, source := 0 }] }

def namedUse : Record :=
  { nodeId? := some "named", group := "named", related := [], caller := "m", target := "use"
    content := [{ text := "r1 = \"AES\"", kind := .assignConstant, method := "m"
                  number := 0, source := 0 }] }

def passedUses : List Record := [passedUse ["give"], passedUse [], namedUse]

/-- One group has no root, the only path of another is dropped, and that of the third is written. -/
theorem merging_is_atomic_and_idempotent_passedUses :
    let m : Merger := .ofStore (.ofRecords passedUses)
    (∀ r ∈ passedUses, r.Fits) ∧ Faithful m passedUses ∧
      (∃ e, (m.mergeGroup .empty .default "give").1 = .error e) ∧
      (∃ stats, (m.mergeGroup .empty .default "use").1 = .ok stats ∧
        stats.written + stats.dropped = stats.paths) ∧
      ∃ stats merged, (m.mergeGroup .empty .default "named").1 = .ok stats ∧ stats.written = 1 ∧
        (m.mergeGroup .empty .default "named").2.store = .ofRecords (passedUses ++ [merged]) ∧
        ∃ stats', ((m.mergeGroup .empty .default "named").2.mergeGroup .empty .default "named").1 =
          .ok stats' ∧ stats'.written = 0 := by
  intro m
  have hfits : ∀ r ∈ passedUses, r.Fits := by
    intro r hr position hposition
    rcases List.mem_cons.1 hr with rfl | hr
    · cases hposition
    · rcases List.mem_pair.1 hr with rfl | rfl <;> cases hposition
  have hm : Faithful m passedUses := .ofStore passedUses
  obtain ⟨hgive, -⟩ := merging_is_atomic_and_idempotent .empty .default hfits hm "give"
  obtain ⟨huse, -, hok⟩ := merging_is_atomic_and_idempotent .empty .default hfits hm "use"
  obtain ⟨-, -, hnamed⟩ := merging_is_atomic_and_idempotent .empty .default hfits hm "named"
  refine ⟨hfits, hm, hgive.2 (by decide), ?_, ?_⟩
  · cases hfirst : (m.mergeGroup .empty .default "use").1 with
    | error e => exact absurd (huse.1 ⟨e, hfirst⟩) (by decide)
    | ok stats => exact ⟨stats, rfl, (hok stats hfirst).1⟩
  · have hone : (m.mergeGroup .empty .default "named").1.toOption.map (·.written) = some 1 := by
      decide +kernel
    cases hfirst : (m.mergeGroup .empty .default "named").1 with
    | error e => simp [hfirst, Except.toOption] at hone
    | ok stats =>
      have hwritten : stats.written = 1 := by simpa [hfirst, Except.toOption] using hone
      obtain ⟨-, -, ⟨added, hstore, hlength, -⟩, hagain⟩ := hnamed stats hfirst
      obtain ⟨merged, rfl⟩ := List.length_eq_one_iff.1 (hlength.trans hwritten)
      obtain ⟨stats', hsecond, hnothing, -⟩ := hagain _ List.mem_cons_self
      exact ⟨stats, merged, rfl, hwritten, hstore, stats', hsecond, hnothing⟩

end Merger

end Backslice
