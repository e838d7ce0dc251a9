import Backslice.Merge.Basic
import Backslice.Proofs.Groups
import Backslice.Proofs.Paths

namespace Backslice

namespace Record

section
variable {records added : List Record} {r : Record} {id : String}

def ofNode? (records : List Record) (id : String) : Option Record :=
  records.find? fun r => r.nodeId? = some id

theorem ofNode?_cons (r : Record) (records : List Record) (id : String) :
    ofNode? (r :: records) id = if r.nodeId? = some id then some r else ofNode? records id := by
  by_cases h : r.nodeId? = some id <;> simp [ofNode?, h]

theorem isSome_ofNode? : (ofNode? records id).isSome = true ↔ id ∈ ids records := by
  simp [ofNode?, List.find?_isSome, mem_ids]

theorem nodeId?_of_ofNode? (h : ofNode? records id = some r) : r.nodeId? = some id := by
  simpa using List.find?_some h

theorem ofNode?_of_mem (hunique : (ids records).Nodup) (hr : r ∈ records)
    (hid : r.nodeId? = some id) : ofNode? records id = some r := by
  induction records with
  | nil => cases hr
  | cons s rest ih =>
    rw [ofNode?_cons]
    by_cases hs : s.nodeId? = some id
    · have hnot : id ∉ ids rest := by
        rw [ids, List.filterMap_cons, hs] at hunique
        exact (List.nodup_cons.1 hunique).1
      rcases List.mem_cons.1 hr with rfl | hr
      · simp [hs]
      · exact absurd (mem_ids.2 ⟨r, hr, hid⟩) hnot
    · have hrest : (ids rest).Nodup := by
        rw [ids, List.filterMap_cons] at hunique
        split at hunique
        · exact hunique
        · exact (List.nodup_cons.1 hunique).2
      rcases List.mem_cons.1 hr with rfl | hr
      · exact absurd hid hs
      · rw [if_neg hs, ih hrest hr]

theorem ofNode?_append_of_mem (h : id ∈ ids records) :
    ofNode? (records ++ added) id = ofNode? records id := by
  obtain ⟨r, hr⟩ := Option.isSome_iff_exists.1 (isSome_ofNode?.2 h)
  have hfind : records.find? (fun r => r.nodeId? = some id) = some r := hr
  rw [hr, ofNode?, List.find?_append, hfind]
  rfl

theorem ofNode?_append_merged (hmerged : ∀ r ∈ added, r.isMerged = true) (id : String) :
    ofNode? (records ++ added) id = ofNode? records id := by
  have hnone : added.find? (fun r => r.nodeId? = some id) = none := by
    rw [List.find?_eq_none]
    intro r hr
    simp [Option.isNone_iff_eq_none.1 (hmerged r hr)]
  rw [ofNode?, List.find?_append, hnone, Option.or_none]
  rfl

def index (records : List Record) : Index := Merger.storedIndex (.ofRecords records)

theorem index_cons (h : r.Fits) (records : List Record) :
    index (r :: records) = match r.nodeId? with
      | some id => Table.insert (index records) id r
      | none => index records := by
  cases hid : r.nodeId? <;>
    simp [index, Merger.storedIndex, Store.ofRecords, ofJson?_toJson h, hid]

theorem get?_index (hfits : ∀ r ∈ records, r.Fits) (id : String) :
    (index records).get? id = ofNode? records id := by
  induction records with
  | nil => rfl
  | cons r rest ih =>
    have hrest := ih fun s hs => hfits s (List.mem_cons_of_mem _ hs)
    rw [index_cons (hfits r List.mem_cons_self), ofNode?_cons]
    cases hr : r.nodeId? with
    | none => simpa using hrest
    | some id' =>
      simp only [Option.some.injEq]
      rw [Table.get?_insert, hrest]
      exact if_congr eq_comm rfl rfl

theorem contains_index (hfits : ∀ r ∈ records, r.Fits) (id : String) :
    (index records).contains id = true ↔ id ∈ ids records := by
  rw [Table.contains_eq_isSome_get?, get?_index hfits, isSome_ofNode?]

def mergedOf (records : List Record) (group : String) : List Record :=
  records.filter fun r => r.isMerged && decide (r.group = group)

theorem mergedOf_append (records added : List Record) (group : String) :
    mergedOf (records ++ added) group = mergedOf records group ++ mergedOf added group :=
  List.filter_append ..

theorem Woven.agreeOn_append (h : Woven [] records) (hfits : ∀ r ∈ added, r.Fits) :
    Index.AgreeOn (index records) (index (records ++ added)) (ids records) := by
  have hall : ∀ r ∈ records ++ added, r.Fits := by
    intro r hr
    exact (List.mem_append.1 hr).elim (h.fits r) (hfits r)
  constructor
  · intro id hid
    rw [get?_index h.fits, get?_index hall, ofNode?_append_of_mem hid]
  · intro id hid r hr
    rw [get?_index h.fits] at hr
    have hmem := List.mem_of_find?_eq_some hr
    have hnode : r.isMerged = false := by
      have hrid : r.nodeId? = some id := by simpa using List.find?_some hr
      simp [isMerged, hrid]
    simpa using h.closed r hmem hnode

/-- Links are steps in the index, so every slice of a group is reached from its root. -/
theorem Woven.reaches (h : Woven [] records) (hr : r ∈ records) (hid : r.nodeId? = some id) :
    Relation.ReflTransGen (index records).Leads r.group id := by
  obtain ⟨root, hroot, hrootId, -, hpath⟩ := h.connected r hr (by simp [isMerged, hid])
  -- the links on the way are all between slices of nodes
  suffices hstep : ∀ s id, Relation.ReflTransGen (Link records r.group) root s → s ∈ records →
      s.nodeId? = some id → Relation.ReflTransGen (index records).Leads r.group id from
    hstep r id hpath hr hid
  intro s id hpath
  induction hpath generalizing id with
  | refl =>
    intro _ hid
    rw [hrootId, Option.some.injEq] at hid
    rw [hid]
  | @tail s t hsteps hlink ih =>
    intro ht htid
    obtain ⟨id', hlists, hid'⟩ := hlink.lists
    rw [htid, Option.some.injEq] at hid'
    subst hid'
    have hsnode : ∃ sid, s.nodeId? = some sid := by
      rcases Relation.ReflTransGen.cases_tail hsteps with rfl | ⟨u, -, hlink'⟩
      · exact ⟨_, hrootId⟩
      · obtain ⟨sid, -, hsid⟩ := hlink'.lists
        exact ⟨sid, hsid⟩
    obtain ⟨sid, hsid⟩ := hsnode
    refine (ih sid hlink.mem_left hsid).tail ⟨s, ?_, hlists, ?_⟩
    · rw [get?_index h.fits, ofNode?_of_mem h.unique hlink.mem_left hsid]
    · rw [contains_index h.fits]
      exact mem_ids.2 ⟨t, ht, htid⟩

end

end Record

namespace Merger

section
variable {m : Merger} {records : List Record}

/-- What was seen of a node counts, or else its slice in the store. -/
theorem get?_index (hstore : m.store = .ofRecords records) (hfits : ∀ r ∈ records, r.Fits)
    (id : String) :
    m.index.get? id = (m.seen.get? id).getD (Record.ofNode? records id) := by
  have hget : m.index.get? id =
      ((m.seen.get? id).map fun found => found).getD ((storedIndex m.store).get? id) := by
    refine Table.get?_foldl_entries (fun t e k => ?_) m.seen _ id
    cases e.2 with
    | none => exact Table.get?_erase t e.1 k
    | some r => exact Table.get?_insert t e.1 k r
  rw [hget, Option.map_id', hstore, ← Record.get?_index hfits]
  rfl

/-- Of the slices of a node in a group, the last one is seen. -/
theorem get?_seeGroup (seen : Table String (Option Record)) (group : List Record) (id : String) :
    (seeGroup seen group).get? id =
      ((Record.ofNode? group.reverse id).map some).or (seen.get? id) := by
  induction group using List.reverseRecOn with
  | nil => rfl
  | append_singleton group r ih =>
    rw [List.reverse_concat, Record.ofNode?_cons, seeGroup, List.foldl_concat, ← seeGroup]
    cases hid : r.nodeId? with
    | none => simpa using ih
    | some id' =>
      simp only [Option.some.injEq]
      rw [Table.get?_insert, ih]
      by_cases heq : id = id' <;> simp [heq, eq_comm]

/-- What is seen while nodes are looked up is what the index has for them. -/
theorem get?_foldl_see {index : Index} {seen : Table String (Option Record)}
    {slice? : String → Option Record} (hindex : ∀ id, index.get? id = slice? id)
    (hseen : ∀ id found, seen.get? id = some found → found = slice? id) (ids : List String) :
    ∀ id found, (ids.foldl (see index) seen).get? id = some found → found = slice? id := by
  induction ids generalizing seen with
  | nil => exact hseen
  | cons next ids ih =>
    apply ih
    intro id found hfound
    unfold see at hfound
    split at hfound
    · exact hseen id found hfound
    · rw [Table.get?_insert] at hfound
      split at hfound
      · rename_i heq
        rw [heq, ← hindex]
        exact (Option.some.inj hfound).symm
      · exact hseen id found hfound

/-- Whether a merger works on the records and what it has seen is what they are. -/
structure Faithful (m : Merger) (records : List Record) : Prop where
  store : m.store = .ofRecords records
  seen : ∀ id found, m.seen.get? id = some found → found = Record.ofNode? records id

namespace Faithful

theorem ofStore (records : List Record) : Faithful (.ofStore (.ofRecords records)) records where
  store := rfl
  seen _ _ h := by cases h

/-- What was seen makes no difference. -/
theorem index_eq (h : Faithful m records) (hfits : ∀ r ∈ records, r.Fits) :
    m.index = Record.index records := by
  apply Table.ext_get?
  intro id
  rw [get?_index h.store hfits, Record.get?_index hfits]
  cases hseen : m.seen.get? id with
  | none => rfl
  | some found => exact h.seen id found hseen

theorem see (h : Faithful m records) (hfits : ∀ r ∈ records, r.Fits) (ids : List String) :
    Faithful ⟨m.store, ids.foldl (Merger.see (Record.index records)) m.seen⟩ records where
  store := h.store
  seen := get?_foldl_see (Record.get?_index hfits) h.seen ids

theorem seeGroup (h : Faithful m records) (hunique : (Record.ids records).Nodup)
    {group : List Record} (hgroup : group ⊆ records) :
    Faithful ⟨m.store, Merger.seeGroup m.seen group⟩ records where
  store := h.store
  seen id found hfound := by
    rw [get?_seeGroup] at hfound
    cases hlast : Record.ofNode? group.reverse id with
    | none => exact h.seen id found (by simpa [hlast] using hfound)
    | some r =>
      have hr : r ∈ group := List.mem_reverse.1 (List.mem_of_find?_eq_some hlast)
      rw [Record.ofNode?_of_mem hunique (hgroup hr) (Record.nodeId?_of_ofNode? hlast)]
      simpa [hlast] using hfound.symm

/-- Merged slices are not looked up by node id. -/
theorem append_merged (h : Faithful m records) {merged : List Record}
    (hmerged : ∀ r ∈ merged, r.isMerged = true) :
    Faithful ⟨.ofRecords (records ++ merged), m.seen⟩ (records ++ merged) where
  store := rfl
  seen id found hfound := by
    rw [Record.ofNode?_append_merged hmerged]
    exact h.seen id found hfound

end Faithful

end

def Merged.record? : Merged → Option Record
  | .dropped => none
  | .written r _ _ => some r

section
variable (p : Program) (config : Config)

def written (index : Index) (root : String) (paths : List (List String)) : List Record :=
  paths.filterMap fun path => (mergePath p config index root path).record?

theorem written_cons (index : Index) (root : String) (path : List String)
    (paths : List (List String)) :
    written p config index root (path :: paths) =
      (mergePath p config index root path).record?.toList ++
        written p config index root paths := by
  rw [written, List.filterMap_cons]
  cases (mergePath p config index root path).record? <;> rfl

/-- Every path is counted, and the slices that are written go behind the documents. -/
theorem foldl_addPath (index : Index) (root : String) (paths : List (List String))
    (stats : MergeStats) (store : Store) :
    let added := written p config index root paths
    let result := paths.foldl (addPath p config index root) (stats, store)
    result.2 = ⟨store.documents ++ added.map Record.toJson⟩ ∧
      result.1.paths = stats.paths + paths.length ∧
      result.1.written = stats.written + added.length ∧
      result.1.dropped + added.length = stats.dropped + paths.length := by
  intro added result
  induction paths generalizing stats store with
  | nil => simp [added, result, written]
  | cons path paths ih =>
    simp only [added, result, List.foldl_cons, addPath, written_cons]
    cases hpath : mergePath p config index root path with
    | dropped =>
      obtain ⟨hstore, hpaths, hwritten, hdropped⟩ := ih
        { stats with paths := stats.paths + 1, dropped := stats.dropped + 1 } store
      simp only [Merged.record?, Option.toList_none, List.nil_append, List.length_cons]
      dsimp only at hpaths hwritten hdropped
      exact ⟨hstore, by omega, hwritten, by omega⟩
    | written r dead folded =>
      obtain ⟨hstore, hpaths, hwritten, hdropped⟩ := ih
        { stats with
          paths := stats.paths + 1, written := stats.written + 1
          deadLines := stats.deadLines + dead, foldedLines := stats.foldedLines + folded }
        (store.insert r)
      simp only [Merged.record?, Option.toList_some, List.singleton_append, List.map_cons,
        List.length_cons]
      dsimp only at hpaths hwritten hdropped
      exact ⟨by rw [hstore, Store.insert, List.append_assoc]; rfl, by omega, by omega, by omega⟩

theorem mergePath_congr {i j : Index} {root : String} {path : List String}
    (h : ∀ id ∈ path, i.get? id = j.get? id) :
    mergePath p config i root path = mergePath p config j root path := by
  unfold mergePath
  rw [List.filterMap_congr h]

theorem of_mergePath {index : Index} {root : String} {path : List String} {r : Record}
    (h : (mergePath p config index root path).record? = some r) :
    r.isMerged = true ∧ r.group = root ∧
      ∃ id ∈ path, ∃ s, index.get? id = some s ∧ r.positions = s.positions := by
  simp only [mergePath] at h
  split at h
  · cases h
  · rename_i last hlast
    split at h
    · cases h
    · cases h
      have hmem := List.mem_reverse.1 (List.mem_of_getLast? hlast)
      obtain ⟨id, hid, hget⟩ := List.mem_filterMap.1 hmem
      exact ⟨rfl, rfl, id, hid, last, hget, rfl⟩

/-- The slices that merging a group adds. A group that has merged slices is left alone. -/
def newlyMerged (records : List Record) (root : String) : List Record :=
  if Record.mergedOf records root = [] then
    written p config (Record.index records) root
      (((Record.index records).paths [root]).take config.maxMergePaths)
  else []

variable {m : Merger} {records : List Record} {root : String}

theorem of_mem_newlyMerged (hfits : ∀ r ∈ records, r.Fits) {r : Record}
    (h : r ∈ newlyMerged p config records root) :
    (r.isMerged = true ∧ r.Fits) ∧ r.group = root := by
  unfold newlyMerged at h
  split at h
  · obtain ⟨path, -, hpath⟩ := List.mem_filterMap.1 h
    obtain ⟨hmerged, hgroup, id, -, s, hs, hpositions⟩ := of_mergePath p config hpath
    rw [Record.get?_index hfits] at hs
    refine ⟨⟨hmerged, ?_⟩, hgroup⟩
    rw [Record.Fits, hpositions]
    exact hfits s (List.mem_of_find?_eq_some hs)
  · cases h

theorem mergeGroup_of_merged (hstore : m.store = .ofRecords records)
    (hmerged : Record.mergedOf records root ≠ []) :
    m.mergeGroup p config root = (.ok {}, m) := by
  have hselect := Store.select_ofRecords records
    (Store.holdAll_mergedPredicates_toJson root)
  unfold mergeGroup
  rw [hstore, hselect, if_pos]
  simpa [Record.mergedOf] using hmerged

/-- The rest of merging, once the group is looked up: the first paths from the root are merged, if
that has a slice. -/
def mergeIndexed (m : Merger) (index : Index) (root : String) :
    Except SliceError MergeStats × Merger :=
  if index.contains root then
    let found := index.firstPaths (config.maxMergePaths + 1) [root]
    let visited := found.flatten.flatMap fun id => id :: relatedOf index id
    let result := ((index.paths [root]).take config.maxMergePaths).foldl
      (addPath p config index root) ({}, m.store)
    (.ok { result.1 with truncated := config.maxMergePaths < (index.paths [root]).length },
      ⟨result.2, visited.foldl (see index) m.seen⟩)
  else
    (.error (.unresolved ("slice group root " ++ root)), m)

theorem mergeGroup_of_unmerged (hstore : m.store = .ofRecords records)
    (hfits : ∀ r ∈ records, r.Fits) (hnone : Record.mergedOf records root = [])
    {seen : Table String (Option Record)} {index : Index}
    (hseen : seeGroup m.seen (records.filter fun r => r.group = root) = seen)
    (hindex : Merger.index ⟨m.store, seen⟩ = index) :
    m.mergeGroup p config root =
      mergeIndexed p config ⟨m.store, see index seen root⟩ index root := by
  have hselect := Store.select_ofRecords records
    (Store.holdAll_mergedPredicates_toJson root)
  have hgroup := Store.selectAll_ofRecords hfits (Store.holdAll_groupPredicate_toJson root)
  have hempty : (!(m.store.select (Store.mergedPredicates root)).isEmpty) = false := by
    rw [hstore, hselect]
    simpa [Record.mergedOf] using hnone
  rw [← hstore] at hgroup
  unfold mergeGroup mergeIndexed
  rw [if_neg (by simp [hempty])]
  simp only [hgroup, hseen, hindex, Index.take_firstPaths_succ, Index.lt_length_firstPaths_iff]
  cases index.contains root <;> rfl

section
variable (hwoven : Record.Woven [] records) (h : Faithful m records)
  (hnone : Record.mergedOf records root = [])
include hwoven h hnone

/-- The lookup of the group brings nothing new. -/
theorem exists_mergeGroup_eq : ∃ seen, Faithful ⟨m.store, seen⟩ records ∧
    m.mergeGroup p config root =
      mergeIndexed p config ⟨m.store, seen⟩ (Record.index records) root := by
  have hseen : Faithful ⟨m.store, seeGroup m.seen (records.filter fun r => r.group = root)⟩
      records := h.seeGroup hwoven.unique (List.filter_subset_self _)
  exact ⟨_, hseen.see hwoven.fits [root],
    mergeGroup_of_unmerged p config h.store hwoven.fits hnone rfl (hseen.index_eq hwoven.fits)⟩

/-- A group whose root has a slice is merged along the first paths from the root. -/
theorem mergeGroup_of_root (hroot : root ∈ Record.ids records) :
    let paths := (Record.index records).paths [root]
    let result := (paths.take config.maxMergePaths).foldl
      (addPath p config (Record.index records) root) ({}, m.store)
    ∃ seen, m.mergeGroup p config root =
        (.ok { result.1 with truncated := config.maxMergePaths < paths.length },
          ⟨result.2, seen⟩) ∧
      Faithful ⟨result.2, seen⟩ (records ++ newlyMerged p config records root) := by
  intro paths result
  obtain ⟨seen, hseen, heq⟩ := exists_mergeGroup_eq p config hwoven h hnone
  rw [mergeIndexed, if_pos ((Record.contains_index hwoven.fits root).2 hroot)] at heq
  refine ⟨_, heq, ?_⟩
  have hadded : newlyMerged p config records root =
      written p config (Record.index records) root (paths.take config.maxMergePaths) :=
    if_pos hnone
  have hstore : result.2 = .ofRecords (records ++ newlyMerged p config records root) := by
    simp only [result, h.store, hadded]
    rw [(foldl_addPath p config (Record.index records) root _ {} (.ofRecords records)).1]
    simp [Store.ofRecords]
  rw [hstore]
  exact (hseen.see hwoven.fits _).append_merged fun r hr =>
    (of_mem_newlyMerged p config hwoven.fits hr).1.1

end

/-- Whatever the root, a merger stays faithful and only adds merged slices. -/
theorem Faithful.mergeGroup (hwoven : Record.Woven [] records) (h : Faithful m records)
    (root : String) :
    ∃ merged, (∀ r ∈ merged, r.isMerged = true ∧ r.Fits) ∧
      Faithful (m.mergeGroup p config root).2 (records ++ merged) := by
  by_cases hnone : Record.mergedOf records root = []
  · by_cases hroot : root ∈ Record.ids records
    · obtain ⟨seen, heq, hfaithful⟩ := mergeGroup_of_root p config hwoven h hnone hroot
      refine ⟨newlyMerged p config records root, fun r hr =>
        (of_mem_newlyMerged p config hwoven.fits hr).1, ?_⟩
      rw [heq]
      exact hfaithful
    · obtain ⟨seen, hseen, heq⟩ := exists_mergeGroup_eq p config hwoven h hnone
      rw [mergeIndexed, if_neg fun hcontains => hroot
        ((Record.contains_index hwoven.fits root).1 hcontains)] at heq
      refine ⟨[], by simp, ?_⟩
      rw [heq, List.append_nil]
      exact hseen
  · refine ⟨[], by simp, ?_⟩
    rw [mergeGroup_of_merged p config h.store hnone, List.append_nil]
    exact h

/-- Merging a group whose root has a slice succeeds. -/
theorem Faithful.mergeGroup_of_root (hwoven : Record.Woven [] records) (h : Faithful m records)
    (hroot : root ∈ Record.ids records) :
    ∃ stats m', m.mergeGroup p config root = (.ok stats, m') ∧
      stats.written = (newlyMerged p config records root).length ∧
      Faithful m' (records ++ newlyMerged p config records root) := by
  by_cases hnone : Record.mergedOf records root = []
  · obtain ⟨seen, heq, hfaithful⟩ := Merger.mergeGroup_of_root p config hwoven h hnone hroot
    refine ⟨_, _, heq, ?_, hfaithful⟩
    simp only [h.store, newlyMerged, if_pos hnone]
    rw [(foldl_addPath p config (Record.index records) root _ {} (.ofRecords records)).2.2.1]
    exact Nat.zero_add _
  · have hnothing : newlyMerged p config records root = [] := if_neg hnone
    refine ⟨_, _, mergeGroup_of_merged p config h.store hnone, ?_, ?_⟩
    · rw [hnothing]
      rfl
    · rwa [hnothing, List.append_nil]

end

end Merger

end Backslice
