import Backslice.Proofs.RecordDocument

namespace Backslice

namespace Record

def ids (records : List Record) : List String := records.filterMap nodeId?

theorem mem_ids {records : List Record} {id : String} :
    id ∈ ids records ↔ ∃ r ∈ records, r.nodeId? = some id :=
  List.mem_filterMap

theorem ids_append (records added : List Record) :
    ids (records ++ added) = ids records ++ ids added :=
  List.filterMap_append

structure Link (records : List Record) (group : String) (r s : Record) : Prop where
  mem_left : r ∈ records
  mem_right : s ∈ records
  group_left : r.group = group
  group_right : s.group = group
  lists : ∃ id ∈ r.related, s.nodeId? = some id

/-- Whether the links of its group lead to a slice from the slice of the group's root. -/
def Connected (records : List Record) (r : Record) : Prop :=
  ∃ root ∈ records, root.nodeId? = some r.group ∧ root.group = r.group ∧
    Relation.ReflTransGen (Link records r.group) root r

theorem Connected.mono {records records' : List Record} (hsub : records ⊆ records') {r : Record}
    (h : Connected records r) : Connected records' r := by
  obtain ⟨root, hroot, hid, hgroup, hpath⟩ := h
  refine ⟨root, hsub hroot, hid, hgroup, ?_⟩
  apply Relation.ReflTransGen.mono _ _ _ hpath
  intro s t hlink
  exact { hlink with mem_left := hsub hlink.mem_left, mem_right := hsub hlink.mem_right }

/-- A slice that a connected one of the same group lists is connected. -/
theorem Connected.link {records : List Record} {r s : Record} {id : String}
    (h : Connected records r) (hr : r ∈ records) (hs : s ∈ records) (hgroup : r.group = s.group)
    (hid : id ∈ r.related) (hs' : s.nodeId? = some id) : Connected records s := by
  obtain ⟨root, hroot, hrootId, hrootGroup, hpath⟩ := h
  rw [hgroup] at hrootId hrootGroup hpath
  exact ⟨root, hroot, hrootId, hrootGroup, hpath.tail ⟨hr, hs, hgroup, rfl, id, hid, hs'⟩⟩

/-- What the slices of any number of requests have in common. The ids that are pending are those of
criteria still to be sliced. -/
structure Woven (pending : List String) (records : List Record) : Prop where
  fits : ∀ r ∈ records, r.Fits
  unique : (ids records).Nodup
  closed : ∀ r ∈ records, r.isMerged = false → r.related ⊆ ids records ++ pending
  connected : ∀ r ∈ records, r.isMerged = false → Connected records r

namespace Woven

variable {pending pending' : List String} {records : List Record}

theorem nil : Woven [] [] where
  fits := by simp
  unique := List.nodup_nil
  closed := by simp
  connected := by simp

theorem of_pending (h : Woven pending records) (hsub : pending ⊆ ids records ++ pending') :
    Woven pending' records where
  fits := h.fits
  unique := h.unique
  closed r hr hnode id hid := by
    rcases List.mem_append.1 (h.closed r hr hnode hid) with hin | hin
    · exact List.mem_append_left _ hin
    · exact hsub hin
  connected := h.connected

/-- Merged slices take no part in the links. -/
theorem append_merged (h : Woven pending records) {merged : List Record}
    (hmerged : ∀ r ∈ merged, r.isMerged = true ∧ r.Fits) : Woven pending (records ++ merged) := by
  have hids : ids (records ++ merged) = ids records := by
    have hnone : ids merged = [] :=
      List.filterMap_eq_nil_iff.2 fun r hr => Option.isNone_iff_eq_none.1 (hmerged r hr).1
    rw [ids_append, hnone, List.append_nil]
  have hold {r : Record} (hr : r ∈ records ++ merged) (hnode : r.isMerged = false) :
      r ∈ records := by
    rcases List.mem_append.1 hr with hr | hr
    · exact hr
    · rw [(hmerged r hr).1] at hnode
      cases hnode
  constructor
  · intro r hr
    rcases List.mem_append.1 hr with hr | hr
    · exact h.fits r hr
    · exact (hmerged r hr).2
  · rw [hids]
    exact h.unique
  · intro r hr hnode
    rw [hids]
    exact h.closed r (hold hr hnode) hnode
  · intro r hr hnode
    exact (h.connected r (hold hr hnode) hnode).mono (List.subset_append_left _ _)

/-- A new slice keeps its place if it starts a group or one of its group lists it. -/
theorem append_node {id : String} (h : Woven (id :: pending) records) {r : Record}
    (hid : r.nodeId? = some id) (hnew : id ∉ ids records) (hfits : r.Fits)
    (hplace : r.group = id ∨
      ∃ s ∈ records, s.isMerged = false ∧ s.group = r.group ∧ id ∈ s.related) :
    Woven (pending ++ r.related) (records ++ [r]) := by
  have hids : ids (records ++ [r]) = ids records ++ [id] := by
    rw [ids_append]
    simp [ids, hid]
  have hsub : records ⊆ records ++ [r] := List.subset_append_left _ _
  have hmem : r ∈ records ++ [r] := List.mem_append_right _ (List.mem_singleton_self r)
  constructor
  · intro s hs
    rcases List.mem_append.1 hs with hs | hs
    · exact h.fits s hs
    · rw [List.mem_singleton.1 hs]
      exact hfits
  · rw [hids]
    exact List.nodup_append.2 ⟨h.unique, List.nodup_singleton id, by
      intro x hx y hy
      rw [List.mem_singleton.1 hy]
      rintro rfl
      exact hnew hx⟩
  · intro s hs hnode x hx
    rw [hids]
    rcases List.mem_append.1 hs with hs | hs
    · have hx' := h.closed s hs hnode hx
      simp only [List.mem_append, List.mem_cons] at hx' ⊢
      tauto
    · rw [List.mem_singleton.1 hs] at hx
      simp [hx]
  · intro s hs hnode
    rcases List.mem_append.1 hs with hs | hs
    · exact (h.connected s hs hnode).mono hsub
    · rw [List.mem_singleton.1 hs]
      rcases hplace with hroot | ⟨s, hs, hsnode, hgroup, hlists⟩
      · exact ⟨r, hmem, by rw [hid, hroot], rfl, .refl⟩
      · exact ((h.connected s hs hsnode).mono hsub).link (hsub hs) hmem hgroup hlists hid

end Woven

end Record

namespace Analysis

variable {a : Analysis} {w : Walk} {d : Criterion}

theorem positions_of_mem_children (h : d ∈ a.children w) :
    d.positions = [] ∨ d.positions = w.ordinals.map Call.positionOf := by
  rcases List.mem_append.1 h with h | h
  · obtain ⟨s, -, h⟩ := List.mem_flatMap.1 h
    left
    cases s with
    | downward callee =>
      simp only [spawned, returnSites] at h
      split at h
      · cases h
      · split at h
        · cases h
        · obtain ⟨i, -, h⟩ := List.mem_filterMap.1 h
          split at h
          · cases h
            rfl
          · cases h
    | fieldWriters field =>
      simp only [spawned, storeSites] at h
      split at h
      · cases h
      · obtain ⟨writer, -, h⟩ := List.mem_flatMap.1 h
        split at h
        · cases h
        · obtain ⟨i, -, h⟩ := List.mem_filterMap.1 h
          split at h
          · split at h
            · cases h
              rfl
            · cases h
          · cases h
  · right
    simp only [callSites] at h
    split at h
    · cases h
    · obtain ⟨caller, -, h⟩ := List.mem_flatMap.1 h
      split at h
      · cases h
      · obtain ⟨i, -, h⟩ := List.mem_filterMap.1 h
        split at h
        · cases h
        · split at h
          · cases h
            rfl
          · cases h

theorem isPosition_of_mem_children (h : d ∈ a.children w) :
    ∀ p ∈ d.positions, Call.IsPosition p := by
  intro p hp
  rcases positions_of_mem_children h with hnil | hordinals
  · rw [hnil] at hp
    cases hp
  · rw [hordinals] at hp
    obtain ⟨n, -, rfl⟩ := List.mem_map.1 hp
    exact Call.isPosition_positionOf n

structure Awaits (a : Analysis) (records : List Record) (c : Criterion) : Prop where
  resolves : (a.walk? c).isSome = true
  fits : ∀ p ∈ c.positions, Call.IsPosition p
  place : c.group? = none ∨
    ∃ r ∈ records, r.isMerged = false ∧ r.group = c.rootId ∧ c.id ∈ r.related

theorem Awaits.mono {records records' : List Record} (hsub : records ⊆ records') {c : Criterion}
    (h : a.Awaits records c) : a.Awaits records' c where
  resolves := h.resolves
  fits := h.fits
  place := h.place.imp_right fun ⟨r, hr, hplace⟩ => ⟨r, hsub hr, hplace⟩

end Analysis

namespace Worklist

variable {a : Analysis} {records : List Record} {u v : Worklist}

structure Weaves (a : Analysis) (records : List Record) (w : Worklist) : Prop where
  store : w.store = .ofRecords records
  woven : Record.Woven (w.queue.map Criterion.id) records
  queue : ∀ c ∈ w.queue, a.Awaits records c

section
variable {c : Criterion} {rest : List Criterion}

theorem Weaves.turn_of_stored (hqueue : u.queue = c :: rest) (h : Weaves a records u)
    (hstored : u.store.containsNode c.id = true) (stats : SliceStats) :
    Weaves a records ⟨rest, u.store, stats⟩ := by
  have hwoven := h.woven
  rw [hqueue, List.map_cons] at hwoven
  rw [h.store, Store.containsNode_ofRecords] at hstored
  refine ⟨h.store, hwoven.of_pending (List.cons_subset.2 ⟨?_, ?_⟩), fun d hd => ?_⟩
  · exact List.mem_append_left _ (Record.mem_ids.2 hstored)
  · exact List.subset_append_right _ _
  · exact h.queue d (by simp [hqueue, hd])

/-- The links of the new slice are the ids of the criteria that come with it. -/
theorem Weaves.turn_of_sliced (hqueue : u.queue = c :: rest) (h : Weaves a records u)
    (hnew : u.store.containsNode c.id = false) {r : Record} {children : List Criterion}
    (hid : r.nodeId? = some c.id) (hgroup : r.group = c.rootId) (hfits : r.Fits)
    (hrelated : r.related ⊆ children.map Criterion.id)
    (hchildren : ∀ d ∈ children, a.Awaits (records ++ [r]) d) (stats : SliceStats) :
    Weaves a (records ++ [r]) ⟨rest ++ children, u.store.insert r, stats⟩ := by
  have hwoven := h.woven
  rw [hqueue, List.map_cons] at hwoven
  have hc : a.Awaits records c := h.queue c (by simp [hqueue])
  have habsent : c.id ∉ Record.ids records := by
    intro hmem
    rw [h.store, (Store.containsNode_ofRecords _ _).2 (Record.mem_ids.1 hmem)] at hnew
    cases hnew
  have hplace : r.group = c.id ∨
      ∃ s ∈ records, s.isMerged = false ∧ s.group = r.group ∧ c.id ∈ s.related := by
    rw [hgroup]
    exact hc.place.imp_left fun hroot => by simp [Criterion.rootId, hroot]
  refine ⟨?_, ?_, fun d hd => ?_⟩
  · rw [h.store, Store.insert_ofRecords]
  · refine (hwoven.append_node hid habsent hfits hplace).of_pending fun id hid => ?_
    rw [List.map_append]
    refine List.mem_append_right _ ?_
    exact (List.mem_append.1 hid).elim (List.mem_append_left _) fun hid =>
      List.mem_append_right _ (hrelated hid)
  · rcases List.mem_append.1 hd with hd | hd
    · exact (h.queue d (by simp [hqueue, hd])).mono (List.subset_append_left _ _)
    · exact hchildren d hd

end

theorem awaits_of_mem_children {c d : Criterion} {walk : Walk} (hwalk : a.walk? c = some walk)
    (hd : d ∈ a.children walk) {r : Record} (hr : r ∈ records) (hnode : r.isMerged = false)
    (hgroup : r.group = c.rootId) (hlists : d.id ∈ r.related) : a.Awaits records d := by
  obtain ⟨_, hstands, -⟩ := Analysis.stands_of_mem_children hd
  have hroot : d.rootId = walk.criterion.rootId := by
    rw [Criterion.rootId, hstands.group, Option.getD_some]
  refine ⟨Analysis.isSome_walk?_iff.2 hstands.resolves, Analysis.isPosition_of_mem_children hd,
    .inr ⟨r, hr, hnode, ?_, hlists⟩⟩
  rw [hgroup, hroot, Analysis.criterion_of_walk? hwalk]

theorem Weaves.turn (hturn : Turn a u v) (h : Weaves a records u) :
    ∃ sliced, (∀ r ∈ sliced, r.isMerged = false) ∧ Weaves a (records ++ sliced) v := by
  cases hturn with
  | @slice c rest hqueue =>
    have hc : a.Awaits records c := h.queue c (by simp [hqueue])
    rcases process_cases a { u with queue := rest } c with
      ⟨hstored, heq⟩ | ⟨-, hnone, -⟩ | ⟨hnew, walk, hwalk, heq⟩
    · rw [heq]
      exact ⟨[], by simp, by simpa using h.turn_of_stored hqueue hstored _⟩
    · have hresolves := hc.resolves
      rw [hnone] at hresolves
      cases hresolves
    · rw [heq]
      have hcriterion := Analysis.criterion_of_walk? hwalk
      generalize hr : walk.toRecord c.id ((a.children walk).map Criterion.id).eraseDups = r
      have hid : r.nodeId? = some c.id := by rw [← hr, Walk.toRecord]
      have hgroup : r.group = c.rootId := by rw [← hr, Walk.toRecord, hcriterion]
      have hpositions : r.positions = c.positions := by rw [← hr, Walk.toRecord, hcriterion]
      have hrelated : r.related = ((a.children walk).map Criterion.id).eraseDups := by
        rw [← hr, Walk.toRecord]
      have hnode : r.isMerged = false := by simp [Record.isMerged, hid]
      have hfits : r.Fits := by
        rw [Record.Fits, hpositions]
        exact hc.fits
      refine ⟨[r], by simpa using hnode, h.turn_of_sliced hqueue hnew hid hgroup hfits ?_ ?_ _⟩
      · intro id hid
        rw [hrelated] at hid
        exact List.mem_eraseDups.1 hid
      · intro d hd
        refine awaits_of_mem_children hwalk hd (List.mem_append_right _ (List.mem_singleton_self r))
          hnode hgroup ?_
        rw [hrelated, List.mem_eraseDups]
        exact List.mem_map.2 ⟨d, hd, rfl⟩

/-- Slicing adds slices of nodes only, all roots among them, and leaves nothing pending. -/
theorem sliceAll_woven (h : Record.Woven [] records) {criteria : List Criterion}
    (hcriteria : ∀ c ∈ criteria, a.Awaits records c) (stats : SliceStats) :
    ∃ sliced, (sliceAll a ⟨[], .ofRecords records, stats⟩ criteria).store =
        .ofRecords (records ++ sliced) ∧
      (∀ r ∈ sliced, r.isMerged = false) ∧ Record.Woven [] (records ++ sliced) ∧
      criteria.map Criterion.id ⊆ Record.ids (records ++ sliced) := by
  let start : Worklist := ⟨criteria, .ofRecords records, stats⟩
  have hstart : Weaves a records start :=
    ⟨rfl, h.of_pending (List.nil_subset _), hcriteria⟩
  have hrun : ∃ sliced, (∀ r ∈ sliced, r.isMerged = false) ∧
      Weaves a (records ++ sliced) (run a start) := by
    refine turns_preserve (P := fun w => ∃ sliced, (∀ r ∈ sliced, r.isMerged = false) ∧
      Weaves a (records ++ sliced) w) ?_ (turns_run a start) ⟨[], by simp, by simpa using hstart⟩
    rintro u v hturn ⟨sliced, hnodes, hu⟩
    obtain ⟨more, hmore, hv⟩ := hu.turn hturn
    refine ⟨sliced ++ more, ?_, by rwa [← List.append_assoc]⟩
    intro r hr
    exact (List.mem_append.1 hr).elim (hnodes r) (hmore r)
  obtain ⟨sliced, hnodes, hend⟩ := hrun
  have hwoven := hend.woven
  rw [queue_run] at hwoven
  refine ⟨sliced, hend.store, hnodes, hwoven, ?_⟩
  intro id hid
  obtain ⟨c, hc, rfl⟩ := List.mem_map.1 hid
  have hcontains := containsNode_run_of_mem_queue (w := start) (hcriteria c hc).resolves hc
  rw [hend.store] at hcontains
  exact Record.mem_ids.2 ((Store.containsNode_ofRecords _ _).1 hcontains)

theorem run_of_new {c : Criterion} {w : Walk} (hw : a.walk? c = some w) (rest : List Criterion)
    (records : List Record) (hnew : c.id ∉ Record.ids records) (stats : SliceStats) :
    ∃ stats', run a ⟨c :: rest, .ofRecords records, stats⟩ = run a ⟨rest ++ a.children w,
      .ofRecords (records ++ [w.toRecord c.id ((a.children w).map Criterion.id).eraseDups]),
      stats'⟩ := by
  have hturn : Turn a ⟨c :: rest, .ofRecords records, stats⟩
      (process a ⟨rest, .ofRecords records, stats⟩ c) :=
    .slice (w := ⟨c :: rest, .ofRecords records, stats⟩) rfl
  rw [run_of_turn hturn]
  rcases process_cases a ⟨rest, .ofRecords records, stats⟩ c with
    ⟨hstored, -⟩ | ⟨-, hnone, -⟩ | ⟨-, walk, hwalk, heq⟩
  · exact absurd (Record.mem_ids.2 ((Store.containsNode_ofRecords _ _).1 hstored)) hnew
  · rw [hw] at hnone
    cases hnone
  · rw [hw] at hwalk
    cases hwalk
    rw [heq, Store.insert_ofRecords]
    exact ⟨_, rfl⟩

end Worklist

end Backslice
