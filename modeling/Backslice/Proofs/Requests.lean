import Backslice.Pipeline
import Backslice.Proofs.Memo
import Backslice.Proofs.Merging

namespace Backslice

namespace Merger

variable (p : Program) (config : Config)

/-- Whether a group has a root and all its merged slices: merging it adds nothing. -/
structure Settled (records : List Record) (root : String) : Prop where
  stored : root ∈ Record.ids records
  nothing : newlyMerged p config records root = []

variable {records added : List Record} {root : String}

/-- The paths from a root run through slices that are there already, so new slices change nothing
about what they are merged into. -/
theorem written_append (hwoven : Record.Woven [] records) (hfits : ∀ r ∈ added, r.Fits)
    (hroot : root ∈ Record.ids records) (n : Nat) :
    written p config (Record.index (records ++ added)) root
        (((Record.index (records ++ added)).paths [root]).take n) =
      written p config (Record.index records) root
        (((Record.index records).paths [root]).take n) := by
  have hagree := hwoven.agreeOn_append hfits
  obtain ⟨hpaths, hids⟩ := hagree.paths_eq [root] (List.cons_ne_nil _ _)
    (List.cons_subset.2 ⟨hroot, List.nil_subset _⟩)
  rw [← hpaths]
  refine List.filterMap_congr fun path hpath => ?_
  rw [mergePath_congr]
  intro id hid
  exact (hagree.get? id (hids path (List.mem_of_mem_take hpath) hid)).symm

theorem Settled.append (hwoven : Record.Woven [] records) (hfits : ∀ r ∈ added, r.Fits)
    (h : Settled p config records root) : Settled p config (records ++ added) root := by
  refine ⟨?_, ?_⟩
  · rw [Record.ids_append]
    exact List.mem_append_left _ h.stored
  · have hnothing := h.nothing
    unfold newlyMerged at hnothing ⊢
    split
    · rename_i hnone
      rw [Record.mergedOf_append, List.append_eq_nil_iff] at hnone
      rw [if_pos hnone.1] at hnothing
      rw [written_append p config hwoven hfits h.stored, hnothing]
    · rfl

theorem mergedOf_newlyMerged (hfits : ∀ r ∈ records, r.Fits) (group : String) :
    Record.mergedOf (newlyMerged p config records root) group =
      if root = group then newlyMerged p config records root else [] := by
  have hall {r : Record} (hr : r ∈ newlyMerged p config records root) :=
    of_mem_newlyMerged p config hfits hr
  split
  · rename_i heq
    refine List.filter_eq_self.2 fun r hr => ?_
    simp [(hall hr).1.1, (hall hr).2, heq]
  · rename_i hne
    refine List.filter_eq_nil_iff.2 fun r hr => ?_
    simp [(hall hr).2, hne]

/-- Merging settles a group. -/
theorem settled_newlyMerged (hwoven : Record.Woven [] records) (hroot : root ∈ Record.ids records) :
    Settled p config (records ++ newlyMerged p config records root) root := by
  by_cases hnothing : newlyMerged p config records root = []
  · rw [hnothing, List.append_nil]
    exact ⟨hroot, hnothing⟩
  · refine ⟨?_, if_neg ?_⟩
    · rw [Record.ids_append]
      exact List.mem_append_left _ hroot
    · rw [Record.mergedOf_append, mergedOf_newlyMerged p config hwoven.fits, if_pos rfl]
      exact fun hnil => hnothing (List.append_eq_nil_iff.1 hnil).2

structure Grown (records records' : List Record) : Prop where
  added : ∃ added, records' = records ++ added
  settled : ∀ root, Settled p config records root →
    Record.mergedOf records' root = Record.mergedOf records root

namespace Grown

variable {records' records'' : List Record}

theorem refl (records : List Record) : Grown p config records records where
  added := ⟨[], by simp⟩
  settled _ _ := rfl

theorem settled_mono (hwoven : Record.Woven [] records) (hwoven' : Record.Woven [] records')
    (h : Grown p config records records') (hsettled : Settled p config records root) :
    Settled p config records' root := by
  obtain ⟨added, rfl⟩ := h.added
  exact hsettled.append p config hwoven fun r hr => hwoven'.fits r (List.mem_append_right _ hr)

theorem trans (hwoven : Record.Woven [] records) (hwoven' : Record.Woven [] records')
    (h : Grown p config records records') (h' : Grown p config records' records'') :
    Grown p config records records'' where
  added := by
    obtain ⟨added, rfl⟩ := h.added
    obtain ⟨more, rfl⟩ := h'.added
    exact ⟨added ++ more, List.append_assoc _ _ _⟩
  settled root hsettled :=
    (h'.settled root (h.settled_mono p config hwoven hwoven' hsettled)).trans
      (h.settled root hsettled)

theorem append_nodes (hnodes : ∀ r ∈ added, r.isMerged = false) :
    Grown p config records (records ++ added) where
  added := ⟨added, rfl⟩
  settled root _ := by
    have hnone : Record.mergedOf added root = [] :=
      List.filter_eq_nil_iff.2 fun r hr => by simp [hnodes r hr]
    rw [Record.mergedOf_append, hnone, List.append_nil]

theorem append_newlyMerged (hfits : ∀ r ∈ records, r.Fits) (root : String) :
    Grown p config records (records ++ newlyMerged p config records root) where
  added := ⟨_, rfl⟩
  settled group hsettled := by
    rw [Record.mergedOf_append, mergedOf_newlyMerged p config hfits]
    split
    · rename_i heq
      rw [heq, hsettled.nothing, List.append_nil]
    · rw [List.append_nil]

end Grown

end Merger

theorem Worklist.sliceAll_of_stored (a : Analysis) {store : Store} {criteria : List Criterion}
    (h : ∀ c ∈ criteria, store.containsNode c.id = true) (stats : SliceStats) :
    sliceAll a ⟨[], store, stats⟩ criteria =
      ⟨[], store, { stats with memoized := stats.memoized + criteria.length }⟩ := by
  change run a ⟨criteria, store, stats⟩ = _
  induction criteria generalizing stats with
  | nil =>
    rw [run]
    rfl
  | cons c rest ih =>
    have hturn : Turn a ⟨c :: rest, store, stats⟩
        (process a ⟨rest, store, stats⟩ c) := .slice (w := ⟨c :: rest, store, stats⟩) rfl
    have hprocess : process a ⟨rest, store, stats⟩ c =
        ⟨rest, store, { stats with memoized := stats.memoized + 1 }⟩ :=
      if_pos (h c List.mem_cons_self)
    rw [run_of_turn hturn, hprocess, ih fun d hd => h d (List.mem_cons_of_mem _ hd)]
    simp only [List.length_cons, Worklist.mk.injEq, SliceStats.mk.injEq, true_and, and_true]
    omega

namespace Request

def Fits (r : Request) : Prop := ∀ p ∈ r.positions, Call.IsPosition p

instance (r : Request) : Decidable r.Fits := inferInstanceAs (Decidable (∀ p ∈ r.positions, _))

theorem positions_of_mem_criteria {p : Program} {r : Request} {c : Criterion}
    (h : c ∈ r.criteria p) : c.positions = r.positions := by
  obtain ⟨m, body, i, index, live, -, -, -, -, rfl⟩ := exists_of_mem_criteria h
  rfl

theorem awaits_of_mem_criteria {a : Analysis} {r : Request} (hr : r.Fits) {c : Criterion}
    (h : c ∈ r.criteria a.program) (records : List Record) : a.Awaits records c := by
  obtain ⟨⟨-, hgroup⟩, body, i, hbody, hindex, -⟩ := of_mem_criteria h
  refine ⟨?_, ?_, .inl hgroup⟩
  · rw [Analysis.walk?_of_bodyOf hbody hindex]
    rfl
  · rw [positions_of_mem_criteria h]
    exact hr

end Request

namespace Pipeline

variable (p : Pipeline) {records : List Record}

/-- What the records and the answer to a request have to do with each other, also later on. -/
structure Served (r : Request) (records : List Record) (run : Run) : Prop where
  roots : run.roots = (r.criteria p.program).map Criterion.id
  stored : run.roots ⊆ Record.ids records
  settled : p.config.merge = true →
    ∀ root ∈ run.roots, Merger.Settled p.program p.config records root
  merged : run.merged = if p.config.merge then run.roots.flatMap (Record.mergedOf records) else []

theorem mergeRoot_of_root {m : Merger} {root : String} (hwoven : Record.Woven [] records)
    (h : Merger.Faithful m records) (hroot : root ∈ Record.ids records) :
    let records' := records ++ Merger.newlyMerged p.program p.config records root
    ∃ stats m', p.mergeRoot m root = (.ok (stats, Record.mergedOf records' root), m') ∧
      stats.written = (Merger.newlyMerged p.program p.config records root).length ∧
      Merger.Faithful m' records' ∧ Record.Woven [] records' := by
  intro records'
  obtain ⟨stats, m', heq, hwritten, hfaithful⟩ :=
    h.mergeGroup_of_root p.program p.config hwoven hroot
  have hwoven' : Record.Woven [] records' := hwoven.append_merged fun r hr =>
    (Merger.of_mem_newlyMerged p.program p.config hwoven.fits hr).1
  refine ⟨stats, m', ?_, hwritten, hfaithful, hwoven'⟩
  have hfound := Store.selectAll_ofRecords hwoven'.fits
    (Store.holdAll_mergedPredicates_toJson root)
  simp only [mergeRoot, heq, hfaithful.store]
  rw [hfound]
  rfl

/-- Merging the groups of some roots settles them all; if they are settled, nothing changes. -/
theorem mergeRoots_of_roots {m : Merger} {roots : List String} (hwoven : Record.Woven [] records)
    (h : Merger.Faithful m records) (hroots : roots ⊆ Record.ids records) :
    ∃ stats records',
      p.mergeRoots m roots =
        (.ok (stats, roots.flatMap (Record.mergedOf records')), .ofRecords records') ∧
      Record.Woven [] records' ∧ Merger.Grown p.program p.config records records' ∧
      (∀ root ∈ roots, Merger.Settled p.program p.config records' root) ∧
      ((∀ root ∈ roots, Merger.Settled p.program p.config records root) →
        records' = records ∧ stats.written = 0) := by
  induction roots generalizing m records with
  | nil =>
    refine ⟨{}, records, ?_, hwoven, .refl _ _ records, by simp, fun _ => ⟨rfl, rfl⟩⟩
    rw [mergeRoots, h.store]
    rfl
  | cons root roots ih =>
    obtain ⟨hroot, hroots⟩ := List.cons_subset.1 hroots
    obtain ⟨stats, m₁, heq, hwritten, hfaithful, hwoven₁⟩ :=
      p.mergeRoot_of_root hwoven h hroot
    let records₁ := records ++ Merger.newlyMerged p.program p.config records root
    have hgrown₁ : Merger.Grown p.program p.config records records₁ :=
      .append_newlyMerged _ _ hwoven.fits root
    have hsettled₁ : Merger.Settled p.program p.config records₁ root :=
      Merger.settled_newlyMerged _ _ hwoven hroot
    have hroots₁ : roots ⊆ Record.ids records₁ := by
      intro id hid
      rw [Record.ids_append]
      exact List.mem_append_left _ (hroots hid)
    obtain ⟨more, records₂, heq₂, hwoven₂, hgrown₂, hsettled₂, hsame⟩ :=
      ih hwoven₁ hfaithful hroots₁
    refine ⟨stats.add more, records₂, ?_, hwoven₂, hgrown₁.trans _ _ hwoven hwoven₁ hgrown₂,
      ?_, ?_⟩
    · rw [mergeRoots, heq]
      simp only [heq₂]
      rw [List.flatMap_cons, hgrown₂.settled root hsettled₁]
      rfl
    · intro id hid
      rcases List.mem_cons.1 hid with rfl | hid
      · exact hgrown₂.settled_mono _ _ hwoven₁ hwoven₂ hsettled₁
      · exact hsettled₂ id hid
    · intro hall
      have hnothing := (hall root List.mem_cons_self).nothing
      have hrecords₁ : records₁ = records := by
        simp only [records₁, hnothing, List.append_nil]
      obtain ⟨hrecords, hmore⟩ := hsame fun id hid => by
        rw [show records ++ _ = records from hrecords₁]
        exact hall id (List.mem_cons_of_mem _ hid)
      refine ⟨hrecords.trans hrecords₁, ?_⟩
      rw [hnothing] at hwritten
      simp [MergeStats.add, hwritten, hmore]

theorem sliceAll_woven (hwoven : Record.Woven [] records) {r : Request} (hr : r.Fits) :
    ∃ sliced, (Worklist.sliceAll p.analysis ⟨[], .ofRecords records, {}⟩
        (r.criteria p.program)).store = .ofRecords (records ++ sliced) ∧
      (∀ r ∈ sliced, r.isMerged = false) ∧ Record.Woven [] (records ++ sliced) ∧
      (r.criteria p.program).map Criterion.id ⊆ Record.ids (records ++ sliced) :=
  Worklist.sliceAll_woven hwoven
    (fun _ hc => Request.awaits_of_mem_criteria (a := p.analysis) hr hc records) {}

/-- A request is answered, and the records it adds keep everything in place. -/
theorem slice_woven (hwoven : Record.Woven [] records) {r : Request} (hr : r.Fits) :
    ∃ run records', p.slice (.ofRecords records) r = (.ok run, .ofRecords records') ∧
      Record.Woven [] records' ∧ Merger.Grown p.program p.config records records' ∧
      p.Served r records' run := by
  obtain ⟨sliced, hstore, hnodes, hwoven', hroots⟩ := p.sliceAll_woven hwoven hr
  have hgrown : Merger.Grown p.program p.config records (records ++ sliced) :=
    .append_nodes _ _ hnodes
  simp only [slice, hstore]
  cases hmerge : p.config.merge with
  | false =>
    exact ⟨_, _, rfl, hwoven', hgrown, rfl, hroots, by simp [hmerge], by simp [hmerge]⟩
  | true =>
    obtain ⟨stats, records', heq, hwoven'', hgrown', hsettled, -⟩ :=
      p.mergeRoots_of_roots hwoven' (.ofStore _) hroots
    simp only [heq, if_true]
    refine ⟨_, _, rfl, hwoven'', hgrown.trans _ _ hwoven hwoven' hgrown', rfl,
      fun root hroot => (hsettled root hroot).stored, fun _ => hsettled, ?_⟩
    simp [hmerge]

/-- A request that has been served adds nothing, however often it comes. -/
theorem slice_of_served (hwoven : Record.Woven [] records) {r : Request} {run : Run}
    (h : p.Served r records run) :
    ∃ again, p.slice (.ofRecords records) r = (.ok again, .ofRecords records) ∧
      again.roots = run.roots ∧ again.merged = run.merged ∧
      again.slicing = { memoized := run.roots.length } ∧ again.merging.written = 0 := by
  have hstored : ∀ c ∈ r.criteria p.program,
      (Store.ofRecords records).containsNode c.id = true := by
    intro c hc
    have hid : c.id ∈ run.roots := by
      rw [h.roots]
      exact List.mem_map.2 ⟨c, hc, rfl⟩
    exact (Store.containsNode_ofRecords _ _).2 (Record.mem_ids.1 (h.stored hid))
  have hlength : run.roots.length = (r.criteria p.program).length := by
    rw [h.roots, List.length_map]
  simp only [slice, Worklist.sliceAll_of_stored p.analysis hstored, ← h.roots, hlength]
  cases hmerge : p.config.merge with
  | false =>
    have hmerged := h.merged
    simp only [hmerge, Bool.false_eq_true, if_false] at hmerged
    exact ⟨_, rfl, rfl, hmerged.symm, by simp, rfl⟩
  | true =>
    obtain ⟨stats, records', heq, -, -, -, hsame⟩ :=
      p.mergeRoots_of_roots hwoven (.ofStore records) h.stored
    obtain ⟨rfl, hwritten⟩ := hsame (h.settled hmerge)
    have hmerged := h.merged
    simp only [hmerge, if_true] at hmerged
    simp only [heq, if_true]
    exact ⟨_, rfl, rfl, hmerged.symm, by simp, hwritten⟩

theorem Served.mono {records' : List Record} (hwoven : Record.Woven [] records)
    (hwoven' : Record.Woven [] records') (hgrown : Merger.Grown p.program p.config records records')
    {r : Request} {run : Run} (h : p.Served r records run) : p.Served r records' run where
  roots := h.roots
  stored id hid := by
    obtain ⟨added, rfl⟩ := hgrown.added
    rw [Record.ids_append]
    exact List.mem_append_left _ (h.stored hid)
  settled hmerge root hroot := hgrown.settled_mono _ _ hwoven hwoven' (h.settled hmerge root hroot)
  merged := by
    rw [h.merged]
    cases hmerge : p.config.merge with
    | false => rfl
    | true => exact List.flatMap_congr fun root hroot =>
        (hgrown.settled root (h.settled hmerge root hroot)).symm

def storeAfter (rs : List Request) : Store := rs.foldl (fun s r => (p.slice s r).2) .empty

theorem slices_woven (hwoven : Record.Woven [] records) (rs : List Request)
    (hrs : ∀ r ∈ rs, r.Fits) :
    ∃ records', rs.foldl (fun s r => (p.slice s r).2) (.ofRecords records) = .ofRecords records' ∧
      Record.Woven [] records' ∧ Merger.Grown p.program p.config records records' := by
  induction rs generalizing records with
  | nil => exact ⟨records, rfl, hwoven, .refl _ _ records⟩
  | cons r rs ih =>
    obtain ⟨run, records₁, heq, hwoven₁, hgrown₁, -⟩ :=
      p.slice_woven hwoven (hrs r List.mem_cons_self)
    obtain ⟨records₂, heq₂, hwoven₂, hgrown₂⟩ :=
      ih hwoven₁ fun q hq => hrs q (List.mem_cons_of_mem _ hq)
    refine ⟨records₂, ?_, hwoven₂, hgrown₁.trans _ _ hwoven hwoven₁ hgrown₂⟩
    rw [List.foldl_cons, heq]
    exact heq₂

theorem storeAfter_woven (rs : List Request) (hrs : ∀ r ∈ rs, r.Fits) :
    ∃ records, p.storeAfter rs = .ofRecords records ∧ Record.Woven [] records := by
  obtain ⟨records, heq, hwoven, -⟩ := p.slices_woven .nil rs hrs
  exact ⟨records, heq, hwoven⟩

/-- Whatever is asked before and after, a request that comes again finds all its slices stored, adds
nothing to the store and gets the same roots and merged slices as the first time. -/
theorem slice_again_adds_nothing (before after : List Request) (r : Request)
    (hfits : ∀ q ∈ before ++ r :: after, q.Fits) :
    ∃ first again, (p.slice (p.storeAfter before) r).1 = .ok first ∧
      p.slice (p.storeAfter (before ++ r :: after)) r =
        (.ok again, p.storeAfter (before ++ r :: after)) ∧
      first.roots = (r.criteria p.program).map Criterion.id ∧ again.roots = first.roots ∧
      again.slicing = { memoized := first.roots.length } ∧ again.merging.written = 0 ∧
      again.merged = first.merged := by
  obtain ⟨records, hbefore, hwoven⟩ := p.storeAfter_woven before fun q hq =>
    hfits q (List.mem_append_left _ hq)
  obtain ⟨first, records₁, heq₁, hwoven₁, -, hserved⟩ :=
    p.slice_woven hwoven (hfits r (List.mem_append_right _ List.mem_cons_self))
  obtain ⟨records₂, hafter, hwoven₂, hgrown₂⟩ := p.slices_woven hwoven₁ after fun q hq =>
    hfits q (List.mem_append_right _ (List.mem_cons_of_mem _ hq))
  have hstore : p.storeAfter (before ++ r :: after) = .ofRecords records₂ := by
    rw [storeAfter, List.foldl_append, ← storeAfter, hbefore, List.foldl_cons, heq₁]
    exact hafter
  obtain ⟨again, heq, hroots, hmerged, hslicing, hwritten⟩ :=
    p.slice_of_served hwoven₂ (hserved.mono p hwoven₁ hwoven₂ hgrown₂)
  refine ⟨first, again, ?_, ?_, hserved.roots, hroots, hslicing, hwritten, hmerged⟩
  · rw [hbefore, heq₁]
  · rw [hstore, heq]

theorem slice_again_adds_nothing_twoNames :
    let p : Pipeline := ⟨Worklist.twoNames, .default, .ofProgram ⟨[]⟩ Worklist.twoNames⟩
    let ask := Worklist.askTwoNames
    -- the other request has the same root
    (∀ q ∈ [ask 1] ++ ask 0 :: [ask 1], q.Fits) ∧
    ∃ first again, (p.slice (p.storeAfter [ask 1]) (ask 0)).1 = .ok first ∧
      p.slice (p.storeAfter ([ask 1] ++ ask 0 :: [ask 1])) (ask 0) =
        (.ok again, p.storeAfter ([ask 1] ++ ask 0 :: [ask 1])) ∧
      first.roots = [(Worklist.rootTwoNames 1).id] ∧ again.roots = first.roots ∧
      again.slicing = { memoized := 1 } ∧ again.merging.written = 0 ∧
      again.merged = first.merged := by
  intro p ask
  have hfits : ∀ q ∈ [ask 1] ++ ask 0 :: [ask 1], q.Fits := by decide
  obtain ⟨first, again, hfirst, hagain, hroots, hsame, hslicing, hwritten, hmerged⟩ :=
    slice_again_adds_nothing p [ask 1] [ask 1] (ask 0) hfits
  have hroot : ((ask 0).criteria p.program).map Criterion.id = [(Worklist.rootTwoNames 1).id] := by
    decide +kernel
  rw [hroot] at hroots
  rw [hroots] at hslicing
  exact ⟨hfits, first, again, hfirst, hagain, hroots, hsame, hslicing, hwritten, hmerged⟩

end Pipeline

end Backslice
