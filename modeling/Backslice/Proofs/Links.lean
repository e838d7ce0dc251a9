import Backslice.Proofs.Children
import Backslice.Proofs.Turns

namespace Backslice.Worklist

/-- Whether some turn of a run puts the criterion behind what is left of the queue. -/
def Enqueued (a : Analysis) (start : Worklist) (d : Criterion) : Prop :=
  ∃ w c rest added, Turns a start w ∧ w.queue = c :: rest ∧
    (process a { w with queue := rest } c).queue = rest ++ added ∧ d ∈ added

/-- Whether every link of a slice leads to one of the records or to offspring in the queue. -/
def LinksLead (a : Analysis) (roots : List Criterion) (records : List Record)
    (queue : List Criterion) (r : Record) : Prop :=
  ∀ id ∈ r.related, (∃ r' ∈ records, r'.nodeId? = some id) ∨
    ∃ c ∈ queue, a.IsOffspring roots c ∧ c.id = id

structure Linked (a : Analysis) (roots : List Criterion) (old : List Record) (skipped : Nat)
    (w : Worklist) : Prop where
  queue : ∀ c ∈ w.queue, c ∈ roots ∨ a.IsOffspring roots c
  store : ∃ records, w.store = .ofRecords (old ++ records) ∧
    ∀ r ∈ records, LinksLead a roots (old ++ records) w.queue r
  skipped : w.stats.skipped + w.queue.countP (fun c => (a.walk? c).isNone) ≤
    skipped + roots.countP fun c => (a.walk? c).isNone

section
variable {a : Analysis} {roots : List Criterion} {old : List Record} {skipped : Nat}

theorem isNone_walk?_of_isOffspring {c : Criterion} (h : a.IsOffspring roots c) :
    (a.walk? c).isNone = false := by
  rw [Option.isNone_eq_false_iff]
  exact Analysis.isSome_walk?_iff.2 h.resolves

/-- Links stay closed when the first criterion leaves the queue, if it leaves a record behind or
no link can be waiting for it. -/
theorem LinksLead.tail {records records' : List Record} {c : Criterion} {rest : List Criterion}
    {r : Record} (h : LinksLead a roots records (c :: rest) r) (added : List Criterion)
    (hsub : records ⊆ records')
    (hc : a.IsOffspring roots c → ∃ r' ∈ records', r'.nodeId? = some c.id) :
    LinksLead a roots records' (rest ++ added) r := by
  intro id hid
  rcases h id hid with ⟨r', hr', hid'⟩ | ⟨d, hd, hoff, rfl⟩
  · exact .inl ⟨r', hsub hr', hid'⟩
  · rcases List.mem_cons.1 hd with rfl | hd
    · exact .inl (hc hoff)
    · exact .inr ⟨d, List.mem_append_left _ hd, hoff, rfl⟩

theorem Linked.start (roots : List Criterion) (old : List Record) (stats : SliceStats) :
    Linked a roots old stats.skipped ⟨roots, .ofRecords old, stats⟩ where
  queue _ hc := .inl hc
  store := ⟨[], by simp, by simp⟩
  skipped := Nat.le_refl _

variable {u : Worklist} {c : Criterion} {rest : List Criterion}

theorem Linked.turn_of_stored (hqueue : u.queue = c :: rest) (h : Linked a roots old skipped u)
    (hstored : u.store.containsNode c.id = true) :
    Linked a roots old skipped
      ⟨rest, u.store, { u.stats with memoized := u.stats.memoized + 1 }⟩ := by
  obtain ⟨records, hstore, hlinks⟩ := h.store
  rw [hqueue] at hlinks
  refine ⟨fun d hd => h.queue d (by simp [hqueue, hd]), ⟨records, hstore, fun r hr => ?_⟩, ?_⟩
  · rw [hstore] at hstored
    have hrecord := (Store.containsNode_ofRecords _ _).1 hstored
    simpa using (hlinks r hr).tail [] (fun _ hr' => hr') fun _ => hrecord
  · have hle := h.skipped
    rw [hqueue, List.countP_cons] at hle
    simp only
    omega

theorem Linked.turn_of_unresolved (hqueue : u.queue = c :: rest)
    (h : Linked a roots old skipped u) (hwalk : a.walk? c = none) :
    Linked a roots old skipped
      ⟨rest, u.store, { u.stats with skipped := u.stats.skipped + 1 }⟩ := by
  -- offspring always resolve, so the criterion is a root, and its loss was counted at the start
  have hroot : ¬ a.IsOffspring roots c := by
    intro hoff
    have hsome := isNone_walk?_of_isOffspring hoff
    rw [hwalk] at hsome
    cases hsome
  obtain ⟨records, hstore, hlinks⟩ := h.store
  rw [hqueue] at hlinks
  refine ⟨fun d hd => h.queue d (by simp [hqueue, hd]), ⟨records, hstore, fun r hr => ?_⟩, ?_⟩
  · simpa using (hlinks r hr).tail [] (fun _ hr' => hr') fun hoff => absurd hoff hroot
  · have hle := h.skipped
    rw [hqueue, List.countP_cons, hwalk] at hle
    simp only [Option.isNone_none, if_true] at hle ⊢
    omega

theorem Linked.turn_of_sliced {walk : Walk} {stats : SliceStats} (hqueue : u.queue = c :: rest)
    (h : Linked a roots old skipped u)
    (hchildren : ∀ d ∈ a.children walk, a.IsOffspring roots d)
    (hstats : stats.skipped = u.stats.skipped) :
    Linked a roots old skipped ⟨rest ++ a.children walk, u.store.insert
      (walk.toRecord c.id ((a.children walk).map Criterion.id).eraseDups), stats⟩ := by
  obtain ⟨records, hstore, hlinks⟩ := h.store
  rw [hqueue] at hlinks
  let new := walk.toRecord c.id ((a.children walk).map Criterion.id).eraseDups
  have hnew : new ∈ old ++ (records ++ [new]) := by simp
  refine ⟨fun d hd => ?_, ⟨records ++ [new], ?_, fun r hr => ?_⟩, ?_⟩
  · rcases List.mem_append.1 hd with hd | hd
    · exact h.queue d (by simp [hqueue, hd])
    · exact .inr (hchildren d hd)
  · rw [hstore, Store.insert_ofRecords, List.append_assoc]
  · rcases List.mem_append.1 hr with hr | hr
    · refine (hlinks r hr).tail _ (fun r' hr' => ?_) fun _ => ⟨new, hnew, rfl⟩
      rw [← List.append_assoc]
      exact List.mem_append_left _ hr'
    · -- the links of the new slice are the ids of the children, which are now in the queue
      intro id hid
      rw [List.mem_singleton.1 hr] at hid
      obtain ⟨d, hd, rfl⟩ := List.mem_map.1 (List.mem_eraseDups.1 hid)
      exact .inr ⟨d, List.mem_append_right _ hd, hchildren d hd, rfl⟩
  · have hnone : (a.children walk).countP (fun c => (a.walk? c).isNone) = 0 := by
      rw [List.countP_eq_zero]
      intro d hd
      simp [isNone_walk?_of_isOffspring (hchildren d hd)]
    have hle := h.skipped
    rw [hqueue, List.countP_cons] at hle
    simp only [List.countP_append, hnone, hstats]
    omega

theorem Linked.turn (hup : a.config.maxUpwardDepth < 2 ^ 31)
    (hdown : a.config.maxDownwardDepth < 2 ^ 31)
    (hroots : ∀ root ∈ roots, root.depth = 0 ∧ root.group? = none) {v : Worklist}
    (hturn : Turn a u v) (h : Linked a roots old skipped u) : Linked a roots old skipped v := by
  cases hturn with
  | @slice c rest hqueue =>
    rcases process_cases a { u with queue := rest } c with
      ⟨hstored, heq⟩ | ⟨-, hwalk, heq⟩ | ⟨-, walk, hwalk, heq⟩
    · rw [heq]
      exact Linked.turn_of_stored (u := u) hqueue h hstored
    · rw [heq]
      exact Linked.turn_of_unresolved (u := u) hqueue h hwalk
    · rw [heq]
      have hc := h.queue c (by simp [hqueue])
      exact Linked.turn_of_sliced (u := u) hqueue h
        (fun d hd => Analysis.isOffspring_of_isChild hup hdown hroots hc ⟨walk, hwalk, hd⟩) rfl

theorem isOffspring_of_enqueued (hup : a.config.maxUpwardDepth < 2 ^ 31)
    (hdown : a.config.maxDownwardDepth < 2 ^ 31)
    (hroots : ∀ root ∈ roots, root.depth = 0 ∧ root.group? = none) {stats : SliceStats}
    {d : Criterion} (h : Enqueued a ⟨roots, .ofRecords old, stats⟩ d) : a.IsOffspring roots d := by
  obtain ⟨w, c, rest, added, hturns, hqueue, hadded, hd⟩ := h
  have hlinked := turns_preserve (fun u v => Linked.turn hup hdown hroots) hturns
    (Linked.start roots old stats)
  have hc := hlinked.queue c (by simp [hqueue])
  rcases process_cases a { w with queue := rest } c with
    ⟨-, heq⟩ | ⟨-, -, heq⟩ | ⟨-, walk, hwalk, heq⟩
  · rw [heq] at hadded
    rw [List.self_eq_append_right.1 hadded] at hd
    cases hd
  · rw [heq] at hadded
    rw [List.self_eq_append_right.1 hadded] at hd
    cases hd
  · rw [heq] at hadded
    rw [← List.append_cancel_left hadded] at hd
    exact Analysis.isOffspring_of_isChild hup hdown hroots hc ⟨walk, hwalk, hd⟩

/-- All criteria that a run from fresh roots comes upon can be resolved, within the limits and in
the group of their root. So only roots are ever given up, and at the end every link of a slice of
the run leads to a slice in the store. -/
theorem enqueued_resolve_and_links_close (a : Analysis) (roots : List Criterion)
    (old : List Record) (stats : SliceStats) (hup : a.config.maxUpwardDepth < 2 ^ 31)
    (hdown : a.config.maxDownwardDepth < 2 ^ 31)
    (hroots : ∀ root ∈ roots, root.depth = 0 ∧ root.group? = none) :
    let start : Worklist := ⟨roots, .ofRecords old, stats⟩
    (∀ d, Enqueued a start d → a.IsOffspring roots d) ∧
    (∀ w d rest, Turns a start w → w.queue = d :: rest → Enqueued a start d →
      (process a { w with queue := rest } d).stats.skipped = w.stats.skipped) ∧
    (run a start).stats.skipped ≤
      stats.skipped + roots.countP (fun root => (a.walk? root).isNone) ∧
    ∃ records, (run a start).store = .ofRecords (old ++ records) ∧
      ∀ r ∈ records, ∀ id ∈ r.related, ∃ r' ∈ old ++ records, r'.nodeId? = some id := by
  intro start
  have hend : Linked a roots old stats.skipped (run a start) :=
    turns_preserve (fun u v => Linked.turn hup hdown hroots) (turns_run a start)
      (Linked.start roots old stats)
  refine ⟨fun d hd => isOffspring_of_enqueued hup hdown hroots hd, ?_, ?_, ?_⟩
  · intro w d rest _ _ hd
    have hsome := isNone_walk?_of_isOffspring (isOffspring_of_enqueued hup hdown hroots hd)
    rcases process_cases a { w with queue := rest } d with
      ⟨-, heq⟩ | ⟨-, hwalk, -⟩ | ⟨-, walk, -, heq⟩
    · rw [heq]
    · rw [hwalk] at hsome
      cases hsome
    · rw [heq]
      rfl
  · have hle := hend.skipped
    rw [queue_run] at hle
    simpa using hle
  · obtain ⟨records, hstore, hlinks⟩ := hend.store
    refine ⟨records, hstore, fun r hr id hid => ?_⟩
    rcases hlinks r hr id hid with hin | ⟨c, hc, -⟩
    · exact hin
    · rw [queue_run] at hc
      cases hc

def nameFromHelper : Program :=
  let choose : MethodSig := ⟨"a.B", .string, "choose", []⟩
  let use : MethodSig := ⟨"a.B", .void, "use", [.string]⟩
  let name : Local := ⟨"r1", .string⟩
  Program.empty.addClass <| .ofMembers "a.B" none false []
    [⟨choose, some [.ret (.const (.str "AES"))]⟩,
     ⟨⟨"a.B", .void, "m", []⟩,
      some [.assign (.loc name) (.call ⟨.static, none, choose, []⟩),
        .invoke ⟨.static, none, use, [.loc name]⟩, .retVoid]⟩]

theorem enqueued_resolve_and_links_close_nameFromHelper :
    let a : Analysis := ⟨nameFromHelper, .ofProgram ⟨[]⟩ nameFromHelper, .default⟩
    let root : Criterion :=
      { caller := "<a.B: void m()>", target := "<a.B: void use(java.lang.String)>",
        kind := .invocation, index := 1, live := Table.empty.insert "r1" "use#0" }
    let start : Worklist := ⟨[root], .ofRecords [], {}⟩
    (∀ d, Enqueued a start d → a.IsOffspring [root] d) ∧
    (∀ w d rest, Turns a start w → w.queue = d :: rest → Enqueued a start d →
      (process a { w with queue := rest } d).stats.skipped = w.stats.skipped) ∧
    (run a start).stats.skipped ≤ 0 + [root].countP (fun root => (a.walk? root).isNone) ∧
    ∃ records, (run a start).store = .ofRecords ([] ++ records) ∧
      ∀ r ∈ records, ∀ id ∈ r.related, ∃ r' ∈ [] ++ records, r'.nodeId? = some id := by
  intro a root
  have hroots : ∀ c ∈ [root], c.depth = 0 ∧ c.group? = none := by
    intro c hc
    rw [List.mem_singleton.1 hc]
    exact ⟨rfl, rfl⟩
  exact enqueued_resolve_and_links_close a [root] [] {} (by decide) (by decide) hroots

end

end Backslice.Worklist
