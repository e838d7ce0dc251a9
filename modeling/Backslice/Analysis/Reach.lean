import Backslice.Analysis.Basic
import Backslice.Walk.Spawns

namespace Backslice

namespace Stmt

theorem ids_subset_uses_of_call? {s : Stmt} {c : Call} (h : s.call? = some c) :
    c.ids ⊆ s.uses := by
  cases s with
  | invoke d =>
    simp only [call?, Option.some.injEq] at h
    subst h
    exact fun _ hx => hx
  | assign lhs rhs =>
    simp only [call?, Value.call?] at h
    split at h
    · simp only [Option.some.injEq] at h
      subst h
      intro x hx
      cases lhs <;> simp [uses, Value.ids, hx]
    · cases h
  | _ => simp [call?] at h

theorem ids_subset_uses_of_assign (lhs rhs : Value) : rhs.ids ⊆ (Stmt.assign lhs rhs).uses := by
  intro x hx
  cases lhs <;> simp [uses, hx]

end Stmt

namespace Request

theorem mem_keys_localLive {origin : String} {v : Value} {id : String}
    (h : id ∈ (localLive origin v).keys) : id ∈ v.ids := by
  unfold localLive at h
  split at h
  · rcases Table.mem_keys_insert h with rfl | h
    · simp [Value.ids]
    · simp [Table.keys, Table.empty] at h
  · simp [Table.keys, Table.empty] at h

theorem mem_ids_of_operand? {c : Call} {p : Int} {l : Local} (h : c.operand? p = some (.loc l)) :
    l.name ∈ c.ids := by
  obtain ⟨kind, base, method, args⟩ := c
  unfold Call.operand? at h
  split at h
  · cases base with
    | none => simp at h
    | some b =>
      simp only [Option.map_some, Option.some.injEq, Value.loc.injEq] at h
      subst h
      simp [Call.ids]
  · have hmem : Value.loc l ∈ args := List.mem_of_getElem? h
    have : l.name ∈ Value.idsAll args := by
      rw [Value.idsAll_eq, List.mem_flatMap]
      exact ⟨_, hmem, by simp [Value.ids]⟩
    cases base <;> simp [Call.ids, this]

theorem mem_keys_addOperands {target : String} {c : Call} {positions : List Int} {live : LiveSet}
    (hlive : ∀ id ∈ live.keys, id ∈ c.ids) {id : String}
    (h : id ∈ (positions.foldl (addOperand target c) live).keys) : id ∈ c.ids := by
  induction positions generalizing live with
  | nil => exact hlive id h
  | cons p ps ih =>
    refine ih (fun x hx => ?_) h
    unfold addOperand at hx
    split at hx
    · rename_i l hl
      rcases Table.mem_keys_insert hx with rfl | hx
      · exact mem_ids_of_operand? hl
      · exact hlive x hx
    · exact hlive x hx

theorem mem_keys_operandsLive {target : String} {c : Call} {positions : List Int} {id : String}
    (h : id ∈ (operandsLive target c positions).keys) : id ∈ c.ids :=
  mem_keys_addOperands (fun x hx => by simp [Table.keys, Table.empty] at hx) h

end Request

namespace Criterion

variable {caller target : String} {index : Nat} {live live' : List String}

theorem identityText_congr (h : ∀ x, x ∈ live ↔ x ∈ live') :
    identityText caller target index live = identityText caller target index live' := by
  rw [identityText, Ascending.ofList_congr Ascending.strictOrder_textLt h, identityText]

theorem idOf_congr (h : ∀ x, x ∈ live ↔ x ∈ live') :
    idOf caller target index live = idOf caller target index live' := by
  rw [idOf, identityText_congr h, idOf]

end Criterion

namespace CallGraph

/-- What a graph answers about a symbol are symbols of it. -/
theorem mem_sources {g : CallGraph} {kind : EdgeKind} {target source : String}
    (h : source ∈ g.sources kind target) : source ∈ g.ids ∧ target ∈ g.index.keys := by
  unfold sources at h
  split at h
  · cases h
  · rename_i n hn
    obtain ⟨a, -, ha⟩ := List.mem_filterMap.1 (Ascending.mem_ofList.1 h)
    obtain ⟨s, hs, rfl⟩ := Option.map_eq_some_iff.1 ha
    exact ⟨List.mem_map.2 ⟨s, List.mem_of_getElem? hs, rfl⟩,
      List.mem_map.2 ⟨_, Table.get?_eq_some_iff.1 hn, rfl⟩⟩

end CallGraph

namespace Program

theorem exists_of_bodyOf {p : Program} {text : String} {body : Body}
    (h : p.bodyOf text = .ok body) : ∃ m, MethodSig.parse text = .ok m ∧ p.body m = .ok body := by
  unfold bodyOf at h
  cases hm : MethodSig.parse text with
  | error e => rw [hm] at h; cases h
  | ok m =>
    rw [hm] at h
    exact ⟨m, rfl, h⟩

theorem get?_bodies_of_body {p : Program} {m : MethodSig} {body : Body}
    (h : p.body m = .ok body) : p.bodies.get? m.text = some body := by
  unfold Program.body lookup at h
  split at h
  · cases h
  · split at h
    · cases h
    · split at h
      · cases h
      · split at h
        · rename_i hb
          cases h
          exact hb
        · cases h

theorem mem_bodies_of_bodyOf {p : Program} {text : String} {body : Body}
    (h : p.bodyOf text = .ok body) : body ∈ p.bodies.values := by
  obtain ⟨m, -, hm⟩ := exists_of_bodyOf h
  exact Table.mem_values_of_get? (get?_bodies_of_body hm)

end Program

namespace Analysis

/-- The ways to leave out elements of a list. -/
def choices {α : Type} : List α → List (List α)
  | [] => [[]]
  | x :: xs => choices xs ++ (choices xs).map (x :: ·)

theorem filter_mem_choices {α : Type} (p : α → Bool) (l : List α) : l.filter p ∈ choices l := by
  induction l with
  | nil => simp [choices]
  | cons x xs ih =>
    rw [choices, List.mem_append, List.filter_cons]
    split
    · exact .inr (List.mem_map.2 ⟨_, ih, rfl⟩)
    · exact .inl ih

/-- The methods that are called somewhere in the program. -/
def callees (a : Analysis) : List String :=
  a.program.bodies.values.flatMap fun body =>
    body.filterMap fun i => i.stmt.call?.map (·.method.text)

/-- The ids that a criterion at some instruction of a body can have. -/
def idsAt (a : Analysis) (caller : String) (body : Body) : List String :=
  body.flatMap fun i =>
    (i.stmt.text :: a.build.graph.index.keys).flatMap fun target =>
      (choices i.stmt.uses).map fun live =>
        Criterion.idOf caller target (body.length - 1 - i.index) live

/-- All ids of criteria that walks can lead to. -/
def reachableIds (a : Analysis) : List String :=
  (a.callees ++ a.build.graph.ids).flatMap fun caller =>
    match a.bodyOf? caller with
    | some body => a.idsAt caller body
    | none => []

theorem id_mem_reachableIds {a : Analysis} {caller target : String} {kind : TargetKind}
    {body : Body} {i : Instruction} {depth : Int} {group : String} {positions : List Int}
    {live : LiveSet} (hcaller : caller ∈ a.callees ++ a.build.graph.ids)
    (hbody : a.bodyOf? caller = some body) (hi : i ∈ body)
    (htarget : target ∈ i.stmt.text :: a.build.graph.index.keys)
    (hlive : ∀ id ∈ live.keys, id ∈ i.stmt.uses) :
    (criterionAt caller target kind body i depth group positions live).id ∈ a.reachableIds := by
  rw [reachableIds, List.mem_flatMap]
  refine ⟨caller, hcaller, ?_⟩
  simp only [hbody]
  rw [idsAt, List.mem_flatMap]
  refine ⟨i, hi, List.mem_flatMap.2 ⟨target, htarget, List.mem_map.2 ?_⟩⟩
  refine ⟨i.stmt.uses.filter (· ∈ live.keys), filter_mem_choices _ _, Criterion.idOf_congr ?_⟩
  intro x
  simp only [List.mem_filter, decide_eq_true_eq]
  exact ⟨fun h => h.2, fun h => ⟨hlive x h, h⟩⟩

theorem id_mem_of_mem_callSites {a : Analysis} {w : Walk} {c : Criterion}
    (h : c ∈ a.callSites w) : c.id ∈ a.reachableIds := by
  simp only [callSites] at h
  split at h
  · cases h
  · obtain ⟨caller, hcaller, h⟩ := List.mem_flatMap.1 h
    obtain ⟨hid, htarget⟩ := CallGraph.mem_sources hcaller
    split at h
    · cases h
    · rename_i body hbody
      obtain ⟨i, hi, h⟩ := List.mem_filterMap.1 h
      split at h
      · cases h
      · rename_i call hcall
        split at h
        · cases h
          exact id_mem_reachableIds (List.mem_append_right _ hid) hbody hi
            (List.mem_cons_of_mem _ htarget) fun id hid =>
              Stmt.ids_subset_uses_of_call? hcall (Request.mem_keys_operandsLive hid)
        · cases h

theorem id_mem_of_mem_returnSites {a : Analysis} {w : Walk} {callee : MethodSig} {c : Criterion}
    (hcallee : callee.text ∈ a.callees) (h : c ∈ a.returnSites w callee) :
    c.id ∈ a.reachableIds := by
  simp only [returnSites] at h
  split at h
  · cases h
  · split at h
    · cases h
    · rename_i body hbody
      obtain ⟨i, hi, h⟩ := List.mem_filterMap.1 h
      split at h
      · rename_i v hv
        cases h
        refine id_mem_reachableIds (List.mem_append_left _ hcallee) hbody hi
          (List.mem_cons_self ..) fun id hid => ?_
        rw [hv]
        exact Request.mem_keys_localLive hid
      · cases h

theorem id_mem_of_mem_storeSites {a : Analysis} {w : Walk} {field : FieldSig} {c : Criterion}
    (h : c ∈ a.storeSites w field) : c.id ∈ a.reachableIds := by
  simp only [storeSites] at h
  split at h
  · cases h
  · obtain ⟨writer, hwriter, h⟩ := List.mem_flatMap.1 h
    obtain ⟨hid, htarget⟩ := CallGraph.mem_sources (List.mem_filter.1 hwriter).1
    split at h
    · cases h
    · rename_i body hbody
      obtain ⟨i, hi, h⟩ := List.mem_filterMap.1 h
      split at h
      · rename_i lhs rhs hs
        split at h
        · cases h
          refine id_mem_reachableIds (List.mem_append_right _ hid) hbody hi
            (List.mem_cons_of_mem _ htarget) fun id hid => ?_
          rw [hs]
          exact Stmt.ids_subset_uses_of_assign lhs rhs (Request.mem_keys_localLive hid)
        · cases h
      · cases h

theorem spawnsArise_of_walk? {a : Analysis} {c : Criterion} {w : Walk} (h : a.walk? c = some w) :
    w.body ∈ a.program.bodies.values ∧ w.SpawnsArise := by
  simp only [walk?] at h
  split at h
  · cases h
  · rename_i body hbody
    split at h
    · cases h
      rw [Walk.ofCriterion_body]
      refine ⟨?_, Walk.spawnsArise_ofCriterion _ _ _ _⟩
      unfold bodyOf? at hbody
      cases hb : a.program.bodyOf c.caller with
      | error e => rw [hb] at hbody; cases hbody
      | ok b => rw [hb] at hbody; cases hbody; exact Program.mem_bodies_of_bodyOf hb
    · cases h

/-- Whatever is walked, the criteria that come of it have ids from a list fixed beforehand. -/
theorem id_mem_of_mem_children {a : Analysis} {c d : Criterion} {w : Walk}
    (hw : a.walk? c = some w) (h : d ∈ a.children w) : d.id ∈ a.reachableIds := by
  obtain ⟨hbody, harise⟩ := spawnsArise_of_walk? hw
  rcases List.mem_append.1 h with h | h
  · obtain ⟨s, hs, h⟩ := List.mem_flatMap.1 h
    obtain ⟨i, hi, hs⟩ := harise s hs
    cases s with
    | fieldWriters field => exact id_mem_of_mem_storeSites h
    | downward callee =>
      obtain ⟨call, hcall, rfl⟩ := hs
      have mem : call.method.text ∈ a.callees :=
        List.mem_flatMap.2 ⟨w.body, hbody, List.mem_filterMap.2 ⟨i, hi, by rw [hcall]; rfl⟩⟩
      rw [spawned] at h
      exact id_mem_of_mem_returnSites mem h
  · exact id_mem_of_mem_callSites h

end Analysis

end Backslice
