import Mathlib.Data.List.Induction
import Recalc.PathGraph.Calls
import Recalc.Proofs.Graph.Affected
import Recalc.Proofs.Graph.Canonical
import Recalc.Proofs.PathGraph.Explain

/-!
# The order is never out of date

After any calls, every question about the order is answered from the graph as it is then
(`Fresh`), and whether the order has to be computed for that is told by the calls alone
(`stale_after`). Ids, too, are told by the calls alone: the keys of the table are the paths that
were named, each at its first appearance (`keys_after`), and no call takes an id back. As the order
places the smallest id that is ready, of several ready paths it places the one that was named first
(`Sound.next_path`). The main result, `current_after`, puts these together.
-/

namespace Recalc.PathGraph

theorem after_concat (calls : List Call) (call : Call) :
    after (calls ++ [call]) = (call.perform (after calls)).2 := by
  rw [after, List.foldl_concat, ← after]

/-! ### The graphs that calls build -/

theorem Built.perform {g : PathGraph} (h : g.Built) (call : Call) : (call.perform g).2.Built := by
  cases call with
  | update entity map => exact h.update entity map
  | remove entity => exact h.remove entity
  | refreshOrder => exact h.refreshed
  | order => exact h.refreshed
  | evaluationOrder => exact h.refreshed
  | affected roots buffers => exact h.refreshed
  | cyclicPaths => exact h.refreshed
  | explain roots target => exact h

theorem built_after (calls : List Call) : (after calls).Built := by
  induction calls using List.reverseRecOn with
  | nil => exact .empty
  | append_singleton calls call ih => exact after_concat calls call ▸ ih.perform call

/-! ### Since when the order is out of date -/

section Since

variable {starts : List Call → Call → Prop} {ends : Call → Prop}

/-- Among the calls is one that starts something, told by the calls before it, and none behind it
ends that. -/
def Since (starts : List Call → Call → Prop) (ends : Call → Prop) (calls : List Call) : Prop :=
  ∃ before call later, calls = before ++ call :: later ∧ starts before call ∧ ∀ c ∈ later, ¬ ends c

theorem not_since_nil : ¬ Since starts ends [] := by
  rintro ⟨before, call, later, he, -⟩
  simp at he

/-- What the last call decides, and what it leaves to those before it. -/
theorem since_concat {calls : List Call} {call : Call} :
    Since starts ends (calls ++ [call]) ↔
      starts calls call ∨ Since starts ends calls ∧ ¬ ends call := by
  constructor
  · rintro ⟨before, first, later, he, hs, hl⟩
    rcases List.eq_nil_or_concat later with rfl | ⟨later, last, rfl⟩
    · obtain ⟨rfl, hc⟩ := List.append_inj' he rfl
      obtain rfl := List.singleton_inj.1 hc
      exact .inl hs
    · rw [List.concat_eq_append, ← List.cons_append, ← List.append_assoc] at he
      obtain ⟨rfl, hc⟩ := List.append_inj' he rfl
      obtain rfl := List.singleton_inj.1 hc
      exact .inr ⟨⟨before, first, later, rfl, hs, fun c hc => hl c (by simp [hc])⟩,
        hl _ (by simp)⟩
  · rintro (hs | ⟨⟨before, first, later, rfl, hs, hl⟩, he⟩)
    · exact ⟨calls, call, [], rfl, hs, by simp⟩
    · refine ⟨before, first, later ++ [call], by simp, hs, fun c hc => ?_⟩
      rcases List.mem_append.1 hc with hc | hc
      · exact hl c hc
      · exact List.mem_singleton.1 hc ▸ he

end Since

/-- The entity was listed and not taken out since. Also an entity listed without paths is an owner:
taking it out is answered with `true`. -/
def Owner (entity : String) : List Call → Prop :=
  Since (fun _ call => ∃ map, call = .update entity map) (· = .remove entity)

/-- The call changes the graph: it lists the paths of an entity, or takes out those of an owner. -/
def Changes (before : List Call) (call : Call) : Prop :=
  (∃ entity map, call = .update entity map) ∨ ∃ entity, call = .remove entity ∧ Owner entity before

/-- The graph was changed, and no call needed the order since. -/
def Outdated : List Call → Prop := Since Changes (·.needsOrder)

/-! ### What one call does -/

variable {g : PathGraph}

theorem stale_refreshed (g : PathGraph) : g.refreshed.stale = false := by
  rw [refreshed, refreshOrder]
  split
  · rfl
  · exact Bool.eq_false_iff.2 ‹_›

theorem perform_of_needsOrder {call : Call} (h : call.needsOrder = true) :
    (call.perform g).2 = g.refreshed := by
  cases call with
  | update entity map => cases h
  | remove entity => cases h
  | explain roots target => cases h
  | _ => rfl

/-- Listing the paths of an entity lists ids for the entity. -/
theorem Indexed.owned_update (h : g.Indexed) (entity : String) (map : DependencyMap) :
    ∃ nodes, (g.update entity map).owned = g.owned.insert entity nodes := by
  have howned := (h.foldl_install [] map.nodup_keys).owned
  refine ⟨(map.entries.foldl PathGraph.install (g, [])).2, ?_⟩
  rw [← howned]
  rfl

theorem owned_remove (g : PathGraph) (entity : String) :
    (g.remove entity).2.owned = g.owned.erase entity := by
  rw [remove]
  split
  · rename_i hn
    refine SortedMap.ext_get? fun name => ?_
    rw [SortedMap.get?_erase]
    split
    · rename_i he
      rw [he, hn]
    · rfl
  · rfl

theorem remove_fst (g : PathGraph) (entity : String) :
    (g.remove entity).1 = (g.owned.get? entity).isSome := by
  rw [remove]
  split <;> simp [*]

theorem stale_remove (g : PathGraph) (entity : String) :
    (g.remove entity).2.stale = (g.stale || (g.owned.get? entity).isSome) := by
  rw [remove]
  split <;> simp [*]

/-- For which entities ids are listed after a call. -/
theorem Sound.isSome_owned_perform (h : g.Sound) (call : Call) (entity : String) :
    ((call.perform g).2.owned.get? entity).isSome = true ↔
      (∃ map, call = .update entity map) ∨
        (g.owned.get? entity).isSome = true ∧ ¬ call = .remove entity := by
  cases call with
  | update name map =>
    obtain ⟨nodes, ho⟩ := h.owned_update name map
    change ((g.update name map).owned.get? entity).isSome = true ↔ _
    rw [ho, SortedMap.get?_insert]
    split
    · rename_i he
      simp [he]
    · rename_i hne
      simp [Ne.symm hne]
  | remove name =>
    change ((g.remove name).2.owned.get? entity).isSome = true ↔ _
    rw [owned_remove, SortedMap.get?_erase]
    split
    · rename_i he
      simp [he]
    · rename_i hne
      simp [Ne.symm hne]
  | explain roots target => simp [Call.perform]
  | _ =>
    rw [perform_of_needsOrder, h.refreshed_eq]
    · simp
    · rfl

/-- When the order is out of date after a call. -/
theorem stale_perform (g : PathGraph) (call : Call) :
    (call.perform g).2.stale = true ↔
      ((∃ entity map, call = .update entity map) ∨
        ∃ entity, call = .remove entity ∧ (g.owned.get? entity).isSome = true) ∨
      g.stale = true ∧ ¬ call.needsOrder = true := by
  cases call with
  | update name map => simp [Call.perform, update]
  | remove name =>
    change (g.remove name).2.stale = true ↔ _
    rw [stale_remove, Bool.or_eq_true, or_comm]
    simp [Call.needsOrder]
  | explain roots target => simp [Call.perform, Call.needsOrder]
  | _ =>
    rw [perform_of_needsOrder, stale_refreshed]
    · simp [Call.needsOrder]
    · rfl

/-! ### What calls leave behind -/

/-- Ids are listed for owners. -/
theorem isSome_owned_after (calls : List Call) (entity : String) :
    ((after calls).owned.get? entity).isSome = true ↔ Owner entity calls := by
  induction calls using List.reverseRecOn with
  | nil => exact iff_of_false (by simp [after, empty]) not_since_nil
  | append_singleton calls call ih =>
    rw [after_concat, (built_after calls).sound.isSome_owned_perform, Owner, since_concat, ih,
      Owner]

/-- The order is out of date when the graph was changed since a call needed it. -/
theorem stale_after (calls : List Call) : (after calls).stale = true ↔ Outdated calls := by
  induction calls using List.reverseRecOn with
  | nil => exact iff_of_false (by simp [after, empty]) not_since_nil
  | append_singleton calls call ih =>
    rw [after_concat, stale_perform, Outdated, since_concat, ih, Outdated, Changes]
    simp only [isSome_owned_after]

theorem refreshOrder_after (calls : List Call) :
    (after calls).refreshOrder.1 = true ↔ Outdated calls := by
  rw [← stale_after, refreshOrder]
  split <;> simp [*]

theorem remove_after (calls : List Call) (entity : String) :
    ((after calls).remove entity).1 = true ↔ Owner entity calls := by
  rw [remove_fst, isSome_owned_after]

/-! ### Questions are answered from the graph at hand -/

/-- The questions about the order are answered as from an order that is computed for the graph at
hand, and it makes no difference what the walk finds in its buffers. -/
structure Fresh (g : PathGraph) : Prop where
  /-- The order is the order of the graph. -/
  order : (Call.order.perform g).1 = .order (.compute g.graph)
  /-- The paths in order are those of that order. -/
  evaluationOrder :
    (Call.evaluationOrder.perform g).1 = .paths (g.paths (EvaluationOrder.compute g.graph).order)
  /-- So are the ids that roots affect. -/
  affected : ∀ roots buffers, ((Call.affected roots buffers).perform g).1 =
    .ids ((EvaluationOrder.compute g.graph).affected g.graph roots)
  /-- So are the paths on cycles. -/
  cyclicPaths : (Call.cyclicPaths.perform g).1 =
    .paths (g.paths (EvaluationOrder.compute g.graph).cyclicKeys)

theorem Sound.answers (h : g.Sound) : g.Fresh where
  order := by rw [Call.perform, h.refreshed_eq]
  evaluationOrder := by
    simp only [Call.perform, PathGraph.evaluationOrder, currentOrder, h.refreshed_eq]
    rfl
  affected roots buffers := by
    simp only [Call.perform, h.refreshed_eq, EvaluationOrder.affectedIn_fst]
  cyclicPaths := by
    simp only [Call.perform, PathGraph.cyclicPaths, h.refreshed_eq]
    rfl

/-- The order has two parts. -/
theorem Sound.evaluationOrder_eq (h : g.Sound) : g.evaluationOrder.1 =
    g.paths (EvaluationOrder.compute g.graph).acyclic ++
      g.paths (EvaluationOrder.compute g.graph).tail := by
  have hparts := (EvaluationOrder.orders_compute h.graph).order_eq
  rw [paths, paths, ← List.map_append, ← hparts, evaluationOrder, currentOrder, h.refreshed_eq]
  rfl

/-! ### Ids by first appearance -/

theorem ids_install (g : PathGraph) (nodes : List Nat) (entry : String × List String) :
    (install (g, nodes) entry).1.ids = (g.ids.internAll (entry.1 :: entry.2)).2 := rfl

/-- Installing entries lists their paths in the table, where they are not listed yet. -/
theorem keys_foldl_install {g : PathGraph} (h : g.ids.Sound) (nodes : List Nat)
    (entries : List (String × List String)) :
    (entries.foldl install (g, nodes)).1.ids.keys.toList =
      (entries.flatMap fun e => e.1 :: e.2).foldl appendNew g.ids.keys.toList := by
  induction entries generalizing g nodes with
  | nil => rfl
  | cons entry entries ih =>
    have hnext : (install (g, nodes) entry).1.ids.Sound := h.internAll (entry.1 :: entry.2)
    rw [List.foldl_cons, ih hnext, List.flatMap_cons, List.foldl_append, ids_install,
      h.toList_keys_internAll]

/-- A call lists the paths that it names. -/
theorem Sound.keys_perform (h : g.Sound) (call : Call) :
    (call.perform g).2.ids.keys.toList = call.names.foldl appendNew g.ids.keys.toList := by
  cases call with
  | update entity map => exact keys_foldl_install h.ids [] map.entries
  | remove entity =>
    change (g.remove entity).2.ids.keys.toList = _
    rw [remove]
    split <;> rfl
  | explain roots target => rfl
  | _ =>
    rw [perform_of_needsOrder, h.refreshed_eq]
    · rfl
    · rfl

/-- The table lists the paths that were named, each at its first appearance. -/
theorem keys_after (calls : List Call) : (after calls).ids.keys.toList = appearances calls := by
  induction calls using List.reverseRecOn with
  | nil => rfl
  | append_singleton calls call ih =>
    rw [after_concat, (built_after calls).sound.keys_perform, ih, appearances, appearances,
      distinct, distinct, List.flatMap_append, List.foldl_append, List.flatMap_singleton]

/-- The id of a path is the place of its first appearance. -/
theorem id?_after {calls : List Call} {path : String} {id : Nat} :
    (after calls).id? path = some id ↔ (appearances calls)[id]? = some path := by
  rw [(built_after calls).sound.id?_eq_some_iff, Interner.get?, ← keys_after,
    Array.getElem?_toList]

/-- A path keeps its first appearance when more calls follow. -/
theorem appearances_append (calls later : List Call) :
    appearances calls <+: appearances (calls ++ later) := by
  rw [appearances, appearances, List.flatMap_append, distinct, distinct, List.foldl_append,
    foldl_appendNew _ (List.foldl _ _ _)]
  exact List.prefix_append _ _

/-- So it keeps its id. -/
theorem id?_append {calls : List Call} {path : String} {id : Nat} (later : List Call)
    (h : (after calls).id? path = some id) : (after (calls ++ later)).id? path = some id := by
  obtain ⟨rest, hrest⟩ := appearances_append calls later
  rw [id?_after] at h ⊢
  rw [← hrest, List.getElem?_append_left (List.getElem?_eq_some_iff.1 h).1, h]

/-! ### Questions change nothing but the order -/

/-- The graph with no order computed. -/
def unordered (g : PathGraph) : PathGraph := { g with order := .empty, stale := false }

theorem unordered_update (g : PathGraph) (entity : String) (map : DependencyMap) :
    (g.unordered.update entity map).unordered = (g.update entity map).unordered := by
  have hfold : map.entries.foldl install (g.unordered, []) =
      Prod.map unordered id (map.entries.foldl install (g, [])) :=
    @List.foldl_hom _ _ _ (Prod.map unordered id) install install map.entries (g, [])
      fun _ _ => rfl
  rw [update, update, hfold]
  rfl

theorem unordered_remove (g : PathGraph) (entity : String) :
    (g.unordered.remove entity).2.unordered = (g.remove entity).2.unordered := by
  have howned : g.unordered.owned = g.owned := rfl
  rw [remove, remove, howned]
  split <;> rfl

theorem unordered_refreshed (g : PathGraph) : g.refreshed.unordered = g.unordered := by
  rw [refreshed, refreshOrder]
  split <;> rfl

/-- But for the order, a change leaves the same behind in graphs that are the same but for the
order, and a question leaves what it finds. -/
theorem unordered_perform {g other : PathGraph} (h : g.unordered = other.unordered) (call : Call) :
    (call.perform g).2.unordered =
      if call.isChange then (call.perform other).2.unordered else other.unordered := by
  cases call with
  | update entity map =>
    change (g.update entity map).unordered = (other.update entity map).unordered
    rw [← unordered_update, h, unordered_update]
  | remove entity =>
    change (g.remove entity).2.unordered = (other.remove entity).2.unordered
    rw [← unordered_remove, h, unordered_remove]
  | explain roots target => exact h
  | _ =>
    rw [perform_of_needsOrder, unordered_refreshed, h]
    · rfl
    · rfl

/-- Calls leave what the changes among them leave, but for the order. -/
theorem unordered_after (calls : List Call) :
    (after calls).unordered = (after (calls.filter Call.isChange)).unordered := by
  induction calls using List.reverseRecOn with
  | nil => rfl
  | append_singleton calls call ih =>
    rw [after_concat, unordered_perform ih, List.filter_append, List.filter_singleton]
    cases call.isChange with
    | true => rw [if_pos rfl, cond_true, after_concat]
    | false => rw [if_neg Bool.false_ne_true, cond_false, List.append_nil]

/-! ### Ties are broken by first appearance -/

/-- The path can be placed behind the paths of `done`: it is another path of the graph, and all it
reads is among them. -/
def Ready (g : PathGraph) (done : List String) (path : String) : Prop :=
  g.Node path ∧ path ∉ done ∧ ∀ target, g.Reads path target → target ∈ done

section Ties

variable {ids : List Nat} {id : Nat} {path : String}

theorem Indexed.mem_paths_iff (h : g.Indexed) (hm : ∀ i ∈ ids, i ∈ g.graph.nodes)
    (hp : g.ids.get? id = some path) : path ∈ g.paths ids ↔ id ∈ ids := by
  rw [h.mem_paths hm]
  constructor
  · rintro ⟨other, ho, hop⟩
    exact h.id_inj hop hp ▸ ho
  · exact fun hid => ⟨id, hid, hp⟩

/-- Ids can be placed when their paths are ready. -/
theorem Indexed.placeable_iff (h : g.Indexed) (hm : ∀ i ∈ ids, i ∈ g.graph.nodes)
    (hp : g.ids.get? id = some path) :
    g.graph.Placeable ids id ↔ g.Ready (g.paths ids) path := by
  have hnode : g.Node path ↔ id ∈ g.graph.nodes :=
    ⟨fun ⟨other, ho, hop⟩ => h.id_inj hop hp ▸ ho, fun hid => ⟨id, hid, hp⟩⟩
  rw [DependencyGraph.Placeable, Ready, hnode, h.mem_paths_iff hm hp]
  refine and_congr_right fun _ => and_congr_right fun _ => ⟨?_, ?_⟩
  · rintro hd target ⟨a, b, ha, hb, hr⟩
    obtain rfl := h.id_inj ha hp
    exact (h.mem_paths_iff hm hb).2 (hd b hr)
  · intro hr d hd
    obtain ⟨target, ht⟩ := h.named d (h.graph.target hd)
    exact (h.mem_paths_iff hm ht).1 (hr target ⟨id, d, hp, ht, hd⟩)

/-- Each path of the front is ready behind those in front of it, and of the paths that are ready
there it has the smallest id. -/
theorem Indexed.next_path (h : g.Indexed) {pre post : List String}
    (he : g.paths (EvaluationOrder.compute g.graph).acyclic = pre ++ path :: post) :
    g.Ready pre path ∧ ∀ other, g.Ready pre other → other ≠ path →
      ∃ a b, g.ids.get? a = some path ∧ g.ids.get? b = some other ∧ a < b := by
  obtain ⟨ids, rest, hids, rfl, hrest⟩ := List.map_eq_append_iff.1 he
  obtain ⟨id, more, rfl, hid, -⟩ := List.map_eq_cons_iff.1 hrest
  have hm : ∀ i ∈ ids ++ id :: more, i ∈ g.graph.nodes := fun i hi => by
    rw [← hids] at hi
    exact (EvaluationOrder.mem_order_compute h.graph).1 (List.mem_of_mem_take hi)
  obtain ⟨p, hp⟩ := h.named id (hm id (by simp))
  obtain rfl : p = path := (path_of_get? hp).symm.trans hid
  have hdone : ∀ i ∈ ids, i ∈ g.graph.nodes := fun i hi => hm i (List.mem_append_left _ hi)
  obtain ⟨hplace, hleast⟩ := EvaluationOrder.canonical_acyclic h.graph ids id more hids
  refine ⟨(h.placeable_iff hdone hp).1 hplace, fun other ho hne => ?_⟩
  obtain ⟨b, -, hb⟩ := ho.1
  refine ⟨id, b, hp, hb, Nat.compare_eq_lt.1 (hleast b ((h.placeable_iff hdone hb).2 ho) ?_)⟩
  rintro rfl
  exact hne (Option.some.inj (hb.symm.trans hp))

end Ties

/-- The first path was named before the other one. -/
def NamedBefore (calls : List Call) (path other : String) : Prop :=
  (appearances calls).idxOf path < (appearances calls).idxOf other

theorem namedBefore_of_lt {calls : List Call} {path other : String} {a b : Nat}
    (ha : (after calls).ids.get? a = some path) (hb : (after calls).ids.get? b = some other)
    (hlt : a < b) : NamedBefore calls path other := by
  have hplace : ∀ {id path}, (after calls).ids.get? id = some path →
      (appearances calls).idxOf path = id := by
    intro id path hp
    rw [Interner.get?, ← Array.getElem?_toList, keys_after] at hp
    obtain ⟨hid, rfl⟩ := List.getElem?_eq_some_iff.1 hp
    exact (nodup_distinct _).idxOf_getElem id hid
  rw [NamedBefore, hplace ha, hplace hb]
  exact hlt

/-- Of several paths that are ready, the order has the one first that was named first. -/
theorem ties_after {calls : List Call} {pre post : List String} {path : String}
    (he : (after calls).paths (EvaluationOrder.compute (after calls).graph).acyclic =
      pre ++ path :: post) : (after calls).Ready pre path ∧
        ∀ other, (after calls).Ready pre other → other ≠ path → NamedBefore calls path other := by
  obtain ⟨hready, hfirst⟩ := (built_after calls).sound.next_path he
  refine ⟨hready, fun other ho hne => ?_⟩
  obtain ⟨a, b, ha, hb, hlt⟩ := hfirst other ho hne
  exact namedBefore_of_lt ha hb hlt

/-- What no order can place follows as it was named. -/
theorem tail_after (calls : List Call) :
    ((after calls).paths (EvaluationOrder.compute (after calls).graph).tail).Pairwise
      (NamedBefore calls) := by
  have h : (after calls).Sound := (built_after calls).sound
  have horders := EvaluationOrder.orders_compute h.graph
  have hnamed : ∀ i ∈ (EvaluationOrder.compute (after calls).graph).tail,
      (after calls).ids.get? i = some ((after calls).path i) := fun i hi => by
    obtain ⟨path, hp⟩ := h.named i ((horders.mem_order i).1 (List.mem_of_mem_drop hi))
    rw [path_of_get? hp, hp]
  rw [paths, List.pairwise_map]
  refine horders.ascending.imp_of_mem fun {a b} ha hb hlt => ?_
  exact namedBefore_of_lt (hnamed a ha) (hnamed b hb) (Nat.compare_eq_lt.1 hlt)

/-! ### Histories -/

/-- What a history of calls has led to: answers from the graph at hand, an order that is computed
when it has to be, and ids for good. -/
structure Current (calls : List Call) : Prop where
  /-- Questions about the order are answered from the graph at hand. -/
  fresh : (after calls).Fresh
  /-- That graph comes from the changes alone, as do the ids. -/
  unread : (after calls).unordered = (after (calls.filter Call.isChange)).unordered
  /-- Refreshing computes the order if the graph was changed since a call needed the order. -/
  refreshes : (after calls).refreshOrder.1 = true ↔ Outdated calls
  /-- Taking out an entity is answered with `true` if the entity is an owner. -/
  removes : ∀ entity, ((after calls).remove entity).1 = true ↔ Owner entity calls
  /-- The id of a path is the place of its first appearance. -/
  id : ∀ path id, (after calls).id? path = some id ↔ (appearances calls)[id]? = some path
  /-- A path has its id for good. -/
  kept : ∀ later path id, (after calls).id? path = some id →
    (after (calls ++ later)).id? path = some id
  /-- The paths in order are those of the front and those of the tail. -/
  parts : (after calls).evaluationOrder.1 =
    (after calls).paths (EvaluationOrder.compute (after calls).graph).acyclic ++
      (after calls).paths (EvaluationOrder.compute (after calls).graph).tail
  /-- Each path of the front is ready in its place, and was named before the others that are. -/
  ties : ∀ pre path post,
    (after calls).paths (EvaluationOrder.compute (after calls).graph).acyclic =
      pre ++ path :: post → (after calls).Ready pre path ∧
        ∀ other, (after calls).Ready pre other → other ≠ path → NamedBefore calls path other
  /-- The paths of the tail stand as they were named. -/
  tail : ((after calls).paths (EvaluationOrder.compute (after calls).graph).tail).Pairwise
    (NamedBefore calls)

/-- **The order is never out of date**, whatever calls were made: every question about it is
answered as from an order computed anew, refreshing computes it exactly if an entity was listed, or
an owner taken out, since it was last needed, and of several paths that are ready the one that was
named first comes first, also if its entity was taken out and listed again in between. -/
theorem current_after (calls : List Call) : Current calls where
  fresh := (built_after calls).sound.answers
  unread := unordered_after calls
  refreshes := refreshOrder_after calls
  removes := remove_after calls
  id _ _ := id?_after
  kept later _ _ := id?_append later
  parts := (built_after calls).sound.evaluationOrder_eq
  ties _ _ _ := ties_after
  tail := tail_after calls

/-- Ready first is the path that was named first, though its entity was listed anew behind the
other one. -/
example : ((after [.update "B" (.ofList [("B.name", [])]), .update "A" (.ofList [("A.name", [])]),
    .remove "B", .order, .update "B" (.ofList [("B.name", [])])]).evaluationOrder).1 =
    ["B.name", "A.name"] := by decide +kernel

end Recalc.PathGraph
