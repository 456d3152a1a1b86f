import Recalc.Proofs.Evaluator.Calls

/-!
# Loading records into an empty evaluator

Tidy records with different proper names are loaded without a complaint, and the tree consists of
these records afterwards (`Coherent.load_empty`). So the records of a regular tree can be loaded
into a new evaluator with the same settings, which then has the same records
(`Coherent.exists_reload`).
-/

namespace Recalc

/-- Records that can be loaded: under different proper names, with keys of paths inside. -/
structure Loadable (records : List EntityRecord) : Prop where
  /-- The names are different. -/
  nodup : (records.map (·.name)).Nodup
  /-- The records are well-formed. -/
  wellFormed : ∀ r ∈ records, r.WellFormed

theorem Loadable.tidy {records : List EntityRecord} (h : Loadable records) :
    (Call.load records).Tidy := fun r hr => (h.wellFormed r hr).entity

/-- The records of a regular tree can be loaded. -/
theorem Tree.Regular.loadable {t : Tree} (h : t.Regular) : Loadable t.toList where
  nodup := h.map_name_toList ▸ h.nodup
  wellFormed _ hr := h.wellFormed (h.mem_toList.1 hr)

/-- A widget that shows a greeting. -/
def EntityRecord.greeting : EntityRecord :=
  ⟨.ofName "Greeting" .widget, ⟨[("text", .string "hello")]⟩⟩

/-- A widget that repeats what the greeting shows. -/
def EntityRecord.echo : EntityRecord :=
  ⟨(EntityConfig.ofName "Echo" .widget).withDynamicPath "text",
    ⟨[("text", .string "\x7b\x7b Greeting.text \x7d\x7d")]⟩⟩

/-- A greeting and its echo can be loaded. -/
theorem loadable_echo : Loadable [.echo, .greeting] where
  nodup := by decide
  wellFormed r hr := by
    have hkey : Path.IsKey "text" := ⟨by decide, by decide⟩
    rw [List.mem_pair] at hr
    rcases hr with rfl | rfl
    · exact ⟨by decide, List.pairwise_singleton _ _, hkey, trivial, trivial⟩
    · exact ⟨by decide, List.pairwise_singleton _ _, hkey, trivial, trivial⟩

/-! ### The tree of the records -/

/-- Records stored under different names are found again. -/
theorem Tree.get?_foldl_upsert {records : List EntityRecord}
    (h : (records.map (·.name)).Nodup) (t : Tree) (name : String) :
    (∀ r ∈ records, r.name = name → (records.foldl Tree.upsert t).get? name = some r) ∧
      (name ∉ records.map (·.name) → (records.foldl Tree.upsert t).get? name = t.get? name) := by
  induction records generalizing t with
  | nil => exact ⟨by simp, fun _ => rfl⟩
  | cons r records ih =>
    rw [List.map_cons, List.nodup_cons] at h
    obtain ⟨hsame, hother⟩ := ih h.2 (t.upsert r)
    constructor
    · intro q hq he
      rcases List.mem_cons.1 hq with rfl | hq
      · rw [List.foldl_cons, hother (he ▸ h.1), Tree.get?_upsert, if_pos he.symm]
      · exact hsame q hq he
    · intro hn
      rw [List.map_cons, List.mem_cons, not_or] at hn
      rw [List.foldl_cons, hother hn.2, Tree.get?_upsert, if_neg hn.1]

/-- The records of a regular tree, stored anew, are found as before. -/
theorem Tree.Regular.get?_foldl_toList {t : Tree} (h : t.Regular) (name : String) :
    (t.toList.foldl Tree.upsert .empty).get? name = t.get? name := by
  obtain ⟨hsame, hother⟩ := Tree.get?_foldl_upsert h.loadable.nodup .empty name
  cases hr : t.get? name with
  | some r =>
    have hn := h.named hr
    exact hsame r (h.mem_toList.2 (hn.symm ▸ hr)) hn
  | none =>
    refine hother fun hm => ?_
    rw [h.map_name_toList, h.registered] at hm
    obtain ⟨r, he⟩ := hm
    rw [hr] at he
    cases he

/-! ### The checks -/

namespace Evaluator

theorem foldlM_checkNames {names : List String} (hp : ∀ n ∈ names, Path.isEntityName n = true)
    (hn : names.Nodup) (seen : SortedSet String) (hs : ∀ n ∈ names, n ∉ seen) :
    ∃ seen', names.foldlM (fun seen name => (do
      Tree.checkName name
      if SortedSet.contains seen name then throw (.duplicateEntity name)
      return seen.insert name : Except Rejection (SortedSet String))) seen = .ok seen' := by
  induction names generalizing seen with
  | nil => exact ⟨seen, rfl⟩
  | cons name names ih =>
    obtain ⟨hname, hp⟩ := List.forall_mem_cons.1 hp
    obtain ⟨hout, hn⟩ := List.nodup_cons.1 hn
    obtain ⟨hfresh, hs⟩ := List.forall_mem_cons.1 hs
    have hc : SortedSet.contains seen name = false :=
      Bool.eq_false_iff.2 (mt SortedSet.contains_eq_true_iff.1 hfresh)
    obtain ⟨seen', he⟩ := ih hp hn (seen.insert name) fun n hm => by
      rw [SortedSet.mem_insert, not_or]
      exact ⟨fun heq => hout (heq ▸ hm), hs n hm⟩
    refine ⟨seen', ?_⟩
    rw [List.foldlM_cons, Tree.checkName, if_pos hname, hc]
    exact he

theorem checkNames_of_loadable {records : List EntityRecord} (h : Loadable records) :
    checkNames (records.map (·.name)) = .ok () := by
  obtain ⟨seen, he⟩ := foldlM_checkNames
    (List.forall_mem_map.2 fun r hr => (h.wellFormed r hr).proper)
    h.nodup .empty fun n _ => SortedSet.not_mem_empty n
  rw [checkNames, he]
  rfl

/-- Names that pass the check are proper. -/
theorem proper_of_checkNames {names : List String} (h : checkNames names = .ok ()) :
    ∀ name ∈ names, Path.isEntityName name = true := by
  obtain ⟨seen, hseen, -⟩ := bind_eq_ok.1 h
  refine forall_of_foldlM_ok (fun s name s' hstep => ?_) hseen
  obtain ⟨_, hname, -⟩ := bind_eq_ok.1 hstep
  rw [Tree.checkName] at hname
  split at hname
  · assumption
  · cases hname

/-- Names that pass the check are different. -/
theorem nodup_of_foldlM_checkNames {names : List String} {seen seen' : SortedSet String}
    (h : names.foldlM (fun seen name => (do
      Tree.checkName name
      if SortedSet.contains seen name then throw (.duplicateEntity name)
      return seen.insert name : Except Rejection (SortedSet String))) seen = .ok seen') :
    names.Nodup ∧ ∀ n ∈ names, n ∉ seen := by
  induction names generalizing seen with
  | nil => exact ⟨List.nodup_nil, fun _ hn => by cases hn⟩
  | cons name names ih =>
    obtain ⟨mid, hstep, hrest⟩ := foldlM_cons_eq_ok.1 h
    obtain ⟨_, -, hstep⟩ := bind_eq_ok.1 hstep
    split at hstep
    · cases hstep
    · rename_i hfresh
      cases hstep
      obtain ⟨hnodup, hout⟩ := ih hrest
      refine ⟨List.nodup_cons.2 ⟨fun hm => ?_, hnodup⟩, List.forall_mem_cons.2 ⟨?_, ?_⟩⟩
      · exact hout name hm (SortedSet.mem_insert.2 (.inl rfl))
      · exact mt SortedSet.contains_eq_true_iff.2 hfresh
      · exact fun n hn hm => hout n hn (SortedSet.mem_insert.2 (.inr hm))

/-- Records that a load accepts can be loaded, if they are tidy. -/
theorem loadable_of_checkNames {records : List EntityRecord}
    (h : checkNames (records.map (·.name)) = .ok ()) (ht : (Call.load records).Tidy) :
    Loadable records where
  nodup := by
    obtain ⟨seen, hseen, -⟩ := bind_eq_ok.1 h
    exact (nodup_of_foldlM_checkNames hseen).1
  wellFormed r hr := ⟨proper_of_checkNames h _ (List.mem_map_of_mem hr), ht r hr⟩

theorem checkNames_of_load {e e' : Evaluator} {records : List EntityRecord} {u : Update}
    (h : e.load records = (e', .ok u)) : checkNames (records.map (·.name)) = .ok () := by
  rw [load] at h
  split at h
  · cases h
  · assumption

/-- Different entities that exist can be removed one after another. -/
theorem foldlM_change_remove {names : List String} (hn : names.Nodup) {o : Outlook}
    (ho : ∀ n ∈ names, n ∈ o.names) :
    ∃ o', (names.map StructuralChange.remove).foldlM Outlook.change o = .ok o' := by
  induction names generalizing o with
  | nil => exact ⟨o, rfl⟩
  | cons name names ih =>
    obtain ⟨hout, hn⟩ := List.nodup_cons.1 hn
    obtain ⟨hname, ho⟩ := List.forall_mem_cons.1 ho
    have hrest : ∀ n ∈ names, n ∈ (o.after (.remove name)).names := by
      intro n hm
      have hne : n ≠ (StructuralChange.remove name).entity := ne_of_mem_of_not_mem hm hout
      rw [Outlook.mem_names_after, if_neg hne]
      exact ho n hm
    obtain ⟨o', ho'⟩ := ih hn hrest
    exact ⟨o', foldlM_cons_eq_ok.2 ⟨_, Outlook.change_eq_ok.2 ⟨hname, rfl⟩, ho'⟩⟩

/-- Records with proper names can be stored. -/
theorem foldlM_change_upsert {records : List EntityRecord}
    (h : ∀ r ∈ records, Path.isEntityName r.name = true) (o : Outlook) :
    ∃ o', (records.map StructuralChange.upsert).foldlM Outlook.change o = .ok o' := by
  induction records generalizing o with
  | nil => exact ⟨o, rfl⟩
  | cons r records ih =>
    obtain ⟨hr, h⟩ := List.forall_mem_cons.1 h
    obtain ⟨o', ho⟩ := ih h (o.after (.upsert r))
    exact ⟨o', foldlM_cons_eq_ok.2 ⟨_, Outlook.change_eq_ok.2 ⟨hr, rfl⟩, ho⟩⟩

/-- The batch that replaces a tree passes the check. -/
theorem validateAll_loadBatch {e : Evaluator} (he : e.tree.Enrolled) {records : List EntityRecord}
    (h : ∀ r ∈ records, Path.isEntityName r.name = true) :
    e.validateAll [loadBatch e.tree records] = .ok () := by
  obtain ⟨mid, hmid⟩ := foldlM_change_remove (o := .ofTree e.tree)
    (he.nodup.filter fun name => name ∉ records.map (·.name)) fun n hn => by
      rw [Outlook.ofTree, SortedSet.mem_ofList]
      exact List.mem_of_mem_filter hn
  obtain ⟨o, ho⟩ := foldlM_change_upsert h mid
  exact validateAll_singleton.2 ⟨o, foldlM_append_eq_ok.2 ⟨mid, hmid, ho⟩,
    fun _ hp => (by cases hp), fun _ hp => (by cases hp)⟩

end Evaluator

/-! ### The load -/

theorem Tree.perform_loadBatch (t : Tree) (records : List EntityRecord) :
    t.perform (Evaluator.loadBatch .empty records) = records.foldl Tree.upsert t :=
  List.foldl_map

/-- **Loading into an evaluator without entities** succeeds, and the tree consists of the loaded
records. -/
theorem Coherent.load_empty {e : Evaluator} (h : Coherent e (fun _ => False) (fun _ => False))
    (he : e.tree = .empty) {records : List EntityRecord} (hr : Loadable records) :
    ∃ e' u, e.load records = (e', .ok u) ∧ e'.tree = records.foldl Tree.upsert .empty := by
  have hs : Evaluator.Standard { e with evaluatedOnce := false } := ⟨h.registry, h.tree.isNamed⟩
  obtain ⟨e', u, ha, ht, -⟩ := hs.exists_apply
    (Evaluator.validateAll_loadBatch h.tree.enrolled fun r hm => (hr.wellFormed r hm).proper)
  refine ⟨e', u, ?_, ?_⟩
  · rw [Evaluator.load, Evaluator.checkNames_of_loadable hr]
    exact ha
  · rw [ht]
    change e.tree.perform (Evaluator.loadBatch e.tree records) = _
    rw [he, Tree.perform_loadBatch]

/-! ### Loading a tree again -/

namespace Evaluator

/-- A new evaluator with the same settings and the same engine. -/
def fresh (e : Evaluator) : Evaluator := ofEngine e.settings e.engine

end Evaluator

/-- **The records of a coherent evaluator can be loaded again**, and are then found under the same
names. -/
theorem Coherent.exists_reload {e : Evaluator} (h : Coherent e (fun _ => False) (fun _ => False)) :
    ∃ f u, e.fresh.load e.tree.toList = (f, .ok u) ∧
      Coherent f (fun _ => False) (fun _ => False) ∧
      ∀ name, f.tree.get? name = e.tree.get? name := by
  have hfresh := Coherent.ofEngine e.settings e.engine
  obtain ⟨f, u, hl, ht⟩ := hfresh.load_empty rfl h.tree.loadable
  refine ⟨f, u, hl, ?_, fun name => ?_⟩
  · exact hfresh.performs h.tree.loadable.tidy (.update (.load hl))
  · rw [ht, h.tree.get?_foldl_toList]

/-- A run can begin with any records that can be loaded. -/
theorem Evaluator.exists_reaches_load (settings : Settings) (engine : Engine)
    {allowed : Call → Prop} {records : List EntityRecord} (ha : allowed (.load records))
    (hr : Loadable records) : ∃ e, Reaches allowed (ofEngine settings engine) e ∧
      e.tree = records.foldl Tree.upsert .empty := by
  obtain ⟨e, u, hl, ht⟩ := (Coherent.ofEngine settings engine).load_empty rfl hr
  exact ⟨e, .call .start ha (.update (.load hl)), ht⟩

end Recalc
