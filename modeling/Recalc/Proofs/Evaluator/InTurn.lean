import Recalc.Proofs.Evaluator.Known
import Recalc.Proofs.Evaluator.Load

/-!
# Checking several batches and applying them in turn

The check of a list of batches foresees which entities there are when a batch is about to be
applied, and whether a path exists that may be marked then, as far as the batches before it spare
the path (`Outlook.Foresees`, `Foresees.batch`). So batches pass the check together exactly if they
can be applied in turn, provided that each marks entities and paths that the batches before it spare
(`Evaluator.Evolves.validateAll_iff`).

About other paths the check goes by less than the tree: the fields of a stored record and of a
written object are not looked at, and the objects on the way to a written value are not thought of.
There it errs in both directions (`Evaluator.validateAll_greeting`).
-/

namespace Recalc

/-- The batch stores no entity that the path belongs to, and writes neither above the path nor below
it. -/
structure ChangeBatch.Spares (b : ChangeBatch) (path : String) : Prop where
  /-- The entity of the path is not stored. -/
  stored : ∀ record, .upsert record ∈ b.structural → record.name ≠ Path.entityOf path
  /-- Nothing above the path is written. -/
  above : ∀ w ∈ b.written, Path.isDescendant path w = false
  /-- Nothing below the path is written. -/
  below : ∀ w ∈ b.written, Path.isDescendant w path = false

/-! ### Paths after changes and writes -/

namespace Tree

/-- A change decides about the paths of its entity, and leaves others alone. -/
theorem has_change {t : Tree} {c : StructuralChange} {path : String} : (t.change c).Has path ↔
    if Path.entityOf path = c.entity then ∃ r, c.record? = some r ∧ r.Has path else t.Has path := by
  rw [Has, get?_change]
  split <;> rfl

/-- What a write does to the paths of its entity. -/
theorem Named.has_write {t : Tree} (h : t.Named) {w : String × Json} {path : String} :
    (t.write w).Has path ↔ ∃ r, t.get? (Path.entityOf path) = some r ∧
      if Path.entityOf path = Path.entityOf w.1 then (r.set (Path.split w.1).2 w.2).Has path
      else r.Has path := by
  rw [Has, h.get?_write]
  split
  · simp
  · rfl

end Tree

/-- A write makes its own path exist in its entity, and leaves paths neither above nor below. -/
theorem Tree.Named.has_write_iff {t : Tree} (h : t.Named) {w : String × Json}
    (hw : Path.Writable w.1) {path : String}
    (hp : Path.entityOf path = path ∨
      Path.isDescendant path w.1 = false ∧ Path.isDescendant w.1 path = false) :
    (t.write w).Has path ↔
      t.Has path ∨ (∃ r, t.get? (Path.entityOf path) = some r) ∧ path = w.1 := by
  rw [h.has_write, Has, ← exists_and_right, ← exists_or]
  refine exists_congr fun r => ?_
  rw [← and_or_left]
  refine and_congr_right fun hr => ?_
  have hname := h _ r hr
  split
  · rename_i he
    have hpath : w.1 = Path.join r.name (Path.split w.1).2 := by
      rw [hname, he]
      exact hw.eq_join
    by_cases hself : path = w.1
    · refine iff_of_true ?_ (.inr hself)
      rw [hself, hpath, ← hpath]
      have hset := EntityRecord.has_set_self (r := r) hw.keys w.2
      rwa [← hpath] at hset
    · rw [or_iff_left hself]
      rcases hp with hp | ⟨habove, hbelow⟩
      · have hentity : path = r.name := hp.symm.trans hname.symm
        exact iff_of_true (EntityRecord.has_iff_lists.2 (.inl hentity))
          (EntityRecord.has_iff_lists.2 (.inl hentity))
      · refine EntityRecord.has_set_of_apart hw.keys w.2 (hpath ▸ hself) (hpath ▸ habove) ?_
        rw [← hpath, hbelow]
        exact fun hover => absurd hover Bool.false_ne_true
  · rename_i he
    refine (or_iff_left fun hself => he ?_).symm
    rw [hself]

namespace Outlook

/-! ### Marks after changes and writes -/

/-- A change decides about the paths of its entity, and leaves others alone. -/
theorem marks_after {known : KnownPaths} {o : Outlook} {c : StructuralChange} {path : String} :
    Marks known (o.after c) path ↔
      if Path.entityOf path = c.entity then c.record?.isSome = true else Marks known o path := by
  have hmarks : ∀ q : Outlook, Marks known q path ↔ Path.entityOf path ∈ q.names ∧
      (Path.entityOf path ∈ q.upserted ∨ known.contains path = true ∨ path ∈ q.written) :=
    fun q => ⟨fun h => ⟨h.entity, h.path⟩, fun h => ⟨h.1, h.2⟩⟩
  rw [hmarks, hmarks, mem_names_after, mem_upserted_after, mem_written_after]
  split
  · exact ⟨fun h => h.1, fun h => ⟨h, .inl h⟩⟩
  · rename_i he
    simp [he]

/-- Writes make their own paths exist, in entities that do. -/
theorem marks_wrote {known : KnownPaths} {o : Outlook} {paths : List String} {path : String} :
    Marks known (o.wrote paths) path ↔
      Marks known o path ∨ Path.entityOf path ∈ o.names ∧ path ∈ paths := by
  constructor
  · rintro ⟨hentity, hpath⟩
    rcases hpath with hu | hk | hw
    · exact .inl ⟨hentity, .inl hu⟩
    · exact .inl ⟨hentity, .inr (.inl hk)⟩
    · exact (mem_written_wrote.1 hw).imp (fun hw => ⟨hentity, .inr (.inr hw)⟩)
        fun hw => ⟨hentity, hw⟩
  · rintro (hm | ⟨hentity, hw⟩)
    · exact hm.mono (covers_wrote o paths)
    · exact ⟨hentity, .inr (.inr (mem_written_wrote.2 (.inr hw)))⟩

/-! ### Two outlooks that say the same -/

/-- The outlooks say the same about entities, and about marks of the given paths. -/
structure Alike (known : KnownPaths) (o : Outlook) (known' : KnownPaths) (o' : Outlook)
    (paths : String → Prop) : Prop where
  /-- They have the same entities. -/
  names : ∀ name, name ∈ o.names ↔ name ∈ o'.names
  /-- They allow the same marks. -/
  marks : ∀ path, paths path → (Marks known o path ↔ Marks known' o' path)

namespace Alike

variable {known known' : KnownPaths} {o o' : Outlook} {paths : String → Prop}
  (h : Alike known o known' o' paths)
include h

theorem symm : Alike known' o' known o paths :=
  ⟨fun name => (h.names name).symm, fun path hp => (h.marks path hp).symm⟩

theorem accepts {c : StructuralChange} (ha : o.Accepts c) : o'.Accepts c := by
  cases c with
  | upsert record => exact ha
  | remove name => exact (h.names name).1 ha

theorem after (c : StructuralChange) : Alike known (o.after c) known' (o'.after c) paths where
  names name := by
    rw [mem_names_after, mem_names_after, h.names]
  marks path hp := by
    rw [marks_after, marks_after, h.marks path hp]

theorem wrote (written : List String) :
    Alike known (o.wrote written) known' (o'.wrote written) paths where
  names := h.names
  marks path hp := by
    rw [marks_wrote, marks_wrote, h.marks path hp, h.names]

/-- The same changes are accepted, and the outlooks still say the same afterwards. -/
theorem foldlM_change {changes : List StructuralChange} {mid : Outlook}
    (hm : changes.foldlM change o = .ok mid) :
    ∃ mid', changes.foldlM change o' = .ok mid' ∧ Alike known mid known' mid' paths := by
  induction changes generalizing o o' with
  | nil =>
    obtain rfl : o = mid := Except.ok.inj hm
    exact ⟨o', rfl, h⟩
  | cons c changes ih =>
    obtain ⟨next, hc, hrest⟩ := foldlM_cons_eq_ok.1 hm
    obtain ⟨ha, rfl⟩ := change_eq_ok.1 hc
    obtain ⟨mid', hfold, halike⟩ := ih (h.after c) hrest
    exact ⟨mid', foldlM_cons_eq_ok.2 ⟨_, change_eq_ok.2 ⟨h.accepts ha, rfl⟩, hfold⟩, halike⟩

/-- **The same batches are accepted**, if they mark the paths that the outlooks agree about. -/
theorem acceptsBatch {b : ChangeBatch} (hb : ∀ path ∈ b.changed.keys, paths path) {mid : Outlook}
    (ha : AcceptsBatch known o b mid) : ∃ mid', AcceptsBatch known' o' b mid' := by
  obtain ⟨mid', hstructural, hmid⟩ := h.foldlM_change ha.structural
  refine ⟨mid', hstructural, fun path hp => ?_, fun path hp => ?_⟩
  · have hw := ha.values path hp
    exact ⟨hw.property, (hmid.names _).1 hw.entity⟩
  · exact ((hmid.wrote b.written).marks path (hb path hp)).1 (ha.marks path hp)

end Alike

/-! ### An outlook and the tree that it foresees -/

/-- The outlook says which entities the tree has, and which of the given paths can be marked. -/
structure Foresees (known : KnownPaths) (o : Outlook) (t : Tree) (paths : String → Prop) :
    Prop where
  /-- The entities are those of the tree. -/
  names : ∀ name, name ∈ o.names ↔ ∃ r, t.get? name = some r
  /-- Those of the given paths can be marked that are paths of the tree. -/
  marks : ∀ path, paths path → (Marks known o path ↔ t.Has path)

/-- Before any batch everything is as it is. -/
theorem foresees_ofTree {t : Tree} {known : KnownPaths} (h : t.Mapped known)
    (paths : String → Prop) : Foresees known (ofTree t) t paths where
  names name := by
    rw [ofTree, SortedSet.mem_ofList]
    exact h.enrolled.registered
  marks path _ := by
    constructor
    · rintro ⟨-, hu | hk | hw⟩
      · exact absurd hu (SortedSet.not_mem_empty _)
      · exact (h.known path).1 hk
      · exact absurd hw (SortedSet.not_mem_empty _)
    · intro hp
      refine ⟨?_, .inr (.inl ((h.known path).2 hp))⟩
      obtain ⟨r, hr, -⟩ := hp
      rw [ofTree, SortedSet.mem_ofList]
      exact h.enrolled.registered.2 ⟨r, hr⟩

namespace Foresees

variable {known : KnownPaths} {o : Outlook} {t : Tree} {paths : String → Prop}
  (h : Foresees known o t paths)
include h

theorem mono {fewer : String → Prop} (hf : ∀ path, fewer path → paths path) :
    Foresees known o t fewer := ⟨h.names, fun path hp => h.marks path (hf path hp)⟩

/-- Outlooks that foresee the same tree say the same. -/
theorem alike {known' : KnownPaths} {o' : Outlook} (h' : Foresees known' o' t paths) :
    Alike known o known' o' paths :=
  ⟨fun name => (h.names name).trans (h'.names name).symm,
    fun path hp => (h.marks path hp).trans (h'.marks path hp).symm⟩

/-- A change is foreseen, if the given paths in an entity that it stores are that of the entity. -/
theorem after {c : StructuralChange} (hp : ∀ path, paths path →
      Path.entityOf path = path ∨ ∀ record, c = .upsert record → record.name ≠ Path.entityOf path) :
    Foresees known (o.after c) (t.change c) paths where
  names name := by
    rw [mem_names_after, Tree.get?_change, h.names]
    split
    · exact Option.isSome_iff_exists
    · rfl
  marks path hpath := by
    rw [marks_after, Tree.has_change, h.marks path hpath]
    split
    · rename_i he
      cases c with
      | upsert record =>
        refine iff_of_true rfl ⟨record, rfl, ?_⟩
        rcases hp path hpath with hself | hout
        · exact EntityRecord.has_iff_lists.2 (.inl (hself.symm.trans he))
        · exact absurd he.symm (hout record rfl)
      | remove name => simp [StructuralChange.record?]
    · rfl

theorem foldlM_change {changes : List StructuralChange} {mid : Outlook}
    (hm : changes.foldlM change o = .ok mid) (hp : ∀ path, paths path →
      Path.entityOf path = path ∨
        ∀ record, .upsert record ∈ changes → record.name ≠ Path.entityOf path) :
    Foresees known mid (changes.foldl Tree.change t) paths := by
  induction changes generalizing o t with
  | nil =>
    obtain rfl : o = mid := Except.ok.inj hm
    exact h
  | cons c changes ih =>
    obtain ⟨next, hc, hrest⟩ := foldlM_cons_eq_ok.1 hm
    obtain ⟨-, rfl⟩ := change_eq_ok.1 hc
    refine ih (h.after fun path hpath => ?_) hrest fun path hpath => ?_
    · exact (hp path hpath).imp_right fun hout record he => hout record (he ▸ List.mem_cons_self)
    · exact (hp path hpath).imp_right fun hout record hr =>
        hout record (List.mem_cons_of_mem _ hr)

/-- Writes are foreseen, if they go neither above nor below the given paths. -/
theorem wrote (ht : t.Named) {writes : List (String × Json)}
    (hw : ∀ w ∈ writes, Path.Writable w.1) (hp : ∀ path, paths path → Path.entityOf path = path ∨
      ∀ w ∈ writes.map (·.1), Path.isDescendant path w = false ∧ Path.isDescendant w path = false) :
    Foresees known (o.wrote (writes.map (·.1))) (writes.foldl Tree.write t) paths := by
  induction writes generalizing o t with
  | nil => exact h
  | cons w writes ih =>
    obtain ⟨hfirst, hrest⟩ := List.forall_mem_cons.1 hw
    have hstep : Foresees known (o.wrote [w.1]) (t.write w) paths := by
      refine ⟨fun name => ?_, fun path hpath => ?_⟩
      · rw [← Tree.contains_iff, ht.contains_write, Tree.contains_iff]
        exact h.names name
      · have hapart := (hp path hpath).imp_right fun hout => hout w.1 List.mem_cons_self
        rw [marks_wrote, ht.has_write_iff hfirst hapart, h.marks path hpath, h.names,
          List.mem_singleton]
    refine ih hstep (ht.write w) hrest fun path hpath => ?_
    exact (hp path hpath).imp_right fun hout v hv => hout v (List.mem_cons_of_mem _ hv)

/-- **A batch is foreseen** as far as it spares the given paths that are not those of entities. -/
theorem batch (ht : t.Named) {b : ChangeBatch} {mid : Outlook} (ha : AcceptsBatch known o b mid)
    (hp : ∀ path, paths path → Path.entityOf path = path ∨ b.Spares path) :
    Foresees known (mid.wrote b.written) (t.perform b) paths := by
  have hchanged := h.foldlM_change ha.structural fun path hpath =>
    (hp path hpath).imp_right fun hspared => hspared.stored
  refine hchanged.wrote (ht.foldl_change b.structural) (fun w hw => ?_) fun path hpath => ?_
  · exact (ha.values w.1 (List.mem_map_of_mem hw)).writable
  · exact (hp path hpath).imp_right fun hspared w hw => ⟨hspared.above w hw, hspared.below w hw⟩

end Foresees

end Outlook

namespace Evaluator

/-! ### Applying in turn -/

/-- The batches can be applied one after another. -/
def AcceptsInTurn (e : Evaluator) : List ChangeBatch → Prop
  | [] => True
  | b :: batches => ∃ e' u, e.apply b = (e', .ok u) ∧ e'.AcceptsInTurn batches

/-- What an outlook accepts can be applied in turn, and the other way round, if the outlook foresees
the tree as far as the batches mark its paths. -/
theorem accepts_iff_of_foresees {e : Evaluator} (hs : e.Standard) (hm : e.Mapped)
    {known : KnownPaths} {o : Outlook} {paths : String → Prop}
    (h : Outlook.Foresees known o e.tree paths) {batches : List ChangeBatch}
    (hmarks : ∀ b ∈ batches, ∀ path ∈ b.changed.keys, paths path)
    (hspared : batches.Pairwise fun a b =>
      ∀ path ∈ b.changed.keys, Path.entityOf path = path ∨ a.Spares path) :
    (∃ last, batches.foldlM (Outlook.batch known) o = .ok last) ↔ e.AcceptsInTurn batches := by
  induction batches generalizing e o paths with
  | nil => exact iff_of_true ⟨o, rfl⟩ trivial
  | cons b batches ih =>
    obtain ⟨hb, hrest⟩ := List.forall_mem_cons.1 hmarks
    obtain ⟨hlater, hpairs⟩ := List.pairwise_cons.1 hspared
    -- The batch is accepted on both sides or on none.
    have halike := h.alike (Outlook.foresees_ofTree hm paths)
    have hnext : ∀ {mid e' u}, Outlook.AcceptsBatch known o b mid → e.apply b = (e', .ok u) →
        ((∃ last, batches.foldlM (Outlook.batch known) (mid.wrote b.written) = .ok last) ↔
          e'.AcceptsInTurn batches) := by
      intro mid e' u ha happly
      obtain ⟨htree, hs'⟩ := hs.of_apply happly
      have hm' := hm.apply b
      rw [happly] at hm'
      have hforesees : Outlook.Foresees known (mid.wrote b.written) e'.tree fun path =>
          paths path ∧ (Path.entityOf path = path ∨ b.Spares path) := by
        rw [htree]
        exact (h.mono fun path hp => hp.1).batch hs.named ha fun path hp => hp.2
      refine ih hs' hm' hforesees (fun c hc path hp => ?_) hpairs
      exact ⟨hrest c hc path hp, hlater c hc path hp⟩
    constructor
    · rintro ⟨last, hlast⟩
      obtain ⟨next, hbatch, hfold⟩ := foldlM_cons_eq_ok.1 hlast
      obtain ⟨mid, ha, rfl⟩ := Outlook.batch_eq_ok.1 hbatch
      obtain ⟨e', u, happly, -⟩ :=
        hs.exists_apply (validateAll_singleton.2 (halike.acceptsBatch hb ha))
      exact ⟨e', u, happly, (hnext ha happly).1 ⟨last, hfold⟩⟩
    · rintro ⟨e', u, happly, hturn⟩
      obtain ⟨mid', ha'⟩ := validateAll_singleton.1 (validateAll_of_apply happly)
      obtain ⟨mid, ha⟩ := halike.symm.acceptsBatch hb ha'
      obtain ⟨last, hlast⟩ := (hnext ha happly).2 hturn
      exact ⟨last, foldlM_cons_eq_ok.2 ⟨_, Outlook.batch_eq_ok.2 ⟨mid, ha, rfl⟩, hlast⟩⟩

/-- **Batches pass the check together exactly if they can be applied in turn**, provided that each
marks, besides entities, only paths that the batches before it spare. -/
theorem Evolves.validateAll_iff {settings : Settings} {engine : Engine} {allowed : Call → Prop}
    {e : Evaluator} (h : Evolves allowed (ofEngine settings engine) e)
    {batches : List ChangeBatch} (hspared : batches.Pairwise fun a b =>
      ∀ path ∈ b.changed.keys, Path.entityOf path = path ∨ a.Spares path) :
    e.validateAll batches = .ok () ↔ e.AcceptsInTurn batches := by
  have hm : e.Mapped := h.mapped Tree.mapped_empty
  rw [validateAll_eq_ok]
  exact accepts_iff_of_foresees (h.standard (.ofEngine settings engine)) hm
    (Outlook.foresees_ofTree hm fun _ => True) (fun _ _ _ _ => trivial) hspared

/-! ### Greetings -/

/-- A greeting was stored. -/
def welcoming : Evaluator :=
  (ofEngine .default .standard).after (.apply (.upsertEntity .empty .greeting))

theorem evolves_welcoming : Evolves (fun _ => True) (ofEngine .default .standard) welcoming :=
  .call _ .start trivial

/-- The greeting gets a part, which is asked for; or it is stored anew, and a part is asked for that
it does not have. The check refuses the first and lets the second pass, though the first can be
applied in turn and the second cannot. -/
theorem validateAll_greeting :
    let inside := ChangeBatch.setValue .empty "Greeting.text" (.object [("word", .string "bye")])
    let anew := ChangeBatch.upsertEntity .empty .greeting
    let ask := ChangeBatch.markChanged .empty "Greeting.text.word"
    Evolves (fun _ => True) (ofEngine .default .standard) welcoming ∧
    welcoming.validateAll [inside, ask] = .error (.unknownPath "Greeting.text.word") ∧
    welcoming.AcceptsInTurn [inside, ask] ∧
    welcoming.validateAll [anew, ask] = .ok () ∧ ¬ welcoming.AcceptsInTurn [anew, ask] := by
  intro inside anew ask
  have hs := evolves_welcoming.standard (.ofEngine .default .standard)
  obtain ⟨e₁, u₁, h₁, -, hs₁⟩ := hs.exists_apply (b := inside) rfl
  have hask : (welcoming.after (.apply inside)).validateAll [ask] = .ok () := by decide +kernel
  obtain ⟨e₂, u₂, h₂, -⟩ := hs₁.exists_apply (b := ask) (by
    rw [after, h₁] at hask
    exact hask)
  refine ⟨evolves_welcoming, rfl, ⟨e₁, u₁, h₁, e₂, u₂, h₂, trivial⟩, rfl, ?_⟩
  rintro ⟨e', u, h, e'', u', h', -⟩
  have hrefused : ((welcoming.after (.apply anew)).apply ask).2 =
    .error (.unknownPath "Greeting.text.word") := rfl
  rw [after, h, h'] at hrefused
  cases hrefused

/-- A write to the greeting spares the greeting itself and its text, so both may be asked for. -/
theorem validateAll_iff_greeting :
    let write := ChangeBatch.setValue .empty "Greeting.text" (.string "good day")
    let ask := ChangeBatch.markChanged (.markChanged .empty "Greeting") "Greeting.text"
    [write, ask].Pairwise (fun a b =>
      ∀ path ∈ b.changed.keys, Path.entityOf path = path ∨ a.Spares path) ∧
    welcoming.validateAll [write, ask] = .ok () ∧ welcoming.AcceptsInTurn [write, ask] := by
  intro write ask
  have hspared : [write, ask].Pairwise fun a b =>
      ∀ path ∈ b.changed.keys, Path.entityOf path = path ∨ a.Spares path := by
    refine List.pairwise_pair.2 fun path hp => ?_
    have hkeys : ask.changed.keys = ["Greeting", "Greeting.text"] := by decide
    rw [hkeys, List.mem_pair] at hp
    rcases hp with rfl | rfl
    · exact .inl (by decide)
    · refine .inr ⟨fun record hr => ?_, by decide, by decide⟩
      cases hr
  have hok : welcoming.validateAll [write, ask] = .ok () := rfl
  exact ⟨hspared, hok, (evolves_welcoming.validateAll_iff hspared).1 hok⟩

end Evaluator

end Recalc
