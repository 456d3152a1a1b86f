import Recalc.Proofs.Evaluator.Known
import Recalc.Proofs.Evaluator.Load

/-!
# What a refused update leaves behind

A batch is checked before anything is touched, so what the check refuses leaves no trace. Only the
dependency maps of extractors are looked at later, when the changes are made. A registry may hold
any extractors, and one of them may report a map that lists paths of other entities; then the
changes stay, without the values that a pass would have given them (`Evaluator.apply_eq_error`,
`Evaluator.apply_stray`). Replacing a whole tree passes the check whenever the names do, so
`Evaluator.load` has no other way to fail half-way (`Evaluator.Evolves.refused`).
-/

namespace Recalc

/-- The rejection is about a dependency map. -/
def Rejection.OfMap : Rejection → Prop
  | malformedMap _ _ | assertion _ _ => True
  | _ => False

instance : DecidablePred Rejection.OfMap
  | .malformedMap _ _ | .assertion _ _ => .isTrue trivial
  | .unknownPath _ | .unknownEntity _ | .duplicateEntity _ | .invalidPath _ => .isFalse id

/-! ### The check of a batch -/

/-- The computation does not fail for a dependency map. -/
abbrev Checks {A : Type} (x : Except Rejection A) : Prop := FailsWith (¬ Rejection.OfMap ·) x

theorem Tree.checks_checkName (name : String) : Checks (checkName name) := by
  rw [checkName]
  split
  · exact failsWith_ok _
  · exact failsWith_error id

namespace Outlook

theorem checks_change (o : Outlook) (c : StructuralChange) : Checks (o.change c) := by
  cases c with
  | upsert record => exact (Tree.checks_checkName _).bind fun _ => failsWith_ok _
  | remove name =>
    rw [change]
    split
    · exact failsWith_ok _
    · exact failsWith_error id

theorem checks_write (o : Outlook) (path : String) : Checks (o.write path) := by
  rw [write]
  split
  · exact failsWith_error id
  · split
    · exact failsWith_error id
    · split
      · exact failsWith_ok _
      · exact failsWith_error id

theorem checks_mark (known : KnownPaths) (o : Outlook) (path : String) :
    Checks (mark known o path) := by
  rw [mark]
  split
  · exact failsWith_ok _
  · exact failsWith_error id

theorem checks_batch (known : KnownPaths) (o : Outlook) (b : ChangeBatch) :
    Checks (batch known o b) := by
  refine (FailsWith.foldlM checks_change _ _).bind fun mid => ?_
  refine (FailsWith.foldlM checks_write _ _).bind fun last => ?_
  exact (FailsWith.forM (checks_mark known last) _).bind fun _ => failsWith_ok _

end Outlook

namespace Evaluator

/-- The check of batches says nothing of dependency maps. -/
theorem checks_validateAll (e : Evaluator) (batches : List ChangeBatch) :
    Checks (e.validateAll batches) :=
  (FailsWith.foldlM (Outlook.checks_batch e.known) _ _).bind fun _ => failsWith_ok _

/-- The check of names says nothing of dependency maps. -/
theorem checks_checkNames (names : List String) : Checks (checkNames names) := by
  refine (FailsWith.foldlM (fun seen name => ?_) names _).bind fun _ => failsWith_ok _
  refine (Tree.checks_checkName name).bind fun _ => ?_
  split
  · exact failsWith_error id
  · exact failsWith_ok _

end Evaluator

/-! ### The changes of a batch -/

namespace Progress

/-- Nothing is evaluated on the way from the first state to the second: values may only go. -/
structure Sheds (p p' : Progress) : Prop where
  /-- Values that are there were there before. -/
  snapshot : ∀ path value, p'.evaluator.snapshot.get? path = some value →
    p.evaluator.snapshot.get? path = some value
  /-- No pass completes. -/
  evaluatedOnce : p'.evaluator.evaluatedOnce = p.evaluator.evaluatedOnce

namespace Sheds

theorem refl (p : Progress) : Sheds p p := ⟨fun _ _ h => h, rfl⟩

theorem trans {p p' p'' : Progress} (h : Sheds p p') (h' : Sheds p' p'') : Sheds p p'' :=
  ⟨fun path value hv => h.snapshot path value (h'.snapshot path value hv),
    h'.evaluatedOnce.trans h.evaluatedOnce⟩

/-- Only the snapshot and the measure of passes matter. -/
theorem of_eq {p p' : Progress} (hs : p'.evaluator.snapshot = p.evaluator.snapshot)
    (ho : p'.evaluator.evaluatedOnce = p.evaluator.evaluatedOnce) : Sheds p p' :=
  ⟨fun _ _ hv => hs ▸ hv, ho⟩

theorem foldl {A : Type} {step : Progress → A → Progress} (hstep : ∀ p a, Sheds p (step p a))
    (list : List A) (p : Progress) : Sheds p (list.foldl step p) := by
  induction list generalizing p with
  | nil => exact refl p
  | cons a list ih => exact (hstep p a).trans (ih (step p a))

end Sheds

/-- Some values go. -/
theorem Sheds.of_dropped {p p' : Progress} (leaves : List String)
    (hs : ∀ q, p'.evaluator.snapshot.get? q =
      if q ∈ leaves then none else p.evaluator.snapshot.get? q)
    (ho : p'.evaluator.evaluatedOnce = p.evaluator.evaluatedOnce) : Sheds p p' := by
  refine ⟨fun path value hv => ?_, ho⟩
  rw [hs] at hv
  split at hv
  · cases hv
  · exact hv

theorem sheds_dropStale (p : Progress) (record : EntityRecord) :
    Sheds p (p.dropStale record) := by
  rw [dropStale]
  split
  · exact .refl p
  · simp only
    obtain ⟨snapshot, previous, he, hs, -⟩ := foldl_dropLeaf _ _
    rw [he]
    exact .of_dropped _ hs rfl

theorem sheds_upsertEntity (p : Progress) (record : EntityRecord) :
    Sheds p (p.upsertEntity record) := by
  obtain ⟨bulk, nextIdentity, hc⟩ := Evaluator.cacheBulk_eq
    { (p.dropStale record).evaluator with
      known := (p.dropStale record).evaluator.known.insertEntity record.name record.entity } record
  refine (p.sheds_dropStale record).trans (.of_eq ?_ ?_)
  · simp only [upsertEntity, evaluator_queueReaders, hc]
  · simp only [upsertEntity, evaluator_queueReaders, hc]

theorem sheds_removeEntity (p : Progress) (name : String) : Sheds p (p.removeEntity name) := by
  rw [removeEntity]
  split
  · exact .refl p
  · rename_i record _
    simp only
    obtain ⟨snapshot, previous, he, hs, -⟩ := foldl_dropLeaf _ _
    rw [he]
    refine .of_dropped (record.entity.leafPaths name) (fun q => ?_) ?_
    · rw [evaluator_queueReaders]
      obtain ⟨readers, reads, hr⟩ := Evaluator.setReads_eq _ name []
      rw [hr]
      exact hs q
    · rw [evaluator_queueReaders]
      obtain ⟨readers, reads, hr⟩ := Evaluator.setReads_eq _ name []
      rw [hr]
      rfl

theorem sheds_change (p : Progress) (c : StructuralChange) : Sheds p (p.change c) := by
  cases c with
  | upsert record => exact p.sheds_upsertEntity record
  | remove name => exact p.sheds_removeEntity name

theorem sheds_writeInPlace (p : Progress) (record : EntityRecord) (path property : String)
    (value : Json) : Sheds p (p.writeInPlace record path property value) := by
  rw [writeInPlace]
  split <;> exact .of_eq rfl rfl

theorem sheds_writeValue (p : Progress) (w : String × Json) : Sheds p (p.writeValue w) := by
  rcases p.writeValue_cases w with ⟨-, he⟩ | ⟨record, -, ⟨-, he⟩ | he⟩ <;> rw [he]
  · exact .refl p
  · exact p.sheds_writeInPlace ..
  · exact p.sheds_upsertEntity _

theorem sheds_perform (p : Progress) (b : ChangeBatch) : Sheds p (p.perform b) :=
  (Sheds.foldl sheds_change b.structural p).trans (.foldl sheds_writeValue b.values _)

end Progress

/-! ### The dependency maps -/

theorem DependencyMap.ofMap_checked (entity : String) (map : DependencyMap) (known : KnownPaths)
    (policy : IntegrityPolicy) : FailsWith Rejection.OfMap (checked entity map known policy) := by
  rw [checked]
  split
  · exact failsWith_ok _
  · cases policy with
    | halt => exact failsWith_error trivial
    | fatal => exact failsWith_error trivial
    | degrade => exact failsWith_ok _

namespace Progress

/-- An entity is refused for its map only. -/
theorem ofMap_rebuildEntity (p : Progress) (name : String) :
    FailsWith Rejection.OfMap (p.rebuildEntity name) := by
  rw [rebuildEntity]
  split
  · exact failsWith_ok p
  · exact FailsWith.bind (DependencyMap.ofMap_checked _ _ _ _) fun _ => failsWith_ok _

/-- If rebuilding is refused, then for a map. -/
theorem ofMap_rebuildAll (p : Progress) (names : List String) {rejection : Rejection}
    (h : (p.rebuildAll names).2 = some rejection) : rejection.OfMap := by
  induction names generalizing p with
  | nil => cases h
  | cons name names ih =>
    rw [rebuildAll] at h
    cases hb : p.rebuildEntity name with
    | error first =>
      rw [hb] at h
      exact Option.some.inj h ▸ p.ofMap_rebuildEntity name _ hb
    | ok mid =>
      rw [hb] at h
      exact ih mid h

end Progress

/-! ### Refused updates -/

namespace Evaluator

/-- The changes of the batch were made, and nothing was evaluated. -/
structure Halfway (e : Evaluator) (b : ChangeBatch) (e' : Evaluator) : Prop where
  /-- The tree is the changed one. -/
  tree : e'.tree = e.tree.perform b
  /-- The known paths are those of the changed tree. -/
  known : ∀ path, e'.known.contains path = true ↔ e'.tree.Has path
  /-- Values that are there were there before. -/
  snapshot : ∀ path value, e'.snapshot.get? path = some value → e.snapshot.get? path = some value
  /-- No pass completed. -/
  evaluatedOnce : e'.evaluatedOnce = e.evaluatedOnce

/-- A checked batch that is refused while entities are rebuilt stays half-way. -/
theorem halfway_of_applyChecked {e e' : Evaluator} (he : e.Mapped) {b : ChangeBatch}
    (hb : ∀ c ∈ b.structural, c.Proper) {rejection : Rejection}
    (h : e.applyChecked b = (e', .error rejection)) : rejection.OfMap ∧ e.Halfway b e' := by
  have hp := Progress.Mapped.perform (p := ⟨e, .empty⟩) he hb
  have htree := (Progress.turns_perform ⟨e, .empty⟩ b).tree
  have hsheds := Progress.sheds_perform ⟨e, .empty⟩ b
  obtain ⟨p, hrebuild, rfl⟩ := applyChecked_eq_error h
  refine ⟨Progress.ofMap_rebuildAll _ _ (congrArg Prod.snd hrebuild), ?_⟩
  -- Rebuilding touches neither the tree nor the values.
  obtain ⟨graph, readers, reads, leaves, hr⟩ := (Progress.perform ⟨e, .empty⟩ b).rebuild_eq
  rw [hrebuild] at hr
  obtain rfl : p = _ := hr
  exact ⟨htree, hp.known, hsheds.snapshot, hsheds.evaluatedOnce⟩

/-- **A refused batch** leaves no trace, unless it is refused for a dependency map: then its changes
stay. -/
theorem apply_eq_error {e e' : Evaluator} (he : e.Mapped) {b : ChangeBatch} {rejection : Rejection}
    (h : e.apply b = (e', .error rejection)) :
    e.validateAll [b] = .error rejection ∧ ¬ rejection.OfMap ∧ e' = e ∨
      rejection.OfMap ∧ e.Halfway b e' := by
  rw [apply] at h
  split at h
  · rename_i hv
    cases h
    exact .inl ⟨hv, e.checks_validateAll [b] _ hv, rfl⟩
  · rename_i hv
    split at h
    · cases h
    · exact .inr (halfway_of_applyChecked he (proper_of_validateAll hv).structural h)

/-- The batch that replaces a tree is refused for a dependency map only. -/
theorem load_eq_error {e e' : Evaluator} (he : e.Mapped) {records : List EntityRecord}
    {rejection : Rejection} (h : e.load records = (e', .error rejection)) :
    ¬ rejection.OfMap ∧ e' = e ∨ rejection.OfMap ∧
      Halfway { e with evaluatedOnce := false } (loadBatch e.tree records) e' := by
  rw [load] at h
  split at h
  · rename_i hn
    cases h
    exact .inl ⟨checks_checkNames _ _ hn, rfl⟩
  · rename_i hn
    have he' : Mapped { e with evaluatedOnce := false } := he
    refine .inr ((apply_eq_error he' h).resolve_left fun hrefused => ?_)
    have hok : Evaluator.validateAll { e with evaluatedOnce := false }
        [loadBatch e.tree records] = .ok () :=
      validateAll_loadBatch he.enrolled (List.forall_mem_map.1 (proper_of_checkNames hn))
    rw [hok] at hrefused
    cases hrefused.1

/-- **A refused update changes nothing, unless it is refused for a dependency map**: whatever the
extractors are, an evaluator is after it exactly what it was before. An update that is refused for
the map of an entity has made its changes by then, and evaluated nothing. -/
theorem Evolves.refused {settings : Settings} {engine : Engine} {registry : Registry}
    {allowed : Call → Prop} {e : Evaluator}
    (h : Evolves allowed { ofEngine settings engine with registry } e) {rejection : Rejection} :
    (∀ b e', e.apply b = (e', .error rejection) →
      if rejection.OfMap then e.Halfway b e' else e' = e) ∧
    ∀ records e', e.load records = (e', .error rejection) →
      if rejection.OfMap then
        Halfway { e with evaluatedOnce := false } (loadBatch e.tree records) e'
      else e' = e := by
  have he : e.Mapped := h.mapped Tree.mapped_empty
  refine ⟨fun b e' ha => ?_, fun records e' hl => ?_⟩
  · rcases apply_eq_error he ha with ⟨-, hno, hsame⟩ | ⟨hmap, hhalf⟩
    · rwa [if_neg hno]
    · rwa [if_pos hmap]
  · rcases load_eq_error he hl with ⟨hno, hsame⟩ | ⟨hmap, hhalf⟩
    · rwa [if_neg hno]
    · rwa [if_pos hmap]

/-- An extractor reports a path of another entity for every entity of a kind. -/
def strays : Registry :=
  .register .standard ⟨"STRAY"⟩ (.fixed (SortedMap.empty.insert "Nobody.text" []))

/-- An evaluator without entities that refuses such a map. -/
def wary : Evaluator :=
  { ofEngine { Settings.default with integrity := .fatal } .standard with registry := strays }

/-- An entity of that kind is stored. -/
def straying : ChangeBatch :=
  .upsertEntity .empty ⟨.ofName "Stray" ⟨"STRAY"⟩, ⟨[("text", .string "lost")]⟩⟩

/-- An entity that is refused for its map is in the tree all the same. -/
theorem apply_straying : (wary.apply straying).2 = .error (.malformedMap "Stray" "Nobody.text") ∧
    wary.tree.names = [] ∧ (wary.apply straying).1.tree.names = ["Stray"] ∧
    wary.known.contains "Stray.text" = false ∧
    (wary.apply straying).1.known.contains "Stray.text" = true :=
  ⟨rfl, rfl, rfl, rfl, rfl⟩

/-- A removal is refused without a trace, and a straying entity half-way. -/
theorem refused_straying : ∃ e₁ e₂ : Evaluator,
    wary.apply (.removeEntity .empty "Nobody") = (e₁, .error (.unknownEntity "Nobody")) ∧
    e₁ = wary ∧ wary.apply straying = (e₂, .error (.malformedMap "Stray" "Nobody.text")) ∧
    wary.Halfway straying e₂ := by
  have hstart : Evolves Call.Tidy wary wary := .start
  have hgone : wary.apply (.removeEntity .empty "Nobody") =
      ((wary.apply (.removeEntity .empty "Nobody")).1, .error (.unknownEntity "Nobody")) := rfl
  have hstray : wary.apply straying =
      ((wary.apply straying).1, .error (.malformedMap "Stray" "Nobody.text")) := rfl
  have hsame := hstart.refused.1 _ _ hgone
  have hhalf := hstart.refused.1 _ _ hstray
  rw [if_neg (by decide)] at hsame
  rw [if_pos (by decide)] at hhalf
  exact ⟨_, _, hgone, hsame, hstray, hhalf⟩

end Evaluator

end Recalc
