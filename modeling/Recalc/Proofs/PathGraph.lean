import Recalc.PathGraph
import Recalc.Proofs.Collection.Interner
import Recalc.Proofs.Graph.Cycles

/-!
# The dependency graph of paths

What the graph of paths holds is said in terms of paths: which are nodes (`Node`), which read which
(`Reads`), and which are listed for an entity (`Lists`). The laws `Sound.update_spec` and
`Sound.remove_spec` say what the two changes of the graph do to these three relations. Taking a
path out of the graph takes away what it reads and what reads it, also where the reader belongs to
another entity.
-/

namespace Recalc.PathGraph

/-- The path is in the graph. -/
def Node (g : PathGraph) (path : String) : Prop :=
  ∃ id ∈ g.graph.nodes, g.ids.get? id = some path

/-- The path reads the other one. -/
def Reads (g : PathGraph) (path target : String) : Prop :=
  ∃ a b, g.ids.get? a = some path ∧ g.ids.get? b = some target ∧ b ∈ g.graph.dependencies a

/-- The path is one of those that the entity has listed. -/
def Lists (g : PathGraph) (entity path : String) : Prop :=
  ∃ ids, g.owned.get? entity = some ids ∧ ∃ id ∈ ids, g.ids.get? id = some path

/-- The ids stand for paths, in the graph and in the lists of the entities. -/
structure Indexed (g : PathGraph) : Prop where
  /-- Ids and paths correspond to each other. -/
  ids : g.ids.Sound
  /-- The indices of the graph agree. -/
  graph : g.graph.Sound
  /-- Nodes are ids of paths. -/
  named : ∀ id ∈ g.graph.nodes, ∃ path, g.ids.get? id = some path
  /-- Listed ids are ids of paths. -/
  listed : ∀ entity ids, g.owned.get? entity = some ids → ∀ id ∈ ids, ∃ path,
    g.ids.get? id = some path

/-- The graph is indexed, and the order is that of the graph unless it is marked as stale. -/
structure Sound (g : PathGraph) : Prop extends g.Indexed where
  /-- An order that is not stale is the order of the graph. -/
  fresh : g.stale = false → g.order = .compute g.graph

theorem sound_empty : empty.Sound where
  ids := Interner.sound_empty pathHash
  graph := DependencyGraph.sound_empty
  named id h := absurd h (SortedSet.not_mem_empty id)
  listed entity ids h := by simp [empty] at h
  fresh _ := rfl

theorem Indexed.id_inj {g : PathGraph} (h : g.Indexed) {a b : Nat} {path : String}
    (ha : g.ids.get? a = some path) (hb : g.ids.get? b = some path) : a = b :=
  h.ids.injective ha hb

theorem path_of_get? {g : PathGraph} {id : Nat} {path : String} (h : g.ids.get? id = some path) :
    g.path id = path := by
  rw [PathGraph.path, h, Option.getD_some]

theorem Indexed.id?_eq_some_iff {g : PathGraph} (h : g.Indexed) {path : String} {id : Nat} :
    g.id? path = some id ↔ g.ids.get? id = some path := h.ids.lookup_eq_some_iff

theorem Indexed.contains_iff {g : PathGraph} (h : g.Indexed) {path : String} :
    g.contains path = true ↔ g.Node path := by
  rw [contains, Node, Option.any_eq_true]
  constructor
  · rintro ⟨id, hid, hn⟩
    exact ⟨id, hn, h.id?_eq_some_iff.1 hid⟩
  · rintro ⟨id, hn, hid⟩
    exact ⟨id, h.id?_eq_some_iff.2 hid, hn⟩

/-- Reads are between nodes. -/
theorem Indexed.node_of_reads {g : PathGraph} (h : g.Indexed) {path target : String}
    (hr : g.Reads path target) : g.Node path ∧ g.Node target := by
  obtain ⟨a, b, ha, hb, hd⟩ := hr
  exact ⟨⟨a, h.graph.source hd, ha⟩, ⟨b, h.graph.target hd, hb⟩⟩

/-! ### Installing -/

section Install

variable {g : PathGraph} (source : String) (targets : List String)

/-- The table of ids after a path and what it reads were interned. -/
def idsAfter (g : PathGraph) : Interner String := ((g.ids.intern source).2.internAll targets).2

/-- The ids of what a path reads. -/
def targetIds (g : PathGraph) : List Nat := ((g.ids.intern source).2.internAll targets).1

/-- The graph of ids after a path was made a node that reads its targets. -/
def graphAfter (g : PathGraph) : DependencyGraph Nat :=
  ((g.graph.addNode (g.ids.intern source).1).2.replaceDependencies (g.ids.intern source).1
    (g.targetIds source targets)).2

theorem install_eq (g : PathGraph) (nodes : List Nat) : install (g, nodes) (source, targets) =
    ({ g with ids := g.idsAfter source targets, graph := g.graphAfter source targets },
      nodes ++ [(g.ids.intern source).1]) := rfl

theorem get?_idsAfter {id : Nat} {path : String} (h : g.ids.get? id = some path) :
    (g.idsAfter source targets).get? id = some path :=
  Interner.get?_internAll_of_some targets (Interner.get?_intern_of_some h)

theorem Indexed.get?_idsAfter_self (h : g.Indexed) :
    (g.idsAfter source targets).get? (g.ids.intern source).1 = some source :=
  Interner.get?_internAll_of_some targets (h.ids.get?_intern_self source)

theorem Indexed.mem_targetIds (h : g.Indexed) {id : Nat} :
    id ∈ g.targetIds source targets ↔
      ∃ target ∈ targets, (g.idsAfter source targets).get? id = some target :=
  (h.ids.intern source).mem_internAll

theorem Indexed.exists_mem_targetIds (h : g.Indexed) {target : String} (ht : target ∈ targets) :
    ∃ id ∈ g.targetIds source targets, (g.idsAfter source targets).get? id = some target :=
  (h.ids.intern source).exists_mem_internAll ht

theorem Indexed.graphAfter_spec (h : g.Indexed) :
    (g.graphAfter source targets).Sound ∧
      (∀ q, q ∈ (g.graphAfter source targets).nodes ↔
        q = (g.ids.intern source).1 ∨ q ∈ g.graph.nodes ∨ q ∈ g.targetIds source targets) ∧
      ∀ a b, b ∈ (g.graphAfter source targets).dependencies a ↔
        if a = (g.ids.intern source).1 then b ∈ g.targetIds source targets
        else b ∈ g.graph.dependencies a := by
  obtain ⟨hs, hn, hd⟩ := (h.graph.addNode (g.ids.intern source).1).replaceDependencies_spec
    (g.ids.intern source).1 (g.targetIds source targets)
  refine ⟨hs, fun q => ?_, hd⟩
  rw [graphAfter, hn, DependencyGraph.mem_nodes_addNode]
  grind

/-- Installing a path keeps the graph indexed. -/
theorem Indexed.install (h : g.Indexed) (nodes : List Nat) :
    (install (g, nodes) (source, targets)).1.Indexed where
  ids := (h.ids.intern source).internAll targets
  graph := (h.graphAfter_spec source targets).1
  named id hid := by
    rcases ((h.graphAfter_spec source targets).2.1 id).1 hid with rfl | hid | hid
    · exact ⟨source, h.get?_idsAfter_self source targets⟩
    · obtain ⟨path, hp⟩ := h.named id hid
      exact ⟨path, get?_idsAfter source targets hp⟩
    · obtain ⟨target, -, ht⟩ := (h.mem_targetIds source targets).1 hid
      exact ⟨target, ht⟩
  listed entity list hl id hid := by
    obtain ⟨path, hp⟩ := h.listed entity list hl id hid
    exact ⟨path, get?_idsAfter source targets hp⟩

theorem Indexed.node_install (h : g.Indexed) {nodes : List Nat} {path : String} :
    (PathGraph.install (g, nodes) (source, targets)).1.Node path ↔
      path = source ∨ g.Node path ∨ path ∈ targets := by
  obtain ⟨-, hn, -⟩ := h.graphAfter_spec source targets
  rw [install_eq]
  constructor
  · rintro ⟨id, hid, hp⟩
    rcases (hn id).1 hid with rfl | hid | hid
    · exact .inl (Option.some.inj (hp.symm.trans (h.get?_idsAfter_self source targets)))
    · obtain ⟨other, ho⟩ := h.named id hid
      obtain rfl := Option.some.inj ((get?_idsAfter source targets ho).symm.trans hp)
      exact .inr (.inl ⟨id, hid, ho⟩)
    · obtain ⟨target, ht, ho⟩ := (h.mem_targetIds source targets).1 hid
      obtain rfl := Option.some.inj (ho.symm.trans hp)
      exact .inr (.inr ht)
  · rintro (rfl | ⟨id, hid, hp⟩ | ht)
    · exact ⟨_, (hn _).2 (.inl rfl), h.get?_idsAfter_self path targets⟩
    · exact ⟨id, (hn id).2 (.inr (.inl hid)), get?_idsAfter source targets hp⟩
    · obtain ⟨id, hid, hp⟩ := h.exists_mem_targetIds source targets ht
      exact ⟨id, (hn id).2 (.inr (.inr hid)), hp⟩

theorem Indexed.reads_install (h : g.Indexed) {nodes : List Nat} {path target : String} :
    (PathGraph.install (g, nodes) (source, targets)).1.Reads path target ↔
      if path = source then target ∈ targets else g.Reads path target := by
  obtain ⟨-, -, hd⟩ := h.graphAfter_spec source targets
  have hi := h.install source targets nodes
  rw [install_eq] at hi ⊢
  constructor
  · rintro ⟨a, b, ha, hb, hr⟩
    replace hr := (hd a b).1 hr
    split at hr
    · rename_i he
      subst he
      obtain rfl := Option.some.inj (ha.symm.trans (h.get?_idsAfter_self source targets))
      obtain ⟨other, ho, hb'⟩ := (h.mem_targetIds path targets).1 hr
      rw [if_pos rfl]
      exact Option.some.inj (hb'.symm.trans hb) ▸ ho
    · rename_i hne
      have hp : path ≠ source := fun he =>
        hne (hi.id_inj ha (he ▸ h.get?_idsAfter_self source targets))
      rw [if_neg hp]
      obtain ⟨p, hpa⟩ := h.named a (h.graph.source hr)
      obtain ⟨q, hq⟩ := h.named b (h.graph.target hr)
      obtain rfl := Option.some.inj ((get?_idsAfter source targets hpa).symm.trans ha)
      obtain rfl := Option.some.inj ((get?_idsAfter source targets hq).symm.trans hb)
      exact ⟨a, b, hpa, hq, hr⟩
  · split
    · rename_i he
      subst he
      intro ht
      obtain ⟨b, hb, hbt⟩ := h.exists_mem_targetIds path targets ht
      refine ⟨_, b, h.get?_idsAfter_self path targets, hbt, (hd _ b).2 ?_⟩
      rw [if_pos rfl]
      exact hb
    · rename_i hne
      rintro ⟨a, b, ha, hb, hr⟩
      have ha' : a ≠ (g.ids.intern source).1 := fun he => by
        subst he
        have hp := get?_idsAfter source targets ha
        rw [h.get?_idsAfter_self source targets] at hp
        exact hne (Option.some.inj hp).symm
      refine ⟨a, b, get?_idsAfter source targets ha, get?_idsAfter source targets hb,
        (hd a b).2 ?_⟩
      rw [if_neg ha']
      exact hr

end Install

/-! ### Installing a map -/

/-- What a list of entries does to the graph, and which ids it notes. -/
structure Installed (g : PathGraph) (nodes : List Nat) (entries : List (String × List String))
    (r : PathGraph × List Nat) : Prop where
  /-- The graph is indexed afterwards. -/
  indexed : r.1.Indexed
  /-- The lists of entities stay as they are. -/
  owned : r.1.owned = g.owned
  /-- Paths keep their ids. -/
  kept : ∀ id path, g.ids.get? id = some path → r.1.ids.get? id = some path
  /-- The ids of the keys are noted. -/
  noted : ∃ new, r.2 = nodes ++ new ∧ new.map r.1.ids.get? = entries.map fun e => some e.1
  /-- The keys and what they read become nodes. -/
  node : ∀ path, r.1.Node path ↔ g.Node path ∨ ∃ e ∈ entries, path = e.1 ∨ path ∈ e.2
  /-- The keys read what their entry says, and other paths what they read before. -/
  reads : ∀ path target, r.1.Reads path target ↔
    match Entries.get? path entries with
    | some targets => target ∈ targets
    | none => g.Reads path target

theorem Indexed.foldl_install {g : PathGraph} (h : g.Indexed) (nodes : List Nat)
    {entries : List (String × List String)} (hn : (entries.map (·.1)).Nodup) :
    Installed g nodes entries (entries.foldl PathGraph.install (g, nodes)) := by
  induction entries generalizing g nodes with
  | nil => exact ⟨h, rfl, fun _ _ hp => hp, ⟨[], by simp, rfl⟩, by simp, fun _ _ => Iff.rfl⟩
  | cons e entries ih =>
    obtain ⟨source, targets⟩ := e
    obtain ⟨hfresh, hn⟩ := List.nodup_cons.1 hn
    have hi := h.install source targets nodes
    have hstep := ih hi (nodes ++ [(g.ids.intern source).1]) hn
    change Installed g nodes _ (entries.foldl PathGraph.install
      ((PathGraph.install (g, nodes) (source, targets)).1, nodes ++ [(g.ids.intern source).1]))
    refine ⟨hstep.indexed, hstep.owned, fun id path hp =>
      hstep.kept id path (get?_idsAfter source targets hp), ?_, fun path => ?_,
      fun path target => ?_⟩
    · obtain ⟨new, he, hm⟩ := hstep.noted
      refine ⟨(g.ids.intern source).1 :: new, by simpa using he, ?_⟩
      rw [List.map_cons, List.map_cons, hm,
        hstep.kept _ _ (h.get?_idsAfter_self source targets)]
    · refine (hstep.node path).trans ?_
      rw [h.node_install source targets]
      simp only [List.mem_cons, exists_eq_or_imp]
      grind
    · refine (hstep.reads path target).trans ?_
      have hr : (PathGraph.install (g, nodes) (source, targets)).1.Reads path target ↔ _ :=
        h.reads_install source targets
      rw [Entries.get?_cons]
      have hout : Entries.get? source entries = none := by
        rw [Entries.get?_eq_none_iff]
        intro v hv
        exact hfresh (List.mem_map.2 ⟨_, hv, rfl⟩)
      by_cases hp : path = source
      · subst hp
        rw [if_pos rfl, hout]
        simpa using hr
      · rw [if_neg hp]
        rw [if_neg hp] at hr
        cases Entries.get? path entries with
        | some _ => exact Iff.rfl
        | none => exact hr

/-! ### Removing ids -/

theorem Indexed.removeIds_spec {g : PathGraph} (h : g.Indexed) (ids : List Nat) :
    (g.removeIds ids).Indexed ∧
      (∀ path, (g.removeIds ids).Node path ↔
        g.Node path ∧ ¬ ∃ id ∈ ids, g.ids.get? id = some path) ∧
      ∀ path target, (g.removeIds ids).Reads path target ↔ g.Reads path target ∧
        ¬ (∃ id ∈ ids, g.ids.get? id = some path) ∧
        ¬ ∃ id ∈ ids, g.ids.get? id = some target := by
  suffices ∀ graph : DependencyGraph Nat, graph.Sound →
      let left := ids.foldl (fun graph id => (graph.removeKey id).2) graph
      left.Sound ∧ (∀ q, q ∈ left.nodes ↔ q ∈ graph.nodes ∧ q ∉ ids) ∧
        ∀ a b, b ∈ left.dependencies a ↔ b ∈ graph.dependencies a ∧ a ∉ ids ∧ b ∉ ids by
    obtain ⟨hs, hn, hd⟩ := this g.graph h.graph
    refine ⟨⟨h.ids, hs, fun id hid => h.named id ((hn id).1 hid).1, h.listed⟩, fun path => ?_,
      fun path target => ?_⟩
    · constructor
      · rintro ⟨id, hid, hp⟩
        refine ⟨⟨id, ((hn id).1 hid).1, hp⟩, ?_⟩
        rintro ⟨other, ho, hop⟩
        exact ((hn id).1 hid).2 (h.id_inj hop hp ▸ ho)
      · rintro ⟨⟨id, hid, hp⟩, hno⟩
        exact ⟨id, (hn id).2 ⟨hid, fun hm => hno ⟨id, hm, hp⟩⟩, hp⟩
    · constructor
      · rintro ⟨a, b, ha, hb, hr⟩
        obtain ⟨hr, hna, hnb⟩ := (hd a b).1 hr
        refine ⟨⟨a, b, ha, hb, hr⟩, ?_, ?_⟩
        · rintro ⟨other, ho, hop⟩
          exact hna (h.id_inj hop ha ▸ ho)
        · rintro ⟨other, ho, hop⟩
          exact hnb (h.id_inj hop hb ▸ ho)
      · rintro ⟨⟨a, b, ha, hb, hr⟩, hna, hnb⟩
        exact ⟨a, b, ha, hb, (hd a b).2 ⟨hr, fun hm => hna ⟨a, hm, ha⟩, fun hm => hnb ⟨b, hm, hb⟩⟩⟩
  induction ids with
  | nil => exact fun graph hs => ⟨hs, by simp, by simp⟩
  | cons id ids ih =>
    intro graph hs
    obtain ⟨hs', hn, hd⟩ := ih (graph.removeKey id).2 (hs.removeKey id)
    refine ⟨hs', fun q => ?_, fun a b => ?_⟩
    · rw [List.foldl_cons, hn, hs.mem_nodes_removeKey, List.mem_cons]
      grind
    · rw [List.foldl_cons, hd, hs.mem_dependencies_removeKey, List.mem_cons, List.mem_cons]
      grind

/-! ### The two changes -/

/-- The paths that an update of an entity takes out: those listed before and not listed now. -/
def Leaves (g : PathGraph) (entity : String) (map : DependencyMap) (path : String) : Prop :=
  g.Lists entity path ∧ path ∉ map.keys

namespace Installed

variable {g mid : PathGraph} {nodes : List Nat} {map : DependencyMap}
  (hi : Installed g [] map.entries (mid, nodes))
include hi

theorem map_get? : nodes.map mid.ids.get? = map.entries.map fun e => some e.1 := by
  obtain ⟨new, hnew, hmap⟩ := hi.noted
  simp only [List.nil_append] at hnew
  rw [hnew]
  exact hmap

/-- The noted ids are those of the keys. -/
theorem mem_keys_iff {path : String} :
    path ∈ map.keys ↔ ∃ id ∈ nodes, mid.ids.get? id = some path := by
  have hmem : some path ∈ nodes.map mid.ids.get? ↔
      some path ∈ map.entries.map fun e => some e.1 := by
    rw [hi.map_get?]
  simp only [List.mem_map, Option.some.injEq] at hmem
  rw [SortedMap.keys, List.mem_map]
  exact hmem.symm

/-- An id listed before keeps its path. -/
theorem get?_iff_of_listed (h : g.Indexed) {name path : String} {ids : List Nat} {id : Nat}
    (ho : g.owned.get? name = some ids) (hid : id ∈ ids) :
    mid.ids.get? id = some path ↔ g.ids.get? id = some path := by
  refine ⟨fun hp => ?_, hi.kept id path⟩
  obtain ⟨old, hold⟩ := h.listed name ids ho id hid
  obtain rfl := Option.some.inj ((hi.kept id old hold).symm.trans hp)
  exact hold

/-- The ids that entities list afterwards have paths. -/
theorem listed (h : g.Indexed) {entity name : String} {ids : List Nat}
    (hl : (mid.owned.insert entity nodes).get? name = some ids) :
    ∀ id ∈ ids, ∃ path, mid.ids.get? id = some path := by
  intro id hid
  have howned : mid.owned = g.owned := hi.owned
  rw [SortedMap.get?_insert, howned] at hl
  split at hl
  · obtain rfl := Option.some.inj hl
    have hmem : mid.ids.get? id ∈ nodes.map mid.ids.get? := List.mem_map_of_mem hid
    rw [hi.map_get?] at hmem
    obtain ⟨e, -, he⟩ := List.mem_map.1 hmem
    exact ⟨e.1, he.symm⟩
  · obtain ⟨path, hp⟩ := h.listed name ids hl id hid
    exact ⟨path, hi.kept id path hp⟩

/-- The ids that are taken out are those of the paths that leave. -/
theorem leaves_iff (h : g.Indexed) {entity path : String} :
    (∃ id ∈ (g.owned.getD entity []).filter fun id => id ∉ nodes, mid.ids.get? id = some path) ↔
      g.Leaves entity map path := by
  simp only [List.mem_filter, decide_eq_true_eq, SortedMap.getD, Leaves, Lists, hi.mem_keys_iff]
  constructor
  · rintro ⟨id, ⟨hid, hnot⟩, hp⟩
    cases ho : g.owned.get? entity with
    | none => simp [ho] at hid
    | some ids =>
      rw [ho, Option.getD_some] at hid
      refine ⟨⟨ids, rfl, id, hid, (hi.get?_iff_of_listed h ho hid).1 hp⟩, ?_⟩
      rintro ⟨other, hother, hop⟩
      exact hnot (hi.indexed.id_inj hop hp ▸ hother)
  · rintro ⟨⟨ids, ho, id, hid, hp⟩, hnot⟩
    rw [ho, Option.getD_some]
    exact ⟨id, ⟨hid, fun hm => hnot ⟨id, hm, hi.kept id path hp⟩⟩, hi.kept id path hp⟩

theorem lists_iff (h : g.Indexed) {entity name path : String} :
    ({ mid with owned := mid.owned.insert entity nodes } : PathGraph).Lists name path ↔
      if name = entity then path ∈ map.keys else g.Lists name path := by
  have howned : mid.owned = g.owned := hi.owned
  rw [Lists, Lists, SortedMap.get?_insert]
  split
  · rw [hi.mem_keys_iff]
    simp
  · rw [howned]
    refine exists_congr fun ids => and_congr_right fun ho => exists_congr fun id => ?_
    exact and_congr_right fun hid => hi.get?_iff_of_listed h ho hid

end Installed

/-- All that listing the paths of an entity with what they read does. -/
theorem Sound.update_spec {g : PathGraph} (h : g.Sound) (entity : String) (map : DependencyMap) :
    (g.update entity map).Sound ∧
      (∀ name path, (g.update entity map).Lists name path ↔
        if name = entity then path ∈ map.keys else g.Lists name path) ∧
      (∀ path, (g.update entity map).Node path ↔
        (g.Node path ∨ ∃ e ∈ map.entries, path = e.1 ∨ path ∈ e.2) ∧
          ¬ g.Leaves entity map path) ∧
      ∀ path target, (g.update entity map).Reads path target ↔
        (match map.get? path with
          | some targets => target ∈ targets
          | none => g.Reads path target) ∧
          ¬ g.Leaves entity map path ∧ ¬ g.Leaves entity map target := by
  have hi := h.toIndexed.foldl_install [] map.nodup_keys
  rw [update]
  generalize map.entries.foldl install (g, []) = r at hi ⊢
  obtain ⟨mid, nodes⟩ := r
  have hindexed : ({ mid with owned := mid.owned.insert entity nodes } : PathGraph).Indexed :=
    ⟨hi.indexed.ids, hi.indexed.graph, hi.indexed.named, fun _ _ => hi.listed h.toIndexed⟩
  obtain ⟨hs, hn, hr⟩ := hindexed.removeIds_spec
    ((g.owned.getD entity []).filter fun id => id ∉ nodes)
  have hleaves : ∀ path, _ ↔ g.Leaves entity map path := fun path => hi.leaves_iff h.toIndexed
  refine ⟨⟨⟨hs.ids, hs.graph, hs.named, hs.listed⟩, fun hf => by cases hf⟩,
    fun name path => hi.lists_iff h.toIndexed, fun path => ?_, fun path target => ?_⟩
  · exact (hn path).trans (and_congr (hi.node path) (not_congr (hleaves path)))
  · exact (hr path target).trans (and_congr (hi.reads path target)
      (and_congr (not_congr (hleaves path)) (not_congr (hleaves target))))

/-- All that taking the paths of an entity out does. -/
theorem Sound.remove_spec {g : PathGraph} (h : g.Sound) (entity : String) :
    (g.remove entity).2.Sound ∧
      (∀ name path, (g.remove entity).2.Lists name path ↔
        name ≠ entity ∧ g.Lists name path) ∧
      (∀ path, (g.remove entity).2.Node path ↔ g.Node path ∧ ¬ g.Lists entity path) ∧
      ∀ path target, (g.remove entity).2.Reads path target ↔ g.Reads path target ∧
        ¬ g.Lists entity path ∧ ¬ g.Lists entity target := by
  rw [remove]
  cases ho : g.owned.get? entity with
  | none =>
    have hnone : ∀ path, ¬ g.Lists entity path := by
      rintro path ⟨ids, hids, -⟩
      rw [ho] at hids
      cases hids
    refine ⟨h, fun name path => ⟨fun hl => ⟨?_, hl⟩, And.right⟩, fun path => ?_,
      fun path target => ?_⟩
    · rintro rfl
      exact hnone path hl
    · simp [hnone]
    · simp [hnone]
  | some ids =>
    have hindexed : ({ g with owned := g.owned.erase entity } : PathGraph).Indexed := by
      refine ⟨h.ids, h.graph, h.named, fun name list hl id hid => ?_⟩
      rw [SortedMap.get?_erase] at hl
      split at hl
      · cases hl
      · exact h.listed name list hl id hid
    obtain ⟨hs, hn, hr⟩ := hindexed.removeIds_spec ids
    have hlists : ∀ path, (∃ id ∈ ids, g.ids.get? id = some path) ↔ g.Lists entity path := by
      intro path
      simp [Lists, ho]
    refine ⟨⟨⟨hs.ids, hs.graph, hs.named, hs.listed⟩, fun hf => by cases hf⟩, fun name path => ?_,
      fun path => (hn path).trans (and_congr Iff.rfl (not_congr (hlists path))),
      fun path target => (hr path target).trans
        (and_congr Iff.rfl (and_congr (not_congr (hlists path)) (not_congr (hlists target))))⟩
    change (∃ list, (g.owned.erase entity).get? name = some list ∧
      ∃ id ∈ list, g.ids.get? id = some path) ↔ _
    rw [SortedMap.get?_erase, Lists]
    split
    · simp_all
    · simp_all

/-! ### The order -/

/-- Refreshing computes the order, whether it was stale or not. -/
theorem Sound.refreshed_eq {g : PathGraph} (h : g.Sound) :
    g.refreshed = { g with order := .compute g.graph, stale := false } := by
  rw [refreshed, refreshOrder]
  cases hs : g.stale with
  | true => rfl
  | false =>
    have ho := h.fresh hs
    obtain ⟨ids, graph, owned, order, stale⟩ := g
    simp only at hs ho
    subst hs ho
    rfl

theorem Sound.refresh {g : PathGraph} (h : g.Sound) :
    ({ g with order := .compute g.graph, stale := false } : PathGraph).Sound :=
  ⟨⟨h.ids, h.graph, h.named, h.listed⟩, fun _ => rfl⟩

/-- Different nodes are different paths. -/
theorem Indexed.nodup_paths {g : PathGraph} (h : g.Indexed) {ids : List Nat} (hn : ids.Nodup)
    (hm : ∀ id ∈ ids, id ∈ g.graph.nodes) : (g.paths ids).Nodup := by
  refine List.Nodup.map_on (fun a ha b hb he => ?_) hn
  obtain ⟨p, hp⟩ := h.named a (hm a ha)
  obtain ⟨q, hq⟩ := h.named b (hm b hb)
  rw [path_of_get? hp, path_of_get? hq] at he
  exact h.id_inj hp (he ▸ hq)

/-- The path is the other one, or reads it through other paths. -/
def Affects (g : PathGraph) (root path : String) : Prop :=
  Relation.ReflTransGen (fun target path => g.Reads path target) root path

/-- Ids affect each other as their paths do. -/
theorem Indexed.affects_iff {g : PathGraph} (h : g.Indexed) {a b : Nat} {root path : String}
    (ha : g.ids.get? a = some root) (hb : g.ids.get? b = some path) :
    g.graph.Affects a b ↔ g.Affects root path := by
  constructor
  · intro hab
    induction hab generalizing path with
    | refl =>
      obtain rfl := Option.some.inj (ha.symm.trans hb)
      exact .refl
    | tail _ hcb ih =>
      have hd := h.graph.mirror.2 hcb
      obtain ⟨mid, hc⟩ := h.named _ (h.graph.target hd)
      exact (ih hc).tail ⟨_, _, hb, hc, hd⟩
  · intro hrp
    induction hrp generalizing b with
    | refl => exact h.id_inj ha hb ▸ .refl
    | tail _ hread ih =>
      obtain ⟨b', c, hb', hc, hd⟩ := hread
      obtain rfl := h.id_inj hb hb'
      exact (ih hc).tail (h.graph.mirror.1 hd)

/-- The path reads the other one, itself or through other paths. -/
def Depends (g : PathGraph) (path target : String) : Prop := Relation.TransGen g.Reads path target

/-- Ids depend on each other as their paths do. -/
theorem Indexed.depends_iff {g : PathGraph} (h : g.Indexed) {a b : Nat} {path target : String}
    (ha : g.ids.get? a = some path) (hb : g.ids.get? b = some target) :
    g.graph.DependsOn a b ↔ g.Depends path target := by
  constructor
  · intro hab
    induction hab generalizing target with
    | single hd => exact .single ⟨_, _, ha, hb, hd⟩
    | tail _ hd ih =>
      obtain ⟨mid, hc⟩ := h.named _ (h.graph.source hd)
      exact (ih hc).tail ⟨_, _, hc, hb, hd⟩
  · intro hpt
    induction hpt generalizing b with
    | single hread =>
      obtain ⟨a', b', ha', hb', hd⟩ := hread
      obtain rfl := h.id_inj ha ha'
      obtain rfl := h.id_inj hb hb'
      exact .single hd
    | tail _ hread ih =>
      obtain ⟨c, b', hc, hb', hd⟩ := hread
      obtain rfl := h.id_inj hb hb'
      exact (ih hc).tail hd

/-- Walks along reads from the path end. -/
def Grounded (g : PathGraph) (path : String) : Prop := Acc (fun target p => g.Reads p target) path

/-- No path on a walk that has to end depends on itself. -/
theorem Grounded.not_depends {g : PathGraph} {path target : String} (h : g.Grounded path)
    (hw : Relation.ReflTransGen g.Reads path target) : ¬ g.Depends target target :=
  not_transGen_of_acc h hw

/-- No path depends on itself if each stands higher than what it reads. -/
theorem acyclic_of_rank (g : PathGraph) (rank : String → Nat) (h : ∀ a < g.ids.size,
    ∀ b ∈ g.graph.dependencies a, rank (g.path b) < rank (g.path a)) (path : String) :
    ¬ g.Depends path path := by
  have hreads : ∀ p q, g.Reads p q → rank q < rank p := by
    rintro p q ⟨a, b, ha, hb, hd⟩
    have hlt : a < g.ids.size := (Array.getElem?_eq_some_iff.1 ha).1
    have hrank := h a hlt b hd
    rwa [path_of_get? ha, path_of_get? hb] at hrank
  intro hd
  have hlower : ∀ q, g.Depends path q → rank q < rank path := by
    intro q hq
    induction hq with
    | single hr => exact hreads _ _ hr
    | tail _ hr ih => exact (hreads _ _ hr).trans ih
  exact Nat.lt_irrefl _ (hlower path hd)

/-- Walks end where no path on them depends on itself, since there are finitely many nodes. -/
theorem Indexed.grounded_of_acyclic {g : PathGraph} (h : g.Indexed) {path : String}
    (ha : ∀ q, Relation.ReflTransGen g.Reads path q → ¬ g.Depends q q) : g.Grounded path := by
  refine acc_of_acyclic ?_ ha
  refine (List.finite_toSet (path :: g.paths g.graph.nodes.toList)).subset fun q hq => ?_
  rcases Relation.ReflTransGen.cases_tail hq with rfl | ⟨mid, -, hr⟩
  · exact List.mem_cons_self
  · obtain ⟨id, hid, hp⟩ := (h.node_of_reads hr).2
    refine List.mem_cons_of_mem _ (List.mem_map.2 ⟨id, SortedSet.mem_toList.2 hid, ?_⟩)
    exact path_of_get? hp

/-- A path from which walks along reads end has such an id. -/
theorem Indexed.grounded_id {g : PathGraph} (h : g.Indexed) {path : String}
    (hg : g.Grounded path) {id : Nat} (hp : g.ids.get? id = some path) : g.graph.Grounded id := by
  induction hg generalizing id with
  | intro path _ ih =>
    refine Acc.intro id fun d hd => ?_
    obtain ⟨target, ht⟩ := h.named d (h.graph.target hd)
    exact ih target ⟨id, d, hp, ht, hd⟩ ht

/-- A grounded path stands behind what it reads in what is left of the order. -/
theorem Sound.before_of_grounded {g : PathGraph} (h : g.Sound) {keep : Nat → Bool}
    {pre post : List String} {path target : String} (hg : g.Grounded path)
    (ho : g.paths ((EvaluationOrder.compute g.graph).order.filter keep) = pre ++ path :: post)
    (hr : g.Reads path target)
    (ht : target ∈ g.paths ((EvaluationOrder.compute g.graph).order.filter keep)) :
    target ∈ pre := by
  rw [paths] at ho ht
  obtain ⟨ids, rest, hsplit, rfl, hrest⟩ := List.map_eq_append_iff.1 ho
  obtain ⟨id, more, rfl, hid, -⟩ := List.map_eq_cons_iff.1 hrest
  have hname : ∀ {i}, i ∈ (EvaluationOrder.compute g.graph).order.filter keep →
      g.ids.get? i = some (g.path i) := by
    intro i hi
    obtain ⟨p, hp⟩ := h.named i ((EvaluationOrder.mem_order_compute h.graph).1
      (List.mem_of_mem_filter hi))
    rw [path_of_get? hp, hp]
  obtain ⟨a, b, ha, hb, hd⟩ := hr
  have hia : id = a := by
    refine h.id_inj ?_ ha
    rw [← hid]
    exact hname (by rw [hsplit]; simp)
  subst hia
  obtain ⟨t, htm, hte⟩ := List.mem_map.1 ht
  have htb : t = b := by
    refine h.id_inj ?_ hb
    rw [← hte]
    exact hname htm
  subst htb
  have hbefore := EvaluationOrder.dependencies_before_filter h.graph (h.grounded_id hg ha) hsplit
    t hd (List.mem_filter.1 htm).2
  exact List.mem_map.2 ⟨t, hbefore, hte⟩

/-! ### Reading the graph -/

theorem mem_neighbours_iff {g : PathGraph} (h : g.Indexed) {path target : String}
    {list : Nat → List Nat} (hl : ∀ a, ∀ b ∈ list a, b ∈ g.graph.nodes) :
    target ∈ g.neighbours path list ↔ ∃ a b, g.ids.get? a = some path ∧
      g.ids.get? b = some target ∧ b ∈ list a := by
  rw [neighbours]
  cases hid : g.id? path with
  | none =>
    simp only [List.not_mem_nil, false_iff]
    rintro ⟨a, b, ha, -, -⟩
    rw [h.id?_eq_some_iff.2 ha] at hid
    cases hid
  | some id =>
    have hpath := h.id?_eq_some_iff.1 hid
    simp only [paths, List.mem_map, List.mem_mergeSort]
    constructor
    · rintro ⟨b, hb, rfl⟩
      obtain ⟨q, hq⟩ := h.named b (hl id b hb)
      exact ⟨id, b, hpath, by rw [path_of_get? hq]; exact hq, hb⟩
    · rintro ⟨a, b, ha, hb, hm⟩
      exact ⟨b, h.id_inj ha hpath ▸ hm, path_of_get? hb⟩

/-- The dependencies of a path are what it reads. -/
theorem Indexed.mem_dependencies_iff {g : PathGraph} (h : g.Indexed) {path target : String} :
    target ∈ g.dependencies path ↔ g.Reads path target :=
  mem_neighbours_iff h fun _ _ hb => h.graph.target hb

/-- The map of the graph has an entry for each node, with what the node reads. -/
theorem Indexed.get?_dependencyMap {g : PathGraph} (h : g.Indexed) {path : String}
    {targets : List String} : g.dependencyMap.get? path = some targets ↔
      g.Node path ∧ targets = g.dependencies path := by
  have hmem : path ∈ g.graph.keys.map g.path ↔ g.Node path := by
    simp only [DependencyGraph.keys, List.mem_map, SortedSet.mem_toList]
    constructor
    · rintro ⟨id, hid, rfl⟩
      obtain ⟨p, hp⟩ := h.named id hid
      exact ⟨id, hid, by rw [path_of_get? hp]; exact hp⟩
    · rintro ⟨id, hid, hp⟩
      exact ⟨id, hid, path_of_get? hp⟩
  rw [dependencyMap, SortedMap.get?_ofList_map]
  split
  · rename_i hm
    simp [hmem.1 hm, eq_comm]
  · rename_i hm
    simp [mt hmem.2 hm]

end Recalc.PathGraph
