import Recalc.Proofs.Evaluator.Pass
import Recalc.Proofs.Expr.Congruence
import Recalc.Proofs.Lookup

/-!
# What the value of a leaf depends on

The names in the code of a leaf start with chains, and what a chain resolves to is read by the leaf
(`Coherent.reads_of_chain`). So two evaluators that have the same raw value at a leaf and the same
payloads at and below the paths that it reads compute the same payload for it, or fail both with the
same words (`Coherent.compute_alike`); and if the values themselves are the same, they compute the
very same (`Coherent.compute_eq`).
-/

namespace Recalc

/-! ### Records whose dependencies are all listed -/

/-- The name of the entity is no keyword, and an instance of another module than a query has no
dynamic properties. -/
structure EntityConfig.Plain (c : EntityConfig) : Prop where
  /-- The name can start a chain. -/
  name : Token.isKeyword c.name = false
  /-- What module instances that are not read have is not run either. -/
  instances : c.kind = .moduleInstance → c.moduleType ≠ some .query →
    ∀ property, c.isDynamicPath property = false

/-- All records of the tree are plain. -/
def Tree.Plain (t : Tree) : Prop := ∀ name r, t.get? name = some r → r.config.Plain

/-- A chain in the code of a property leads to one of the paths that are reported for the property
where its code is read. -/
theorem Extractor.mem_forPath_of_chain {x : Extractor} (hx : x = .binding ∨ x = .declared)
    {r : EntityRecord} {known : KnownPaths} {property chain target : String} {value : Json}
    (hne : property ≠ "") (hk : known.contains (Path.join r.name property) = true)
    (hd : r.config.isDynamicPath property = true)
    (hv : r.entity.property? property = some value)
    (hc : chain ∈ Reference.chains value r.config.bindingSyntax)
    (hr : known.resolve? chain = some target) :
    target ∈ x.forPath r.entity r.config (Path.join r.name property) known := by
  have howned : ownedProperty? r.config (Path.join r.name property) known = some property :=
    ownedProperty?_eq_some_iff.2 ⟨hne, rfl, hk⟩
  have hmem : ∀ paths, target ∈ addReferences r.entity r.config property known paths :=
    fun paths => mem_addReferences.2 (.inr ⟨hd, value, hv, chain, hc, hr⟩)
  rcases hx with rfl | rfl
  · change target ∈ bindingTargets _ _ _ _
    rw [bindingTargets, howned]
    exact hmem _
  · change target ∈ allTargets _ _ _ _
    rw [allTargets, howned]
    exact hmem _

/-- A chain in the code of a property leads to one of the targets of the property. -/
theorem EntityRecord.mem_targets_of_chain {r : EntityRecord} (hp : r.config.Plain)
    {known : KnownPaths} {property chain target : String} {value : Json} (hne : property ≠ "")
    (hk : known.contains (Path.join r.name property) = true)
    (hd : r.config.isDynamicPath property = true)
    (hv : r.entity.property? property = some value)
    (hc : chain ∈ Reference.chains value r.config.bindingSyntax)
    (hr : known.resolve? chain = some target) :
    target ∈ r.targets known (Path.join r.name property) := by
  rw [targets]
  by_cases hkind : r.config.kind = .moduleInstance
  · have hquery : r.config.moduleType = some .query := by
      by_contra hq
      rw [hp.instances hkind hq] at hd
      cases hd
    rw [hkind, Registry.standard_get_moduleInstance]
    change target ∈ Extractor.moduleTargets _ _ _ _
    rw [Extractor.moduleTargets, hquery]
    exact Extractor.mem_forPath_of_chain (.inr rfl) hne hk hd hv hc hr
  · exact Extractor.mem_forPath_of_chain (Registry.standard_get_of_ne hkind) hne hk hd hv hc hr

/-! ### What chains resolve to -/

/-- A chain resolves to a known initial part of it. -/
theorem KnownPaths.exists_part_of_resolve? {known : KnownPaths} {name : String}
    {rest : List String} (hk : Path.Keys (name :: rest)) {target : String}
    (h : known.resolve? (Path.joinSegments (name :: rest)) = some target) :
    ∃ first, first <+: rest ∧ target = Path.joinSegments (name :: first) := by
  have hmem := List.mem_of_find?_eq_some h
  rw [Path.prefixes, Path.segments_join (List.cons_ne_nil _ _) hk, List.mem_map] at hmem
  obtain ⟨part, hpart, rfl⟩ := hmem
  obtain ⟨hne, hprefix⟩ := Path.mem_initialParts.1 hpart
  obtain ⟨first, more, rfl⟩ := List.exists_cons_of_ne_nil hne
  obtain ⟨rfl, hrest⟩ := List.cons_prefix_cons.1 hprefix
  exact ⟨more, hrest, rfl⟩

/-- A chain that starts with a known name resolves to something. -/
theorem KnownPaths.exists_resolve? {known : KnownPaths} {name : String} {rest : List String}
    (hk : Path.Keys (name :: rest)) (h : known.contains name = true) :
    ∃ target, known.resolve? (Path.joinSegments (name :: rest)) = some target := by
  rw [resolve?, ← Option.isSome_iff_exists, List.find?_isSome]
  refine ⟨name, ?_, h⟩
  rw [Path.prefixes, Path.segments_join (List.cons_ne_nil _ _) hk, List.mem_map]
  refine ⟨[name], Path.mem_initialParts.2 ⟨List.cons_ne_nil _ _, ?_⟩, rfl⟩
  exact List.cons_prefix_cons.2 ⟨rfl, List.nil_prefix⟩

/-- A name in code starts with a chain of the code that resolves to an initial part of the name,
wherever the entity of the name is known. -/
theorem Expr.exists_part_of_parse {code : String} {expr : Expr} (h : parse code = .ok expr)
    {root : String} {members : List String} (hx : (root, members) ∈ expr.names)
    (hk : Token.isKeyword root = false) : ∃ chain ∈ Chain.ofText code, Path.entityOf chain = root ∧
      ∀ known : KnownPaths, known.contains root = true → ∃ first rest, members = first ++ rest ∧
        known.resolve? chain = some (Path.joinSegments (root :: first)) := by
  obtain ⟨hkeys, hchain⟩ := exists_chain_of_parse h ⟨root, members⟩ hx
  obtain ⟨names, hnames, hmem⟩ := hchain hk
  have hkn : Path.Keys (root :: names) := fun x hx =>
    hkeys x ((List.cons_prefix_cons.2 ⟨rfl, hnames⟩).subset hx)
  refine ⟨_, hmem, Path.entityOf_joinSegments hkn.not_mem_separator, fun known hroot => ?_⟩
  obtain ⟨target, hres⟩ := KnownPaths.exists_resolve? hkn hroot
  obtain ⟨first, hfirst, rfl⟩ := KnownPaths.exists_part_of_resolve? hkn hres
  obtain ⟨rest, rfl⟩ := hfirst.trans hnames
  exact ⟨first, rest, rfl, hres⟩

/-- A name in code is in neither of two trees, or a chain of the code resolves to an initial part of
it, if the chains start with entities that are in both trees or in neither. -/
theorem Expr.part_or_absent {t t' : Tree} (ht : t.Regular)
    (hkey : ∀ name, Token.isKeyword name = true → t.contains name = false)
    (hkey' : ∀ name, Token.isKeyword name = true → t'.contains name = false) {known : KnownPaths}
    (hknown : ∀ path, known.contains path = true ↔ t.Has path) {code : String} {expr : Expr}
    (h : parse code = .ok expr) (hroot : ∀ chain ∈ Chain.ofText code,
      t.contains (Path.entityOf chain) = t'.contains (Path.entityOf chain)) {root : String}
    {members : List String} (hx : (root, members) ∈ expr.names) :
    t.contains root = false ∧ t'.contains root = false ∨
      ∃ chain ∈ Chain.ofText code, ∃ first rest, members = first ++ rest ∧
        known.resolve? chain = some (Path.joinSegments (root :: first)) := by
  cases hkw : Token.isKeyword root with
  | true => exact .inl ⟨hkey root hkw, hkey' root hkw⟩
  | false =>
    obtain ⟨chain, hmem, hentity, hpart⟩ := exists_part_of_parse h hx hkw
    have hsame := hroot chain hmem
    rw [hentity] at hsame
    cases hc : t.contains root with
    | false => exact .inl ⟨rfl, hsame ▸ hc⟩
    | true =>
      have hkeys := (exists_chain_of_parse h ⟨root, members⟩ hx).1
      obtain ⟨first, rest, he, hres⟩ :=
        hpart known ((hknown root).2 (ht.has_of_contains (Path.keys_cons.1 hkeys).1 hc))
      exact .inr ⟨chain, hmem, first, rest, he, hres⟩

/-- The chain means the same against both trees and snapshots. -/
structure Snapshot.SameChain (known : KnownPaths) (t t' : Tree) (s s' : Snapshot) (chain : String) :
    Prop where
  /-- The entity of the chain is in both trees or in neither. -/
  root : t.contains (Path.entityOf chain) = t'.contains (Path.entityOf chain)
  /-- What the chain resolves to is the same. -/
  target : ∀ target, known.resolve? chain = some target → SamePart t t' s s' target

/-- The chain means the very same: the values themselves are the same. -/
structure Snapshot.EqualChain (known : KnownPaths) (t t' : Tree) (s s' : Snapshot)
    (chain : String) : Prop extends SameChain known t t' s s' chain where
  /-- The values are the same. -/
  equal : ∀ target, known.resolve? chain = some target → s.EqualFrom s' target

theorem Tree.Plain.not_contains {t : Tree} (h : t.Plain) (ht : t.Regular) {name : String}
    (hk : Token.isKeyword name = true) : t.contains name = false := by
  refine Bool.eq_false_iff.2 fun hc => ?_
  obtain ⟨r, hr⟩ := Tree.contains_iff.1 hc
  have hname := (h name r hr).name
  rw [show r.config.name = name from ht.named hr, hk] at hname
  cases hname

section

variable {t t' : Tree} {s s' : Snapshot} (ht : t.Regular) (ht' : t'.Regular)
  (hkey : ∀ name, Token.isKeyword name = true → t.contains name = false)
  (hkey' : ∀ name, Token.isKeyword name = true → t'.contains name = false)
  (hs : s.Within t) (hs' : s'.Within t') {known : KnownPaths}
  (hknown : ∀ path, known.contains path = true ↔ t.Has path)
include ht ht' hkey hkey' hs hs' hknown

/-- Code whose chains mean the same means the same. -/
theorem Engine.sameCode {code : String}
    (h : ∀ chain ∈ Chain.ofText code, Snapshot.SameChain known t t' s s' chain) :
    Engine.SameCode (t.scope s) (t'.scope s') code := by
  rintro expr hexpr ⟨root, members⟩ hx
  have hkeys := (Expr.exists_chain_of_parse hexpr ⟨root, members⟩ hx).1
  rcases Expr.part_or_absent ht hkey hkey' hknown hexpr (fun chain hc => (h chain hc).root) hx with
    ⟨hn, hn'⟩ | ⟨chain, hc, first, rest, rfl, hres⟩
  · rw [Expr.readPath_of_not_contains ht hs hkeys hn,
      Expr.readPath_of_not_contains ht' hs' hkeys hn']
    exact .error rfl
  · exact Expr.readPath_agree ht ht' hs hs' hkeys ((h chain hc).target _ hres)

/-- Code whose chains mean the very same means the very same. -/
theorem Engine.equalCode {code : String}
    (h : ∀ chain ∈ Chain.ofText code, Snapshot.EqualChain known t t' s s' chain) :
    Engine.EqualCode (t.scope s) (t'.scope s') code := by
  rintro expr hexpr ⟨root, members⟩ hx
  have hkeys := (Expr.exists_chain_of_parse hexpr ⟨root, members⟩ hx).1
  rcases Expr.part_or_absent ht hkey hkey' hknown hexpr (fun chain hc => (h chain hc).root) hx with
    ⟨hn, hn'⟩ | ⟨chain, hc, first, rest, rfl, hres⟩
  · rw [Expr.readPath_of_not_contains ht hs hkeys hn,
      Expr.readPath_of_not_contains ht' hs' hkeys hn']
  · exact Expr.readPath_congr ht ht' hs hs' hkeys ((h chain hc).target _ hres)
      ((h chain hc).equal _ hres)

end

/-! ### The value of a leaf -/

/-- A path turned out alike: it has values with one payload, or it failed with the same words. -/
inductive Computed.Alike : Computed → Computed → Prop where
  /-- Two values. -/
  | value {v w : Value} (h : SamePayload v w) : Alike (.value v) (.value w)
  /-- Two failures. -/
  | failed {error error' : ExprError} (h : error.Same error') :
      Alike (.failed error) (.failed error')

namespace Evaluator

/-- What a leaf of a record with a raw value is computed to be. -/
def computeLeaf (e : Evaluator) (s : Snapshot) (path : String) (r : EntityRecord) (raw : Json) :
    Computed :=
  match r.config.isDynamicPath (Path.split path).2, raw with
  | true, .string text =>
    match e.runCode s r.config.bindingSyntax text with
    | .ok value => .value value
    | .error error => .failed error
  | _, raw => .value (e.staticValue path raw)

theorem compute_of_leafAt {e : Evaluator} {path : String} {r : EntityRecord} {raw : Json}
    (h : e.tree.LeafAt path r raw) (s : Snapshot) :
    e.compute s path = e.computeLeaf s path r raw := by
  rw [compute]
  simp only [h.found, if_neg h.proper, h.value, h.leaf, Bool.false_eq_true, if_false]
  rfl

/-- The value of a leaf that is not dynamic is its raw value. -/
theorem payload?_staticValue {e : Evaluator} {pending dirty : String → Prop}
    (h : Coherent e pending dirty) {path : String} {r : EntityRecord} {raw : Json}
    (hl : e.tree.LeafAt path r raw) : (e.staticValue path raw).payload? = some raw := by
  rw [staticValue]
  cases hb : e.bulk.get? path with
  | none => rfl
  | some allocation =>
    obtain ⟨identity, payload⟩ := allocation
    obtain ⟨r', hr', property, -, he, hv, -⟩ := (h.bulk path payload).1 ⟨identity, hb⟩
    obtain rfl := Option.some.inj (hl.found.symm.trans hr')
    have hprop := (h.tree.wellFormed hl.found).join_inj hv hl.value
      (he.symm.trans (h.tree.path_eq_of_leafAt hl))
    rw [hprop, hl.value] at hv
    exact hv.symm

end Evaluator

/-! ### Two evaluators -/

theorem Metered.Alike.agree {A : Type} {R : A → A → Prop} {m m' : Metered A} (h : Alike R m m')
    (budget : Budget) : Agree ExprError.Same R (m.runWith budget).1 (m'.runWith budget).1 := by
  have hb := h budget
  generalize m.runWith budget = outcome, m'.runWith budget = outcome' at hb
  cases hb with
  | ok h left => exact .ok h
  | error h => exact .error h

namespace Coherent

variable {e e' : Evaluator} {pending dirty pending' dirty' : String → Prop} {s s' : Snapshot}
  (h : Coherent e pending dirty) (h' : Coherent e' pending' dirty')
  (hengine : e.engine = .standard) (hengine' : e'.engine = .standard)
  (hsettings : e'.settings = e.settings) (hp : e.tree.Plain) (hp' : e'.tree.Plain)
  (hs : s.Within e.tree) (hs' : s'.Within e'.tree)
include h h' hengine hengine' hsettings hp hp' hs hs'

/-- Texts whose chains mean the same have the same payload. -/
theorem runCode_agree {reading : BindingSyntax} {text : String}
    (hchains : ∀ chain ∈ Reference.chains (.string text) reading,
      Snapshot.SameChain e.known e.tree e'.tree s s' chain) :
    Agree ExprError.Same SamePayload (e.runCode s reading text) (e'.runCode s' reading text) := by
  have hcode : ∀ code ∈ Reference.fragments (.string text) reading,
      Engine.SameCode (e.scope s) (e'.scope s') code := fun code hc =>
    Engine.sameCode h.tree h'.tree (fun _ => hp.not_contains h.tree)
      (fun _ => hp'.not_contains h'.tree) hs hs' h.known fun chain hm =>
        hchains chain (List.mem_flatMap.2 ⟨code, hc, hm⟩)
  rw [Evaluator.runCode.eq_def, Evaluator.runCode.eq_def, hengine, hengine', hsettings]
  cases reading with
  | template =>
    simp only
    split
    · exact (Engine.evaluateTemplate_standard_alike hcode).agree _
    · exact .ok rfl
  | script =>
    exact (Engine.run_standard_alike (hcode text (List.mem_singleton_self text))).agree _

/-- **Leaves are computed alike** in two evaluators in which they have the same raw value and the
chains of their code mean the same. -/
theorem compute_alike {path : String} {r r' : EntityRecord} {raw : Json}
    (hl : e.tree.LeafAt path r raw) (hl' : e'.tree.LeafAt path r' raw)
    (hconfig : r'.config = r.config)
    (hchains : r.config.isDynamicPath (Path.split path).2 = true →
      ∀ chain ∈ Reference.chains raw r.config.bindingSyntax,
        Snapshot.SameChain e.known e.tree e'.tree s s' chain) :
    Computed.Alike (e.compute s path) (e'.compute s' path) := by
  have hstatic : SamePayload (e.staticValue path raw) (e'.staticValue path raw) :=
    (Evaluator.payload?_staticValue h hl).trans (Evaluator.payload?_staticValue h' hl').symm
  rw [Evaluator.compute_of_leafAt hl, Evaluator.compute_of_leafAt hl',
    Evaluator.computeLeaf.eq_def, Evaluator.computeLeaf.eq_def, hconfig]
  split
  · rename_i text hd
    have hcode := h.runCode_agree h' hengine hengine' hsettings hp hp' hs hs' (hchains hd)
    generalize e.runCode s r.config.bindingSyntax text = result,
      e'.runCode s' r.config.bindingSyntax text = result' at hcode ⊢
    cases hcode with
    | ok hv => exact .value hv
    | error herror => exact .failed herror
  · exact .value hstatic

/-- **Leaves are computed to be the very same** in two evaluators in which they have the same raw
value and the same allocation, and the chains of their code mean the very same. -/
theorem compute_eq {path : String} {r r' : EntityRecord} {raw : Json}
    (hl : e.tree.LeafAt path r raw) (hl' : e'.tree.LeafAt path r' raw)
    (hconfig : r'.config = r.config) (hbulk : e'.bulk.get? path = e.bulk.get? path)
    (hchains : r.config.isDynamicPath (Path.split path).2 = true →
      ∀ chain ∈ Reference.chains raw r.config.bindingSyntax,
        Snapshot.EqualChain e.known e.tree e'.tree s s' chain) :
    e.compute s path = e'.compute s' path := by
  have hstatic : e.staticValue path raw = e'.staticValue path raw := by
    rw [Evaluator.staticValue, Evaluator.staticValue, hbulk]
  rw [Evaluator.compute_of_leafAt hl, Evaluator.compute_of_leafAt hl',
    Evaluator.computeLeaf.eq_def, Evaluator.computeLeaf.eq_def, hconfig]
  split
  · rename_i text hd
    have hwork : Engine.standard.work (e.scope s) r.config.bindingSyntax text =
        Engine.standard.work (e'.scope s') r.config.bindingSyntax text :=
      Engine.work_standard_congr fun code hc =>
        Engine.equalCode h.tree h'.tree (fun _ => hp.not_contains h.tree)
          (fun _ => hp'.not_contains h'.tree) hs hs' h.known fun chain hm =>
            hchains hd chain (List.mem_flatMap.2 ⟨code, hc, hm⟩)
    rw [Evaluator.runCode_eq, Evaluator.runCode_eq, hengine, hengine', hsettings, hwork]
  · rw [hstatic]

end Coherent

/-! ### What a leaf reads -/

namespace Coherent

section

variable {e : Evaluator} {pending : String → Prop} (h : Coherent e pending (fun _ => False))
include h

/-- **Code is read**: a leaf reads what the chains of its code resolve to. -/
theorem reads_of_chain (hp : e.tree.Plain) {path chain target : String} {r : EntityRecord}
    {raw : Json} (hl : e.tree.LeafAt path r raw)
    (hd : r.config.isDynamicPath (Path.split path).2 = true)
    (hc : chain ∈ Reference.chains raw r.config.bindingSyntax)
    (hr : e.known.resolve? chain = some target) : e.graph.Reads path target := by
  have hleaf : e.tree.Leaf path := h.tree.leaf_iff.2 ⟨r, raw, hl⟩
  have hpath := h.tree.path_eq_of_leafAt hl
  have htarget := EntityRecord.mem_targets_of_chain (hp _ r hl.found) hl.proper
    (hpath ▸ (h.known path).2 hleaf.has) hd hl.value hc hr
  rw [← hpath] at htarget
  exact h.reads_iff.2 ⟨r, hl.found, (Tree.has_iff hl.found).1 hleaf.has, .inl htarget⟩

/-- A path reads the paths right below it. -/
theorem reads_child {name key : String} {rest : List String}
    (hk : Path.Keys (name :: (rest ++ [key])))
    (hp : e.tree.Has (Path.joinSegments (name :: (rest ++ [key])))) :
    e.graph.Reads (Path.joinSegments (name :: rest))
      (Path.joinSegments (name :: (rest ++ [key]))) := by
  have hparent : Path.parent? (Path.joinSegments (name :: rest ++ [key])) = _ :=
    Path.parent?_concat (List.cons_ne_nil name rest) hk
  have hrest : Path.Keys (name :: rest) :=
    (Path.keys_append.1 (show Path.Keys ((name :: rest) ++ [key]) from hk)).1
  have habove := (h.tree.has_above hk (List.cons_ne_nil key []) hp).1
  obtain ⟨r, hr, hh⟩ := hp
  rw [Path.entityOf_joinSegments hk.not_mem_separator] at hr
  have hr' : e.tree.get? (Path.entityOf (Path.joinSegments (name :: rest))) = some r := by
    rw [Path.entityOf_joinSegments hrest.not_mem_separator, hr]
  exact h.reads_iff.2 ⟨r, hr', (Tree.has_iff hr').1 habove, .inr ⟨hh, hparent⟩⟩

/-- A path reads the paths below it, itself or through other paths. -/
theorem depends_below {name : String} {rest more : List String}
    (hk : Path.Keys (name :: (rest ++ more)))
    (hp : e.tree.Has (Path.joinSegments (name :: (rest ++ more)))) :
    Relation.ReflTransGen e.graph.Reads (Path.joinSegments (name :: rest))
      (Path.joinSegments (name :: (rest ++ more))) := by
  induction more using List.reverseRecOn with
  | nil =>
    rw [List.append_nil]
  | append_singleton more key ih =>
    rw [← List.append_assoc] at hk hp ⊢
    have hmore : Path.Keys (name :: (rest ++ more)) :=
      (Path.keys_append.1 (show Path.Keys ((name :: (rest ++ more)) ++ [key]) from hk)).1
    have habove := (h.tree.has_above hk (List.cons_ne_nil key []) hp).1
    exact (ih hmore habove).tail (h.reads_child hk hp)

/-- What a path reads it depends on, with all that lies below. -/
theorem depends_of_reads {path target q : String} (hr : e.graph.Reads path target)
    (hq : q = target ∨ Path.isDescendant q target = true) (hp : e.tree.Has q) :
    e.graph.Depends path q := by
  rcases hq with rfl | hq
  · exact .single hr
  · have htarget := h.has_iff_node.2 (h.graph.node_of_reads hr).2
    obtain ⟨name, rest, rfl, hk⟩ := h.tree.exists_keys_of_has htarget
    obtain ⟨first, segs, rfl, hkq⟩ := h.tree.exists_keys_of_has hp
    obtain ⟨more, -, he⟩ := (Path.isDescendant_joinSegments (by simp) hk (by simp) hkq).1 hq
    rw [he] at hkq hp ⊢
    exact Relation.TransGen.head' hr (h.depends_below hkq hp)

/-- A chain means the same if the leaves that the leaf with the chain depends on have values with
the same payload. -/
theorem sameChain_of_depends (hp : e.tree.Plain) {e' : Evaluator} {s s' : Snapshot}
    (hs : s.Within e.tree) {path chain : String} {r : EntityRecord} {raw : Json}
    (hl : e.tree.LeafAt path r raw) (hd : r.config.isDynamicPath (Path.split path).2 = true)
    (hc : chain ∈ Reference.chains raw r.config.bindingSyntax)
    (hroot : e.tree.contains (Path.entityOf chain) = e'.tree.contains (Path.entityOf chain))
    (hhas : ∀ target, e.graph.Reads path target → e'.tree.Has target)
    (hleaf : ∀ target q, e.graph.Reads path target →
      q = target ∨ Path.isDescendant q target = true →
      ∀ value, s'.get? q = some value → e.tree.Leaf q)
    (hsame : ∀ q, e.graph.Depends path q → e.tree.Leaf q →
      (∃ value, s.get? q = some value) ∧ s.payloadAt q = s'.payloadAt q) :
    Snapshot.SameChain e.known e.tree e'.tree s s' chain := by
  refine ⟨hroot, fun target hr => ?_⟩
  have hreads := h.reads_of_chain hp hl hd hc hr
  exact ⟨h.has_iff_node.2 (h.graph.node_of_reads hreads).2, hhas target hreads,
    hs.sameFrom (hleaf target · hreads)
      fun q hq hlq => (hsame q (h.depends_of_reads hreads hq hlq.has) hlq).2,
    fun q hq hlq => (hsame q (h.depends_of_reads hreads hq hlq.has) hlq).1⟩

end

section

variable {e e' : Evaluator} {pending pending' dirty' : String → Prop} {s s' : Snapshot}
  (h : Coherent e pending (fun _ => False)) (h' : Coherent e' pending' dirty')
  (hengine : e.engine = .standard) (hengine' : e'.engine = .standard)
  (hsettings : e'.settings = e.settings) (hp : e.tree.Plain) (hp' : e'.tree.Plain)
  (hs : s.Within e.tree) (hs' : s'.Within e'.tree) {path : String} {r r' : EntityRecord}
  {raw : Json} (hl : e.tree.LeafAt path r raw) (hl' : e'.tree.LeafAt path r' raw)
  (hconfig : r'.config = r.config)
  (hroot : r.config.isDynamicPath (Path.split path).2 = true →
    ∀ chain ∈ Reference.chains raw r.config.bindingSyntax,
      e.tree.contains (Path.entityOf chain) = e'.tree.contains (Path.entityOf chain))
  (hhas : ∀ target, e.graph.Reads path target → e'.tree.Has target)
  (hleaf : ∀ target q, e.graph.Reads path target →
    q = target ∨ Path.isDescendant q target = true →
    ∀ value, s'.get? q = some value → e.tree.Leaf q)
include h h' hengine hengine' hsettings hp hp' hs hs' hl hl' hconfig hroot hhas hleaf

/-- **Leaves are computed alike** where the leaves that they depend on have values with the same
payload. -/
theorem compute_alike_of_depends
    (hsame : ∀ q, e.graph.Depends path q → e.tree.Leaf q →
      (∃ value, s.get? q = some value) ∧ s.payloadAt q = s'.payloadAt q) :
    Computed.Alike (e.compute s path) (e'.compute s' path) :=
  h.compute_alike h' hengine hengine' hsettings hp hp' hs hs' hl hl' hconfig fun hd chain hc =>
    h.sameChain_of_depends hp hs hl hd hc (hroot hd chain hc) hhas hleaf hsame

/-- **Leaves are computed to be the very same** where they have the same allocation and the leaves
that they depend on have the same values. -/
theorem compute_eq_of_depends (hbulk : e'.bulk.get? path = e.bulk.get? path)
    (hsame : ∀ q, e.graph.Depends path q → e.tree.Leaf q →
      (∃ value, s.get? q = some value) ∧ s.get? q = s'.get? q) :
    e.compute s path = e'.compute s' path := by
  have hpayload : ∀ q, e.graph.Depends path q → e.tree.Leaf q →
      (∃ value, s.get? q = some value) ∧ s.payloadAt q = s'.payloadAt q := by
    intro q hq hlq
    obtain ⟨hv, he⟩ := hsame q hq hlq
    exact ⟨hv, by rw [Snapshot.payloadAt, Snapshot.payloadAt, he]⟩
  refine h.compute_eq h' hengine hengine' hsettings hp hp' hs hs' hl hl' hconfig hbulk
    fun hd chain hc => ⟨h.sameChain_of_depends hp hs hl hd hc (hroot hd chain hc) hhas hleaf
      hpayload, fun target hr => ?_⟩
  have hreads := h.reads_of_chain hp hl hd hc hr
  exact hs.equalFrom (hleaf target · hreads)
    fun q hq hlq => (hsame q (h.depends_of_reads hreads hq hlq.has) hlq).2

end

end Coherent

end Recalc
