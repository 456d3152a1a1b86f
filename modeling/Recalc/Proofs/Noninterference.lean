import Recalc.Proofs.Evaluator.Compute
import Recalc.Proofs.Evaluator.Load
import Recalc.Proofs.Expr.Congruence

/-!
# A binding reads what is reported for it

The paths that are reported for a dynamic property cover everything its code can read: two
snapshots with the same values at and below these paths give the same result, by the same steps
(`Evaluator.compute_noninterference`). Code is read as the expression it parses to, and each name of
the expression is looked up by its longest known initial part, so two facts meet here. A name starts
with a chain of the text, and what the chain resolves to is reported. And a look-up that goes on
above a reported path does so because there is an undefined leaf, and then it finds nothing that
could differ.
-/

namespace Recalc

/-! ### Snapshots of the leaves of a tree -/

namespace Snapshot

/-- The snapshot stores values for exactly the leaves of the tree. -/
def Fills (s : Snapshot) (t : Tree) : Prop :=
  ∀ path, (∃ value, s.get? path = some value) ↔ t.Leaf path

variable {s s' : Snapshot} {t : Tree}

theorem Fills.within (h : s.Fills t) : s.Within t := fun path value hv => (h path).1 ⟨value, hv⟩

/-- Snapshots of the leaves of a tree store nothing elsewhere, so it is enough to compare leaves. -/
theorem Fills.equalFrom (h : s.Fills t) (h' : s'.Fills t) {path : String}
    (hl : ∀ q, t.Leaf q → q = path ∨ Path.isDescendant q path = true → s.get? q = s'.get? q) :
    s.EqualFrom s' path :=
  h.within.equalFrom (fun q _ value hv => h'.within q value hv) fun q hq hlq => hl q hlq hq

end Snapshot

/-! ### The code of a property -/

/-- Code whose chains resolve to parts with the same values means the same. -/
theorem Tree.Regular.equalCode {t : Tree} {s s' : Snapshot} (ht : t.Regular)
    (hkey : ∀ name, t.contains name = true → Token.isKeyword name = false) (hs : s.Fills t)
    (hs' : s'.Fills t) {code : String}
    (h : ∀ chain ∈ Chain.ofText code, ∀ target, t.knownPaths.resolve? chain = some target →
      s.EqualFrom s' target) :
    Engine.EqualCode (t.scope s) (t.scope s') code := by
  have hno : ∀ name, Token.isKeyword name = true → t.contains name = false := fun name hk =>
    Bool.eq_false_iff.2 fun hc => by
      rw [hkey name hc] at hk
      cases hk
  refine Engine.equalCode ht ht hno hno hs.within hs'.within
    (fun _ => ht.contains_knownPaths) fun chain hm => ⟨⟨rfl, fun target hr => ?_⟩, h chain hm⟩
  have hhas := ht.contains_knownPaths.1 (KnownPaths.contains_of_resolve? hr)
  exact ⟨hhas, hhas, (h chain hm target hr).sameFrom, fun q _ hl => (hs q).2 hl⟩

/-- **A binding reads only what is reported for it.** Take a tree whose entities are not named by
keywords, a dynamic property with a text in it, and two snapshots of the leaves of the tree that
have the same values at and below the paths that an extractor for code reports for the property. The
text is the same work against both snapshots: with the same budget it comes to the same value or the
same failure and leaves the same budget, so it takes the same steps. And the path of the property,
whose value is the result of this work (`runCode_eq`), is computed to be the same. -/
theorem Evaluator.compute_noninterference {e : Evaluator} (ht : e.tree.Regular)
    (hkey : ∀ name, e.tree.contains name = true → Token.isKeyword name = false)
    (hengine : e.engine = .standard) {x : Extractor} (hx : x = .binding ∨ x = .declared)
    {r : EntityRecord} (hr : r ∈ e.tree.toList) {property text : String}
    (hd : r.config.isDynamicPath property = true)
    (hv : r.entity.property? property = some (.string text)) {s s' : Snapshot}
    (hs : s.Fills e.tree) (hs' : s'.Fills e.tree)
    (h : ∀ target ∈ x.forPath r.entity r.config (Path.join r.name property) e.tree.knownPaths,
      ∀ q, e.tree.Leaf q → q = target ∨ Path.isDescendant q target = true →
        s.get? q = s'.get? q) :
    (∀ budget, (Engine.standard.work (e.scope s) r.config.bindingSyntax text).runWith budget =
      (Engine.standard.work (e.scope s') r.config.bindingSyntax text).runWith budget) ∧
      e.compute s (Path.join r.name property) = e.compute s' (Path.join r.name property) := by
  have hfound := ht.mem_toList.1 hr
  have hwell := ht.wellFormed hfound
  obtain ⟨hsplit, hne⟩ := hwell.split_join hv
  have hleaf := ht.leafAt_join hfound hv rfl
  have hwork : Engine.standard.work (e.scope s) r.config.bindingSyntax text =
      Engine.standard.work (e.scope s') r.config.bindingSyntax text := by
    refine Engine.work_standard_congr fun code hc => ?_
    refine ht.equalCode hkey hs hs' fun chain hm target hres => hs.equalFrom hs' (h target ?_)
    exact Extractor.mem_forPath_of_chain hx hne
      (ht.contains_knownPaths.2 (ht.leaf_iff.2 ⟨r, _, hleaf⟩).has) hd hv
      (List.mem_flatMap.2 ⟨code, hc, hm⟩) hres
  refine ⟨fun budget => by rw [hwork], ?_⟩
  rw [compute_of_leafAt hleaf, compute_of_leafAt hleaf]
  simp only [computeLeaf, hsplit, hd, runCode_eq, hengine, hwork]

/-! ### Snapshots of chosen values -/

namespace Snapshot

/-- The snapshot with chosen values at the leaves of a tree. -/
def ofLeaves (t : Tree) (value : String → Value) : Snapshot :=
  ⟨.ofList ((t.toList.flatMap (·.leafPaths)).map fun path => (path, value path))⟩

theorem get?_ofLeaves (t : Tree) (value : String → Value) (path : String) :
    (ofLeaves t value).get? path =
      if ∃ r ∈ t.toList, path ∈ r.leafPaths then some (value path) else none := by
  have hget := SortedMap.get?_ofList_map id value (t.toList.flatMap (·.leafPaths)) path
  simp only [List.map_id, List.mem_flatMap] at hget
  exact hget

theorem fills_ofLeaves {t : Tree} (ht : t.Regular) (value : String → Value) :
    (ofLeaves t value).Fills t := by
  intro path
  rw [get?_ofLeaves, ht.leaf_iff_mem_leafPaths]
  by_cases h : ∃ r ∈ t.toList, path ∈ r.leafPaths
  · rw [if_pos h]
    exact ⟨fun _ => h, fun _ => ⟨_, rfl⟩⟩
  · rw [if_neg h]
    exact ⟨fun hv => absurd hv (by simp), fun hl => absurd hl h⟩

end Snapshot

/-- An evaluator with a greeting and its echo in the tree, before any pass. -/
def Evaluator.unevaluatedEcho : Evaluator :=
  { ofSettings default with tree := [.echo, .greeting].foldl Tree.upsert .empty }

/-- What is stored for the echo itself makes no difference to what the echo is computed to be. -/
theorem Evaluator.compute_noninterference_echo :
    ∃ s s' : Snapshot, s.Fills unevaluatedEcho.tree ∧ s'.Fills unevaluatedEcho.tree ∧
      s.get? "Echo.text" ≠ s'.get? "Echo.text" ∧
      unevaluatedEcho.compute s "Echo.text" = unevaluatedEcho.compute s' "Echo.text" := by
  have ht : unevaluatedEcho.tree.Regular :=
    Tree.regular_of_ofList? (fun r hr => (loadable_echo.wellFormed r hr).entity) rfl
  have hnames : unevaluatedEcho.tree.names = ["Echo", "Greeting"] := by decide +kernel
  have hkey : ∀ name, unevaluatedEcho.tree.contains name = true →
      Token.isKeyword name = false := by
    intro name hc
    have hname := ht.registered.2 (Tree.contains_iff.1 hc)
    rw [hnames, List.mem_pair] at hname
    rcases hname with rfl | rfl <;> decide +kernel
  have hreads : Extractor.binding.forPath EntityRecord.echo.entity EntityRecord.echo.config
      (Path.join EntityRecord.echo.name "text") unevaluatedEcho.tree.knownPaths =
        ["Greeting.text"] := by decide +kernel
  have hmem : EntityRecord.echo ∈ unevaluatedEcho.tree.toList :=
    ht.mem_toList.2 ((Tree.get?_foldl_upsert loadable_echo.nodup .empty _).1 _
      List.mem_cons_self rfl)
  have hd : EntityRecord.echo.config.isDynamicPath "text" = true := by decide +kernel
  have hv : EntityRecord.echo.entity.property? "text" =
      some (.string "\x7b\x7b Greeting.text \x7d\x7d") := rfl
  have hdiff : ∀ q, q = "Greeting.text" ∨ Path.isDescendant q "Greeting.text" = true →
      q ≠ "Echo.text" := by
    rintro q hq rfl
    revert hq
    decide +kernel
  refine ⟨.ofLeaves _ fun _ => .data (.string "hello"),
    .ofLeaves _ fun path => .data (.string (if path = "Echo.text" then "stale" else "hello")),
    Snapshot.fills_ofLeaves ht _, Snapshot.fills_ofLeaves ht _, ?_, ?_⟩
  · have hleaf : ∃ r ∈ unevaluatedEcho.tree.toList, "Echo.text" ∈ r.leafPaths := by decide +kernel
    simp [Snapshot.get?_ofLeaves, hleaf]
  · refine (compute_noninterference ht hkey rfl (.inl rfl) hmem hd hv
      (Snapshot.fills_ofLeaves ht _) (Snapshot.fills_ofLeaves ht _) fun target ht q _ hq => ?_).2
    rw [hreads, List.mem_singleton] at ht
    rw [Snapshot.get?_ofLeaves, Snapshot.get?_ofLeaves, if_neg (hdiff q (ht ▸ hq))]

end Recalc
