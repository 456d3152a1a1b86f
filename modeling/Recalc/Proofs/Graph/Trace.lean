import Recalc.Graph.Trace
import Recalc.Proofs.Graph.Affected
import Mathlib.Data.List.Chain

/-!
# Traces and explanations

A trace reports the roots and then each dependency on a key that the roots affect, once
(`Sound.traces_trace`): a walk takes each affected key off its stack exactly once and reports all
its dependents then. A recorder that hears a trace can explain the affected keys and no others, each
by a chain of dependencies from a root that repeats no key (`Built.trace_explains`).

What makes explanations end is the order of the reports. When a key is reported as caused by
another, that other one is already recorded; so the cause of a key, once it has one, is the end of a
chain that was complete before (`Recorder.Founded`), however the dependencies go round in circles.
-/

namespace Recalc

universe u

variable {K : Type u} [Ord K] [DecidableEq K]

/-! ### What a trace reports -/

namespace DependencyGraph

/-- The dependencies on the keys of a list: each time a dependent and the key that it depends on. -/
def dependenciesOn (g : DependencyGraph K) (keys : List K) : List (K × K) :=
  keys.flatMap fun key => (g.dependents key).map (·, key)

theorem mem_dependenciesOn {g : DependencyGraph K} {keys : List K} {key because : K} :
    (key, because) ∈ g.dependenciesOn keys ↔ because ∈ keys ∧ key ∈ g.dependents because := by
  simp [dependenciesOn]

theorem Sound.nodup_dependenciesOn {g : DependencyGraph K} (h : g.Sound) {keys : List K}
    (hn : keys.Nodup) : (g.dependenciesOn keys).Nodup := by
  refine List.nodup_flatMap.2 ⟨fun key _ => ?_, hn.imp fun hne => ?_⟩
  · exact (h.nodup_dependents key).map fun _ _ he => (Prod.mk.inj he).1
  · simp only [Function.onFun, List.disjoint_left, List.mem_map]
    rintro _ ⟨_, -, rfl⟩ ⟨_, -, he⟩
    exact hne (Prod.mk.inj he).2.symm

/-- The report of a dependency. -/
def reportOf (p : K × K) : TraceEvent K := .caused p.1 p.2

/-- The events report the roots, all of them as they were given, and then the dependencies of the
list, which are those on a root or on a key that depends on one, each once. -/
structure Traces (g : DependencyGraph K) (roots : List K) (events : List (TraceEvent K))
    (pairs : List (K × K)) : Prop where
  /-- The roots are reported first. -/
  events_eq : events = roots.map .root ++ pairs.map reportOf
  /-- No dependency is reported twice. -/
  nodup : pairs.Nodup
  /-- Reported are the dependencies on what is affected. -/
  mem : ∀ key because, (key, because) ∈ pairs ↔
    because ∈ g.dependencies key ∧ ∃ root ∈ roots, because = root ∨ g.DependsOn because root

variable [Std.LawfulEqOrd K] [Std.TransOrd K]

theorem traceFrom_eq (g : DependencyGraph K) (fuel : Nat) (visited : SortedSet K)
    (stack : List K) : g.traceFrom fuel visited stack =
      (g.dependenciesOn (taken g.dependents fuel visited stack)).map reportOf := by
  induction fuel generalizing visited stack with
  | zero => rfl
  | succ fuel ih =>
    cases stack with
    | nil => rfl
    | cons key stack =>
      rw [traceFrom, taken]
      simp only [ih, dependenciesOn, List.flatMap_cons, List.map_append, List.map_map]
      rfl

/-- A walk from roots takes each key that one of them affects exactly once. -/
theorem trace_eq (g : DependencyGraph K) (roots : List K) :
    ∃ keys : List K, keys.Nodup ∧ (∀ q, q ∈ keys ↔ ∃ root ∈ roots, g.Affects root q) ∧
      g.trace roots = roots.map .root ++ (g.dependenciesOn keys).map reportOf := by
  obtain ⟨hn, hf, ha⟩ := unvisited_spec SortedSet.empty roots
  have hclosure : ∀ q, q ∈ g.closure roots ↔ ∃ root ∈ roots, g.Affects root q :=
    fun _ => mem_closure_iff
  rw [closure] at hclosure
  rw [trace]
  generalize unvisited SortedSet.empty roots = r at hn hf ha hclosure ⊢
  obtain ⟨found, visited⟩ := r
  simp only [closureFrom_eq_walk] at hn hf ha hclosure ⊢
  have hstack : ∀ q, q ∈ push found [] ↔ q ∈ visited := fun q => by
    rw [mem_push, or_iff_left List.not_mem_nil, hf, ha]
    simp
  have hall : ∀ a, ∀ b ∈ g.dependents a, b ∈ g.allDependents := fun _ _ => mem_allDependents
  obtain ⟨htn, ht⟩ := taken_spec hall (found.length + g.edgeTotal + 1) visited (push found [])
    (by have : waiting g.allDependents visited ≤ g.edgeTotal := waiting_le _ visited
        simp [push]
        omega)
    (by simpa [push] using hn) (fun q => (hstack q).1)
  refine ⟨_, htn, fun q => ?_, by rw [traceFrom_eq]⟩
  have hin : q ∈ visited → q ∈ walk g.dependents (found.length + g.edgeTotal + 1) visited
      (push found []) := mem_walk_of_mem _
  rw [ht, hstack, ← hclosure]
  grind

/-- **A trace** reports the roots, and then every dependency on what they affect once. -/
theorem Sound.traces_trace {g : DependencyGraph K} (h : g.Sound) (roots : List K) :
    ∃ pairs, g.Traces roots (g.trace roots) pairs := by
  obtain ⟨keys, hn, hk, he⟩ := g.trace_eq roots
  refine ⟨g.dependenciesOn keys, he, h.nodup_dependenciesOn hn, fun key because => ?_⟩
  rw [mem_dependenciesOn, hk, ← h.mirror, and_comm]
  simp only [h.affects_iff]

end DependencyGraph

open DependencyGraph

/-! ### Chains of causes -/

namespace Recorder

/-- The path leads from a root to the key, each key on it after the first recorded as caused by the
one before it, and no key on it twice. -/
inductive Leads (r : Recorder K) : List K → K → Prop where
  /-- A root explains itself. -/
  | root {key : K} (hc : r.cause? key = some .root) : Leads r [key] key
  /-- The path to its cause leads on to a key that is not on it. -/
  | step {path : List K} {because key : K} (h : Leads r path because)
      (hc : r.cause? key = some (.dependency because)) (hn : key ∉ path) :
      Leads r (path ++ [key]) key

variable {r other : Recorder K} {path : List K} {key : K}

theorem Leads.mono (h : r.Leads path key)
    (hm : ∀ key, r.cause? key ≠ none → other.cause? key = r.cause? key) :
    other.Leads path key := by
  induction h with
  | root hc => exact .root ((hm _ (by simp [hc])).trans hc)
  | step _ hc hn ih => exact .step ih ((hm _ (by simp [hc])).trans hc) hn

theorem Leads.nodup (h : r.Leads path key) : path.Nodup := by
  induction h with
  | root => exact List.nodup_singleton _
  | step _ _ hn ih => exact List.nodup_append.2 ⟨ih, by simp, by grind⟩

theorem Leads.recorded (h : r.Leads path key) : ∀ q ∈ path, r.cause? q ≠ none := by
  induction h with
  | root hc => simp [hc]
  | step _ hc _ ih =>
    intro q hq
    rcases List.mem_append.1 hq with hq | hq
    · exact ih q hq
    · rw [List.mem_singleton.1 hq, hc]
      simp

theorem Leads.getLast? (h : r.Leads path key) : path.getLast? = some key := by
  cases h <;> simp

theorem Leads.head? (h : r.Leads path key) :
    ∃ root, path.head? = some root ∧ r.cause? root = some .root := by
  induction h with
  | root hc => exact ⟨_, rfl, hc⟩
  | step _ _ _ ih =>
    obtain ⟨root, hr, hc⟩ := ih
    exact ⟨root, by simp [List.head?_append, hr], hc⟩

theorem Leads.isChain {R : K → K → Prop} (h : r.Leads path key)
    (hR : ∀ key because, r.cause? key = some (.dependency because) → R because key) :
    path.IsChain R := by
  induction h with
  | root => exact List.isChain_singleton _
  | step hp hc _ ih =>
    refine List.isChain_append.2 ⟨ih, List.isChain_singleton _, ?_⟩
    rintro x hx y hy
    rw [hp.getLast?, Option.mem_some_iff] at hx
    rw [List.head?_cons, Option.mem_some_iff] at hy
    exact hx ▸ hy ▸ hR _ _ hc

/-- Following the causes back finds the path, if it does not meet the keys in front of which it is
looked for. -/
theorem Leads.chainTo (h : r.Leads path key) {fuel : Nat} {after : List K}
    (hfuel : path.length ≤ fuel) (ha : ∀ q ∈ path, q ∉ after) :
    r.chainTo fuel after key = some (path ++ after) := by
  induction h generalizing fuel after with
  | root hc =>
    obtain ⟨fuel, rfl⟩ : ∃ n, fuel = n + 1 := ⟨fuel - 1, by simp at hfuel; omega⟩
    rw [Recorder.chainTo, if_neg (ha _ (by simp)), hc]
    rfl
  | @step path because key h hc hn ih =>
    rw [List.length_append, List.length_singleton] at hfuel
    obtain ⟨fuel, rfl⟩ : ∃ n, fuel = n + 1 := ⟨fuel - 1, by omega⟩
    have hafter : ∀ q ∈ path, q ∉ key :: after := fun q hq hk =>
      (List.mem_cons.1 hk).elim (fun e => hn (e ▸ hq)) (ha q (List.mem_append_left _ hq))
    rw [Recorder.chainTo, if_neg (ha key (by simp)), hc]
    simp only [ih (Nat.le_of_succ_le_succ hfuel) hafter, List.append_assoc, List.singleton_append]

variable [Std.LawfulEqOrd K]

theorem cause?_ne_none_iff : r.cause? key ≠ none ↔ key ∈ r.causes.keys := by
  rw [SortedMap.mem_keys_iff, Option.ne_none_iff_exists', cause?]

/-- A path has no more keys than were recorded, so a search for it has fuel enough. -/
theorem Leads.explain? (h : r.Leads path key) : r.explain? key = some path := by
  have hlength : path.length ≤ r.causes.keys.length :=
    (h.nodup.subperm fun q hq => cause?_ne_none_iff.1 (h.recorded q hq)).length_le
  rw [SortedMap.keys, List.length_map] at hlength
  refine (h.chainTo (Nat.le_succ_of_le hlength) fun _ _ => List.not_mem_nil).trans ?_
  rw [List.append_nil]

omit [Std.LawfulEqOrd K] in
theorem explain?_eq_none (h : r.cause? key = none) : r.explain? key = none := by
  rw [Recorder.explain?, Recorder.chainTo, if_neg List.not_mem_nil, h]

/-! ### Recording a trace -/

/-- The key of which an event reports something. -/
def reported : TraceEvent K → K
  | .root key => key
  | .caused key _ => key

/-- What is recorded can be explained: the recorded roots are `roots`, causes are dependencies, and
a path leads to each recorded key. -/
structure Founded (r : Recorder K) (g : DependencyGraph K) (roots : List K) : Prop where
  /-- The roots are those keys that are recorded as roots. -/
  root : ∀ key, r.cause? key = some .root ↔ key ∈ roots
  /-- A key depends on what caused it. -/
  dependency : ∀ key because, r.cause? key = some (.dependency because) →
    because ∈ g.dependencies key
  /-- Causes go back to a root. -/
  leads : ∀ key, r.cause? key ≠ none → ∃ path, r.Leads path key

variable [Std.TransOrd K]

theorem cause?_record_root (r : Recorder K) (key q : K) :
    (r.record (.root key)).cause? q = if q = key then some .root else r.cause? q :=
  SortedMap.get?_insert _ _ _ _

/-- A dependency is recorded if its key had no cause. -/
theorem cause?_record_caused (r : Recorder K) (key because q : K) :
    (r.record (.caused key because)).cause? q =
      if q = key ∧ r.cause? key = none then some (.dependency because) else r.cause? q := by
  cases hc : r.cause? key with
  | none =>
    have hn : r.causes.contains key = false := by rw [SortedMap.contains, ← cause?, hc]; rfl
    simp only [record, hn, Bool.false_eq_true, if_false, and_true]
    exact SortedMap.get?_insert _ _ _ _
  | some cause =>
    have hy : r.causes.contains key = true := by rw [SortedMap.contains, ← cause?, hc]; rfl
    simp [record, hy]

theorem cause?_recordAll_roots (r : Recorder K) (roots : List K) (q : K) :
    (r.recordAll (roots.map .root)).cause? q =
      if q ∈ roots then some .root else r.cause? q := by
  induction roots generalizing r with
  | nil => simp [recordAll]
  | cons root roots ih =>
    rw [List.map_cons, recordAll, List.foldl_cons]
    refine (ih _).trans ?_
    rw [cause?_record_root]
    grind

/-- Recorded afterwards is what was recorded before and what is reported. -/
theorem recorded_recordAll (r : Recorder K) (events : List (TraceEvent K)) (q : K) :
    (r.recordAll events).cause? q ≠ none ↔
      r.cause? q ≠ none ∨ ∃ event ∈ events, reported event = q := by
  induction events generalizing r with
  | nil => simp [recordAll]
  | cons event events ih =>
    have hone : (r.record event).cause? q ≠ none ↔ r.cause? q ≠ none ∨ reported event = q := by
      cases event with
      | root key => rw [cause?_record_root, reported]; grind
      | caused key because => rw [cause?_record_caused, reported]; grind
    rw [recordAll, List.foldl_cons]
    refine (ih _).trans ?_
    rw [hone, List.exists_mem_cons_iff, or_assoc]

/-- After the roots are recorded. -/
theorem founded_roots (g : DependencyGraph K) (roots : List K) :
    (Recorder.empty.recordAll (roots.map .root)).Founded g roots where
  root key := by
    rw [cause?_recordAll_roots]
    split <;> simp_all [cause?, empty]
  dependency key because := by
    rw [cause?_recordAll_roots]
    split <;> simp [cause?, empty]
  leads key hk := by
    refine ⟨[key], .root ?_⟩
    rw [cause?_recordAll_roots] at hk ⊢
    split
    · rfl
    · rename_i hn
      exact absurd (by rw [if_neg hn]; rfl) hk

/-- Recording that a recorded key caused one that depends on it. -/
theorem Founded.caused {g : DependencyGraph K} {roots : List K} {because : K}
    (h : r.Founded g roots) (hd : because ∈ g.dependencies key) (hb : r.cause? because ≠ none) :
    (r.record (.caused key because)).Founded g roots := by
  by_cases hk : r.cause? key = none
  · have hcause : ∀ q, (r.record (.caused key because)).cause? q =
        if q = key then some (.dependency because) else r.cause? q := fun q => by
      simp only [cause?_record_caused, hk, and_true]
    have hmono : ∀ q, r.cause? q ≠ none → (r.record (.caused key because)).cause? q = r.cause? q :=
      fun q hq => by
        rw [hcause, if_neg]
        rintro rfl
        exact hq hk
    refine ⟨fun q => ?_, fun q other hq => ?_, fun q hq => ?_⟩
    · rw [← h.root, hcause]
      split
      · simp_all
      · rfl
    · rw [hcause] at hq
      split at hq
      · rename_i he
        cases hq
        exact he ▸ hd
      · exact h.dependency q other hq
    · by_cases he : q = key
      · subst he
        obtain ⟨path, hpath⟩ := h.leads because hb
        exact ⟨path ++ [q], .step (hpath.mono hmono) (by rw [hcause, if_pos rfl])
          fun hq => hpath.recorded q hq hk⟩
      · rw [hcause, if_neg he] at hq
        obtain ⟨path, hpath⟩ := h.leads q hq
        exact ⟨path, hpath.mono hmono⟩
  · -- The key has a cause, and keeps it.
    have hsame : r.record (.caused key because) = r := if_pos (Option.isSome_iff_ne_none.2 hk)
    rwa [hsame]

/-- Recording the dependents of a recorded key. -/
theorem Founded.recordAll_dependents {g : DependencyGraph K} {roots : List K} {because : K}
    {keys : List K} (h : r.Founded g roots) (hd : ∀ key ∈ keys, because ∈ g.dependencies key)
    (hb : r.cause? because ≠ none) :
    (r.recordAll (keys.map (TraceEvent.caused · because))).Founded g roots := by
  induction keys generalizing r with
  | nil => exact h
  | cons key keys ih =>
    have hkept := (recorded_recordAll r [.caused key because] because).2 (.inl hb)
    exact ih (h.caused (hd key List.mem_cons_self) hb)
      (fun q hq => hd q (List.mem_cons_of_mem _ hq)) hkept

/-- Recording a walk. All keys on its stack are recorded already, at each step. -/
theorem Founded.recordAll_traceFrom {g : DependencyGraph K} (hg : g.Sound) {roots : List K}
    (fuel : Nat) {visited : SortedSet K} {stack : List K} (h : r.Founded g roots)
    (hs : ∀ q ∈ stack, r.cause? q ≠ none) :
    (r.recordAll (g.traceFrom fuel visited stack)).Founded g roots := by
  induction fuel generalizing r visited stack with
  | zero => exact h
  | succ fuel ih =>
    cases stack with
    | nil => exact h
    | cons key stack =>
      rw [traceFrom, recordAll, List.foldl_append]
      refine ih (h.recordAll_dependents (fun q hq => hg.mirror.2 hq) (hs key List.mem_cons_self)) ?_
      intro q hq
      refine (recorded_recordAll r _ q).2 ?_
      rcases mem_push.1 hq with hq | hq
      · have hd : q ∈ g.dependents key := (((unvisited_spec visited _).2.1 q).1 hq).1
        exact .inr ⟨_, List.mem_map_of_mem hd, rfl⟩
      · exact .inl (hs q (List.mem_cons_of_mem _ hq))

/-- A recorder that heard a trace can explain what it recorded. -/
theorem founded_trace {g : DependencyGraph K} (hg : g.Sound) (roots : List K) :
    (Recorder.empty.recordAll (g.trace roots)).Founded g roots := by
  rw [trace, recordAll, List.foldl_append]
  refine (founded_roots g roots).recordAll_traceFrom hg _ fun q hq => ?_
  have hr : q ∈ roots := (((unvisited_spec SortedSet.empty roots).2.1 q).1
    ((mem_push.1 hq).resolve_right List.not_mem_nil)).1
  have hroot : (Recorder.empty.recordAll (roots.map .root)).cause? q = some .root := by
    rw [cause?_recordAll_roots, if_pos hr]
  exact fun hnone => nomatch hroot.symm.trans hnone

end Recorder

namespace DependencyGraph

variable [Std.LawfulEqOrd K] [Std.TransOrd K]

/-- Recorded in a trace are the roots and what depends on one of them. -/
theorem Sound.recorded_trace {g : DependencyGraph K} (h : g.Sound) {roots : List K} {key : K} :
    (Recorder.empty.recordAll (g.trace roots)).cause? key ≠ none ↔
      ∃ root ∈ roots, key = root ∨ g.DependsOn key root := by
  obtain ⟨pairs, ht⟩ := h.traces_trace roots
  rw [Recorder.recorded_recordAll, ht.events_eq]
  constructor
  · rintro (hk | ⟨event, he, rfl⟩)
    · exact absurd rfl hk
    · rcases List.mem_append.1 he with he | he
      · obtain ⟨root, hr, rfl⟩ := List.mem_map.1 he
        exact ⟨root, hr, .inl rfl⟩
      · obtain ⟨⟨key, because⟩, hp, rfl⟩ := List.mem_map.1 he
        obtain ⟨hd, root, hr, hb⟩ := (ht.mem key because).1 hp
        refine ⟨root, hr, .inr ?_⟩
        rcases hb with rfl | hb
        · exact .single hd
        · exact .head hd hb
  · rintro ⟨root, hr, rfl | hd⟩
    · exact .inr ⟨.root key, List.mem_append_left _ (List.mem_map_of_mem hr), rfl⟩
    · obtain ⟨because, hk, hb⟩ := Relation.TransGen.head'_iff.1 hd
      have hp : (key, because) ∈ pairs := (ht.mem key because).2 ⟨hk, root, hr,
        (Relation.reflTransGen_iff_eq_or_transGen.1 hb).imp Eq.symm id⟩
      exact .inr ⟨.caused key because, List.mem_append_right _ (List.mem_map_of_mem hp), rfl⟩

/-- The path explains why a root affects the key. -/
structure Explains (g : DependencyGraph K) (roots : List K) (key : K) (path : List K) : Prop where
  /-- The path starts at a root. -/
  starts : ∃ root ∈ roots, path.head? = some root
  /-- It ends at the key. -/
  ends : path.getLast? = some key
  /-- No key is on it twice. -/
  nodup : path.Nodup
  /-- Each key depends directly on the one before it. -/
  follows : path.IsChain fun because key => because ∈ g.dependencies key

/-- **What a recorded trace explains**: the roots and what depends on one of them. -/
theorem Sound.explain?_trace {g : DependencyGraph K} (h : g.Sound) (roots : List K) (key : K) :
    (((Recorder.empty.recordAll (g.trace roots)).explain? key).isSome = true ↔
      ∃ root ∈ roots, key = root ∨ g.DependsOn key root) ∧
    ∀ path, (Recorder.empty.recordAll (g.trace roots)).explain? key = some path →
      g.Explains roots key path := by
  have hfounded := Recorder.founded_trace h roots
  rw [← h.recorded_trace]
  generalize Recorder.empty.recordAll (g.trace roots) = r at hfounded ⊢
  by_cases hk : r.cause? key = none
  · rw [Recorder.explain?_eq_none hk]
    simp [hk]
  · obtain ⟨path, hpath⟩ := hfounded.leads key hk
    rw [hpath.explain?]
    refine ⟨by simp [hk], fun found hf => ?_⟩
    obtain rfl : path = found := Option.some_inj.1 hf
    obtain ⟨root, hhead, hroot⟩ := hpath.head?
    exact ⟨⟨root, (hfounded.root root).1 hroot, hhead⟩, hpath.getLast?, hpath.nodup,
      hpath.isChain hfounded.dependency⟩

/-- **Traces and explanations** of a built graph, whatever its cycles: a trace from any roots
reports them and then every dependency on what they affect once; a recorder that heard nothing else
explains exactly the roots and what depends on one of them, by a path from a root. -/
theorem Built.trace_explains {g : DependencyGraph K} (h : g.Built) (roots : List K) :
    (∃ pairs, g.Traces roots (g.trace roots) pairs) ∧
      ∀ key, (((Recorder.empty.recordAll (g.trace roots)).explain? key).isSome = true ↔
          ∃ root ∈ roots, key = root ∨ g.DependsOn key root) ∧
        ∀ path, (Recorder.empty.recordAll (g.trace roots)).explain? key = some path →
          g.Explains roots key path :=
  ⟨h.sound.traces_trace roots, h.sound.explain?_trace roots⟩

open EvaluationOrder (tangled built_tangled)

/-- From a key on a cycle, one that depends on itself and one that is no node. The cycle leads back
to its root, and the key behind it is explained by two dependencies. -/
theorem trace_explains_tangled :
    tangled.Built ∧
      tangled.trace [1, 6, 9, 1] = [.root 1, .root 6, .root 9, .root 1, .caused 6 6, .caused 2 1,
        .caused 1 2, .caused 3 2] ∧
      (Recorder.empty.recordAll (tangled.trace [1, 6, 9, 1])).explain? 3 = some [1, 2, 3] ∧
      tangled.Explains [1, 6, 9, 1] 3 [1, 2, 3] ∧
      ¬ ∃ root ∈ [1, 6, 9, 1], 4 = root ∨ tangled.DependsOn 4 root := by
  obtain ⟨-, hexplain⟩ := built_tangled.trace_explains [1, 6, 9, 1]
  have hthree : (Recorder.empty.recordAll (tangled.trace [1, 6, 9, 1])).explain? 3 =
      some [1, 2, 3] := by decide
  have hfour : ((Recorder.empty.recordAll (tangled.trace [1, 6, 9, 1])).explain? 4).isSome =
      false := by decide
  refine ⟨built_tangled, by decide, hthree, (hexplain 3).2 _ hthree, fun h => ?_⟩
  exact Bool.false_ne_true (hfour.symm.trans ((hexplain 4).1.2 h))

end DependencyGraph

end Recalc
