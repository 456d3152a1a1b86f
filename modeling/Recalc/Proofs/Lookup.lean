import Recalc.Proofs.Expr.Payload
import Recalc.Proofs.Snapshot
import Recalc.Proofs.Tree

/-!
# What a snapshot shows at a path

The values below a path are a range of the snapshot (`Snapshot.below_eq_filter`). So what is found
at a path depends on the values at and below it, and, if there are none, on values stored above it.
-/

namespace Recalc

/-! ### Texts in order -/

/-- A text between a beginning and a continuation of the beginning has that beginning. -/
theorem prefix_of_between {start text more : List Char} (h : ¬ text < start)
    (hm : text < start ++ more) : start <+: text := by
  induction start generalizing text with
  | nil => exact List.nil_prefix
  | cons c start ih =>
    cases text with
    | nil => exact absurd (List.nil_lt_cons c start) h
    | cons d text =>
      rw [List.cons_append, List.cons_lt_cons_iff] at hm
      rw [List.cons_lt_cons_iff, not_or] at h
      obtain ⟨rfl, hlt⟩ := hm.resolve_left h.1
      exact List.cons_prefix_cons.2 ⟨rfl, ih (fun hs => h.2 ⟨rfl, hs⟩) hlt⟩

theorem not_lt_of_prefix {start text : List Char} (h : start <+: text) : ¬ text < start := by
  induction start generalizing text with
  | nil => exact List.not_lt_nil text
  | cons c start ih =>
    cases text with
    | nil => simp at h
    | cons d text =>
      obtain ⟨rfl, hs⟩ := List.cons_prefix_cons.1 h
      rw [List.cons_lt_cons_iff]
      rintro (hlt | ⟨-, hlt⟩)
      · exact absurd hlt (Char.lt_irrefl c)
      · exact ih hs hlt

theorem compare_eq_lt_iff {s t : String} : compare s t = .lt ↔ s < t := by
  change compareOfLessAndEq s t = .lt ↔ _
  rw [compareOfLessAndEq_eq_lt]

/-- A range of a list: what is left behind what is dropped and before what is no part of it. -/
theorem takeWhile_dropWhile_eq_filter {A : Type} {p q : A → Bool} {list : List A}
    (hpq : ∀ a ∈ list, p a = true → q a = false)
    (hq : list.Pairwise fun a b => q b = true → q a = true)
    (hp : list.Pairwise fun a b => q a = false → p b = true → p a = true) :
    (list.dropWhile q).takeWhile p = list.filter p := by
  induction list with
  | nil => rfl
  | cons a list ih =>
    obtain ⟨hpqa, hpq⟩ := List.forall_mem_cons.1 hpq
    obtain ⟨hqa, hq⟩ := List.pairwise_cons.1 hq
    obtain ⟨hpa, hp⟩ := List.pairwise_cons.1 hp
    have hrest := ih hpq hq hp
    cases hqc : q a with
    | true =>
      have hpc : p a = false := by
        cases hpc : p a with
        | false => rfl
        | true => exact absurd (hpqa hpc) (by simp [hqc])
      rw [List.dropWhile_cons_of_pos hqc, List.filter_cons_of_neg (by simp [hpc]), hrest]
    | false =>
      -- Nothing is dropped from here on.
      have hkeep : list.dropWhile q = list := by
        cases list with
        | nil => rfl
        | cons b list =>
          refine List.dropWhile_cons_of_neg fun hb => ?_
          rw [hqa b List.mem_cons_self hb] at hqc
          cases hqc
      rw [List.dropWhile_cons_of_neg (by simp [hqc])]
      cases hpc : p a with
      | true =>
        rw [List.takeWhile_cons_of_pos hpc, List.filter_cons_of_pos hpc, ← hrest, hkeep]
      | false =>
        rw [List.takeWhile_cons_of_neg (by simp [hpc]), List.filter_cons_of_neg (by simp [hpc])]
        refine (List.filter_eq_nil_iff.2 fun b hb hpb => ?_).symm
        rw [hpa b hb hqc hpb] at hpc
        cases hpc

namespace Path

theorem isDescendant_iff {path ancestor : String} :
    isDescendant path ancestor = true ↔ (ancestor ++ ".").toList <+: path.toList := by
  rw [isDescendant, Option.isSome_iff_exists]
  simp only [below?_eq_some_iff]
  constructor
  · rintro ⟨relative, rfl⟩
    have he : (ancestor ++ "." ++ relative).toList =
        (ancestor ++ ".").toList ++ relative.toList := String.toList_append
    rw [he]
    exact List.prefix_append _ _
  · rintro ⟨relative, hr⟩
    refine ⟨String.ofList relative, ?_⟩
    rw [← String.toList_inj, String.toList_append, String.toList_ofList, hr]

/-- What lies below a path lies below its initial parts. -/
theorem isDescendant_of_append {segs more : List String} (hne : segs ≠ []) {q : String}
    (hq : isDescendant q (joinSegments (segs ++ more)) = true) :
    isDescendant q (joinSegments segs) = true := by
  rcases eq_or_ne more [] with rfl | hm
  · rwa [List.append_nil] at hq
  · obtain ⟨relative, hr⟩ := Option.isSome_iff_exists.1 hq
    rw [below?_eq_some_iff, joinSegments_append hne hm] at hr
    refine Option.isSome_iff_exists.2 ⟨joinSegments more ++ "." ++ relative, ?_⟩
    rw [below?_eq_some_iff, hr]
    simp only [String.append_assoc]

/-- What lies at or below a path lies at or below its initial parts. -/
theorem at_or_below_of_append {segs more : List String} (hne : segs ≠ []) {q : String}
    (hq : q = joinSegments (segs ++ more) ∨ isDescendant q (joinSegments (segs ++ more)) = true) :
    q = joinSegments segs ∨ isDescendant q (joinSegments segs) = true := by
  rcases eq_or_ne more [] with rfl | hm
  · rwa [List.append_nil] at hq
  · right
    rcases hq with rfl | hq
    · exact isDescendant_append hne hm
    · exact isDescendant_of_append hne hq

end Path

namespace Snapshot

/-- The values below a path, found in the whole snapshot. -/
theorem below_eq_filter (s : Snapshot) (path : String) :
    s.below path = s.toList.filter fun e => Path.isDescendant e.1 path := by
  have hascending : s.toList.Pairwise fun a b => a.1 < b.1 :=
    s.values.ascending.imp fun h => compare_eq_lt_iff.1 h
  refine takeWhile_dropWhile_eq_filter (fun e _ he => ?_) (hascending.imp fun {a b} hlt hb => ?_)
    (hascending.imp fun {a b} hlt ha hb => ?_)
  · refine decide_eq_false fun hlt => ?_
    exact not_lt_of_prefix (Path.isDescendant_iff.1 he) (compare_eq_lt_iff.1 hlt)
  · exact decide_eq_true (compare_eq_lt_iff.2 (String.lt_trans hlt
      (compare_eq_lt_iff.1 (of_decide_eq_true hb))))
  · obtain ⟨relative, hr⟩ := Path.isDescendant_iff.1 hb
    have hge := of_decide_eq_false ha
    rw [compare_eq_lt_iff] at hge
    have hbefore : a.1.toList < (path ++ ".").toList ++ relative := by
      rw [hr]
      exact hlt
    exact Path.isDescendant_iff.2 (prefix_of_between hge hbefore)

theorem mem_below {s : Snapshot} {path q : String} {value : Value} :
    (q, value) ∈ s.below path ↔ s.get? q = some value ∧ Path.isDescendant q path = true := by
  rw [below_eq_filter, List.mem_filter]
  exact and_congr_left fun _ => (SortedMap.get?_eq_some_iff _).symm

/-! ### The same payloads at and below a path -/

/-- The payload stored at a path, if a value is stored there. -/
def payloadAt (s : Snapshot) (path : String) : Option (Option Json) :=
  (s.get? path).map Value.payload?

/-- The two snapshots have the same payloads at and below a path. -/
def SameFrom (s s' : Snapshot) (path : String) : Prop :=
  ∀ q, q = path ∨ Path.isDescendant q path = true → s.payloadAt q = s'.payloadAt q

variable {s s' : Snapshot}

theorem payloadAt_eq_some_iff {path : String} {payload : Option Json} :
    s.payloadAt path = some payload ↔
      ∃ value, s.get? path = some value ∧ value.payload? = payload :=
  Option.map_eq_some_iff

/-- The payloads below a path, listed. -/
theorem map_payload_below {path : String} (h : s.SameFrom s' path) :
    ((s.below path).map fun e => (e.1, e.2.payload?)) =
      (s'.below path).map fun e => (e.1, e.2.payload?) := by
  have hascending : ∀ t : Snapshot,
      Entries.Ascending ((t.below path).map fun e => (e.1, e.2.payload?)) := by
    intro t
    rw [below_eq_filter]
    exact Entries.ascending_map (Entries.ascending_sublist t.values.ascending
      List.filter_sublist) fun _ value => value.payload?
  have hmem : ∀ (t : Snapshot) (e : String × Option Json),
      e ∈ (t.below path).map (fun e => (e.1, e.2.payload?)) ↔
        t.payloadAt e.1 = some e.2 ∧ Path.isDescendant e.1 path = true := by
    rintro t ⟨q, payload⟩
    rw [List.mem_map, payloadAt_eq_some_iff]
    constructor
    · rintro ⟨⟨p, v⟩, hm, he⟩
      obtain ⟨rfl, rfl⟩ := Prod.mk.inj he
      obtain ⟨hv, hd⟩ := mem_below.1 hm
      exact ⟨⟨v, hv, rfl⟩, hd⟩
    · rintro ⟨⟨v, hv, rfl⟩, hd⟩
      exact ⟨(q, v), mem_below.2 ⟨hv, hd⟩, rfl⟩
  refine Entries.ext_mem (hascending s) (hascending s') fun e => ?_
  rw [hmem, hmem]
  exact and_congr_left fun hd => by rw [h e.1 (.inr hd)]

/-- The object of leaves depends on their payloads only. -/
theorem foldl_placeLeaf_congr {path : String} {leaves leaves' : List (String × Value)}
    (h : (leaves.map fun e => (e.1, e.2.payload?)) = leaves'.map fun e => (e.1, e.2.payload?))
    (fields : List (String × Json)) :
    leaves.foldl (placeLeaf path) fields = leaves'.foldl (placeLeaf path) fields := by
  induction leaves generalizing leaves' fields with
  | nil =>
    rw [List.map_nil, eq_comm, List.map_eq_nil_iff] at h
    rw [h]
  | cons e leaves ih =>
    obtain ⟨e', rest, rfl, he, hrest⟩ := List.map_eq_cons_iff.1 h.symm
    obtain ⟨hpath, hpayload⟩ := Prod.mk.inj he
    rw [List.foldl_cons, List.foldl_cons, ih hrest.symm, placeLeaf, placeLeaf, hpath, hpayload]

/-- What is assembled at a path depends on the payloads at and below it only. -/
theorem assemble?_congr {path : String} (h : s.SameFrom s' path) :
    (s.assemble? path).map Value.payload? = (s'.assemble? path).map Value.payload? := by
  have hself := h path (.inl rfl)
  rw [payloadAt, payloadAt] at hself
  rw [assemble?, assemble?]
  cases hs : s.get? path with
  | some value =>
    cases hs' : s'.get? path with
    | none => simp [hs, hs'] at hself
    | some value' => simpa [hs, hs'] using hself
  | none =>
    cases hs' : s'.get? path with
    | some value' => simp [hs, hs'] at hself
    | none =>
      have hbelow := map_payload_below h
      cases hb : s.below path with
      | nil =>
        rw [hb, List.map_nil] at hbelow
        rw [List.map_eq_nil_iff.1 hbelow.symm]
      | cons leaf leaves =>
        cases hb' : s'.below path with
        | nil =>
          rw [hb', hb] at hbelow
          cases hbelow
        | cons leaf' leaves' =>
          rw [hb, hb'] at hbelow
          have hfold : (leaf :: leaves).foldl (placeLeaf path) [] =
              (leaf' :: leaves').foldl (placeLeaf path) [] := foldl_placeLeaf_congr hbelow []
          simp only [hfold, Option.map_some, Value.payload?]

end Snapshot

/-- Searches that find related things at each place find related things. -/
theorem map_findSome?_congr {A B C : Type} {f g : A → Option B} {view : B → C} {list : List A}
    (h : ∀ a ∈ list, (f a).map view = (g a).map view) :
    (list.findSome? f).map view = (list.findSome? g).map view := by
  induction list with
  | nil => rfl
  | cons a list ih =>
    obtain ⟨ha, h⟩ := List.forall_mem_cons.1 h
    rw [List.findSome?_cons, List.findSome?_cons]
    cases hf : f a with
    | some b =>
      cases hg : g a with
      | none => simp [hf, hg] at ha
      | some b' => simpa [hf, hg] using ha
    | none =>
      cases hg : g a with
      | some b' => simp [hf, hg] at ha
      | none => exact ih h

theorem findSome?_congr {A B : Type} {f g : A → Option B} {list : List A}
    (h : ∀ a ∈ list, f a = g a) : list.findSome? f = list.findSome? g := by
  have hmap := map_findSome?_congr fun a ha => congrArg (Option.map id) (h a ha)
  simpa only [Option.map_id, id] using hmap

/-- What is looked up depends on the payloads at and below the path, and on those stored above. -/
theorem Snapshot.lookup?_congr {s s' : Snapshot} {segs : List String}
    (h : s.SameFrom s' (Path.joinSegments segs))
    (habove : ∀ count, 0 < count → count < segs.length →
      s.payloadAt (Path.joinSegments (segs.take count)) =
        s'.payloadAt (Path.joinSegments (segs.take count))) :
    (s.lookup? segs).map Value.payload? = (s'.lookup? segs).map Value.payload? := by
  have hself := assemble?_congr h
  rw [lookup?, lookup?]
  cases hs : s.assemble? (Path.joinSegments segs) with
  | some value =>
    cases hs' : s'.assemble? (Path.joinSegments segs) with
    | none => simp [hs, hs'] at hself
    | some value' => simpa [hs, hs'] using hself
  | none =>
    cases hs' : s'.assemble? (Path.joinSegments segs) with
    | some value' => simp [hs, hs'] at hself
    | none =>
      refine map_findSome?_congr fun count hc => ?_
      rw [List.mem_reverse, List.mem_range'_1] at hc
      have hat := habove count (by omega) (by omega)
      rw [payloadAt, payloadAt] at hat
      cases hv : s.get? (Path.joinSegments (segs.take count)) with
      | none =>
        cases hv' : s'.get? (Path.joinSegments (segs.take count)) with
        | none => rfl
        | some w => simp [hv, hv'] at hat
      | some v =>
        cases hv' : s'.get? (Path.joinSegments (segs.take count)) with
        | none => simp [hv, hv'] at hat
        | some w =>
          have hsame : SamePayload v w := by simpa [hv, hv', SamePayload] using hat
          simp only [Option.map_some, hsame.navigate]

/-! ### Names against a tree and a snapshot -/

/-- What an expression can see of a tree and a snapshot. -/
def Tree.scope (t : Tree) (s : Snapshot) : Scope := ⟨s.lookup?, t.contains⟩

theorem Tree.lookup_scope (t : Tree) (s : Snapshot) (segs : List String) :
    (t.scope s).lookup segs = s.lookup? segs := rfl

namespace Snapshot

/-- The snapshot has values for leaves of the tree only. -/
def Within (s : Snapshot) (t : Tree) : Prop := ∀ path value, s.get? path = some value → t.Leaf path

/-- The path is one of both trees, and the leaves at and below it have the same payloads. -/
structure SamePart (t t' : Tree) (s s' : Snapshot) (path : String) : Prop where
  /-- The first tree has the path. -/
  left : t.Has path
  /-- The second tree has the path. -/
  right : t'.Has path
  /-- The payloads are the same. -/
  same : s.SameFrom s' path
  /-- The leaves have values. -/
  filled : ∀ q, q = path ∨ Path.isDescendant q path = true → t.Leaf q →
    ∃ value, s.get? q = some value

variable {s s' : Snapshot} {t t' : Tree}

theorem SameFrom.append {segs : List String} (hne : segs ≠ [])
    (h : s.SameFrom s' (Path.joinSegments segs)) (more : List String) :
    s.SameFrom s' (Path.joinSegments (segs ++ more)) :=
  fun q hq => h q (Path.at_or_below_of_append hne hq)

/-- Nothing is stored strictly above a path of the tree. -/
theorem Within.get?_above (hs : s.Within t) (ht : t.Regular) {name : String}
    {rest more : List String} (hk : Path.Keys (name :: (rest ++ more))) (hm : more ≠ [])
    (hp : t.Has (Path.joinSegments (name :: (rest ++ more)))) :
    s.get? (Path.joinSegments (name :: rest)) = none := by
  cases hv : s.get? (Path.joinSegments (name :: rest)) with
  | none => rfl
  | some value => exact absurd (hs _ value hv) (ht.has_above hk hm hp).2

theorem Within.get?_take (hs : s.Within t) (ht : t.Regular) {name : String} {rest : List String}
    (hk : Path.Keys (name :: rest)) {count : Nat} (hc : count < rest.length)
    (hp : t.Has (Path.joinSegments (name :: rest))) :
    s.get? (Path.joinSegments (name :: rest.take count)) = none := by
  have hsplit : rest.take count ++ rest.drop count = rest := List.take_append_drop count rest
  have hdrop : rest.drop count ≠ [] := by
    rw [Ne, List.drop_eq_nil_iff]
    omega
  exact hs.get?_above ht (hsplit.symm ▸ hk) hdrop (hsplit.symm ▸ hp)

/-- Above a leaf with a value an object is assembled. -/
theorem Within.assemble?_above (hs : s.Within t) (ht : t.Regular) {name : String}
    {rest more : List String} (hk : Path.Keys (name :: (rest ++ more))) (hm : more ≠ [])
    {value : Value} (hv : s.get? (Path.joinSegments (name :: (rest ++ more))) = some value) :
    s.assemble? (Path.joinSegments (name :: rest)) = some (.data (.object
      ((s.below (Path.joinSegments (name :: rest))).foldl
        (placeLeaf (Path.joinSegments (name :: rest))) []))) := by
  have hrest : Path.Keys (name :: rest) :=
    (Path.keys_append.1 (show Path.Keys ((name :: rest) ++ more) from hk)).1
  have hmem : (Path.joinSegments (name :: (rest ++ more)), value) ∈
      s.below (Path.joinSegments (name :: rest)) := by
    refine mem_below.2 ⟨hv, ?_⟩
    exact (Path.isDescendant_joinSegments (by simp) hrest (by simp) hk).2 ⟨more, hm, rfl⟩
  rw [assemble?, hs.get?_above ht hk hm (hs _ _ hv).has]
  simp only
  split
  · rename_i hb
    rw [hb] at hmem
    cases hmem
  · rfl

/-- No leaf below the parent of an undefined leaf puts a value at the key of that leaf. -/
theorem Within.get?_placeLeaf (hs : s.Within t) (ht : t.Regular) {name key : String}
    {init : List String} (hk : Path.Keys (name :: (init ++ [key]))) {value : Value}
    (hv : s.get? (Path.joinSegments (name :: (init ++ [key]))) = some value)
    (hu : value.payload? = none) {leaf : String × Value}
    (hl : leaf ∈ s.below (Path.joinSegments (name :: init))) {fields : List (String × Json)}
    (hf : Entries.get? key fields = none) :
    Entries.get? key (placeLeaf (Path.joinSegments (name :: init)) fields leaf) = none := by
  have hinit : Path.Keys (name :: init) :=
    (Path.keys_append.1 (show Path.Keys ((name :: init) ++ [key]) from hk)).1
  obtain ⟨q, w⟩ := leaf
  obtain ⟨hw, hd⟩ := mem_below.1 hl
  have hq := hs _ _ hw
  obtain ⟨first, rest, rfl, hkq⟩ := ht.exists_keys_of_has hq.has
  obtain ⟨more, hm, he⟩ := (Path.isDescendant_joinSegments (by simp) hinit (by simp) hkq).1 hd
  rw [he] at hw hkq hq ⊢
  have hkm := (Path.keys_append.1 hkq).2
  rw [placeLeaf, Path.below?_joinSegments_append (by simp) hm]
  cases hpay : w.payload? with
  | none => exact hf
  | some payload =>
    simp only
    rw [Path.segments_join hm hkm]
    obtain ⟨m, more, rfl⟩ := List.exists_cons_of_ne_nil hm
    -- A leaf behind the key would be the undefined one or lie below it.
    have hne : key ≠ m := by
      rintro rfl
      rcases eq_or_ne more [] with rfl | hmore
      · rw [List.cons_append, hv] at hw
        rw [← Option.some.inj hw, hu] at hpay
        cases hpay
      · have hsplit : name :: init ++ key :: more = name :: ((init ++ [key]) ++ more) := by simp
        rw [hsplit] at hkq hq
        exact (ht.has_above hkq hmore hq.has).2 (hs _ _ hv)
    cases more with
    | nil => exact (Entries.get?_insert_of_ne hne _ _).trans hf
    | cons next more => exact (Entries.get?_insert_of_ne hne _ _).trans hf

/-- The object at the path above an undefined leaf does not have the key of the leaf. -/
theorem Within.lookup?_above (hs : s.Within t) (ht : t.Regular) {name key : String}
    {init : List String} (hk : Path.Keys (name :: (init ++ [key]))) {value : Value}
    (hv : s.get? (Path.joinSegments (name :: (init ++ [key]))) = some value)
    (hu : value.payload? = none) :
    ∃ fields, s.lookup? (name :: init) = some (.data (.object fields)) ∧
      Entries.get? key fields = none := by
  rw [lookup?, show Path.joinSegments (name :: init) = _ from rfl,
    hs.assemble?_above ht hk (List.cons_ne_nil key []) hv]
  refine ⟨_, rfl, ?_⟩
  refine List.foldlRecOn (motive := fun fields => Entries.get? key fields = none) _ _ rfl ?_
  exact fun fields hf leaf hl => hs.get?_placeLeaf ht hk hv hu hl hf

/-! ### The same values at and below a path -/

/-- The two snapshots store the same values at and below a path. -/
def EqualFrom (s s' : Snapshot) (path : String) : Prop :=
  ∀ q, q = path ∨ Path.isDescendant q path = true → s.get? q = s'.get? q

theorem EqualFrom.sameFrom {path : String} (h : s.EqualFrom s' path) : s.SameFrom s' path :=
  fun q hq => by rw [payloadAt, payloadAt, h q hq]

theorem EqualFrom.append {segs : List String} (hne : segs ≠ [])
    (h : s.EqualFrom s' (Path.joinSegments segs)) (more : List String) :
    s.EqualFrom s' (Path.joinSegments (segs ++ more)) :=
  fun q hq => h q (Path.at_or_below_of_append hne hq)

theorem EqualFrom.below_eq {path : String} (h : s.EqualFrom s' path) :
    s.below path = s'.below path := by
  have hascending : ∀ t : Snapshot, Entries.Ascending (t.below path) := fun t => by
    rw [below_eq_filter]
    exact Entries.ascending_sublist t.values.ascending List.filter_sublist
  refine Entries.ext_mem (hascending s) (hascending s') fun ⟨q, value⟩ => ?_
  rw [mem_below, mem_below]
  exact and_congr_left fun hd => by rw [h q (.inr hd)]

theorem EqualFrom.assemble?_eq {path : String} (h : s.EqualFrom s' path) :
    s.assemble? path = s'.assemble? path := by
  rw [assemble?, assemble?, h path (.inl rfl), h.below_eq]

/-- Nothing is stored where the tree has no leaf. -/
theorem Within.get?_eq_none (hs : s.Within t) {path : String} (hl : ¬ t.Leaf path) :
    s.get? path = none :=
  Option.eq_none_iff_forall_not_mem.2 fun value hv => hl (hs path value hv)

/-- It is enough to compare leaves, if the other snapshot stores values for leaves only, too. -/
theorem Within.sameFrom (hs : s.Within t) {path : String}
    (hleaf : ∀ q, q = path ∨ Path.isDescendant q path = true → ∀ value, s'.get? q = some value →
      t.Leaf q)
    (hsame : ∀ q, q = path ∨ Path.isDescendant q path = true → t.Leaf q →
      s.payloadAt q = s'.payloadAt q) : s.SameFrom s' path := by
  intro q hq
  by_cases hl : t.Leaf q
  · exact hsame q hq hl
  · have hnone : s'.get? q = none :=
      Option.eq_none_iff_forall_not_mem.2 fun value hv => hl (hleaf q hq value hv)
    rw [payloadAt, payloadAt, hs.get?_eq_none hl, hnone]

theorem Within.equalFrom (hs : s.Within t) {path : String}
    (hleaf : ∀ q, q = path ∨ Path.isDescendant q path = true → ∀ value, s'.get? q = some value →
      t.Leaf q)
    (hsame : ∀ q, q = path ∨ Path.isDescendant q path = true → t.Leaf q →
      s.get? q = s'.get? q) : s.EqualFrom s' path := by
  intro q hq
  by_cases hl : t.Leaf q
  · exact hsame q hq hl
  · have hnone : s'.get? q = none :=
      Option.eq_none_iff_forall_not_mem.2 fun value hv => hl (hleaf q hq value hv)
    rw [hs.get?_eq_none hl, hnone]

/-- A look-up at or below a path of both trees depends on the values there, since nothing is stored
above the path. -/
theorem EqualFrom.lookup?_eq (ht : t.Regular) (ht' : t'.Regular) (hs : s.Within t)
    (hs' : s'.Within t') {name : String} {first : List String} (hk : Path.Keys (name :: first))
    (hp : t.Has (Path.joinSegments (name :: first)))
    (hp' : t'.Has (Path.joinSegments (name :: first)))
    (h : s.EqualFrom s' (Path.joinSegments (name :: first))) (more : List String) :
    s.lookup? (name :: (first ++ more)) = s'.lookup? (name :: (first ++ more)) := by
  have hfrom : ∀ more, s.EqualFrom s' (Path.joinSegments (name :: (first ++ more))) :=
    h.append (List.cons_ne_nil name first)
  have habove : ∀ count,
      s.get? (Path.joinSegments (name :: (first ++ more).take count)) =
        s'.get? (Path.joinSegments (name :: (first ++ more).take count)) := by
    intro count
    rcases Nat.lt_or_ge count first.length with hc | hc
    · rw [List.take_append_of_le_length (Nat.le_of_lt hc), hs.get?_take ht hk hc hp,
        hs'.get?_take ht' hk hc hp']
    · obtain ⟨i, rfl⟩ := Nat.exists_eq_add_of_le hc
      rw [List.take_length_add_append]
      exact hfrom _ _ (.inl rfl)
  rw [lookup?, lookup?, (hfrom more).assemble?_eq]
  cases s'.assemble? (Path.joinSegments (name :: (first ++ more))) with
  | some value => rfl
  | none =>
    refine findSome?_congr fun count hc => ?_
    rw [List.mem_reverse, List.mem_range'_1] at hc
    obtain ⟨n, rfl⟩ := Nat.exists_eq_add_of_le' hc.1
    rw [List.take_succ_cons, habove]

end Snapshot

namespace Expr

open Snapshot

/-- Members are read from values with the same payload alike. -/
theorem foldlM_member_agree {v w : Value} (hv : SamePayload v w) (members : List String) :
    Agree RuntimeFault.Same SamePayload (members.foldlM Operation.member v)
      (members.foldlM Operation.member w) := by
  cases members with
  | nil => exact .ok hv
  | cons name members =>
    rw [List.foldlM_cons, List.foldlM_cons, hv.member name]
    exact Agree.refl_of RuntimeFault.Same.refl fun _ => rfl

/-- The value of what is found of a name. -/
def readFound (scope : Scope) (root : String) :
    Option (Value × List String) → Except RuntimeFault Value
  | some (value, rest) => rest.foldlM Operation.member value
  | none => if scope.isDefined root then .ok .undefined else .error (.notDefined root)

theorem readPath_eq (scope : Scope) (root : String) (members : List String) :
    readPath scope root members = readFound scope root
      ((List.range (members.length + 1)).reverse.findSome? (known? scope root members)) := rfl

/-- What is found of a name at the initial parts that are not shorter than `first`, the longest one
first. -/
def foundFrom (scope : Scope) (root : String) (first rest : List String) :
    Option (Value × List String) :=
  ((List.range (rest.length + 1)).map (first.length + ·)).reverse.findSome?
    (known? scope root (first ++ rest))

/-- What is found of a name at the initial parts that are shorter than `first`. -/
def foundAbove (scope : Scope) (root : String) (first rest : List String) :
    Option (Value × List String) :=
  (List.range first.length).reverse.findSome? (known? scope root (first ++ rest))

/-- The shorter initial parts count only where the others lead to nothing. -/
theorem readPath_append (scope : Scope) (root : String) (first rest : List String) :
    readPath scope root (first ++ rest) = readFound scope root
      ((foundFrom scope root first rest).or (foundAbove scope root first rest)) := by
  have hcount : (List.range ((first ++ rest).length + 1)).reverse =
      ((List.range (rest.length + 1)).map (first.length + ·)).reverse ++
        (List.range first.length).reverse := by
    rw [List.length_append, Nat.add_assoc, List.range_add, List.reverse_append]
  rw [readPath_eq, hcount, List.findSome?_append, foundFrom, foundAbove]

theorem known?_of_foundFrom {scope : Scope} {root : String} {first rest : List String}
    (h : foundFrom scope root first rest = none) :
    known? scope root (first ++ rest) first.length = none := by
  refine List.findSome?_eq_none_iff.1 h _ (List.mem_reverse.2 ?_)
  exact List.mem_map.2 ⟨0, List.mem_range.2 (Nat.succ_pos _), rfl⟩

/-- A name that no entity of the tree has is not defined. -/
theorem readPath_of_not_contains {t : Tree} {s : Snapshot} (ht : t.Regular) (hs : s.Within t)
    {root : String} {members : List String} (hk : Path.Keys (root :: members))
    (hn : t.contains root = false) :
    readPath (t.scope s) root members = .error (.notDefined root) := by
  have hout : ∀ {q w more}, s.get? q = some w → Path.Keys (root :: more) →
      q ≠ Path.joinSegments (root :: more) := by
    rintro q w more hw hkeys rfl
    obtain ⟨r, hr, -⟩ := (ht.has_joinSegments hkeys).1 (hs _ _ hw).has
    rw [Tree.contains_iff.2 ⟨r, hr⟩] at hn
    cases hn
  have hnone : ∀ more, Path.Keys (root :: more) →
      s.get? (Path.joinSegments (root :: more)) = none := by
    intro more hkeys
    cases hw : s.get? (Path.joinSegments (root :: more)) with
    | none => rfl
    | some w => exact absurd rfl (hout hw hkeys)
  have hlookup : ∀ more, Path.Keys (root :: more) → s.lookup? (root :: more) = none := by
    intro more hkeys
    have hbelow : s.below (Path.joinSegments (root :: more)) = [] := by
      refine List.eq_nil_iff_forall_not_mem.2 fun ⟨q, w⟩ hm => ?_
      obtain ⟨hw, hd⟩ := mem_below.1 hm
      obtain ⟨name, rest, rfl, hkq⟩ := ht.exists_keys_of_has (hs _ _ hw).has
      obtain ⟨deeper, -, he⟩ :=
        (Path.isDescendant_joinSegments (by simp) hkeys (by simp) hkq).1 hd
      obtain ⟨rfl, -⟩ := List.cons_eq_cons.1 he
      exact hout hw hkq rfl
    rw [lookup?, assemble?, hnone more hkeys, hbelow]
    simp only
    refine List.findSome?_eq_none_iff.2 fun count hc => ?_
    rw [List.mem_reverse, List.mem_range'_1] at hc
    obtain ⟨n, rfl⟩ := Nat.exists_eq_add_of_le' hc.1
    rw [List.take_succ_cons, hnone]
    · rfl
    · exact fun x hx => hkeys x (List.take_subset (n + 1) (root :: more) hx)
  have hknown : ∀ count ∈ (List.range (members.length + 1)).reverse,
      known? (t.scope s) root members count = none := by
    intro count _
    have hkeys : Path.Keys (root :: members.take count) :=
      fun x hx => hk x (List.take_subset (count + 1) (root :: members) hx)
    rw [known?, Tree.lookup_scope, hlookup _ hkeys]
  rw [readPath, List.findSome?_eq_none_iff.2 hknown]
  simp only [Tree.scope, hn, Bool.false_eq_true, if_false]

/-- Above an undefined leaf a name finds an object without a value for its next member. -/
theorem known?_above {t : Tree} {s : Snapshot} (ht : t.Regular) (hs : s.Within t)
    {root key : String} {init : List String} (hk : Path.Keys (root :: (init ++ [key])))
    {value : Value} (hv : s.get? (Path.joinSegments (root :: (init ++ [key]))) = some value)
    (hu : value.payload? = none) (rest : List String) : ∃ fields,
      known? (t.scope s) root (init ++ [key] ++ rest) init.length =
        some (.data (.object fields), key :: rest) ∧
      Operation.member (.data (.object fields)) key = .ok .undefined := by
  obtain ⟨fields, hl, hnone⟩ := hs.lookup?_above ht hk hv hu
  refine ⟨fields, ?_, ?_⟩
  · rw [known?, List.append_assoc, List.take_left, List.drop_left, Tree.lookup_scope, hl]
    rfl
  · have hnavigate : (Value.data (.object fields)).navigate [key] = .undefined := by
      rw [Value.navigate, Value.payload?, Option.bind_some, Json.descend?, Json.child?, hnone]
    exact congrArg Except.ok hnavigate

section

variable {t t' : Tree} {s s' : Snapshot} {root : String} {first rest : List String}
  (ht : t.Regular) (ht' : t'.Regular) (hs : s.Within t) (hs' : s'.Within t')
  (hk : Path.Keys (root :: (first ++ rest)))
  (h : SamePart t t' s s' (Path.joinSegments (root :: first)))
include ht ht' hs hs' hk h

/-- At and below a part that is the same, a name leads to the same payloads. -/
theorem known?_congr (i : Nat) :
    (known? (t.scope s) root (first ++ rest) (first.length + i)).map
        (fun x => (x.1.payload?, x.2)) =
      (known? (t'.scope s') root (first ++ rest) (first.length + i)).map
        fun x => (x.1.payload?, x.2) := by
  have hfirst : Path.Keys (root :: first) :=
    (Path.keys_append.1 (show Path.Keys ((root :: first) ++ rest) from hk)).1
  have hfrom : ∀ more, s.SameFrom s' (Path.joinSegments (root :: (first ++ more))) :=
    h.same.append (List.cons_ne_nil root first)
  have hlookup : (s.lookup? (root :: (first ++ rest.take i))).map Value.payload? =
      (s'.lookup? (root :: (first ++ rest.take i))).map Value.payload? := by
    refine lookup?_congr (hfrom _) fun count hpos hlt => ?_
    obtain ⟨n, rfl⟩ := Nat.exists_eq_succ_of_ne_zero (Nat.ne_of_gt hpos)
    rw [List.take_succ_cons]
    rcases Nat.lt_or_ge n first.length with hn | hn
    · -- Above the part nothing is stored.
      rw [List.take_append_of_le_length (Nat.le_of_lt hn), payloadAt, payloadAt,
        hs.get?_take ht hfirst hn h.left, hs'.get?_take ht' hfirst hn h.right]
    · obtain ⟨m, rfl⟩ := Nat.exists_eq_add_of_le hn
      rw [List.take_length_add_append]
      exact hfrom _ _ (.inl rfl)
  have htake : (first ++ rest).take (first.length + i) = first ++ rest.take i :=
    List.take_length_add_append i
  rw [known?, known?, htake, Tree.lookup_scope, Tree.lookup_scope]
  cases hv : s.lookup? (root :: (first ++ rest.take i)) with
  | none =>
    cases hw : s'.lookup? (root :: (first ++ rest.take i)) with
    | none => rfl
    | some w => simp [hv, hw] at hlookup
  | some v =>
    cases hw : s'.lookup? (root :: (first ++ rest.take i)) with
    | none => simp [hv, hw] at hlookup
    | some w =>
      have hsame : SamePayload v w := by simpa [hv, hw, SamePayload] using hlookup
      simp only [hsame.isUndefined]
      split
      · rfl
      · exact congrArg some (Prod.ext hsame rfl)

omit ht' hs' in
/-- A name leads to nothing at a property that is there only if the property is a leaf without a
payload. -/
theorem exists_undefined_of_known? (hne : first ≠ [])
    (hn : known? (t.scope s) root (first ++ rest) first.length = none) :
    ∃ value, s.get? (Path.joinSegments (root :: first)) = some value ∧ value.payload? = none := by
  have hfirst : Path.Keys (root :: first) :=
    (Path.keys_append.1 (show Path.Keys ((root :: first) ++ rest) from hk)).1
  obtain ⟨more, hkeys, hleaf⟩ := ht.exists_leaf_below hfirst hne h.left
  have hlookup : ∀ value, s.lookup? (root :: first) = some value → value.payload? = none := by
    intro value hv
    rw [known?, List.take_left, Tree.lookup_scope, hv] at hn
    simp only at hn
    split at hn
    · rename_i hu
      exact Value.isUndefined_iff.1 (Bool.and_eq_true_iff.1 hu).1
    · cases hn
  rcases eq_or_ne more [] with rfl | hm
  · rw [List.append_nil] at hleaf
    obtain ⟨value, hv⟩ := h.filled _ (.inl rfl) hleaf
    refine ⟨value, hv, hlookup value ?_⟩
    rw [lookup?, assemble?, hv]
  · -- A leaf below makes the part an object, which is a payload.
    have hbelow := (Path.isDescendant_joinSegments (List.cons_ne_nil root first) hfirst
      (List.cons_ne_nil root (first ++ more)) hkeys).2 ⟨more, hm, rfl⟩
    obtain ⟨value, hv⟩ := h.filled _ (.inr hbelow) hleaf
    have hpayload := hlookup _ (by rw [lookup?, hs.assemble?_above ht hkeys hm hv])
    cases hpayload

/-- Where a part that is the same has no value, a name finds an object above the part, and nothing
in it. -/
theorem readFound_foundAbove (hn : known? (t.scope s) root (first ++ rest) first.length = none) :
    readFound (t.scope s) root (foundAbove (t.scope s) root first rest) =
      readFound (t'.scope s') root (foundAbove (t'.scope s') root first rest) := by
  rw [foundAbove, foundAbove]
  rcases List.eq_nil_or_concat first with rfl | ⟨init, key, rfl⟩
  · have hdefined : ∀ {t : Tree}, t.Regular → t.Has (Path.joinSegments [root]) →
        t.contains root = true := by
      intro t ht hp
      obtain ⟨r, hr, -⟩ :=
        (ht.has_joinSegments (Path.keys_singleton.2 (Path.keys_cons.1 hk).1)).1 hp
      exact Tree.contains_iff.2 ⟨r, hr⟩
    simp only [List.length_nil, List.range_zero, List.reverse_nil, List.findSome?_nil, readFound,
      Tree.scope, hdefined ht h.left, hdefined ht' h.right, if_true]
  · rw [List.concat_eq_append] at hk h hn ⊢
    obtain ⟨v, hv, hvp⟩ := exists_undefined_of_known? ht hs hk h (by simp) hn
    obtain ⟨w, hw, hwp⟩ := payloadAt_eq_some_iff.1
      ((h.same _ (.inl rfl)).symm.trans (payloadAt_eq_some_iff.2 ⟨v, hv, hvp⟩))
    have hinit : Path.Keys (root :: (init ++ [key])) :=
      (Path.keys_append.1 (show Path.Keys ((root :: (init ++ [key])) ++ rest) from hk)).1
    have hlow : (List.range (init ++ [key]).length).reverse =
        init.length :: (List.range init.length).reverse := by
      rw [List.length_append, List.length_singleton, List.range_succ, List.reverse_append]
      rfl
    obtain ⟨fields, hknown, hmember⟩ := known?_above ht hs hinit hv hvp rest
    obtain ⟨fields', hknown', hmember'⟩ := known?_above ht' hs' hinit hw hwp rest
    rw [hlow, List.findSome?_cons, List.findSome?_cons, hknown, hknown']
    simp only [readFound, List.foldlM_cons, hmember, hmember']

/-- **A name means the same** against two trees and snapshots that are the same from an initial part
of it on. -/
theorem readPath_agree :
    Agree RuntimeFault.Same SamePayload (readPath (t.scope s) root (first ++ rest))
      (readPath (t'.scope s') root (first ++ rest)) := by
  have hsame : (foundFrom (t.scope s) root first rest).map (fun x => (x.1.payload?, x.2)) =
      (foundFrom (t'.scope s') root first rest).map (fun x => (x.1.payload?, x.2)) :=
    map_findSome?_congr fun count hc => by
      rw [List.mem_reverse] at hc
      obtain ⟨i, -, rfl⟩ := List.mem_map.1 hc
      exact known?_congr ht ht' hs hs' hk h i
  rw [readPath_append, readPath_append]
  cases hf : foundFrom (t.scope s) root first rest with
  | some found =>
    cases hf' : foundFrom (t'.scope s') root first rest with
    | none => simp [hf, hf'] at hsame
    | some found' =>
      obtain ⟨value, members⟩ := found
      obtain ⟨value', members'⟩ := found'
      rw [hf, hf'] at hsame
      obtain ⟨hpayload, rfl⟩ := Prod.mk.inj (Option.some.inj hsame)
      exact foldlM_member_agree hpayload members
  | none =>
    cases hf' : foundFrom (t'.scope s') root first rest with
    | some found' => simp [hf, hf'] at hsame
    | none =>
      rw [Option.none_or, Option.none_or,
        readFound_foundAbove ht ht' hs hs' hk h (known?_of_foundFrom hf)]
      exact Agree.refl_of RuntimeFault.Same.refl fun _ => rfl

/-- **A name reads the same** if the values themselves are the same from an initial part of it
on. -/
theorem readPath_congr (he : s.EqualFrom s' (Path.joinSegments (root :: first))) :
    readPath (t.scope s) root (first ++ rest) = readPath (t'.scope s') root (first ++ rest) := by
  have hfirst : Path.Keys (root :: first) :=
    (Path.keys_append.1 (show Path.Keys ((root :: first) ++ rest) from hk)).1
  have hfrom : foundFrom (t.scope s) root first rest = foundFrom (t'.scope s') root first rest :=
    findSome?_congr fun count hc => by
      rw [List.mem_reverse] at hc
      obtain ⟨i, -, rfl⟩ := List.mem_map.1 hc
      rw [known?, known?, List.take_length_add_append, Tree.lookup_scope, Tree.lookup_scope,
        he.lookup?_eq ht ht' hs hs' hfirst h.left h.right]
  rw [readPath_append, readPath_append, hfrom]
  cases hf : foundFrom (t'.scope s') root first rest with
  | some found => rfl
  | none =>
    rw [Option.none_or, Option.none_or]
    exact readFound_foundAbove ht ht' hs hs' hk h (known?_of_foundFrom (hfrom.trans hf))

end

end Expr

end Recalc
