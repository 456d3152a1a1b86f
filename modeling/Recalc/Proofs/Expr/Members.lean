import Recalc.Proofs.Snapshot.Nested

/-!
# A name is read member by member

A name is read from its longest initial part with a value, and that part is itself looked up from
the nearest stored value on. In a flat snapshot without hollow paths this comes to the same as
taking one member after another of the assembled entity (`Expr.readPath_members`): whatever initial
part is found, the members of the entity lead to the same payload there
(`Expr.foldlM_member_of_known?`).
-/

namespace Recalc

/-- Where a segment leads to, the member of that name is. -/
theorem Operation.member_of_child? {v : Value} {payload next : Json} {name : String}
    (hv : v.payload? = some payload) (hc : payload.child? name = some next) :
    ∃ w, member v name = .ok w ∧ w.payload? = some next := by
  have hnavigate : (v.navigate [name]).payload? = some next := by
    rw [Value.payload?_navigate, hv, Option.bind_some, Json.descend?_singleton, hc]
  rw [member, hv]
  cases payload with
  | null => cases hc
  | bool b => cases hc
  | number n => cases hc
  | string s => cases hc
  | array items =>
    -- The length of a list is no position in it.
    have hname : name ≠ "length" := by
      rintro rfl
      have hposition : Json.position? "length" = none := by decide +kernel
      rw [Json.child?, hposition] at hc
      cases hc
    exact ⟨_, congrArg Except.ok (if_neg hname), hnavigate⟩
  | object fields => exact ⟨_, rfl, hnavigate⟩

namespace Expr

/-- Where segments lead to, the members of those names lead, too. -/
theorem foldlM_member_of_descend? {v : Value} {members : List String} {found : Json}
    (h : v.payload?.bind (·.descend? members) = some found) :
    ∃ w, members.foldlM Operation.member v = .ok w ∧ w.payload? = some found := by
  induction members generalizing v with
  | nil =>
    obtain ⟨payload, hv, he⟩ := Option.bind_eq_some_iff.1 h
    exact ⟨v, rfl, hv.trans he⟩
  | cons name members ih =>
    obtain ⟨payload, hv, hd⟩ := Option.bind_eq_some_iff.1 h
    rw [Json.descend?] at hd
    cases hc : payload.child? name with
    | none =>
      rw [hc] at hd
      cases hd
    | some next =>
      rw [hc] at hd
      obtain ⟨middle, hmember, hpayload⟩ := Operation.member_of_child? hv hc
      obtain ⟨w, hw, hfound⟩ := @ih middle (by rw [hpayload]; exact hd)
      refine ⟨w, ?_, hfound⟩
      rw [List.foldlM_cons, hmember]
      exact hw

theorem known?_eq_some {scope : Scope} {root : String} {members : List String} {count : Nat}
    {v : Value} {rest : List String} (h : known? scope root members count = some (v, rest)) :
    scope.lookup (root :: members.take count) = some v ∧
      (v.isUndefined && decide (0 < count)) = false ∧ rest = members.drop count := by
  rw [known?] at h
  split at h
  · cases h
  · rename_i value hv
    split at h
    · cases h
    · rename_i hu
      obtain ⟨rfl, rfl⟩ := Prod.mk.inj (Option.some.inj h)
      exact ⟨hv, Bool.eq_false_iff.2 hu, rfl⟩

section

variable {s : Snapshot} {scope : Scope} (hscope : scope.lookup = s.lookup?) {root : String}
  {value : Value} (hroot : s.assemble? root = some value)
include hscope hroot

/-- The root of a name is always found. -/
theorem known?_root (members : List String) :
    known? scope root members 0 = some (value, members) := by
  rw [known?, hscope, List.take_zero, Snapshot.lookup?_singleton, hroot]
  simp

/-- Whatever initial part a name is read from, its members lead on like those of the root. -/
theorem foldlM_member_of_known? (h : s.Flat) (hf : s.Filled) {members : List String}
    (hk : Path.Keys (root :: members)) {count : Nat} {v : Value} {rest : List String}
    (hfound : known? scope root members count = some (v, rest)) :
    Agree RuntimeFault.Same SamePayload (rest.foldlM Operation.member v)
      (members.foldlM Operation.member value) := by
  rcases Nat.eq_zero_or_pos count with rfl | hpos
  · rw [known?_root hscope hroot] at hfound
    obtain ⟨rfl, rfl⟩ := Prod.mk.inj (Option.some.inj hfound)
    exact Agree.refl_of RuntimeFault.Same.refl fun _ => rfl
  · obtain ⟨hlookup, hdefined, rfl⟩ := known?_eq_some hfound
    rw [decide_eq_true hpos, Bool.and_true] at hdefined
    have hkeys : Path.Keys (root :: members.take count) :=
      fun x hx => hk x (List.take_subset (count + 1) (root :: members) hx)
    have hshown := h.shown_cons_of_filled hf hkeys
    rw [Snapshot.shown, ← hscope, hlookup, Snapshot.nested, hroot, Option.map_some,
      Option.bind_some, Option.bind_some, Value.payload?_navigate] at hshown
    cases hpayload : v.payload? with
    | none =>
      rw [Value.isUndefined_iff.2 hpayload] at hdefined
      cases hdefined
    | some found =>
      obtain ⟨w, hw, hfound⟩ := foldlM_member_of_descend? (hshown.symm.trans hpayload)
      have hwhole : members.foldlM Operation.member value =
          (members.drop count).foldlM Operation.member w := by
        rw [← List.take_append_drop count members, List.foldlM_append, hw,
          List.take_append_drop count members]
        rfl
      rw [hwhole]
      exact foldlM_member_agree (hpayload.trans hfound.symm) _

end

/-- **A name is read member by member.** In a flat and filled snapshot with a value stored at or
below the root of a name, reading the name and taking one member after another of the assembled root
have results with the same payload, or faults worded the same. -/
theorem readPath_members {s : Snapshot} (h : s.Flat) (hf : s.Filled) {scope : Scope}
    (hscope : scope.lookup = s.lookup?) {root : String} {members : List String}
    (hk : Path.Keys (root :: members))
    (hstored : ∃ path value, s.get? path = some value ∧
      (path = root ∨ Path.isDescendant path root = true)) :
    ∃ value, s.assemble? root = some value ∧
      Agree RuntimeFault.Same SamePayload (readPath scope root members)
        (members.foldlM Operation.member value) := by
  obtain ⟨path, stored, hv, hp⟩ := hstored
  obtain ⟨value, hroot⟩ := Snapshot.exists_assemble? hv hp
  refine ⟨value, hroot, ?_⟩
  have hstart : 0 ∈ (List.range (members.length + 1)).reverse :=
    List.mem_reverse.2 (List.mem_range.2 (Nat.succ_pos _))
  rw [readPath_eq]
  generalize (List.range (members.length + 1)).reverse = counts at hstart
  cases hfound : counts.findSome? (known? scope root members) with
  | none =>
    have hnone := List.findSome?_eq_none_iff.1 hfound 0 hstart
    rw [known?_root hscope hroot] at hnone
    cases hnone
  | some found =>
    obtain ⟨count, -, hknown⟩ := List.exists_of_findSome?_eq_some hfound
    exact foldlM_member_of_known? hscope hroot h hf hk hknown

/-- A table with rows, a note without text and a size that is not known. -/
def tableWithNote : Snapshot :=
  ((((Snapshot.empty.insert "Table.rows" (.data (.array [.object [("id", .ofNat 1)]]))).insert
    "Table.note" (.data .null)).insert "Table.meta.page" (.data (.ofNat 2))).insert
    "Table.meta.size" .undefined)

/-- The length of the rows is no item of theirs but a member, and a note that is `null` has no
members. -/
theorem readPath_members_table : tableWithNote.Flat ∧ tableWithNote.Filled ∧
    Path.Keys ["Table", "rows", "length"] ∧ Path.Keys ["Table", "note", "text"] ∧
    (∃ path value, tableWithNote.get? path = some value ∧
      (path = "Table" ∨ Path.isDescendant path "Table" = true)) ∧
    (∃ value, tableWithNote.assemble? "Table" = some value ∧
      Agree RuntimeFault.Same SamePayload
        (readPath ⟨tableWithNote.lookup?, (· = "Table")⟩ "Table" ["rows", "length"])
        (["rows", "length"].foldlM Operation.member value)) ∧
    ∃ value, tableWithNote.assemble? "Table" = some value ∧
      Agree RuntimeFault.Same SamePayload
        (readPath ⟨tableWithNote.lookup?, (· = "Table")⟩ "Table" ["note", "text"])
        (["note", "text"].foldlM Operation.member value) := by
  have hflat : tableWithNote.Flat := ⟨by decide +kernel, by decide +kernel⟩
  have hfilled : tableWithNote.Filled := by decide +kernel
  have hrows : Path.Keys ["Table", "rows", "length"] := by decide +kernel
  have hnote : Path.Keys ["Table", "note", "text"] := by decide +kernel
  have hstored : ∃ path value, tableWithNote.get? path = some value ∧
      (path = "Table" ∨ Path.isDescendant path "Table" = true) :=
    ⟨"Table.note", .data .null, by rfl, .inr (by decide +kernel)⟩
  exact ⟨hflat, hfilled, hrows, hnote, hstored,
    readPath_members hflat hfilled rfl hrows hstored,
    readPath_members hflat hfilled rfl hnote hstored⟩

example : readPath ⟨tableWithNote.lookup?, (· = "Table")⟩ "Table" ["rows", "length"] =
    .ok (.data (.ofNat 1)) := by rfl

end Expr

end Recalc
