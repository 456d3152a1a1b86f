import Recalc.Proofs.Lookup

/-!
# Ranges of a snapshot

A snapshot lists its paths in the order of their UTF-8 bytes (`Text.lt_iff_utf8_lt`): comparing
texts character by character and byte by byte comes to the same, because the first bytes of
characters grow with the characters. In this order the descendants of a path lie side by side, so
the range that starts at the path and a separator and ends before the first path that is no
descendant holds them all (`Snapshot.below_range`).
-/

namespace Recalc

namespace Text

/-! ### Texts and their bytes -/

/-- The bytes of a text. -/
def utf8 (text : String) : List UInt8 := text.toByteArray.data.toList

theorem utf8_eq_flatMap (text : String) :
    utf8 text = text.toList.flatMap String.utf8EncodeChar := by
  rw [utf8, ← String.utf8Encode_toList, List.utf8Encode, List.toList_data_toByteArray]

/-- The digits of a code point, as its bytes hold them. -/
theorem codePoint_eq (code : Nat) (h : code < 0x200000) :
    code = code / 262144 % 8 * 262144 + code / 4096 % 64 * 4096 + code / 64 % 64 * 64 +
      code % 64 := by
  omega

/-- The bytes of a smaller character are smaller, whatever follows them. -/
theorem utf8EncodeChar_append_lt {c d : Char} (h : c < d) (x y : List UInt8) :
    String.utf8EncodeChar c ++ x < String.utf8EncodeChar d ++ y := by
  have hlt : c.val.toNat < d.val.toNat := h
  have hmax : d.val.toNat < 0x110000 := by
    rcases d.valid with hv | hv <;> omega
  have hc := codePoint_eq c.val.toNat (by omega)
  have hd := codePoint_eq d.val.toNat (by omega)
  rw [String.utf8EncodeChar, String.utf8EncodeChar]
  -- One to four bytes for each character; more bytes come with a greater first one.
  split_ifs <;>
    simp only [List.cons_append, List.nil_append, List.cons_lt_cons_iff, UInt8.lt_iff_toNat_lt,
      ← UInt8.toNat_inj, UInt8.toNat_ofNat'] <;>
    simp (disch := omega) only [Nat.mod_eq_of_lt (b := 256)] <;>
    omega

theorem flatMap_utf8EncodeChar_lt {s t : List Char} (h : s < t) :
    s.flatMap String.utf8EncodeChar < t.flatMap String.utf8EncodeChar := by
  induction t generalizing s with
  | nil => exact absurd h (List.not_lt_nil s)
  | cons d t ih =>
    cases s with
    | nil =>
      cases hbytes : (d :: t).flatMap String.utf8EncodeChar with
      | nil => simp at hbytes
      | cons b bytes => exact List.nil_lt_cons b bytes
    | cons c s =>
      rw [List.flatMap_cons, List.flatMap_cons]
      obtain hlt | ⟨rfl, hlt⟩ := List.cons_lt_cons_iff.1 h
      · exact utf8EncodeChar_append_lt hlt _ _
      · exact List.append_left_lt (ih hlt)

/-- The order of texts is the order of their bytes. -/
theorem lt_iff_utf8_lt {s t : String} : s < t ↔ utf8 s < utf8 t := by
  have hmono : ∀ {s t : String}, s < t → utf8 s < utf8 t := fun {s t} hlt => by
    rw [utf8_eq_flatMap, utf8_eq_flatMap]
    exact flatMap_utf8EncodeChar_lt hlt
  refine ⟨hmono, fun h => Decidable.byContradiction fun hst => ?_⟩
  have hts : ¬ t < s := fun hts => List.lt_asymm h (hmono hts)
  rw [String.le_antisymm (String.not_lt.1 hts) (String.not_lt.1 hst)] at h
  exact List.lt_irrefl _ h

end Text

namespace Snapshot

/-! ### The values below a path -/

/-- The stored paths ascend byte by byte. -/
theorem pairwise_toList (s : Snapshot) :
    s.toList.Pairwise fun a b => Text.utf8 a.1 < Text.utf8 b.1 :=
  s.values.ascending.imp fun h => Text.lt_iff_utf8_lt.1 (compare_eq_lt_iff.1 h)

/-- **The range scan finds exactly the descendants**: the values below a path are those that a
filter leaves of all values, each stored value of a descendant is among them, and they ascend byte
by byte. -/
theorem below_range (s : Snapshot) (path : String) :
    s.below path = s.toList.filter (fun e => Path.isDescendant e.1 path) ∧
    (∀ q value, (q, value) ∈ s.below path ↔
      s.get? q = some value ∧ Path.isDescendant q path = true) ∧
    (s.below path).Pairwise fun a b => Text.utf8 a.1 < Text.utf8 b.1 := by
  refine ⟨s.below_eq_filter path, fun q value => mem_below, ?_⟩
  rw [below_eq_filter]
  exact s.pairwise_toList.sublist List.filter_sublist

-- Neighbours sort around the range: before the separator, behind it, and right between.
example :
    let stored := ["Table1", "Table1-x", "Table1.é", "Table1.", "Table1.a.b", "Table1/x",
      "Table10.a"]
    let s := stored.foldl (fun s path => s.insert path .undefined) empty
    (s.below "Table1").map (·.1) = ["Table1.", "Table1.a.b", "Table1.é"] := by
  decide

end Snapshot

end Recalc
