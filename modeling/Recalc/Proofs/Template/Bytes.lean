import Recalc.Proofs.Template
import Recalc.Template.Bytes
import Mathlib.Tactic.SplitIfs

/-!
# Bytes of templates and their characters

Searching the bytes of a text for braces and quotations finds what reading its characters finds: a
byte of ASCII occurs among the bytes of no other character (`Template.mem_utf8EncodeChar`), so the
bytes of other characters are passed over, and what is left of a character when a backslash has
taken its first byte is passed over too (`codeLength?_bytes`). So all offsets lie between
characters, no cut fails (`cutBinding?_eq`), and the segments cut out of the bytes are the segments
of the text, which lose nothing of it (`splits_losslessly`).
-/

namespace Recalc.Template

/-! ### Bytes of characters -/

theorem toNat_toUInt8 (c : Char) : c.toUInt8.toNat = c.val.toNat % 256 := rfl

theorem utf8Size_eq_one_iff {c : Char} : c.utf8Size = 1 ↔ c.val.toNat ≤ 127 := by
  rw [Char.utf8Size_eq_one_iff, UInt32.le_iff_toNat_le]
  rfl

/-- A byte of ASCII occurs among the bytes of its own character only. -/
theorem mem_utf8EncodeChar {c d : Char} (hd : d.utf8Size = 1) :
    d.toUInt8 ∈ String.utf8EncodeChar c ↔ c = d := by
  have hsmall := utf8Size_eq_one_iff.1 hd
  have hbyte : d.toUInt8.toNat = d.val.toNat := by
    rw [toNat_toUInt8]
    omega
  constructor
  · intro h
    have hmax : c.val.toNat < 0x110000 := by
      rcases c.valid with hv | hv <;> omega
    refine Char.ext (UInt32.toNat_inj.1 ?_)
    rw [String.utf8EncodeChar] at h
    -- All bytes of a longer encoding are 128 at least.
    split_ifs at h <;>
      simp only [List.mem_cons, List.not_mem_nil, or_false, ← UInt8.toNat_inj,
        UInt8.toNat_ofNat'] at h <;>
      omega
  · rintro rfl
    rw [String.utf8EncodeChar_eq_singleton hd]
    exact List.mem_singleton_self _

theorem bytes_cons (c : Char) (cs : List Char) :
    bytes (c :: cs) = String.utf8EncodeChar c ++ bytes cs := List.flatMap_cons

theorem bytes_cons_ascii {c : Char} (h : c.utf8Size = 1) (cs : List Char) :
    bytes (c :: cs) = c.toUInt8 :: bytes cs := by
  rw [bytes_cons, String.utf8EncodeChar_eq_singleton h]
  rfl

theorem length_bytes_cons (c : Char) (cs : List Char) :
    (bytes (c :: cs)).length = c.utf8Size + (bytes cs).length := by
  rw [bytes_cons, List.length_append, String.length_utf8EncodeChar]

theorem toUInt8_inj {c d : Char} (hc : c.utf8Size = 1) (hd : d.utf8Size = 1) :
    c.toUInt8 = d.toUInt8 ↔ c = d := by
  rw [← mem_utf8EncodeChar hd, String.utf8EncodeChar_eq_singleton hc, Char.toUInt8_val,
    List.mem_singleton, eq_comm]

/-- The first byte is one of ASCII exactly if the first character is. -/
theorem head?_bytes {d : Char} (hd : d.utf8Size = 1) (cs : List Char) :
    (bytes cs).head? = some d.toUInt8 ↔ cs.head? = some d := by
  cases cs with
  | nil => exact iff_of_false nofun nofun
  | cons c cs =>
    obtain ⟨b, rest, hb⟩ := List.exists_cons_of_ne_nil (String.utf8EncodeChar_ne_nil (c := c))
    rw [bytes_cons, hb, List.cons_append, List.head?_cons, List.head?_cons, Option.some_inj,
      Option.some_inj]
    constructor
    · rintro rfl
      exact (mem_utf8EncodeChar hd).1 (hb ▸ List.mem_cons_self)
    · rintro rfl
      rw [String.utf8EncodeChar_eq_singleton hd] at hb
      exact (List.cons.inj hb).1.symm

/-- What is left of a character without its first byte has no byte of ASCII. -/
theorem ne_of_mem_tail {c d : Char} (hd : d.utf8Size = 1) {first b : UInt8} {rest : List UInt8}
    (h : String.utf8EncodeChar c = first :: rest) (hb : b ∈ rest) : b ≠ d.toUInt8 := by
  rintro rfl
  obtain rfl := (mem_utf8EncodeChar hd).1 (h ▸ List.mem_cons_of_mem _ hb)
  rw [String.utf8EncodeChar_eq_singleton hd] at h
  cases h
  cases hb

/-- One more character in front takes its bytes with it. -/
theorem map_length_bytes_cons (c : Char) (found : Option (List Char × List Char)) :
    (found.map fun r => (c :: r.1, r.2)).map (fun r => (bytes r.1).length) =
      (found.map fun r => (bytes r.1).length).map (· + c.utf8Size) := by
  rw [Option.map_map, Option.map_map]
  refine congrArg (Option.map · found) (funext fun r => ?_)
  exact (length_bytes_cons c r.1).trans (Nat.add_comm _ _)

/-! ### The opening -/

theorem openingOffset?_append {passed : List UInt8} (h : ∀ b ∈ passed, b ≠ '\x7b'.toUInt8)
    (rest : List UInt8) : openingOffset? (passed ++ rest) =
      (openingOffset? rest).map (· + passed.length) := by
  induction passed with
  | nil => simp
  | cons b passed ih =>
    obtain ⟨hb, h⟩ := List.forall_mem_cons.1 h
    rw [List.cons_append, openingOffset?, if_neg fun hopen => hb hopen.1, ih h, Option.map_map]
    rfl

/-- The opening found among the bytes is the one found among the characters. -/
theorem openingOffset?_bytes (cs : List Char) :
    openingOffset? (bytes cs) = (opening? cs).map fun r => (bytes r.1).length := by
  have hopen : '\x7b'.utf8Size = 1 := by decide
  fun_induction opening? cs with
  | case1 => rfl
  | case2 rest =>
    rw [bytes_cons_ascii hopen, bytes_cons_ascii hopen]
    rfl
  | case3 c rest hnot ih =>
    rw [map_length_bytes_cons, ← ih]
    by_cases hc : c = '\x7b'
    · subst hc
      have hnext : ¬ (bytes rest).head? = some '\x7b'.toUInt8 := fun hnext => by
        obtain ⟨rest, rfl⟩ := List.head?_eq_some_iff.1 ((head?_bytes hopen rest).1 hnext)
        exact hnot rest rfl rfl
      rw [bytes_cons_ascii hopen, openingOffset?, if_neg fun h => hnext h.2, hopen]
    · rw [bytes_cons, openingOffset?_append, String.length_utf8EncodeChar]
      rintro b hb rfl
      exact hc ((mem_utf8EncodeChar hopen).1 hb)

/-! ### The end of a code -/

/-- The byte changes nothing for the search, inside the quotation or outside of all. -/
def Passed (quotation : Option UInt8) (b : UInt8) : Prop :=
  match quotation with
  | some mark => b ≠ '\\'.toUInt8 ∧ b ≠ mark
  | none => isQuotationByte b = false ∧ b ≠ '\x7b'.toUInt8 ∧ b ≠ '\x7d'.toUInt8

theorem codeLength?_append {quotation : Option UInt8} {passed : List UInt8}
    (h : ∀ b ∈ passed, Passed quotation b) (depth : Nat) (rest : List UInt8) :
    codeLength? quotation depth (passed ++ rest) =
      (codeLength? quotation depth rest).map (· + passed.length) := by
  induction passed with
  | nil => simp
  | cons b passed ih =>
    obtain ⟨hb, h⟩ := List.forall_mem_cons.1 h
    have hstep : codeLength? quotation depth (b :: (passed ++ rest)) =
        (codeLength? quotation depth (passed ++ rest)).map (· + 1) := by
      rw [codeLength?.eq_def]
      cases quotation with
      | some mark => simp only [if_neg hb.1, if_neg hb.2]
      | none => simp only [hb.1, Bool.false_eq_true, if_false, if_neg hb.2.1, if_neg hb.2.2]
    rw [List.cons_append, hstep, ih h, Option.map_map]
    rfl

theorem utf8Size_of_isQuotation {c : Char} (h : isQuotation c = true) : c.utf8Size = 1 := by
  simp only [isQuotation, Bool.or_eq_true, decide_eq_true_eq] at h
  rcases h with (rfl | rfl) | rfl <;> decide

theorem isQuotationByte_toUInt8 {c : Char} (h : isQuotation c = true) :
    isQuotationByte c.toUInt8 = true := by
  simp only [isQuotation, Bool.or_eq_true, decide_eq_true_eq] at h
  rcases h with (rfl | rfl) | rfl <;> decide

/-- A byte that opens a quotation is among the bytes of a character that does. -/
theorem isQuotation_of_mem {c : Char} {b : UInt8} (hb : b ∈ String.utf8EncodeChar c)
    (h : isQuotationByte b = true) : isQuotation c = true := by
  simp only [isQuotationByte, Bool.or_eq_true, decide_eq_true_eq] at h
  rcases h with (rfl | rfl) | rfl <;>
    obtain rfl := (mem_utf8EncodeChar (by decide)).1 hb <;> decide

/-- Inside a quotation all bytes are passed that are neither of a backslash nor of the mark. -/
theorem passed_some {c mark : Char} (hm : isQuotation mark = true) (hb : c ≠ '\\') (hc : c ≠ mark) :
    ∀ b ∈ String.utf8EncodeChar c, Passed (some mark.toUInt8) b := by
  rintro b hmem
  refine ⟨fun he => hb ?_, fun he => hc ?_⟩
  · exact (mem_utf8EncodeChar (by decide)).1 (he ▸ hmem)
  · exact (mem_utf8EncodeChar (utf8Size_of_isQuotation hm)).1 (he ▸ hmem)

/-- Outside of quotations all bytes are passed that are neither of a mark nor of a brace. -/
theorem passed_none {c : Char} (hq : ¬ isQuotation c = true) (ho : c ≠ '\x7b') (hc : c ≠ '\x7d') :
    ∀ b ∈ String.utf8EncodeChar c, Passed none b := by
  rintro b hmem
  refine ⟨Bool.eq_false_iff.2 fun h => hq (isQuotation_of_mem hmem h), fun he => ho ?_,
    fun he => hc ?_⟩
  · exact (mem_utf8EncodeChar (by decide)).1 (he ▸ hmem)
  · exact (mem_utf8EncodeChar (by decide)).1 (he ▸ hmem)

/-- A backslash takes a character with it, though it skips only the first byte of it. -/
theorem codeLength?_escaped {mark : Char} (hm : isQuotation mark = true) (depth : Nat)
    (escaped : Char) (rest : List UInt8) :
    codeLength? (some mark.toUInt8) depth
        ('\\'.toUInt8 :: (String.utf8EncodeChar escaped ++ rest)) =
      (codeLength? (some mark.toUInt8) depth rest).map (· + (escaped.utf8Size + 1)) := by
  obtain ⟨first, left, hb⟩ :=
    List.exists_cons_of_ne_nil (String.utf8EncodeChar_ne_nil (c := escaped))
  have hleft : ∀ b ∈ left, Passed (some mark.toUInt8) b := fun b hmem =>
    ⟨ne_of_mem_tail (by decide) hb hmem, ne_of_mem_tail (utf8Size_of_isQuotation hm) hb hmem⟩
  have hsize : escaped.utf8Size = left.length + 1 := by
    rw [← String.length_utf8EncodeChar, hb, List.length_cons]
  rw [hb, List.cons_append, codeLength?.eq_def]
  simp only [if_true]
  rw [codeLength?_append hleft, Option.map_map, hsize]
  rfl

/-- A closing brace closes an open one, or the code if it has a partner. -/
theorem codeLength?_closing (depth : Nat) (rest : List UInt8) :
    codeLength? none depth ('\x7d'.toUInt8 :: rest) =
      if 0 < depth then (codeLength? none (depth - 1) rest).map (· + 1)
      else if rest.head? = some '\x7d'.toUInt8 then some 0
      else (codeLength? none depth rest).map (· + 1) := by
  rw [codeLength?.eq_def]
  rfl

/-- The mark of a quotation is one that opens quotations. -/
def Scan.Marked (s : Scan) : Prop := ∀ mark, s.quotation = some mark → isQuotation mark = true

theorem Scan.Marked.read {s : Scan} (h : s.Marked) (c : Char) : (s.read c).Marked := by
  intro mark hm
  rw [Scan.read] at hm
  split at hm
  · split at hm
    · cases hm
    · exact h mark hm
  · split at hm
    · rename_i hq
      cases hm
      exact hq
    · refine h mark ?_
      split_ifs at hm <;> exact hm

/-- Where a character is read, its bytes are. -/
theorem codeLength?_read {s : Scan} (hs : s.Marked) {c : Char} {rest : List Char}
    (he : ¬ s.Escapes c) (hend : ¬ s.Ends c rest) :
    codeLength? (s.quotation.map Char.toUInt8) s.depth (bytes (c :: rest)) =
      (codeLength? ((s.read c).quotation.map Char.toUInt8) (s.read c).depth (bytes rest)).map
        (· + c.utf8Size) := by
  have hopen : '\x7b'.utf8Size = 1 := by decide
  have hclose : '\x7d'.utf8Size = 1 := by decide
  obtain ⟨_ | mark, depth⟩ := s
  · rw [Scan.read]
    by_cases hq : isQuotation c = true
    · have hsize := utf8Size_of_isQuotation hq
      rw [bytes_cons_ascii hsize, hsize, codeLength?.eq_def]
      simp [hq, isQuotationByte_toUInt8 hq]
    by_cases ho : c = '\x7b'
    · subst ho
      rw [bytes_cons_ascii hopen, hopen, codeLength?.eq_def]
      rfl
    by_cases hc : c = '\x7d'
    · subst hc
      rw [bytes_cons_ascii hclose, hclose, Option.map_none, codeLength?_closing]
      by_cases hd : 0 < depth
      · rw [if_pos hd]
        rfl
      · obtain rfl := Nat.eq_zero_of_not_pos hd
        have hnext : ¬ (bytes rest).head? = some '\x7d'.toUInt8 := fun hnext =>
          hend ⟨rfl, rfl, (head?_bytes hclose rest).1 hnext⟩
        rw [if_neg hd, if_neg hnext]
        rfl
    · rw [bytes_cons, Option.map_none, codeLength?_append (passed_none hq ho hc),
        String.length_utf8EncodeChar]
      simp [hq, ho, hc]
  · have hm := hs mark rfl
    have hne : c ≠ '\\' := fun hc => he ⟨Option.some_ne_none _, hc⟩
    rw [Scan.read, Option.map_some]
    by_cases hc : c = mark
    · subst hc
      have hsize := utf8Size_of_isQuotation hm
      have hbyte : c.toUInt8 ≠ '\\'.toUInt8 := mt (toUInt8_inj hsize (by decide)).1 hne
      rw [bytes_cons_ascii hsize, hsize, codeLength?.eq_def]
      simp [hbyte]
    · rw [bytes_cons, codeLength?_append (passed_some hm hne hc), String.length_utf8EncodeChar]
      simp [hc]

/-- The code found among the bytes is the one found among the characters. -/
theorem codeLength?_bytes (s : Scan) (cs : List Char) (hs : s.Marked) :
    codeLength? (s.quotation.map Char.toUInt8) s.depth (bytes cs) =
      (code? s cs).map fun r => (bytes r.1).length := by
  have hescape : '\\'.utf8Size = 1 := by decide
  have hclose : '\x7d'.utf8Size = 1 := by decide
  induction s, cs using scan_induction with
  | nil s => rfl
  | lone s hq =>
    obtain ⟨mark, hmark⟩ := Option.ne_none_iff_exists'.1 hq
    rw [code?_lone hq, hmark]
    rfl
  | escape s escaped rest hq ih =>
    obtain ⟨mark, hmark⟩ := Option.ne_none_iff_exists'.1 hq
    have hfound : ((code? s rest).map fun r => ('\\' :: escaped :: r.1, r.2)) =
        ((code? s rest).map fun r => (escaped :: r.1, r.2)).map fun r => ('\\' :: r.1, r.2) := by
      rw [Option.map_map]
      rfl
    rw [code?_escape hq, hfound, map_length_bytes_cons, map_length_bytes_cons, ← ih hs, hmark,
      bytes_cons_ascii hescape, bytes_cons, Option.map_some, codeLength?_escaped (hs mark hmark),
      Option.map_map, hescape]
    rfl
  | ends after =>
    rw [code?_end, bytes_cons_ascii hclose, bytes_cons_ascii hclose]
    exact codeLength?_closing 0 _
  | read s c rest he hend ih =>
    rw [code?_read he hend, map_length_bytes_cons, ← ih (hs.read c), codeLength?_read hs he hend]

/-! ### Cuts -/

theorem bytes_append (cs cs' : List Char) : bytes (cs ++ cs') = bytes cs ++ bytes cs' :=
  List.flatMap_append

/-- A cut between two characters takes the text apart there. -/
theorem cutAt?_length_bytes (before after : List Char) :
    cutAt? (bytes before).length (before ++ after) = some (before, after) := by
  induction before with
  | nil => cases after <;> rfl
  | cons c before ih =>
    have hpos := c.utf8Size_pos
    rw [length_bytes_cons, List.cons_append, cutAt?, if_neg (by omega), if_neg (by omega),
      Nat.add_sub_cancel_left, ih]
    rfl

/-- A cut behind two characters of ASCII. -/
theorem cutAt?_behind {c d : Char} (hc : c.utf8Size = 1) (hd : d.utf8Size = 1)
    (before after : List Char) :
    cutAt? ((bytes before).length + 2) (before ++ c :: d :: after) =
      some (before ++ [c, d], after) := by
  have hcut := cutAt?_length_bytes (before ++ [c, d]) after
  rwa [bytes_append, List.length_append, List.append_assoc, bytes_cons_ascii hc,
    bytes_cons_ascii hd] at hcut

/-- **No cut fails**: the first binding is cut out as it is read. -/
theorem cutBinding?_eq (cs : List Char) : cutBinding? cs = some (firstBinding? cs) := by
  have hopen : '\x7b'.utf8Size = 1 := by decide
  have hclose : '\x7d'.utf8Size = 1 := by decide
  rw [cutBinding?, openingOffset?_bytes, firstBinding?]
  cases hrest : opening? cs with
  | none => rfl
  | some r =>
    obtain ⟨before, rest⟩ := r
    obtain rfl := opening?_eq_some hrest
    have hstart := cutAt?_behind hopen hopen before rest
    have hbefore := cutAt?_length_bytes before ('\x7b' :: '\x7b' :: rest)
    have hlength := codeLength?_bytes ⟨none, 0⟩ rest fun _ hm => by cases hm
    simp only [Option.map_none] at hlength
    simp only [Option.map_some, hstart, hbefore, Option.bind_eq_bind, Option.bind_some, hlength]
    cases hcode : code? ⟨none, 0⟩ rest with
    | none => rfl
    | some r =>
      obtain ⟨code, after⟩ := r
      obtain rfl := (found_of_code? _ _ _ hcode).eq
      have hcut := cutAt?_length_bytes code ('\x7d' :: '\x7d' :: after)
      have hend := cutAt?_behind hclose hclose code after
      simp only [Option.map_some, hcut, hend, Option.bind_some]
      rfl

/-- All segments are cut out as they are read. -/
theorem cutSegments?_eq {fuel : Nat} {cs : List Char} (h : cs.length ≤ fuel) :
    cutSegments? cs = some (segmentsFrom fuel cs) := by
  induction fuel generalizing cs with
  | zero =>
    obtain rfl := List.length_eq_zero_iff.1 (Nat.le_zero.1 h)
    rw [cutSegments?]
    rfl
  | succ fuel ih =>
    rw [cutSegments?, segmentsFrom]
    split
    · rename_i hcut
      rw [cutBinding?_eq] at hcut
      cases hcut
    · rename_i hcut
      rw [cutBinding?_eq, Option.some_inj] at hcut
      rw [hcut]
    · rename_i before code after hcut
      have hshorter := length_lt_of_cutBinding? hcut
      rw [cutBinding?_eq, Option.some_inj] at hcut
      rw [hcut, ih (by omega)]
      rfl

theorem segmentsByBytes?_eq (text : String) : segmentsByBytes? text = some (segments text) :=
  cutSegments?_eq (Nat.le_refl _)

/-- **Splitting a template** never cuts inside a character, and loses nothing: the segments, written
one after another, make up the text. No text segment is empty or follows another one, and the code
of each binding, alone between double braces, is split into this one binding. -/
theorem splits_losslessly (text : String) :
    segmentsByBytes? text = some (segments text) ∧
      String.join ((segments text).map Segment.render) = text ∧
      (∀ content, .text content ∈ segments text → content ≠ "") ∧
      ((segments text).IsChain fun s s' => s.isText = false ∨ s'.isText = false) ∧
      ∀ code, .binding code ∈ segments text →
        segmentsByBytes? (Segment.binding code).render = some [.binding code] := by
  refine ⟨segmentsByBytes?_eq text, join_render_segments text,
    fun _ hm => wellFormed_of_mem_segments hm, isChain_segmentsFrom _ _, fun code hm => ?_⟩
  rw [segmentsByBytes?_eq, segments_of_wellFormed (wellFormed_of_mem_segments hm)]

/-- A binding whose code has braces in a quotation, behind a backslash and a character of two
bytes. -/
theorem splits_losslessly_quoted :
    let text := "a \x7b\x7b '\\é\x7d\x7d' \x7d\x7d"
    .binding " '\\é\x7d\x7d' " ∈ segments text ∧
      segmentsByBytes? (Segment.binding " '\\é\x7d\x7d' ").render =
        some [.binding " '\\é\x7d\x7d' "] := by
  intro text
  have hm : .binding " '\\é\x7d\x7d' " ∈ segments text := by decide +kernel
  exact ⟨hm, (splits_losslessly text).2.2.2.2 _ hm⟩

end Recalc.Template
