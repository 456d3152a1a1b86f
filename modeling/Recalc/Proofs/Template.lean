import Recalc.Template
import Mathlib.Data.List.Chain

/-!
# Splitting templates

What splitting a template takes apart, writing its segments one after another puts together again
(`Template.join_render_segments`). The end of a code is found by looking at the code and the braces
behind it only, so a code is found again whatever stands behind the braces (`code?_eq_some`), and
alone between double braces it is a template of one binding (`segments_of_wellFormed`).
-/

namespace Recalc

/-- Reading the code, with braces behind it, stops at these braces. -/
def Template.Closed (code : List Char) : Prop :=
  ∀ after, code? ⟨none, 0⟩ (code ++ '\x7d' :: '\x7d' :: after) = some (code, after)

namespace Segment

/-- The segment as it is written in a template. -/
def render : Segment → String
  | text content => content
  | binding code => "\x7b\x7b" ++ code ++ "\x7d\x7d"

/-- Whether the segment is plain text. -/
def isText : Segment → Bool
  | text _ => true
  | binding _ => false

/-- The segment has some text, or a code that ends where it is closed. -/
def WellFormed : Segment → Prop
  | text content => content ≠ ""
  | binding code => Template.Closed code.toList

end Segment

namespace Template

/-! ### The first binding -/

/-- An opening is found between the texts before and after it. -/
theorem opening?_eq_some {cs before rest : List Char} (h : opening? cs = some (before, rest)) :
    cs = before ++ '\x7b' :: '\x7b' :: rest := by
  fun_induction opening? cs generalizing before with
  | case1 => cases h
  | case2 rest =>
    cases h
    rfl
  | case3 c cs _ ih =>
    obtain ⟨⟨_, _⟩, hr, he⟩ := Option.map_eq_some_iff.1 h
    cases he
    exact congrArg (c :: ·) (ih hr)

/-! ### The end of a code -/

/-- The state behind a character that neither takes the next one with it nor ends the code. -/
def Scan.read (s : Scan) (c : Char) : Scan :=
  match s.quotation with
  | some mark => if c = mark then { s with quotation := none } else s
  | none =>
    if isQuotation c then { s with quotation := some c }
    else if c = '\x7b' then { s with depth := s.depth + 1 }
    else if c = '\x7d' then { s with depth := s.depth - 1 }
    else s

/-- Whether the character takes the next one with it. -/
def Scan.Escapes (s : Scan) (c : Char) : Prop := s.quotation ≠ none ∧ c = '\\'

/-- Whether the code ends in front of the character and the rest. -/
def Scan.Ends (s : Scan) (c : Char) (rest : List Char) : Prop :=
  s = ⟨none, 0⟩ ∧ c = '\x7d' ∧ rest.head? = some '\x7d'

theorem code?_escape {s : Scan} (h : s.quotation ≠ none) (escaped : Char) (rest : List Char) :
    code? s ('\\' :: escaped :: rest) =
      (code? s rest).map fun r => ('\\' :: escaped :: r.1, r.2) := by
  obtain ⟨mark, hq⟩ := Option.ne_none_iff_exists'.1 h
  rw [code?.eq_def]
  simp [hq]

theorem code?_lone {s : Scan} (h : s.quotation ≠ none) : code? s ['\\'] = none := by
  obtain ⟨mark, hq⟩ := Option.ne_none_iff_exists'.1 h
  rw [code?.eq_def]
  simp [hq]

theorem code?_end (after : List Char) :
    code? ⟨none, 0⟩ ('\x7d' :: '\x7d' :: after) = some ([], after) := rfl

/-- Elsewhere the search goes on behind the character. -/
theorem code?_read {s : Scan} {c : Char} {rest : List Char} (he : ¬ s.Escapes c)
    (hend : ¬ s.Ends c rest) :
    code? s (c :: rest) = (code? (s.read c) rest).map fun r => (c :: r.1, r.2) := by
  obtain ⟨_ | mark, depth⟩ := s
  · rw [code?.eq_def, Scan.read]
    by_cases hc : c = '\x7d'
    · subst hc
      have hq : isQuotation '\x7d' = false := by decide
      by_cases hd : 0 < depth
      · simp [hq, hd]
      · obtain rfl := Nat.eq_zero_of_not_pos hd
        have hnext : ∀ after, rest ≠ '\x7d' :: after := by
          rintro after rfl
          exact hend ⟨rfl, rfl, rfl⟩
        -- The match on the rest is decided by `hnext`.
        simp [hq]
    · by_cases hq : isQuotation c = true
      · simp [hq]
      · by_cases ho : c = '\x7b'
        · subst ho
          rfl
        · simp [hq, hc, ho]
  · have hc : c ≠ '\\' := fun hc => he ⟨Option.some_ne_none _, hc⟩
    rw [code?.eq_def, Scan.read]
    simp only [if_neg hc]
    split <;> rfl

/-- What holds at the end of a text, where a code ends, and in front of each step of the search if
it holds behind it, holds of all searches. -/
@[elab_as_elim]
theorem scan_induction {motive : Scan → List Char → Prop} (nil : ∀ s, motive s [])
    (lone : ∀ s, s.quotation ≠ none → motive s ['\\'])
    (escape : ∀ s escaped rest, s.quotation ≠ none → motive s rest →
      motive s ('\\' :: escaped :: rest))
    (ends : ∀ after, motive ⟨none, 0⟩ ('\x7d' :: '\x7d' :: after))
    (read : ∀ s c rest, ¬ s.Escapes c → ¬ s.Ends c rest → motive (s.read c) rest →
      motive s (c :: rest)) (s : Scan) (cs : List Char) : motive s cs := by
  match cs with
  | [] => exact nil s
  | c :: rest =>
    by_cases he : s.Escapes c
    · obtain ⟨hq, rfl⟩ := he
      match rest with
      | [] => exact lone s hq
      | escaped :: rest =>
        exact escape s escaped rest hq (scan_induction nil lone escape ends read s rest)
    · by_cases hend : s.Ends c rest
      · obtain ⟨rfl, rfl, hnext⟩ := hend
        obtain ⟨after, rfl⟩ := List.head?_eq_some_iff.1 hnext
        exact ends after
      · exact read s c rest he hend (scan_induction nil lone escape ends read (s.read c) rest)

/-- The text consists of the code, closing braces and the rest, and the code is found again in front
of any other rest. -/
structure Found (s : Scan) (cs code after : List Char) : Prop where
  /-- Nothing is lost. -/
  eq : cs = code ++ '\x7d' :: '\x7d' :: after
  /-- The rest does not matter. -/
  again : ∀ other, code? s (code ++ '\x7d' :: '\x7d' :: other) = some (code, other)

/-- **A code that is found** has closing braces behind it, and is found again in front of any other
text. -/
theorem found_of_code? (s : Scan) (cs : List Char) :
    ∀ r, code? s cs = some r → Found s cs r.1 r.2 := by
  induction s, cs using scan_induction with
  | nil s =>
    intro r h
    cases h
  | lone s hq =>
    intro r h
    rw [code?_lone hq] at h
    cases h
  | escape s escaped rest hq ih =>
    intro r h
    rw [code?_escape hq] at h
    obtain ⟨r, hr, rfl⟩ := Option.map_eq_some_iff.1 h
    refine ⟨congrArg ('\\' :: escaped :: ·) (ih r hr).eq, fun other => ?_⟩
    rw [List.cons_append, List.cons_append, code?_escape hq, (ih r hr).again]
    rfl
  | ends after =>
    intro r h
    rw [code?_end] at h
    cases h
    exact ⟨rfl, code?_end⟩
  | read s c rest he hend ih =>
    intro r h
    rw [code?_read he hend] at h
    obtain ⟨r, hr, rfl⟩ := Option.map_eq_some_iff.1 h
    refine ⟨congrArg (c :: ·) (ih r hr).eq, fun other => ?_⟩
    -- What is behind the code starts with a brace in both texts.
    have hhead : (r.1 ++ '\x7d' :: '\x7d' :: other).head? = rest.head? := by
      rw [(ih r hr).eq, List.head?_append, List.head?_append]
      rfl
    have hend' : ¬ s.Ends c (r.1 ++ '\x7d' :: '\x7d' :: other) := by
      rwa [Scan.Ends, hhead]
    rw [List.cons_append, code?_read he hend', (ih r hr).again]
    rfl

/-- The first binding takes a text apart into what is before it, its code, and what is after it. -/
theorem eq_of_firstBinding? {cs before code after : List Char}
    (h : firstBinding? cs = some (before, code, after)) :
    cs = before ++ '\x7b' :: '\x7b' :: (code ++ '\x7d' :: '\x7d' :: after) ∧ Closed code := by
  obtain ⟨⟨_, rest⟩, hopen, h⟩ := Option.bind_eq_some_iff.1 h
  obtain ⟨⟨_, _⟩, hcode, he⟩ := Option.map_eq_some_iff.1 h
  cases he
  have hfound := found_of_code? _ _ _ hcode
  exact ⟨(opening?_eq_some hopen).trans (congrArg (before ++ '\x7b' :: '\x7b' :: ·) hfound.eq),
    hfound.again⟩

/-! ### All segments -/

theorem textSegment_cons (c : Char) (cs : List Char) :
    textSegment (c :: cs) = [.text (String.ofList (c :: cs))] := rfl

theorem segmentsFrom_nil (fuel : Nat) : segmentsFrom fuel [] = [] := by
  cases fuel <;> rfl

/-- A text segment is written as its text. -/
theorem render_textSegment (cs : List Char) :
    (textSegment cs).flatMap (fun s => s.render.toList) = cs := by
  cases cs with
  | nil => rfl
  | cons c cs => simp [textSegment_cons, Segment.render]

theorem render_segmentsFrom (fuel : Nat) (cs : List Char) :
    (segmentsFrom fuel cs).flatMap (fun s => s.render.toList) = cs := by
  fun_induction segmentsFrom fuel cs with
  | case1 cs => exact render_textSegment cs
  | case2 fuel cs h => exact render_textSegment cs
  | case3 fuel cs before code after h ih =>
    rw [List.flatMap_append, List.flatMap_cons, render_textSegment, ih, (eq_of_firstBinding? h).1]
    simp [Segment.render]

theorem wellFormed_of_mem_textSegment {cs : List Char} {s : Segment} (h : s ∈ textSegment cs) :
    s.WellFormed := by
  cases cs with
  | nil => cases h
  | cons c cs =>
    rw [List.mem_singleton.1 h, Segment.WellFormed]
    simp

theorem wellFormed_of_mem_segmentsFrom (fuel : Nat) (cs : List Char) :
    ∀ s ∈ segmentsFrom fuel cs, s.WellFormed := by
  fun_induction segmentsFrom fuel cs with
  | case1 cs => exact fun _ => wellFormed_of_mem_textSegment
  | case2 fuel cs h => exact fun _ => wellFormed_of_mem_textSegment
  | case3 fuel cs before code after h ih =>
    refine List.forall_mem_append.2 ⟨fun _ => wellFormed_of_mem_textSegment,
      List.forall_mem_cons.2 ⟨?_, ih⟩⟩
    rw [Segment.WellFormed, String.toList_ofList]
    exact (eq_of_firstBinding? h).2

/-- All segments of a text are well-formed. -/
theorem wellFormed_of_mem_segments {text : String} {s : Segment} (h : s ∈ segments text) :
    s.WellFormed := wellFormed_of_mem_segmentsFrom _ _ s h

/-- Between two texts there is a binding. -/
theorem isChain_segmentsFrom (fuel : Nat) (cs : List Char) :
    (segmentsFrom fuel cs).IsChain fun s s' => s.isText = false ∨ s'.isText = false := by
  have hsegment : ∀ cs, (textSegment cs).IsChain
      fun s s' => s.isText = false ∨ s'.isText = false := by
    intro cs
    cases cs with
    | nil => exact .nil
    | cons c cs => exact .singleton _
  fun_induction segmentsFrom fuel cs with
  | case1 cs => exact hsegment cs
  | case2 fuel cs h => exact hsegment cs
  | case3 fuel cs before code after h ih =>
    have hbinding := List.isChain_cons.2
      ⟨fun s' _ => .inl (show (Segment.binding (String.ofList code)).isText = false from rfl), ih⟩
    refine List.isChain_append.2 ⟨hsegment before, hbinding, ?_⟩
    rintro _ - _ ⟨⟩
    exact .inr rfl

/-- A well-formed binding is a template of one segment. -/
theorem segments_of_wellFormed {code : String} (h : (Segment.binding code).WellFormed) :
    segments (Segment.binding code).render = [.binding code] := by
  have hlist : (Segment.binding code).render.toList =
      '\x7b' :: '\x7b' :: (code.toList ++ ['\x7d', '\x7d']) := by
    simp [Segment.render]
  have hfirst : firstBinding? ('\x7b' :: '\x7b' :: (code.toList ++ ['\x7d', '\x7d'])) =
      some ([], code.toList, []) := by
    rw [firstBinding?, opening?, Option.bind_some]
    simp only [h [], Option.map_some]
  rw [segments, hlist, List.length_cons, segmentsFrom, hfirst]
  simp [segmentsFrom_nil, textSegment]

/-- Writing the segments of a text one after another gives the text. -/
theorem join_render_segments (text : String) :
    String.join ((segments text).map Segment.render) = text := by
  rw [← String.toList_inj, String.toList_join, List.flatMap_map, segments]
  exact render_segmentsFrom _ _

end Template
end Recalc
