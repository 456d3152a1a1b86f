import Recalc.Template

/-!
# Templates, byte by byte

The segments of a template, found in the UTF-8 bytes of its text: the double opening braces and the
end of a code are searched for among the bytes, and the text is cut at the offsets that come out. A
backslash in a quotation takes the next byte with it, which may be only the first one of a
character. A cut inside a character or behind the end of the text fails, and the splitting with it.
-/

namespace Recalc.Template

/-- The bytes of characters. -/
def bytes (cs : List Char) : List UInt8 := cs.flatMap String.utf8EncodeChar

/-- Whether `b` opens and closes quotations. -/
def isQuotationByte (b : UInt8) : Bool :=
  b = '"'.toUInt8 || b = '\''.toUInt8 || b = '\x60'.toUInt8

/-- The offset of the closing braces of a code, given the quotation mark and the number of braces
that are still open. -/
def codeLength? (quotation : Option UInt8) (depth : Nat) : List UInt8 → Option Nat
  | [] => none
  | b :: rest =>
    let go (quotation : Option UInt8) (depth : Nat) :=
      (codeLength? quotation depth rest).map (· + 1)
    match quotation with
    | some mark =>
      if b = '\\'.toUInt8 then
        match rest with
        | [] => none
        | _ :: rest => (codeLength? quotation depth rest).map (· + 2)
      else if b = mark then go none depth
      else go quotation depth
    | none =>
      if isQuotationByte b then go (some b) depth
      else if b = '\x7b'.toUInt8 then go none (depth + 1)
      else if b = '\x7d'.toUInt8 then
        if 0 < depth then go none (depth - 1)
        else if rest.head? = some '\x7d'.toUInt8 then some 0
        else go none depth
      else go none depth

/-- The offset of the first double opening brace. -/
def openingOffset? : List UInt8 → Option Nat
  | [] => none
  | b :: rest =>
    if b = '\x7b'.toUInt8 ∧ rest.head? = some '\x7b'.toUInt8 then some 0
    else (openingOffset? rest).map (· + 1)

/-- The characters before and after an offset in their bytes, unless the offset is inside a
character or behind the end. -/
def cutAt? (offset : Nat) : List Char → Option (List Char × List Char)
  | [] => if offset = 0 then some ([], []) else none
  | c :: cs =>
    if offset = 0 then some ([], c :: cs)
    else if offset < c.utf8Size then none
    else (cutAt? (offset - c.utf8Size) cs).map fun r => (c :: r.1, r.2)

/-- The text before the first binding, its code, and the text after it, cut out of a text; nothing
if there is no binding. -/
def cutBinding? (cs : List Char) : Option (Option (List Char × List Char × List Char)) :=
  match openingOffset? (bytes cs) with
  | none => some none
  | some start => do
    let (_, inside) ← cutAt? (start + 2) cs
    match codeLength? none 0 (bytes inside) with
    | none => return none
    | some length =>
      let (before, _) ← cutAt? start cs
      let (code, _) ← cutAt? length inside
      let (_, after) ← cutAt? (length + 2) inside
      return some (before, code, after)

/-- Cutting takes no character away. -/
theorem append_of_cutAt? {offset : Nat} {cs before after : List Char}
    (h : cutAt? offset cs = some (before, after)) :
    before ++ after = cs ∧ (bytes before).length = offset := by
  fun_induction cutAt? offset cs generalizing before with
  | case1 => cases h; exact ⟨rfl, rfl⟩
  | case2 => cases h
  | case3 => cases h; exact ⟨rfl, rfl⟩
  | case4 => cases h
  | case5 offset c cs hpos hsize ih =>
    obtain ⟨⟨_, _⟩, hr, he⟩ := Option.map_eq_some_iff.1 h
    cases he
    obtain ⟨hcs, hlen⟩ := ih hr
    refine ⟨congrArg (c :: ·) hcs, ?_⟩
    rw [bytes, List.flatMap_cons, List.length_append, String.length_utf8EncodeChar, ← bytes, hlen]
    omega

-- The first character has two bytes.
example : cutAt? 1 ['é', 'x'] = none ∧ cutAt? 2 ['é', 'x'] = some (['é'], ['x']) := by decide

theorem length_lt_of_cutAt? {offset : Nat} {cs before after : List Char}
    (h : cutAt? offset cs = some (before, after)) (hpos : 0 < offset) :
    after.length < cs.length := by
  obtain ⟨rfl, rfl⟩ := append_of_cutAt? h
  have hne : before ≠ [] := fun he => by
    rw [he] at hpos
    exact absurd hpos (Nat.lt_irrefl 0)
  rw [List.length_append]
  exact Nat.lt_add_of_pos_left (List.length_pos_iff.2 hne)

/-- The text after a binding is shorter. -/
theorem length_lt_of_cutBinding? {cs before code after : List Char}
    (h : cutBinding? cs = some (some (before, code, after))) : after.length < cs.length := by
  rw [cutBinding?] at h
  split at h
  · cases h
  · obtain ⟨⟨_, inside⟩, hinside, h⟩ := Option.bind_eq_some_iff.1 h
    simp only at h
    split at h
    · cases h
    · obtain ⟨_, -, h⟩ := Option.bind_eq_some_iff.1 h
      obtain ⟨_, -, h⟩ := Option.bind_eq_some_iff.1 h
      obtain ⟨⟨_, rest⟩, hrest, h⟩ := Option.bind_eq_some_iff.1 h
      cases h
      have hinner := length_lt_of_cutAt? hrest (Nat.succ_pos _)
      exact Nat.lt_trans hinner (length_lt_of_cutAt? hinside (Nat.succ_pos _))

/-- The segments of a text, cut out of it one after another. -/
def cutSegments? (cs : List Char) : Option (List Segment) :=
  match h : cutBinding? cs with
  | none => none
  | some none => some (textSegment cs)
  | some (some (before, code, after)) =>
    (cutSegments? after).map fun rest =>
      textSegment before ++ .binding (String.ofList code) :: rest
termination_by cs.length
decreasing_by exact length_lt_of_cutBinding? h

/-- The segments of a text, in order, unless it is cut inside a character. -/
def segmentsByBytes? (text : String) : Option (List Segment) := cutSegments? text.toList

end Recalc.Template
