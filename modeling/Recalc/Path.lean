import Recalc.Text.Name

/-!
# Paths

A path is a text of segments joined by `.`: the name of an entity, then the keys that lead to one of
its properties. The name alone is a path too and stands for the whole entity.

`segments` and `joinSegments` are inverse to each other (`joinSegments_segments`,
`segments_joinSegments`); all other questions about paths are asked of their segments.
-/

namespace Recalc

namespace Path

/-- The character between two segments. -/
def separator : Char := '.'

/-- The pieces between separators. -/
def pieces : List Char → List (List Char)
  | [] => [[]]
  | c :: cs =>
    if c = separator then [] :: pieces cs
    else
      match pieces cs with
      | [] => [[c]]
      | piece :: rest => (c :: piece) :: rest

/-- The segments of a path; there is at least one. -/
def segments (path : String) : List String := (pieces path.toList).map String.ofList

/-- The path of the given segments. -/
def joinSegments : List String → String
  | [] => ""
  | [segment] => segment
  | segment :: rest => segment ++ "." ++ joinSegments rest

/-- The entity and the property that a path names; the property of an entity's own path is empty. -/
def split (path : String) : String × String :=
  match segments path with
  | [] => ("", "")
  | entity :: rest => (entity, joinSegments rest)

/-- The entity that a path belongs to. -/
def entityOf (path : String) : String := (split path).1

/-- The path of a property of an entity. -/
def join (entity property : String) : String :=
  if property = "" then entity else entity ++ "." ++ property

/-- What is left of `path` after `ancestor` and a separator, if it starts so. -/
def below? (path ancestor : String) : Option String :=
  let start := ancestor.toList ++ [separator]
  if start.isPrefixOf path.toList then some (String.ofList (path.toList.drop start.length))
  else none

/-- The property of `entity` that `path` names, which is empty for the entity itself. -/
def propertyOf (path entity : String) : Option String :=
  if path = entity then some "" else below? path entity

/-- Whether `path` lies strictly below `ancestor`. -/
def isDescendant (path ancestor : String) : Bool := (below? path ancestor).isSome

/-- The path one segment shorter. -/
def parent? (path : String) : Option String :=
  match segments path with
  | [] => none
  | [_] => none
  | segments => some (joinSegments segments.dropLast)

/-- The last segment of a path. -/
def lastSegment (path : String) : String := (segments path).getLastD ""

/-- The nonempty initial parts of a list, longest first. -/
def initialParts {α : Type} : List α → List (List α)
  | [] => []
  | a :: rest => (initialParts rest).map (a :: ·) ++ [[a]]

/-- The path itself and the paths above it, longest first. -/
def prefixes (path : String) : List String := (initialParts (segments path)).map joinSegments

/-- Whether `name` can be the first segment of a path. -/
def isEntityName (name : String) : Bool := Text.isName name.toList

/-! ### Segments and the text they spell -/

theorem pieces_ne_nil (cs : List Char) : pieces cs ≠ [] := by
  cases cs with
  | nil => simp [pieces]
  | cons c cs =>
    rw [pieces]
    split
    · simp
    · split <;> simp

theorem separator_not_mem_pieces {cs piece : List Char} (h : piece ∈ pieces cs) :
    separator ∉ piece := by
  induction cs generalizing piece with
  | nil => simp_all [pieces]
  | cons c cs ih =>
    rw [pieces] at h
    split at h
    · rcases List.mem_cons.1 h with rfl | h
      · simp
      · exact ih h
    · rename_i hc
      split at h
      · simp_all [Ne.symm hc]
      · rename_i first rest heq
        rcases List.mem_cons.1 h with rfl | h
        · have : separator ∉ first := ih (by simp [heq])
          simp [this, Ne.symm hc]
        · exact ih (by simp [heq, h])

/-- The segments of a path hold no separator. -/
theorem separator_not_mem_of_mem_segments {path segment : String} (h : segment ∈ segments path) :
    separator ∉ segment.toList := by
  simp only [segments, List.mem_map] at h
  obtain ⟨piece, hp, rfl⟩ := h
  simpa using separator_not_mem_pieces hp

theorem segments_ne_nil (path : String) : segments path ≠ [] := by
  simp [segments, pieces_ne_nil]

/-- The characters of a joined path. -/
theorem toList_joinSegments_cons_cons (a b : String) (rest : List String) :
    (joinSegments (a :: b :: rest)).toList =
      a.toList ++ separator :: (joinSegments (b :: rest)).toList := by
  simp [joinSegments, separator]

theorem pieces_append_separator {piece : List Char} (h : separator ∉ piece) (cs : List Char) :
    pieces (piece ++ separator :: cs) = piece :: pieces cs := by
  induction piece with
  | nil => simp [pieces]
  | cons c piece ih =>
    have hc : c ≠ separator := fun e => h (by simp [e])
    have := ih fun hm => h (List.mem_cons_of_mem _ hm)
    rw [List.cons_append, pieces, if_neg hc, this]

theorem pieces_of_not_mem {piece : List Char} (h : separator ∉ piece) : pieces piece = [piece] := by
  induction piece with
  | nil => rfl
  | cons c piece ih =>
    have hc : c ≠ separator := fun e => h (by simp [e])
    have := ih fun hm => h (List.mem_cons_of_mem _ hm)
    rw [pieces, if_neg hc, this]

/-- Splitting a joined path gives the segments back, if none of them holds a separator. -/
theorem segments_joinSegments {parts : List String} (hne : parts ≠ [])
    (h : ∀ s ∈ parts, separator ∉ s.toList) : segments (joinSegments parts) = parts := by
  induction parts with
  | nil => exact absurd rfl hne
  | cons a rest ih =>
    cases rest with
    | nil => simp [joinSegments, segments, pieces_of_not_mem (h a (by simp))]
    | cons b rest =>
      have := ih (by simp) fun s hs => h s (List.mem_cons_of_mem _ hs)
      rw [segments, toList_joinSegments_cons_cons, pieces_append_separator (h a (by simp))]
      rw [segments] at this
      simp [this]

/-- Joining the segments of a path gives the path back. -/
theorem joinSegments_segments (path : String) : joinSegments (segments path) = path := by
  suffices ∀ cs : List Char, (joinSegments ((pieces cs).map String.ofList)).toList = cs by
    rw [← String.toList_inj]
    exact this path.toList
  intro cs
  induction cs with
  | nil => simp [pieces, joinSegments]
  | cons c cs ih =>
    rw [pieces]
    split
    · rename_i hc
      rcases hp : pieces cs with _ | ⟨piece, rest⟩
      · exact absurd hp (pieces_ne_nil cs)
      · rw [hp] at ih
        rw [List.map_cons, List.map_cons, toList_joinSegments_cons_cons, ← List.map_cons, ih, hc]
        simp
    · split
      · rename_i hp
        exact absurd hp (pieces_ne_nil cs)
      · rename_i piece rest hp
        rw [hp] at ih
        cases rest with
        | nil => simp_all [joinSegments]
        | cons next rest =>
          rw [List.map_cons, List.map_cons, toList_joinSegments_cons_cons] at ih ⊢
          simp_all

end Path

/-- An entity and one of its properties. -/
structure PropertyPath where
  /-- The name of the entity. -/
  entity : String
  /-- The property, or the empty text for the entity itself. -/
  property : String
  deriving DecidableEq

namespace PropertyPath

/-- The path that a text spells: nothing if one of its segments is empty. -/
def parse? (path : String) : Option PropertyPath :=
  if (Path.segments path).any (· = "") then none
  else
    let (entity, property) := Path.split path
    some ⟨entity, property⟩

/-- Whether the path stands for the whole entity. -/
def isEntity (p : PropertyPath) : Bool := p.property = ""

/-- The text of the path. -/
def text (p : PropertyPath) : String := Path.join p.entity p.property

end PropertyPath

end Recalc
