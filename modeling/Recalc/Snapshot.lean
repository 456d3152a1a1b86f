import Recalc.Collection.SortedMap
import Recalc.Json.Fields
import Recalc.Path
import Recalc.Value

/-!
# Snapshots

A snapshot stores the evaluated value of each leaf path, in ascending order of paths. The value of a
composite path is not stored but assembled from the leaves below it; these lie side by side in the
order, right behind the path and a separator, so `below` is a range.
-/

namespace Recalc

/-- The values of leaf paths. -/
structure Snapshot where
  /-- The values, by path. -/
  values : SortedMap String Value

namespace Snapshot

/-- The snapshot without values. -/
def empty : Snapshot := ⟨.empty⟩

instance : Inhabited Snapshot := ⟨empty⟩

/-- The number of stored values. -/
def size (s : Snapshot) : Nat := s.values.size

/-- Whether nothing is stored. -/
def isEmpty (s : Snapshot) : Bool := s.values.isEmpty

/-- The value stored at a path. -/
def get? (s : Snapshot) (path : String) : Option Value := s.values.get? path

/-- Whether a value is stored at a path. -/
def contains (s : Snapshot) (path : String) : Bool := s.values.contains path

/-- Stores a value at a path. -/
def insert (s : Snapshot) (path : String) (value : Value) : Snapshot :=
  ⟨s.values.insert path value⟩

/-- Drops the value stored at a path. -/
def erase (s : Snapshot) (path : String) : Snapshot := ⟨s.values.erase path⟩

/-- The stored values with their paths, ascending. -/
def toList (s : Snapshot) : List (String × Value) := s.values.entries

/-- Whether two snapshots store equal values at the same paths. -/
def beq (s t : Snapshot) : Bool :=
  s.toList.length == t.toList.length
    && (s.toList.zip t.toList).all fun (a, b) => a.1 == b.1 && a.2 == b.2

instance : BEq Snapshot := ⟨beq⟩

/-- The values stored strictly below a path, as a range of the ascending order. -/
def below (s : Snapshot) (path : String) : List (String × Value) :=
  let start := path ++ "."
  (s.toList.dropWhile fun e => compare e.1 start = .lt).takeWhile fun e =>
    Path.isDescendant e.1 path

/-- The fields with the value of one leaf below `path` put in its place; an undefined one leaves no
trace. -/
def placeLeaf (path : String) (fields : List (String × Json)) (leaf : String × Value) :
    List (String × Json) :=
  match leaf.2.payload?, Path.below? leaf.1 path with
  | some payload, some relative => Json.Fields.setAt payload fields (Path.segments relative)
  | _, _ => fields

/-- The value at a path: the stored one, or the object of the leaves below the path. -/
def assemble? (s : Snapshot) (path : String) : Option Value :=
  match s.get? path with
  | some value => some value
  | none =>
    match s.below path with
    | [] => none
    | leaves => some (.data (.object (leaves.foldl (placeLeaf path) [])))

/-- What lives at a list of segments: the value at their path, or else the part of the nearest value
stored above that the other segments lead to. -/
def lookup? (s : Snapshot) (segments : List String) : Option Value :=
  match s.assemble? (Path.joinSegments segments) with
  | some value => some value
  | none =>
    (List.range' 1 (segments.length - 1)).reverse.findSome? fun count =>
      (s.get? (Path.joinSegments (segments.take count))).map (·.navigate (segments.drop count))

end Snapshot

end Recalc
