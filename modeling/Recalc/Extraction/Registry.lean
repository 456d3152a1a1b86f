import Recalc.Extraction.Extractor

/-!
# Extractors by kind

The registry tells which extractor reads the entities of a kind; kinds that are not registered are
read by their code.
-/

namespace Recalc

/-- Extractors by kind of entity. -/
structure Registry where
  /-- The registered extractors, by the tag of their kind. -/
  byTag : SortedMap String Extractor
  /-- The extractor of all other kinds. -/
  fallback : Extractor

namespace Registry

/-- The registry without registered kinds. -/
def empty : Registry := ⟨.empty, .binding⟩

/-- Registers an extractor for a kind, in place of an earlier one. -/
def register (r : Registry) (kind : EntityKind) (extractor : Extractor) : Registry :=
  { r with byTag := r.byTag.insert kind.tag extractor }

/-- The registry with the bundled extractors. -/
def standard : Registry :=
  empty
    |>.register .widget .binding
    |>.register .jsAction .binding
    |>.register .moduleInput .binding
    |>.register .action .declared
    |>.register .moduleInstance .moduleInstance

instance : Inhabited Registry := ⟨standard⟩

/-- The extractor of a kind. -/
def get (r : Registry) (kind : EntityKind) : Extractor := r.byTag.getD kind.tag r.fallback

end Registry

end Recalc
