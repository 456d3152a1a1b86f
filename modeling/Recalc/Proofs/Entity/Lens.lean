import Recalc.Entity.Basic
import Recalc.Proofs.Path

/-!
# Reading and writing a property

Writing a property cuts its text at the last separator and walks to an object, reading it splits the
text and walks through all segments. Both come down to the look-ups and writes at lists of segments
(`Entity.exchange_eq`), so the property of an entity can be read and written as a field of a record
can (`Entity.lensAt`).
-/

namespace Recalc.Entity

/-- An exchange hands out the property as it was read before, and leaves the entity with the new
value written. -/
theorem exchange_eq (e : Entity) (property : String) (value : Json) :
    e.exchange property value = (e.property? property, e.set property value) := by
  rw [exchange, property?, set, Json.Fields.exchange_eq, Path.segments_parent?_concat]

/-- What an exchange at `property` does to an entity, as seen by look-ups. -/
structure LensAt (e : Entity) (property : String) (value : Json) : Prop where
  /-- The old value is handed out. -/
  old : (e.exchange property value).1 = e.property? property
  /-- The new value is read back. -/
  new : (e.exchange property value).2.property? property = some value
  /-- Look-ups that part from the property see no difference. -/
  others : ∀ q, Json.Fields.Diverge (Path.segments property) (Path.segments q) →
    (e.exchange property value).2.property? q = e.property? q
  /-- It does not matter what an earlier exchange wrote. -/
  again : ∀ earlier, ((e.exchange property earlier).2.exchange property value).2 =
    (e.exchange property value).2

/-- The laws hold at any property and for any value, whatever stands on the way. -/
theorem lensAt (e : Entity) (property : String) (value : Json) : e.LensAt property value where
  old := by rw [exchange_eq]
  new := by
    rw [exchange_eq]
    exact Json.Fields.at?_setAt_self value (Path.segments_ne_nil property) e.fields
  others q h := by
    rw [exchange_eq]
    exact Json.Fields.at?_setAt_of_diverge value h e.fields
  again earlier := by
    simp only [exchange_eq]
    exact congrArg Entity.mk
      (Json.Fields.setAt_setAt_self earlier value (Path.segments property) e.fields)

/-- An object takes the place of a list on the way, and what is beside it stays. -/
theorem lensAt_tags :
    let e := ofJson (.object [("meta", .object [("page", .null), ("tags", .array [.null])])])
    e.LensAt "meta.tags.." (.bool true) ∧
      e.exchange "meta.tags.." (.bool true) =
        (none, ofJson (.object [("meta", .object [("page", .null),
          ("tags", .object [("", .object [("", .bool true)])])])])) ∧
      Json.Fields.Diverge (Path.segments "meta.tags..") (Path.segments "meta.page") ∧
      e.property? "meta.page" = some .null :=
  ⟨lensAt _ _ _, rfl, by decide, rfl⟩

end Recalc.Entity
