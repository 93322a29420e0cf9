import Reckon.Datum
/-!
# Merging mappings

An overriding mapping is laid over a base.  Where both hold a mapping under a
key the two are merged in turn; otherwise the overriding value replaces the
other.  Keys of the base keep their place and spelling, new keys follow in
their own order.
-/

namespace Reckon.Datum

mutual

/-- A datum laid over another: mappings are merged, all else replaces. -/
def overlay (base : Datum) : Datum → Datum
  | .mapping new =>
    match base with
    | .mapping old => .mapping (mergeInto old new)
    | _ => .mapping new
  | new => new

/-- The entries of a mapping laid over those of a base, one after the other. -/
def mergeInto (base : List (Scalar × Datum)) : List (Scalar × Datum) → List (Scalar × Datum)
  | [] => base
  | (key, value) :: rest =>
    let merged := match Association.get? key base with
      | some old => overlay old value
      | none => value
    mergeInto (Association.put key merged base) rest

end

theorem overlay_mapping (old new : Entries) :
    overlay (.mapping old) (.mapping new) = .mapping (mergeInto old new) := by
  rw [overlay]

/-- All else but a mapping replaces. -/
theorem overlay_leaf (base : Datum) {d : Datum} (h : d.entries? = none) :
    overlay base d = d := by
  cases d with
  | mapping es => cases h
  | scalar | list | supplier | tree => simp [overlay]

/-- All else but a mapping is replaced. -/
theorem overlay_of_leaf {base : Datum} (h : base.entries? = none) (d : Datum) :
    overlay base d = d := by
  cases d with
  | mapping new =>
      cases base with
      | mapping es => cases h
      | scalar | list | supplier | tree => simp [overlay]
  | scalar | list | supplier | tree => exact overlay_leaf base rfl

/-- The entries of a base with those of an overriding mapping laid over them. -/
def merge (base override : Entries) : Entries :=
  mergeInto base override

end Reckon.Datum
