import Mathlib.Data.List.Nodup
import Mathlib.Data.List.Perm.Subperm
import Reckon.Settings.Memory
/-!
# How data lie in memory

A layout is a datum with the addresses of its mappings.  Layouts that lie in a
memory apart from each other have no mapping in common, and none of them is
twice part of one (`Apart`).  So a memory shows what a layout says
(`Apart.entries_eq`).

Work in memory turns some layouts into others (`Turns`): it changes no mapping
but theirs, and takes no mapping but theirs and new ones.  Whatever lies apart
from them is left alone (`Turns.frame`), so that what one piece of work does
says what a sequence does (`Turns.trans`).
-/

namespace Reckon

/-- A datum with the addresses at which its mappings lie. -/
inductive Layout where
  | leaf (d : Datum)
  | mapping (address : Address) (parts : List (Scalar × Layout))

/-- What lies under the keys of a mapping. -/
abbrev Parts := List (Scalar × Layout)

namespace Layout

/-- The slot that refers to a layout. -/
def slot : Layout → Slot
  | .leaf d => .leaf d
  | .mapping a _ => .mapping a

/-- The parts of a layout are smaller than the whole. -/
theorem sizeOf_part_lt {a : Address} {parts : Parts} {part : Scalar × Layout}
    (h : part ∈ parts) : sizeOf part.2 < sizeOf (Layout.mapping a parts) := by
  have hmem := List.sizeOf_lt_of_mem h
  have hpart : sizeOf part = 1 + sizeOf part.1 + sizeOf part.2 := rfl
  simp only [mapping.sizeOf_spec]
  omega

/-- The datum of a layout. -/
def datum : Layout → Datum
  | .leaf d => d
  | .mapping _ parts => .mapping (parts.map fun part => (part.1, part.2.datum))
decreasing_by exact sizeOf_part_lt ‹_›

/-- The addresses of the mappings of a layout. -/
def owned : Layout → List Address
  | .leaf _ => []
  | .mapping a parts => a :: parts.flatMap fun part => part.2.owned
decreasing_by exact sizeOf_part_lt ‹_›

/-- A layout lies in a memory: every mapping is where it should be. -/
def Lies (m : Memory) : Layout → Prop
  | .leaf d => d.entries? = none
  | .mapping a parts => m[a]? = some (parts.map fun part => (part.1, part.2.slot)) ∧
    ∀ part ∈ parts, part.2.Lies m
decreasing_by exact sizeOf_part_lt ‹_›

/-- What holds of a mapping when it holds of its parts, holds of all layouts. -/
@[elab_as_elim] theorem byParts {motive : Layout → Prop} (leaf : ∀ d, motive (.leaf d))
    (mapping : ∀ a parts, (∀ part ∈ parts, motive part.2) → motive (.mapping a parts)) :
    ∀ l, motive l
  | .leaf d => leaf d
  | .mapping a parts => mapping a parts fun part _ => byParts leaf mapping part.2
decreasing_by exact sizeOf_part_lt ‹_›

/-- The addresses of the mappings of some layouts. -/
def ownedBy (ls : List Layout) : List Address :=
  ls.flatMap owned

end Layout

namespace Parts

/-- The cells of a mapping with given parts. -/
def cells (parts : Parts) : Cells :=
  parts.map fun part => (part.1, part.2.slot)

/-- The entries of a mapping with given parts. -/
def entries (parts : Parts) : Entries :=
  parts.map fun part => (part.1, part.2.datum)

/-- The layouts of the parts alone. -/
def layouts (parts : Parts) : List Layout :=
  parts.map (·.2)

end Parts

namespace Layout

variable {m m' : Memory} {a : Address} {parts : Parts}

/-- A mapping shows the data of its parts. -/
theorem datum_mapping (a : Address) (parts : Parts) :
    (mapping a parts).datum = .mapping parts.entries := by
  rw [datum, Parts.entries]

/-- A mapping owns its address and what its parts own. -/
theorem owned_mapping (a : Address) (parts : Parts) :
    (mapping a parts).owned = a :: ownedBy parts.layouts := by
  rw [owned, ownedBy, Parts.layouts, List.flatMap_map]

/-- A mapping lies in memory if its cells are at its address and its parts lie
there. -/
theorem lies_mapping : (mapping a parts).Lies m ↔
    m[a]? = some parts.cells ∧ ∀ l ∈ parts.layouts, l.Lies m := by
  rw [Lies, Parts.cells, Parts.layouts, List.forall_mem_map]

@[simp] theorem ownedBy_nil : ownedBy [] = [] := rfl

@[simp] theorem ownedBy_cons (l : Layout) (ls : List Layout) :
    ownedBy (l :: ls) = l.owned ++ ownedBy ls := rfl

@[simp] theorem ownedBy_append (ls ls' : List Layout) :
    ownedBy (ls ++ ls') = ownedBy ls ++ ownedBy ls' :=
  List.flatMap_append

/-- What one mapping owns. -/
theorem ownedBy_mapping (a : Address) (parts : Parts) :
    ownedBy [.mapping a parts] = a :: ownedBy parts.layouts := by
  rw [ownedBy_cons, owned_mapping, ownedBy_nil, List.append_nil]

/-- What one of some layouts owns they own together. -/
theorem mem_ownedBy {ls : List Layout} {l : Layout} (h : l ∈ ls) : ∀ a ∈ l.owned, a ∈ ownedBy ls :=
  fun _ ha => List.mem_flatMap.mpr ⟨l, h, ha⟩

/-- One of some layouts owns no more than all of them. -/
theorem length_owned_le {ls : List Layout} {l : Layout} (h : l ∈ ls) :
    l.owned.length ≤ (ownedBy ls).length := by
  obtain ⟨before, behind, rfl⟩ := List.append_of_mem h
  simp only [ownedBy_append, ownedBy_cons, List.length_append]
  omega

/-- What lies in a memory is at addresses of it. -/
theorem Lies.lt {l : Layout} (h : l.Lies m) : ∀ a ∈ l.owned, a < m.length := by
  induction l using byParts with
  | leaf d => simp [owned]
  | mapping a parts ih =>
      obtain ⟨hcells, hparts⟩ := lies_mapping.mp h
      rw [owned_mapping]
      refine List.forall_mem_cons.mpr ⟨(List.getElem?_eq_some_iff.mp hcells).1, ?_⟩
      intro b hb
      obtain ⟨l, hl, hb⟩ := List.mem_flatMap.mp hb
      obtain ⟨part, hpart, rfl⟩ := List.mem_map.mp hl
      exact ih part hpart (hparts _ hl) b hb

/-- **What does not change a layout leaves it where it lies.** -/
theorem Lies.frame {l : Layout} (h : l.Lies m) (hsame : ∀ a ∈ l.owned, m'[a]? = m[a]?) :
    l.Lies m' := by
  induction l using byParts with
  | leaf d => simpa [Lies] using h
  | mapping a parts ih =>
      obtain ⟨hcells, hparts⟩ := lies_mapping.mp h
      rw [owned_mapping] at hsame
      obtain ⟨hhere, hbelow⟩ := List.forall_mem_cons.mp hsame
      refine lies_mapping.mpr ⟨hhere.trans hcells, fun l hl => ?_⟩
      obtain ⟨part, hpart, rfl⟩ := List.mem_map.mp hl
      exact ih part hpart (hparts _ hl) fun b hb => hbelow b (mem_ownedBy hl b hb)

/-- A memory shows what lies in it, given enough levels. -/
theorem Lies.contents_eq {l : Layout} (h : l.Lies m) {levels : Nat}
    (hlevels : l.owned.length ≤ levels) : m.contents levels l.slot = l.datum := by
  induction l using byParts generalizing levels with
  | leaf d => cases levels <;> simp [slot, Memory.contents, datum]
  | mapping a parts ih =>
      obtain ⟨hcells, hparts⟩ := lies_mapping.mp h
      rw [owned_mapping, List.length_cons] at hlevels
      obtain ⟨levels, rfl⟩ : ∃ n, levels = n + 1 := ⟨levels - 1, by omega⟩
      have hhere : m.cellsAt a = Parts.cells parts := by
        rw [Memory.cellsAt, List.getD_eq_getElem?_getD, hcells]
        rfl
      rw [slot, Memory.contents, hhere, datum_mapping, Parts.cells, Parts.entries, List.map_map]
      congr 1
      refine List.map_congr_left fun part hpart => ?_
      have hmem : part.2 ∈ Parts.layouts parts := List.mem_map_of_mem hpart
      have hle := length_owned_le hmem
      exact congrArg (part.1, ·) (ih part hpart (hparts _ hmem) (by omega))

/-! ### Layouts apart from each other -/

/-- Layouts lie in a memory, and none of their mappings is in two places. -/
structure Apart (m : Memory) (ls : List Layout) : Prop where
  lies : ∀ l ∈ ls, l.Lies m
  nodup : (ownedBy ls).Nodup

namespace Apart

variable {ls ls' : List Layout} {l : Layout}

/-- Where there are no layouts nothing is shared. -/
theorem nil (m : Memory) : Apart m [] :=
  ⟨by simp, by simp⟩

/-- What is owned lies in memory. -/
theorem lt (h : Apart m ls) : ∀ a ∈ ownedBy ls, a < m.length := by
  intro a ha
  obtain ⟨l, hl, ha⟩ := List.mem_flatMap.mp ha
  exact (h.lies l hl).lt a ha

/-- The order does not matter. -/
theorem perm (h : Apart m ls) (hperm : ls.Perm ls') : Apart m ls' :=
  ⟨fun l hl => h.lies l (hperm.mem_iff.mpr hl), (hperm.flatMap_right _).nodup_iff.mp h.nodup⟩

/-- Two groups of layouts are apart if each is, and they own nothing in common.
-/
theorem append : Apart m (ls ++ ls') ↔
    Apart m ls ∧ Apart m ls' ∧ ∀ a ∈ ownedBy ls, a ∉ ownedBy ls' := by
  constructor
  · intro h
    have hnodup := h.nodup
    rw [ownedBy_append, List.nodup_append'] at hnodup
    obtain ⟨hfirst, hsecond, hdisjoint⟩ := hnodup
    exact ⟨⟨fun l hl => h.lies l (List.mem_append_left _ hl), hfirst⟩,
      ⟨fun l hl => h.lies l (List.mem_append_right _ hl), hsecond⟩, fun a => @hdisjoint a⟩
  · rintro ⟨hfirst, hsecond, hdisjoint⟩
    refine ⟨fun l hl => ?_, ?_⟩
    · rcases List.mem_append.mp hl with hl | hl
      · exact hfirst.lies l hl
      · exact hsecond.lies l hl
    · rw [ownedBy_append, List.nodup_append']
      exact ⟨hfirst.nodup, hsecond.nodup, fun a => hdisjoint a⟩

/-- A mapping lies apart when its parts do, and it is none of them. -/
theorem mapping : Apart m [.mapping a parts] ↔
    m[a]? = some parts.cells ∧ Apart m parts.layouts ∧ a ∉ ownedBy parts.layouts := by
  constructor
  · rintro ⟨hlies, hnodup⟩
    obtain ⟨hcells, hparts⟩ := lies_mapping.mp (hlies _ List.mem_cons_self)
    rw [ownedBy_mapping, List.nodup_cons] at hnodup
    exact ⟨hcells, ⟨hparts, hnodup.2⟩, hnodup.1⟩
  · rintro ⟨hcells, hparts, hnone⟩
    refine ⟨by simpa using lies_mapping.mpr ⟨hcells, hparts.lies⟩, ?_⟩
    rw [ownedBy_mapping, List.nodup_cons]
    exact ⟨hnone, hparts.nodup⟩

/-- There are no more mappings than addresses. -/
theorem length_le (h : Apart m ls) : (ownedBy ls).length ≤ m.length := by
  have hsubset : ownedBy ls ⊆ List.range m.length := fun a ha => List.mem_range.mpr (h.lt a ha)
  simpa using (h.nodup.subperm hsubset).length_le

/-- **A memory shows what lies in it.** -/
theorem datum_eq (h : Apart m ls) (hl : l ∈ ls) : m.datum l.slot = l.datum :=
  (h.lies l hl).contents_eq (Nat.le_trans (length_owned_le hl) h.length_le)

/-- At the address of a mapping are its cells. -/
theorem cellsAt_eq (h : Apart m [.mapping a parts]) : m.cellsAt a = parts.cells := by
  rw [Memory.cellsAt, List.getD_eq_getElem?_getD, (mapping.mp h).1]
  rfl

/-- At the address of a mapping its entries can be read. -/
theorem entries_eq (h : Apart m [.mapping a parts]) : m.entries a = parts.entries := by
  rw [Memory.entries, h.cellsAt_eq, Parts.cells, Parts.entries, List.map_map]
  refine List.map_congr_left fun part hpart => ?_
  exact congrArg (part.1, ·) ((mapping.mp h).2.1.datum_eq (List.mem_map_of_mem hpart))

end Apart

/-! ### Work in memory -/

/-- No mapping is changed but at some addresses, and none is given up. -/
structure Changes (used : List Address) (m m' : Memory) : Prop where
  grows : m.length ≤ m'.length
  keeps : ∀ a < m.length, a ∉ used → m'[a]? = m[a]?

/-- To do nothing changes nothing. -/
theorem Changes.refl (used : List Address) (m : Memory) : Changes used m m :=
  ⟨Nat.le_refl _, fun _ _ _ => rfl⟩

/-- Work on some layouts ends in others: no mapping but theirs is changed, and
none but theirs and new ones are taken. -/
structure Turns (m : Memory) (old : List Layout) (m' : Memory) (new : List Layout) : Prop where
  changes : Changes (ownedBy old) m m'
  apart : Apart m' new
  taken : ∀ a ∈ ownedBy new, a ∈ ownedBy old ∨ m.length ≤ a

namespace Turns

variable {m₁ m₂ : Memory} {old mid new rest ls : List Layout}

/-- To do nothing leaves the layouts as they are. -/
theorem refl (h : Apart m ls) : Turns m ls m ls :=
  ⟨.refl _ _, h, fun _ ha => .inl ha⟩

/-- Work on what was made changes nothing but what was used for it. -/
theorem changes_trans (hfirst : Turns m old m₁ mid) (hsecond : Changes (ownedBy mid) m₁ m₂) :
    Changes (ownedBy old) m m₂ := by
  refine ⟨Nat.le_trans hfirst.changes.grows hsecond.grows, fun a ha hnone => ?_⟩
  have hother : a ∉ ownedBy mid := by
    intro hmem
    rcases hfirst.taken a hmem with hold | hlarge
    · exact hnone hold
    · exact absurd ha (Nat.not_lt.mpr hlarge)
  have ha₁ := Nat.lt_of_lt_of_le ha hfirst.changes.grows
  rw [hsecond.keeps a ha₁ hother, hfirst.changes.keeps a ha hnone]

/-- **One piece of work after the other.** -/
theorem trans (hfirst : Turns m old m₁ mid) (hsecond : Turns m₁ mid m₂ new) :
    Turns m old m₂ new := by
  refine ⟨hfirst.changes_trans hsecond.changes, hsecond.apart, fun a ha => ?_⟩
  rcases hsecond.taken a ha with hmid | hlarge
  · exact hfirst.taken a hmid
  · exact .inr (Nat.le_trans hfirst.changes.grows hlarge)

/-- **What lies apart is left alone.** -/
theorem frame (h : Turns m old m' new) (hapart : Apart m (old ++ rest)) :
    Turns m (old ++ rest) m' (new ++ rest) := by
  obtain ⟨-, hrest, hdisjoint⟩ := Apart.append.mp hapart
  have hkept : ∀ a ∈ ownedBy rest, m'[a]? = m[a]? := fun a ha =>
    h.changes.keeps a (hrest.lt a ha) fun hold => hdisjoint a hold ha
  refine ⟨⟨h.changes.grows, fun a ha hnone => ?_⟩, Apart.append.mpr ⟨h.apart, ?_, ?_⟩, ?_⟩
  · refine h.changes.keeps a ha fun hold => hnone ?_
    rw [ownedBy_append]
    exact List.mem_append_left _ hold
  · exact ⟨fun l hl => (hrest.lies l hl).frame fun a ha => hkept a (mem_ownedBy hl a ha),
      hrest.nodup⟩
  · intro a ha hmem
    rcases h.taken a ha with hold | hlarge
    · exact hdisjoint a hold hmem
    · exact absurd (hrest.lt a hmem) (Nat.not_lt.mpr hlarge)
  · intro a ha
    rw [ownedBy_append, List.mem_append] at ha ⊢
    rcases ha with hnew | hmem
    · exact (h.taken a hnew).imp_left .inl
    · exact .inl (.inr hmem)

/-- The order does not matter. -/
theorem perm (h : Turns m old m' new) {old' new' : List Layout} (hold : old.Perm old')
    (hnew : new.Perm new') : Turns m old' m' new' := by
  have hmem : ∀ a, a ∈ ownedBy old ↔ a ∈ ownedBy old' := fun a =>
    (hold.flatMap_right _).mem_iff
  refine ⟨⟨h.changes.grows, fun a ha hnone => ?_⟩, h.apart.perm hnew, fun a ha => ?_⟩
  · exact h.changes.keeps a ha fun hmid => hnone ((hmem a).mp hmid)
  · exact (h.taken a ((hnew.flatMap_right _).mem_iff.mpr ha)).imp_left (hmem a).mp

/-- A layout is turned into another among others. -/
theorem among {l l' : Layout} (h : Turns m [l] m' [l']) {others : List Layout}
    (hls : ls.Perm (l :: others)) (hapart : Apart m ls) {ls' : List Layout}
    (hls' : ls'.Perm (l' :: others)) : Turns m ls m' ls' :=
  (h.frame (hapart.perm hls)).perm hls.symm hls'.symm

end Turns

end Layout

end Reckon
