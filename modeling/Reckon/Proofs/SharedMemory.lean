import Reckon.Proofs.Layout
import Reckon.Proofs.Validation
/-!
# Mappings in memory

What is placed in memory is new throughout (`place_turns`), and so is a deep
copy.  A merged mapping is new itself, and what was not laid over is still the
base's own (`merge_turns`).  In place, a mapping changes by an entry that is
written (`write_turns`) or by a part that changes (`part_turns`).
-/

namespace Reckon

/-! ### Entries -/

namespace Association

variable {κ υ : Type} [BEq κ]

/-- Values are put in the place of the value that they replace. -/
theorem perm_of_get? {k : κ} {v : υ} {entries : List (κ × υ)} (h : get? k entries = some v) :
    ∃ others : List υ, (entries.map (·.2)).Perm (v :: others) ∧
      ∀ v', ((put k v' entries).map (·.2)).Perm (v' :: others) := by
  induction entries with
  | nil => cases h
  | cons entry rest ih =>
      obtain ⟨k₁, v₁⟩ := entry
      by_cases hk : (k₁ == k) = true
      · rw [get?, if_pos hk] at h
        cases h
        refine ⟨rest.map (·.2), .refl _, fun v' => ?_⟩
        rw [put, if_pos hk]
        exact .refl _
      · rw [get?, if_neg hk] at h
        obtain ⟨others, hbefore, hafter⟩ := ih h
        refine ⟨v₁ :: others, (hbefore.cons v₁).trans (.swap ..), fun v' => ?_⟩
        rw [put, if_neg hk]
        exact ((hafter v').cons v₁).trans (.swap ..)

/-- Other values come last. -/
theorem put_of_get?_none {k : κ} {entries : List (κ × υ)} (h : get? k entries = none) (v : υ) :
    (put k v entries).map (·.2) = entries.map (·.2) ++ [v] := by
  induction entries with
  | nil => rfl
  | cons entry rest ih =>
      obtain ⟨k₁, v₁⟩ := entry
      by_cases hk : (k₁ == k) = true
      · rw [get?, if_pos hk] at h
        cases h
      · rw [get?, if_neg hk] at h
        rw [put, if_neg hk, List.map_cons, ih h, List.map_cons, List.cons_append]

variable {υ' : Type}

/-- A look-up in mapped entries is a mapped look-up. -/
theorem get?_map (f : υ → υ') (k : κ) (entries : List (κ × υ)) :
    get? k (entries.map fun entry => (entry.1, f entry.2)) = (get? k entries).map f := by
  induction entries with
  | nil => rfl
  | cons entry rest ih =>
      by_cases hk : (entry.1 == k) = true <;> simp [get?, hk, ih]

/-- An entry may be put before or after the others are mapped. -/
theorem put_map (f : υ → υ') (k : κ) (v : υ) (entries : List (κ × υ)) :
    put k (f v) (entries.map fun entry => (entry.1, f entry.2)) =
      (put k v entries).map fun entry => (entry.1, f entry.2) := by
  induction entries with
  | nil => rfl
  | cons entry rest ih =>
      by_cases hk : (entry.1 == k) = true <;> simp [put, hk, ih]

/-- An entry may be taken out before or after the others are mapped. -/
theorem erase_map (f : υ → υ') (k : κ) (entries : List (κ × υ)) :
    erase k (entries.map fun entry => (entry.1, f entry.2)) =
      (erase k entries).map fun entry => (entry.1, f entry.2) := by
  rw [erase, List.filter_map]
  rfl

end Association

namespace Parts

/-- What lies under a key. -/
def get? (key : Scalar) (parts : Parts) : Option Layout :=
  Association.get? key parts

/-- The parts with another layout under a key. -/
def put (key : Scalar) (l : Layout) (parts : Parts) : Parts :=
  Association.put key l parts

/-- The parts without a key. -/
def erase (key : Scalar) (parts : Parts) : Parts :=
  Association.erase key parts

variable (key : Scalar) (l : Layout) (parts : Parts)

/-- A cell is the slot of its part. -/
theorem get?_cells : Association.get? key parts.cells = (parts.get? key).map Layout.slot :=
  Association.get?_map Layout.slot key parts

/-- An entry is the datum of its part. -/
theorem get?_entries : Association.get? key parts.entries = (parts.get? key).map Layout.datum :=
  Association.get?_map Layout.datum key parts

theorem cells_put : (parts.put key l).cells = Association.put key l.slot parts.cells :=
  (Association.put_map Layout.slot key l parts).symm

theorem entries_put : (parts.put key l).entries = Association.put key l.datum parts.entries :=
  (Association.put_map Layout.datum key l parts).symm

theorem cells_erase : (parts.erase key).cells = Association.erase key parts.cells :=
  (Association.erase_map Layout.slot key parts).symm

theorem entries_erase : (parts.erase key).entries = Association.erase key parts.entries :=
  (Association.erase_map Layout.datum key parts).symm

variable {key l parts} {m m' : Memory} {old : Layout}

/-- A part lies apart from the others. -/
theorem apart_of_get? (h : Layout.Apart m parts.layouts) (hold : parts.get? key = some old) :
    Layout.Apart m [old] := by
  obtain ⟨others, hothers, -⟩ := Association.perm_of_get? hold
  have hsplit : Layout.Apart m ([old] ++ others) := h.perm hothers
  exact (Layout.Apart.append.mp hsplit).1

/-- **Work on a part** is work on the parts. -/
theorem put_turns (h : Layout.Apart m parts.layouts) (hold : parts.get? key = some old)
    (hturns : Layout.Turns m [old] m' [l]) :
    Layout.Turns m parts.layouts m' (parts.put key l).layouts := by
  obtain ⟨others, hothers, hput⟩ := Association.perm_of_get? hold
  exact hturns.among hothers h (hput l)

/-- What is new comes last. -/
theorem put_turns_of_none (h : Layout.Apart m parts.layouts) (hnone : parts.get? key = none)
    (hturns : Layout.Turns m [] m' [l]) :
    Layout.Turns m parts.layouts m' (parts.put key l).layouts := by
  have hput : (parts.put key l).layouts = parts.layouts ++ [l] :=
    Association.put_of_get?_none hnone l
  rw [hput]
  exact (hturns.frame h).perm (.refl _) List.perm_append_comm

end Parts

namespace Layout

variable {m : Memory} {a : Address} {parts : Parts}

/-! ### New mappings -/

/-- A new mapping takes over the parts that its cells hold. -/
theorem allocate_turns (h : Apart m parts.layouts) :
    Turns m parts.layouts (m ++ [parts.cells]) [.mapping m.length parts] := by
  have hkept : ∀ a < m.length, (m ++ [parts.cells])[a]? = m[a]? := fun a ha =>
    List.getElem?_append_left ha
  have hnew : m.length ∉ ownedBy parts.layouts := fun hmem =>
    absurd (h.lt _ hmem) (Nat.lt_irrefl _)
  refine ⟨⟨by simp, fun a ha _ => hkept a ha⟩, Apart.mapping.mpr ⟨by simp, ?_, hnew⟩, ?_⟩
  · exact ⟨fun l hl => (h.lies l hl).frame fun a ha => hkept a (h.lt a (mem_ownedBy hl a ha)),
      h.nodup⟩
  · intro a ha
    rw [ownedBy_mapping, List.mem_cons] at ha
    exact ha.symm.imp_right fun heq => Nat.le_of_eq heq.symm

/-- A datum that is no mapping is its own layout. -/
theorem leaf_turns {d : Datum} (h : d.entries? = none) (m : Memory) : Turns m [] m [.leaf d] := by
  refine ⟨.refl _ _, ⟨by simpa [Lies] using h, by simp [owned]⟩, by simp [owned]⟩

/-- A datum that is no mapping is placed without an address. -/
theorem place_leaf_turns {d : Datum} (h : d.entries? = none) (m : Memory) :
    ∃ l m', Memory.place d m = (l.slot, m') ∧ l.datum = d ∧ Turns m [] m' [l] := by
  refine ⟨.leaf d, m, ?_, by rw [datum], leaf_turns h m⟩
  cases d with
  | mapping es => cases h
  | scalar | list | supplier | tree => rfl

/-- A mapping is placed behind its parts. -/
theorem place_mapping (es : Entries) (m : Memory) :
    Memory.place (.mapping es) m =
      (.mapping (Memory.placeMapping es m).1, (Memory.placeMapping es m).2) := by
  rw [Memory.place]
  rfl

/-- Entries are placed one after the other. -/
theorem placeAll_cons (entry : Scalar × Datum) (rest : Entries) (m : Memory) :
    Memory.placeAll (entry :: rest) m =
      ((entry.1, (Memory.place entry.2 m).1) ::
        (Memory.placeAll rest (Memory.place entry.2 m).2).1,
        (Memory.placeAll rest (Memory.place entry.2 m).2).2) := by
  obtain ⟨key, value⟩ := entry
  rw [Memory.placeAll]
  rfl

mutual

/-- What is placed is new throughout. -/
theorem place_turns : ∀ (d : Datum) (m : Memory), ∃ l m', Memory.place d m = (l.slot, m') ∧
    l.datum = d ∧ Turns m [] m' [l]
  | .mapping es, m => by
      obtain ⟨parts, m', hrun, rfl, hturns⟩ := placeAll_turns es m
      refine ⟨.mapping m'.length parts, m' ++ [parts.cells], ?_, datum_mapping _ _,
        hturns.trans (allocate_turns hturns.apart)⟩
      rw [place_mapping]
      show (Slot.mapping (Memory.placeAll _ m).2.length, _ ++ [(Memory.placeAll _ m).1]) = _
      rw [hrun]
      rfl
  | .scalar _, m => place_leaf_turns rfl m
  | .list _, m => place_leaf_turns rfl m
  | .supplier _, m => place_leaf_turns rfl m
  | .tree _, m => place_leaf_turns rfl m

/-- Entries are placed as parts that are new throughout. -/
theorem placeAll_turns : ∀ (es : List (Scalar × Datum)) (m : Memory),
    ∃ (parts : Parts) (m' : Memory), Memory.placeAll es m = (parts.cells, m') ∧
      parts.entries = es ∧ Turns m [] m' parts.layouts
  | [], m => ⟨[], m, rfl, rfl, .refl (.nil m)⟩
  | (key, value) :: rest, m => by
      obtain ⟨l, m₁, hplace, hdatum, hfirst⟩ := place_turns value m
      obtain ⟨parts, m₂, hall, hentries, hsecond⟩ := placeAll_turns rest m₁
      refine ⟨(key, l) :: parts, m₂, ?_, ?_, ?_⟩
      · rw [placeAll_cons, hplace, hall]
        rfl
      · rw [← hdatum, ← hentries]
        rfl
      · exact hfirst.trans ((hsecond.frame hfirst.apart).perm (.refl _) List.perm_append_comm)

end

/-- A mapping with new parts is new throughout. -/
theorem placeMapping_turns (es : Entries) (m : Memory) :
    ∃ a parts m', Memory.placeMapping es m = (a, m') ∧ Parts.entries parts = es ∧
      Turns m [] m' [.mapping a parts] := by
  obtain ⟨parts, m', hrun, hentries, hturns⟩ := placeAll_turns es m
  refine ⟨m'.length, parts, m' ++ [parts.cells], ?_, hentries,
    hturns.trans (allocate_turns hturns.apart)⟩
  show ((Memory.placeAll es m).2.length, _ ++ [(Memory.placeAll es m).1]) = _
  rw [hrun]

/-- **A deep copy is new throughout** and holds the same. -/
theorem deepCopy_turns (h : Apart m [.mapping a parts]) :
    ∃ b parts' m', Memory.deepCopy a m = (b, m') ∧ Parts.entries parts' = parts.entries ∧
      Turns m [] m' [.mapping b parts'] := by
  rw [Memory.deepCopy, h.entries_eq]
  exact placeMapping_turns parts.entries m

/-! ### Mappings over others -/

/-- A mapping is taken apart. -/
theorem open_turns (h : Apart m [.mapping a parts]) :
    Turns m [.mapping a parts] m parts.layouts := by
  refine ⟨.refl _ _, (Apart.mapping.mp h).2.1, fun b hb => .inl ?_⟩
  rw [ownedBy_mapping]
  exact List.mem_cons_of_mem _ hb

/-- What is new may take the place of anything. -/
theorem Turns.instead {m' : Memory} {new : List Layout} (h : Turns m [] m' new)
    (old : List Layout) : Turns m old m' new :=
  ⟨⟨h.changes.grows, fun b hb _ => h.changes.keeps b hb (by simp)⟩, h.apart,
    fun b hb => (h.taken b hb).imp_left fun hnone => absurd hnone (by simp)⟩

/-- Entries are laid over a mapping one after the other. -/
theorem mergeCells_cons (cells : Cells) (entry : Scalar × Datum) (rest : Entries) (m : Memory) :
    Memory.mergeCells cells (entry :: rest) m =
      let placed := match Association.get? entry.1 cells with
        | some old => Memory.overlay old entry.2 m
        | none => Memory.place entry.2 m
      Memory.mergeCells (Association.put entry.1 placed.1 cells) rest placed.2 := by
  obtain ⟨key, value⟩ := entry
  rw [Memory.mergeCells]
  cases Association.get? key cells <;> rfl

/-- A mapping over a mapping is merged into a new one. -/
theorem overlay_mapping (b : Address) (new : Entries) (m : Memory) :
    Memory.overlay (.mapping b) (.mapping new) m =
      (.mapping (Memory.mergeCells (m.cellsAt b) new m).2.length,
        (Memory.mergeCells (m.cellsAt b) new m).2 ++
          [(Memory.mergeCells (m.cellsAt b) new m).1]) := by
  rw [Memory.overlay]
  rfl

/-- Of a datum that is no mapping nothing is left but itself. -/
theorem overlay_leaf_turns {d : Datum} (h : d.entries? = none) (old : Layout) (m : Memory) :
    ∃ l m', Memory.overlay old.slot d m = (l.slot, m') ∧
      l.datum = Datum.overlay old.datum d ∧ Turns m [old] m' [l] := by
  refine ⟨.leaf d, m, ?_, ?_, (leaf_turns h m).instead _⟩
  · cases d with
    | mapping es => cases h
    | scalar | list | supplier | tree => rfl
  · rw [datum, Datum.overlay_leaf _ h]

mutual

/-- A datum over a layout: what the layout does not give up is new. -/
theorem overlay_turns : ∀ (d : Datum) (m : Memory) (old : Layout), Apart m [old] →
    ∃ l m', Memory.overlay old.slot d m = (l.slot, m') ∧
      l.datum = Datum.overlay old.datum d ∧ Turns m [old] m' [l]
  | .mapping new, m, .mapping b parts, h => by
      obtain ⟨parts', m', hrun, hentries, hturns⟩ :=
        mergeCells_turns new m parts (Apart.mapping.mp h).2.1
      refine ⟨.mapping m'.length parts', m' ++ [parts'.cells], ?_, ?_,
        (open_turns h).trans (hturns.trans (allocate_turns hturns.apart))⟩
      · rw [slot, overlay_mapping, h.cellsAt_eq, hrun]
        rfl
      · rw [datum_mapping, datum_mapping, hentries, Datum.overlay]
  | .mapping new, m, .leaf d, h => by
      obtain ⟨l, m', hrun, hdatum, hturns⟩ := place_turns (.mapping new) m
      have hnone : d.entries? = none := by simpa [Lies] using h.lies _ List.mem_cons_self
      refine ⟨l, m', hrun, ?_, hturns.instead _⟩
      rw [hdatum, datum, Datum.overlay_of_leaf hnone]
  | .scalar _, m, old, _ => overlay_leaf_turns rfl old m
  | .list _, m, old, _ => overlay_leaf_turns rfl old m
  | .supplier _, m, old, _ => overlay_leaf_turns rfl old m
  | .tree _, m, old, _ => overlay_leaf_turns rfl old m

/-- Entries over the parts of a mapping. -/
theorem mergeCells_turns : ∀ (es : List (Scalar × Datum)) (m : Memory) (parts : Parts),
    Apart m parts.layouts → ∃ (parts' : Parts) (m' : Memory),
      Memory.mergeCells parts.cells es m = (parts'.cells, m') ∧
      parts'.entries = Datum.mergeInto parts.entries es ∧ Turns m parts.layouts m' parts'.layouts
  | [], m, parts, h => ⟨parts, m, rfl, by rw [Datum.mergeInto], .refl h⟩
  | (key, value) :: rest, m, parts, h => by
      rw [mergeCells_cons, Datum.mergeInto, Parts.get?_cells, Parts.get?_entries]
      cases hget : parts.get? key with
      | none =>
          obtain ⟨l, m₁, hplace, hdatum, hnew⟩ := place_turns value m
          have hfirst := Parts.put_turns_of_none h hget hnew
          obtain ⟨parts', m', hrun, hentries, hsecond⟩ :=
            mergeCells_turns rest m₁ (parts.put key l) hfirst.apart
          refine ⟨parts', m', ?_, ?_, hfirst.trans hsecond⟩
          · rw [← hrun, Parts.cells_put]
            simp only [Option.map_none, hplace]
          · rw [hentries, Parts.entries_put, hdatum]
            rfl
      | some old =>
          obtain ⟨l, m₁, hoverlay, hdatum, hpart⟩ :=
            overlay_turns value m old (Parts.apart_of_get? h hget)
          have hfirst := Parts.put_turns h hget hpart
          obtain ⟨parts', m', hrun, hentries, hsecond⟩ :=
            mergeCells_turns rest m₁ (parts.put key l) hfirst.apart
          refine ⟨parts', m', ?_, ?_, hfirst.trans hsecond⟩
          · rw [← hrun, Parts.cells_put]
            simp only [Option.map_some, hoverlay]
          · rw [hentries, Parts.entries_put, hdatum]
            rfl

end

/-- **A merged mapping** is the base with entries laid over it. -/
theorem merge_turns (h : Apart m [.mapping a parts]) (override : Entries) :
    ∃ b parts' m', Memory.merge a override m = (b, m') ∧
      Parts.entries parts' = Datum.merge parts.entries override ∧
      Turns m [.mapping a parts] m' [.mapping b parts'] := by
  obtain ⟨parts', m', hrun, hentries, hturns⟩ :=
    mergeCells_turns override m parts (Apart.mapping.mp h).2.1
  refine ⟨m'.length, parts', m' ++ [parts'.cells], ?_, hentries,
    (open_turns h).trans (hturns.trans (allocate_turns hturns.apart))⟩
  show ((Memory.mergeCells (m.cellsAt a) override m).2.length,
    _ ++ [(Memory.mergeCells (m.cellsAt a) override m).1]) = _
  rw [h.cellsAt_eq, hrun]

/-! ### In place -/

variable {m' : Memory} {name : String} {l old : Layout}

/-- What stands under a name is what lies there. -/
theorem slot?_eq (h : Apart m [.mapping a parts]) (name : String) :
    m.slot? a name = (parts.get? (.text name)).map slot := by
  rw [Memory.slot?, h.cellsAt_eq, Parts.get?_cells]

/-- **A part that changes in place** changes the mapping. -/
theorem part_turns (h : Apart m [.mapping a parts]) (hold : parts.get? (.text name) = some old)
    (hturns : Turns m [old] m' [l]) (hslot : l.slot = old.slot) :
    Turns m [.mapping a parts] m' [.mapping a (parts.put (.text name) l)] := by
  obtain ⟨hcells, hparts, hnone⟩ := Apart.mapping.mp h
  have ha : a < m.length := (List.getElem?_eq_some_iff.mp hcells).1
  have hput := Parts.put_turns hparts hold hturns
  have hsame : (parts.put (.text name) l).cells = parts.cells := by
    rw [Parts.cells_put, hslot]
    refine Association.put_of_get? ?_
    rw [Parts.get?_cells, hold]
    rfl
  refine ⟨⟨hput.changes.grows, fun b hb hother => ?_⟩, Apart.mapping.mpr ⟨?_, hput.apart, ?_⟩, ?_⟩
  · refine hput.changes.keeps b hb fun hmem => hother ?_
    rw [ownedBy_mapping]
    exact List.mem_cons_of_mem _ hmem
  · rw [hput.changes.keeps a ha hnone, hcells, hsame]
  · intro hmem
    rcases hput.taken a hmem with hmem | hlarge
    · exact hnone hmem
    · exact absurd ha (Nat.not_lt.mpr hlarge)
  · intro b hb
    rw [ownedBy_mapping, List.mem_cons] at hb ⊢
    rcases hb with rfl | hb
    · exact .inl (.inl rfl)
    · exact (hput.taken b hb).imp_left .inr

/-- With another layout under a key, the parts are some of those and of the
layout. -/
theorem perm_put (key : Scalar) (l : Layout) (parts : Parts) :
    ∃ dropped, (parts.layouts ++ [l]).Perm ((parts.put key l).layouts ++ dropped) := by
  cases hget : parts.get? key with
  | none =>
      refine ⟨[], ?_⟩
      have hput : (parts.put key l).layouts = parts.layouts ++ [l] :=
        Association.put_of_get?_none hget l
      rw [hput, List.append_nil]
  | some old =>
      obtain ⟨others, hothers, hput⟩ := Association.perm_of_get? hget
      have hexchange : ((old :: others) ++ [l]).Perm ((l :: others) ++ [old]) :=
        (List.perm_append_singleton l (old :: others)).trans
          ((List.perm_append_singleton old others).symm.cons l)
      exact ⟨[old], ((hothers.append_right [l]).trans hexchange).trans
        ((hput l).symm.append_right [old])⟩

/-- Without a key the parts are some of what they were. -/
theorem perm_erase (key : Scalar) (parts : Parts) :
    ∃ dropped, parts.layouts.Perm ((parts.erase key).layouts ++ dropped) := by
  refine ⟨Parts.layouts (parts.filter fun part => !!(part.1 == key)), ?_⟩
  have hperm := (List.filter_append_perm (fun part => !(part.1 == key)) parts).symm
  exact (hperm.map Prod.snd).trans (.of_eq (List.map_append ..))

/-- **A mapping that is rewritten in place.**  Its new parts are some of the old
ones and of further layouts; what is no part of it any more is left behind. -/
theorem rewrite_turns {ls dropped : List Layout} {parts' : Parts}
    (h : Apart m (.mapping a parts :: ls)) {change : Cells → Cells}
    (hcells : change parts.cells = parts'.cells)
    (hperm : (parts.layouts ++ ls).Perm (parts'.layouts ++ dropped)) :
    Turns m (.mapping a parts :: ls) (m.modify a change) [.mapping a parts'] := by
  have hsplit : Apart m ([.mapping a parts] ++ ls) := h
  obtain ⟨hmapping, hothers, hdisjoint⟩ := Apart.append.mp hsplit
  obtain ⟨hself, hparts, hnone⟩ := Apart.mapping.mp hmapping
  rw [ownedBy_mapping, List.forall_mem_cons] at hdisjoint
  have hall : Apart m (parts.layouts ++ ls) := Apart.append.mpr ⟨hparts, hothers, hdisjoint.2⟩
  have hother : a ∉ ownedBy (parts.layouts ++ ls) := by
    rw [ownedBy_append, List.mem_append, not_or]
    exact ⟨hnone, hdisjoint.1⟩
  obtain ⟨hnew, -, -⟩ := Apart.append.mp (hall.perm hperm)
  have hmem : ∀ b ∈ ownedBy parts'.layouts, b ∈ ownedBy (parts.layouts ++ ls) := by
    intro b hb
    refine (hperm.flatMap_right owned).mem_iff.mpr ?_
    rw [List.flatMap_append]
    exact List.mem_append_left _ hb
  have hold : ∀ b, b ∈ ownedBy (.mapping a parts :: ls) ↔
      b = a ∨ b ∈ ownedBy (parts.layouts ++ ls) := by
    intro b
    rw [← List.singleton_append, ownedBy_append, ownedBy_mapping, List.cons_append,
      ← ownedBy_append, List.mem_cons]
  have hkept : ∀ b ≠ a, (m.modify a change)[b]? = m[b]? := by
    intro b hb
    rw [List.getElem?_modify]
    simp [Ne.symm hb]
  refine ⟨⟨by simp, fun b _ hb => hkept b fun heq => hb ((hold b).mpr (.inl heq))⟩,
    Apart.mapping.mpr ⟨?_, ?_, fun hb => hother (hmem a hb)⟩, fun b hb => .inl ((hold b).mpr ?_)⟩
  · rw [List.getElem?_modify, hself, ← hcells]
    simp
  · refine ⟨fun l' hl' => (hnew.lies l' hl').frame fun b hb => hkept b ?_, hnew.nodup⟩
    rintro rfl
    exact hother (hmem b (mem_ownedBy hl' b hb))
  · rw [ownedBy_mapping, List.mem_cons] at hb
    exact hb.imp_right (hmem b)

/-- **A key that is given a value in place.** -/
theorem write_turns (h : Apart m [.mapping a parts, l]) (key : Scalar) :
    Turns m [.mapping a parts, l] (m.put a key l.slot) [.mapping a (parts.put key l)] := by
  obtain ⟨dropped, hperm⟩ := perm_put key l parts
  exact rewrite_turns h (Parts.cells_put ..).symm hperm

/-- **A key that is taken away in place.** -/
theorem erase_turns (h : Apart m [.mapping a parts]) (key : Scalar) :
    Turns m [.mapping a parts] (m.erase a key) [.mapping a (parts.erase key)] := by
  obtain ⟨dropped, hperm⟩ := perm_erase key parts
  rw [← List.append_nil (Parts.layouts parts)] at hperm
  exact rewrite_turns h (Parts.cells_erase ..).symm hperm

/-- A new layout is written in place. -/
theorem write_new_turns (h : Apart m [.mapping a parts]) (hnew : Turns m [] m' [l])
    (key : Scalar) :
    Turns m [.mapping a parts] (m'.put a key l.slot) [.mapping a (parts.put key l)] := by
  have hbeside : Turns m [.mapping a parts] m' [.mapping a parts, l] :=
    (hnew.frame h).perm (.refl _) (.swap ..)
  exact hbeside.trans (write_turns hbeside.apart key)

end Layout

end Reckon
