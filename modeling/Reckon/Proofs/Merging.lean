import Reckon.Datum.Merge
import Reckon.Proofs.Keys
/-!
# What a merge holds

A mapping that is laid over another takes effect key by key
(`Datum.get?_mergeInto`), and the keys of the base come first
(`Datum.keys_mergeInto`).  What a merged mapping holds at a path of keys is
read off its parts, by induction on the path: where the overriding mapping
holds something, that is laid over what the base holds
(`Keyed.at?_overlay_of_some`); where it holds nothing, there is what the base
holds (`Keyed.at?_overlay_of_none`), unless a value that is no mapping stands in
the way (`Keyed.cuts_overlay`).

To merge twice is to merge once (`Keyed.overlay_overlay`), by induction on the
overriding datum: each of its entries lies over what it made itself.

The overriding mapping has distinct keys, and no key that differs from itself.
Nothing is asked of the base.
-/

namespace Reckon

namespace Association

variable {κ υ : Type} [BEq κ]

/-- An entry of distinct keys is found under its key. -/
theorem get?_of_mem {entries : List (κ × υ)} (h : Distinct entries) {k : κ} {v : υ}
    (hk : (k == k) = true) (hmem : (k, v) ∈ entries) : get? k entries = some v := by
  induction entries with
  | nil => cases hmem
  | cons entry rest ih =>
      obtain ⟨hentry, hrest⟩ := List.pairwise_cons.mp h
      rcases List.mem_cons.mp hmem with rfl | hmem
      · simp [get?, hk]
      · simp [get?, hentry _ hmem, ih hrest hmem]

variable [PartialEquivBEq κ]

/-- A key that is distinct from all others has no value among them. -/
theorem get?_eq_none {k k' : κ} {entries : List (κ × υ)}
    (h : ∀ entry ∈ entries, (k == entry.1) = false) (hk : (k == k') = true) :
    get? k' entries = none := by
  induction entries with
  | nil => rfl
  | cons entry rest ih =>
      obtain ⟨hentry, hrest⟩ := List.forall_mem_cons.mp h
      have hother : (entry.1 == k') = false := by
        rw [BEq.comm, ← BEq.congr_left hk]
        exact hentry
      simp [get?, hother, ih hrest]

end Association

namespace Datum

open Association (get? put keys Distinct)

/-- What has entries is a mapping. -/
theorem eq_mapping {d : Datum} {es : Entries} (h : d.entries? = some es) : d = .mapping es := by
  cases d with
  | mapping => exact congrArg mapping (Option.some.inj h)
  | scalar | list | supplier | tree => cases h

/-! ### Entries laid over others -/

/-- A value laid over what was there before, if anything was. -/
def laid (old : Option Datum) (d : Datum) : Datum :=
  old.elim d fun old => overlay old d

theorem laid_leaf (old : Option Datum) {d : Datum} (h : d.entries? = none) : laid old d = d := by
  cases old with
  | none => rfl
  | some old => exact overlay_leaf old h

theorem laid_of_leaf {old : Option Datum} (h : old.bind entries? = none) (d : Datum) :
    laid old d = d := by
  cases old with
  | none => rfl
  | some old => exact overlay_of_leaf h d

theorem mergeInto_cons (base : Entries) (key : Scalar) (d : Datum) (rest : Entries) :
    mergeInto base ((key, d) :: rest) = mergeInto (put key (laid (get? key base) d) base) rest := by
  rw [mergeInto]
  cases get? key base <;> rfl

/-- **Under every key** there is what the overriding mapping has, laid over what
the base has. -/
theorem get?_mergeInto (base : Entries) {new : Entries} (h : Distinct new) (key : Scalar) :
    get? key (mergeInto base new) =
      ((get? key new).map (laid (get? key base))).or (get? key base) := by
  induction new generalizing base with
  | nil =>
      rw [mergeInto]
      rfl
  | cons entry rest ih =>
      obtain ⟨k, d⟩ := entry
      obtain ⟨hk, hrest⟩ := List.pairwise_cons.mp h
      rw [mergeInto_cons, ih _ hrest, Association.get?_put]
      by_cases hkey : (k == key) = true
      · have hnone : get? key rest = none := Association.get?_eq_none hk hkey
        simp [hnone, get?, hkey, Association.get?_congr hkey base]
      · simp [get?, hkey]

/-- **Keys of the base come first**, in their places and in their spelling, and
new keys follow in their own order. -/
theorem keys_mergeInto (base : Entries) {new : Entries} (h : Distinct new) :
    keys (mergeInto base new) = keys base ++ (keys new).filter fun k => (get? k base).isNone := by
  induction new generalizing base with
  | nil =>
      rw [mergeInto]
      exact (List.append_nil _).symm
  | cons entry rest ih =>
      obtain ⟨k, d⟩ := entry
      obtain ⟨hk, hrest⟩ := List.pairwise_cons.mp h
      have hsame : ∀ k' ∈ keys rest, (get? k' (put k (laid (get? k base) d) base)).isNone =
          (get? k' base).isNone := by
        intro k' hk'
        obtain ⟨entry, hentry, rfl⟩ := List.mem_map.mp hk'
        rw [Association.get?_put, hk entry hentry]
        rfl
      rw [mergeInto_cons, ih _ hrest, Association.keys_put, List.filter_congr hsame]
      have hkeys : keys ((k, d) :: rest) = k :: keys rest := rfl
      rw [hkeys, List.filter_cons]
      cases get? k base <;> simp

/-- To lay over what is there already changes nothing. -/
theorem mergeInto_of_laid {base new : Entries}
    (h : ∀ entry ∈ new, ∃ old, get? entry.1 base = some old ∧ overlay old entry.2 = old) :
    mergeInto base new = base := by
  induction new with
  | nil => rw [mergeInto]
  | cons entry rest ih =>
      obtain ⟨⟨old, hold, hlaid⟩, hrest⟩ := List.forall_mem_cons.mp h
      have hput : put entry.1 (laid (get? entry.1 base) entry.2) base = base := by
        apply Association.put_of_get?
        rw [hold, laid, Option.elim_some, hlaid]
      rw [mergeInto_cons, hput, ih hrest]

/-! ### Mappings of distinct keys -/

/-- In every mapping no two keys are the same, and none is NaN. -/
inductive Keyed : Datum → Prop
  | leaf {d : Datum} (h : d.entries? = none) : Keyed d
  | mapping {es : Entries} (distinct : Distinct es) (numbers : ∀ entry ∈ es, entry.1.isNaN = false)
      (parts : ∀ entry ∈ es, Keyed entry.2) : Keyed (.mapping es)

/-- **To lay a datum over a base twice** is to lay it over once. -/
theorem Keyed.overlay_overlay {d : Datum} (h : Keyed d) (base : Datum) :
    overlay (overlay base d) d = overlay base d := by
  induction h generalizing base with
  | leaf h => rw [overlay_leaf _ h, overlay_leaf _ h]
  | @mapping es distinct numbers parts ih =>
      have hself : ∀ entry ∈ es, overlay entry.2 entry.2 = entry.2 := by
        intro entry hentry
        have hleaf : entries? nothing = none := rfl
        have htwice := ih entry hentry nothing
        rwa [overlay_of_leaf hleaf] at htwice
      have hfound : ∀ entry ∈ es, get? entry.1 es = some entry.2 := fun entry hentry =>
        Association.get?_of_mem distinct (Scalar.beq_self_iff.mpr (numbers entry hentry)) hentry
      by_cases hbase : base.entries? = none
      · have hmerged : mergeInto es es = es := by
          apply mergeInto_of_laid
          intro entry hentry
          exact ⟨entry.2, hfound entry hentry, hself entry hentry⟩
        rw [overlay_of_leaf hbase, overlay_mapping, hmerged]
      · obtain ⟨old, hold⟩ := Option.ne_none_iff_exists'.mp hbase
        obtain rfl := eq_mapping hold
        have hmerged : mergeInto (mergeInto old es) es = mergeInto old es := by
          apply mergeInto_of_laid
          intro entry hentry
          refine ⟨laid (get? entry.1 old) entry.2, ?_, ?_⟩
          · rw [get?_mergeInto old distinct, hfound entry hentry]
            rfl
          · cases get? entry.1 old with
            | some under => exact ih entry hentry under
            | none => exact hself entry hentry
        rw [overlay_mapping, overlay_mapping, hmerged]

/-! ### Paths -/

/-- What a datum holds at a path of keys. -/
def at? : List Scalar → Datum → Option Datum
  | [], d => some d
  | key :: path, .mapping es => (get? key es).bind (at? path)
  | _ :: _, _ => none

/-- A path leads through a value of a datum that is no mapping. -/
def Cuts (d : Datum) (path : List Scalar) : Prop :=
  ∃ front back leaf, path = front ++ back ∧ back ≠ [] ∧ at? front d = some leaf ∧
    leaf.entries? = none

theorem at?_of_leaf {d : Datum} (h : d.entries? = none) (key : Scalar) (path : List Scalar) :
    at? (key :: path) d = none := by
  cases d with
  | mapping es => cases h
  | scalar | list | supplier | tree => rfl

/-- A path behind the first key of a mapping. -/
theorem cuts_mapping {es : Entries} {key : Scalar} {path : List Scalar} :
    Cuts (.mapping es) (key :: path) ↔ ∃ d, get? key es = some d ∧ Cuts d path := by
  constructor
  · intro h
    obtain ⟨front, back, leaf, hpath, hback, hat, hleaf⟩ := h
    cases front with
    | nil =>
        cases hat
        cases hleaf
    | cons first front =>
        cases hpath
        obtain ⟨d, hd, hat⟩ := Option.bind_eq_some_iff.mp hat
        exact ⟨d, hd, front, back, leaf, rfl, hback, hat, hleaf⟩
  · intro h
    obtain ⟨d, hd, front, back, leaf, rfl, hback, hat, hleaf⟩ := h
    refine ⟨key :: front, back, leaf, rfl, hback, ?_, hleaf⟩
    show (get? key es).bind (at? front) = some leaf
    rw [hd]
    exact hat

theorem Keyed.distinct {es : Entries} (h : Keyed (.mapping es)) : Distinct es := by
  cases h with
  | leaf h => cases h
  | mapping distinct => exact distinct

/-- What a keyed datum holds at a path is keyed. -/
theorem Keyed.part {d part : Datum} (h : Keyed d) {path : List Scalar}
    (hpart : at? path d = some part) : Keyed part := by
  induction path generalizing d with
  | nil =>
      cases hpart
      exact h
  | cons key path ih =>
      cases h with
      | leaf hleaf =>
          rw [at?_of_leaf hleaf] at hpart
          cases hpart
      | mapping distinct numbers parts =>
          obtain ⟨next, hnext, hat⟩ := Option.bind_eq_some_iff.mp hpart
          obtain ⟨k, hmem⟩ := Association.mem_of_get? hnext
          exact ih (parts _ hmem) hat

/-- A mapping is laid over what was under its key before. -/
theorem at?_mergeInto {old new : Entries} (h : Distinct new) (key : Scalar) (path : List Scalar) :
    at? (key :: path) (.mapping (mergeInto old new)) =
      (((get? key new).map (laid (get? key old))).or (get? key old)).bind (at? path) := by
  show (get? key (mergeInto old new)).bind (at? path) = _
  rw [get?_mergeInto old h]

/-- Where the overriding datum holds something, that is laid over what the base
holds there. -/
theorem Keyed.at?_overlay_of_some {override d : Datum} (h : Keyed override) {path : List Scalar}
    (hd : at? path override = some d) (base : Datum) :
    at? path (overlay base override) = some (laid (at? path base) d) := by
  induction path generalizing base override with
  | nil =>
      cases hd
      rfl
  | cons key path ih =>
      cases h with
      | leaf hleaf =>
          rw [at?_of_leaf hleaf] at hd
          cases hd
      | @mapping new distinct numbers parts =>
          obtain ⟨part, hpart, hat⟩ := Option.bind_eq_some_iff.mp hd
          obtain ⟨k, hmem⟩ := Association.mem_of_get? hpart
          by_cases hbase : base.entries? = none
          · rw [overlay_of_leaf hbase, at?_of_leaf hbase]
            exact hd
          · obtain ⟨old, hold⟩ := Option.ne_none_iff_exists'.mp hbase
            obtain rfl := eq_mapping hold
            rw [overlay_mapping, at?_mergeInto distinct, hpart]
            show at? path (laid (get? key old) part) =
              some (laid ((get? key old).bind (at? path)) d)
            cases get? key old with
            | none => exact hat
            | some under => exact ih (parts _ hmem) hat under

/-- Where it holds nothing, though no value is in the way, there is what the base
holds. -/
theorem Keyed.at?_overlay_of_none {override : Datum} (h : Keyed override) {path : List Scalar}
    (hnone : at? path override = none) (hcuts : ¬ Cuts override path) (base : Datum) :
    at? path (overlay base override) = at? path base := by
  induction path generalizing base override with
  | nil => cases hnone
  | cons key path ih =>
      cases h with
      | leaf hleaf => exact absurd ⟨[], _, _, rfl, List.cons_ne_nil _ _, rfl, hleaf⟩ hcuts
      | @mapping new distinct numbers parts =>
          by_cases hbase : base.entries? = none
          · rw [overlay_of_leaf hbase, at?_of_leaf hbase]
            exact hnone
          · obtain ⟨old, hold⟩ := Option.ne_none_iff_exists'.mp hbase
            obtain rfl := eq_mapping hold
            rw [overlay_mapping, at?_mergeInto distinct]
            cases hpart : get? key new with
            | none => rfl
            | some part =>
                obtain ⟨k, hmem⟩ := Association.mem_of_get? hpart
                have hpath : at? path part = none := by
                  have hat : (get? key new).bind (at? path) = none := hnone
                  rwa [hpart] at hat
                have hfree : ¬ Cuts part path := fun hpart' =>
                  hcuts (cuts_mapping.mpr ⟨part, hpart, hpart'⟩)
                show at? path (laid (get? key old) part) = (get? key old).bind (at? path)
                cases get? key old with
                | none => exact hpath
                | some under => exact ih (parts _ hmem) hpath hfree under

/-- Behind a value that is no mapping there is nothing. -/
theorem at?_of_cuts {d : Datum} {path : List Scalar} (h : Cuts d path) : at? path d = none := by
  obtain ⟨front, back, leaf, rfl, hback, hat, hleaf⟩ := h
  induction front generalizing d with
  | nil =>
      cases hat
      obtain ⟨key, rest, rfl⟩ := List.exists_cons_of_ne_nil hback
      exact at?_of_leaf hleaf key rest
  | cons key front ih =>
      by_cases hd : d.entries? = none
      · rw [at?_of_leaf hd] at hat
        cases hat
      · obtain ⟨es, hes⟩ := Option.ne_none_iff_exists'.mp hd
        obtain rfl := eq_mapping hes
        obtain ⟨part, hpart, hat⟩ := Option.bind_eq_some_iff.mp hat
        show (get? key es).bind (at? (front ++ back)) = none
        rw [hpart]
        exact ih hat

/-- A value that is no mapping cuts the path in the merged datum, too. -/
theorem Keyed.cuts_overlay {override : Datum} (h : Keyed override) {path : List Scalar}
    (hcuts : Cuts override path) (base : Datum) : Cuts (overlay base override) path := by
  obtain ⟨front, back, leaf, hpath, hback, hat, hleaf⟩ := hcuts
  refine ⟨front, back, leaf, hpath, hback, ?_, hleaf⟩
  rw [h.at?_overlay_of_some hat, laid_leaf _ hleaf]

/-! ### The merged mapping -/

/-- What a merged datum holds at a path, by what the overriding datum holds. -/
structure MergesAt (base override merged : Datum) (path : List Scalar) : Prop where
  replaced : ∀ d, at? path override = some d → d.entries? = none → at? path merged = some d
  mapped : ∀ new, at? path override = some (.mapping new) →
    ∃ es, at? path merged = some (.mapping es) ∧
      (∀ old, at? path base = some (.mapping old) →
        keys es = keys old ++ (keys new).filter fun k => (get? k old).isNone) ∧
      ((at? path base).bind entries? = none → es = new)
  kept : at? path override = none → ¬ Cuts override path → at? path merged = at? path base
  cut : Cuts override path → at? path merged = none

theorem Keyed.mergesAt {override : Datum} (h : Keyed override) (base : Datum)
    (path : List Scalar) : MergesAt base override (overlay base override) path where
  replaced := by
    intro d hd hleaf
    rw [h.at?_overlay_of_some hd, laid_leaf _ hleaf]
  mapped := by
    intro new hnew
    rw [h.at?_overlay_of_some hnew]
    by_cases hleaf : (at? path base).bind entries? = none
    · refine ⟨new, congrArg some (laid_of_leaf hleaf _), ?_, fun _ => rfl⟩
      intro old hold
      rw [hold] at hleaf
      cases hleaf
    · obtain ⟨old, hold⟩ := Option.ne_none_iff_exists'.mp hleaf
      obtain ⟨under, hunder, hentries⟩ := Option.bind_eq_some_iff.mp hold
      obtain rfl := eq_mapping hentries
      rw [hunder]
      refine ⟨mergeInto old new, congrArg some (overlay_mapping old new), ?_, nofun⟩
      intro old' hold
      cases hold
      exact keys_mergeInto old (h.part hnew).distinct
  kept hnone hcuts := h.at?_overlay_of_none hnone hcuts base
  cut hcuts := at?_of_cuts (h.cuts_overlay hcuts base)

/-- **A merge loses and invents nothing.**  At every path the merged mapping holds
what the overriding one holds there, or else what the base does; keys of the
base come first at every level, in their places and in their spelling; and to
merge the same mapping once more changes nothing. -/
theorem merge_at_path (base override : Entries) (h : Keyed (.mapping override)) :
    (∀ path, MergesAt (.mapping base) (.mapping override) (.mapping (merge base override)) path) ∧
      merge (merge base override) override = merge base override := by
  have hmerge : ∀ es, Datum.mapping (merge es override) =
      overlay (.mapping es) (.mapping override) :=
    fun es => (overlay_mapping es override).symm
  constructor
  · intro path
    rw [hmerge]
    exact h.mergesAt (.mapping base) path
  · have htwice := h.overlay_overlay (.mapping base)
    rw [← hmerge, ← hmerge] at htwice
    exact Datum.mapping.inj htwice

/-- A base with a mapping under a text and under a number. -/
def drawn : Entries :=
  [(.text "a", .mapping [(.number (.integer 1), .ofText "one"), (.text "x", .ofInt 1)]),
    (.text "b", .mapping [(.text "y", .ofInt 2)]), (.text "c", .ofInt 3)]

/-- Entries that clash with it both ways, and spell its key as a double. -/
def redrawn : Entries :=
  [(.text "c", .mapping [(.text "z", .ofInt 4)]), (.text "b", .ofInt 5),
    (.text "a", .mapping [(.text "w", nothing), (.number (.double 1.0), .ofText "uno")])]

theorem keyed_redrawn : Keyed (.mapping redrawn) := by
  refine .mapping (by unfold Distinct; decide +kernel) (by decide +kernel) ?_
  intro entry hentry
  simp only [redrawn, List.mem_cons, List.not_mem_nil, or_false] at hentry
  rcases hentry with rfl | rfl | rfl
  · refine .mapping (by unfold Distinct; decide +kernel) (by decide +kernel) ?_
    intro part hpart
    obtain rfl := List.mem_singleton.mp hpart
    exact .leaf rfl
  · exact .leaf rfl
  · refine .mapping (by unfold Distinct; decide +kernel) (by decide +kernel) ?_
    intro part hpart
    simp only [List.mem_cons, List.not_mem_nil, or_false] at hpart
    rcases hpart with rfl | rfl
    · exact .leaf rfl
    · exact .leaf rfl

/-- The double has changed what the integer and the truth value stand for; the
rest of that mapping is kept, and what was behind the number is gone. -/
theorem merge_at_path_redrawn : Keyed (.mapping redrawn) ∧
    at? [.text "a", .boolean true] (.mapping (merge drawn redrawn)) = some (.ofText "uno") ∧
    at? [.text "a", .text "x"] (.mapping (merge drawn redrawn)) = some (.ofInt 1) ∧
    at? [.text "b", .text "y"] (.mapping (merge drawn redrawn)) = none ∧
    (∃ es, at? [.text "a"] (.mapping (merge drawn redrawn)) = some (.mapping es) ∧
      keys es = [.number (.integer 1), .text "x", .text "w"]) ∧
    merge (merge drawn redrawn) redrawn = merge drawn redrawn := by
  obtain ⟨hat, htwice⟩ := merge_at_path drawn redrawn keyed_redrawn
  refine ⟨keyed_redrawn, ?_, ?_, ?_, ?_, htwice⟩
  · exact (hat _).replaced _ rfl rfl
  · refine (hat _).kept rfl ?_
    intro hcuts
    obtain ⟨a, ha, hcuts⟩ := cuts_mapping.mp hcuts
    cases ha
    obtain ⟨x, hx, -⟩ := cuts_mapping.mp hcuts
    cases hx
  · exact (hat _).cut ⟨[.text "b"], [.text "y"], .ofInt 5, rfl, List.cons_ne_nil _ _, rfl, rfl⟩
  · obtain ⟨es, hes, hkeys, -⟩ := (hat [.text "a"]).mapped _ rfl
    refine ⟨es, hes, ?_⟩
    rw [hkeys _ rfl]
    rfl

end Datum

end Reckon
