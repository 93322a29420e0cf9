import Reckon.Proofs.SharedSettings
/-!
# What was loaded

In a process the defaults and everything that was ever loaded lie in memory
apart from each other (`Shared.Kept`).  So what is done to the settings of one
load is seen in those alone, and never in the defaults (`Sound.editVariables`),
and whatever is loaded is what the file says at that time (`Sound.obtain_of_load`).
-/

namespace Reckon.Settings

open Layout

namespace Shared

/-! ### What a process has in memory -/

/-- The layout of settings at an address. -/
def layoutOf (l : Address × Parts) : Layout :=
  .mapping l.1 l.2

/-- The defaults and what was loaded lie apart from each other; the defaults are
what they should be, and what is held was loaded. -/
structure Kept (s : Shared) (given : Parts) (loaded : List (Address × Parts)) : Prop where
  apart : Apart s.memory (.mapping s.defaults given :: loaded.map layoutOf)
  defaults : given.entries = Settings.defaults
  loads : s.loads = loaded.map (·.1)
  held : ∀ a, s.held = some a → a ∈ s.loads

variable {s : Shared} {given parts : Parts} {loaded : List (Address × Parts)} {a : Address}

/-- The defaults are all that memory holds at first. -/
theorem kept_start : ∃ given, Kept {} given [] := by
  obtain ⟨a, parts, m, hrun, hentries, hturns⟩ := placeMapping_turns Settings.defaults []
  have haddress : (Memory.placeMapping Settings.defaults []).1 = a := congrArg Prod.fst hrun
  have hmemory : (Memory.placeMapping Settings.defaults []).2 = m := congrArg Prod.snd hrun
  refine ⟨parts, ?_, hentries, rfl, fun _ h => nomatch h⟩
  show Apart (Memory.placeMapping Settings.defaults []).2
    [.mapping (Memory.placeMapping Settings.defaults []).1 parts]
  rw [haddress, hmemory]
  exact hturns.apart

/-- One of some layouts lies in memory. -/
theorem apart_of_mem {m : Memory} {ls : List Layout} (h : Apart m ls) {l : Layout} (hl : l ∈ ls) :
    Apart m [l] := by
  obtain ⟨before, behind, rfl⟩ := List.append_of_mem hl
  obtain ⟨-, hbehind, -⟩ := Apart.append.mp h
  have hsplit : Apart m ([l] ++ behind) := hbehind
  exact (Apart.append.mp hsplit).1

namespace Kept

/-- What the defaults hold is what they held at first. -/
theorem entries_defaults (h : s.Kept given loaded) :
    s.memory.entries s.defaults = Settings.defaults :=
  (apart_of_mem h.apart List.mem_cons_self).entries_eq.trans h.defaults

/-- A load holds what its layout says. -/
theorem entries_loaded (h : s.Kept given loaded) (hmem : (a, parts) ∈ loaded) :
    s.memory.entries a = parts.entries :=
  (apart_of_mem h.apart
    (List.mem_cons_of_mem _ (List.mem_map_of_mem hmem : layoutOf (a, parts) ∈ _))).entries_eq

/-- What was loaded has a layout. -/
theorem exists_of_mem_loads (h : s.Kept given loaded) (ha : a ∈ s.loads) :
    ∃ parts, (a, parts) ∈ loaded := by
  rw [h.loads] at ha
  obtain ⟨⟨b, parts⟩, hmem, rfl⟩ := List.mem_map.mp ha
  exact ⟨parts, hmem⟩

/-- What was loaded lies at an address of memory. -/
theorem lt_of_mem_loads (h : s.Kept given loaded) (ha : a ∈ s.loads) : a < s.memory.length := by
  obtain ⟨parts, hmem⟩ := h.exists_of_mem_loads ha
  refine h.apart.lt a (mem_ownedBy (List.mem_cons_of_mem _ (List.mem_map_of_mem hmem)) a ?_)
  rw [layoutOf, owned_mapping]
  exact List.mem_cons_self

/-- **What is loaded is what the file says**, in new mappings; a load that fails
leaves everything as it was. -/
theorem obtain_of_none (h : s.Kept given loaded) (hnone : s.held = none) (reader : Reader)
    (path : String) (entry : Option FileEntry) :
    match load reader path entry with
    | .ok es => ∃ a parts s', obtain reader path entry s = .ok a s' ∧
        s'.Kept given (loaded ++ [(a, parts)]) ∧ s'.held = some a ∧ a ∉ s.loads ∧
        Parts.entries parts = es
    | .error f => ∃ s', obtain reader path entry s = .error f s' ∧ s'.Kept given loaded ∧
        s'.held = none := by
  have hfollows := loadInto_follows (apart_of_mem h.apart List.mem_cons_self) h.defaults reader
    path entry
  cases hload : load reader path entry with
  | ok es =>
      rw [hload] at hfollows
      obtain ⟨a, m', hrun, parts, hentries, hturns⟩ := hfollows.of_ok
      have hnew : a ∉ s.loads := by
        intro ha
        have hmem : a ∈ ownedBy [Layout.mapping a parts] := by simp [owned_mapping]
        rcases hturns.taken a hmem with hold | hlarge
        · exact absurd hold (by simp)
        · exact absurd (h.lt_of_mem_loads ha) (Nat.not_lt.mpr hlarge)
      refine ⟨a, parts, { s with memory := m', held := some a, loads := s.loads ++ [a] }, ?_,
        ⟨?_, h.defaults, ?_, ?_⟩, rfl, hnew, hentries⟩
      · simp only [Shared.obtain, hnone, hrun]
      · refine ((hturns.frame h.apart).apart).perm ?_
        rw [List.map_append]
        exact List.perm_append_comm
      · rw [h.loads, List.map_append]
        rfl
      · rintro b ⟨⟩
        exact List.mem_append_right _ List.mem_cons_self
  | error f =>
      rw [hload] at hfollows
      obtain ⟨m', hrun, hchanges⟩ := hfollows.of_error
      have hturns : Turns s.memory [] m' [] := ⟨hchanges, .nil m', fun b hb => nomatch hb⟩
      refine ⟨{ s with memory := m' }, ?_,
        ⟨(hturns.frame h.apart).apart, h.defaults, h.loads, h.held⟩, hnone⟩
      simp only [Shared.obtain, hnone, hrun]
      rfl

/-- **To edit the variables** of what was loaded changes that and nothing else. -/
theorem editVariables (h : s.Kept given loaded) (ha : a ∈ s.loads) (edit : Edit) :
    ∃ loaded', (s.editVariables a edit).Kept given loaded' ∧
      ∀ b ∈ s.loads, (s.editVariables a edit).memory.entries b =
        if b = a then Settings.editVariables edit (s.memory.entries b)
        else s.memory.entries b := by
  obtain ⟨parts, hmem⟩ := h.exists_of_mem_loads ha
  obtain ⟨before, behind, rfl⟩ := List.append_of_mem hmem
  obtain ⟨parts', hentries, hturns⟩ := editVariablesAt_turns
    (apart_of_mem h.apart (List.mem_cons_of_mem _ (List.mem_map_of_mem hmem))) edit
  have hothers : ∀ parts : Parts, (.mapping s.defaults given ::
      (before ++ (a, parts) :: behind).map layoutOf).Perm (.mapping a parts ::
        .mapping s.defaults given :: (before.map layoutOf ++ behind.map layoutOf)) := by
    intro parts
    rw [List.map_append, List.map_cons]
    exact (List.perm_middle.cons _).trans (.swap ..)
  have hkept : (s.editVariables a edit).Kept given (before ++ (a, parts') :: behind) := by
    refine ⟨(hturns.among (hothers parts) h.apart (hothers parts')).apart, h.defaults, ?_, h.held⟩
    exact h.loads.trans (by simp)
  refine ⟨_, hkept, fun b hb => ?_⟩
  split
  · next heq =>
      subst heq
      rw [hkept.entries_loaded (List.mem_append_right _ List.mem_cons_self), hentries,
        h.entries_loaded hmem]
  · next hne =>
      obtain ⟨q, hq⟩ := h.exists_of_mem_loads hb
      have hq' : (b, q) ∈ before ++ (a, parts') :: behind := by
        simp only [List.mem_append, List.mem_cons, Prod.mk.injEq] at hq ⊢
        rcases hq with hq | ⟨heq, -⟩ | hq
        · exact .inl hq
        · exact absurd heq hne
        · exact .inr (.inr hq)
      rw [hkept.entries_loaded hq', h.entries_loaded hq]

/-- To drop what is held leaves memory alone. -/
theorem drop (h : s.Kept given loaded) : s.drop.Kept given loaded :=
  ⟨h.apart, h.defaults, h.loads, fun _ hheld => nomatch hheld⟩

end Kept

/-- What a process can have in memory. -/
def Sound (s : Shared) : Prop :=
  ∃ given loaded, s.Kept given loaded

/-- At first nothing has been loaded. -/
theorem sound_start : Sound {} := by
  obtain ⟨given, h⟩ := kept_start
  exact ⟨given, [], h⟩

/-- What is held has been loaded. -/
theorem Sound.mem_loads (h : s.Sound) (ha : s.held = some a) : a ∈ s.loads := by
  obtain ⟨given, loaded, hkept⟩ := h
  exact hkept.held a ha

/-- To drop what is held keeps a memory sound. -/
theorem Sound.drop (h : s.Sound) : s.drop.Sound := by
  obtain ⟨given, loaded, hkept⟩ := h
  exact ⟨given, loaded, hkept.drop⟩

/-- An edit of a load changes that load, and no other nor the defaults. -/
theorem Sound.editVariables (h : s.Sound) (ha : a ∈ s.loads) (edit : Edit) :
    (s.editVariables a edit).Sound ∧
      ∀ b ∈ s.loads, (s.editVariables a edit).memory.entries b =
        if b = a then Settings.editVariables edit (s.memory.entries b)
        else s.memory.entries b := by
  obtain ⟨given, loaded, hkept⟩ := h
  obtain ⟨loaded', hkept', hentries⟩ := hkept.editVariables ha edit
  exact ⟨⟨given, loaded', hkept'⟩, hentries⟩

section Obtain

variable {reader : Reader} {s' : Shared} {path : String} {entry : Option FileEntry} {es : Entries}
  {f : Fault}

/-- What is held is answered, whatever file is asked for. -/
theorem obtain_of_held (h : s.held = some a) (reader : Reader) (path : String)
    (entry : Option FileEntry) : obtain reader path entry s = .ok a s := by
  unfold obtain
  rw [h]

/-- With nothing held, what can be loaded is loaded. -/
theorem Sound.obtain_of_load (h : s.Sound) (hnone : s.held = none)
    (hload : load reader path entry = .ok es) :
    ∃ a s', obtain reader path entry s = .ok a s' ∧ s'.Sound ∧ s'.held = some a ∧ a ∉ s.loads ∧
      s'.memory.entries a = es := by
  obtain ⟨given, loaded, hkept⟩ := h
  have hobtain := hkept.obtain_of_none hnone reader path entry
  rw [hload] at hobtain
  obtain ⟨a, parts, s', hrun, hkept', hheld, hnew, hentries⟩ := hobtain
  refine ⟨a, s', hrun, ⟨_, _, hkept'⟩, hheld, hnew, ?_⟩
  rw [hkept'.entries_loaded (List.mem_append_right _ List.mem_cons_self), hentries]

/-- With nothing held, what cannot be loaded leaves nothing held. -/
theorem Sound.obtain_of_fault (h : s.Sound) (hnone : s.held = none)
    (hload : load reader path entry = .error f) :
    ∃ s', obtain reader path entry s = .error f s' ∧ s'.Sound ∧ s'.held = none := by
  obtain ⟨given, loaded, hkept⟩ := h
  have hobtain := hkept.obtain_of_none hnone reader path entry
  rw [hload] at hobtain
  obtain ⟨s', hrun, hkept', hheld⟩ := hobtain
  exact ⟨s', hrun, ⟨_, _, hkept'⟩, hheld⟩

/-- What was given is held. -/
theorem Sound.held_of_obtained (h : s.Sound) (hrun : obtain reader path entry s = .ok a s') :
    s'.Sound ∧ s'.held = some a := by
  cases hheld : s.held with
  | some b =>
      cases (obtain_of_held hheld reader path entry).symm.trans hrun
      exact ⟨h, hheld⟩
  | none =>
      cases hload : load reader path entry with
      | ok es =>
          obtain ⟨b, s₁, hrun', hsound, hheld', -⟩ := h.obtain_of_load hheld hload
          cases hrun'.symm.trans hrun
          exact ⟨hsound, hheld'⟩
      | error f =>
          obtain ⟨s₁, hrun', -⟩ := h.obtain_of_fault hheld hload
          exact nomatch hrun'.symm.trans hrun

/-- What was asked for in vain leaves nothing held. -/
theorem Sound.held_of_denied (h : s.Sound) (hrun : obtain reader path entry s = .error f s') :
    s'.Sound ∧ s'.held = none := by
  cases hheld : s.held with
  | some b => exact nomatch (obtain_of_held hheld reader path entry).symm.trans hrun
  | none =>
      cases hload : load reader path entry with
      | ok es =>
          obtain ⟨b, s₁, hrun', -⟩ := h.obtain_of_load hheld hload
          exact nomatch hrun'.symm.trans hrun
      | error f =>
          obtain ⟨s₁, hrun', hsound, hheld'⟩ := h.obtain_of_fault hheld hload
          cases hrun'.symm.trans hrun
          exact ⟨hsound, hheld'⟩

end Obtain

end Shared

end Reckon.Settings
