/-!
# Ordered associations

A list of keys with their values, in the order in which the keys were first
put.  Putting a key again replaces its value and leaves the key as it was
first spelled, in its place.

The lemmas say what a put does to each of the two views, the values and the
keys: `get?_put_self`, `get?_put_of_ne`, `keys_put_of_mem` and
`keys_put_of_not_mem`; and a key has a value exactly when it is there
(`isSome_get?`).
-/

namespace Reckon.Association

variable {κ υ : Type} [BEq κ]

/-- The value of a key. -/
def get? (k : κ) : List (κ × υ) → Option υ
  | [] => none
  | (k', v) :: rest => if k' == k then some v else get? k rest

/-- Gives a key a value: in place if the key is there, else at the end. -/
def put (k : κ) (v : υ) : List (κ × υ) → List (κ × υ)
  | [] => [(k, v)]
  | (k', v') :: rest => if k' == k then (k', v) :: rest else (k', v') :: put k v rest

/-- Takes a key away, with its value. -/
def erase (k : κ) (entries : List (κ × υ)) : List (κ × υ) :=
  entries.filter fun entry => !(entry.1 == k)

/-- The association that results from putting pairs one after the other. -/
def ofList (pairs : List (κ × υ)) : List (κ × υ) :=
  pairs.foldl (fun acc (k, v) => put k v acc) []

/-- The keys in order. -/
def keys (entries : List (κ × υ)) : List κ :=
  entries.map (·.1)

/-- What a key has is among the entries. -/
theorem mem_of_get? {k : κ} {v : υ} {entries : List (κ × υ)}
    (h : get? k entries = some v) : ∃ k', (k', v) ∈ entries := by
  induction entries with
  | nil => cases h
  | cons entry rest ih =>
      obtain ⟨k₁, v₁⟩ := entry
      rw [get?] at h
      split at h
      · cases h
        exact ⟨k₁, List.mem_cons_self⟩
      · obtain ⟨k', hmem⟩ := ih h
        exact ⟨k', List.mem_cons_of_mem _ hmem⟩

/-- To put a value that is there changes nothing. -/
theorem put_of_get? {k : κ} {v : υ} {entries : List (κ × υ)} (h : get? k entries = some v) :
    put k v entries = entries := by
  induction entries with
  | nil => cases h
  | cons entry rest ih =>
      obtain ⟨k₁, v₁⟩ := entry
      by_cases hk : (k₁ == k) = true
      · rw [get?, if_pos hk] at h
        cases h
        rw [put, if_pos hk]
      · rw [get?, if_neg hk] at h
        rw [put, if_neg hk, ih h]

section Lawful

variable [LawfulBEq κ]

/-- A key that was put has its new value. -/
theorem get?_put_self (k : κ) (v : υ) (entries : List (κ × υ)) :
    get? k (put k v entries) = some v := by
  induction entries with
  | nil => simp [put, get?]
  | cons entry rest ih =>
    obtain ⟨k', v'⟩ := entry
    by_cases h : k' = k
    · simp [put, get?, h]
    · simp [put, get?, h, ih]

/-- Any other key keeps its value. -/
theorem get?_put_of_ne {k k' : κ} (h : k' ≠ k) (v : υ) (entries : List (κ × υ)) :
    get? k' (put k v entries) = get? k' entries := by
  induction entries with
  | nil => simp [put, get?, Ne.symm h]
  | cons entry rest ih =>
    obtain ⟨k₁, v₁⟩ := entry
    by_cases h₁ : k₁ = k
    · subst h₁
      simp [put, get?, Ne.symm h]
    · by_cases h₂ : k₁ = k'
      · simp [put, get?, h₂, h]
      · simp [put, get?, h₁, h₂, ih]

/-- A key that is there keeps its place, and so do all others. -/
theorem keys_put_of_mem {k : κ} (v : υ) {entries : List (κ × υ)} (h : k ∈ keys entries) :
    keys (put k v entries) = keys entries := by
  induction entries with
  | nil => simp [keys] at h
  | cons entry rest ih =>
    obtain ⟨k', v'⟩ := entry
    by_cases hk : k' = k
    · simp [put, keys, hk]
    · have hrest : k ∈ keys rest := by
        simpa [keys, Ne.symm hk] using h
      have hput := ih hrest
      simp only [keys] at hput
      simp [put, keys, hk, hput]

/-- A new key comes last. -/
theorem keys_put_of_not_mem {k : κ} (v : υ) {entries : List (κ × υ)} (h : k ∉ keys entries) :
    keys (put k v entries) = keys entries ++ [k] := by
  induction entries with
  | nil => simp [put, keys]
  | cons entry rest ih =>
    obtain ⟨k', v'⟩ := entry
    have hk : k' ≠ k := by
      rintro rfl
      simp [keys] at h
    have hrest : k ∉ keys rest := by
      intro hmem
      exact h (by simp only [keys] at hmem ⊢; simp [hmem])
    have hput := ih hrest
    simp only [keys] at hput
    simp [put, keys, hk, hput]

/-- A key has a value exactly when it is there. -/
theorem isSome_get? (k : κ) (entries : List (κ × υ)) :
    (get? k entries).isSome ↔ k ∈ keys entries := by
  induction entries with
  | nil => simp [get?, keys]
  | cons entry rest ih =>
    obtain ⟨k', v'⟩ := entry
    by_cases h : k' = k
    · simp [get?, keys, h]
    · simp only [keys] at ih
      simp [get?, keys, h, Ne.symm h, ih]

end Lawful

end Reckon.Association
