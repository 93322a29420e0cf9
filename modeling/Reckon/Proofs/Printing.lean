import Reckon.Double.Spelling
/-!
# What the text of a double is made of

However a double is written, positionally or with a power of ten, its text has
digits, signs and a few letters only (`printed_text`).  So it never breaks a
line.
-/

namespace Reckon.Double

/-- The characters of numerals, and the letters of the powers of ten, the
infinities and NaN. -/
def Printed (c : Char) : Prop :=
  c.isDigit = true ∨ c ∈ ['-', '+', '.', 'e', 'i', 'n', 'f', 'a']

instance (c : Char) : Decidable (Printed c) :=
  inferInstanceAs (Decidable (_ ∨ _))

/-- Of a text that is given the characters are looked at one by one. -/
theorem printed_of_all {cs : List Char} (h : cs.all (fun c => decide (Printed c)) = true) :
    ∀ c ∈ cs, Printed c :=
  fun c hc => of_decide_eq_true (List.all_eq_true.mp h c hc)

/-- The digits of a number are digits. -/
theorem printed_digitsOf {n : Nat} {c : Char} (h : c ∈ digitsOf n) : Printed c :=
  .inl (Nat.isDigit_of_mem_toDigits (by decide) (by decide) h)

variable {digits : List Char}

/-- Zeros in front are digits too. -/
theorem printed_padLeft (h : ∀ c ∈ digits, Printed c) (width : Nat) :
    ∀ c ∈ padLeft width '0' digits, Printed c := by
  intro c hc
  rcases List.mem_append.mp hc with hfill | hold
  · rw [List.eq_of_mem_replicate hfill]
    decide
  · exact h c hold

/-- Written positionally there are digits and a point. -/
theorem printed_positional (h : ∀ c ∈ digits, Printed c) (exponent : Int) :
    ∀ c ∈ positional digits exponent, Printed c := by
  intro c hc
  unfold positional at hc
  split at hc
  · rcases List.mem_append.mp hc with hc | hend
    · rcases List.mem_append.mp hc with hdigit | hzero
      · exact h c hdigit
      · rw [List.eq_of_mem_replicate hzero]
        decide
    · simp only [List.mem_cons, List.not_mem_nil, or_false] at hend
      rcases hend with rfl | rfl <;> decide
  · have hpadded := printed_padLeft h ((-exponent).toNat + 1)
    rcases List.mem_append.mp hc with hbefore | hbehind
    · exact hpadded c (List.mem_of_mem_take hbefore)
    · rcases List.mem_cons.mp hbehind with rfl | hbehind
      · decide
      · exact hpadded c (List.mem_of_mem_drop hbehind)

/-- The digits of a mantissa, with a point after the first if there are more. -/
theorem printed_pointed (h : ∀ c ∈ digits, Printed c) :
    ∀ c ∈ (match digits with
      | d :: e :: rest => d :: '.' :: e :: rest
      | short => short), Printed c := by
  intro c hc
  split at hc
  · simp only [List.mem_cons] at hc h
    rcases hc with rfl | rfl | hc
    · exact h _ (.inl rfl)
    · decide
    · exact h c (.inr hc)
  · exact h c hc

/-- Written with a power of ten there are signs and a letter besides. -/
theorem printed_scientific (h : ∀ c ∈ digits, Printed c) (width : Nat) (exponent : Int) :
    ∀ c ∈ scientific width digits exponent, Printed c := by
  intro c hc
  rcases List.mem_append.mp hc with hhead | hpower
  · exact printed_pointed h c hhead
  · rcases List.mem_cons.mp hpower with rfl | hpower
    · decide
    · rcases List.mem_cons.mp hpower with rfl | hdigit
      · split <;> decide
      · exact printed_padLeft (fun _ => printed_digitsOf) _ c hdigit

/-- Whichever way a magnitude is written, it has such characters only. -/
theorem printed_magnitude (s : Spelling) (mantissa : Nat) (exponent : Int) :
    ∀ c ∈ s.magnitude mantissa exponent, Printed c := by
  intro c hc
  have hdigits : ∀ c ∈ digitsOf (shortest mantissa exponent).digits, Printed c :=
    fun _ => printed_digitsOf
  unfold Spelling.magnitude at hc
  dsimp only at hc
  split at hc
  · exact printed_positional hdigits _ c hc
  · exact printed_scientific hdigits _ _ c hc

/-- A sign that is written only if it is a minus. -/
theorem printed_minus (sign : Float.Model.UnpackedFloat.Sign) :
    ∀ c ∈ (if sign == .negative then "-" else "").toList, Printed c := by
  cases sign <;> exact printed_of_all (by decide)

/-- **The text of a double has digits, signs and a few letters only.** -/
theorem printed_text (x : Float) : ∀ c ∈ (text x).toList, Printed c := by
  have hinfinity : ∀ c ∈ Spelling.plain.infinity.toList, Printed c := printed_of_all (by decide)
  have hnan : ∀ c ∈ Spelling.plain.notANumber.toList, Printed c := printed_of_all (by decide)
  have hzero : ∀ sign : Float.Model.UnpackedFloat.Sign,
      ∀ c ∈ (if sign == .negative then "-0.0" else "0.0").toList, Printed c := by
    intro sign
    cases sign <;> exact printed_of_all (by decide)
  intro c hc
  unfold text Spelling.write at hc
  split at hc
  · exact hnan c hc
  · rw [String.toList_append] at hc
    rcases List.mem_append.mp hc with hsign | hword
    · exact printed_minus _ c hsign
    · exact hinfinity c hword
  · exact hzero _ c hc
  · rw [String.toList_append, String.toList_ofList] at hc
    rcases List.mem_append.mp hc with hsign | hmagnitude
    · exact printed_minus _ c hsign
    · exact printed_magnitude _ _ _ c hmagnitude

/-- The text of a double is one line. -/
theorem newline_not_mem_text (x : Float) : '\n' ∉ (text x).toList :=
  fun h => absurd (printed_text x _ h) (by decide)

end Reckon.Double
