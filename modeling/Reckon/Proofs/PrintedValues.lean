import Reckon.Proofs.Assignments
import Reckon.Proofs.Decimals
import Reckon.Proofs.Writing
/-!
# Printed values read back

A finite double is printed with the fewest digits that lie in its rounding
interval.  Where no power of ten is needed they are written positionally, and what
is written is a numeral of the language with the same decimal value
(`pointed_positional`); a minus in front of it is a sign of the language
(`text_cases`).  The numeral is read as the double without its sign
(`exists_numeral`), so the text of a double is an expression that is worth the
double, and two levels are enough for it (`exists_parse_text`).  An assignment of
the text to a name binds the name to the double.
-/

namespace Reckon

namespace Double

/-! ### Runs of digits -/

/-- A text of digits only. -/
def AllDigits (cs : List Char) : Prop :=
  ∀ c ∈ cs, c.isDigit = true

theorem isDigit_iff {c : Char} : c.isDigit = true ↔ '0' ≤ c ∧ c ≤ '9' := by
  simp [Char.isDigit, Char.le_def]

theorem AllDigits.append {cs ds : List Char} (hcs : AllDigits cs) (hds : AllDigits ds) :
    AllDigits (cs ++ ds) := fun c hc =>
  (List.mem_append.mp hc).elim (hcs c) (hds c)

theorem allDigits_replicate (k : Nat) : AllDigits (List.replicate k '0') := fun c hc => by
  rw [List.eq_of_mem_replicate hc]
  decide

theorem allDigits_digitsOf (n : Nat) : AllDigits (digitsOf n) := fun _ hc =>
  Nat.isDigit_of_mem_toDigits (by decide) (by decide) hc

/-- A run of digits denotes the number that they make. -/
theorem natOfDigits?_eq {cs : List Char} (h : AllDigits cs) :
    natOfDigits? cs = some (Nat.ofDigitChars 10 cs 0) := by
  have hfrom : ∀ (cs : List Char) (n : Nat), AllDigits cs →
      cs.foldl (fun acc c => do return 10 * (← acc) + (← digit? c)) (some n) =
        some (Nat.ofDigitChars 10 cs n) := by
    intro cs
    induction cs with
    | nil => exact fun n _ => congrArg some Nat.ofDigitChars_nil.symm
    | cons c cs ih =>
        intro n h
        have hdigit : digit? c = some (c.toNat - '0'.toNat) :=
          if_pos (isDigit_iff.mp (h c List.mem_cons_self))
        rw [List.foldl_cons, hdigit, Nat.ofDigitChars_cons]
        exact ih _ fun d hd => h d (List.mem_cons_of_mem _ hd)
  exact hfrom cs 0 h

/-! ### Positional writing -/

/-- A text with digits on both sides of a point. -/
structure Pointed (text whole places : List Char) : Prop where
  eq : text = whole ++ '.' :: places
  whole_digits : AllDigits whole
  places_digits : AllDigits places
  whole_ne : whole ≠ []
  places_ne : places ≠ []

namespace Pointed

variable {text whole places : List Char}

/-- The decimal that is read, with its number of places. -/
theorem decimal?_eq (h : Pointed text whole places) :
    decimal? text = some (Nat.ofDigitChars 10 (whole ++ places) 0, places.length) := by
  have hpass : ∀ c ∈ whole, decide (c ≠ '.') = true := by
    intro c hc
    refine decide_eq_true fun hpoint => ?_
    have hdigit := h.whole_digits c hc
    rw [hpoint] at hdigit
    cases hdigit
  have hbefore : (whole ++ '.' :: places).takeWhile (· ≠ '.') = whole := by
    rw [takeWhile_append_cons (by decide), List.takeWhile_eq_self_iff.mpr hpass]
  have hbehind : (whole ++ '.' :: places).dropWhile (· ≠ '.') = '.' :: places := by
    rw [dropWhile_append_cons (by decide), List.dropWhile_eq_nil_iff.mpr hpass, List.nil_append]
  rw [h.eq]
  unfold decimal?
  simp only [hbefore, hbehind, List.drop_one, List.tail_cons]
  rw [if_neg (by simp [h.whole_ne]), natOfDigits?_eq (h.whole_digits.append h.places_digits)]
  rfl

/-- What is written with a point is a numeral. -/
theorem isNumeral (h : Pointed text whole places) : IsNumeral text := by
  have hnumeric : ∀ c ∈ text, Cursor.isNumeric c := by
    intro c hc
    rw [isNumeric_iff]
    rw [h.eq] at hc
    rcases List.mem_append.mp hc with hc | hc
    · exact .inl (isDigit_iff.mp (h.whole_digits c hc))
    · rcases List.mem_cons.mp hc with rfl | hc
      · exact .inr rfl
      · exact .inl (isDigit_iff.mp (h.places_digits c hc))
  refine (isSome_ofNumeral? hnumeric).mp ?_
  unfold ofNumeral?
  rw [h.decimal?_eq]
  rfl

end Pointed

/-- A number without places is written with zeros behind it, and one behind the point. -/
theorem pointed_natCast (n k : Nat) : ∃ whole places,
    Pointed (positional (digitsOf n) k) whole places ∧ places.length = 1 ∧
      (Nat.ofDigitChars 10 (whole ++ places) 0 / 10 ^ places.length : ℚ) = n * 10 ^ (k : Int) := by
  have hdigits : Nat.ofDigitChars 10 (digitsOf n) 0 = n := Nat.ofDigitChars_ten_toDigits
  have hvalue : Nat.ofDigitChars 10 (digitsOf n ++ List.replicate k '0' ++ ['0']) 0 =
      10 * (10 ^ k * n) := by
    rw [Nat.ofDigitChars_append, Nat.ofDigitChars_append, hdigits,
      Nat.ofDigitChars_replicate_zero]
    rfl
  refine ⟨digitsOf n ++ List.replicate k '0', ['0'], ⟨?_, ?_, ?_, ?_, ?_⟩, rfl, ?_⟩
  · exact if_pos (Int.natCast_nonneg k)
  · exact (allDigits_digitsOf n).append (allDigits_replicate k)
  · exact allDigits_replicate 1
  · exact List.append_ne_nil_of_left_ne_nil Nat.toDigits_ne_nil _
  · exact List.cons_ne_nil _ _
  · rw [hvalue, zpow_natCast, List.length_singleton]
    push_cast
    field_simp

/-- A number with places is written with as many, and zeros in front if needed. -/
theorem pointed_neg (n : Nat) {k : Nat} (hk : 0 < k) : ∃ whole places,
    Pointed (positional (digitsOf n) (-k)) whole places ∧ places.length = k ∧
      (Nat.ofDigitChars 10 (whole ++ places) 0 / 10 ^ places.length : ℚ) = n * 10 ^ (-k : Int) := by
  have hdigits : Nat.ofDigitChars 10 (digitsOf n) 0 = n := Nat.ofDigitChars_ten_toDigits
  have hpadded : AllDigits (padLeft (k + 1) '0' (digitsOf n)) :=
    (allDigits_replicate _).append (allDigits_digitsOf n)
  have hvalue : Nat.ofDigitChars 10 (padLeft (k + 1) '0' (digitsOf n)) 0 = n := by
    rw [padLeft, Nat.ofDigitChars_append, Nat.ofDigitChars_replicate_zero, Nat.mul_zero, hdigits]
  have hlength : k + 1 ≤ (padLeft (k + 1) '0' (digitsOf n)).length := by
    rw [padLeft, List.length_append, List.length_replicate]
    omega
  unfold positional
  rw [if_neg (by omega)]
  dsimp only
  rw [neg_neg, Int.toNat_natCast]
  generalize padLeft (k + 1) '0' (digitsOf n) = padded at *
  have hplaces : (padded.drop (padded.length - k)).length = k := by
    rw [List.length_drop]
    omega
  refine ⟨padded.take (padded.length - k), padded.drop (padded.length - k),
    ⟨rfl, ?_, ?_, ?_, ?_⟩, hplaces, ?_⟩
  · exact fun c hc => hpadded c (List.mem_of_mem_take hc)
  · exact fun c hc => hpadded c (List.mem_of_mem_drop hc)
  · apply List.ne_nil_of_length_pos
    rw [List.length_take]
    omega
  · apply List.ne_nil_of_length_pos
    omega
  · rw [List.take_append_drop, hvalue, hplaces, zpow_neg, zpow_natCast, div_eq_mul_inv]

/-- **What is written positionally is the decimal that was written**, with no more
places than it has, but one at least. -/
theorem pointed_positional (n : Nat) (e : Int) : ∃ whole places,
    Pointed (positional (digitsOf n) e) whole places ∧ places.length ≤ max 1 (-e).toNat ∧
      (Nat.ofDigitChars 10 (whole ++ places) 0 / 10 ^ places.length : ℚ) = n * 10 ^ e := by
  rcases lt_or_ge e 0 with hneg | hnonneg
  · obtain ⟨k, rfl⟩ : ∃ k : Nat, e = -k := ⟨(-e).toNat, by omega⟩
    obtain ⟨whole, places, hpointed, hlength, hvalue⟩ := pointed_neg n (k := k) (by omega)
    exact ⟨whole, places, hpointed, by omega, hvalue⟩
  · obtain ⟨k, rfl⟩ : ∃ k : Nat, e = k := ⟨e.toNat, by omega⟩
    obtain ⟨whole, places, hpointed, hlength, hvalue⟩ := pointed_natCast n k
    exact ⟨whole, places, hpointed, by omega, hvalue⟩

theorem IsNumeral.value_eq {cs : List Char} (h : IsNumeral cs) {n p : Nat}
    (hdecimal : decimal? cs = some (n, p)) : h.value = Float.ofScientific n true p := by
  unfold Reckon.IsNumeral.value ofNumeral?
  simp only [hdecimal, Option.map_some, Option.get_some]

/-! ### The text of a double -/

section Magnitude

variable {m : Nat} {e : Int}

/-- Outside of its window a magnitude is written with a power of ten. -/
theorem magnitude_of_not_mem (s : Spelling) (h : 'e' ∉ s.magnitude m e) :
    s.magnitude m e = positional (digitsOf (shortest m e).digits) (shortest m e).exponent := by
  unfold Spelling.magnitude at h ⊢
  dsimp only at h ⊢
  split
  · rfl
  · next hout =>
      rw [if_neg hout] at h
      exact absurd (List.mem_append_right _ List.mem_cons_self) h

/-- **A magnitude that is written positionally is a numeral, and is read back.** -/
theorem exists_numeral (h : Canonical m e) (s : Spelling) (hplain : 'e' ∉ s.magnitude m e) :
    ∃ hnumeral : IsNumeral (s.magnitude m e),
      hnumeral.value.toModel.unpack = .finite .positive m e h.pos := by
  rw [magnitude_of_not_mem s hplain]
  obtain ⟨whole, places, hpointed, hfew, hvalue⟩ :=
    pointed_positional (shortest m e).digits (shortest m e).exponent
  have hsome : 0 < places.length := List.length_pos_iff.mpr hpointed.places_ne
  have hexponent := le_shortest_exponent h
  refine ⟨hpointed.isNumeral, ?_⟩
  rw [IsNumeral.value_eq hpointed.isNumeral hpointed.decimal?_eq]
  apply unpack_ofScientific h hsome (by omega)
  rw [hvalue]
  exact shortest_holds h

end Magnitude

section Text

open Float.Model

variable {x : Float} {s : UnpackedFloat.Sign}

/-- Zero is written with its sign and one digit behind the point. -/
theorem toList_text_of_zero (hu : x.toModel.unpack = .zero s) :
    (text x).toList = (if s == .negative then ['-'] else []) ++ ['0', '.', '0'] := by
  rw [text, Spelling.write, hu]
  cases s <;> rfl

/-- Any other finite double is written with its sign and its magnitude. -/
theorem toList_text_of_finite {m : Nat} {e : Int} {hm : 0 < m}
    (hu : x.toModel.unpack = .finite s m e hm) :
    (text x).toList =
      (if s == .negative then ['-'] else []) ++ Spelling.plain.magnitude m e := by
  rw [text, Spelling.write, hu]
  cases s <;> simp

/-- The text of a finite double without a power of ten is a numeral, with a minus
in front of it if the double is signed; and the numeral is the double without its
sign. -/
theorem text_cases (hx : x.isFinite = true) (hplain : 'e' ∉ (text x).toList) :
    ∃ numeral, ∃ hnumeral : IsNumeral numeral,
      ((text x).toList = numeral ∧ hnumeral.value = x) ∨
        ((text x).toList = '-' :: numeral ∧ -hnumeral.value = x) := by
  have hfinite : x.toModel.unpack.isFinite = true := hx
  cases hu : x.toModel.unpack with
  | notANumber | infinity s =>
      rw [hu] at hfinite
      cases hfinite
  | zero s =>
      have hnumeral : IsNumeral ['0', '.', '0'] :=
        Pointed.isNumeral ⟨rfl, allDigits_replicate 1, allDigits_replicate 1,
          List.cons_ne_nil _ _, List.cons_ne_nil _ _⟩
      have hzero : hnumeral.value.toModel.unpack = .zero .positive := by
        rw [IsNumeral.value_eq hnumeral (n := 0) (p := 1) rfl]
        rfl
      refine ⟨_, hnumeral, ?_⟩
      rw [toList_text_of_zero hu]
      cases s with
      | positive => exact .inl ⟨rfl, unpack_inj.mp (hzero.trans hu.symm)⟩
      | negative =>
          refine .inr ⟨rfl, unpack_inj.mp ?_⟩
          rw [unpack_neg, hzero, hu]
          rfl
  | finite s m e hm =>
      rw [toList_text_of_finite hu] at hplain ⊢
      have hmagnitude : 'e' ∉ Spelling.plain.magnitude m e := fun h =>
        hplain (List.mem_append_right _ h)
      obtain ⟨hnumeral, hvalue⟩ :=
        exists_numeral (canonical_of_unpack hu) Spelling.plain hmagnitude
      refine ⟨_, hnumeral, ?_⟩
      cases s with
      | positive => exact .inl ⟨rfl, unpack_inj.mp (hvalue.trans hu.symm)⟩
      | negative =>
          refine .inr ⟨rfl, unpack_inj.mp ?_⟩
          rw [unpack_neg, hvalue, hu]
          rfl

end Text

end Double

/-! ### Reading it back -/

open Grammar in
/-- A text where an expression stands is read as its tree. -/
theorem Stands.exists_parse {scope : Scope} {text : List Char} {tree : Expr} {n : Nat}
    (h : Stands scope .expression text tree n) (limit : Int) (hlimit : n ≤ limit) :
    ∃ t, parse scope limit (String.ofList text) = .ok t ∧ t.unplaced = tree := by
  obtain ⟨p, hspells, hresolved, htree, hnesting⟩ := h
  have hsource : Spells (String.ofList text).toList p.tokens := by
    rwa [String.toList_ofList]
  have hderives : Derives scope limit (String.ofList text) p :=
    ⟨hsource, hresolved, by rwa [hnesting]⟩
  obtain ⟨t, hread⟩ := parse_of_derives hderives
  obtain ⟨q, hq, hqtree⟩ := derives_of_parse hread
  obtain rfl := phrase_unique hq.spells hsource
  exact ⟨t, hread, hqtree.trans htree⟩

/-- The text of a finite double without a power of ten is an expression that is
worth the double, in every world. -/
theorem exists_parse_text {x : Float} (hx : x.isFinite = true)
    (hplain : 'e' ∉ (Double.text x).toList) (scope : Scope) {limit : Int} (hlimit : 2 ≤ limit) :
    ∃ tree, parse scope limit (Double.text x) = .ok tree ∧
      ∀ {ε σ : Type} (w : World ε σ) (s : σ), tree.value w s = .ok x s := by
  obtain ⟨numeral, hnumeral, hcases⟩ := Double.text_cases hx hplain
  have hfactor : Stands scope .factor numeral (.constant 0 hnumeral.value) 1 :=
    (Stands.number hnumeral).plain
  rcases hcases with ⟨htext, rfl⟩ | ⟨htext, rfl⟩
  · have hstands := Stands.single (r := .sum) (Stands.single (r := .product) hfactor)
    obtain ⟨tree, hread, htree⟩ := hstands.exists_parse limit (by omega)
    rw [← htext, String.ofList_toList] at hread
    refine ⟨tree, hread, fun w s => ?_⟩
    rw [← Expr.value_unplaced, htree]
    rfl
  · have hsigned : Stands scope .factor ('-' :: numeral)
        (.unary 0 "-" (.constant 0 hnumeral.value)) 2 :=
      .signed (by decide) hfactor
    have hstands := Stands.single (r := .sum) (Stands.single (r := .product) hsigned)
    obtain ⟨tree, hread, htree⟩ := hstands.exists_parse limit (by omega)
    rw [← htext, String.ofList_toList] at hread
    refine ⟨tree, hread, fun w s => ?_⟩
    rw [← Expr.value_unplaced, htree]
    rfl

namespace Assignment

/-- A name without an equals sign, not blank, in front of an expression. -/
theorem form_of_name {name source : String} (hname : '=' ∉ name.toList)
    (hne : Text.strip name ≠ "") : Form (name ++ "=" ++ source) (Text.strip name) source := by
  obtain ⟨before, after, htrims⟩ := Text.exists_trims name.toList
  refine ⟨name.toList, before, after, ?_, hname, ?_, hne⟩
  · rw [String.toList_append, String.toList_append, List.append_assoc]
    rfl
  · rwa [Text.strip, String.toList_ofList]

end Assignment

open Assignment in
/-- **Printed values read back.** A finite double is printed; and if it is printed
without a power of ten, then its text is read with every table of variables, under
every limit of two levels or more, as an expression that evaluates to the double,
a zero with its sign.  Given as an assignment, it binds its stripped name to the
double and leaves everything else but the journal as it was. -/
theorem printed_value_reads_back {x : Float} (hx : x.isFinite = true) :
    ∃ text, formatValue x none = .ok text ∧ ('e' ∉ text.toList →
      ∀ limit : Int, 2 ≤ limit →
        (∀ scope, ∃ tree, parse scope limit text = .ok tree ∧
          ∀ sources, evaluate tree sources = .ok x sources) ∧
        ∀ (d : Desk) (name : String), '=' ∉ name.toList → Text.strip name ≠ "" →
          ∃ journal, performAll (.ofInt limit) [name ++ "=" ++ text] d =
            .ok () ⟨d.scope.bind (Text.strip name) (.constant 0 x), d.sources, journal⟩) := by
  refine ⟨Double.text x, rfl, fun hplain limit hlimit => ⟨fun scope => ?_, ?_⟩⟩
  · obtain ⟨tree, hread, hvalue⟩ := exists_parse_text hx hplain scope hlimit
    refine ⟨tree, hread, fun sources => ?_⟩
    rw [evaluate, evaluateIn_eq_value]
    exact hvalue Sources.world sources
  · intro d name hname hne
    obtain ⟨tree, hread, hvalue⟩ := exists_parse_text hx hplain d.scope hlimit
    have hunder : parseUnder d.scope (.ofInt limit) (Double.text x) = .ok tree := by
      rw [parseUnder_ofInt, hread]
      rfl
    have hgood := Good.intro (form_of_name hname hne) hunder (hvalue Sources.world d.sources)
    exact ⟨_, performAll_eq_ok.mpr ⟨_, .cons hgood (.nil _)⟩⟩

open Assignment in
/-- A negative number that takes seventeen digits, given back under a name with
blanks around it. -/
theorem printed_value_reads_back_digits :
    (-(0.1 + 0.2) : Float).isFinite = true ∧
      ∃ text, formatValue (-(0.1 + 0.2)) none = .ok text ∧ text = "-0.30000000000000004" ∧
        'e' ∉ text.toList ∧
        (∃ tree, parse .seeded 2 text = .ok tree ∧
          ∀ sources, evaluate tree sources = .ok (-(0.1 + 0.2)) sources) ∧
        ∃ journal, performAll (.ofInt 2) [" a " ++ "=" ++ text] (Desk.fresh (.fresh fun _ => 0)) =
          .ok () ⟨Scope.seeded.bind (Text.strip " a ") (.constant 0 (-(0.1 + 0.2))),
            .fresh fun _ => 0, journal⟩ := by
  have hfinite : (-(0.1 + 0.2) : Float).isFinite = true := by decide
  obtain ⟨text, hprinted, hreads⟩ := printed_value_reads_back hfinite
  have htext : text = "-0.30000000000000004" := by
    rw [← Except.ok.inj hprinted]
    decide +kernel
  subst htext
  obtain ⟨hparse, hassign⟩ := hreads (by decide) 2 (le_refl 2)
  exact ⟨hfinite, _, hprinted, rfl, by decide, hparse .seeded, hassign _ " a " (by decide) (by decide)⟩

end Reckon
