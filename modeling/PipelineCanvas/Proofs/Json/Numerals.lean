import Mathlib.Data.List.Basic
import Mathlib.Data.List.TakeWhile
import Mathlib.Data.Nat.Digits.Defs
import PipelineCanvas.Json.Numeral
import PipelineCanvas.Proofs.Json.Reading
import PipelineCanvas.Proofs.Numeric.Rounding
/-! # Numerals come back from their texts

Both sorts of number are written as the text of a numeral (`Whole.exists_numeral`,
`Double.exists_numeral`), and a numeral is read off its text as long as the text does not go on with
what could belong to it (`Reader.numeral_chars`). The numeral need not have the digits that the
number was written with: zeros are cut off and added. But it stands for the same value, so the
number is the one nearest to it, and it has no more than 20 digits before the point
(`Number.exists_numeral`).

A double is written in one of four ways, by where its point falls: behind zeros that fill up the
places before it, among the digits, before zeros and then the digits, or behind the first digit with
an exponent. Each way has its lemma, which gives the numeral (`Decimal.spells_zerosBehind` and the
three after it), and all of them start from the digits without the zeros at their end
(`Decimal.exists_stripped`).

Nothing is said here about the number that the reader makes of the numeral. Where the number is
whole it is the same; where it is a double it may be another one, which is the subject of
`PipelineCanvas.Proofs.Json.Echoes`. -/
namespace PipelineCanvas

/-! ### Digits -/

theorem decimalDigits_ne_nil (n : Nat) : decimalDigits n ≠ [] := Nat.toDigits_ne_nil

theorem isDigit_of_mem_decimalDigits {n : Nat} {c : Char} (h : c ∈ decimalDigits n) :
    c.isDigit = true :=
  Nat.isDigit_of_mem_toDigits (by decide) (by decide) h

theorem digitsValue_decimalDigits (n : Nat) : digitsValue (decimalDigits n) = n :=
  Nat.ofDigitChars_ten_toDigits

theorem digitsValue_append_zeros (ds : List Char) (k : Nat) :
    digitsValue (ds ++ List.replicate k '0') = digitsValue ds * 10 ^ k := by
  rw [digitsValue, Nat.ofDigitChars_append, Nat.ofDigitChars_replicate_zero, Nat.mul_comm]
  rfl

theorem digitsValue_zeros_append (ds : List Char) (k : Nat) :
    digitsValue (List.replicate k '0' ++ ds) = digitsValue ds := by
  rw [digitsValue, Nat.ofDigitChars_append, Nat.ofDigitChars_replicate_zero, Nat.mul_zero]
  rfl

theorem digitsValue_append (ds es : List Char) :
    digitsValue (ds ++ es) = 10 ^ es.length * digitsValue ds + digitsValue es := by
  rw [digitsValue, Nat.ofDigitChars_append, Nat.ofDigitChars_eq_ofDigitChars_zero]
  rfl

theorem digitsValue_le_of_start {ds es : List Char} (h : ds <+: es) :
    digitsValue ds ≤ digitsValue es := by
  obtain ⟨fs, rfl⟩ := h
  rw [digitsValue_append]
  exact Nat.le_trans (Nat.le_mul_of_pos_left _ (Nat.pow_pos (by decide))) (Nat.le_add_right _ _)

theorem digitsValue_lt {ds : List Char} (h : ∀ c ∈ ds, c.isDigit = true) :
    digitsValue ds < 10 ^ ds.length := by
  induction ds with
  | nil => decide
  | cons c ds ih =>
    obtain ⟨hc, hds⟩ := List.forall_mem_cons.mp h
    have hdigit : digitsValue [c] ≤ 9 := by
      have hnine : c.toNat ≤ 57 := (Char.isDigit_iff_toNat.mp hc).2
      show 10 * 0 + (c.toNat - 48) ≤ 9
      omega
    have hvalue : digitsValue (c :: ds) = 10 ^ ds.length * digitsValue [c] + digitsValue ds :=
      digitsValue_append [c] ds
    have hlt := ih hds
    have hle : 10 ^ ds.length * digitsValue [c] ≤ 10 ^ ds.length * 9 :=
      Nat.mul_le_mul_left _ hdigit
    rw [hvalue, List.length_cons, Nat.pow_succ]
    omega

/-- Only zero begins with a zero. -/
theorem head?_decimalDigits_ne_zero {n : Nat} (h : n ≠ 0) :
    (decimalDigits n).head? ≠ some '0' := by
  unfold decimalDigits
  induction n using Nat.base_induction 10 (by decide) with
  | single m hm =>
    rw [Nat.toDigits_of_lt_base hm]
    intro hd
    have hvalue := Nat.toNat_digitChar_sub_48_of_lt_ten hm
    rw [show Nat.digitChar m = '0' from Option.some.inj hd] at hvalue
    exact h hvalue.symm
  | digit m k hk hm ih =>
    rw [← Nat.toDigits_append_toDigits (by decide) hm hk,
      List.head?_append_of_ne_nil _ Nat.toDigits_ne_nil]
    exact ih hm.ne'

namespace Json

/-- The text does not go on with what could belong to a number. -/
def NumberEnd (rest : List Char) : Prop :=
  ∀ c ∈ rest.head?, c.isDigit = false ∧ c ≠ '.' ∧ c ≠ 'e' ∧ c ≠ 'E'

theorem numberEnd_nil : NumberEnd [] := fun _ h => nomatch h

/-! ### Numerals -/

namespace Numeral

/-- The digits of a numeral are digits, at least one on each side of the point, and before the
point a zero stands alone. -/
structure Proper (n : Numeral) : Prop where
  /-- A digit stands before the point. -/
  whole_ne : n.whole ≠ []
  /-- What stands before the point is digits. -/
  whole_digits : ∀ c ∈ n.whole, c.isDigit = true
  /-- No zero stands before another digit. -/
  no_zero : 1 < n.whole.length → n.whole.head? ≠ some '0'
  /-- Where there is a point, a digit stands behind it. -/
  fraction_ne : ∀ ds ∈ n.fraction, ds ≠ []
  /-- What stands behind the point is digits. -/
  fraction_digits : ∀ ds ∈ n.fraction, ∀ c ∈ ds, c.isDigit = true

/-- The sign, which is written of negative numbers only. -/
def signChars (negative : Bool) : List Char := if negative then ['-'] else []

/-- The point and the digits behind it, if there is a point. -/
def fractionChars : Option (List Char) → List Char
  | some ds => '.' :: ds
  | none => []

/-- The exponent with its mark and a sign, if there is one. -/
def exponentChars : Option Int → List Char
  | some e => 'e' :: (if e < 0 then '-' else '+') :: decimalDigits e.natAbs
  | none => []

/-- The number nearest to what the numeral stands for, rounded once. It tells the numbers of two
texts apart also where the reader rounds them to one. -/
def nearest? (n : Numeral) : Option Number := n.wholeOr (n.decimal.toDouble? n.negative)

/-- A numeral that is a double is not written as a whole number, so it is whatever double it is read
as. -/
theorem wholeOr_eq_double {n : Numeral} {double : Option Double} {x : Double}
    (h : n.wholeOr double = some (.double x)) :
    double = some x ∧ ∀ other, n.wholeOr other = other.map .double := by
  unfold wholeOr at h ⊢
  split at h
  · split at h
    · cases h
    · exact ⟨by simpa using h, fun _ => rfl⟩
  · exact ⟨by simpa using h, fun _ => rfl⟩

/-- A numeral that is a whole number has neither point nor exponent. -/
theorem wholeOr_eq_whole {n : Numeral} {double : Option Double} {w : Whole}
    (h : n.wholeOr double = some (.whole w)) :
    n.fraction = none ∧ n.exponent = none ∧ n.toWhole? = some w := by
  unfold wholeOr at h
  split at h
  · next hfraction hexponent =>
    refine ⟨hfraction, hexponent, ?_⟩
    cases hwhole : n.toWhole? with
    | some v =>
      rw [hwhole] at h
      cases h
      rfl
    | none => simp [hwhole] at h
  · simp at h

/-- The text of a numeral. -/
def chars (n : Numeral) : List Char :=
  signChars n.negative ++ (n.whole ++ (fractionChars n.fraction ++ exponentChars n.exponent))

end Numeral

namespace Reader
variable {rest : List Char}

theorem digits_append {ds : List Char} (hne : ds ≠ []) (hds : ∀ c ∈ ds, c.isDigit = true)
    (hrest : ∀ c ∈ rest.head?, c.isDigit = false) : digits (ds ++ rest) = .ok (ds, rest) := by
  obtain ⟨d, ds, rfl⟩ := List.exists_cons_of_ne_nil hne
  have hd : d.isDigit = true := hds d List.mem_cons_self
  have hpeek : peek (d :: ds ++ rest) = .ok (d, d :: ds ++ rest) := rfl
  have htake : (d :: ds ++ rest).takeWhile Char.isDigit = d :: ds := by
    rw [List.takeWhile_append_of_pos hds]
    cases rest with
    | nil => simp
    | cons c cs => simp [hrest c rfl]
  have hdrop : (d :: ds ++ rest).dropWhile Char.isDigit = rest := by
    rw [List.dropWhile_append_of_pos hds]
    cases rest with
    | nil => rfl
    | cons c cs => simp [hrest c rfl]
  rw [digits, bind_of_ok hpeek, if_pos hd, takeWhile, htake, hdrop]

theorem wholeDigits_append {ds : List Char} (hne : ds ≠ []) (hds : ∀ c ∈ ds, c.isDigit = true)
    (hzero : 1 < ds.length → ds.head? ≠ some '0')
    (hrest : ∀ c ∈ rest.head?, c.isDigit = false) : wholeDigits (ds ++ rest) = .ok (ds, rest) := by
  rw [wholeDigits, bind_of_ok (digits_append hne hds hrest)]
  rw [if_neg fun h => hzero h.1 h.2]
  rfl

theorem exponent_append (e : Int) (hrest : NumberEnd rest) :
    exponent ((if e < 0 then '-' else '+') :: decimalDigits e.natAbs ++ rest) = .ok (e, rest) := by
  have hdigits : digits (decimalDigits e.natAbs ++ rest) = .ok (decimalDigits e.natAbs, rest) :=
    digits_append (decimalDigits_ne_nil _) (fun _ => isDigit_of_mem_decimalDigits)
      fun c hc => (hrest c hc).1
  unfold exponent
  by_cases he : e < 0
  · rw [if_pos he, List.cons_append, bind_of_ok (eat_of_mem List.mem_cons_self), if_pos rfl,
      bind_of_ok hdigits, digitsValue_decimalDigits, pure_apply]
    rw [show -(e.natAbs : Int) = e by omega]
  · have hplus : (discard (eat ['+']) : Reader Unit) ('+' :: (decimalDigits e.natAbs ++ rest)) =
        .ok ((), decimalDigits e.natAbs ++ rest) :=
      map_of_ok (eat_of_mem List.mem_cons_self)
    rw [if_neg he, List.cons_append,
      bind_of_ok (eat_of_not_mem (by rintro c ⟨⟩; decide)), if_neg (by decide),
      bind_of_ok hplus, bind_of_ok hdigits, digitsValue_decimalDigits, pure_apply]
    rw [show (e.natAbs : Int) = e by omega]

theorem exponentPart_append (exp : Option Int) (hrest : NumberEnd rest) :
    exponentPart (Numeral.exponentChars exp ++ rest) = .ok (exp, rest) := by
  unfold exponentPart
  cases exp with
  | none =>
    have hno : ∀ c ∈ rest.head?, c ∉ ['e', 'E'] := by
      intro c hc
      obtain ⟨-, -, he, hE⟩ := hrest c hc
      simp [he, hE]
    rw [Numeral.exponentChars, List.nil_append, bind_of_ok (eat_of_not_mem hno),
      if_neg (by decide)]
    rfl
  | some e =>
    rw [Numeral.exponentChars, List.cons_append, bind_of_ok (eat_of_mem List.mem_cons_self),
      if_pos rfl]
    exact map_of_ok (exponent_append e hrest)

/-- What stands behind the digits of a fraction does not go on with these. -/
theorem exponentChars_end (exp : Option Int) (hrest : NumberEnd rest) :
    ∀ c ∈ (Numeral.exponentChars exp ++ rest).head?, c.isDigit = false ∧ c ≠ '.' := by
  intro c hc
  cases exp with
  | none => exact ⟨(hrest c hc).1, (hrest c hc).2.1⟩
  | some e =>
    cases hc
    exact ⟨by decide, by decide⟩

/-- What stands behind the point is read, or nothing where there is none. -/
theorem fractionPart_append {fraction : Option (List Char)} (hne : ∀ ds ∈ fraction, ds ≠ [])
    (hdigits : ∀ ds ∈ fraction, ∀ c ∈ ds, c.isDigit = true)
    (hrest : ∀ c ∈ rest.head?, c.isDigit = false ∧ c ≠ '.') :
    fractionPart (Numeral.fractionChars fraction ++ rest) = .ok (fraction, rest) := by
  unfold fractionPart
  cases fraction with
  | none =>
    have hno : ∀ c ∈ rest.head?, c ∉ ['.'] := by
      intro c hc
      simp [(hrest c hc).2]
    rw [Numeral.fractionChars, List.nil_append, bind_of_ok (eat_of_not_mem hno),
      if_neg (by decide)]
    rfl
  | some ds =>
    rw [Numeral.fractionChars, List.cons_append, bind_of_ok (eat_of_mem List.mem_cons_self),
      if_pos rfl]
    exact map_of_ok (digits_append (hne ds rfl) (hdigits ds rfl) fun c hc => (hrest c hc).1)

/-- What stands behind the digits before the point does not go on with these. -/
theorem fractionChars_end (fraction : Option (List Char))
    (hrest : ∀ c ∈ rest.head?, c.isDigit = false ∧ c ≠ '.') :
    ∀ c ∈ (Numeral.fractionChars fraction ++ rest).head?, c.isDigit = false := by
  intro c hc
  cases fraction with
  | none => exact (hrest c hc).1
  | some ds =>
    cases hc
    decide

/-- A sign is not mistaken for a digit. -/
theorem eat_signChars (negative : Bool) (hrest : ∀ c ∈ rest.head?, c.isDigit = true) :
    eat ['-'] (Numeral.signChars negative ++ rest) = .ok (negative, rest) := by
  cases negative with
  | true => exact eat_of_mem List.mem_cons_self
  | false =>
    refine eat_of_not_mem fun c hc => ?_
    have hdigit : c.isDigit = true := hrest c hc
    rw [List.mem_singleton]
    rintro rfl
    exact absurd hdigit (by decide)

/-- **A numeral is read off its text**, where the text does not go on with it. -/
theorem numeral_chars {n : Numeral} (h : n.Proper) (hrest : NumberEnd rest) :
    numeral (n.chars ++ rest) = .ok (n, rest) := by
  obtain ⟨negative, whole, fraction, exp⟩ := n
  have hne : whole ≠ [] := h.whole_ne
  have hexpEnd := exponentChars_end exp hrest
  have hfraction : fractionPart (Numeral.fractionChars fraction ++ _) = .ok (fraction, _) :=
    fractionPart_append h.fraction_ne h.fraction_digits hexpEnd
  have hwhole : wholeDigits (whole ++ _) = .ok (whole, _) :=
    wholeDigits_append hne h.whole_digits h.no_zero (fractionChars_end fraction hexpEnd)
  have hdigit : ∀ c ∈ (whole ++ (Numeral.fractionChars fraction ++
      (Numeral.exponentChars exp ++ rest))).head?, c.isDigit = true := by
    intro c hc
    rw [List.head?_append_of_ne_nil _ hne] at hc
    exact h.whole_digits c (List.mem_of_mem_head? hc)
  rw [Numeral.chars, List.append_assoc, List.append_assoc, List.append_assoc, numeral,
    bind_of_ok (eat_signChars negative hdigit), bind_of_ok hwhole, bind_of_ok hfraction,
    bind_of_ok (exponentPart_append exp hrest)]
  rfl

/-- A number is read off the text of its numeral. -/
theorem number_chars {n : Numeral} {number : Number} (h : n.Proper)
    (hnumber : n.toNumber? = some number) (hrest : NumberEnd rest) :
    Reader.number (n.chars ++ rest) = .ok (number, rest) := by
  rw [Reader.number, bind_of_ok (numeral_chars h hrest), hnumber]
  rfl

end Reader
end Json

/-! ### Whole numbers -/

open Json

/-- A whole number is written as its digits, with a sign if it is negative. -/
theorem Whole.exists_numeral (w : Whole) :
    ∃ n : Numeral, n.Proper ∧ w.text = n.chars ∧ n.nearest? = some (.whole w) ∧
      n.whole.length ≤ 20 := by
  obtain ⟨v, hle, hlt⟩ := w
  refine ⟨⟨v < 0, decimalDigits v.natAbs, none, none⟩, ⟨decimalDigits_ne_nil _,
    fun _ => isDigit_of_mem_decimalDigits, ?_, by simp, by simp⟩, ?_, ?_,
    Nat.toDigits_length 10 v.natAbs 20 (by decide) (by omega)⟩
  · intro hlen
    refine head?_decimalDigits_ne_zero fun hzero => ?_
    simp only [hzero] at hlen
    exact absurd hlen (by decide +revert)
  · simp [Whole.text, Numeral.chars, Numeral.signChars, Numeral.fractionChars,
      Numeral.exponentChars]
  · by_cases hv : v < 0
    · have hbounds : 0 < v.natAbs ∧ v.natAbs ≤ 0x8000000000000000 := by omega
      simp only [Numeral.nearest?, Numeral.wholeOr, Numeral.toWhole?, digitsValue_decimalDigits, hv,
        decide_true, if_true, dif_pos hbounds]
      simp only [show -(v.natAbs : Int) = v by omega]
    · have hbound : v.natAbs < 0x10000000000000000 := by omega
      simp only [Numeral.nearest?, Numeral.wholeOr, Numeral.toWhole?, digitsValue_decimalDigits, hv,
        decide_false, Bool.false_eq_true, if_false, dif_pos hbound]
      simp only [show (v.natAbs : Int) = v by omega]

/-! ### Doubles -/

/-- Behind the sign the numeral has the text `cs`. It is read as the double that `d` is read as, and
never as a whole number. -/
structure Json.Numeral.Spells (n : Numeral) (negative : Bool) (cs : List Char) (d : Decimal) :
    Prop where
  /-- The numeral is one that the grammar knows. -/
  proper : n.Proper
  negative_eq : n.negative = negative
  chars_eq : signChars negative ++ cs = n.chars
  /-- Rounded once, it is the same double as the decimal. -/
  same : n.decimal.toDouble? negative = d.toDouble? negative
  /-- It has a point or an exponent. -/
  not_whole : n.fraction = none → n.exponent ≠ none

/-- Digits, at least one, that do not begin with a zero. -/
structure Significant (ds : List Char) : Prop where
  /-- There is a first digit. -/
  ne_nil : ds ≠ []
  digits : ∀ c ∈ ds, c.isDigit = true
  head_ne : ds.head? ≠ some '0'

namespace Decimal
variable {ds : List Char}

/-- What is cut off at the end of the digits are zeros. -/
theorem exists_zeros (ds : List Char) :
    ∃ k, ds = (ds.reverse.dropWhile (· == '0')).reverse ++ List.replicate k '0' := by
  refine ⟨(ds.reverse.takeWhile (· == '0')).length, ?_⟩
  have hzeros : ds.reverse.takeWhile (· == '0') =
      List.replicate (ds.reverse.takeWhile (· == '0')).length '0' :=
    List.eq_replicate_of_mem fun c hc => by simpa using List.mem_takeWhile_imp hc
  conv_lhs => rw [← List.reverse_reverse ds,
    ← List.takeWhile_append_dropWhile (p := (· == '0')) (l := ds.reverse), hzeros,
    List.reverse_append, List.reverse_replicate]

/-- A decimal with the digits of another, but for zeros at the end, and its last digit at the place
that these leave it. -/
theorem exists_stripped {d : Decimal} (hd : d.digits ≠ 0) :
    ∃ ds : List Char, ((decimalDigits d.digits).reverse.dropWhile (· == '0')).reverse = ds ∧
      Significant ds ∧ ∀ negative, d.toDouble? negative = toDouble? negative
        ⟨digitsValue ds, d.exponent + (decimalDigits d.digits).length - ds.length⟩ := by
  obtain ⟨k, hk⟩ := exists_zeros (decimalDigits d.digits)
  generalize hds : ((decimalDigits d.digits).reverse.dropWhile (· == '0')).reverse = ds at hk
  have hhead := head?_decimalDigits_ne_zero hd
  have hne : ds ≠ [] := by
    rintro rfl
    cases k with
    | zero => exact decimalDigits_ne_nil _ hk
    | succ k =>
      rw [hk] at hhead
      exact hhead rfl
  refine ⟨ds, rfl, ⟨hne, ?_, ?_⟩, ?_⟩
  · intro c hc
    exact isDigit_of_mem_decimalDigits (n := d.digits) (hk ▸ List.mem_append_left _ hc)
  · rwa [hk, List.head?_append_of_ne_nil _ hne] at hhead
  · intro negative
    obtain ⟨m, e⟩ := d
    have hvalue : m = digitsValue ds * 10 ^ k := by
      rw [← digitsValue_append_zeros, ← hk, digitsValue_decimalDigits]
    have hlen : (decimalDigits m).length = ds.length + k := by
      simp only at hk
      rw [hk, List.length_append, List.length_replicate]
    have hexp : e + (decimalDigits m).length - ds.length = e + k := by omega
    show toDouble? negative ⟨m, e⟩ = toDouble? negative ⟨digitsValue ds, e + _ - _⟩
    rw [hexp, ← toDouble?_shift negative (digitsValue ds) k (e + k), ← hvalue,
      Int.add_sub_cancel]

/-- Zeros fill up the places before the point. -/
theorem spells_zerosBehind (h : Significant ds) (negative : Bool) {n : Nat}
    (hshort : ds.length ≤ n + 1) :
    Numeral.Spells ⟨negative, ds ++ List.replicate (n + 1 - ds.length) '0', some ['0'], none⟩
      negative (pointAfter n ds) ⟨digitsValue ds, (n : Int) + 1 - ds.length⟩ := by
  refine ⟨⟨by simp [h.ne_nil], ?_, ?_, by simp, by simp⟩, rfl, ?_, ?_, by simp⟩
  · intro c hc
    rcases List.mem_append.mp hc with hc | hc
    · exact h.digits c hc
    · rw [(List.mem_replicate.mp hc).2]
      decide
  · intro _
    rw [List.head?_append_of_ne_nil _ h.ne_nil]
    exact h.head_ne
  · simp [pointAfter, List.take_of_length_le hshort, List.drop_of_length_le hshort,
      Numeral.chars, Numeral.fractionChars, Numeral.exponentChars]
  · have hvalue : digitsValue (ds ++ List.replicate (n + 1 - ds.length) '0' ++ ['0']) =
        digitsValue ds * 10 ^ (n + 1 - ds.length + 1) := by
      rw [← digitsValue_append_zeros, List.replicate_succ', ← List.append_assoc]
    rw [← toDouble?_shift negative (digitsValue ds) (n + 1 - ds.length + 1)]
    simp only [Numeral.decimal, Numeral.digits, Option.getD_some, Option.getD_none, hvalue,
      List.length_singleton]
    congr 2
    omega

/-- The point stands among the digits. -/
theorem spells_pointWithin (h : Significant ds) (negative : Bool) {n : Nat}
    (hlong : n + 1 < ds.length) :
    Numeral.Spells ⟨negative, ds.take (n + 1), some (ds.drop (n + 1)), none⟩
      negative (pointAfter n ds) ⟨digitsValue ds, (n : Int) + 1 - ds.length⟩ := by
  have hdrop : ds.drop (n + 1) ≠ [] := by
    rw [ne_eq, List.drop_eq_nil_iff]
    omega
  refine ⟨⟨?_, ?_, ?_, ?_, ?_⟩, rfl, ?_, ?_, by simp⟩
  · simp [h.ne_nil]
  · exact fun c hc => h.digits c (List.mem_of_mem_take hc)
  · intro _
    rw [List.head?_take, if_neg (by omega)]
    exact h.head_ne
  · rintro _ ⟨⟩
    exact hdrop
  · rintro _ ⟨⟩ c hc
    exact h.digits c (List.mem_of_mem_drop hc)
  · simp [pointAfter, hdrop, Nat.sub_eq_zero_of_le hlong.le,
      Numeral.chars, Numeral.fractionChars, Numeral.exponentChars]
  · simp only [Numeral.decimal, Numeral.digits, Option.getD_some, Option.getD_none,
      List.take_append_drop, List.length_drop]
    congr 2
    omega

/-- Zeros stand between the point and the digits. -/
theorem spells_zerosBefore (h : Significant ds) (negative : Bool) (n : Nat) :
    Numeral.Spells ⟨negative, ['0'], some (List.replicate n '0' ++ ds), none⟩
      negative ('0' :: '.' :: List.replicate n '0' ++ ds)
      ⟨digitsValue ds, Int.negSucc n + 1 - ds.length⟩ := by
  refine ⟨⟨by simp, by simp, by simp, ?_, ?_⟩, rfl, ?_, ?_, by simp⟩
  · rintro _ ⟨⟩
    simp [h.ne_nil]
  · rintro _ ⟨⟩ c hc
    rcases List.mem_append.mp hc with hc | hc
    · rw [(List.mem_replicate.mp hc).2]
      decide
    · exact h.digits c hc
  · simp [Numeral.chars, Numeral.fractionChars, Numeral.exponentChars]
  · have hvalue : digitsValue (['0'] ++ (List.replicate n '0' ++ ds)) = digitsValue ds := by
      rw [← List.append_assoc, ← List.replicate_one, List.replicate_append_replicate,
        digitsValue_zeros_append]
    simp only [Numeral.decimal, Numeral.digits, Option.getD_some, Option.getD_none, hvalue,
      List.length_append, List.length_replicate]
    congr 2
    omega

/-- One digit stands before the point, and an exponent at the end. -/
theorem exists_spells_scientific (h : Significant ds) (negative : Bool) (e : Int) :
    ∃ n : Numeral, n.Spells negative (scientific ds e) ⟨digitsValue ds, e + 1 - ds.length⟩ ∧
      n.whole.length = 1 := by
  obtain ⟨d, fraction, rfl⟩ := List.exists_cons_of_ne_nil h.ne_nil
  have hd : ∀ c ∈ [d], c.isDigit = true := by
    intro c hc
    rw [List.mem_singleton] at hc
    exact h.digits c (hc ▸ List.mem_cons_self)
  cases fraction with
  | nil =>
    refine ⟨⟨negative, [d], none, some e⟩, ⟨⟨by simp, hd, by simp, by simp, by simp⟩, rfl, ?_, ?_,
      by simp⟩, rfl⟩
    · simp [scientific, Numeral.chars, Numeral.fractionChars, Numeral.exponentChars]
    · simp [Numeral.decimal, Numeral.digits]
  | cons c fraction =>
    refine ⟨⟨negative, [d], some (c :: fraction), some e⟩, ⟨⟨by simp, hd, by simp, by simp, ?_⟩,
      rfl, ?_, ?_, by simp⟩, rfl⟩
    · rintro _ ⟨⟩ c hc
      exact h.digits c (List.mem_cons_of_mem d hc)
    · simp [scientific, Numeral.chars, Numeral.fractionChars, Numeral.exponentChars]
    · simp only [Numeral.decimal, Numeral.digits, Option.getD_some, List.singleton_append,
        List.length_cons]
      congr 2
      omega

/-- The text of a decimal with a sign is that of a numeral with a point or an exponent, which is
read as the same double. It has no more digits before the point than the greatest exponent that is
written without an `e` calls for. -/
theorem exists_spells (positional : Positional) (d : Decimal) (negative : Bool) :
    ∃ n : Numeral, n.Spells negative (d.text positional) d ∧
      n.whole.length ≤ positional.greatest.toNat + 1 := by
  by_cases hd : d.digits = 0
  · refine ⟨⟨negative, ['0'], some ['0'], none⟩, ⟨⟨by simp, by simp, by simp, by simp, by simp⟩,
      rfl, ?_, ?_, by simp⟩, by simp⟩
    · simp [text, hd, Numeral.chars, Numeral.fractionChars, Numeral.exponentChars]
    · obtain ⟨m, e⟩ := d
      obtain rfl : m = 0 := hd
      rw [toDouble?_zero]
      rfl
  · obtain ⟨ds, hstripped, h, hsame⟩ := exists_stripped hd
    simp only [text, hd, if_false, hstripped]
    generalize he : d.exponent + (decimalDigits d.digits).length - 1 = e
    rw [show d.exponent + (decimalDigits d.digits).length - ds.length = e + 1 - ds.length by omega]
      at hsame
    -- a numeral for the digits is one for the decimal that they were stripped from
    have spells : ∀ {cs} {n : Numeral}, n.Spells negative cs
        ⟨digitsValue ds, e + 1 - ds.length⟩ → n.whole.length ≤ positional.greatest.toNat + 1 →
          ∃ n : Numeral, n.Spells negative cs d ∧
            n.whole.length ≤ positional.greatest.toNat + 1 := fun hn hlen =>
      ⟨_, { hn with same := hn.same.trans (hsame negative).symm }, hlen⟩
    split
    · next hpositional =>
      cases e with
      | ofNat n =>
        have hgreatest : (n : Int) ≤ positional.greatest := hpositional.2
        have hle : n ≤ positional.greatest.toNat := by omega
        by_cases hshort : ds.length ≤ n + 1
        · refine spells (spells_zerosBehind h negative hshort) ?_
          simp only [List.length_append, List.length_replicate]
          omega
        · refine spells (spells_pointWithin h negative (Nat.lt_of_not_le hshort)) ?_
          simp only [List.length_take]
          omega
      | negSucc n => exact spells (spells_zerosBefore h negative n) (by simp)
    · obtain ⟨n, hn, hlen⟩ := exists_spells_scientific h negative e
      exact spells hn (by omega)

end Decimal

/-- A double is written as the shortest decimal that it is nearest to. -/
theorem Double.exists_numeral (positional : Decimal.Positional) (x : Double) :
    ∃ n : Numeral, n.Proper ∧ x.text positional = n.chars ∧ n.nearest? = some (.double x) ∧
      n.whole.length ≤ positional.greatest.toNat + 1 := by
  obtain ⟨n, hn, hlen⟩ := (Decimal.ofDouble x).exists_spells positional x.negative
  refine ⟨n, hn.proper, hn.chars_eq, ?_, hlen⟩
  have hread : n.decimal.toDouble? n.negative = some x := by
    rw [hn.negative_eq, hn.same, Decimal.toDouble?_ofDouble]
  unfold Numeral.nearest? Numeral.wholeOr
  rw [hread]
  split
  · next hfraction hexponent => exact absurd hexponent (hn.not_whole hfraction)
  · rfl

/-- **Every number is the nearest to the numeral of its text.** -/
theorem Number.exists_numeral (n : Number) :
    ∃ numeral : Numeral, numeral.Proper ∧ n.text = numeral.chars ∧
      numeral.nearest? = some n ∧ numeral.whole.length ≤ 20 := by
  cases n with
  | whole w => exact w.exists_numeral
  | double x =>
    obtain ⟨numeral, hproper, htext, hnumber, hlen⟩ := x.exists_numeral positional
    exact ⟨numeral, hproper, htext, hnumber, Nat.le_trans hlen (by decide)⟩

/-- The text of a number begins with its sign or a digit. -/
theorem Number.text_eq_cons (n : Number) :
    ∃ c cs, n.text = c :: cs ∧ (c = '-' ∨ c.isDigit = true) := by
  obtain ⟨⟨negative, whole, fraction, exponent⟩, hproper, htext, -⟩ := n.exists_numeral
  obtain ⟨d, ds, hwhole⟩ := List.exists_cons_of_ne_nil hproper.whole_ne
  obtain rfl : whole = d :: ds := hwhole
  cases negative with
  | true => exact ⟨'-', _, htext, .inl rfl⟩
  | false => exact ⟨d, _, htext, .inr (hproper.whole_digits d List.mem_cons_self)⟩

end PipelineCanvas
