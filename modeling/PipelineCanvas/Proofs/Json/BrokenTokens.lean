import PipelineCanvas.Proofs.Json.Echoes
import PipelineCanvas.Proofs.Json.Strings
import PipelineCanvas.Proofs.Json.Trees
/-! # Tokens that break off

A text that breaks off in the middle of a token leaves the beginning of this token at its end. What
the readers of tokens make of that depends on whether the token has an end of its own. A literal or
a string has one, so what is left of it is not read, and the fault is that the text has ended
(`Reader.word_broken`, `Reader.quoted_broken`).

A number has none, and what is left of it may well be a number (`Reader.exhausts_number`): where
`120` breaks off, `12` is read. That number is followed by nothing, so whoever goes on to read a
comma or a bracket finds that the text has ended. What has to be shown is that the number is not
refused for another reason. It could only be too great for a double, and it is not
(`Numeral.Starts.isSome_toNumber?`): it has the digits of the whole number before a smaller
exponent, or no positive exponent at all. -/
namespace PipelineCanvas.Json
open Reader
variable {left lost : List Char}

/-- Where two parts break off, the first is there in full, or it is the first that breaks off. -/
theorem append_cases {first second : List Char} (h : first ++ second = left ++ lost) :
    (∃ left', left = first ++ left' ∧ second = left' ++ lost) ∨
      ∃ lost', lost' ≠ [] ∧ first = left ++ lost' := by
  rcases List.append_eq_append_iff.mp h with ⟨left', hleft, hsecond⟩ | ⟨lost', hfirst, hlost⟩
  · exact .inl ⟨left', hleft, hsecond⟩
  · by_cases hempty : lost' = []
    · subst hempty
      exact .inl ⟨[], by simpa using hfirst.symm, by simpa using hlost.symm⟩
    · exact .inr ⟨lost', hempty, hfirst⟩

namespace Reader

/-! ### Literals -/

/-- A literal that breaks off is not read. -/
theorem word_broken {w : List Char} (h : w = left ++ lost) (hlost : lost ≠ []) :
    word w left = .error .ended := by
  induction left generalizing w with
  | nil =>
    obtain ⟨c, cs, rfl⟩ := List.exists_cons_of_ne_nil hlost
    rw [h]
    rfl
  | cons c left ih =>
    rw [h, List.cons_append, word, bind_of_ok (expect_cons c)]
    exact ih rfl

/-! ### Strings -/

/-- Fewer than four digits are too few for a code unit. -/
theorem hex4_of_short {cs : List Char} (hlen : cs.length < 4) (hsize : ∀ c ∈ cs, c.utf8Size = 1) :
    hex4 cs = .error .ended := by
  rcases cs with _ | ⟨a, _ | ⟨b, _ | ⟨c, _ | ⟨d, cs⟩⟩⟩⟩
  · rfl
  · cases ha : hexValue? a <;> simp_all [hex4]
  · cases ha : hexValue? a <;> cases hb : hexValue? b <;> simp_all [hex4]
  · cases ha : hexValue? a <;> cases hb : hexValue? b <;> cases hc : hexValue? c <;>
      simp_all [hex4]
  · simp only [List.length_cons] at hlen
    omega

theorem utf8Size_of_mem_hexDigits {n : Nat} {c : Char} (h : c ∈ hexDigits n) :
    c.utf8Size = 1 := by
  obtain ⟨d, -, rfl⟩ := List.mem_map.mp h
  have hsize : ∀ d < 16, (Nat.digitChar d).utf8Size = 1 := by decide
  exact hsize (d % 16) (Nat.mod_lt d (by decide))

theorem stringStep_broken_escape {c : Char} (h : ['\\', c] = left ++ lost) (hlost : lost ≠ [])
    (read : List Char) : stringStep codePoint read left = .error .ended := by
  rcases left with _ | ⟨slash, _ | ⟨d, left⟩⟩
  · rfl
  · obtain ⟨rfl, -⟩ := List.cons.inj h
    rfl
  · simp [hlost] at h

/-- What is left of an escaped code unit has too few digits for one. -/
theorem stringStep_broken_unit {n : Nat} (h : '\\' :: 'u' :: hexDigits n = left ++ lost)
    (hlost : lost ≠ []) (read : List Char) : stringStep codePoint read left = .error .ended := by
  rcases left with _ | ⟨slash, _ | ⟨u, left⟩⟩
  · rfl
  · obtain ⟨rfl, -⟩ := List.cons.inj h
    rfl
  · obtain ⟨rfl, hunit⟩ := List.cons.inj h
    obtain ⟨rfl, hdigits⟩ : 'u' = u ∧ hexDigits n = left ++ lost := List.cons.inj hunit
    have hlen : left.length < 4 := by
      have hfour : 4 = left.length + lost.length := by
        rw [← List.length_append, ← hdigits]
        rfl
      have hpos := List.length_pos_iff.mpr hlost
      omega
    have hhex : hex4 left = .error .ended :=
      hex4_of_short hlen fun c hc =>
        utf8Size_of_mem_hexDigits (hdigits ▸ List.mem_append_left lost hc)
    simp [stringStep, escape, codePoint, next, hhex, bind, StateT.bind, Except.bind]

/-- What is left of a character between quotes is not read. -/
theorem stringStep_broken {c : Char} (h : quotedChar c = left ++ lost) (hlost : lost ≠ [])
    (read : List Char) : stringStep codePoint read left = .error .ended := by
  unfold quotedChar at h
  split at h
  · exact stringStep_broken_escape h hlost read
  split at h
  · exact stringStep_broken_escape h hlost read
  split at h
  · exact stringStep_broken_escape h hlost read
  split at h
  · exact stringStep_broken_escape h hlost read
  split at h
  · exact stringStep_broken_escape h hlost read
  split at h
  · exact stringStep_broken_escape h hlost read
  split at h
  · exact stringStep_broken_escape h hlost read
  split at h
  · exact stringStep_broken_unit h hlost read
  · obtain ⟨rfl, -⟩ : left = [] ∧ lost = [c] := by
      simpa [List.singleton_eq_append_iff, hlost] using h
    rfl

/-- Of a string without its closing quote no number of rounds finds the end: each round takes a
whole character that is written, and the last one finds less than that. -/
theorem rounds_broken {chars : List Char}
    (h : chars.flatMap quotedChar ++ ['"'] = left ++ lost) (hlost : lost ≠ [])
    (budget read : List Char) :
    rounds (stringStep codePoint) budget read left = .error .ended := by
  -- a budget that is spent too early is taken for the end of the text as well
  induction budget generalizing chars left read with
  | nil => rfl
  | cons b budget ih =>
    cases chars with
    | nil =>
      obtain ⟨rfl, -⟩ : left = [] ∧ lost = ['"'] := by
        simpa [List.singleton_eq_append_iff, hlost] using h
      rfl
    | cons c chars =>
      rw [List.flatMap_cons, List.append_assoc] at h
      rcases append_cases h with ⟨left', rfl, hletters⟩ | ⟨lost', hlost', hchar⟩
      · rw [rounds_of_inl (stringStep_quotedChar c read)]
        exact ih hletters _
      · rw [rounds, stringStep_broken hchar hlost']

/-- A string that breaks off is not read. -/
theorem quoted_broken {s : String} (h : quote s = left ++ lost) (hlost : lost ≠ []) :
    quoted left = .error .ended := by
  cases left with
  | nil => rfl
  | cons c left =>
    obtain ⟨rfl, hletters⟩ : '"' = c ∧ s.toList.flatMap quotedChar ++ ['"'] = left ++ lost :=
      List.cons.inj h
    rw [quoted, quotedWith, bind_of_ok (expect_cons '"')]
    exact rounds_broken hletters hlost left []

end Reader

/-! ### Values of digits -/

/-- Without its last digits a number is less. -/
theorem digitsValue_lt_of_broken {n : Nat} (h : decimalDigits n = left ++ lost) (hleft : left ≠ [])
    (hlost : lost ≠ []) : digitsValue left < n := by
  have hvalue : 10 ^ lost.length * digitsValue left + digitsValue lost = n := by
    rw [← digitsValue_append, ← h, digitsValue_decimalDigits]
  -- the whole number is at least ten times what is left of it
  have hten : 10 ≤ 10 ^ lost.length :=
    Nat.le_self_pow (List.length_pos_iff.mpr hlost).ne' 10
  have hscaled : 10 * digitsValue left ≤ 10 ^ lost.length * digitsValue left :=
    Nat.mul_le_mul_right _ hten
  have hne : n ≠ 0 := by
    rintro rfl
    have hlen : (decimalDigits 0).length = left.length + lost.length := by
      rw [h, List.length_append]
    have hone : (decimalDigits 0).length = 1 := by decide
    have hpos := List.length_pos_iff.mpr hleft
    have hpos' := List.length_pos_iff.mpr hlost
    omega
  omega

/-! ### Numbers -/

namespace Numeral

/-- The numeral `m` is what may be read where the text of `n` breaks off. -/
structure Starts (m n : Numeral) : Prop where
  /-- The sign is there where anything is, as it comes first. -/
  negative_eq : m.negative = n.negative
  /-- Digits before the point may be missing at their end. -/
  whole : m.whole <+: n.whole
  /-- Digits behind the point may be missing at their end, or all of them with the point. -/
  fraction : ∀ ds ∈ m.fraction, ∃ es ∈ n.fraction, ds <+: es
  /-- A positive exponent is less for it, and the digits before it are all there. -/
  exponent : ∀ e ∈ m.exponent, m.whole = n.whole ∧ m.fraction = n.fraction ∧
    ∃ e' ∈ n.exponent, e ≤ 0 ∨ e < e'

end Numeral

namespace Reader
variable {α β : Type} {P : α → Prop} {Q : β → Prop} {cs rest : List Char}

/-- The reader comes to the end of the text: it misses the rest, or it takes all that there is. -/
def Exhausts (r : Reader α) (cs : List Char) (P : α → Prop) : Prop :=
  r cs = .error .ended ∨ ∃ a, r cs = .ok (a, []) ∧ P a

/-- Behind a reader that takes all there is, another one has nothing to read. -/
theorem Exhausts.bind {r : Reader α} {f : α → Reader β} (h : Exhausts r cs P)
    (hf : ∀ a, P a → Exhausts (f a) [] Q) : Exhausts (r >>= f) cs Q := by
  rcases h with hended | ⟨a, hok, ha⟩
  · exact .inl (bind_of_error hended)
  · rw [Exhausts, bind_of_ok hok]
    exact hf a ha

theorem Exhausts.map {r : Reader α} (h : Exhausts r cs P) {f : α → β} (hf : ∀ a, P a → Q (f a)) :
    Exhausts (f <$> r) cs Q := by
  rcases h with hended | ⟨a, hok, ha⟩
  · rw [map_eq_pure_bind]
    exact .inl (bind_of_error hended)
  · exact .inr ⟨f a, map_of_ok hok, hf a ha⟩

theorem exhausts_pure {a : α} (ha : P a) : Exhausts (pure a) [] P := .inr ⟨a, rfl, ha⟩

theorem head?_of_append {c : Char} (hc : c ∈ left.head?) : c ∈ (left ++ lost).head? := by
  cases left with
  | nil => cases hc
  | cons d left => exact hc

/-- Digits are read up to the end of the text, unless there are none. -/
theorem exhausts_digits (h : ∀ c ∈ left, c.isDigit = true) :
    Exhausts digits left fun ds => ds = left ∧ left ≠ [] := by
  by_cases hne : left = []
  · subst hne
    exact .inl rfl
  · have hdigits : digits (left ++ []) = .ok (left, []) := digits_append hne h nofun
    rw [List.append_nil] at hdigits
    exact .inr ⟨left, hdigits, rfl, hne⟩

/-- What is left of an exponent is not positive, or less than the exponent. -/
theorem exhausts_exponent {e : Int}
    (h : (if e < 0 then '-' else '+') :: decimalDigits e.natAbs = left ++ lost)
    (hlost : lost ≠ []) : Exhausts exponent left fun e' => e' ≤ 0 ∨ e' < e := by
  cases left with
  | nil => exact .inl rfl
  | cons sign left =>
    obtain ⟨rfl, hdigits⟩ : (if e < 0 then '-' else '+') = sign ∧
        decimalDigits e.natAbs = left ++ lost := List.cons.inj h
    have hexhausts : Exhausts digits left fun ds => ds = left ∧ left ≠ [] :=
      exhausts_digits fun c hc =>
        isDigit_of_mem_decimalDigits (hdigits ▸ List.mem_append_left lost hc)
    unfold exponent
    by_cases he : e < 0
    · rw [if_pos he, Exhausts, bind_of_ok (eat_of_mem List.mem_cons_self), if_pos rfl]
      refine hexhausts.bind fun ds _ => exhausts_pure (.inl ?_)
      omega
    · have hplus : (discard (eat ['+']) : Reader Unit) ('+' :: left) = .ok ((), left) :=
        map_of_ok (eat_of_mem List.mem_cons_self)
      rw [if_neg he, Exhausts, bind_of_ok (eat_of_not_mem (by rintro c ⟨⟩; decide)),
        if_neg (by decide), bind_of_ok hplus]
      refine hexhausts.bind fun ds hds => exhausts_pure (.inr ?_)
      obtain ⟨rfl, hne⟩ := hds
      have hlt := digitsValue_lt_of_broken hdigits hne hlost
      omega

/-- The same with the mark before it, where a text without the mark has no exponent. -/
theorem exhausts_exponentPart {exp : Option Int} (h : Numeral.exponentChars exp = left ++ lost)
    (hlost : lost ≠ []) :
    Exhausts exponentPart left fun exp' => ∀ e ∈ exp', ∃ e' ∈ exp, e ≤ 0 ∨ e < e' := by
  cases exp with
  | none =>
    have hnil : left = [] ∧ lost = [] := by simpa [Numeral.exponentChars] using h
    exact absurd hnil.2 hlost
  | some e =>
    cases left with
    | nil => exact .inr ⟨none, rfl, by rintro _ ⟨⟩⟩
    | cons mark left =>
      obtain ⟨rfl, hexponent⟩ := List.cons.inj h
      rw [Exhausts, exponentPart, bind_of_ok (eat_of_mem List.mem_cons_self), if_pos rfl]
      refine (exhausts_exponent hexponent hlost).map fun e' he' => ?_
      rintro _ ⟨⟩
      exact ⟨e, rfl, he'⟩

/-- What is left behind the point is the beginning of the digits there. -/
theorem exhausts_fractionPart {fraction : Option (List Char)}
    (hdigits : ∀ ds ∈ fraction, ∀ c ∈ ds, c.isDigit = true)
    (h : Numeral.fractionChars fraction = left ++ lost) (hlost : lost ≠ []) :
    Exhausts fractionPart left fun fraction' => ∀ ds ∈ fraction', ∃ es ∈ fraction, ds <+: es := by
  cases fraction with
  | none =>
    have hnil : left = [] ∧ lost = [] := by simpa [Numeral.fractionChars] using h
    exact absurd hnil.2 hlost
  | some es =>
    cases left with
    | nil => exact .inr ⟨none, rfl, by rintro _ ⟨⟩⟩
    | cons point left =>
      obtain ⟨rfl, hes⟩ : '.' = point ∧ es = left ++ lost := List.cons.inj h
      have hleft : ∀ c ∈ left, c.isDigit = true := fun c hc =>
        hdigits es rfl c (hes ▸ List.mem_append_left lost hc)
      rw [Exhausts, fractionPart, bind_of_ok (eat_of_mem List.mem_cons_self), if_pos rfl]
      refine (exhausts_digits hleft).map fun ds hds => ?_
      rintro _ ⟨⟩
      exact ⟨es, rfl, lost, by rw [hds.1, hes]⟩

/-- What is left before the point is the beginning of the digits there, and no zero stands before
others. -/
theorem exhausts_wholeDigits {whole : List Char} (hdigits : ∀ c ∈ whole, c.isDigit = true)
    (hzero : 1 < whole.length → whole.head? ≠ some '0') (h : whole = left ++ lost) :
    Exhausts wholeDigits left (· <+: whole) := by
  subst h
  refine (exhausts_digits fun c hc => hdigits c (List.mem_append_left lost hc)).bind ?_
  rintro ds ⟨rfl, hne⟩
  have hzero' : ¬(1 < ds.length ∧ ds.head? = some '0') := by
    rintro ⟨hlen, hhead⟩
    rw [List.length_append, List.head?_append_of_ne_nil _ hne] at hzero
    exact hzero (by omega) hhead
  rw [if_neg hzero']
  exact exhausts_pure (List.prefix_append ds lost)

section numeral
variable {n : Numeral}

/-- Behind the digits before the point, these are all there. -/
theorem exhausts_parts (h : n.Proper)
    (hchars : Numeral.fractionChars n.fraction ++ Numeral.exponentChars n.exponent = left ++ lost)
    (hlost : lost ≠ []) : Exhausts (do
      let fraction ← fractionPart
      let exponent ← exponentPart
      return { negative := n.negative, whole := n.whole, fraction, exponent }) left
      (Numeral.Starts · n) := by
  rcases append_cases hchars with ⟨left, rfl, hexponent⟩ | ⟨lost', hlost', hfraction⟩
  · have hend : ∀ c ∈ left.head?, c.isDigit = false ∧ c ≠ '.' := by
      intro c hc
      have hhead := exponentChars_end n.exponent numberEnd_nil
      rw [List.append_nil, hexponent] at hhead
      exact hhead c (head?_of_append hc)
    rw [Exhausts, bind_of_ok (fractionPart_append h.fraction_ne h.fraction_digits hend)]
    refine (exhausts_exponentPart hexponent hlost).bind fun exponent hexponent => ?_
    exact exhausts_pure ⟨rfl, List.prefix_rfl, fun ds hds => ⟨ds, hds, List.prefix_rfl⟩,
      fun e he => ⟨rfl, rfl, hexponent e he⟩⟩
  · refine (exhausts_fractionPart h.fraction_digits hfraction hlost').bind fun fraction hstart => ?_
    exact .inr ⟨_, rfl, rfl, List.prefix_rfl, hstart, nofun⟩

/-- Where the text of a numeral breaks off a numeral is read that it starts with, or none. -/
theorem exhausts_numeral (h : n.Proper) (hchars : n.chars = left ++ lost) (hlost : lost ≠ []) :
    Exhausts numeral left (·.Starts n) := by
  unfold numeral
  rcases append_cases hchars with ⟨left, rfl, hunsigned⟩ | ⟨lost', hlost', hsign⟩
  · have hdigit : ∀ c ∈ left.head?, c.isDigit = true := by
      intro c hc
      have hhead : c ∈ (left ++ lost).head? := head?_of_append hc
      rw [← hunsigned, List.head?_append_of_ne_nil _ h.whole_ne] at hhead
      exact h.whole_digits c (List.mem_of_mem_head? hhead)
    rw [Exhausts, bind_of_ok (eat_signChars n.negative hdigit)]
    rcases append_cases hunsigned with ⟨left, rfl, hparts⟩ | ⟨lost', hlost', hwhole⟩
    · have hend : ∀ c ∈ left.head?, c.isDigit = false := by
        intro c hc
        have hhead := fractionChars_end n.fraction (exponentChars_end n.exponent numberEnd_nil)
        rw [List.append_nil, hparts] at hhead
        exact hhead c (head?_of_append hc)
      rw [bind_of_ok (wholeDigits_append h.whole_ne h.whole_digits h.no_zero hend)]
      exact exhausts_parts h hparts hlost
    · refine (exhausts_wholeDigits h.whole_digits h.no_zero hwhole).bind fun whole hstart => ?_
      exact .inr ⟨_, rfl, rfl, hstart, nofun, nofun⟩
  · have hnil : left = [] := by
      cases hnegative : n.negative with
      | true =>
        rw [hnegative] at hsign
        have hsingle : left = [] ∧ lost' = ['-'] := by
          simpa [Numeral.signChars, List.singleton_eq_append_iff, hlost'] using hsign
        exact hsingle.1
      | false =>
        rw [hnegative] at hsign
        exact (List.nil_eq_append_iff.mp hsign).1
    subst hnil
    exact .inl rfl

end numeral
end Reader

namespace Numeral
variable {m n : Numeral}

/-- **What is left of a number is not too great for a double.** It has a smaller exponent than the
number, or one that no digits before it are too many for. -/
theorem Starts.isSome_toNumber? (h : m.Starts n) (hlen : n.whole.length ≤ 20)
    (hnumber : n.toNumber?.isSome) : m.toNumber?.isSome := by
  have hmlen : m.whole.length ≤ 20 := Nat.le_trans h.whole.length_le hlen
  cases hexponent : m.exponent with
  | none => exact isSome_toNumber?_of_le hmlen (by simp [hexponent])
  | some e =>
    obtain ⟨hwhole, hfraction, e', he', hle | hlt⟩ := h.exponent e hexponent
    · exact isSome_toNumber?_of_le hmlen (by simpa [hexponent] using hle)
    · have hdouble : (n.leading.approximate? n.negative).isSome :=
        isSome_of_wholeOr (Option.ne_none_iff_exists'.mpr ⟨e', he'⟩) hnumber
      have hdigits : m.leading.digits = n.leading.digits := by
        simp only [leading, hwhole, hfraction]
      have hsmaller : m.leading.exponent < n.leading.exponent := by
        simp only [leading, hwhole, hfraction, hexponent, Option.mem_def.mp he', Option.getD_some]
        omega
      rw [← h.negative_eq] at hdouble
      exact isSome_wholeOr
        (Decimal.isSome_approximate?_of_lt n.leading_digits_lt hdouble hdigits hsmaller)

/-- A whole number that is not negative is written without a sign and has no more than 64 bits. -/
theorem toWhole?_nonneg {w : Whole} (h : n.toWhole? = some w) (hw : 0 ≤ w.val) :
    n.negative = false ∧ digitsValue n.whole < 0x10000000000000000 := by
  unfold toWhole? at h
  simp only at h
  split at h
  · split at h
    · next hbounds =>
      obtain rfl := Option.some.inj h
      exact absurd hw (by simp only; omega)
    · cases h
  · next hnegative =>
    split at h
    · next hbound => exact ⟨by simpa using hnegative, hbound⟩
    · cases h

/-- What is left of a whole number that is not negative is one too. -/
theorem Starts.exists_whole (h : m.Starts n) {w : Whole} (hnumber : n.toNumber? = some (.whole w))
    (hw : 0 ≤ w.val) : ∃ v : Whole, m.toNumber? = some (.whole v) ∧ 0 ≤ v.val := by
  obtain ⟨hfraction, hexponent, hwhole⟩ := wholeOr_eq_whole hnumber
  obtain ⟨hnegative, hbound⟩ := toWhole?_nonneg hwhole hw
  have hmbound : digitsValue m.whole < 0x10000000000000000 :=
    Nat.lt_of_le_of_lt (digitsValue_le_of_start h.whole) hbound
  have hmfraction : m.fraction = none := by
    refine Option.eq_none_iff_forall_not_mem.mpr fun ds hds => ?_
    obtain ⟨es, hes, -⟩ := h.fraction ds hds
    rw [hfraction] at hes
    cases hes
  have hmexponent : m.exponent = none := by
    refine Option.eq_none_iff_forall_not_mem.mpr fun e he => ?_
    obtain ⟨-, -, e', he', -⟩ := h.exponent e he
    rw [hexponent] at he'
    cases he'
  refine ⟨⟨digitsValue m.whole, by omega, by omega⟩, ?_, Int.natCast_nonneg (digitsValue m.whole)⟩
  have hmwhole : m.toWhole? = some ⟨digitsValue m.whole, by omega, by omega⟩ := by
    have hpositive : ¬m.negative = true := by rw [h.negative_eq, hnegative]; decide
    rw [toWhole?, if_neg hpositive, dif_pos hmbound]
  rw [toNumber?, wholeOr, hmfraction, hmexponent, hmwhole]

end Numeral

/-- **Where the text of a number breaks off** a number is read, or none. It is a natural number if
the whole text is read as one. -/
theorem Reader.exhausts_number {n : Number} (h : n.text = left ++ lost) (hlost : lost ≠ []) :
    Exhausts number left fun m =>
      ∀ w : Whole, n.echo = .whole w → 0 ≤ w.val → ∃ v : Whole, m = .whole v ∧ 0 ≤ v.val := by
  obtain ⟨numeral, hproper, htext, hnumber, hlen⟩ := n.exists_toNumber?
  refine (exhausts_numeral hproper (htext.symm.trans h) hlost).bind fun m hstarts => ?_
  have hsome := hstarts.isSome_toNumber? hlen (Option.isSome_of_eq_some hnumber)
  obtain ⟨number, hm⟩ := Option.isSome_iff_exists.mp hsome
  rw [hm]
  refine exhausts_pure ?_
  intro w hecho hw
  obtain ⟨v, hv, hpos⟩ := hstarts.exists_whole (hnumber.trans (congrArg some hecho)) hw
  exact ⟨v, Option.some.inj (hm.symm.trans hv), hpos⟩

end PipelineCanvas.Json
