import PipelineCanvas.Proofs.Json.Trees
/-! # Tokens

The **tokens** of a JSON text are its brackets, commas and colons, and the literals, numbers and
strings between them. Which texts are tokens is said by the grammar: `StringToken`, `NumberToken`
and, of all that have no parts, `ScalarToken`.

By the grammar alone some tokens stand for nothing: numbers that are too great and strings with half
of a surrogate pair. Whether a token stands for something, and for what, depends on its letters and
not on the text around it (`settles_of_scalarToken`), so `meaning?`, `key?` and `number?` read a
token by itself. For strings this needs an induction on the length of the token, as a surrogate pair
takes two escapes at once; a string that breaks off the loop does so at the same escape in every
text (`Reader.Breaks`). For numbers it needs the text to go on with something that ends a number,
which all that may follow one does. -/
namespace PipelineCanvas.Json

/-- What may stand between the quotes of a string: characters for themselves and escapes. -/
inductive Letters : List Char → Prop
  /-- A string may be empty. -/
  | nil : Letters []
  /-- A character stands for itself, unless it is a quote, a backslash or a control character. -/
  | plain {c : Char} {cs : List Char} (quote : c ≠ '"') (slash : c ≠ '\\')
      (control : ¬c.toNat < 32) (h : Letters cs) : Letters (c :: cs)
  /-- Eight characters have a meaning behind a backslash. -/
  | escape {c : Char} {cs : List Char} (hc : c ∈ ['"', '\\', '/', 'b', 'f', 'n', 'r', 't'])
      (h : Letters cs) : Letters ('\\' :: c :: cs)
  /-- Four hexadecimal digits behind a backslash and a `u` are a code unit. -/
  | unit {hex cs : List Char} (length_eq : hex.length = 4)
      (digits : ∀ c ∈ hex, (Reader.hexValue? c).isSome) (h : Letters cs) :
      Letters ('\\' :: 'u' :: (hex ++ cs))

inductive StringToken : List Char → Prop
  | mk {cs : List Char} (h : Letters cs) : StringToken ('"' :: (cs ++ ['"']))

/-- The exponent of a number, if it has one. -/
inductive ExponentText : List Char → Prop
  /-- A number may have no exponent. -/
  | none : ExponentText []
  /-- An exponent has a mark, perhaps a sign, and digits. -/
  | some {mark : Char} {sign ds : List Char} (hmark : mark ∈ ['e', 'E'])
      (hsign : sign ∈ [[], ['+'], ['-']]) (ne_nil : ds ≠ [])
      (digits : ∀ c ∈ ds, c.isDigit = true) : ExponentText (mark :: (sign ++ ds))

inductive NumberToken : List Char → Prop
  | mk {negative : Bool} {whole exponent : List Char} {fraction : Option (List Char)}
      (whole_ne : whole ≠ []) (whole_digits : ∀ c ∈ whole, c.isDigit = true)
      (no_zero : 1 < whole.length → whole.head? ≠ some '0')
      (fraction_ne : ∀ ds ∈ fraction, ds ≠ [])
      (fraction_digits : ∀ ds ∈ fraction, ∀ c ∈ ds, c.isDigit = true)
      (hexponent : ExponentText exponent) :
      NumberToken (Numeral.signChars negative ++
        (whole ++ (Numeral.fractionChars fraction ++ exponent)))

/-- The token has the form of a value without parts. -/
inductive ScalarToken : List Char → Prop
  | null : ScalarToken ['n', 'u', 'l', 'l']
  | true : ScalarToken ['t', 'r', 'u', 'e']
  | false : ScalarToken ['f', 'a', 'l', 's', 'e']
  | string {token : List Char} (h : StringToken token) : ScalarToken token
  | number {token : List Char} (h : NumberToken token) : ScalarToken token

/-- What the reader makes of a token that is the whole text. -/
def Reader.alone? {α : Type} (r : Reader α) (token : List Char) : Option α :=
  match r token with
  | .ok (a, []) => some a
  | _ => none

/-- The value that a token stands for, if it stands for one. -/
def meaning? (token : List Char) : Option Json := (Reader.tree 0).alone? token

/-- The string that a token stands for as a key, if it stands for one. -/
def key? (token : List Char) : Option String := Reader.quoted.alone? token

/-- The number that a token stands for, if it stands for one. -/
def number? (token : List Char) : Option Number := Reader.number.alone? token

namespace Reader
variable {α β σ : Type} {cs cs' rest token : List Char}

/-! ### Failing -/

/-- The reader takes nothing off the text. -/
def Fails (r : Reader α) (cs : List Char) : Prop := ∀ p, r cs ≠ .ok p

theorem fails_error {r : Reader α} {fault : Fault} (h : r cs = .error fault) : Fails r cs := by
  intro p hp
  rw [h] at hp
  cases hp

theorem Fails.bind {r : Reader α} (h : Fails r cs) (f : α → Reader β) : Fails (r >>= f) cs := by
  rintro ⟨b, rest⟩ hp
  obtain ⟨a, cs', ha, -⟩ := bind_eq_ok_iff.mp hp
  exact h _ ha

theorem Fails.of_bind {r : Reader α} {a : α} (h : r cs = .ok (a, rest)) {f : α → Reader β}
    (hf : Fails (f a) rest) : Fails (r >>= f) cs := by
  intro p hp
  rw [bind_of_ok h] at hp
  exact hf p hp

theorem Fails.map {r : Reader α} (h : Fails r cs) (f : α → β) : Fails (f <$> r) cs := by
  rintro ⟨b, rest⟩ hp
  obtain ⟨a, ha, -⟩ := map_eq_ok_iff.mp hp
  exact h _ ha

/-- The rounds of a loop up to one that fails. -/
inductive Breaks (step : σ → Reader (σ ⊕ β)) : σ → List Char → Prop
  /-- The step fails. -/
  | here {s : σ} {cs : List Char} (h : Fails (step s) cs) : Breaks step s cs
  /-- The step asks for another round, and the loop breaks off in a later one. -/
  | go {s t : σ} {cs cs' : List Char} (h : step s cs = .ok (.inl t, cs'))
      (hbreaks : Breaks step t cs') : Breaks step s cs

/-- A loop that breaks off fails, whatever its budget. -/
theorem Breaks.loop {step : σ → Reader (σ ⊕ β)} {s : σ} (h : Breaks step s cs) :
    Fails (loop step s) cs := by
  suffices ∀ budget p, rounds step budget s cs ≠ .ok p from this cs
  induction h with
  | here h =>
    intro budget p hp
    cases budget with
    | nil => cases hp
    | cons c budget =>
      unfold rounds at hp
      split at hp
      · cases hp
      · next hstep => exact h _ hstep
      · next hstep => exact h _ hstep
  | go h _ ih =>
    intro budget p hp
    cases budget with
    | nil => cases hp
    | cons c budget =>
      rw [rounds_of_inl h] at hp
      exact ih budget p hp

/-- In every text that goes on behind it the reader takes the token for the value, or fails where
there is none. -/
def Settles (r : Reader α) (token : List Char) : Option α → Prop
  | some a => ∀ rest, NumberEnd rest → r (token ++ rest) = .ok (a, rest)
  | none => ∀ rest, NumberEnd rest → Fails r (token ++ rest)

theorem Settles.map {r : Reader α} {o : Option α} (h : Settles r token o) (f : α → β) :
    Settles (f <$> r) token (o.map f) := by
  cases o with
  | some a => exact fun rest hrest => map_of_ok (h rest hrest)
  | none => exact fun rest hrest => (h rest hrest).map f

theorem Settles.alone? {r : Reader α} {o : Option α} (h : Settles r token o) :
    r.alone? token = o := by
  unfold Reader.alone?
  cases o with
  | some a =>
    have hread : r (token ++ []) = .ok (a, []) := h [] numberEnd_nil
    rw [List.append_nil] at hread
    rw [hread]
  | none =>
    have hfails : Fails r (token ++ []) := h [] numberEnd_nil
    rw [List.append_nil] at hfails
    split
    · next hread => exact absurd hread (hfails _)
    · rfl

/-! ### Strings -/

theorem exists_escape {c : Char} (hc : c ∈ ['"', '\\', '/', 'b', 'f', 'n', 'r', 't'])
    (unicode : Reader Char) : ∃ d, ∀ rest, escape unicode (c :: rest) = .ok (d, rest) := by
  simp only [List.mem_cons, List.not_mem_nil, or_false] at hc
  rcases hc with rfl | rfl | rfl | rfl | rfl | rfl | rfl | rfl <;> exact ⟨_, fun _ => rfl⟩

theorem fails_expect {c d : Char} (h : c ≠ d) : Fails (expect d) (c :: cs) := by
  have hnext : next (c :: cs) = .ok (c, cs) := rfl
  refine .of_bind hnext ?_
  rw [if_pos h]
  exact fails_error rfl

theorem exists_hex4 {hex : List Char} (length_eq : hex.length = 4)
    (digits : ∀ c ∈ hex, (hexValue? c).isSome) :
    ∃ n, ∀ rest, hex4 (hex ++ rest) = .ok (n, rest) := by
  match hex, length_eq with
  | [a, b, c, d], _ =>
    simp only [List.forall_mem_cons, Option.isSome_iff_exists] at digits
    obtain ⟨⟨i, hi⟩, ⟨j, hj⟩, ⟨k, hk⟩, ⟨l, hl⟩, -⟩ := digits
    refine ⟨((i * 16 + j) * 16 + k) * 16 + l, fun rest => ?_⟩
    simp [hex4, hi, hj, hk, hl]

/-- Half of a surrogate pair needs another escape behind it. -/
theorem fails_codePoint_of_no_escape {n : Nat} {c : Char} (h : hex4 cs = .ok (n, c :: rest))
    (hhigh : 0xD800 ≤ n ∧ n ≤ 0xDBFF) (hc : c ≠ '\\') : Fails codePoint cs := by
  refine .of_bind h ?_
  rw [if_neg (by omega), if_pos hhigh]
  exact (fails_expect hc).bind _

theorem fails_codePoint_of_no_unit {n : Nat} {c : Char} (h : hex4 cs = .ok (n, '\\' :: c :: rest))
    (hhigh : 0xD800 ≤ n ∧ n ≤ 0xDBFF) (hc : c ≠ 'u') : Fails codePoint cs := by
  refine .of_bind h ?_
  rw [if_neg (by omega), if_pos hhigh]
  exact .of_bind (expect_cons '\\') ((fails_expect hc).bind _)

/-- The first half of a pair needs the second one right behind it. -/
theorem codePoint_pair {m n : Nat} (h : hex4 cs = .ok (m, '\\' :: 'u' :: cs'))
    (hhigh : 0xD800 ≤ m ∧ m ≤ 0xDBFF) (hlow : hex4 cs' = .ok (n, rest)) :
    codePoint cs = if 0xDC00 ≤ n ∧ n ≤ 0xDFFF then
        .ok (Char.ofNat ((m - 0xD800) * 0x400 + (n - 0xDC00) + 0x10000), rest)
      else .error .malformed := by
  rw [codePoint, bind_of_ok h, if_neg (by omega), if_pos hhigh, bind_of_ok (expect_cons '\\'),
    bind_of_ok (expect_cons 'u'), bind_of_ok hlow]
  split <;> rfl

/-- Behind a code unit there is a character to go on from in every text, or in none: the letters
decide. -/
theorem codePoint_letters {hex : List Char} (length_eq : hex.length = 4)
    (digits : ∀ c ∈ hex, (hexValue? c).isSome) (h : Letters cs) :
    (∃ d cs', Letters cs' ∧ cs'.length ≤ cs.length ∧
      ∀ rest, codePoint (hex ++ (cs ++ rest)) = .ok (d, cs' ++ rest)) ∨
    ∀ rest, Fails codePoint (hex ++ (cs ++ '"' :: rest)) := by
  obtain ⟨m, hm⟩ := exists_hex4 length_eq digits
  -- the second half of a pair is refused by itself, and the first half needs a second
  by_cases hlow : 0xDC00 ≤ m ∧ m ≤ 0xDFFF
  · refine .inr fun rest => .of_bind (hm _) ?_
    rw [if_pos hlow]
    exact fails_error rfl
  by_cases hhigh : 0xD800 ≤ m ∧ m ≤ 0xDBFF
  · cases h with
    | nil => exact .inr fun rest => fails_codePoint_of_no_escape (hm _) hhigh (by decide)
    | plain quote slash => exact .inr fun rest => fails_codePoint_of_no_escape (hm _) hhigh slash
    | escape hc =>
      refine .inr fun rest => fails_codePoint_of_no_unit (hm _) hhigh ?_
      rintro rfl
      exact absurd hc (by decide)
    | @unit hex' cs length_eq' digits' h =>
      obtain ⟨n, hn⟩ := exists_hex4 length_eq' digits'
      have hpair : ∀ rest, codePoint (hex ++ ('\\' :: 'u' :: (hex' ++ cs) ++ rest)) =
          if 0xDC00 ≤ n ∧ n ≤ 0xDFFF then
            .ok (Char.ofNat ((m - 0xD800) * 0x400 + (n - 0xDC00) + 0x10000), cs ++ rest)
          else .error .malformed := by
        intro rest
        rw [List.cons_append, List.cons_append, List.append_assoc]
        exact codePoint_pair (hm _) hhigh (hn _)
      by_cases hsecond : 0xDC00 ≤ n ∧ n ≤ 0xDFFF
      · simp only [if_pos hsecond] at hpair
        refine .inl ⟨_, cs, h, ?_, hpair⟩
        simp only [List.length_cons, List.length_append]
        omega
      · simp only [if_neg hsecond] at hpair
        exact .inr fun rest => fails_error (hpair _)
  · refine .inl ⟨Char.ofNat m, cs, h, Nat.le_refl _, fun rest => ?_⟩
    rw [codePoint, bind_of_ok (hm _), if_neg hlow, if_neg hhigh, pure_apply]

/-- What stands between the quotes is read in full, whatever is behind, or it is never read. -/
def LettersSettle (read cs : List Char) : Prop :=
  (∃ s, ∀ rest, Rounds (stringStep codePoint) read (cs ++ '"' :: rest) s rest) ∨
    ∀ rest, Breaks (stringStep codePoint) read (cs ++ '"' :: rest)

/-- A character that is taken off the letters settles nothing by itself. -/
theorem LettersSettle.step {read : List Char} {c : Char} (hlt : cs'.length < cs.length)
    (hstep : ∀ rest, stringStep codePoint read (cs ++ rest) = .ok (.inl (c :: read), cs' ++ rest))
    (h : LettersSettle (c :: read) cs') : LettersSettle read cs := by
  rcases h with ⟨s, hs⟩ | h
  · refine .inl ⟨s, fun rest => .go ?_ (hstep _) (hs rest)⟩
    simp only [List.length_append]
    omega
  · exact .inr fun rest => .go (hstep _) (h rest)

theorem stringStep_unit {c : Char} (h : codePoint cs = .ok (c, rest)) (read : List Char) :
    stringStep codePoint read ('\\' :: 'u' :: cs) = .ok (.inl (c :: read), rest) :=
  stringStep_escape read h

theorem fails_stringStep_unit (h : Fails codePoint cs) (read : List Char) :
    Fails (stringStep codePoint read) ('\\' :: 'u' :: cs) := by
  have hnext : next ('\\' :: 'u' :: cs) = .ok ('\\', 'u' :: cs) := rfl
  refine .of_bind hnext ?_
  rw [if_neg (by decide), if_pos rfl]
  have hescape : Fails (escape codePoint) ('u' :: cs) := h
  exact hescape.bind _

/-- The letters of a string settle whether it is read. -/
theorem lettersSettle (h : Letters cs) (read : List Char) : LettersSettle read cs := by
  -- a surrogate pair takes two escapes at once, so the induction is on the length
  induction hn : cs.length using Nat.strong_induction_on generalizing cs read with
  | _ n ih =>
    subst hn
    cases h with
    | nil => exact .inl ⟨_, fun rest => .stop (List.cons_ne_nil _ _) rfl⟩
    | @plain c cs quote slash control h =>
      have hlt : cs.length < (c :: cs).length := Nat.lt_succ_self _
      exact .step hlt (fun rest => stringStep_plain read quote slash control) (ih _ hlt h _ rfl)
    | @escape c cs hc h =>
      obtain ⟨d, hd⟩ := exists_escape hc codePoint
      have hlt : cs.length < ('\\' :: c :: cs).length := by simp only [List.length_cons]; omega
      exact .step hlt (fun rest => stringStep_escape read (hd _)) (ih _ hlt h _ rfl)
    | @unit hex cs length_eq digits h =>
      rcases codePoint_letters length_eq digits h with ⟨d, cs', h', hle, hpoint⟩ | hfails
      · have hlt : cs'.length < ('\\' :: 'u' :: (hex ++ cs)).length := by
          simp only [List.length_cons, List.length_append]
          omega
        refine .step hlt (fun rest => ?_) (ih _ hlt h' (d :: read) rfl)
        rw [List.cons_append, List.cons_append, List.append_assoc]
        exact stringStep_unit (hpoint rest) read
      · refine .inr fun rest => .here ?_
        rw [List.cons_append, List.cons_append, List.append_assoc]
        exact fails_stringStep_unit (hfails rest) read

/-- A string token is a string in every text, or in none. -/
theorem exists_settles_quoted (h : StringToken token) : ∃ o, quoted.Settles token o := by
  obtain ⟨h⟩ := h
  rcases lettersSettle h [] with ⟨s, hs⟩ | hbreaks
  · refine ⟨some s, fun rest _ => ?_⟩
    rw [List.cons_append, List.append_assoc, quoted, quotedWith, bind_of_ok (expect_cons '"')]
    exact (hs rest).loop
  · refine ⟨none, fun rest _ => ?_⟩
    rw [List.cons_append, List.append_assoc]
    exact .of_bind (expect_cons '"') (hbreaks rest).loop

/-! ### Numbers -/

/-- A sign is no digit, so without one the digits begin. -/
theorem eat_sign_append {sign : Char} (hsign : sign.isDigit = false) {ds : List Char}
    (ne_nil : ds ≠ []) (digits : ∀ c ∈ ds, c.isDigit = true) :
    eat [sign] (ds ++ rest) = .ok (false, ds ++ rest) := by
  refine eat_of_not_mem fun c hc hmem => ?_
  rw [List.head?_append_of_ne_nil _ ne_nil] at hc
  have hdigit := digits c (List.mem_of_mem_head? hc)
  rw [List.mem_singleton.mp hmem, hsign] at hdigit
  cases hdigit

/-- An exponent is read with any sign or none. -/
theorem exists_exponent {sign ds : List Char} (hsign : sign ∈ [[], ['+'], ['-']]) (ne_nil : ds ≠ [])
    (digits : ∀ c ∈ ds, c.isDigit = true) :
    ∃ e, ∀ {rest}, NumberEnd rest → exponent (sign ++ (ds ++ rest)) = .ok (e, rest) := by
  have hdigits : ∀ {rest}, NumberEnd rest → Reader.digits (ds ++ rest) = .ok (ds, rest) :=
    fun hrest => digits_append ne_nil digits fun c hc => (hrest c hc).1
  simp only [List.mem_cons, List.not_mem_nil, or_false] at hsign
  obtain rfl | rfl | rfl := hsign
  · refine ⟨digitsValue ds, fun {rest} hrest => ?_⟩
    have hplus : (discard (eat ['+']) : Reader Unit) (ds ++ rest) = .ok ((), ds ++ rest) :=
      map_of_ok (eat_sign_append rfl ne_nil digits)
    rw [List.nil_append, exponent, bind_of_ok (eat_sign_append rfl ne_nil digits),
      if_neg (by decide), bind_of_ok hplus, bind_of_ok (hdigits hrest), pure_apply]
  · refine ⟨digitsValue ds, fun {rest} hrest => ?_⟩
    have hminus : eat ['-'] ('+' :: (ds ++ rest)) = .ok (false, '+' :: (ds ++ rest)) :=
      eat_of_not_mem (by rintro c ⟨⟩; decide)
    have hplus : (discard (eat ['+']) : Reader Unit) ('+' :: (ds ++ rest)) =
        .ok ((), ds ++ rest) :=
      map_of_ok (eat_of_mem List.mem_cons_self)
    rw [List.cons_append, List.nil_append, exponent, bind_of_ok hminus, if_neg (by decide),
      bind_of_ok hplus, bind_of_ok (hdigits hrest), pure_apply]
  · refine ⟨-(digitsValue ds), fun {rest} hrest => ?_⟩
    rw [List.cons_append, List.nil_append, exponent, bind_of_ok (eat_of_mem List.mem_cons_self),
      if_pos rfl, bind_of_ok (hdigits hrest), pure_apply]

theorem exists_exponentPart (h : ExponentText cs) :
    ∃ e, ∀ {rest}, NumberEnd rest → exponentPart (cs ++ rest) = .ok (e, rest) := by
  cases h with
  | none => exact ⟨none, exponentPart_append none⟩
  | some hmark hsign ne_nil digits =>
    obtain ⟨e, he⟩ := exists_exponent hsign ne_nil digits
    refine ⟨some e, fun {rest} hrest => ?_⟩
    rw [List.cons_append, List.append_assoc, exponentPart, bind_of_ok (eat_of_mem hmark),
      if_pos rfl]
    exact map_of_ok (he hrest)

/-- What stands behind the digits of a fraction does not go on with these. -/
theorem exponentText_end (h : ExponentText cs) (hrest : NumberEnd rest) :
    ∀ c ∈ (cs ++ rest).head?, c.isDigit = false ∧ c ≠ '.' := by
  intro c hc
  cases h with
  | none => exact ⟨(hrest c hc).1, (hrest c hc).2.1⟩
  | some hmark =>
    cases hc
    simp only [List.mem_cons, List.not_mem_nil, or_false] at hmark
    rcases hmark with rfl | rfl <;> exact ⟨by decide, by decide⟩

/-- **Every number of the grammar is a numeral**, whatever ends it. -/
theorem exists_numeral (h : NumberToken token) :
    ∃ n, ∀ {rest}, NumberEnd rest → numeral (token ++ rest) = .ok (n, rest) := by
  obtain @⟨negative, whole, exp, fraction, hne, hdigits, hzero, hfrac, hfracDigits, hexp⟩ := h
  obtain ⟨e, he⟩ := exists_exponentPart hexp
  refine ⟨⟨negative, whole, fraction, e⟩, fun {rest} hrest => ?_⟩
  have hexpEnd := exponentText_end hexp hrest
  have hfraction : fractionPart (Numeral.fractionChars fraction ++ _) = .ok (fraction, _) :=
    fractionPart_append hfrac hfracDigits hexpEnd
  have hwhole : wholeDigits (whole ++ _) = .ok (whole, _) :=
    wholeDigits_append hne hdigits hzero (fractionChars_end fraction hexpEnd)
  have hdigit : ∀ c ∈ (whole ++ (Numeral.fractionChars fraction ++
      (exp ++ rest))).head?, c.isDigit = true := by
    intro c hc
    rw [List.head?_append_of_ne_nil _ hne] at hc
    exact hdigits c (List.mem_of_mem_head? hc)
  rw [List.append_assoc, List.append_assoc, List.append_assoc, numeral,
    bind_of_ok (eat_signChars negative hdigit), bind_of_ok hwhole, bind_of_ok hfraction,
    bind_of_ok (he hrest)]
  rfl

/-- A number token is a number in every text, or too great for one in every text. -/
theorem exists_settles_number (h : NumberToken token) : ∃ o, number.Settles token o := by
  obtain ⟨n, hn⟩ := exists_numeral h
  cases hnumber : n.toNumber? with
  | some number =>
    refine ⟨some number, fun rest hrest => ?_⟩
    rw [Reader.number, bind_of_ok (hn hrest), hnumber]
    rfl
  | none =>
    refine ⟨none, fun rest hrest => .of_bind (hn hrest) ?_⟩
    rw [hnumber]
    exact fails_error rfl

/-! ### Scalars -/

theorem settles_word {w : List Char} (f : Unit → α) : (f <$> word w).Settles w (some (f ())) :=
  fun _ _ => map_of_ok (word_append w)

theorem settles_treeOver {leaves : Leaves} {inner : Option (Reader Json)} {c : Char}
    {o : Option Json} (hblank : isBlank c = false) (hparts : c ≠ '[' ∧ c ≠ '\x7b')
    (h : (scalar leaves c).Settles (c :: cs) o) : (treeOver leaves inner).Settles (c :: cs) o := by
  have htree : ∀ rest,
      treeOver leaves inner (c :: cs ++ rest) = scalar leaves c (c :: cs ++ rest) := by
    intro rest
    have hpeek : peekToken (c :: cs ++ rest) = .ok (c, c :: cs ++ rest) := peekToken_cons hblank
    rw [treeOver, bind_of_ok hpeek]
    split
    · exact absurd rfl hparts.1
    · exact absurd rfl hparts.2
    · rfl
  cases o with
  | some t => exact fun rest hrest => (htree rest).trans (h rest hrest)
  | none =>
    intro rest hrest p hp
    rw [htree] at hp
    exact h rest hrest p hp

end Reader

open Reader
variable {token : List Char}

theorem NumberToken.exists_cons (h : NumberToken token) :
    ∃ c cs, token = c :: cs ∧ (c = '-' ∨ c.isDigit = true) := by
  obtain @⟨negative, whole, exp, fraction, hne, hdigits, -, -, -, -⟩ := h
  obtain ⟨d, ds, rfl⟩ := List.exists_cons_of_ne_nil hne
  cases negative with
  | true => exact ⟨'-', _, rfl, .inl rfl⟩
  | false => exact ⟨d, _, rfl, .inr (hdigits d List.mem_cons_self)⟩

theorem settles_treeOver_string {leaves : Leaves} {o : Option String} (h : StringToken token)
    (ho : leaves.string.Settles token o) (inner : Option (Reader Json)) :
    (treeOver leaves inner).Settles token (o.map Json.string) := by
  obtain ⟨h⟩ := h
  exact settles_treeOver (by decide) (by decide) (ho.map Json.string)

theorem settles_treeOver_number {leaves : Leaves} {o : Option Json} (h : NumberToken token)
    (ho : leaves.number.Settles token o) (inner : Option (Reader Json)) :
    (treeOver leaves inner).Settles token o := by
  obtain ⟨c, cs, rfl, hc⟩ := h.exists_cons
  cases o with
  | some n => exact fun rest hrest => (treeOver_number hc (cs ++ rest)).trans (ho rest hrest)
  | none =>
    intro rest hrest p hp
    exact ho rest hrest p ((treeOver_number hc (cs ++ rest)).symm.trans hp)

/-- **A token stands for the same in every text**, at every depth, or for nothing in every text. -/
theorem settles_of_scalarToken (h : ScalarToken token)
    (inner : Option (Reader Json)) : (treeOver .exact inner).Settles token (meaning? token) := by
  suffices ∃ o, ∀ inner, (treeOver .exact inner).Settles token o by
    obtain ⟨o, ho⟩ := this
    have hmeaning : meaning? token = o := (ho none).alone?
    rw [hmeaning]
    exact ho inner
  cases h with
  | null => exact ⟨_, fun _ => settles_treeOver (by decide) (by decide) (settles_word _)⟩
  | true => exact ⟨_, fun _ => settles_treeOver (by decide) (by decide) (settles_word _)⟩
  | false => exact ⟨_, fun _ => settles_treeOver (by decide) (by decide) (settles_word _)⟩
  | string h =>
    obtain ⟨o, ho⟩ := exists_settles_quoted h
    exact ⟨_, settles_treeOver_string h ho⟩
  | number h =>
    obtain ⟨o, ho⟩ := exists_settles_number h
    exact ⟨_, settles_treeOver_number h (ho.map Json.number)⟩

/-- A key stands for the same in every text, or for nothing in every text. -/
theorem settles_of_stringToken (h : StringToken token) : quoted.Settles token (key? token) := by
  obtain ⟨o, ho⟩ := exists_settles_quoted h
  have hkey : key? token = o := ho.alone?
  rwa [hkey]

/-- A number token stands for the same in every text, or for nothing in every text. -/
theorem settles_of_numberToken (h : NumberToken token) :
    Reader.number.Settles token (number? token) := by
  obtain ⟨o, ho⟩ := exists_settles_number h
  have hnumber : number? token = o := ho.alone?
  rwa [hnumber]

/-- A string stands for the same as a value and as a key. -/
theorem meaning?_of_stringToken (h : StringToken token) :
    meaning? token = Json.string <$> key? token := by
  have hsettles : (treeOver .exact none).Settles token ((key? token).map Json.string) :=
    settles_treeOver_string h (settles_of_stringToken h) none
  exact hsettles.alone?

/-- A number stands for what is read from it by itself. -/
theorem meaning?_of_numberToken (h : NumberToken token) :
    meaning? token = Json.number <$> number? token := by
  have hsettles : (treeOver .exact none).Settles token ((number? token).map Json.number) :=
    settles_treeOver_number h ((settles_of_numberToken h).map Json.number) none
  exact hsettles.alone?

theorem StringToken.beginsMember (h : StringToken token) : BeginsMember token := by
  obtain ⟨h⟩ := h
  exact ⟨_, rfl⟩

/-- No scalar is taken for the end of an array. -/
theorem ScalarToken.beginsItem (h : ScalarToken token) : BeginsItem token := by
  cases h with
  | null => exact ⟨'n', _, rfl, by decide, by decide⟩
  | true => exact ⟨'t', _, rfl, by decide, by decide⟩
  | false => exact ⟨'f', _, rfl, by decide, by decide⟩
  | string h =>
    obtain ⟨tail, rfl⟩ := h.beginsMember
    exact ⟨'"', tail, rfl, by decide, by decide⟩
  | number h =>
    obtain ⟨c, cs, rfl, hc⟩ := h.exists_cons
    refine ⟨c, cs, rfl, isBlank_of_numberStart hc, ?_⟩
    rintro rfl
    exact absurd hc (by decide)

end PipelineCanvas.Json
