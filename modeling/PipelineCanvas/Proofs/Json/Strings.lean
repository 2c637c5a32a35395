import Mathlib.Tactic.SplitIfs
import PipelineCanvas.Json.Quoted
import PipelineCanvas.Proofs.Json.Reading
/-! # Strings come back from their texts

What `quote` writes for a character is one round of the loop that reads a string, and this round
takes exactly that character (`Reader.stringStep_quotedChar`). There are three ways to write one: by
an escape of two characters, by its code unit in hexadecimal digits, or as it is. Only control
characters are written in the second way, so the writer never has to form a surrogate pair. That a
whole string comes back follows by induction on its characters (`Reader.quoted_quote`). -/
namespace PipelineCanvas.Json.Reader
variable {rest : List Char}

/-! ### Code units -/

theorem hexValue?_digitChar {d : Nat} (h : d < 16) : hexValue? (Nat.digitChar d) = some d := by
  decide +revert

/-- Four hexadecimal digits are read as the number that they were written for. -/
theorem hex4_hexDigits {n : Nat} (h : n < 0x10000) :
    hex4 (hexDigits n ++ rest) = .ok (n, rest) := by
  have hvalues : (hexDigits n).mapM hexValue? =
      some [n / 4096 % 16, n / 256 % 16, n / 16 % 16, n % 16] := by
    simp [hexDigits, hexValue?_digitChar, Nat.mod_lt]
  have htake : (hexDigits n ++ rest).take 4 = hexDigits n := rfl
  have hdrop : (hexDigits n ++ rest).drop 4 = rest := rfl
  unfold hex4
  rw [htake, hvalues, hdrop]
  show Except.ok
    ((((n / 4096 % 16) * 16 + n / 256 % 16) * 16 + n / 16 % 16) * 16 + n % 16, rest) = _
  rw [show ((n / 4096 % 16 * 16 + n / 256 % 16) * 16 + n / 16 % 16) * 16 + n % 16 = n by omega]

/-- A code unit that is not half of a pair is a character. -/
theorem codePoint_hexDigits {n : Nat} (h : n < 0xD800) :
    codePoint (hexDigits n ++ rest) = .ok (Char.ofNat n, rest) := by
  rw [codePoint, bind_of_ok (hex4_hexDigits (by omega)), if_neg (by omega), if_neg (by omega),
    pure_apply]

/-! ### Characters -/

/-- An escape is one round of the loop, whichever reader of code units is asked. -/
theorem stringStep_escape {unicode : Reader Char} {c : Char} {cs : List Char} (read : List Char)
    (h : escape unicode cs = .ok (c, rest)) :
    stringStep unicode read ('\\' :: cs) = .ok (.inl (c :: read), rest) := by
  have hnext : next ('\\' :: cs) = .ok ('\\', cs) := rfl
  rw [stringStep, bind_of_ok hnext, if_neg (by decide), if_pos rfl, bind_of_ok h, pure_apply]

/-- A character that stands for itself is one round of the loop. -/
theorem stringStep_plain {unicode : Reader Char} {c : Char} (read : List Char) (hquote : c ≠ '"')
    (hslash : c ≠ '\\') (hcontrol : ¬c.toNat < 32) :
    stringStep unicode read (c :: rest) = .ok (.inl (c :: read), rest) := by
  have hnext : next (c :: rest) = .ok (c, rest) := rfl
  rw [stringStep, bind_of_ok hnext, if_neg hquote, if_neg hslash, if_neg hcontrol, pure_apply]

/-- **Every character is read in one round**, however it is written. -/
theorem stringStep_quotedChar (c : Char) (read : List Char) :
    stringStep codePoint read (quotedChar c ++ rest) = .ok (.inl (c :: read), rest) := by
  unfold quotedChar
  split
  · next h =>
    subst h
    exact stringStep_escape read rfl
  split
  · next h =>
    subst h
    exact stringStep_escape read rfl
  split
  · next h =>
    -- the two that have no literal are told by their numbers
    obtain rfl : c = Char.ofNat 8 := by rw [← h, Char.ofNat_toNat]
    exact stringStep_escape read rfl
  split
  · next h =>
    obtain rfl : c = Char.ofNat 12 := by rw [← h, Char.ofNat_toNat]
    exact stringStep_escape read rfl
  split
  · next h =>
    subst h
    exact stringStep_escape read rfl
  split
  · next h =>
    subst h
    exact stringStep_escape read rfl
  split
  · next h =>
    subst h
    exact stringStep_escape read rfl
  split
  · next h =>
    have hunit : codePoint (hexDigits c.toNat ++ rest) = .ok (c, rest) := by
      rw [codePoint_hexDigits (by omega), Char.ofNat_toNat]
    exact stringStep_escape read hunit
  · next hquote hslash _ _ _ _ _ hcontrol => exact stringStep_plain read hquote hslash hcontrol

theorem quotedChar_ne_nil (c : Char) : quotedChar c ≠ [] := by
  unfold quotedChar
  split_ifs <;> simp

/-! ### Strings -/

/-- The rounds for the characters come one after the other, up to the closing quote. -/
theorem rounds_quotedChars (chars read : List Char) :
    Rounds (stringStep codePoint) read (chars.flatMap quotedChar ++ '"' :: rest)
      (String.ofList (read.reverse ++ chars)) rest := by
  induction chars generalizing read with
  | nil =>
    have hstop : stringStep codePoint read ('"' :: rest) =
        .ok (.inr (String.ofList read.reverse), rest) := rfl
    rw [List.append_nil]
    exact .stop (List.cons_ne_nil _ _) hstop
  | cons c chars ih =>
    rw [List.flatMap_cons, List.append_assoc]
    refine .go ?_ (stringStep_quotedChar c read) ?_
    · have hpos := List.length_pos_iff.mpr (quotedChar_ne_nil c)
      simp only [List.length_append]
      omega
    · have hrounds := ih (c :: read)
      rwa [List.reverse_cons, List.append_assoc] at hrounds

/-- **Every string is read off its text.** -/
theorem quoted_quote (s : String) : quoted (quote s ++ rest) = .ok (s, rest) := by
  have hrounds : Rounds (stringStep codePoint) [] (s.toList.flatMap quotedChar ++ '"' :: rest)
      (String.ofList s.toList) rest := rounds_quotedChars s.toList []
  rw [String.ofList_toList] at hrounds
  rw [quote, List.append_assoc, List.cons_append, quoted, quotedWith, bind_of_ok (expect_cons '"')]
  exact hrounds.loop

end PipelineCanvas.Json.Reader
