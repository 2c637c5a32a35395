import PipelineCanvas.Proofs.Json.BrokenTokens
import PipelineCanvas.Proofs.Json.Filling
import PipelineCanvas.Proofs.Json.Layouts
/-! # Texts that break off

A text is given that the writer has made, and of which only the beginning is left. This file says
what the readers of values make of what is left, and shows by and by that none takes it for a value
that is complete, where the value needs a closing bracket.

The text as a whole is described by `Written`: it consists of tokens as they are written, in any
order. A reader that starts at one of these tokens is **robust** (`Reader.Robust`), which says that
it comes to one of three outcomes (`Reader.Outcome`). It reads what it reads in the whole text; or
it fails, because the text has ended or as it fails on the whole text; or it comes to the end of
what is left with a value in its hands. The third can only happen with a number, in which the text
breaks off. A reader to which it cannot happen is `Reader.Firm`, and it is `Reader.Loose` if there
is nothing to be said of the value. Readers that follow one another keep these properties
(`Reader.Robust.bind`): behind a loose reader at the end of the text the next one finds nothing. So
an array or an object is firm although what stands in it is loose, since a bracket has to come
(`Brackets.Robust.collect`, `Brackets.Robust.pass`). -/
namespace PipelineCanvas.Json
open Reader

/-! ### Written texts -/

/-- The three words of the grammar. -/
def literals : List (List Char) :=
  [['n', 'u', 'l', 'l'], ['t', 'r', 'u', 'e'], ['f', 'a', 'l', 's', 'e']]

/-- Brackets, comma and colon, which are tokens by themselves, and blanks. -/
def singles : List Char := ['[', ']', '\x7b', '\x7d', ',', ':', ' ', '\t', '\n', '\r']

/-- Tokens as they are written, in any order and with blanks anywhere among them. -/
inductive Written : List Char → Prop
  /-- Nothing is written. -/
  | nil : Written []
  /-- A bracket, a comma, a colon or a blank is. -/
  | single {c : Char} {cs : List Char} (hc : c ∈ singles) (h : Written cs) : Written (c :: cs)
  /-- A word is. -/
  | literal {w cs : List Char} (hw : w ∈ literals) (h : Written cs) : Written (w ++ cs)
  /-- A string is, between its quotes. -/
  | string {cs : List Char} (s : String) (h : Written cs) : Written (quote s ++ cs)
  /-- A number is, with nothing behind it that could belong to it. -/
  | number {cs : List Char} (n : Number) (hend : NumberEnd cs) (h : Written cs) :
    Written (n.text ++ cs)

namespace Written
variable {c : Char} {cs ws w : List Char}

/-- What a text goes on with is told by its first character. -/
theorem cons_cases (h : Written (c :: cs)) :
    (c ∈ singles ∧ Written cs) ∨
      (c ∈ ['n', 't', 'f'] ∧ ∃ w ∈ literals, ∃ rest, c :: cs = w ++ rest ∧ Written rest) ∨
      (c = '"' ∧ ∃ s rest, c :: cs = quote s ++ rest ∧ Written rest) ∨
      ((c = '-' ∨ c.isDigit = true) ∧
        ∃ n rest, c :: cs = Number.text n ++ rest ∧ NumberEnd rest ∧ Written rest) := by
  generalize hu : c :: cs = u at h
  cases h with
  | nil => cases hu
  | single hc h =>
    obtain ⟨rfl, rfl⟩ := List.cons.inj hu
    exact .inl ⟨hc, h⟩
  | @literal w rest hw h =>
    refine .inr (.inl ⟨?_, w, hw, rest, rfl, h⟩)
    simp only [literals, List.mem_cons, List.not_mem_nil, or_false] at hw
    rcases hw with rfl | rfl | rfl <;> · obtain ⟨rfl, -⟩ := List.cons.inj hu; decide
  | @string rest s h =>
    obtain ⟨rfl, -⟩ := List.cons.inj hu
    exact .inr (.inr (.inl ⟨rfl, s, rest, rfl, h⟩))
  | @number rest n hend h =>
    obtain ⟨d, ds, htext, hd⟩ := n.text_eq_cons
    have hcons : c :: cs = d :: (ds ++ rest) := by rw [hu, htext, List.cons_append]
    obtain ⟨rfl, -⟩ := List.cons.inj hcons
    exact .inr (.inr (.inr ⟨hd, n, rest, rfl, hend, h⟩))

theorem of_single (h : Written (c :: cs)) (hc : c ∈ singles) : Written cs := by
  have hfirst : ∀ c ∈ singles, c ∉ ['n', 't', 'f'] ∧ c ≠ '"' ∧ ¬(c = '-' ∨ c.isDigit = true) := by
    simp [singles]
  obtain ⟨hliteral, hquote, hnumber⟩ := hfirst c hc
  rcases h.cons_cases with ⟨-, h⟩ | ⟨hc, -⟩ | ⟨hc, -⟩ | ⟨hc, -⟩
  · exact h
  · exact absurd hc hliteral
  · exact absurd hc hquote
  · exact absurd hc hnumber

/-- A text that begins as a word does begins with all of the word. -/
theorem exists_literal (h : Written (c :: cs)) (hw : w ∈ literals) (hhead : w.head? = some c) :
    ∃ rest, c :: cs = w ++ rest ∧ Written rest := by
  have hfirst : ∀ w ∈ literals, ∀ c ∈ w.head?, c ∉ singles ∧ c ≠ '"' ∧
      ¬(c = '-' ∨ c.isDigit = true) := by simp [literals, singles]
  have hsame : ∀ w ∈ literals, ∀ v ∈ literals, w.head? = v.head? → w = v := by decide
  obtain ⟨hsingle, hquote, hnumber⟩ := hfirst w hw c hhead
  rcases h.cons_cases with ⟨hc, -⟩ | ⟨-, v, hv, rest, heq, h⟩ | ⟨hc, -⟩ | ⟨hc, -⟩
  · exact absurd hc hsingle
  · obtain rfl : w = v := by
      refine hsame w hw v hv ?_
      have hne : v ≠ [] := by
        rintro rfl
        exact absurd hv (by decide)
      rw [hhead, ← List.head?_append_of_ne_nil v hne, ← heq]
      rfl
    exact ⟨rest, heq, h⟩
  · exact absurd hc hquote
  · exact absurd hc hnumber

/-- A text that begins with a quote begins with a string. -/
theorem exists_string (h : Written ('"' :: cs)) :
    ∃ s rest, '"' :: cs = quote s ++ rest ∧ Written rest := by
  rcases h.cons_cases with ⟨hc, -⟩ | ⟨hc, -⟩ | ⟨-, h⟩ | ⟨hc, -⟩
  · exact absurd hc (by decide)
  · exact absurd hc (by decide)
  · exact h
  · exact absurd hc (by decide)

/-- A text that begins with a sign or a digit begins with a number. -/
theorem exists_number (h : Written (c :: cs)) (hc : c = '-' ∨ c.isDigit = true) :
    ∃ n rest, c :: cs = Number.text n ++ rest ∧ NumberEnd rest ∧ Written rest := by
  have hsingles : ∀ c ∈ singles, ¬(c = '-' ∨ c.isDigit = true) := by simp [singles]
  have hliterals : ∀ c ∈ ['n', 't', 'f'], ¬(c = '-' ∨ c.isDigit = true) := by simp
  rcases h.cons_cases with ⟨hsingle, -⟩ | ⟨hliteral, -⟩ | ⟨rfl, -⟩ | ⟨-, h⟩
  · exact absurd hc (hsingles c hsingle)
  · exact absurd hc (hliterals c hliteral)
  · exact absurd hc (by decide)
  · exact h

theorem mem_singles_of_isBlank (hc : isBlank c = true) : c ∈ singles := by
  simp only [isBlank, Bool.or_eq_true, beq_iff_eq] at hc
  rcases hc with ((rfl | rfl) | rfl) | rfl <;> decide

theorem append_blank (hws : Blank ws) (h : Written cs) : Written (ws ++ cs) := by
  induction ws with
  | nil => exact h
  | cons c ws ih =>
    obtain ⟨hc, hws⟩ := List.forall_mem_cons.mp hws
    exact .single (mem_singles_of_isBlank hc) (ih hws)

theorem dropWhile_isBlank (h : Written cs) : Written (cs.dropWhile isBlank) := by
  induction cs with
  | nil => exact h
  | cons c cs ih =>
    rw [List.dropWhile_cons]
    split
    · next hc => exact ih (h.of_single (mem_singles_of_isBlank hc))
    · exact h

end Written

/-! ### Written trees -/

/-- A text is written if it begins with the tokens and goes on, behind a comma or a bracket, as a
written text. -/
def WritesTokens (tokens : List (List Char)) : Prop :=
  ∀ later cs, MayFollow later → (∀ rest, Spaced later rest → Written rest) →
    Spaced (tokens ++ later) cs → Written cs

section trees
variable {cs : List Char} {later : List (List Char)} {parts : List (List (List Char))}

theorem written_of_spaced_nil (h : Spaced [] cs) : Written cs := by
  have hwritten := Written.append_blank h.blank .nil
  rwa [List.append_nil] at hwritten

theorem written_single {c : Char} (hc : c ∈ singles) (h : ∀ rest, Spaced later rest → Written rest)
    (hcs : Spaced ([c] :: later) cs) : Written cs := by
  obtain ⟨ws, rest, hws, hrest, rfl⟩ := hcs.exists_cons
  exact .append_blank hws (.single hc (h rest hrest))

theorem written_string (s : String) (h : ∀ rest, Spaced later rest → Written rest)
    (hcs : Spaced (quote s :: later) cs) : Written cs := by
  obtain ⟨ws, rest, hws, hrest, rfl⟩ := hcs.exists_cons
  exact .append_blank hws (.string s (h rest hrest))

theorem writesTokens_literal {w : List Char} (hw : w ∈ literals) : WritesTokens [w] := by
  intro later cs _ h hcs
  obtain ⟨ws, rest, hws, hrest, rfl⟩ := hcs.exists_cons
  exact .append_blank hws (.literal hw (h rest hrest))

/-- A number is written where a comma or a bracket follows it. -/
theorem writesTokens_number (n : Number) : WritesTokens [n.text] := by
  intro later cs hfollow h hcs
  obtain ⟨ws, rest, hws, hrest, rfl⟩ := hcs.exists_cons
  exact .append_blank hws (.number n (hrest.numberEnd hfollow) (h rest hrest))

/-- Parts between brackets are written if each of them is. -/
theorem writesTokens_bracketed {b : Brackets} {Begins : List Char → Prop}
    (hb : b.EnclosesSpaced Begins) (hparts : ∀ part ∈ parts, WritesTokens part) (first : Bool)
    (h : ∀ rest, Spaced later rest → Written rest)
    (hcs : Spaced (Brackets.partTokens first parts ++ [b.closing] :: later) cs) : Written cs := by
  have hclosing : b.closing ∈ singles := by
    have hcloses := hb.closes
    simp only [List.mem_cons, List.not_mem_nil, or_false, List.cons.injEq, and_true] at hcloses
    rcases hcloses with heq | heq | heq <;> rw [heq] <;> decide
  induction parts generalizing first cs with
  | nil =>
    rw [Brackets.partTokens_nil] at hcs
    exact written_single hclosing h hcs
  | cons part parts ih =>
    obtain ⟨hpart, hparts⟩ := List.forall_mem_cons.mp hparts
    have hrest : ∀ cs,
        Spaced (part ++ (Brackets.partTokens false parts ++ [b.closing] :: later)) cs →
          Written cs := fun cs =>
      hpart _ cs (hb.mayFollow parts) fun rest hrest => ih hparts false hrest
    cases first with
    | true =>
      rw [Brackets.partTokens, withCommas, List.append_assoc] at hcs
      exact hrest cs hcs
    | false =>
      rw [Brackets.partTokens, List.flatMap_cons, List.append_assoc] at hcs
      exact written_single (by decide) hrest hcs

mutual

/-- Every tree is written, in whatever layout. -/
theorem writesTokens_ofJson : ∀ t : Json, WritesTokens (Spelling.ofJson t).tokens
  | .null => writesTokens_literal (by decide)
  | .bool true => writesTokens_literal (by decide)
  | .bool false => writesTokens_literal (by decide)
  | .number n => writesTokens_number n
  | .string s => fun _ _ _ h hcs => written_string s h hcs
  | .array items => by
    intro later cs _ h hcs
    rw [Spelling.ofJson, Spelling.tokens, Spelling.itemTokens_eq_map, Spelling.ofItems_eq_map,
      List.map_map, List.cons_append, List.append_assoc] at hcs
    refine written_single (by decide) (fun rest hrest => ?_) hcs
    refine writesTokens_bracketed square_enclosesSpaced ?_ true h hrest
    exact List.forall_mem_map.mpr (writesTokens_ofItems items)
  | .object members => by
    intro later cs _ h hcs
    rw [Spelling.ofJson, Spelling.tokens, Spelling.memberTokens_eq_map, Spelling.ofMembers_eq_map,
      List.map_map, List.cons_append, List.append_assoc] at hcs
    refine written_single (by decide) (fun rest hrest => ?_) hcs
    refine writesTokens_bracketed curly_enclosesSpaced ?_ true h hrest
    exact List.forall_mem_map.mpr (writesTokens_ofMembers members)

theorem writesTokens_ofItems :
    ∀ items : List Json, ∀ t ∈ items, WritesTokens (Spelling.ofJson t).tokens
  | [] => List.forall_mem_nil _
  | t :: ts => List.forall_mem_cons.mpr ⟨writesTokens_ofJson t, writesTokens_ofItems ts⟩

theorem writesTokens_ofMembers : ∀ members : List (String × Json), ∀ m ∈ members,
    WritesTokens (Spelling.memberToken (quote m.1, Spelling.ofJson m.2))
  | [] => List.forall_mem_nil _
  | (k, t) :: ms => by
    refine List.forall_mem_cons.mpr ⟨fun later cs hfollow h hcs => ?_, writesTokens_ofMembers ms⟩
    have hvalue := writesTokens_ofJson t
    exact written_string k (fun _ => written_single (by decide) fun rest =>
      hvalue later rest hfollow h) hcs

end

end trees

/-! ### Outcomes -/

namespace Reader
variable {α β σ : Type} {left lost : List Char} {Spends : α → Prop} {Spends' : β → Prop}
  {Leaves : α → List Char → Prop} {Leaves' : β → List Char → Prop}

/-- What may come of a reader on what is left of a text that goes on in what is lost. -/
inductive Outcome (r : Reader α) (left lost : List Char) (Spends : α → Prop)
    (Leaves : α → List Char → Prop) : Prop
  /-- It fails for want of text, or it fails on the whole text as well. -/
  | fails {fault : Fault} (h : r left = .error fault)
      (whole : fault = .ended ∨ Fails r (left ++ lost))
  /-- It reads what it reads in the whole text. -/
  | reads {a : α} {rest : List Char} (h : r left = .ok (a, rest))
      (whole : r (left ++ lost) = .ok (a, rest ++ lost)) (leaves : Leaves a rest)
  /-- It reads something, and the text is at its end. -/
  | spends {a : α} (h : r left = .ok (a, [])) (ha : Spends a)

theorem exists_error_of_fails {r : Reader α} {cs : List Char} (h : Fails r cs) :
    ∃ fault, r cs = .error fault := by
  cases hr : r cs with
  | ok p => exact absurd hr (h p)
  | error fault => exact ⟨fault, rfl⟩

/-- A reader that fails on both texts has come to the first outcome, whatever its faults. -/
theorem Outcome.of_fails {r : Reader α} (h : Fails r left) (whole : Fails r (left ++ lost)) :
    Outcome r left lost Spends Leaves := by
  obtain ⟨fault, hfault⟩ := exists_error_of_fails h
  exact .fails hfault (.inr whole)

theorem Outcome.mono {r : Reader α} {Spends' : α → Prop} {Leaves' : α → List Char → Prop}
    (h : Outcome r left lost Spends Leaves) (hspends : ∀ a, Spends a → Spends' a)
    (hleaves : ∀ a rest, r (left ++ lost) = .ok (a, rest ++ lost) → Leaves a rest →
      Leaves' a rest) : Outcome r left lost Spends' Leaves' := by
  cases h with
  | fails h whole => exact .fails h whole
  | reads h whole leaves => exact .reads h whole (hleaves _ _ whole leaves)
  | spends h ha => exact .spends h (hspends _ ha)

/-- What is read is known where it is known of the whole text. -/
theorem Outcome.known {r : Reader α} {a : α} {cs : List Char}
    (h : Outcome r left lost Spends Leaves) (hwhole : r (left ++ lost) = .ok (a, cs)) :
    Outcome r left lost Spends fun b rest => b = a ∧ Leaves b rest ∧ rest ++ lost = cs :=
  h.mono (fun _ => id) fun b rest whole leaves => by
    obtain ⟨heq, hrest⟩ := Prod.mk.inj (Except.ok.inj (whole.symm.trans hwhole))
    exact ⟨heq, leaves, hrest⟩

/-- What one reader does another does behind what it has taken. -/
theorem Outcome.of_eq {r r' : Reader α} {left' : List Char}
    (h : Outcome r' left' lost Spends Leaves) (hleft : r left = r' left')
    (hwhole : r (left ++ lost) = r' (left' ++ lost)) : Outcome r left lost Spends Leaves := by
  cases h with
  | fails h whole =>
    refine .fails (hleft.trans h) (whole.imp_right fun whole => ?_)
    rwa [Fails, hwhole]
  | reads h whole leaves => exact .reads (hleft.trans h) (hwhole.trans whole) leaves
  | spends h ha => exact .spends (hleft.trans h) ha

/-- Two readers one after the other come to one of the outcomes if both do. Where the first has
spent the text, the second has nothing left to read and must not fail for another reason than that.
-/
theorem Outcome.bind {r : Reader α} {f : α → Reader β} (h : Outcome r left lost Spends Leaves)
    (hreads : ∀ a rest, Leaves a rest → Outcome (f a) rest lost Spends' Leaves')
    (hspends : ∀ a, Spends a → Exhausts (f a) [] Spends') :
    Outcome (r >>= f) left lost Spends' Leaves' := by
  cases h with
  | fails h whole =>
    exact .fails (bind_of_error h) (whole.imp_right fun whole => whole.bind f)
  | @reads a rest h whole leaves =>
    exact (hreads a rest leaves).of_eq (bind_of_ok h) (bind_of_ok whole)
  | @spends a h ha =>
    rcases hspends a ha with hended | ⟨b, hok, hb⟩
    · exact .fails ((bind_of_ok h).trans hended) (.inl rfl)
    · exact .spends ((bind_of_ok h).trans hok) hb

theorem Outcome.map {r : Reader α} (h : Outcome r left lost Spends Leaves) (f : α → β)
    (hspends : ∀ a, Spends a → Spends' (f a))
    (hleaves : ∀ a rest, Leaves a rest → Leaves' (f a) rest) :
    Outcome (f <$> r) left lost Spends' Leaves' := by
  rw [map_eq_pure_bind]
  refine h.bind (fun a rest ha => ?_) fun a ha => exhausts_pure (hspends a ha)
  exact .reads rfl rfl (hleaves a rest ha)

/-- A loop whose step needs some text ends with the text. -/
theorem rounds_of_ended {step : σ → Reader (σ ⊕ β)} (h : ∀ s, step s [] = .error .ended)
    (budget : List Char) (s : σ) : rounds step budget s [] = .error .ended := by
  cases budget with
  | nil => rfl
  | cons c budget => rw [rounds, h]

/-- The loop takes the same rounds on what is left as on the whole text, until it fails or comes to
the end of what is left. -/
theorem Outcome.loop {step : σ → Reader (σ ⊕ β)} (Holds : σ → List Char → Prop)
    (hstep : ∀ s left, Holds s left → Outcome (step s) left lost (fun x => ∃ t, x = .inl t)
      (Sum.elim Holds Leaves'))
    (hended : ∀ s, step s [] = .error .ended) {s : σ} (hs : Holds s left) :
    Outcome (loop step s) left lost (fun _ => False) Leaves' := by
  -- the whole text has rounds to spare when what is left has run out of them
  suffices ∀ budget,
      (∃ fault, rounds step budget s left = .error fault ∧
        (fault = .ended ∨ ∃ fault, rounds step (budget ++ lost) s (left ++ lost) = .error fault)) ∨
      ∃ b rest, rounds step budget s left = .ok (b, rest) ∧
        rounds step (budget ++ lost) s (left ++ lost) = .ok (b, rest ++ lost) ∧ Leaves' b rest by
    rcases this left with ⟨fault, h, whole⟩ | ⟨b, rest, h, whole, leaves⟩
    · refine .fails h (whole.imp_right ?_)
      rintro ⟨fault, whole⟩
      exact fails_error whole
    · exact .reads h whole leaves
  intro budget
  induction budget generalizing s left with
  | nil => exact .inl ⟨.ended, rfl, .inl rfl⟩
  | cons c budget ih =>
    cases hstep s left hs with
    | @fails fault h whole =>
      refine .inl ⟨fault, by rw [rounds, h], whole.imp_right fun whole => ?_⟩
      obtain ⟨fault, whole⟩ := exists_error_of_fails whole
      exact ⟨fault, by rw [List.cons_append, rounds, whole]⟩
    | @reads x rest h whole leaves =>
      cases x with
      | inl t =>
        rw [List.cons_append, rounds_of_inl h, rounds_of_inl whole]
        exact ih leaves
      | inr b =>
        rw [List.cons_append, rounds_of_inr h, rounds_of_inr whole]
        exact .inr ⟨b, rest, rfl, rfl, leaves⟩
    | spends h ht =>
      obtain ⟨t, rfl⟩ := ht
      rw [rounds_of_inl h, rounds_of_ended hended]
      exact .inl ⟨.ended, rfl, .inl rfl⟩

/-! ### Robust readers -/

/-- The reader is robust where the end of a text is lost: wherever a token of a written text may
begin, one of the outcomes comes of it, and what it leaves begins at a token again. -/
def Robust (lost : List Char) (Spends : α → Prop) (r : Reader α) : Prop :=
  ∀ left, Written (left ++ lost) →
    Outcome r left lost Spends fun _ rest => Written (rest ++ lost)

/-- The reader does not stop at the end of what is left. -/
abbrev Firm (lost : List Char) (r : Reader α) : Prop := Robust lost (fun _ => False) r

/-- The reader may stop at the end of what is left. -/
abbrev Loose (lost : List Char) (r : Reader α) : Prop := Robust lost (fun _ => True) r

/-- A reader that does not stop at the end may be taken for one that may. -/
theorem Firm.robust {r : Reader α} (h : Firm lost r) : Robust lost Spends r :=
  fun left hleft => (h left hleft).mono nofun fun _ _ _ => id

/-- Robust readers one after the other are robust. -/
theorem Robust.bind {r : Reader α} {f : α → Reader β} (h : Robust lost Spends r)
    (hf : ∀ a, Robust lost Spends' (f a)) (hspends : ∀ a, Spends a → Exhausts (f a) [] Spends') :
    Robust lost Spends' (r >>= f) :=
  fun left hleft => (h left hleft).bind (fun a rest hrest => hf a rest hrest) hspends

theorem Firm.bind {r : Reader α} {f : α → Reader β} (h : Firm lost r)
    (hf : ∀ a, Robust lost Spends' (f a)) : Robust lost Spends' (r >>= f) :=
  Robust.bind h hf nofun

theorem Robust.map {r : Reader α} (h : Robust lost Spends r) (f : α → β)
    (hspends : ∀ a, Spends a → Spends' (f a)) : Robust lost Spends' (f <$> r) :=
  fun left hleft => (h left hleft).map f hspends fun _ _ => id

theorem firm_pure (a : α) : Firm lost (pure a) := fun _ hleft => .reads rfl rfl hleft

theorem firm_of_fails {r : Reader α} (h : ∀ cs, Fails r cs) : Firm lost r :=
  fun _ _ => .of_fails (h _) (h _)

theorem firm_throw (fault : Fault) : Firm lost (throw fault : Reader α) :=
  firm_of_fails fun _ => fails_error rfl

theorem firm_lift (e : Except Fault α) : Firm lost (liftM e : Reader α) := by
  cases e with
  | ok a => exact firm_pure a
  | error fault => exact firm_throw fault

/-- What is refused at once or read is read as it is. -/
theorem Robust.guarded {p : Prop} [Decidable p] {refuse : Reader β} {r : Reader α}
    (hrefuse : ∀ cs, Fails refuse cs) (h : Robust lost Spends r) :
    Robust lost Spends (if p then refuse >>= fun _ => r else r) := by
  split
  · exact (firm_of_fails hrefuse).bind fun _ => h
  · exact h

/-! ### Tokens -/

/-- A character that is a token by itself is there or lost. -/
theorem firm_expect {c : Char} (hc : c ∈ singles) : Firm lost (expect c) := by
  intro left hleft
  cases left with
  | nil => exact .fails rfl (.inl rfl)
  | cons d left =>
    by_cases heq : d = c
    · subst heq
      exact .reads (expect_cons d) (expect_cons d) (hleft.of_single hc)
    · exact .of_fails (fails_expect heq) (fails_expect heq)

/-- Blanks are passed over, and behind them the text may be at its end. -/
theorem loose_skipBlank : Loose lost skipBlank := by
  intro left hleft
  have hskip : skipBlank left = .ok ((), left.dropWhile isBlank) := rfl
  cases hdrop : left.dropWhile isBlank with
  | nil =>
    rw [hdrop] at hskip
    exact .spends hskip trivial
  | cons c rest =>
    have hwhole : (left ++ lost).dropWhile isBlank = c :: rest ++ lost := by
      rw [List.dropWhile_append, hdrop]
      rfl
    have hrest := hleft.dropWhile_isBlank
    rw [hwhole] at hrest
    rw [hdrop] at hskip
    exact .reads hskip (congrArg (fun cs => Except.ok ((), cs)) hwhole) hrest

theorem outcome_peek (hleft : Written (left ++ lost)) :
    Outcome peek left lost (fun _ => False) fun c rest =>
      Written (rest ++ lost) ∧ ∃ tail, rest = c :: tail := by
  cases left with
  | nil => exact .fails rfl (.inl rfl)
  | cons c left => exact .reads rfl rfl ⟨hleft, left, rfl⟩

theorem outcome_peekToken (hleft : Written (left ++ lost)) :
    Outcome peekToken left lost (fun _ => False) fun c rest =>
      Written (rest ++ lost) ∧ ∃ tail, rest = c :: tail :=
  (loose_skipBlank left hleft).bind (fun _ _ => outcome_peek) fun _ _ => .inl rfl

/-- What is done with the next token is done where this begins. -/
theorem robust_peekToken_bind {f : Char → Reader α}
    (h : ∀ c tail, Written (c :: tail ++ lost) →
      Outcome (f c) (c :: tail) lost Spends fun _ rest => Written (rest ++ lost)) :
    Robust lost Spends (peekToken >>= f) := by
  intro left hleft
  refine (outcome_peekToken hleft).bind ?_ nofun
  rintro c rest ⟨hrest, tail, rfl⟩
  exact h c tail hrest

theorem firm_expectToken {c : Char} (hc : c ∈ singles) : Firm lost (expectToken c) :=
  loose_skipBlank.bind (fun _ => firm_expect hc) fun _ _ => .inl rfl

/-- A token is read in full, or the text breaks off in it. -/
theorem outcome_token {r : Reader α} {token rest : List Char} {a : α}
    (hparts : token ++ rest = left ++ lost) (hrest : Written rest)
    (hread : ∀ cs, (∀ c ∈ cs.head?, c ∈ rest.head?) → r (token ++ cs) = .ok (a, cs))
    (hbroken : ∀ {lost'}, token = left ++ lost' → lost' ≠ [] → Exhausts r left Spends) :
    Outcome r left lost Spends fun _ rest => Written (rest ++ lost) := by
  rcases append_cases hparts with ⟨left', rfl, rfl⟩ | ⟨lost', hlost', htoken⟩
  · refine .reads (hread left' fun c => head?_of_append) ?_ hrest
    rw [List.append_assoc]
    exact hread (left' ++ lost) fun _ => id
  · rcases hbroken htoken hlost' with hended | ⟨a, hok, ha⟩
    · exact .fails hended (.inl rfl)
    · exact .spends hok ha

/-- A word is read in full or not at all. -/
theorem outcome_word {c : Char} {w : List Char} (hw : w ∈ literals) (hhead : w.head? = some c)
    (hleft : Written (c :: left ++ lost)) :
    Outcome (word w) (c :: left) lost (fun _ => False) fun _ rest => Written (rest ++ lost) := by
  obtain ⟨rest, heq, hrest⟩ := hleft.exists_literal hw hhead
  exact outcome_token heq.symm hrest (fun _ _ => word_append w) fun htoken hlost' =>
    .inl (word_broken htoken hlost')

theorem firm_quoted : Firm lost quoted := by
  intro left hleft
  cases left with
  | nil => exact .fails rfl (.inl rfl)
  | cons c left =>
    by_cases hc : c = '"'
    · subst hc
      obtain ⟨s, rest, heq, hrest⟩ := hleft.exists_string
      exact outcome_token heq.symm hrest (fun _ _ => quoted_quote s) fun htoken hlost' =>
        .inl (quoted_broken htoken hlost')
    · have hfails : ∀ cs, Fails quoted (c :: cs) := fun cs => (fails_expect hc).bind _
      exact .of_fails (hfails _) (hfails _)

/-- The number in which the text breaks off is natural if the whole number is. -/
theorem outcome_number {c : Char} (hc : c = '-' ∨ c.isDigit = true)
    (hleft : Written (c :: left ++ lost)) :
    Outcome number (c :: left) lost
      (fun m => ∃ n rest, number (c :: left ++ lost) = .ok (n, rest) ∧
        ∀ w : Whole, n = .whole w → 0 ≤ w.val → ∃ v : Whole, m = .whole v ∧ 0 ≤ v.val)
      fun _ rest => Written (rest ++ lost) := by
  obtain ⟨n, rest, heq, hend, hrest⟩ := hleft.exists_number hc
  have hparts : n.text ++ rest = c :: left ++ lost := heq.symm
  have hwhole : number (c :: left ++ lost) = .ok (n.echo, rest) := by
    rw [← hparts]
    exact number_text n hend
  refine outcome_token hparts hrest (fun cs hcs => number_text n fun d hd => hend d (hcs d hd)) ?_
  intro lost' htoken hlost'
  rcases exhausts_number htoken hlost' with hended | ⟨m, hok, hm⟩
  · exact .inl hended
  · exact .inr ⟨m, hok, n.echo, rest, hwhole, hm⟩

/-! ### Values -/

/-- Of the values without brackets only a number may be cut short. -/
theorem outcome_scalar {c : Char} (hleft : Written (c :: left ++ lost)) :
    Outcome (scalar .exact c) (c :: left) lost (fun _ => True) fun _ rest =>
      Written (rest ++ lost) := by
  unfold scalar
  split
  · exact (outcome_word (by decide) rfl hleft).map _ nofun fun _ _ => id
  · exact (outcome_word (by decide) rfl hleft).map _ nofun fun _ _ => id
  · exact (outcome_word (by decide) rfl hleft).map _ nofun fun _ _ => id
  · exact (firm_quoted _ hleft).map _ nofun fun _ _ => id
  · split
    · next hc =>
      exact (outcome_number hc hleft).map _ (fun _ _ => trivial) fun _ _ => id
    · exact (firm_throw _).robust _ hleft

theorem firm_peek : Firm lost peek :=
  fun _ hleft => (outcome_peek hleft).mono nofun fun _ _ _ h => h.1

theorem firm_peekToken : Firm lost peekToken :=
  fun _ hleft => (outcome_peekToken hleft).mono nofun fun _ _ _ h => h.1

theorem firm_hasItem (first : Bool) : Firm lost (hasItem first) := by
  refine firm_peekToken.bind fun c => ?_
  split
  · exact firm_pure false
  split
  · exact firm_pure true
  exact (firm_expect (by decide)).bind fun _ => firm_peekToken.bind fun d =>
    .guarded (fun _ => fails_error rfl) (firm_pure true)

theorem firm_hasMember (first : Bool) : Firm lost (hasMember first) := by
  refine firm_peekToken.bind fun c => ?_
  split
  · exact firm_pure false
  have hquote : Firm lost (do
      if (← peek) ≠ '"' then throw .malformed
      return true : Reader Bool) :=
    firm_peek.bind fun d => .guarded (fun _ => fails_error rfl) (firm_pure true)
  cases first with
  | true => exact hquote
  | false =>
    refine (firm_expect (by decide)).bind fun _ => loose_skipBlank.bind (fun _ => hquote) ?_
    exact fun _ _ => .inl rfl

namespace Brackets

/-- What a pair of brackets needs for its parts to be read where the end of the text is lost. -/
structure Robust (b : Brackets) (lost : List Char) : Prop where
  /-- Whether there is another part is read from the whole text or not at all. -/
  firm : ∀ first, Firm lost (b.hasPart first)
  /-- Where there is no text, that is the fault. -/
  ended : ∀ first, b.hasPart first [] = .error .ended
  /-- The closing bracket is a token by itself. -/
  closing : b.closing ∈ singles

theorem robust_square : square.Robust lost where
  firm := firm_hasItem
  ended _ := rfl
  closing := by decide

theorem robust_curly : curly.Robust lost where
  firm := firm_hasMember
  ended _ := rfl
  closing := by decide

variable {b : Brackets}

theorem Robust.step_nil (hb : b.Robust lost) (part : σ → Reader σ) (s : Bool × σ) :
    b.step part s [] = .error .ended :=
  bind_of_error (hb.ended s.1)

/-- A part is read, or the closing bracket. The text may be at its end behind a part, but not behind
the bracket. -/
theorem Robust.step (hb : b.Robust lost) {part : σ → Reader σ} (hpart : ∀ s, Loose lost (part s))
    (s : Bool × σ) : Reader.Robust lost (fun x => ∃ t, x = .inl t) (b.step part s) := by
  refine (hb.firm s.1).bind fun has => ?_
  cases has with
  | true => exact (hpart s.2).bind (fun t => (firm_pure _).robust) fun t _ => .inr ⟨_, rfl, _, rfl⟩
  | false => exact (firm_expect hb.closing).bind fun _ => (firm_pure _).robust

/-- **Parts between brackets are never taken for complete** where the closing bracket is lost. -/
theorem Robust.pass (hb : b.Robust lost) {part : σ → Reader σ} (hpart : ∀ s, Loose lost (part s))
    (s : σ) : Firm lost (b.pass part s) := by
  intro left hleft
  refine .loop (fun _ left => Written (left ++ lost)) (fun s left hleft => ?_) (hb.step_nil part)
    hleft
  exact (hb.step hpart s left hleft).mono (fun _ => id) fun x _ _ h => by cases x <;> exact h

/-- **Parts between brackets are never taken for complete** where the closing bracket is lost. -/
theorem Robust.collect (hb : b.Robust lost) {part : Reader α} (hpart : Loose lost part) :
    Firm lost (b.collect part) :=
  Reader.Robust.map (hb.pass (fun _ => hpart.bind (fun _ => (firm_pure _).robust) fun _ _ =>
    exhausts_pure trivial) []) List.reverse nofun

end Brackets

/-- A value is loose if the values within it are: without brackets it may be a number, and with them
it is firm. -/
theorem loose_treeOver {inner : Option (Reader Json)} (h : ∀ item ∈ inner, Loose lost item) :
    Loose lost (treeOver .exact inner) := by
  have hdescend : ∀ {c : Char} {tail : List Char} {β : Type} {body : Reader Json → Reader β},
      c ∈ singles → (∀ item ∈ inner, Firm lost (body item)) → Written (c :: tail ++ lost) →
        Outcome (descend inner body) (c :: tail) lost (fun _ => False) fun _ rest =>
          Written (rest ++ lost) := by
    intro c tail β body hc hbody hleft
    cases inner with
    | none => exact firm_throw _ _ hleft
    | some item => exact (hbody item rfl tail (hleft.of_single hc)).of_eq rfl rfl
  refine robust_peekToken_bind fun c tail hleft => ?_
  split
  · refine (hdescend (by decide) (fun item hitem => ?_) hleft).mono nofun fun _ _ _ => id
    exact (Brackets.robust_square.collect (h item hitem)).map _ nofun
  · refine (hdescend (by decide) (fun item hitem => ?_) hleft).mono nofun fun _ _ _ => id
    refine (Brackets.robust_curly.collect ?_).map _ nofun
    refine firm_quoted.bind fun k => (firm_expectToken (by decide)).bind fun _ => ?_
    exact (h item hitem).bind (fun _ => (firm_pure _).robust) fun _ _ => exhausts_pure trivial
  · exact outcome_scalar hleft

/-- **Of a tree in a broken text** no more is read than in the whole text, but for a number. -/
theorem loose_tree (depth : Nat) : Loose lost (tree depth) := by
  induction depth with
  | zero => exact loose_treeOver nofun
  | succ depth ih => exact loose_treeOver (by rintro _ ⟨⟩; exact ih)

end Reader

/-! ### Shapes -/

namespace Shape
variable {α β : Type} {lost : List Char} {s : Shape α}

theorem firm_string (depth : Nat) : Firm lost (Shape.string.read depth) := by
  refine firm_peekToken.bind fun c => ?_
  split
  · exact firm_quoted
  · exact firm_of_fails fun _ => fails_failType _

/-- What counts as a natural number is a whole one that is not negative. -/
theorem exists_view_natural {expected : String} {n : Number} :
    (∃ k, (natural expected).view (.number n) = .ok k) ↔
      ∃ w : Whole, n = .whole w ∧ 0 ≤ w.val := by
  constructor
  · rintro ⟨k, hk⟩
    cases n with
    | whole w =>
      by_cases hw : 0 ≤ w.val
      · exact ⟨w, rfl, hw⟩
      · have hview : (if 0 ≤ w.val then pure w.val.toNat else throw _ : Except Fault Nat) = .ok k :=
          hk
        rw [if_neg hw] at hview
        cases hview
    | double x => cases hk
  · rintro ⟨w, rfl, hw⟩
    exact ⟨w.val.toNat, if_pos hw⟩

/-- What is left of a natural number is a natural number. -/
theorem loose_natural (expected : String) (depth : Nat) :
    Loose lost ((natural expected).read depth) := by
  refine robust_peekToken_bind fun c tail hleft => ?_
  split
  · next hc =>
    show Outcome (Reader.number >>= fun n => liftM ((natural expected).view (.number n))) _ _ _ _
    cases outcome_number hc hleft with
    | fails h whole => exact .fails (bind_of_error h) (whole.imp_right fun whole => whole.bind _)
    | @reads n rest h whole hrest =>
      exact ((firm_lift _).robust rest hrest).of_eq (bind_of_ok h) (bind_of_ok whole)
    | @spends m h hm =>
      obtain ⟨n, rest, hwhole, hm⟩ := hm
      cases hview : (natural expected).view (.number m) with
      | ok k => exact .spends ((bind_of_ok h).trans (lift_eq_ok hview)) trivial
      | error fault =>
        have hfails : (liftM ((natural expected).view (.number m)) : Reader Nat) [] =
            .error fault := by
          rw [hview]
          rfl
        refine .fails ((bind_of_ok h).trans hfails) (.inr (.of_bind hwhole fun p hp => ?_))
        obtain ⟨w, hw, hpos⟩ := exists_view_natural.mp ⟨p.1, eq_ok_of_lift hp⟩
        obtain ⟨k, hk⟩ := exists_view_natural.mpr (hm w hw hpos)
        rw [hview] at hk
        cases hk
  · exact (firm_of_fails fun _ => fails_failType _).robust _ hleft

theorem loose_imap (h : ∀ depth, Loose lost (s.read depth)) (f : α → β) (g : β → α) (depth : Nat) :
    Loose lost ((s.imap f g).read depth) :=
  (h depth).map f fun _ => id

theorem loose_value (depth : Nat) : Loose lost (Shape.value.read depth) :=
  (loose_tree depth).map _ fun _ => id

/-- A value that may be null is loose if the value is. -/
theorem loose_optional (h : ∀ depth, Loose lost (s.read depth)) (depth : Nat) :
    Loose lost ((optional s).read depth) := by
  refine robust_peekToken_bind fun c tail hleft => ?_
  split
  · next hc =>
    subst hc
    exact (outcome_word (by decide) rfl hleft).map _ nofun fun _ _ => id
  · exact (h depth _ hleft).map _ (fun _ => id) fun _ _ => id

/-- A list needs its closing bracket, so it is firm even if its items are loose. -/
theorem firm_list (h : ∀ depth, Loose lost (s.read depth)) (depth : Nat) :
    Firm lost ((Shape.list s).read depth) := by
  refine firm_peekToken.bind fun c => .guarded (fun _ => fails_failType _) ?_
  cases depth with
  | zero => exact firm_throw _
  | succ depth =>
    exact (firm_expect (by decide)).bind fun _ => Brackets.robust_square.collect (h depth)

end Shape

namespace Record
variable {α ι : Type} {lost : List Char}

/-- What is done behind a key begins at the colon. -/
theorem loose_behind_colon {r : Reader α} (h : Loose lost r) {f : α → Reader ι}
    (hf : ∀ a, ∃ i, f a = pure i) : Loose lost (do
      expectToken ':'
      f (← r)) := by
  refine (firm_expectToken (by decide)).bind fun _ => h.bind (fun a => ?_) fun a _ => ?_
  · obtain ⟨i, hi⟩ := hf a
    rw [hi]
    exact (firm_pure i).robust
  · obtain ⟨i, hi⟩ := hf a
    rw [hi]
    exact exhausts_pure trivial

/-- Behind the key of an entry its id is read, or any other value, and either may be cut short. -/
theorem loose_readEntryMember {name : String} {id : Shape ι}
    (hid : ∀ depth, Loose lost (id.read depth)) (depth : Nat) (parts : EntryParts ι)
    (key : String) : Loose lost (readEntryMember name id depth parts key) := by
  unfold readEntryMember
  by_cases hkey : key = name
  · rw [if_pos hkey]
    exact .guarded (fun _ => fails_error rfl)
      (loose_behind_colon (hid depth) fun i => ⟨(some i, parts.2), rfl⟩)
  · rw [if_neg hkey]
    exact loose_behind_colon (loose_tree depth) fun t => ⟨(parts.1, (key, t) :: parts.2), rfl⟩

/-- **An entry is never taken for complete** where its closing brace is lost. -/
theorem firm_entry {id : Shape ι} (hid : ∀ depth, Loose lost (id.read depth)) (r : Record α)
    (expected name : String) (depth : Nat) :
    Firm lost ((r.entry expected name id).read depth) := by
  refine firm_peekToken.bind fun c => .guarded (fun _ => fails_failType _) ?_
  cases depth with
  | zero => exact firm_throw _
  | succ depth =>
    refine (firm_expect (by decide)).bind fun _ => Firm.bind ?_ fun parts => firm_lift _
    exact Brackets.robust_curly.pass (fun parts => firm_quoted.bind
      (loose_readEntryMember hid depth parts)) (none, [])

end Record

end PipelineCanvas.Json
