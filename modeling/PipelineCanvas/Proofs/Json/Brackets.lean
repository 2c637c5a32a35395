import PipelineCanvas.Json.Writer
import PipelineCanvas.Proofs.Json.Numerals
import PipelineCanvas.Proofs.Results
/-! # Parts between brackets

The items of an array and the members of an object are read by the same loop between different
brackets, `Reader.Brackets.pass`. What is proved of the loop is proved once here, for any brackets
that tell their parts and their end apart (`Reader.Brackets.Encloses`); square and curly ones do.

The loop reads the parts off their texts, with commas between these, as long as each part is read
off its own text (`Reader.Brackets.Encloses.collect_separated`). The induction is on the parts, and
the state of the loop holds those that have been read.

The second result is about two loops (`Reader.Brackets.pass_of_collect`): what can be done with the
list of all parts once they are read can also be done with each part as it is read. A reader of
records does the second, and a reader that views a tree the first, so this is where they are found
to agree. -/
namespace PipelineCanvas.Json

/-! ### Ends of numbers -/

/-- A number ends before a character that cannot be in it. -/
theorem numberEnd_cons {c : Char} {cs : List Char}
    (h : c.isDigit = false ∧ c ≠ '.' ∧ c ≠ 'e' ∧ c ≠ 'E') : NumberEnd (c :: cs) := by
  intro d hd
  cases hd
  exact h

theorem numberEnd_append {ws rest : List Char} (hws : Blank ws) (h : NumberEnd rest) :
    NumberEnd (ws ++ rest) := by
  cases ws with
  | nil => exact h
  | cons c ws =>
    have hc : Reader.isBlank c = true := hws c List.mem_cons_self
    simp only [Reader.isBlank, Bool.or_eq_true, beq_iff_eq] at hc
    rcases hc with ((rfl | rfl) | rfl) | rfl <;> exact numberEnd_cons (by decide)

/-! ### Lists of texts -/

theorem separated_cons (separator part : List Char) (parts : List (List Char)) :
    separated separator (part :: parts) = part ++ parts.flatMap (separator ++ ·) := by
  induction parts generalizing part with
  | nil => simp [separated]
  | cons p ps ih => simp [separated, ih]

namespace Reader
variable {α σ : Type} {ws rest : List Char}

/-- What is asked of brackets whose parts have certain texts. Blanks may stand before a part and
before the closing bracket. -/
structure Brackets.Encloses (b : Brackets) (Begins : List Char → Prop) : Prop where
  /-- The first part is seen behind the opening bracket. -/
  first : ∀ {ws cs rest}, Blank ws → Begins cs →
    b.hasPart true (ws ++ (cs ++ rest)) = .ok (true, cs ++ rest)
  /-- Every other one is seen behind a comma. -/
  comma : ∀ {ws cs rest}, Blank ws → Begins cs →
    b.hasPart false (',' :: (ws ++ (cs ++ rest))) = .ok (true, cs ++ rest)
  /-- Where the closing bracket comes there is no further part. -/
  close : ∀ {ws rest} (first : Bool), Blank ws →
    b.hasPart first (ws ++ b.closing :: rest) = .ok (false, b.closing :: rest)
  /-- A part is not empty, so every round of the loop takes something. -/
  ne_nil : ∀ {cs}, Begins cs → cs ≠ []
  /-- No number goes on with the closing bracket. -/
  ends : ∀ {rest}, NumberEnd (b.closing :: rest)

/-- The text begins with a token, and this does not close an array. -/
def BeginsItem (cs : List Char) : Prop :=
  ∃ c tail, cs = c :: tail ∧ isBlank c = false ∧ c ≠ ']'

/-- An item is told from the closing bracket by its first character. -/
theorem square_encloses : square.Encloses BeginsItem where
  first {ws cs rest} hws hcs := by
    obtain ⟨c, tail, rfl, hblank, hclose⟩ := hcs
    show hasItem true (ws ++ c :: (tail ++ rest)) = _
    rw [hasItem, peekToken_bind_append hws hblank, if_neg hclose, if_pos rfl]
    rfl
  comma {ws cs rest} hws hcs := by
    obtain ⟨c, tail, rfl, hblank, hclose⟩ := hcs
    have hcomma : peekToken (',' :: (ws ++ c :: (tail ++ rest))) = .ok (',', _) :=
      peekToken_cons (by decide)
    show hasItem false (',' :: (ws ++ c :: (tail ++ rest))) = _
    rw [hasItem, bind_of_ok hcomma, if_neg (by decide), if_neg (by decide),
      bind_of_ok (expect_cons ','), peekToken_bind_append hws hblank, if_neg hclose]
    rfl
  close {ws rest} first hws := by
    show hasItem first (ws ++ ']' :: rest) = _
    rw [hasItem, peekToken_bind_append hws (by decide), if_pos rfl]
    rfl
  ne_nil := by
    rintro _ ⟨c, tail, rfl, -⟩
    exact List.cons_ne_nil c tail
  ends := numberEnd_cons (by decide)

/-- The text begins with a quote, as a member does. -/
def BeginsMember (cs : List Char) : Prop := ∃ tail, cs = '"' :: tail

/-- A member is told from the closing bracket by its quote. -/
theorem curly_encloses : curly.Encloses BeginsMember where
  first {ws cs rest} hws hcs := by
    obtain ⟨tail, rfl⟩ := hcs
    show hasMember true (ws ++ '"' :: (tail ++ rest)) = _
    rw [hasMember, peekToken_bind_append hws (by decide), if_neg (by decide), if_pos rfl]
    rfl
  comma {ws cs rest} hws hcs := by
    obtain ⟨tail, rfl⟩ := hcs
    have hcomma : peekToken (',' :: (ws ++ '"' :: (tail ++ rest))) = .ok (',', _) :=
      peekToken_cons (by decide)
    have hskip : skipBlank (ws ++ '"' :: (tail ++ rest)) = .ok ((), '"' :: (tail ++ rest)) :=
      skipBlank_append hws (by rintro c ⟨⟩; decide)
    show hasMember false (',' :: (ws ++ '"' :: (tail ++ rest))) = _
    rw [hasMember, bind_of_ok hcomma, if_neg (by decide), if_neg (by decide),
      bind_of_ok (expect_cons ','), bind_of_ok hskip]
    rfl
  close {ws rest} first hws := by
    show hasMember first (ws ++ '\x7d' :: rest) = _
    rw [hasMember, peekToken_bind_append hws (by decide), if_pos rfl]
    rfl
  ne_nil := by
    rintro _ ⟨tail, rfl⟩
    exact List.cons_ne_nil '"' tail
  ends := numberEnd_cons (by decide)

namespace Brackets
variable {b : Brackets} {Begins : List Char → Prop} {part : Reader α} {ι : Type}
  {text : ι → List Char} {value : ι → α} {items : List ι} {parts : List α} {closing : List Char}

theorem step_close {cs cs' : List Char} {first : Bool}
    (hhas : b.hasPart first cs = .ok (false, cs')) (hexpect : expect b.closing cs' = .ok ((), rest))
    (part : σ → Reader σ) (s : σ) : b.step part (first, s) cs = .ok (.inr s, rest) := by
  rw [step, bind_of_ok hhas, if_neg (by decide), bind_of_ok hexpect, pure_apply]

theorem step_part {cs cs' : List Char} {first : Bool} {part : σ → Reader σ} {s s' : σ}
    (hhas : b.hasPart first cs = .ok (true, cs')) (hpart : part s cs' = .ok (s', rest)) :
    b.step part (first, s) cs = .ok (.inl (false, s'), rest) := by
  rw [step, bind_of_ok hhas, if_pos rfl, bind_of_ok hpart, pure_apply]

theorem push_of_ok {cs : List Char} {a : α} (h : part cs = .ok (a, rest)) (read : List α) :
    (do return (← part) :: read : Reader (List α)) cs = .ok (a :: read, rest) := by
  rw [bind_of_ok h, pure_apply]

/-- Each item has a text that a part is read off, and what is behind the text does not matter. -/
def Reads (part : Reader α) (text : ι → List Char) (value : ι → α) (Begins : List Char → Prop)
    (items : List ι) : Prop :=
  ∀ i ∈ items, Begins (text i) ∧
    ∀ {rest}, NumberEnd rest → part (text i ++ rest) = .ok (value i, rest)

/-- What follows a part ends the number that this may be. -/
theorem Encloses.numberEnd (hb : b.Encloses Begins) (hclosing : Blank closing)
    (texts : List (List Char)) :
    NumberEnd (texts.flatMap ((',' :: ws) ++ ·) ++ (closing ++ b.closing :: rest)) := by
  cases texts with
  | nil =>
    show NumberEnd (closing ++ b.closing :: rest)
    exact numberEnd_append hclosing hb.ends
  | cons text texts =>
    show NumberEnd (',' :: (ws ++ text ++ _ ++ _))
    exact numberEnd_cons (by decide)

/-- Behind the first part the loop takes a round for each comma, and one for the bracket. -/
theorem Encloses.rounds (hb : b.Encloses Begins) (h : Reads part text value Begins items)
    (hws : Blank ws) (hclosing : Blank closing) (read : List α) :
    Rounds (b.step fun read => return (← part) :: read) (false, read)
      ((items.map text).flatMap ((',' :: ws) ++ ·) ++ (closing ++ b.closing :: rest))
      ((items.map value).reverse ++ read) rest := by
  -- the state holds the parts that have been read, the latest first
  induction items generalizing read with
  | nil =>
    exact .stop (by simp) (step_close (hb.close false hclosing) (expect_cons b.closing) _ read)
  | cons i items ih =>
    obtain ⟨hbegins, hread⟩ := h i List.mem_cons_self
    have hrest := ih (fun j hj => h j (List.mem_cons_of_mem _ hj)) (value i :: read)
    rw [List.map_cons, List.flatMap_cons, List.append_assoc, List.cons_append, List.cons_append,
      List.append_assoc, List.map_cons, List.reverse_cons, List.append_assoc]
    refine .go ?_ (step_part (hb.comma hws hbegins)
      (push_of_ok (hread (hb.numberEnd hclosing _)) read)) hrest
    simp only [List.length_cons, List.length_append]
    omega

/-- **Parts between brackets are read off their texts.** -/
theorem Encloses.collect_separated (hb : b.Encloses Begins) (h : Reads part text value Begins items)
    {opening : List Char} (hopening : Blank opening) (hws : Blank ws) (hclosing : Blank closing) :
    b.collect part (opening ++ (separated (',' :: ws) (items.map text) ++
      (closing ++ b.closing :: rest))) = .ok (items.map value, rest) := by
  suffices Rounds (b.step fun read => return (← part) :: read) (true, [])
      (opening ++ (separated (',' :: ws) (items.map text) ++ (closing ++ b.closing :: rest)))
      (items.map value).reverse rest by
    have hloop := map_of_ok (f := List.reverse) this.loop
    rwa [List.reverse_reverse] at hloop
  cases items with
  | nil =>
    have hclose : b.hasPart true (opening ++ (closing ++ b.closing :: rest)) =
        .ok (false, b.closing :: rest) := by
      rw [← List.append_assoc]
      exact hb.close true (hopening.append hclosing)
    exact .stop (by simp [separated]) (step_close hclose (expect_cons b.closing) _ [])
  | cons i items =>
    obtain ⟨hbegins, hread⟩ := h i List.mem_cons_self
    have hrest : Rounds _ (false, [value i]) _ ((items.map value).reverse ++ [value i]) rest :=
      hb.rounds (fun j hj => h j (List.mem_cons_of_mem _ hj)) hws hclosing [value i]
    rw [List.map_cons, separated_cons, List.append_assoc, List.map_cons, List.reverse_cons]
    refine .go ?_ (step_part (hb.first hopening hbegins)
      (push_of_ok (hread (hb.numberEnd hclosing _)) [])) hrest
    have hpos := List.length_pos_iff.mpr (hb.ne_nil hbegins)
    simp only [List.length_append]
    omega

/-! ### One pass in place of two -/

/-- Where the part is read, `other` does what `take` does with it. -/
def Follows (part : Reader α) (other : σ → Reader σ) (take : σ → α → Except Fault σ) (a : α) :
    Prop :=
  ∀ {s s' cs rest}, part cs = .ok (a, rest) → take s a = .ok s' → other s cs = .ok (s', rest)

/-- What a round can do: it reads a part, or it comes to the closing bracket. -/
theorem step_eq_ok {cs : List Char} {first : Bool} {read : List α}
    {r : (Bool × List α) ⊕ List α}
    (h : b.step (fun read => return (← part) :: read) (first, read) cs = .ok (r, rest)) :
    (∃ a cs', b.hasPart first cs = .ok (true, cs') ∧ part cs' = .ok (a, rest) ∧
        r = .inl (false, a :: read)) ∨
      (∃ cs', b.hasPart first cs = .ok (false, cs') ∧ expect b.closing cs' = .ok ((), rest) ∧
        r = .inr read) := by
  obtain ⟨has, cs', hhas, h⟩ := bind_eq_ok_iff.mp h
  cases has with
  | true =>
    obtain ⟨_, _, hpush, h⟩ := bind_eq_ok_iff.mp h
    obtain ⟨a, _, ha, hpush⟩ := bind_eq_ok_iff.mp hpush
    cases hpush
    cases h
    exact .inl ⟨a, cs', hhas, ha, rfl⟩
  | false =>
    obtain ⟨_, _, hexpect, h⟩ := bind_eq_ok_iff.mp h
    cases h
    exact .inr ⟨cs', hhas, hexpect, rfl⟩

/-- The rounds that collect the parts are rounds of any other pass that follows them, part by part.
-/
theorem rounds_of_collected {budget cs : List Char} {first : Bool} {read out : List α}
    (h : rounds (b.step fun read => return (← part) :: read) budget (first, read) cs =
      .ok (out, rest)) :
    ∃ parts : List α, out = parts.reverse ++ read ∧
      ∀ {σ : Type} {other : σ → Reader σ} {take : σ → α → Except Fault σ} {s s' : σ},
        (∀ a ∈ parts, Follows part other take a) → parts.foldlM take s = .ok s' →
          rounds (b.step other) budget (first, s) cs = .ok (s', rest) := by
  -- the other pass takes the same rounds, so the budget lasts for it too
  induction budget generalizing first read cs with
  | nil => cases h
  | cons c budget ih =>
    unfold Reader.rounds at h
    split at h
    · cases h
    · next r cs' hstep =>
      rcases step_eq_ok hstep with ⟨a, cs'', hhas, ha, hr⟩ | ⟨_, _, _, hr⟩
      · cases hr
        obtain ⟨parts, rfl, hparts⟩ := ih h
        refine ⟨a :: parts, by simp, ?_⟩
        intro _ other take s s' hfollows hfold
        obtain ⟨between, htake, hfold⟩ := PipelineCanvas.bind_eq_ok_iff.mp hfold
        have hother : other s cs'' = .ok (between, cs') :=
          hfollows a List.mem_cons_self ha htake
        rw [rounds_of_inl (step_part hhas hother)]
        exact hparts (fun c hc => hfollows c (List.mem_cons_of_mem _ hc)) hfold
      · cases hr
    · next r cs' hstep =>
      rcases step_eq_ok hstep with ⟨_, _, _, _, hr⟩ | ⟨cs'', hhas, hexpect, hr⟩
      · cases hr
      · cases hr
        cases h
        refine ⟨[], rfl, ?_⟩
        intro _ other take s s' _ hfold
        cases hfold
        exact rounds_of_inr (step_close hhas hexpect other s) c budget

/-- **What can be done with the parts once they are all read can be done as they are read.** -/
theorem pass_of_collect {cs : List Char} {other : σ → Reader σ}
    {take : σ → α → Except Fault σ} {s s' : σ} (h : b.collect part cs = .ok (parts, rest))
    (hfollows : ∀ a ∈ parts, Follows part other take a) (hfold : parts.foldlM take s = .ok s') :
    b.pass other s cs = .ok (s', rest) := by
  obtain ⟨out, hout, hparts⟩ := map_eq_ok_iff.mp h
  obtain ⟨more, rfl, hmore⟩ := rounds_of_collected hout
  rw [List.append_nil, List.reverse_reverse] at hparts
  subst hparts
  exact hmore hfollows hfold

/-- Parts are read one by one as all of them are viewed. -/
theorem collect_of_view {β : Type} {cs : List Char} {item : Reader β} {view : α → Except Fault β}
    {values : List β} (h : b.collect part cs = .ok (parts, rest))
    (hitem : ∀ a ∈ parts, ∀ {cs rest v}, part cs = .ok (a, rest) → view a = .ok v →
      item cs = .ok (v, rest)) (hview : parts.mapM view = .ok values) :
    b.collect item cs = .ok (values, rest) := by
  -- the loop keeps the values from the latest to the first, and so does the fold
  have hfold : ∀ (parts : List α) {values : List β} (read : List β),
      parts.mapM view = .ok values →
        parts.foldlM (fun read a => return (← view a) :: read) read =
          .ok (values.reverse ++ read) := by
    intro parts
    induction parts with
    | nil =>
      intro values read hview
      cases hview
      rfl
    | cons a parts ih =>
      intro values read hview
      rw [List.mapM_cons] at hview
      obtain ⟨v, hv, hview⟩ := PipelineCanvas.bind_eq_ok_iff.mp hview
      obtain ⟨vs, hvs, hview⟩ := PipelineCanvas.bind_eq_ok_iff.mp hview
      cases hview
      rw [List.foldlM_cons, hv, List.reverse_cons, List.append_assoc]
      exact ih (v :: read) hvs
  have hfollows : ∀ a ∈ parts, Follows part
      (fun read => return (← item) :: read) (fun read a => return (← view a) :: read) a := by
    intro a ha read read' cs rest hpart htake
    obtain ⟨v, hv, htake⟩ := PipelineCanvas.bind_eq_ok_iff.mp htake
    cases htake
    exact push_of_ok (hitem a ha hpart hv) read
  have hpass := map_of_ok (f := List.reverse) (pass_of_collect h hfollows (hfold parts [] hview))
  rwa [List.append_nil, List.reverse_reverse] at hpass

end Brackets
end Reader
end PipelineCanvas.Json
