import PipelineCanvas.Json.Tree
import PipelineCanvas.Proofs.Json.Tokens
/-! # Spellings

A JSON text is a tree of tokens with blanks among them, a **spelling**. Which trees of tokens are
JSON texts is a matter of the grammar (`Spelling.Sound`); what they stand for, if they stand for
anything, follows from their tokens (`Spelling.value?`). The reader finds that value in every text
of the spelling and no other (`Reader.understands_tree`), wherever the blanks are.

The statements come in two forms. `Reader.Finds` is about all texts of some tokens, with any blanks
before them, and with any later tokens behind them that may follow a value. `Reader.Yields` is about
one text. Both say what is read, or that nothing is; so they can be put together along a reader
whether it succeeds or fails, and the same lemmas serve for both. That a value takes at least a
character off the text is part of them, since the loops need it to have rounds enough. -/
namespace PipelineCanvas.Json

/-- A JSON text without its blanks, as the tree of its tokens. -/
inductive Spelling where
  /-- A token without parts. -/
  | scalar (token : List Char)
  /-- The items of an array. -/
  | array (items : List Spelling)
  /-- The members of an object, each with the token of its key. -/
  | object (members : List (List Char × Spelling))

/-- The tokens of parts with commas between them. -/
def withCommas : List (List (List Char)) → List (List Char)
  | [] => []
  | part :: parts => part ++ parts.flatMap ([','] :: ·)

namespace Spelling

/-- The spelling keeps to the grammar of JSON. -/
inductive Sound : Spelling → Prop
  /-- The token is one of the grammar. -/
  | scalar {token : List Char} (h : ScalarToken token) : Sound (.scalar token)
  /-- The items are sound. -/
  | array {items : List Spelling} (h : ∀ s ∈ items, Sound s) : Sound (.array items)
  /-- The keys are strings, and the values are sound. -/
  | object {members : List (List Char × Spelling)} (keys : ∀ m ∈ members, StringToken m.1)
      (h : ∀ m ∈ members, Sound m.2) : Sound (.object members)

section sound
variable {items : List Spelling} {members : List (List Char × Spelling)}

theorem Sound.item (h : (Spelling.array items).Sound) : ∀ s ∈ items, s.Sound := by
  cases h with
  | array h => exact h

theorem Sound.key (h : (Spelling.object members).Sound) : ∀ m ∈ members, StringToken m.1 := by
  cases h with
  | object keys _ => exact keys

theorem Sound.member (h : (Spelling.object members).Sound) : ∀ m ∈ members, m.2.Sound := by
  cases h with
  | object _ h => exact h

end sound

mutual

/-- The tokens from left to right. -/
def tokens : Spelling → List (List Char)
  | .scalar token => [token]
  | .array items => ['['] :: (withCommas (itemTokens items) ++ [[']']])
  | .object members => ['\x7b'] :: (withCommas (memberTokens members) ++ [['\x7d']])

def itemTokens : List Spelling → List (List (List Char))
  | [] => []
  | s :: ss => s.tokens :: itemTokens ss

def memberTokens : List (List Char × Spelling) → List (List (List Char))
  | [] => []
  | (k, s) :: ms => (k :: [':'] :: s.tokens) :: memberTokens ms

end

mutual

/-- The value of a spelling with at most so many arrays and objects one inside another. -/
def value? : Nat → Spelling → Option Json
  | _, .scalar token => meaning? token
  | 0, .array _ => none
  | depth + 1, .array items => Json.array <$> itemValues? depth items
  | 0, .object _ => none
  | depth + 1, .object members => Json.object <$> memberValues? depth members

def itemValues? : Nat → List Spelling → Option (List Json)
  | _, [] => some []
  | depth, s :: ss => do return (← s.value? depth) :: (← itemValues? depth ss)

def memberValues? : Nat → List (List Char × Spelling) → Option (List (String × Json))
  | _, [] => some []
  | depth, (k, s) :: ms => do
    return (← key? k, ← s.value? depth) :: (← memberValues? depth ms)

end

/-- The tokens of a member. -/
def memberToken (m : List Char × Spelling) : List (List Char) := m.1 :: [':'] :: m.2.tokens

/-- A member's key and value. -/
def memberValue? (depth : Nat) (m : List Char × Spelling) : Option (String × Json) := do
  return (← key? m.1, ← m.2.value? depth)

theorem itemTokens_eq_map (items : List Spelling) : itemTokens items = items.map tokens := by
  induction items with
  | nil => rfl
  | cons s ss ih => rw [itemTokens, ih, List.map_cons]

theorem memberTokens_eq_map (members : List (List Char × Spelling)) :
    memberTokens members = members.map memberToken := by
  induction members with
  | nil => rfl
  | cons m ms ih =>
    obtain ⟨k, s⟩ := m
    rw [memberTokens, ih, List.map_cons, memberToken]

theorem itemValues?_eq_mapM (depth : Nat) (items : List Spelling) :
    itemValues? depth items = items.mapM (value? depth) := by
  induction items with
  | nil => rfl
  | cons s ss ih => rw [itemValues?, ih, List.mapM_cons]

theorem memberValues?_eq_mapM (depth : Nat) (members : List (List Char × Spelling)) :
    memberValues? depth members = members.mapM (memberValue? depth) := by
  induction members with
  | nil => rfl
  | cons m ms ih =>
    obtain ⟨k, s⟩ := m
    rw [memberValues?, ih, List.mapM_cons, memberValue?]
    cases key? k with
    | none => rfl
    | some k => cases s.value? depth <;> rfl

end Spelling

/-! ### Blanks between tokens -/

/-- Tokens in their order with any blanks around them. -/
inductive Spaced : List (List Char) → List Char → Prop
  /-- Blanks may stand behind the last token. -/
  | nil {ws : List Char} (h : Blank ws) : Spaced [] ws
  /-- Blanks may stand before each token. -/
  | cons {ws token cs : List Char} {tokens : List (List Char)} (hws : Blank ws)
      (h : Spaced tokens cs) : Spaced (token :: tokens) (ws ++ (token ++ cs))

/-- The same blanks may stand before each token. -/
theorem spaced_flatMap {ws : List Char} (hws : Blank ws) (tokens : List (List Char)) :
    Spaced tokens (tokens.flatMap (ws ++ ·)) := by
  induction tokens with
  | nil => exact .nil blank_nil
  | cons token tokens ih =>
    rw [List.flatMap_cons, List.append_assoc]
    exact .cons hws ih

theorem spaced_flatten (tokens : List (List Char)) : Spaced tokens tokens.flatten := by
  have hspaced := spaced_flatMap blank_nil tokens
  rwa [List.flatMap_def, List.map_id''] at hspaced
  exact fun _ => rfl

theorem Spaced.token {token cs : List Char} {tokens : List (List Char)} (h : Spaced tokens cs) :
    Spaced (token :: tokens) (token ++ cs) :=
  .cons blank_nil h

theorem Spaced.blank {cs : List Char} (h : Spaced [] cs) : Blank cs := by
  cases h with
  | nil hws => exact hws

/-- What may come behind a value: nothing, a comma or a closing bracket. -/
def MayFollow (tokens : List (List Char)) : Prop :=
  ∀ token ∈ tokens.head?, token ∈ [[','], [']'], ['\x7d']]

theorem Spaced.exists_cons {token cs : List Char} {tokens : List (List Char)}
    (h : Spaced (token :: tokens) cs) :
    ∃ ws rest, Blank ws ∧ Spaced tokens rest ∧ cs = ws ++ (token ++ rest) := by
  cases h with
  | cons hws h => exact ⟨_, _, hws, h, rfl⟩

/-- What may follow a value ends a number. -/
theorem Spaced.numberEnd {tokens : List (List Char)} {cs : List Char} (h : Spaced tokens cs)
    (hfollow : MayFollow tokens) : NumberEnd cs := by
  cases h with
  | nil hws =>
    have hend := numberEnd_append hws numberEnd_nil
    rwa [List.append_nil] at hend
  | cons hws h =>
    refine numberEnd_append hws ?_
    have htoken := hfollow _ rfl
    simp only [List.mem_cons, List.not_mem_nil, or_false] at htoken
    rcases htoken with rfl | rfl | rfl <;> exact numberEnd_cons (by decide)

namespace Reader
variable {α β σ : Type} {cs cs' : List Char} {tokens later : List (List Char)}

/-- From the text the reader takes the value and leaves the tokens, or it fails where there is no
value. -/
def Yields (r : Reader α) (later : List (List Char)) (cs : List Char) : Option α → Prop
  | some a => ∃ rest, r cs = .ok (a, rest) ∧ Spaced later rest ∧ rest.length < cs.length
  | none => Fails r cs

/-- What is read is the value, and the tokens are left. -/
theorem Yields.of_ok {r : Reader α} {o : Option α} {a : α} {rest : List Char}
    (h : Yields r later cs o) (hr : r cs = .ok (a, rest)) : o = some a ∧ Spaced later rest := by
  cases o with
  | some b =>
    obtain ⟨rest', hr', hrest, -⟩ := h
    obtain ⟨rfl, rfl⟩ := Prod.mk.inj (Except.ok.inj (hr'.symm.trans hr))
    exact ⟨rfl, hrest⟩
  | none => exact absurd hr (h _)

theorem Yields.map {r : Reader α} {o : Option α} (h : Yields r later cs o) (f : α → β) :
    Yields (f <$> r) later cs (f <$> o) := by
  cases o with
  | some a =>
    obtain ⟨rest, hr, hrest⟩ := h
    exact ⟨rest, map_of_ok hr, hrest⟩
  | none => exact Fails.map h f

/-- What one reader does with a text another does with a longer one. -/
theorem Yields.of_eq {r r' : Reader α} {o : Option α} (h : Yields r later cs o)
    (heq : r' cs' = r cs) (hle : cs.length ≤ cs'.length) : Yields r' later cs' o := by
  cases o with
  | some a =>
    obtain ⟨rest, hr, hrest, hshort⟩ := h
    exact ⟨rest, heq.trans hr, hrest, hshort.trans_le hle⟩
  | none =>
    intro p hp
    exact h p (heq.symm.trans hp)

/-- The same for the rounds of a loop. -/
def Turns (step : σ → Reader (σ ⊕ β)) (s : σ) (later : List (List Char)) (cs : List Char) :
    Option β → Prop
  | some b => ∃ rest, Rounds step s cs b rest ∧ Spaced later rest ∧ rest.length < cs.length
  | none => Breaks step s cs

/-- A loop does what its rounds come to. -/
theorem Turns.loop {step : σ → Reader (σ ⊕ β)} {s : σ} {o : Option β}
    (h : Turns step s later cs o) : Yields (loop step s) later cs o := by
  cases o with
  | some b =>
    obtain ⟨rest, hrounds, hrest⟩ := h
    exact ⟨rest, hrounds.loop, hrest⟩
  | none => exact Breaks.loop h

theorem Turns.go {step : σ → Reader (σ ⊕ β)} {s t : σ} {o : Option β}
    (hstep : step s cs = .ok (.inl t, cs')) (hlt : cs'.length < cs.length)
    (h : Turns step t later cs' o) : Turns step s later cs o := by
  cases o with
  | some b =>
    obtain ⟨rest, hrounds, hrest, hshort⟩ := h
    exact ⟨rest, .go hlt hstep hrounds, hrest, hshort.trans hlt⟩
  | none => exact Breaks.go hstep h

/-- Wherever the blanks are the reader takes the tokens for the value, or fails where there is
none. The first of them is the next to be read. -/
def Understands (r : Reader α) (Begins : List Char → Prop) (tokens : List (List Char))
    (o : Option α) : Prop :=
  ∃ token inner, tokens = token :: inner ∧ Begins token ∧ ∀ later cs, MayFollow later →
    Spaced (inner ++ later) cs → Yields r later (token ++ cs) o

/-! ### Finding -/

section finds
variable {r : Reader α} {inner middle : List (List Char)} {o : Option α} {c : Char}
  {token tail : List Char}

/-- Wherever the blanks are the reader takes the tokens for the value, or fails where there is
none. -/
def Finds (r : Reader α) (tokens : List (List Char)) (o : Option α) : Prop :=
  ∀ later cs, MayFollow later → Spaced (tokens ++ later) cs → Yields r later cs o

theorem Finds.map (h : Finds r tokens o) (f : α → β) : Finds (f <$> r) tokens (f <$> o) :=
  fun later cs hfollow hcs => (h later cs hfollow hcs).map f

theorem Finds.understands (h : Finds r tokens o) {Begins : List Char → Prop} {token : List Char}
    (htokens : tokens = token :: inner) (hbegins : Begins token) :
    Understands r Begins tokens o := by
  subst htokens
  refine ⟨token, inner, rfl, hbegins, fun later cs hfollow hcs => h later _ hfollow hcs.token⟩

/-- A reader that looks at the next token finds what it finds from there on. -/
theorem finds_peek {f : Char → Reader α} (hc : isBlank c = false)
    (h : ∀ later cs, MayFollow later → Spaced (inner ++ later) cs →
      Yields (f c) later (c :: (tail ++ cs)) o) :
    Finds (peekToken >>= f) ((c :: tail) :: inner) o := by
  intro later cs hfollow hcs
  obtain ⟨ws, cs', hws, hinner, rfl⟩ := hcs.exists_cons
  rw [List.cons_append]
  refine (h later cs' hfollow hinner).of_eq (peekToken_bind_append hws hc f) ?_
  simp only [List.length_append, List.length_cons]
  omega

theorem finds_none_of_peek {f : Char → Reader α} (hc : isBlank c = false)
    (h : ∀ cs, Fails (f c) cs) : Finds (peekToken >>= f) ((c :: tail) :: inner) none :=
  finds_peek hc fun _ _ _ _ => h _

/-- A reader that does not care for blanks finds what it understands. -/
theorem Understands.finds (h : Understands r BeginsItem tokens o)
    (hblank : ∀ {ws c cs}, Blank ws → isBlank c = false → r (ws ++ c :: cs) = r (c :: cs)) :
    Finds r tokens o := by
  obtain ⟨_, inner, rfl, ⟨c, tail, rfl, hc, -⟩, hread⟩ := h
  intro later cs hfollow hcs
  obtain ⟨ws, cs', hws, hinner, rfl⟩ := hcs.exists_cons
  refine (hread later cs' hfollow hinner).of_eq (hblank hws hc) ?_
  simp only [List.length_append]
  omega

/-- One reader goes on where another has left the text. -/
theorem Yields.bind {f : α → Reader β} {g : α → Option β} (h : Yields r middle cs o)
    (hf : ∀ a rest, Spaced middle rest → Yields (f a) later rest (g a)) :
    Yields (r >>= f) later cs (o >>= g) := by
  cases o with
  | none => exact Fails.bind h f
  | some a =>
    obtain ⟨rest, hok, hrest, hlt⟩ := h
    exact (hf a rest hrest).of_eq (bind_of_ok hok) (Nat.le_of_lt hlt)

/-- What does not come from the text takes nothing off it. -/
theorem Yields.lift_bind {e : Except Fault α} {f : α → Reader β} {g : α → Option β}
    (h : ∀ a, e = .ok a → Yields (f a) later cs (g a)) :
    Yields (liftM e >>= f) later cs (e.toOption >>= g) := by
  cases he : e with
  | ok a => exact (h a he).of_eq (bind_of_ok (lift_eq_ok rfl)) (Nat.le_refl _)
  | error fault =>
    have hlift : (liftM (Except.error fault : Except Fault α) : Reader α) cs = .error fault := rfl
    exact (fails_error hlift).bind f

/-- What is read may be refused afterwards. -/
theorem Yields.bind_lift (h : Yields r later cs o) (f : α → Except Fault β) :
    Yields (do f (← r)) later cs (o >>= fun a => (f a).toOption) := by
  cases o with
  | none => exact Fails.bind h _
  | some a =>
    obtain ⟨rest, hok, hrest⟩ := h
    show Yields (r >>= fun a => liftM (f a)) later cs (f a).toOption
    cases hf : f a with
    | ok b =>
      refine ⟨rest, ?_, hrest⟩
      rw [bind_of_ok hok]
      exact lift_eq_ok hf
    | error fault =>
      have hfails : (liftM (f a) : Reader β) rest = .error fault := by
        rw [hf]
        rfl
      exact .of_bind hok (fails_error hfails)

theorem yields_expectToken (hc : isBlank c = false) (hcs : Spaced ([c] :: later) cs) :
    Yields (expectToken c) later cs (some ()) := by
  obtain ⟨ws, rest, hws, hrest, rfl⟩ := hcs.exists_cons
  refine ⟨rest, expectToken_append hws hc, hrest, ?_⟩
  simp only [List.length_append, List.length_singleton]
  omega

theorem fails_expectToken {d : Char}
    (hc : isBlank c = false) (hne : c ≠ d) (hcs : Spaced ((c :: tail) :: later) cs) :
    Fails (expectToken d) cs := by
  obtain ⟨ws, rest, hws, hrest, rfl⟩ := hcs.exists_cons
  have hskip : skipBlank (ws ++ (c :: tail ++ rest)) = .ok ((), c :: tail ++ rest) := by
    refine skipBlank_append hws ?_
    rintro _ ⟨⟩
    exact hc
  exact .of_bind hskip (fails_expect hne)

/-- What is settled by a token is found where the token stands. -/
theorem Settles.yields (h : r.Settles token o)
    (hne : token ≠ []) (hfollow : MayFollow later) (hcs : Spaced later cs) :
    Yields r later (token ++ cs) o := by
  cases o with
  | some a =>
    refine ⟨cs, h cs (hcs.numberEnd hfollow), hcs, ?_⟩
    have hpos := List.length_pos_iff.mpr hne
    rw [List.length_append]
    omega
  | none => exact h cs (hcs.numberEnd hfollow)

/-- A key is read up to the colon behind it. -/
theorem Settles.yields_key (h : r.Settles token o) (hne : token ≠ [])
    (hcs : Spaced ([':'] :: later) cs) : Yields r ([':'] :: later) (token ++ cs) o := by
  have hend : NumberEnd cs := by
    obtain ⟨ws, rest, hws, -, rfl⟩ := hcs.exists_cons
    exact numberEnd_append hws (numberEnd_cons (by decide))
  cases o with
  | none => exact h cs hend
  | some a =>
    refine ⟨cs, h cs hend, hcs, ?_⟩
    have hpos := List.length_pos_iff.mpr hne
    rw [List.length_append]
    omega

/-- Behind a colon is found what is found without it. -/
theorem Finds.behind_colon (h : Finds r tokens o) : Finds (do
    expectToken ':'
    r) ([':'] :: tokens) o := by
  intro later cs hfollow hcs
  obtain ⟨rest, hexpect, hrest, hlt⟩ := yields_expectToken (by decide) hcs
  exact (h later rest hfollow hrest).of_eq (bind_of_ok hexpect) (Nat.le_of_lt hlt)

end finds

/-! ### Parts between brackets -/

namespace Brackets
variable {ι : Type} {b : Brackets} {Begins : List Char → Prop} {part : Reader α}
  {tokens : ι → List (List Char)} {value? : ι → Option α} {parts : List ι}

/-- Brackets before whose commas there may be blanks. -/
structure EnclosesSpaced (b : Brackets) (Begins : List Char → Prop) : Prop
    extends b.Encloses Begins where
  /-- Blanks before a comma make no difference. -/
  blank : ∀ {ws c cs}, Blank ws → isBlank c = false →
    b.hasPart false (ws ++ c :: cs) = b.hasPart false (c :: cs)
  /-- The closing bracket may follow a value. -/
  closes : [b.closing] ∈ [[','], [']'], ['\x7d']]

/-- The tokens of parts, each behind a comma but for the first of all. -/
def partTokens : Bool → List (List (List Char)) → List (List Char)
  | true, parts => withCommas parts
  | false, parts => parts.flatMap ([','] :: ·)

theorem partTokens_nil (first : Bool) : partTokens first [] = [] := by cases first <;> rfl

/-- What comes behind a part is a comma or the closing bracket. -/
theorem EnclosesSpaced.mayFollow (hb : b.EnclosesSpaced Begins) (parts : List (List (List Char))) :
    MayFollow (partTokens false parts ++ [b.closing] :: later) := by
  cases parts with
  | nil =>
    rintro _ ⟨⟩
    exact hb.closes
  | cons part parts =>
    rintro _ ⟨⟩
    exact List.mem_cons_self

/-- Where a part follows it is found, and the comma before it is taken. -/
theorem EnclosesSpaced.hasPart_cons (hb : b.EnclosesSpaced Begins) {first : Bool}
    {token : List Char} {inner : List (List Char)} {parts : List (List (List Char))}
    (hbegins : Begins token)
    (hcs : Spaced (partTokens first ((token :: inner) :: parts) ++ later) cs) :
    ∃ cs', b.hasPart first cs = .ok (true, token ++ cs') ∧
      Spaced (inner ++ (partTokens false parts ++ later)) cs' ∧
      (token ++ cs').length ≤ cs.length := by
  cases first with
  | true =>
    rw [partTokens, withCommas, List.append_assoc] at hcs
    obtain ⟨ws, cs', hws, hinner, rfl⟩ := hcs.exists_cons
    refine ⟨cs', hb.first hws hbegins, hinner, ?_⟩
    simp only [List.length_append]
    omega
  | false =>
    rw [partTokens, List.flatMap_cons, List.append_assoc] at hcs
    obtain ⟨ws, _, hws, hpart, rfl⟩ := hcs.exists_cons
    obtain ⟨vs, cs', hvs, hinner, rfl⟩ := hpart.exists_cons
    refine ⟨cs', (hb.blank hws (by decide)).trans (hb.comma hvs hbegins), hinner, ?_⟩
    simp only [List.length_append, List.length_cons]
    omega

section pass
variable {pass : σ → Reader σ} {take : σ → ι → Option σ} {first : Bool}

/-- At the closing bracket the loop gives its state. -/
theorem EnclosesSpaced.turns_close (hb : b.EnclosesSpaced Begins)
    (hcs : Spaced ([b.closing] :: later) cs) (pass : σ → Reader σ) (s : σ) :
    Turns (b.step pass) (first, s) later cs (some s) := by
  obtain ⟨ws, rest, hws, hrest, rfl⟩ := hcs.exists_cons
  refine ⟨rest, .stop (by simp) (step_close (hb.close first hws) (expect_cons b.closing) pass s),
    hrest, ?_⟩
  simp only [List.length_append, List.length_singleton]
  omega

/-- At a part the loop passes its state through it, if it can, and goes on. -/
theorem turns_part {s : σ} {o : Option σ} {others : σ → Option σ}
    (hhas : b.hasPart first cs = .ok (true, cs')) (hle : cs'.length ≤ cs.length)
    {after : List (List Char)} (hpart : Yields (pass s) after cs' o)
    (h : ∀ t rest, Spaced after rest → Turns (b.step pass) (false, t) later rest (others t)) :
    Turns (b.step pass) (first, s) later cs (o >>= others) := by
  cases o with
  | none =>
    refine .here (.of_bind hhas ?_)
    rw [if_pos rfl]
    exact Fails.bind hpart _
  | some t =>
    obtain ⟨rest, hok, hrest, hshort⟩ := hpart
    exact .go (step_part hhas hok) (hshort.trans_le hle) (h t rest hrest)

/-- The loop between brackets does with the parts what is to be done with each, and fails at the
first with which it fails. -/
theorem EnclosesSpaced.turns (hb : b.EnclosesSpaced Begins)
    (h : ∀ p ∈ parts, ∀ s, Understands (pass s) Begins (tokens p) (take s p))
    (hcs : Spaced (partTokens first (parts.map tokens) ++ [b.closing] :: later) cs) (s : σ) :
    Turns (b.step pass) (first, s) later cs (parts.foldlM take s) := by
  induction parts generalizing first cs s with
  | nil =>
    rw [List.map_nil, partTokens_nil] at hcs
    exact hb.turns_close hcs pass s
  | cons p parts ih =>
    obtain ⟨hp, hparts⟩ := List.forall_mem_cons.mp h
    obtain ⟨token, inner, htokens, hbegins, hread⟩ := hp s
    rw [List.map_cons, htokens] at hcs
    obtain ⟨cs', hhas, hinner, hle⟩ := hb.hasPart_cons hbegins hcs
    rw [List.foldlM_cons]
    exact turns_part hhas hle (hread _ cs' (hb.mayFollow _) hinner)
      fun t rest hrest => ih hparts hrest t

/-- **A state is passed through parts between brackets as through each of them.** -/
theorem EnclosesSpaced.yields_pass (hb : b.EnclosesSpaced Begins)
    (h : ∀ p ∈ parts, ∀ s, Understands (pass s) Begins (tokens p) (take s p))
    (hcs : Spaced (withCommas (parts.map tokens) ++ [b.closing] :: later) cs) (s : σ) :
    Yields (b.pass pass s) later cs (parts.foldlM take s) := by
  have hfirst : Spaced (partTokens true (parts.map tokens) ++ [b.closing] :: later) cs := hcs
  exact (hb.turns h hfirst s).loop

end pass

/-- The state holds the parts that have been read, the latest first. -/
theorem foldlM_push (parts : List ι) (read : List α) :
    List.reverse <$> parts.foldlM (fun read p => (· :: read) <$> value? p) read =
      (read.reverse ++ ·) <$> parts.mapM value? := by
  induction parts generalizing read with
  | nil => simp
  | cons p parts ih =>
    rw [List.foldlM_cons, List.mapM_cons]
    cases value? p with
    | none => rfl
    | some a =>
      refine (ih (a :: read)).trans ?_
      cases parts.mapM value? <;> simp

/-- **Parts between brackets are understood if each of them is.** -/
theorem EnclosesSpaced.yields_collect (hb : b.EnclosesSpaced Begins)
    (h : ∀ p ∈ parts, Understands part Begins (tokens p) (value? p))
    (hcs : Spaced (withCommas (parts.map tokens) ++ [b.closing] :: later) cs) :
    Yields (b.collect part) later cs (parts.mapM value?) := by
  have hpush : ∀ p ∈ parts, ∀ read : List α, Understands (do return (← part) :: read) Begins
      (tokens p) ((· :: read) <$> value? p) := by
    intro p hp read
    obtain ⟨token, inner, htokens, hbegins, hread⟩ := h p hp
    exact ⟨token, inner, htokens, hbegins, fun later cs hfollow hcs =>
      (hread later cs hfollow hcs).map (· :: read)⟩
  have hpass := (hb.yields_pass hpush hcs []).map List.reverse
  rwa [foldlM_push, List.reverse_nil, show ([] ++ · : List α → List α) = id from rfl,
    id_map] at hpass

end Brackets

theorem square_enclosesSpaced : square.EnclosesSpaced BeginsItem where
  toEncloses := square_encloses
  blank {ws c cs} hws hc := by
    show hasItem false (ws ++ c :: cs) = hasItem false (c :: cs)
    rw [hasItem, peekToken_bind_append hws hc, bind_of_ok (peekToken_cons hc)]
  closes := by decide

theorem curly_enclosesSpaced : curly.EnclosesSpaced BeginsMember where
  toEncloses := curly_encloses
  blank {ws c cs} hws hc := by
    show hasMember false (ws ++ c :: cs) = hasMember false (c :: cs)
    rw [hasMember, peekToken_bind_append hws hc, bind_of_ok (peekToken_cons hc)]
  closes := by decide

/-! ### Values -/

/-- A scalar stands for what its token means. -/
theorem understands_scalar {token : List Char} (h : ScalarToken token)
    (inner : Option (Reader Json)) :
    Understands (treeOver .exact inner) BeginsItem [token] (meaning? token) :=
  ⟨token, [], rfl, h.beginsItem, fun _ _ hfollow hcs =>
    (settles_of_scalarToken h inner).yields (square_encloses.ne_nil h.beginsItem) hfollow hcs⟩

/-- A member stands for its key and its value, if both stand for something. -/
theorem understands_member {keys : Reader String} {value : Reader α} {key : List Char}
    {k : Option String} {o : Option α} (hkey : StringToken key) (hkeys : keys.Settles key k)
    (h : Finds value tokens o) :
    Understands (member keys value) BeginsMember (key :: [':'] :: tokens)
      (do return (← k, ← o)) := by
  have hne : key ≠ [] := curly_encloses.ne_nil hkey.beginsMember
  refine ⟨key, _, rfl, hkey.beginsMember, fun later cs hfollow hcs => ?_⟩
  refine (hkeys.yields_key hne hcs).bind fun k rest hrest => ?_
  have hpair : (do return (k, ← o) : Option (String × α)) = Prod.mk k <$> o := by cases o <;> rfl
  rw [hpair]
  exact (h.map (Prod.mk k)).behind_colon later rest hfollow hrest

theorem treeOver_blank {leaves : Leaves} {inner : Option (Reader Json)} {ws : List Char} {c : Char}
    (hws : Blank ws) (hc : isBlank c = false) :
    treeOver leaves inner (ws ++ c :: cs) = treeOver leaves inner (c :: cs) := by
  rw [treeOver, peekToken_bind_append hws hc, bind_of_ok (peekToken_cons hc)]

theorem treeWith_blank {leaves : Leaves} {depth : Nat} {ws : List Char} {c : Char} (hws : Blank ws)
    (hc : isBlank c = false) :
    treeWith leaves depth (ws ++ c :: cs) = treeWith leaves depth (c :: cs) := by
  cases depth with
  | zero => exact treeOver_blank hws hc
  | succ depth => exact treeOver_blank hws hc

theorem tree_blank {depth : Nat} {ws : List Char} {c : Char} (hws : Blank ws)
    (hc : isBlank c = false) : tree depth (ws ++ c :: cs) = tree depth (c :: cs) :=
  treeWith_blank hws hc

/-- **The reader understands every spelling**, at every depth. -/
theorem understands_tree {s : Spelling} (h : s.Sound) (depth : Nat) :
    Understands (tree depth) BeginsItem s.tokens (s.value? depth) := by
  -- without a level left a bracket is refused before anything behind it is read
  induction depth generalizing s with
  | zero =>
    cases h with
    | scalar h =>
      rw [Spelling.tokens, Spelling.value?]
      exact understands_scalar h none
    | array h =>
      rw [Spelling.tokens, Spelling.value?]
      exact ⟨['['], _, rfl, ⟨'[', [], rfl, by decide, by decide⟩, fun _ _ _ _ => fails_error rfl⟩
    | object keys h =>
      rw [Spelling.tokens, Spelling.value?]
      exact ⟨['\x7b'], _, rfl, ⟨'\x7b', [], rfl, by decide, by decide⟩,
        fun _ _ _ _ => fails_error rfl⟩
  | succ depth ih =>
    cases h with
    | scalar h =>
      rw [Spelling.tokens, Spelling.value?]
      exact understands_scalar h (some (tree depth))
    | @array items h =>
      rw [Spelling.tokens, Spelling.value?, Spelling.itemValues?_eq_mapM,
        Spelling.itemTokens_eq_map]
      refine ⟨['['], _, rfl, ⟨'[', [], rfl, by decide, by decide⟩, fun later cs _ hcs => ?_⟩
      rw [List.append_assoc] at hcs
      have hitems : Yields (arrayItems (tree depth)) later cs
          (items.mapM (Spelling.value? depth)) :=
        square_enclosesSpaced.yields_collect (fun s hs => ih (h s hs)) hcs
      exact (hitems.map Json.array).of_eq rfl (Nat.le_add_right _ _)
    | @object members keys h =>
      rw [Spelling.tokens, Spelling.value?, Spelling.memberValues?_eq_mapM,
        Spelling.memberTokens_eq_map]
      refine ⟨['\x7b'], _, rfl, ⟨'\x7b', [], rfl, by decide, by decide⟩, fun later cs _ hcs => ?_⟩
      rw [List.append_assoc] at hcs
      have hmembers : Yields (objectMembers quoted (tree depth)) later cs
          (members.mapM (Spelling.memberValue? depth)) :=
        curly_enclosesSpaced.yields_collect (fun m hm => understands_member (keys m hm)
          (settles_of_stringToken (keys m hm)) ((ih (h m hm)).finds tree_blank)) hcs
      exact (hmembers.map Json.object).of_eq rfl (Nat.le_add_right _ _)

/-- **The reader finds the value of a spelling** in every text of it. -/
theorem finds_tree {s : Spelling} (h : s.Sound) (depth : Nat) :
    Finds (tree depth) s.tokens (s.value? depth) :=
  (understands_tree h depth).finds tree_blank

theorem Fails.bind_of_forall {r : Reader α} {f : α → Reader β} (h : ∀ a cs, Fails (f a) cs) :
    Fails (r >>= f) cs := by
  rintro ⟨b, rest⟩ hp
  obtain ⟨a, cs', -, hb⟩ := bind_eq_ok_iff.mp hp
  exact h a cs' _ hb

theorem fails_failType (expected : String) : Fails (failType expected : Reader α) cs :=
  .bind_of_forall fun _ _ => fails_error rfl

theorem finish_of_blank {rest : List Char} (h : Blank rest) : finish rest = .ok ((), []) := by
  have hskip : skipBlank (rest ++ []) = .ok ((), []) := skipBlank_append h nofun
  rw [List.append_nil] at hskip
  rw [finish, bind_of_ok hskip]
  rfl

/-- A text with nothing but blanks behind the value is read as the value. -/
theorem readAll_of_blank {r : Reader α} {text : String} {a : α} {rest : List Char}
    (h : r text.toList = .ok (a, rest)) (hrest : Blank rest) : r.readAll text = .ok a := by
  show Prod.fst <$> (r >>= fun a => finish >>= fun _ => pure a) text.toList = .ok a
  rw [bind_of_ok h, bind_of_ok (finish_of_blank hrest)]
  rfl

theorem readAll_of_error {r : Reader α} {text : String} {fault : Fault}
    (h : r text.toList = .error fault) : r.readAll text = .error fault := by
  show Prod.fst <$> (r >>= fun a => finish >>= fun _ => pure a) text.toList = .error fault
  rw [bind_of_error h]
  rfl

theorem readAll_ne_ok {r : Reader α} {text : String} (h : Fails r text.toList) (a : α) :
    r.readAll text ≠ .ok a := by
  intro hread
  obtain ⟨p, hp, -⟩ := PipelineCanvas.map_eq_ok_iff.mp hread
  exact h.bind _ p hp

end Reader

end PipelineCanvas.Json
