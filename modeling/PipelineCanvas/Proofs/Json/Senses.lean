import PipelineCanvas.Proofs.Json.Shapes
import PipelineCanvas.Proofs.Json.Spellings
/-! # What a reader makes of a spelling

A reader **finds** a value in tokens if it takes them for that value in every text, wherever the
blanks are, or finds none if it fails in every text. Where it does one or the other, the spelling
has a **sense** for the reader, which is what it makes of the tokens alone
(`Reader.Finds.sense_eq`). So whatever is proved of the sense is proved of every text of the
spelling.

The shapes decide on every spelling (`Shape.Decides`). The proofs go by the first character of the
spelling, as the readers do: it says of which sort the spelling is, and any value that it has
(`Spelling.Begins`, `Spelling.Sound.exists_begins`). Either the shape goes on from there, or it
refuses the spelling, and then nothing is viewed in its value either.

Most shapes are also **plain** (`Shape.Plain`): the sense is what the shape views in the value of
the spelling. So it makes no difference whether a text is read in one pass or as a tree first. A
choice is not plain where it is written as an object around an empty one (`Shape.plain_choice`). -/
namespace PipelineCanvas.Json
open Reader
variable {α β : Type}

/-! ### Finding -/

namespace Reader
variable {r : Reader α} {tokens inner : List (List Char)} {o : Option α} {sp : Spelling} {c : Char}
  {tail : List Char}

/-- What the reader makes of the tokens of the spelling alone. -/
def sense (r : Reader α) (sp : Spelling) : Option α :=
  (r.readAll (String.ofList sp.tokens.flatten)).toOption

/-- What is found in the tokens is read off a text of them. -/
theorem Finds.readAll (h : Finds r tokens o) {text : String} (htext : Spaced tokens text.toList) :
    (r.readAll text).toOption = o := by
  have hyields := h [] text.toList nofun (by rwa [List.append_nil])
  cases o with
  | some a =>
    obtain ⟨rest, hok, hrest, -⟩ := hyields
    rw [readAll_of_blank hok hrest.blank]
    rfl
  | none =>
    cases hread : r.readAll text with
    | ok a => exact absurd hread (readAll_ne_ok hyields a)
    | error fault => rfl

/-- What is found in the tokens is the sense of the spelling. -/
theorem Finds.sense_eq (h : Finds r sp.tokens o) : r.sense sp = o :=
  h.readAll (by rw [String.toList_ofList]; exact spaced_flatten _)

theorem Finds.sense (h : Finds r sp.tokens o) : Finds r sp.tokens (r.sense sp) := by
  rwa [h.sense_eq]

end Reader

/-! ### Sound spellings -/

/-- A value of the sort of the tree begins with the character. -/
def Opens : Json → Char → Prop
  | .null, c => c = 'n'
  | .bool _, c => c = 't' ∨ c = 'f'
  | .string _, c => c = '"'
  | .number _, c => c = '-' ∨ c.isDigit = true
  | .array _, c => c = '['
  | .object _, c => c = '\x7b'

namespace Spelling
variable {sp : Spelling} {depth : Nat} {t : Json}

/-- A spelling has a first token, and this does not close an array. -/
theorem Sound.exists_tokens (h : sp.Sound) :
    ∃ token inner, sp.tokens = token :: inner ∧ BeginsItem token := by
  obtain ⟨token, inner, htokens, hbegins, -⟩ := understands_tree h 0
  exact ⟨token, inner, htokens, hbegins⟩

theorem Sound.understands (h : sp.Sound) {r : Reader α} {o : Option α}
    (hr : Finds r sp.tokens o) : Understands r BeginsItem sp.tokens o := by
  obtain ⟨token, inner, htokens, hbegins⟩ := h.exists_tokens
  exact hr.understands htokens hbegins

/-- The first character of a spelling says of which sort it is, and its value. -/
structure Begins (sp : Spelling) (c : Char) : Prop where
  /-- It is no blank. -/
  blank : isBlank c = false
  /-- It is the first character of the first token. -/
  tokens : ∃ tail inner, sp.tokens = (c :: tail) :: inner
  /-- Only the one word begins with this letter. -/
  null : c = 'n' → sp = .scalar ['n', 'u', 'l', 'l']
  /-- Only strings begin with a quote. -/
  string : c = '"' → ∃ token, StringToken token ∧ sp = .scalar token
  /-- Only numbers begin with a digit or a sign. -/
  number : c = '-' ∨ c.isDigit = true → ∃ token, NumberToken token ∧ sp = .scalar token
  /-- Only arrays begin with a bracket. -/
  array : c = '[' → ∃ items, sp = .array items
  /-- Only objects begin with a brace. -/
  object : c = '\x7b' → ∃ members, sp = .object members
  /-- A value of the spelling is of this sort too. -/
  opens : ∀ depth t, sp.value? depth = some t → t.Opens c

theorem begins_bool {b : Bool} {token tail : List Char} {c : Char} (htoken : token = c :: tail)
    (hc : c = 't' ∨ c = 'f') (hmeaning : meaning? token = some (.bool b)) :
    (Spelling.scalar token).Begins c := by
  have hopens : ∀ depth t, (Spelling.scalar token).value? depth = some t → t.Opens c := by
    intro depth t ht
    rw [value?, hmeaning] at ht
    cases ht
    exact hc
  have htokens : ∃ tail inner, (Spelling.scalar token).tokens = (c :: tail) :: inner :=
    ⟨tail, [], congrArg (· :: []) htoken⟩
  rcases hc with rfl | rfl <;> exact ⟨by decide, htokens, (absurd · (by decide)),
    (absurd · (by decide)), (absurd · (by decide)), (absurd · (by decide)), (absurd · (by decide)),
    hopens⟩

/-- **Every spelling has a first character that tells its sort.** -/
theorem Sound.exists_begins (h : sp.Sound) : ∃ c, sp.Begins c := by
  cases h with
  | @scalar token h =>
    cases h with
    | null =>
      refine ⟨'n', by decide, ⟨_, [], rfl⟩, fun _ => rfl, (absurd · (by decide)),
        (absurd · (by decide)), (absurd · (by decide)), (absurd · (by decide)), ?_⟩
      rintro _ _ ⟨⟩
      rfl
    | true => exact ⟨'t', begins_bool (b := .true) rfl (.inl rfl) rfl⟩
    | false => exact ⟨'f', begins_bool (b := .false) rfl (.inr rfl) rfl⟩
    | string h =>
      have hopens : ∀ depth t, (Spelling.scalar token).value? depth = some t → t.Opens '"' := by
        intro depth t ht
        rw [value?, meaning?_of_stringToken h] at ht
        obtain ⟨s, -, rfl⟩ := Option.map_eq_some_iff.mp ht
        rfl
      obtain ⟨tail, rfl⟩ := h.beginsMember
      exact ⟨'"', by decide, ⟨tail, [], rfl⟩, (absurd · (by decide)), fun _ => ⟨_, h, rfl⟩,
        (absurd · (by decide)), (absurd · (by decide)), (absurd · (by decide)), hopens⟩
    | number h =>
      have hmeaning := meaning?_of_numberToken h
      obtain ⟨c, tail, rfl, hc⟩ := h.exists_cons
      have hne : ∀ {d : Char}, ¬(d = '-' ∨ d.isDigit = true) → c ≠ d := fun hd heq => hd (heq ▸ hc)
      refine ⟨c, isBlank_of_numberStart hc, ⟨tail, [], rfl⟩, (absurd · (hne (by decide))),
        (absurd · (hne (by decide))), fun _ => ⟨_, h, rfl⟩, (absurd · (hne (by decide))),
        (absurd · (hne (by decide))), fun depth t ht => ?_⟩
      rw [value?, hmeaning] at ht
      obtain ⟨n, -, rfl⟩ := Option.map_eq_some_iff.mp ht
      exact hc
  | @array items h =>
    refine ⟨'[', by decide, ⟨[], _, rfl⟩, (absurd · (by decide)), (absurd · (by decide)),
      (absurd · (by decide)), fun _ => ⟨items, rfl⟩, (absurd · (by decide)), ?_⟩
    rintro (_ | depth) t ht
    · cases ht
    · obtain ⟨ts, -, rfl⟩ := Option.map_eq_some_iff.mp ht
      rfl
  | @object members keys h =>
    refine ⟨'\x7b', by decide, ⟨[], _, rfl⟩, (absurd · (by decide)), (absurd · (by decide)),
      (absurd · (by decide)), (absurd · (by decide)), fun _ => ⟨members, rfl⟩, ?_⟩
    rintro (_ | depth) t ht
    · cases ht
    · obtain ⟨ms, -, rfl⟩ := Option.map_eq_some_iff.mp ht
      rfl

/-- What the shape views in the value of the spelling. -/
def viewed? (sp : Spelling) (s : Shape α) (depth : Nat) : Option α :=
  sp.value? depth >>= fun t => (s.view t).toOption

theorem viewed?_eq_none {s : Shape α}
    (h : ∀ t, sp.value? depth = some t → (s.view t).toOption = none) :
    sp.viewed? s depth = none := by
  unfold viewed?
  cases hvalue : sp.value? depth with
  | none => rfl
  | some t => exact h t hvalue

theorem viewed?_string {s : Shape α} {token : List Char} (h : StringToken token) :
    (Spelling.scalar token).viewed? s depth =
      key? token >>= fun k => (s.view (.string k)).toOption := by
  rw [viewed?, value?, meaning?_of_stringToken h]
  cases key? token <;> rfl

theorem viewed?_number {s : Shape α} {token : List Char} (h : NumberToken token) :
    (Spelling.scalar token).viewed? s depth =
      number? token >>= fun n => (s.view (.number n)).toOption := by
  rw [viewed?, value?, meaning?_of_numberToken h]
  cases number? token <;> rfl

end Spelling

/-! ### Shapes -/

namespace Shape
variable {s : Shape α} {sp : Spelling} {depth : Nat}

/-- The shape makes the same of a sound spelling in every text. -/
def Decides (s : Shape α) : Prop :=
  ∀ depth sp, sp.Sound → Finds (s.read depth) sp.tokens ((s.read depth).sense sp)

/-- A shape decides if something is found in every spelling, whatever it is. -/
theorem decides_of_exists
    (h : ∀ depth (sp : Spelling), sp.Sound → ∃ o, Finds (s.read depth) sp.tokens o) :
    s.Decides := by
  intro depth sp hsound
  obtain ⟨o, ho⟩ := h depth sp hsound
  exact ho.sense

/-- What the shape makes of the spelling is what it views in its value. -/
def Plain (s : Shape α) (sp : Spelling) : Prop :=
  ∀ depth, (s.read depth).sense sp = sp.viewed? s depth

/-- What is read off a text is what the shape makes of its spelling. -/
theorem Decides.ofText (h : s.Decides) (hsound : sp.Sound) {text : String}
    (htext : Spaced sp.tokens text.toList) :
    (s.ofText text).toOption = (s.read maxDepth).sense sp :=
  (h maxDepth sp hsound).readAll htext

/-- What is read off a text in one pass is what is viewed in its tree. -/
theorem Plain.ofText (h : s.Plain sp) (hs : s.Decides) (hsound : sp.Sound) {text : String}
    (htext : Spaced sp.tokens text.toList) : (s.ofText text).toOption = sp.viewed? s maxDepth :=
  (hs.ofText hsound htext).trans (h maxDepth)

theorem Decides.imap (h : s.Decides) (f : α → β) (g : β → α) : (s.imap f g).Decides :=
  decides_of_exists fun depth sp hsound =>
    ⟨f <$> (s.read depth).sense sp, (h depth sp hsound).map f⟩

theorem Plain.imap (h : s.Plain sp) (hs : s.Decides) (hsound : sp.Sound) (f : α → β) (g : β → α) :
    (s.imap f g).Plain sp := by
  intro depth
  have hsense : ((s.imap f g).read depth).sense sp = f <$> (s.read depth).sense sp :=
    ((hs depth sp hsound).map f).sense_eq
  rw [hsense, h depth]
  unfold Spelling.viewed?
  cases sp.value? depth with
  | none => rfl
  | some t =>
    show f <$> (s.view t).toOption = (f <$> s.view t).toOption
    cases s.view t <;> rfl

/-! ### Strings, numbers and properties -/

/-- A string is found in the spelling of one and in no other. -/
theorem finds_string (h : sp.Sound) (depth : Nat) :
    Finds (Shape.string.read depth) sp.tokens (sp.viewed? .string depth) := by
  obtain ⟨c, hc⟩ := h.exists_begins
  obtain ⟨tail, inner, htokens⟩ := hc.tokens
  by_cases hquote : c = '"'
  · obtain ⟨token, htoken, rfl⟩ := hc.string hquote
    obtain ⟨rfl, rfl⟩ := List.cons.inj htokens
    have hvalue : (Spelling.scalar (c :: tail)).viewed? .string depth = key? (c :: tail) := by
      rw [Spelling.viewed?_string htoken]
      exact bind_pure (key? (c :: tail))
    rw [hvalue]
    refine finds_peek hc.blank fun later cs hfollow hcs => ?_
    rw [if_pos hquote]
    exact (settles_of_stringToken htoken).yields (List.cons_ne_nil _ _) hfollow hcs
  · have hview : sp.viewed? .string depth = none := by
      refine Spelling.viewed?_eq_none fun t ht => ?_
      have hopens := hc.opens depth t ht
      cases t with
      | string s => exact absurd hopens hquote
      | _ => rfl
    rw [hview, htokens]
    refine finds_none_of_peek hc.blank fun cs => ?_
    rw [if_neg hquote]
    exact fails_failType _

/-- A number is found in the spelling of one, if it is picked. -/
theorem finds_numberWith (expected : String) (pick : Number → Except Fault α) (put : α → Json)
    (h : sp.Sound) (depth : Nat) : Finds ((numberWith expected pick put).read depth) sp.tokens
      (sp.viewed? (numberWith expected pick put) depth) := by
  obtain ⟨c, hc⟩ := h.exists_begins
  obtain ⟨tail, inner, htokens⟩ := hc.tokens
  by_cases hnumber : c = '-' ∨ c.isDigit = true
  · obtain ⟨token, htoken, rfl⟩ := hc.number hnumber
    obtain ⟨rfl, rfl⟩ := List.cons.inj htokens
    rw [Spelling.viewed?_number htoken]
    refine finds_peek hc.blank fun later cs hfollow hcs => ?_
    rw [if_pos hnumber]
    have hyields : Yields Reader.number later (c :: tail ++ cs) (number? (c :: tail)) :=
      (settles_of_numberToken htoken).yields (List.cons_ne_nil _ _) hfollow hcs
    exact hyields.bind_lift pick
  · have hview : sp.viewed? (numberWith expected pick put) depth = none := by
      refine Spelling.viewed?_eq_none fun t ht => ?_
      have hopens := hc.opens depth t ht
      cases t with
      | number n => exact absurd hopens hnumber
      | _ => rfl
    rw [hview, htokens]
    refine finds_none_of_peek hc.blank fun cs => ?_
    rw [if_neg hnumber]
    exact fails_failType _

/-- Properties are found in the spelling of an object. -/
theorem finds_properties (h : sp.Sound) (depth : Nat) :
    Finds (Shape.properties.read depth) sp.tokens (sp.viewed? .properties depth) := by
  obtain ⟨c, hc⟩ := h.exists_begins
  obtain ⟨tail, inner, htokens⟩ := hc.tokens
  by_cases hbrace : c = '\x7b'
  · have htree : Finds (tree depth) sp.tokens (sp.value? depth) := finds_tree h depth
    rw [htokens] at htree ⊢
    refine finds_peek hc.blank fun later cs hfollow hcs => ?_
    rw [if_neg (not_not_intro hbrace)]
    have hyields := (htree later (c :: tail ++ cs) hfollow hcs.token).bind_lift
      Shape.properties.view
    refine hyields.of_eq ?_ (Nat.le_refl _)
    refine congrFun (congrArg (tree depth >>= ·) (funext fun t => ?_)) _
    cases t <;> rfl
  · have hview : sp.viewed? .properties depth = none := by
      refine Spelling.viewed?_eq_none fun t ht => ?_
      have hopens := hc.opens depth t ht
      cases t with
      | object members => exact absurd hopens hbrace
      | _ => rfl
    rw [hview, htokens]
    refine finds_none_of_peek hc.blank fun cs => ?_
    rw [if_pos hbrace]
    exact (fails_failType _).bind _

theorem decides_string : Shape.string.Decides :=
  decides_of_exists fun depth _ h => ⟨_, finds_string h depth⟩

theorem plain_string (h : sp.Sound) : Shape.string.Plain sp :=
  fun depth => (finds_string h depth).sense_eq

theorem decides_numberWith (expected : String) (pick : Number → Except Fault α) (put : α → Json) :
    (numberWith expected pick put).Decides :=
  decides_of_exists fun depth _ h => ⟨_, finds_numberWith expected pick put h depth⟩

theorem plain_numberWith (expected : String) (pick : Number → Except Fault α) (put : α → Json)
    (h : sp.Sound) : (numberWith expected pick put).Plain sp :=
  fun depth => (finds_numberWith expected pick put h depth).sense_eq

theorem decides_properties : Shape.properties.Decides :=
  decides_of_exists fun depth _ h => ⟨_, finds_properties h depth⟩

theorem plain_properties (h : sp.Sound) : Shape.properties.Plain sp :=
  fun depth => (finds_properties h depth).sense_eq

/-- **Properties are read off a text just if it spells an object**, and they are its members. -/
theorem ofText_properties_eq_ok_iff (h : sp.Sound) {text : String}
    (htext : Spaced sp.tokens text.toList) {p : Properties} :
    Shape.properties.ofText text = .ok p ↔
      ∃ members, sp.value? maxDepth = some (.object members) ∧
        Properties.ofMembers members = p := by
  rw [← toOption_eq_some_iff, (plain_properties h).ofText decides_properties h htext]
  unfold Spelling.viewed?
  cases sp.value? maxDepth with
  | none => simp
  | some t =>
    cases t with
    | object members =>
      show some (Properties.ofMembers members) = some p ↔ _
      simp
    | _ => exact ⟨nofun, nofun⟩

/-! ### Optional values -/

theorem decides_value : Shape.value.Decides :=
  decides_of_exists fun depth _ h => ⟨_, (finds_tree h depth).map Value.ofJson⟩

theorem Decides.optional (hs : s.Decides) : (Shape.optional s).Decides := by
  refine decides_of_exists fun depth sp h => ?_
  obtain ⟨c, hc⟩ := h.exists_begins
  by_cases hnull : c = 'n'
  · obtain rfl := hc.null hnull
    refine ⟨some none, finds_peek (by decide) fun later cs hfollow hcs => ?_⟩
    rw [if_pos rfl]
    exact (settles_word fun _ => none).yields (List.cons_ne_nil 'n' _) hfollow hcs
  · obtain ⟨tail, inner, htokens⟩ := hc.tokens
    have hread := (hs depth sp h).map some
    rw [htokens] at hread ⊢
    refine ⟨some <$> (s.read depth).sense sp, finds_peek hc.blank fun later cs hfollow hcs => ?_⟩
    rw [if_neg hnull]
    exact hread later (c :: tail ++ cs) hfollow hcs.token

/-! ### Lists -/

/-- What a list makes of a spelling: the items of an array, if there is a value in each of them. -/
def listed? (s : Shape α) : Nat → Spelling → Option (List α)
  | depth + 1, .array items => items.mapM (s.read depth).sense
  | _, _ => none

theorem listed?_eq_none {depth : Nat} (h : ∀ items, sp ≠ .array items) :
    listed? s depth sp = none := by
  unfold listed?
  split
  · exact absurd rfl (h _)
  · rfl

/-- **A list is found in an array** whose items are all found by the shape. -/
theorem finds_list (hs : s.Decides) (h : sp.Sound) (depth : Nat) :
    Finds ((Shape.list s).read depth) sp.tokens (listed? s depth sp) := by
  obtain ⟨c, hc⟩ := h.exists_begins
  obtain ⟨tail, inner, htokens⟩ := hc.tokens
  by_cases hbracket : c = '['
  · obtain ⟨items, rfl⟩ := hc.array hbracket
    cases h with
    | array h =>
    rw [Spelling.tokens, Spelling.itemTokens_eq_map]
    refine finds_peek (by decide) fun later cs hfollow hcs => ?_
    cases depth with
    | zero => exact fails_error rfl
    | succ depth =>
      rw [List.append_assoc] at hcs
      have hitems : Yields (arrayItems (s.read depth)) later cs
          (items.mapM (s.read depth).sense) :=
        square_enclosesSpaced.yields_collect
          (fun i hi => (h i hi).understands (hs depth i (h i hi))) hcs
      exact hitems.of_eq rfl (Nat.le_succ _)
  · rw [listed?_eq_none, htokens]
    · refine finds_none_of_peek hc.blank fun cs => ?_
      rw [if_pos hbracket]
      exact (fails_failType _).bind _
    · rintro items rfl
      exact hbracket (List.cons.inj (List.cons.inj htokens).1).1.symm

theorem Decides.list (hs : s.Decides) : (Shape.list s).Decides :=
  decides_of_exists fun depth _ h => ⟨_, finds_list hs h depth⟩

theorem sense_list (hs : s.Decides) (h : sp.Sound) (depth : Nat) :
    ((Shape.list s).read depth).sense sp = listed? s depth sp :=
  (finds_list hs h depth).sense_eq

/-- Values are viewed one by one. -/
theorem mapM_bind_view {ι β : Type} (value? : ι → Option β) (view : β → Except Fault α)
    (items : List ι) : (items.mapM value? >>= fun ts => (ts.mapM view).toOption) =
      items.mapM fun i => value? i >>= fun t => (view t).toOption := by
  induction items with
  | nil => rfl
  | cons i items ih =>
    rw [List.mapM_cons, List.mapM_cons, ← ih]
    cases value? i with
    | none => rfl
    | some t =>
      cases items.mapM value? with
      | none => cases hview : view t <;> simp [hview, Except.toOption]
      | some ts =>
        simp only [List.mapM_cons, Option.bind_eq_bind, Option.bind_some, Option.pure_def]
        cases view t with
        | error fault => rfl
        | ok a => cases ts.mapM view <;> rfl

/-- A list is plain if its items are. -/
theorem plain_list (hs : s.Decides) (hplain : ∀ sp : Spelling, sp.Sound → s.Plain sp)
    (h : sp.Sound) : (Shape.list s).Plain sp := by
  intro depth
  rw [sense_list hs h]
  by_cases harray : ∃ items, sp = .array items
  · obtain ⟨items, rfl⟩ := harray
    cases depth with
    | zero => rfl
    | succ depth =>
      have hsense : items.mapM (s.read depth).sense = items.mapM fun i => i.viewed? s depth :=
        mapM_congr fun i hi => hplain i (h.item i hi) depth
      rw [listed?, hsense, Spelling.viewed?, Spelling.value?, Spelling.itemValues?_eq_mapM]
      refine (mapM_bind_view _ s.view items).symm.trans ?_
      cases items.mapM (Spelling.value? depth) <;> rfl
  · have hne : ∀ items, sp ≠ .array items := fun items heq => harray ⟨items, heq⟩
    obtain ⟨c, hc⟩ := h.exists_begins
    rw [listed?_eq_none hne, Spelling.viewed?_eq_none]
    intro t ht
    have hopens := hc.opens depth t ht
    cases t with
    | array ts => exact absurd (hc.array hopens) harray
    | _ => rfl

/-! ### Choices -/

/-- The spelling is an object with an empty object under its one key. -/
def Hollow (sp : Spelling) : Prop := ∃ key, sp = .object [(key, .object [])]

/-- Nothing is in the spelling of `null`. -/
def nothing? (depth : Nat) (content : Spelling) : Option Unit :=
  match content.value? depth with
  | some .null => some ()
  | _ => none

theorem nothing?_eq_none {content : Spelling} (h : content.value? depth ≠ some .null) :
    nothing? depth content = none := by
  unfold nothing?
  split
  · next hvalue => exact absurd hvalue h
  · rfl

/-- What a choice makes of a spelling: its name, or an object with its name as the one key and
`null` as its value. -/
def chosen? (name : α → String) (choices : List α) : Nat → Spelling → Option α
  | depth, .scalar token => (Spelling.scalar token).viewed? (choice name choices) depth
  | depth + 1, .object ((key, content) :: members) => do
    let k ← key? key
    let a ← (choose name choices k).toOption
    nothing? depth content
    if members.isEmpty then some a else none
  | _, _ => none

theorem finds_nothing {content : Spelling} (h : content.Sound) (depth : Nat) :
    Finds nothing content.tokens (nothing? depth content) := by
  obtain ⟨c, hc⟩ := h.exists_begins
  obtain ⟨tail, inner, htokens⟩ := hc.tokens
  by_cases hnull : c = 'n'
  · obtain rfl := hc.null hnull
    refine finds_peek (by decide) fun later cs hfollow hcs => ?_
    rw [if_pos rfl]
    refine ⟨cs, word_append ['n', 'u', 'l', 'l'], hcs, ?_⟩
    simp only [List.length_cons, List.length_append]
    omega
  · rw [nothing?_eq_none fun hvalue => hnull (hc.opens depth .null hvalue), htokens]
    refine finds_none_of_peek hc.blank fun cs => ?_
    rw [if_neg hnull]
    exact fails_failType _

/-- A choice as an object, from behind the opening brace. -/
def readChosen (name : α → String) (choices : List α) : Reader α := do
  Reader.skipBlank
  let a ← choose name choices (← Reader.quoted)
  Reader.expectToken ':'
  nothing
  Reader.expectToken '\x7d'
  return a

/-- Behind the opening brace a choice is read up to the closing one, if there is one member and null
in it. -/
theorem yields_readChosen (name : α → String) (choices : List α)
    {members : List (List Char × Spelling)} (keys : ∀ m ∈ members, StringToken m.1)
    (h : ∀ m ∈ members, m.2.Sound) {later : List (List Char)} {cs : List Char}
    (hcs : Spaced (withCommas (members.map Spelling.memberToken) ++ ['\x7d'] :: later) cs) :
    Yields (readChosen name choices) later cs
      (chosen? name choices (depth + 1) (.object members)) := by
  cases members with
  | nil =>
    obtain ⟨ws, rest, hws, -, rfl⟩ := hcs.exists_cons
    have hskip : skipBlank (ws ++ '\x7d' :: rest) = .ok ((), '\x7d' :: rest) :=
      skipBlank_append hws (by rintro _ ⟨⟩; decide)
    have hquoted : Fails quoted ('\x7d' :: rest) := (fails_expect (by decide)).bind _
    exact .of_bind hskip (hquoted.bind _)
  | cons m members =>
    obtain ⟨key, content⟩ := m
    have hkey : StringToken key := keys _ List.mem_cons_self
    have hcontent : content.Sound := h _ List.mem_cons_self
    rw [List.map_cons, withCommas, List.append_assoc] at hcs
    obtain ⟨ws, cs₁, hws, hcolon, rfl⟩ := hcs.exists_cons
    have hskip : skipBlank (ws ++ (key ++ cs₁)) = .ok ((), key ++ cs₁) := by
      obtain ⟨tail, rfl⟩ := hkey.beginsMember
      exact skipBlank_append hws (by rintro _ ⟨⟩; decide)
    have hfollow : MayFollow ((members.map Spelling.memberToken).flatMap ([','] :: ·) ++
        ['\x7d'] :: later) := curly_enclosesSpaced.mayFollow _
    have hclose : ∀ (a : α) rest, Spaced ((members.map Spelling.memberToken).flatMap ([','] :: ·) ++
        ['\x7d'] :: later) rest → Yields (do
          Reader.expectToken '\x7d'
          return a) later rest (if members.isEmpty then some a else none) := by
      intro a rest hrest
      cases members with
      | nil => exact (yields_expectToken (by decide) hrest).map fun _ => a
      | cons m members => exact (fails_expectToken (by decide) (by decide) hrest).bind _
    refine Yields.of_eq ?_ (bind_of_ok hskip) (by simp)
    refine ((settles_of_stringToken hkey).yields_key (curly_encloses.ne_nil hkey.beginsMember)
      hcolon).bind fun k rest hrest => Yields.lift_bind fun a _ => ?_
    obtain ⟨rest, hexpect, hvalue, hlt⟩ := yields_expectToken (by decide) hrest
    have hbehind : Yields (do
        nothing
        Reader.expectToken '\x7d'
        return a) later rest (nothing? depth content >>= fun _ =>
          if members.isEmpty then some a else none) :=
      (finds_nothing hcontent depth _ _ hfollow hvalue).bind fun _ _ hrest => hclose a _ hrest
    exact hbehind.of_eq (bind_of_ok hexpect) (Nat.le_of_lt hlt)

/-- **What a choice makes of a spelling** is the same in every text. -/
theorem finds_choice (name : α → String) (choices : List α) (h : sp.Sound) (depth : Nat) :
    Finds ((choice name choices).read depth) sp.tokens (chosen? name choices depth sp) := by
  -- the first character says whether there is a string, an object or nothing that is read
  obtain ⟨c, hc⟩ := h.exists_begins
  obtain ⟨tail, inner, htokens⟩ := hc.tokens
  by_cases hquote : c = '"'
  · subst hquote
    obtain ⟨token, htoken, rfl⟩ := hc.string rfl
    obtain ⟨rfl, rfl⟩ := List.cons.inj htokens
    rw [chosen?, Spelling.viewed?_string htoken]
    refine finds_peek hc.blank fun later cs hfollow hcs => ?_
    have hyields : Yields quoted later ('"' :: tail ++ cs) (key? ('"' :: tail)) :=
      (settles_of_stringToken htoken).yields (List.cons_ne_nil _ _) hfollow hcs
    exact hyields.bind_lift (choose name choices)
  by_cases hbrace : c = '\x7b'
  · subst hbrace
    obtain ⟨members, rfl⟩ := hc.object rfl
    cases h with
    | object keys h =>
    rw [Spelling.tokens, Spelling.memberTokens_eq_map]
    refine finds_peek hc.blank fun later cs _ hcs => ?_
    rw [List.append_assoc] at hcs
    cases depth with
    | zero =>
      have hnone : chosen? name choices 0 (.object members) = none := by cases members <;> rfl
      rw [hnone]
      exact fails_error rfl
    | succ depth =>
      exact (yields_readChosen name choices keys h hcs).of_eq (bind_of_ok (expect_cons '\x7b'))
        (Nat.le_succ _)
  · have hview : sp.viewed? (choice name choices) depth = none := by
      refine Spelling.viewed?_eq_none fun t ht => ?_
      have hopens := hc.opens depth t ht
      cases t with
      | string s => exact absurd hopens hquote
      | object members => exact absurd hopens hbrace
      | _ => rfl
    have hnone : chosen? name choices depth sp = none := by
      unfold chosen?
      split
      · exact hview
      · exact absurd (List.cons.inj (List.cons.inj htokens).1).1.symm hbrace
      · rfl
    rw [hnone, htokens]
    refine finds_none_of_peek hc.blank fun cs => ?_
    split
    · exact absurd rfl hquote
    · exact absurd rfl hbrace
    · exact fails_error rfl

theorem decides_choice (name : α → String) (choices : List α) : (choice name choices).Decides :=
  decides_of_exists fun depth _ h => ⟨_, finds_choice name choices h depth⟩

theorem sense_choice (name : α → String) (choices : List α) (h : sp.Sound) (depth : Nat) :
    ((choice name choices).read depth).sense sp = chosen? name choices depth sp :=
  (finds_choice name choices h depth).sense_eq

/-- No content is viewed in `null` and in an object without members. -/
def empty? : Json → Option Unit
  | .null => some ()
  | .object [] => some ()
  | _ => none

theorem view_choice_member (name : α → String) (choices : List α) (key : String) (t : Json) :
    ((choice name choices).view (.object [(key, t)])).toOption =
      (choose name choices key).toOption >>= fun a => (fun _ => a) <$> empty? t := by
  have hview : (choice name choices).view (.object [(key, t)]) =
      choose name choices key >>= fun a =>
        match t with
        | .null => return a
        | .object [] => return a
        | t => t.viewType "unit" := rfl
  rw [hview]
  cases choose name choices key with
  | error fault => rfl
  | ok a =>
    cases t with
    | object members => cases members <;> rfl
    | _ => rfl

theorem view_choice_members (name : α → String) (choices : List α) {members : List (String × Json)}
    (h : members.length ≠ 1) : ((choice name choices).view (.object members)).toOption = none := by
  match members, h with
  | [], _ => rfl
  | _ :: _ :: _, _ => rfl

/-- A value that is not an empty object is empty only as null. -/
theorem empty?_of_value? {content : Spelling} (h : content.Sound) (hne : content ≠ .object [])
    (depth : Nat) : content.value? depth >>= empty? = nothing? depth content := by
  unfold nothing?
  cases hvalue : content.value? depth with
  | none => rfl
  | some t =>
    show empty? t = _
    cases t with
    | object members =>
      -- an object without members is spelled without members
      obtain ⟨c, hc⟩ := h.exists_begins
      obtain ⟨spelled, rfl⟩ := hc.object (hc.opens depth _ hvalue)
      cases depth with
      | zero => cases hvalue
      | succ depth =>
        rw [Spelling.value?, Spelling.memberValues?_eq_mapM] at hvalue
        obtain ⟨values, hvalues, hmembers⟩ := Option.map_eq_some_iff.mp hvalue
        cases spelled with
        | nil => exact absurd rfl hne
        | cons m spelled =>
          obtain ⟨_, _, -, -, rfl⟩ := mapM_cons_eq_some_iff.mp hvalues
          cases hmembers
          rfl
    | _ => rfl

theorem chosen?_cons_cons (name : α → String) (choices : List α)
    (m n : List Char × Spelling) (members : List (List Char × Spelling)) :
    chosen? name choices (depth + 1) (.object (m :: n :: members)) = none := by
  show (key? m.1 >>= fun k => (choose name choices k).toOption >>= fun _ =>
    nothing? depth m.2 >>= fun _ => none) = none
  simp

/-- **A choice is plain but where it is hollow.** -/
theorem plain_choice (name : α → String) (choices : List α) (h : sp.Sound) (hsolid : ¬Hollow sp) :
    (choice name choices).Plain sp := by
  intro depth
  rw [sense_choice name choices h]
  cases h with
  | scalar h => rw [chosen?]
  | array h =>
    rw [Spelling.viewed?_eq_none]
    · cases depth <;> rfl
    · intro t ht
      cases depth with
      | zero => cases ht
      | succ depth =>
        obtain ⟨ts, -, rfl⟩ := Option.map_eq_some_iff.mp ht
        rfl
  | @object members keys h =>
    cases depth with
    | zero => cases members <;> rfl
    | succ depth =>
      rw [Spelling.viewed?, Spelling.value?, Spelling.memberValues?_eq_mapM]
      rcases members with _ | ⟨⟨key, content⟩, _ | ⟨n, members⟩⟩
      · rfl
      · have hcontent : content ≠ .object [] := fun heq => hsolid ⟨key, heq ▸ rfl⟩
        have hempty := empty?_of_value? (h _ List.mem_cons_self) hcontent depth
        rw [chosen?, ← hempty, List.mapM_cons, Spelling.memberValue?]
        cases key? key with
        | none => rfl
        | some k =>
          cases content.value? depth with
          | none => exact Option.bind_fun_none _
          | some t =>
            refine Eq.trans ?_ (view_choice_member name choices k t).symm
            refine congrArg ((choose name choices k).toOption >>= ·) (funext fun a => ?_)
            show (empty? t >>= fun _ => some a) = (fun _ => a) <$> empty? t
            cases empty? t <;> rfl
      · rw [chosen?_cons_cons]
        cases hvalues : ((key, content) :: n :: members).mapM (Spelling.memberValue? depth) with
        | none => rfl
        | some values =>
          obtain ⟨v, _, -, hrest, rfl⟩ := mapM_cons_eq_some_iff.mp hvalues
          obtain ⟨w, values, -, -, rfl⟩ := mapM_cons_eq_some_iff.mp hrest
          have hlength : (v :: w :: values).length ≠ 1 := by simp
          exact (view_choice_members name choices hlength).symm

end Shape
end PipelineCanvas.Json
