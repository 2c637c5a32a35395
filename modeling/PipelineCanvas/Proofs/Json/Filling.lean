import PipelineCanvas.Json.Record
import PipelineCanvas.Proofs.Json.Skipping
/-! # Filling fields

A record is read in one pass, in which every member fills the field that answers to its key with
what the shape of the field makes of its value (`Fields.takeMember?`), or is passed over where no
field does. A record may also be written as an array, whose items fill the fields in their order
(`Fields.takeItems?`). This file says what the pass comes to, whatever the text.

Where the shapes of its fields decide so does the record, and what it makes of a spelling is given
by its members or its items alone (`Record.finds_record`). So blanks do not matter, nor how keys are
escaped. The induction is on the members for objects, and on the fields for arrays, as a field may
be left out at the end.

There are two ways to make a record of a text: to read it, and to read a tree and then view the
tree. Where fields answer to all keys and their shapes are plain, the two agree
(`Record.plain_record`). A key that no field answers to is where they may differ, since a value that
is passed over is not held to what a tree is held to. An entry is read as a tree but for its id, so
it is always plain (`Record.plain_entry`). -/
namespace PipelineCanvas.Json
open Reader
variable {α ι : Type} {αs : List Type}

/-- What is found behind each key is understood of the member. -/
theorem Reader.understands_keyed {β : Type} {f : String → Reader β} {g : String → Option β}
    {m : List Char × Spelling} (hkey : StringToken m.1)
    (h : ∀ key, Finds (f key) ([':'] :: m.2.tokens) (g key)) :
    Understands (do f (← quoted)) BeginsMember (Spelling.memberToken m) (key? m.1 >>= g) := by
  refine ⟨m.1, _, rfl, hkey.beginsMember, fun later cs hfollow hcs => ?_⟩
  exact ((settles_of_stringToken hkey).yields_key (curly_encloses.ne_nil hkey.beginsMember)
    hcs).bind fun key rest hrest => h key later rest hfollow hrest

namespace Fields

/-- The shapes of all fields decide on every spelling. -/
def Decide : {αs : List Type} → Fields αs → Prop
  | _, .nil => True
  | _, .cons f fs => f.shape.Decides ∧ fs.Decide

/-- Fills the field that answers to the key, if there is one, with what is made of its shape. A
field is filled once. -/
def take? (outcome : {α : Type} → Shape α → Option α) (key : String) :
    {αs : List Type} → Fields αs → Slots αs → Option (Slots αs)
  | _, .nil, slots => some slots
  | _, .cons f fs, (slot, slots) =>
    if f.answersTo key then
      if slot.isSome then none else (fun a => (some a, slots)) <$> outcome f.shape
    else (fun slots => (slot, slots)) <$> fs.take? outcome key slots

/-- A member of a tree fills its field as one of a text does, with what is viewed in its value. -/
theorem toOption_viewMember (fs : Fields αs) (slots : Slots αs) (m : String × Json) :
    (fs.viewMember slots m).toOption =
      fs.take? (fun s => (s.view m.2).toOption) m.1 slots := by
  unfold viewMember
  induction fs with
  | nil => rfl
  | cons f fs ih =>
    obtain ⟨slot, slots⟩ := slots
    rw [fill, take?]
    by_cases hanswers : f.answersTo m.1 = true
    · rw [if_pos hanswers, if_pos hanswers]
      cases slot with
      | some a => rfl
      | none =>
        show (f.shape.view m.2 >>= fun a => pure (some a, slots)).toOption = _
        cases f.shape.view m.2 <;> rfl
    · rw [if_neg hanswers, if_neg hanswers, ← ih]
      cases fs.fill m.1 (fun s => s.view m.2) slots with
      | none => rfl
      | some taken => cases taken <;> rfl

/-! ### Reading members -/

variable {fs : Fields αs} {sp : Spelling} {members : List (List Char × Spelling)}

/-- A member fills its field in the text as it does by itself. -/
theorem fill_cases (hs : fs.Decide) (hsound : sp.Sound) (depth : Nat) (key : String)
    (slots : Slots αs) :
    (fs.fill key (fun s => do
        expectToken ':'
        s.read depth) slots = none ∧
      fs.take? (fun s => (s.read depth).sense sp) key slots = some slots) ∨
    ∃ r, fs.fill key (fun s => do
        expectToken ':'
        s.read depth) slots = some r ∧
      Finds r ([':'] :: sp.tokens) (fs.take? (fun s => (s.read depth).sense sp) key slots) := by
  induction fs with
  | nil => exact .inl ⟨rfl, rfl⟩
  | cons f fs ih =>
    obtain ⟨slot, slots⟩ := slots
    rw [fill, take?]
    by_cases hanswers : f.answersTo key = true
    · rw [if_pos hanswers, if_pos hanswers]
      refine .inr ⟨_, rfl, ?_⟩
      cases slot with
      -- a field that is filled does not take a second value
      | some a => exact fun later cs _ _ => fails_error rfl
      | none => exact (hs.1 depth sp hsound).behind_colon.map fun a => (some a, slots)
    · rw [if_neg hanswers, if_neg hanswers]
      rcases ih hs.2 slots with ⟨hfill, htake⟩ | ⟨r, hfill, hr⟩
      · rw [hfill, htake]
        exact .inl ⟨rfl, rfl⟩
      · rw [hfill]
        exact .inr ⟨_, rfl, hr.map fun slots => (slot, slots)⟩

/-- Behind its key a member fills its field or is passed over. -/
theorem finds_readMember (hs : fs.Decide) (hsound : sp.Sound) (depth : Nat) (slots : Slots αs)
    (key : String) : Finds (fs.readMember depth slots key) ([':'] :: sp.tokens)
      (fs.take? (fun s => (s.read depth).sense sp) key slots) := by
  unfold readMember
  rcases fill_cases hs hsound depth key slots with ⟨hfill, htake⟩ | ⟨r, hfill, hr⟩
  · rw [hfill, htake]
    exact ((finds_skip hsound).map fun _ => slots).behind_colon
  · rw [hfill]
    exact hr

/-- Fills the field that answers to the key of a member. -/
def takeMember? (fs : Fields αs) (depth : Nat) (slots : Slots αs) (m : List Char × Spelling) :
    Option (Slots αs) :=
  key? m.1 >>= fun key => fs.take? (fun s => (s.read depth).sense m.2) key slots

/-- What the members of an object give for the fields. -/
def takeMembers? (fs : Fields αs) (depth : Nat) (members : List (List Char × Spelling)) :
    Option (Values αs) :=
  members.foldlM (fs.takeMember? depth) fs.empty >>= fun slots => (fs.complete slots).toOption

/-- **The members of an object fill the fields one after the other**, up to the closing brace. -/
theorem yields_readMembers (hs : fs.Decide) (keys : ∀ m ∈ members, StringToken m.1)
    (h : ∀ m ∈ members, m.2.Sound) (depth : Nat) {later : List (List Char)} {cs : List Char}
    (hcs : Spaced (withCommas (members.map Spelling.memberToken) ++ ['\x7d'] :: later) cs) :
    Yields (fs.readMembers depth) later cs (fs.takeMembers? depth members) := by
  have hmember : ∀ m ∈ members, ∀ slots, Understands (do fs.readMember depth slots (← quoted))
      BeginsMember (Spelling.memberToken m) (fs.takeMember? depth slots m) := by
    intro m hm slots
    exact understands_keyed (keys m hm) fun k => finds_readMember hs (h m hm) depth slots k
  exact (curly_enclosesSpaced.yields_pass hmember hcs fs.empty).bind_lift fs.complete

/-! ### Reading items -/

/-- What the items of an array give for the fields in their order. -/
def takeItems? (depth : Nat) : {αs : List Type} → Fields αs → List Spelling → Option (Values αs)
  | _, .nil, [] => some ()
  | _, .nil, _ :: _ => none
  | _, .cons f fs, [] => f.absent >>= fun a => Prod.mk a <$> fs.takeItems? depth []
  | _, .cons f fs, sp :: items =>
    (f.shape.read depth).sense sp >>= fun a => Prod.mk a <$> fs.takeItems? depth items

/-- Where an item is left the closing bracket does not come next. -/
theorem fails_close_of_item {first : Bool} {items : List Spelling} (hsound : sp.Sound)
    {later : List (List Char)} {cs : List Char}
    (hcs : Spaced (Brackets.partTokens first ((sp :: items).map Spelling.tokens) ++ later) cs) :
    Fails (expectToken ']') cs := by
  cases first with
  | true =>
    obtain ⟨token, inner, htokens, ⟨c, tail, rfl, hc, hne⟩⟩ := hsound.exists_tokens
    rw [List.map_cons, htokens] at hcs
    exact fails_expectToken hc hne hcs
  | false => exact fails_expectToken (by decide) (by decide) hcs

/-- The items up to the closing bracket, and the bracket. -/
def readClosed (expected : String) (depth : Nat) (fs : Fields αs) (index : Nat) :
    Reader (Values αs) := do
  let values ← fs.readItems expected depth index
  expectToken ']'
  return values

section closed
variable {f : Field α} {expected : String} {depth index : Nat} {cs cs' : List Char}

theorem readClosed_of_item (hhas : Reader.hasItem (index == 0) cs = .ok (true, cs')) :
    readClosed expected depth (Fields.cons f fs) index cs =
      (f.shape.read depth >>= fun a => Prod.mk a <$> readClosed expected depth fs (index + 1))
        cs' := by
  rw [readClosed, readItems, bind_assoc, bind_of_ok hhas, if_pos rfl]
  simp only [readClosed, bind_assoc, pure_bind, map_bind, map_pure]

theorem readClosed_of_absent {a : α} (hhas : Reader.hasItem (index == 0) cs = .ok (false, cs'))
    (habsent : f.absent = some a) : readClosed expected depth (Fields.cons f fs) index cs =
      (Prod.mk a <$> readClosed expected depth fs (index + 1)) cs' := by
  rw [readClosed, readItems, bind_assoc, bind_of_ok hhas, if_neg Bool.false_ne_true]
  simp only [habsent, readClosed, bind_assoc, pure_bind, map_bind, map_pure]

theorem fails_readClosed (hhas : Reader.hasItem (index == 0) cs = .ok (false, cs'))
    (habsent : f.absent = none) :
    Fails (readClosed expected depth (Fields.cons f fs) index) cs := by
  refine Fails.bind (.of_bind hhas ?_) _
  rw [if_neg Bool.false_ne_true, habsent]
  exact fails_error rfl

end closed

/-- **The items of an array fill the fields in their order**, up to the closing bracket. -/
theorem yields_readClosed (hs : fs.Decide) {items : List Spelling} (h : ∀ i ∈ items, i.Sound)
    (expected : String) (depth index : Nat) {later : List (List Char)} {cs : List Char}
    (hcs : Spaced (Brackets.partTokens (index == 0) (items.map Spelling.tokens) ++
      [']'] :: later) cs) :
    Yields (readClosed expected depth fs index) later cs (fs.takeItems? depth items) := by
  induction fs generalizing items index cs with
  | nil =>
    cases items with
    | nil =>
      rw [List.map_nil, Brackets.partTokens_nil] at hcs
      exact (yields_expectToken (by decide) hcs).map fun _ => ()
    | cons i items =>
      exact (fails_close_of_item (h i List.mem_cons_self) hcs).bind _
  | cons f fs ih =>
    cases items with
    | nil =>
      -- the bracket comes next and stays for the last field to leave
      rw [List.map_nil, Brackets.partTokens_nil] at hcs
      obtain ⟨ws, rest, hws, hrest, rfl⟩ := hcs.exists_cons
      have hhas : hasItem (index == 0) (ws ++ ([']'] ++ rest)) = .ok (false, ']' :: rest) :=
        square_encloses.close _ hws
      rw [takeItems?]
      cases habsent : f.absent with
      | none => exact fails_readClosed hhas habsent
      | some a =>
        have hclose : Spaced (Brackets.partTokens (index + 1 == 0) [] ++ [']'] :: later)
            (']' :: rest) := hrest.token
        refine ((ih hs.2 (List.forall_mem_nil _) (index + 1) hclose).map (Prod.mk a)).of_eq
          (readClosed_of_absent hhas habsent) ?_
        simp only [List.length_append, List.length_cons]
        omega
    | cons i items =>
      obtain ⟨hi, hitems⟩ := List.forall_mem_cons.mp h
      obtain ⟨token, inner, htokens, hbegins⟩ := hi.exists_tokens
      rw [List.map_cons, htokens] at hcs
      obtain ⟨cs', hhas, hinner, hle⟩ := square_enclosesSpaced.hasPart_cons hbegins hcs
      refine Yields.of_eq ?_ (readClosed_of_item hhas) hle
      -- the comma is gone, so the item is read as if it were the first
      have hread : Spaced (i.tokens ++ (Brackets.partTokens (index + 1 == 0)
          (items.map Spelling.tokens) ++ [']'] :: later)) (token ++ cs') := by
        rw [htokens]
        exact hinner.token
      exact (hs.1 depth i hi _ _ (square_enclosesSpaced.mayFollow _) hread).bind
        fun a rest hrest => (ih hs.2 hitems (index + 1) hrest).map (Prod.mk a)

end Fields

namespace Record
variable {r : Record α} {sp : Spelling} {depth : Nat}

/-- What a record makes of a spelling. -/
def taken? (r : Record α) : Nat → Spelling → Option α
  | depth + 1, .object members => r.make <$> r.fields.takeMembers? depth members
  | depth + 1, .array items => r.make <$> r.fields.takeItems? depth items
  | _, _ => none

/-- A record is made of an object or an array and of nothing else. -/
theorem taken?_eq_none (hitems : ∀ items, sp ≠ .array items)
    (hmembers : ∀ members, sp ≠ .object members) : r.taken? depth sp = none := by
  unfold taken?
  split
  · exact absurd rfl (hmembers _)
  · exact absurd rfl (hitems _)
  · rfl

/-- **What a record makes of a spelling** is the same in every text. -/
theorem finds_record (hs : r.fields.Decide) (h : sp.Sound) (depth : Nat) :
    Finds (r.shape.read depth) sp.tokens (r.taken? depth sp) := by
  obtain ⟨c, hc⟩ := h.exists_begins
  obtain ⟨tail, inner, htokens⟩ := hc.tokens
  -- an object is read by its keys and an array by its places, and nothing else is read
  by_cases hbrace : c = '\x7b'
  · obtain ⟨members, rfl⟩ := hc.object hbrace
    cases h with
    | object keys h =>
    rw [Spelling.tokens, Spelling.memberTokens_eq_map]
    refine finds_peek (by decide) fun later cs _ hcs => ?_
    rw [List.append_assoc] at hcs
    cases depth with
    | zero => exact fails_error rfl
    | succ depth =>
      have hmembers := Fields.yields_readMembers hs keys h depth hcs
      exact (hmembers.map r.make).of_eq (bind_of_ok (expect_cons '\x7b')) (Nat.le_succ _)
  by_cases hbracket : c = '['
  · obtain ⟨items, rfl⟩ := hc.array hbracket
    cases h with
    | array h =>
    rw [Spelling.tokens, Spelling.itemTokens_eq_map]
    refine finds_peek (by decide) fun later cs _ hcs => ?_
    rw [List.append_assoc] at hcs
    cases depth with
    | zero => exact fails_error rfl
    | succ depth =>
      have hitems := Fields.yields_readClosed hs h r.expectedItems depth 0 hcs
      have hread : (do
          expect '['
          let values ← r.fields.readItems r.expectedItems depth 0
          expectToken ']'
          return r.make values : Reader α) ('[' :: cs) =
            (r.make <$> Fields.readClosed r.expectedItems depth r.fields 0) cs := by
        rw [bind_of_ok (expect_cons '[')]
        simp only [Fields.readClosed, map_bind, map_pure]
      exact (hitems.map r.make).of_eq hread (Nat.le_succ _)
  · rw [taken?_eq_none, htokens]
    · refine finds_none_of_peek hc.blank fun cs => ?_
      split
      · exact absurd rfl hbrace
      · exact absurd rfl hbracket
      · exact absurd rfl hbrace
      · exact absurd rfl hbracket
      · exact fails_failType _
    · rintro items rfl
      exact hbracket (List.cons.inj (List.cons.inj htokens).1).1.symm
    · rintro members rfl
      exact hbrace (List.cons.inj (List.cons.inj htokens).1).1.symm

theorem decides (hs : r.fields.Decide) : r.shape.Decides :=
  Shape.decides_of_exists fun depth _ h => ⟨_, finds_record hs h depth⟩

/-- What is made of a spelling on its own is what is made of it in a text. -/
theorem sense_record (hs : r.fields.Decide) (h : sp.Sound) (depth : Nat) :
    (r.shape.read depth).sense sp = r.taken? depth sp :=
  (finds_record hs h depth).sense_eq

end Record

/-! ### Plain records -/

namespace Fields
variable {fs : Fields αs} {sp : Spelling} {members : List (List Char × Spelling)}

/-- A field answers to the key, and its shape has the property. -/
def AtKey (P : {α : Type} → Shape α → Prop) (key : String) : {αs : List Type} → Fields αs → Prop
  | _, .nil => False
  | _, .cons f fs => if f.answersTo key then P f.shape else fs.AtKey P key

/-- The shapes of the fields are plain on the items in their order. -/
def PlainItems : {αs : List Type} → Fields αs → List Spelling → Prop
  | _, .nil, _ => True
  | _, .cons _ _, [] => True
  | _, .cons f fs, sp :: items => f.shape.Plain sp ∧ fs.PlainItems items

theorem plainItems_nil (fs : Fields αs) : fs.PlainItems [] := by
  cases fs <;> exact trivial

section key
variable {key : String}

theorem AtKey.imp {P Q : {α : Type} → Shape α → Prop} (h : fs.AtKey P key)
    (himp : ∀ (α : Type) (s : Shape α), P s → Q s) : fs.AtKey Q key := by
  induction fs with
  | nil => exact h
  | cons f fs ih =>
    unfold AtKey at h ⊢
    by_cases hanswers : f.answersTo key = true
    · rw [if_pos hanswers] at h ⊢
      exact himp _ _ h
    · rw [if_neg hanswers] at h ⊢
      exact ih h

/-- What is made of the shape of the field that answers to the key is all that counts. -/
theorem take?_congr {made made' : {α : Type} → Shape α → Option α}
    (h : fs.AtKey (fun s => made s = made' s) key) (slots : Slots αs) :
    fs.take? made key slots = fs.take? made' key slots := by
  induction fs with
  | nil => exact h.elim
  | cons f fs ih =>
    unfold AtKey at h
    rw [take?, take?]
    by_cases hanswers : f.answersTo key = true
    · rw [if_pos hanswers] at h
      rw [if_pos hanswers, if_pos hanswers, h]
    · rw [if_neg hanswers] at h
      rw [if_neg hanswers, if_neg hanswers, ih h]

/-- Nothing fills a field of whose shape nothing is made. -/
theorem take?_eq_none {made : {α : Type} → Shape α → Option α}
    (h : fs.AtKey (fun s => made s = none) key) (slots : Slots αs) :
    fs.take? made key slots = none := by
  induction fs with
  | nil => exact h.elim
  | cons f fs ih =>
    unfold AtKey at h
    rw [take?]
    by_cases hanswers : f.answersTo key = true
    · rw [if_pos hanswers] at h
      rw [if_pos hanswers, h]
      exact ite_self none
    · rw [if_neg hanswers] at h
      rw [if_neg hanswers, ih h]
      rfl

/-- The field may as well be filled after a value has been found for all fields. -/
theorem bind_take? (h : fs.AtKey (fun _ => True) key) (t? : Option Json)
    (made : Json → {α : Type} → Shape α → Option α) (slots : Slots αs) :
    t? >>= (fun t => fs.take? (made t) key slots) =
      fs.take? (fun s => t? >>= fun t => made t s) key slots := by
  induction fs with
  | nil => exact h.elim
  | cons f fs ih =>
    unfold AtKey at h
    simp only [take?]
    by_cases hanswers : f.answersTo key = true
    · simp only [if_pos hanswers]
      -- a field that is filled refuses every value, and so the lack of one
      split
      · exact Option.bind_fun_none _
      · cases t? <;> rfl
    · rw [if_neg hanswers] at h
      simp only [if_neg hanswers]
      rw [← ih h]
      cases t? <;> rfl

/-- The shapes of all fields are plain on every sound spelling. -/
def AllPlain : {αs : List Type} → Fields αs → Prop
  | _, .nil => True
  | _, .cons f fs => (∀ sp : Spelling, sp.Sound → f.shape.Plain sp) ∧ fs.AllPlain

/-- Where all fields are plain, so is the one for a key. -/
theorem AllPlain.atKey (hs : fs.AllPlain) (h : sp.Sound) (hkey : fs.AtKey (fun _ => True) key) :
    fs.AtKey (fun s => s.Plain sp) key := by
  induction fs with
  | nil => exact hkey
  | cons f fs ih =>
    unfold AtKey at hkey ⊢
    by_cases hanswers : f.answersTo key = true
    · rw [if_pos hanswers]
      exact hs.1 sp h
    · rw [if_neg hanswers] at hkey ⊢
      exact ih hs.2 hkey

theorem AllPlain.plainItems (hs : fs.AllPlain) {items : List Spelling} (h : ∀ i ∈ items, i.Sound) :
    fs.PlainItems items := by
  induction fs generalizing items with
  | nil => exact trivial
  | cons f fs ih =>
    cases items with
    | nil => exact trivial
    | cons i items =>
      obtain ⟨hi, hitems⟩ := List.forall_mem_cons.mp h
      exact ⟨hs.1 i hi, ih hs.2 hitems⟩

end key

/-- Fills the field that answers to the key of a member with what is viewed in its value. -/
def fillMember? (fs : Fields αs) (depth : Nat) (slots : Slots αs) (m : List Char × Spelling) :
    Option (Slots αs) :=
  Spelling.memberValue? depth m >>= fun v => (fs.viewMember slots v).toOption

/-- A member fills its field with what the shape of the field views in its value. -/
theorem fillMember?_eq {m : List Char × Spelling} {key : String} (hkey : key? m.1 = some key)
    (h : fs.AtKey (fun _ => True) key) (depth : Nat) (slots : Slots αs) :
    fs.fillMember? depth slots m = fs.take? (fun s => m.2.viewed? s depth) key slots := by
  refine Eq.trans ?_ (bind_take? h (m.2.value? depth) (fun t _ s => (s.view t).toOption) slots)
  rw [fillMember?, Spelling.memberValue?, hkey]
  cases m.2.value? depth with
  | none => rfl
  | some t => exact toOption_viewMember fs slots (key, t)

/-- Plain members fill the fields as their values do. -/
theorem takeMembers?_of_plain
    (h : ∀ m ∈ members, ∀ key, key? m.1 = some key → fs.AtKey (fun s => s.Plain m.2) key)
    (depth : Nat) : fs.takeMembers? depth members =
      members.foldlM (fs.fillMember? depth) fs.empty >>= fun slots =>
        (fs.complete slots).toOption := by
  have hstep : ∀ m ∈ members, ∀ slots,
      fs.takeMember? depth slots m = fs.fillMember? depth slots m := by
    intro m hm slots
    cases hkey : key? m.1 with
    | none => simp [takeMember?, fillMember?, Spelling.memberValue?, hkey]
    | some key =>
      have hplain := h m hm key hkey
      rw [fillMember?_eq hkey (hplain.imp fun _ _ _ => trivial), takeMember?, hkey]
      exact take?_congr (hplain.imp fun _ _ hs => hs depth) slots
  rw [takeMembers?, foldlM_congr hstep]

/-- What the items of an array that has been read give, if none is left. -/
def viewClosed (expected : String) (fs : Fields αs) (index : Nat) (items : List Json) :
    Option (Values αs) :=
  (fs.viewItems expected index items).toOption >>= fun p => if p.2.isEmpty then some p.1 else none

section closed
variable {expected : String} {f : Field α} {index : Nat}

theorem viewClosed_of_view (a : α) (x : Except Fault (Values αs × List Json)) :
    ((do
      let (values, items) ← x
      return ((a, values), items)).toOption >>= fun p : Values (α :: αs) × List Json =>
        if p.2.isEmpty then some p.1 else none) =
      Prod.mk a <$> (x.toOption >>= fun p => if p.2.isEmpty then some p.1 else none) := by
  cases x with
  | error fault => rfl
  | ok p =>
    show (if p.2.isEmpty then some (a, p.1) else none) = _ <$> if p.2.isEmpty then _ else _
    split <;> rfl

/-- The items of a tree are viewed as those of a text are read. -/
theorem viewClosed_cons (t : Json) (ts : List Json) :
    viewClosed expected (Fields.cons f fs) index (t :: ts) =
      (f.shape.view t).toOption >>= fun a =>
        Prod.mk a <$> viewClosed expected fs (index + 1) ts := by
  unfold viewClosed
  rw [viewItems]
  cases f.shape.view t with
  | error fault => rfl
  | ok a => exact viewClosed_of_view a (fs.viewItems expected (index + 1) ts)

theorem viewClosed_nil : viewClosed expected (Fields.cons f fs) index [] =
    f.absent >>= fun a => Prod.mk a <$> viewClosed expected fs (index + 1) [] := by
  unfold viewClosed
  rw [viewItems.eq_def]
  cases habsent : f.absent with
  | none =>
    simp only [habsent]
    rfl
  | some a =>
    simp only [habsent]
    exact viewClosed_of_view a (fs.viewItems expected (index + 1) [])

end closed

/-- Plain items fill the fields as their values do. -/
theorem takeItems?_of_plain {items : List Spelling} (h : fs.PlainItems items) (expected : String)
    (depth index : Nat) : fs.takeItems? depth items =
      items.mapM (Spelling.value? depth) >>= viewClosed expected fs index := by
  induction fs generalizing items index with
  | nil =>
    cases items with
    | nil => rfl
    | cons i items =>
      rw [takeItems?]
      cases hvalues : (i :: items).mapM (Spelling.value? depth) with
      | none => rfl
      | some ts =>
        obtain ⟨t, ts, -, -, rfl⟩ := mapM_cons_eq_some_iff.mp hvalues
        rfl
  | cons f fs ih =>
    cases items with
    | nil =>
      rw [takeItems?, ih fs.plainItems_nil (index + 1)]
      exact viewClosed_nil.symm
    | cons i items =>
      rw [takeItems?, ih h.2 (index + 1), h.1 depth, Spelling.viewed?, List.mapM_cons]
      cases i.value? depth with
      | none => rfl
      | some t =>
        cases items.mapM (Spelling.value? depth) with
        | none => exact Option.bind_fun_none _
        | some ts => exact (viewClosed_cons t ts).symm

end Fields

namespace Record
variable {r : Record α} {sp : Spelling}

/-- What a record views in an object comes of its members one after the other. -/
theorem viewed?_object (r : Record α) (members : List (List Char × Spelling)) (depth : Nat) :
    (Spelling.object members).viewed? r.shape (depth + 1) =
      r.make <$> (members.foldlM (r.fields.fillMember? depth) r.fields.empty >>= fun slots =>
        (r.fields.complete slots).toOption) := by
  unfold Fields.fillMember?
  rw [Spelling.viewed?, Spelling.value?, Spelling.memberValues?_eq_mapM, ← mapM_bind_foldlM]
  cases members.mapM (Spelling.memberValue? depth) with
  | none => rfl
  | some values =>
    show (r.make <$> r.fields.viewMembers values).toOption = r.make <$>
      (values.foldlM (fun slots v => (r.fields.viewMember slots v).toOption) r.fields.empty >>= _)
    rw [← toOption_foldlM, ← toOption_bind]
    show _ = r.make <$> (r.fields.viewMembers values).toOption
    cases r.fields.viewMembers values <;> rfl

theorem toOption_view_array (r : Record α) (ts : List Json) :
    (r.shape.view (.array ts)).toOption =
      r.make <$> Fields.viewClosed r.expectedItems r.fields 0 ts := by
  unfold Fields.viewClosed
  show (r.fields.viewItems r.expectedItems 0 ts >>= _).toOption = _
  cases r.fields.viewItems r.expectedItems 0 ts with
  | error fault => rfl
  | ok p =>
    obtain ⟨values, left⟩ := p
    cases left <;> rfl

/-- **A record is plain** where its fields answer to all keys and are plain on their values. -/
theorem plain_record (hs : r.fields.Decide) (h : sp.Sound)
    (hmembers : ∀ members, sp = .object members → ∀ m ∈ members, ∀ key, key? m.1 = some key →
      r.fields.AtKey (fun s => s.Plain m.2) key)
    (hitems : ∀ items, sp = .array items → r.fields.PlainItems items) : r.shape.Plain sp := by
  intro depth
  rw [sense_record hs h]
  by_cases hobject : ∃ members, sp = .object members
  · obtain ⟨members, rfl⟩ := hobject
    cases depth with
    | zero => rfl
    | succ depth =>
      rw [taken?, Fields.takeMembers?_of_plain (hmembers members rfl), viewed?_object]
  by_cases harray : ∃ items, sp = .array items
  · obtain ⟨items, rfl⟩ := harray
    cases depth with
    | zero => rfl
    | succ depth =>
      rw [taken?, Fields.takeItems?_of_plain (hitems items rfl) r.expectedItems depth 0,
        Spelling.viewed?, Spelling.value?, Spelling.itemValues?_eq_mapM]
      cases items.mapM (Spelling.value? depth) with
      | none => rfl
      | some ts => exact (toOption_view_array r ts).symm
  · have hnone : r.taken? depth sp = none :=
      taken?_eq_none (fun items heq => harray ⟨items, heq⟩)
        fun members heq => hobject ⟨members, heq⟩
    obtain ⟨c, hc⟩ := h.exists_begins
    rw [hnone, Spelling.viewed?_eq_none]
    intro t ht
    have hopens := hc.opens depth t ht
    cases t with
    | object members => exact absurd (hc.object hopens) hobject
    | array items => exact absurd (hc.array hopens) harray
    | _ => rfl

/-- A record whose fields are all plain is plain on an object without unknown keys, and on any
array. -/
theorem plain_of_allPlain (hs : r.fields.Decide) (hplain : r.fields.AllPlain) (h : sp.Sound)
    (hkeys : ∀ members, sp = .object members → ∀ m ∈ members, ∀ key, key? m.1 = some key →
      r.fields.AtKey (fun _ => True) key) : r.shape.Plain sp := by
  apply plain_record hs h
  · rintro members rfl m hm key hkey
    exact hplain.atKey (h.member m hm) (hkeys members rfl m hm key hkey)
  · rintro items rfl
    exact hplain.plainItems h.item

/-! ### Entries -/

section entry
variable {id : Shape ι}

theorem toOption_splitMember (name : String) (id : Shape ι) (parts : EntryParts ι) (key : String)
    (t : Json) :
    (splitMember name id parts (key, t)).toOption =
      if key = name then
        if parts.1.isSome then none else (fun i => (some i, parts.2)) <$> (id.view t).toOption
      else some (parts.1, (key, t) :: parts.2) := by
  unfold splitMember
  by_cases hkey : key = name
  · obtain ⟨i, others⟩ := parts
    rw [if_neg (not_not_intro hkey), if_pos hkey]
    cases i with
    | some i => rfl
    | none => cases id.view t <;> rfl
  · rw [if_pos hkey, if_neg hkey]
    rfl

/-- A member of an entry is its id, or it is kept as a tree. -/
theorem finds_entryMember (hs : id.Decides) (hid : id.Plain sp) (h : sp.Sound) (name : String)
    (depth : Nat) (parts : EntryParts ι) (key : String) :
    Finds (readEntryMember name id depth parts key) ([':'] :: sp.tokens)
      (sp.value? depth >>= fun t => (splitMember name id parts (key, t)).toOption) := by
  obtain ⟨i, others⟩ := parts
  simp only [toOption_splitMember]
  unfold readEntryMember
  by_cases hkey : key = name
  · simp only [if_pos hkey]
    cases i with
    | some i =>
      simp only [Option.isSome_some, if_true, Option.bind_eq_bind, Option.bind_fun_none]
      exact fun later cs _ _ => fails_error rfl
    | none =>
      have hread := (hs depth sp h).behind_colon.map fun i => (some i, others)
      have hviewed : sp.value? depth >>= (fun t =>
          (fun i => (some i, others)) <$> (id.view t).toOption) =
            (fun i => (some i, others)) <$> (id.read depth).sense sp := by
        rw [hid depth, Spelling.viewed?]
        cases sp.value? depth <;> rfl
      simp only [Option.isSome_none, Bool.false_eq_true, if_false, hviewed]
      simpa only [map_bind, bind_assoc, map_eq_pure_bind] using hread
  · simp only [if_neg hkey]
    have hread := (finds_tree h depth).behind_colon.map fun t => (i, (key, t) :: others)
    simpa only [map_bind, bind_assoc, map_eq_pure_bind, Option.pure_def] using hread

/-- **What an entry makes of a spelling** is what it views in its value. -/
theorem finds_entry (hs : id.Decides) (hid : ∀ sp : Spelling, sp.Sound → id.Plain sp)
    (r : Record α) (expected name : String) (h : sp.Sound) (depth : Nat) :
    Finds ((r.entry expected name id).read depth) sp.tokens
      (sp.viewed? (r.entry expected name id) depth) := by
  obtain ⟨c, hc⟩ := h.exists_begins
  obtain ⟨tail, inner, htokens⟩ := hc.tokens
  by_cases hbrace : c = '\x7b'
  · obtain ⟨members, rfl⟩ := hc.object hbrace
    cases h with
    | object keys h =>
    rw [Spelling.tokens, Spelling.memberTokens_eq_map]
    refine finds_peek (by decide) fun later cs _ hcs => ?_
    rw [List.append_assoc] at hcs
    cases depth with
    | zero => exact fails_error rfl
    | succ depth =>
      -- one pass over the members is one over their values: only the identifier is read at once
      have hmember : ∀ m ∈ members, ∀ parts, Understands
          (do readEntryMember name id depth parts (← quoted)) BeginsMember
          (Spelling.memberToken m) (Spelling.memberValue? depth m >>= fun v =>
            (splitMember name id parts v).toOption) := by
        intro m hm parts
        have hread := understands_keyed (keys m hm) fun k =>
          finds_entryMember hs (hid m.2 (h m hm)) (h m hm) name depth parts k
        have hvalue : Spelling.memberValue? depth m >>= (fun v =>
            (splitMember name id parts v).toOption) = key? m.1 >>= fun k =>
              m.2.value? depth >>= fun t => (splitMember name id parts (k, t)).toOption := by
          simp only [Spelling.memberValue?, bind_assoc, pure_bind]
        rwa [hvalue]
      have hparts := curly_enclosesSpaced.yields_pass hmember hcs (none, [])
      have hread := hparts.bind_lift (r.ofEntry name)
      have hview : (Spelling.object members).viewed? (r.entry expected name id) (depth + 1) =
          (members.foldlM (fun parts m => Spelling.memberValue? depth m >>= fun v =>
            (splitMember name id parts v).toOption) (none, [])) >>= fun parts =>
              (r.ofEntry name parts).toOption := by
        rw [Spelling.viewed?, Spelling.value?, Spelling.memberValues?_eq_mapM, ← mapM_bind_foldlM]
        cases members.mapM (Spelling.memberValue? depth) with
        | none => rfl
        | some values =>
          show (values.foldlM (splitMember name id) (none, []) >>= r.ofEntry name).toOption = _
          rw [toOption_bind, toOption_foldlM]
          rfl
      rw [hview]
      exact hread.of_eq (bind_of_ok (expect_cons '\x7b')) (Nat.le_succ _)
  · have hview : sp.viewed? (r.entry expected name id) depth = none := by
      refine Spelling.viewed?_eq_none fun t ht => ?_
      have hopens := hc.opens depth t ht
      cases t with
      | object members => exact absurd hopens hbrace
      | _ => rfl
    rw [hview, htokens]
    refine finds_none_of_peek hc.blank fun cs => ?_
    rw [if_pos hbrace]
    exact (fails_failType _).bind _

theorem decides_entry (hs : id.Decides) (hid : ∀ sp : Spelling, sp.Sound → id.Plain sp)
    (r : Record α) (expected name : String) : (r.entry expected name id).Decides :=
  Shape.decides_of_exists fun depth _ h => ⟨_, finds_entry hs hid r expected name h depth⟩

/-- **An entry is plain** if its id is, with whatever other members. -/
theorem plain_entry (hs : id.Decides) (hid : ∀ sp : Spelling, sp.Sound → id.Plain sp)
    (r : Record α) (expected name : String) (h : sp.Sound) : (r.entry expected name id).Plain sp :=
  fun depth => (finds_entry hs hid r expected name h depth).sense_eq

end entry
end Record
end PipelineCanvas.Json
