import PipelineCanvas.Proofs.Json.Filling
/-! # What records tolerate

An object **writes** its parts when each part stands among its members under one of the names of the
part, or is left out where it may be, in any order and among members of other names
(`Spelling.Writes`). A record makes the values of the parts of such an object, if its fields answer
to the names of the parts and make of each part its value (`Record.makes_of_writes`).

The induction is on the fields. The first field answers to one member or to none, and since names
are told apart it is passed by all the others; what is left for the other fields is the object
without that member, which writes the other parts. So the order never has to be spoken of.

What no record tolerates is two members for one field (`Record.refuses_of_repeats`), and a record or
a list is refused with any of its parts (`Record.refuses_of_gives`, `Shape.refuses_list`). That a
field is filled and stays so is the invariant here (`Fields.IsFilled`). -/
namespace PipelineCanvas.Json
open Reader
variable {α ι : Type} {αs : List Type}

/-! ### Written objects -/

/-- A part of an object. -/
structure Part where
  /-- The names under which it may stand. -/
  names : List String
  /-- What may stand for it. -/
  Holds : Spelling → Prop
  /-- Whether it may be left out. -/
  optional : Prop

/-- The member stands under one of the names. -/
def IsNamed (names : List String) (m : List Char × Spelling) : Prop :=
  ∃ name ∈ names, key? m.1 = some name

/-- The members are the parts in their order, some of them left out. -/
inductive Listed : List Part → List (List Char × Spelling) → Prop
  /-- There are no parts and no members. -/
  | nil : Listed [] []
  /-- The first part is said by the first member, under one of its names. -/
  | stated {part : Part} {parts : List Part} {m : List Char × Spelling}
      {members : List (List Char × Spelling)} (key : StringToken m.1)
      (named : IsNamed part.names m) (holds : part.Holds m.2) (h : Listed parts members) :
      Listed (part :: parts) (m :: members)
  /-- The first part is left out, as it may be. -/
  | omitted {part : Part} {parts : List Part} {members : List (List Char × Spelling)}
      (optional : part.optional) (h : Listed parts members) : Listed (part :: parts) members

/-- The member is not one of the parts; its value may be any. -/
structure IsOther (parts : List Part) (m : List Char × Spelling) : Prop where
  /-- Its key is a string of the grammar. -/
  key : StringToken m.1
  /-- Its value is sound, and need not stand for anything. -/
  sound : m.2.Sound
  /-- It goes by none of the names of the parts. -/
  named : ∃ name, key? m.1 = some name ∧ ∀ part ∈ parts, name ∉ part.names

/-- No name is that of two parts. -/
def Part.Apart (parts : List Part) : Prop :=
  parts.Pairwise fun p q => ∀ name ∈ p.names, name ∉ q.names

section parts
variable {part : Part} {parts : List Part} {m : List Char × Spelling}
  {known : List (List Char × Spelling)}

/-- Every member of those listed stands for one of the parts. -/
theorem Listed.named_of_mem (h : Listed parts known) (hm : m ∈ known) :
    ∃ part ∈ parts, IsNamed part.names m := by
  induction h with
  | nil => cases hm
  | stated _ named _ _ ih =>
    rcases List.mem_cons.mp hm with rfl | hm
    · exact ⟨_, List.mem_cons_self, named⟩
    · obtain ⟨part, hpart, hnamed⟩ := ih hm
      exact ⟨part, List.mem_cons_of_mem _ hpart, hnamed⟩
  | omitted _ _ ih =>
    obtain ⟨part, hpart, hnamed⟩ := ih hm
    exact ⟨part, List.mem_cons_of_mem _ hpart, hnamed⟩

theorem IsOther.tail (h : IsOther (part :: parts) m) : IsOther parts m where
  key := h.key
  sound := h.sound
  named := by
    obtain ⟨name, hname, hother⟩ := h.named
    exact ⟨name, hname, fun q hq => hother q (List.mem_cons_of_mem _ hq)⟩

end parts

namespace Spelling

/-- An object with the parts and other members in any order. -/
def Writes (parts : List Part) (s : Spelling) : Prop :=
  ∃ members known others, s = .object members ∧ members.Perm (known ++ others) ∧
    Listed parts known ∧ ∀ m ∈ others, IsOther parts m

/-- A string. -/
def IsString (text : String) (s : Spelling) : Prop :=
  ∃ token, StringToken token ∧ key? token = some text ∧ s = .scalar token

/-- A number that counts as the double. -/
def IsDouble (x : Double) (s : Spelling) : Prop :=
  ∃ token n, NumberToken token ∧ number? token = some n ∧ n.toDouble = x ∧ s = .scalar token

/-- An object that stands for the properties, at most so many levels deep. -/
def IsBag (depth : Nat) (p : Properties) (s : Spelling) : Prop :=
  s.Sound ∧ ∃ members, s.value? depth = some (.object members) ∧ Properties.ofMembers members = p

/-- An array of what stands for the items. -/
def IsArray (Item : α → Spelling → Prop) (as : List α) (s : Spelling) : Prop :=
  ∃ items, s = .array items ∧ List.Forall₂ Item as items

end Spelling

/-! ### What is made of the parts -/

namespace Shape
variable {s : Shape α} {a : α} {sp : Spelling} {depth : Nat}

/-- The shape makes this of the spelling. -/
structure Makes (s : Shape α) (depth : Nat) (a : α) (sp : Spelling) : Prop where
  /-- The spelling is one of the grammar. -/
  sound : sp.Sound
  /-- From it alone the value is read. -/
  sense_eq : (s.read depth).sense sp = some a

theorem Makes.imap {β : Type} (h : s.Makes depth a sp) (hs : s.Decides) (f : α → β) (g : β → α) :
    (s.imap f g).Makes depth (f a) sp := by
  refine ⟨h.sound, ?_⟩
  have hsense : ((s.imap f g).read depth).sense sp = f <$> (s.read depth).sense sp :=
    ((hs depth sp h.sound).map f).sense_eq
  rw [hsense, h.sense_eq]
  rfl

theorem makes_string {text : String} (h : sp.IsString text) (depth : Nat) :
    Shape.string.Makes depth text sp := by
  obtain ⟨token, htoken, hkey, rfl⟩ := h
  have hsound : (Spelling.scalar token).Sound := .scalar (.string htoken)
  refine ⟨hsound, ?_⟩
  rw [plain_string hsound, Spelling.viewed?_string htoken, hkey]
  rfl

theorem makes_choice {name : α → String} {choices : List α}
    (hback : (choice name choices).ViewsBack a) (h : sp.IsString (name a)) (depth : Nat) :
    (choice name choices).Makes depth a sp := by
  obtain ⟨token, htoken, hkey, rfl⟩ := h
  have hsound : (Spelling.scalar token).Sound := .scalar (.string htoken)
  refine ⟨hsound, ?_⟩
  rw [sense_choice _ _ hsound, chosen?, Spelling.viewed?_string htoken, hkey]
  exact congrArg Except.toOption hback

theorem makes_double {x : Double} (h : sp.IsDouble x) (depth : Nat) :
    Shape.double.Makes depth x sp := by
  obtain ⟨token, n, htoken, hnumber, rfl, rfl⟩ := h
  have hsound : (Spelling.scalar token).Sound := .scalar (.number htoken)
  refine ⟨hsound, ?_⟩
  rw [double, plain_numberWith _ _ _ hsound, Spelling.viewed?_number htoken, hnumber]
  rfl

theorem makes_properties {p : Properties} (h : sp.IsBag depth p) :
    Shape.properties.Makes depth p sp := by
  obtain ⟨hsound, members, hvalue, rfl⟩ := h
  refine ⟨hsound, ?_⟩
  rw [plain_properties hsound, Spelling.viewed?, hvalue]
  rfl

/-- An array makes a list of what its items make. -/
theorem makes_list {Item : α → Spelling → Prop} (hs : s.Decides)
    (hitem : ∀ a i, Item a i → s.Makes depth a i) {as : List α} (h : sp.IsArray Item as) :
    (Shape.list s).Makes (depth + 1) as sp := by
  obtain ⟨items, rfl, hitems⟩ := h
  have hmakes : (∀ i ∈ items, i.Sound) ∧ items.mapM (s.read depth).sense = some as := by
    induction hitems with
    | nil => exact ⟨List.forall_mem_nil _, rfl⟩
    | cons ha _ ih =>
      obtain ⟨hsound, hsense⟩ := hitem _ _ ha
      exact ⟨List.forall_mem_cons.mpr ⟨hsound, ih.1⟩,
        mapM_cons_eq_some_iff.mpr ⟨_, _, hsense, ih.2, rfl⟩⟩
  have hsound : (Spelling.array items).Sound := .array hmakes.1
  refine ⟨hsound, ?_⟩
  rw [sense_list hs hsound]
  exact hmakes.2

end Shape

theorem Field.answersTo_iff (f : Field α) (name : String) :
    f.answersTo name = true ↔ name ∈ f.name :: f.aliases := by
  rw [answersTo, Bool.or_eq_true, beq_iff_eq, List.contains_iff_mem, List.mem_cons, eq_comm]

namespace Fields
variable {fs : Fields αs} {f : Field α} {depth : Nat} {members : List (List Char × Spelling)}

/-- The fields answer to the names of the parts and make the values of them. -/
def Follows (depth : Nat) : {αs : List Type} → Fields αs → List Part → Values αs → Prop
  | _, .nil, [], _ => True
  | _, .cons f fs, part :: parts, (a, values) =>
    part.names.Perm (f.name :: f.aliases) ∧ (∀ sp, part.Holds sp → f.shape.Makes depth a sp) ∧
      (part.optional → f.absent = some a) ∧ fs.Follows depth parts values
  | _, _, _, _ => False

/-- A field keeps its value while members are taken that it does not answer to. -/
theorem foldlM_takeMember?_cons
    (h : ∀ m ∈ members, ∀ key, key? m.1 = some key → ¬f.answersTo key = true) (slot : Option α)
    (slots : Slots αs) : members.foldlM ((Fields.cons f fs).takeMember? depth) (slot, slots) =
      (fun slots => (slot, slots)) <$> members.foldlM (fs.takeMember? depth) slots := by
  induction members generalizing slots with
  | nil => rfl
  | cons m members ih =>
    obtain ⟨hm, hmembers⟩ := List.forall_mem_cons.mp h
    have hstep : (Fields.cons f fs).takeMember? depth (slot, slots) m =
        (fun slots => (slot, slots)) <$> fs.takeMember? depth slots m := by
      unfold takeMember?
      cases hkey : key? m.1 with
      | none => rfl
      | some key =>
        show (Fields.cons f fs).take? _ key (slot, slots) = _ <$> fs.take? _ key slots
        rw [take?, if_neg (hm key hkey)]
    rw [List.foldlM_cons, List.foldlM_cons, hstep]
    cases fs.takeMember? depth slots m with
    | none => rfl
    | some slots => exact ih hmembers slots

/-- The one member that a field answers to fills it, wherever it stands. -/
theorem foldlM_takeMember?_stated {before after : List (List Char × Spelling)}
    {m : List Char × Spelling} {name : String} {a : α} {start slots : Slots αs}
    (hname : key? m.1 = some name) (hanswers : f.answersTo name = true)
    (hsense : (f.shape.read depth).sense m.2 = some a)
    (hquiet : ∀ m ∈ before ++ after, ∀ key, key? m.1 = some key → ¬f.answersTo key = true)
    (hslots : (before ++ after).foldlM (fs.takeMember? depth) start = some slots) :
    (before ++ m :: after).foldlM ((Fields.cons f fs).takeMember? depth) (none, start) =
      some (some a, slots) := by
  obtain ⟨hbefore, hafter⟩ := List.forall_mem_append.mp hquiet
  rw [List.foldlM_append] at hslots
  obtain ⟨middle, hmiddle, hslots⟩ := Option.bind_eq_some_iff.mp hslots
  have hm : (Fields.cons f fs).takeMember? depth (none, middle) m = some (some a, middle) := by
    rw [takeMember?, hname]
    show (Fields.cons f fs).take? _ name (none, middle) = _
    rw [take?, if_pos hanswers, hsense]
    rfl
  rw [List.foldlM_append, foldlM_takeMember?_cons hbefore, hmiddle]
  show (m :: after).foldlM ((Fields.cons f fs).takeMember? depth) (none, middle) = _
  rw [List.foldlM_cons, hm]
  show after.foldlM ((Fields.cons f fs).takeMember? depth) (some a, middle) = _
  rw [foldlM_takeMember?_cons hafter, hslots]
  rfl

/-- Members of other names are passed over by a record without fields. -/
theorem foldlM_takeMember?_nil (h : ∀ m ∈ members, ∃ key, key? m.1 = some key) :
    members.foldlM (Fields.nil.takeMember? depth) () = some () := by
  induction members with
  | nil => rfl
  | cons m members ih =>
    obtain ⟨⟨key, hkey⟩, hmembers⟩ := List.forall_mem_cons.mp h
    have hstep : Fields.nil.takeMember? depth () m = some () := by
      rw [takeMember?, hkey]
      rfl
    rw [List.foldlM_cons, hstep]
    exact ih hmembers

/-- The members that are listed fill the fields, in whatever order they come and whatever else
comes. -/
theorem exists_slots_of_listed {parts : List Part} {values : Values αs}
    {known others : List (List Char × Spelling)} (h : fs.Follows depth parts values)
    (hapart : Part.Apart parts) (hlisted : Listed parts known)
    (hothers : ∀ m ∈ others, IsOther parts m) (hperm : members.Perm (known ++ others)) :
    ∃ slots, members.foldlM (fs.takeMember? depth) fs.empty = some slots ∧
      fs.complete slots = .ok values := by
  induction fs generalizing parts known members with
  | nil =>
    cases parts with
    | cons part parts => exact h.elim
    | nil =>
      cases hlisted
      refine ⟨(), foldlM_takeMember?_nil fun m hm => ?_, rfl⟩
      obtain ⟨key, hkey, -⟩ := (hothers m (hperm.subset hm)).named
      exact ⟨key, hkey⟩
  | cons f fs ih =>
    cases parts with
    | nil => exact h.elim
    | cons part parts =>
      obtain ⟨a, values⟩ := values
      obtain ⟨hnames, hmakes, habsent, h⟩ := h
      have hanswers : ∀ name, f.answersTo name = true ↔ name ∈ part.names := fun name =>
        (f.answersTo_iff name).trans hnames.mem_iff.symm
      obtain ⟨hpart, hapart⟩ := List.pairwise_cons.mp hapart
      have htails : ∀ m ∈ others, IsOther parts m := fun m hm => (hothers m hm).tail
      -- the field answers to none of the other parts and to none of the other members
      have hquiet : ∀ {known' : List (List Char × Spelling)}, Listed parts known' →
          ∀ m ∈ known' ++ others, ∀ key, key? m.1 = some key → ¬f.answersTo key = true := by
        intro known' hlisted' m hm key hkey hanswer
        have hname := (hanswers key).mp hanswer
        rcases List.mem_append.mp hm with hm | hm
        · obtain ⟨q, hq, name, hmem, hname'⟩ := hlisted'.named_of_mem hm
          obtain rfl : name = key := Option.some.inj (hname'.symm.trans hkey)
          exact hpart q hq name hname hmem
        · obtain ⟨name, hname', hother⟩ := (hothers m hm).named
          obtain rfl : name = key := Option.some.inj (hname'.symm.trans hkey)
          exact hother part List.mem_cons_self hname
      cases hlisted with
      | omitted optional hlisted =>
        -- nothing fills the field, which then holds what is absent by right
        obtain ⟨slots, hslots, hcomplete⟩ := ih h hapart hlisted htails hperm
        refine ⟨(none, slots), ?_, ?_⟩
        · rw [empty, foldlM_takeMember?_cons, hslots]
          · rfl
          · exact fun m hm => hquiet hlisted m (hperm.subset hm)
        · simp [complete, Field.value, habsent optional, hcomplete, bind, Except.bind, pure,
            Except.pure]
      | @stated _ _ m known _ named holds hlisted =>
        -- the other fields see the members without this one, which are in another order still
        obtain ⟨before, after, rfl⟩ := List.append_of_mem (hperm.symm.subset List.mem_cons_self)
        have hrest : (before ++ after).Perm (known ++ others) :=
          (List.perm_middle.symm.trans hperm).cons_inv
        obtain ⟨slots, hslots, hcomplete⟩ := ih h hapart hlisted htails hrest
        obtain ⟨name, hmem, hname⟩ := named
        refine ⟨(some a, slots), ?_, ?_⟩
        · exact foldlM_takeMember?_stated hname ((hanswers name).mpr hmem)
            (hmakes m.2 holds).sense_eq (fun n hn => hquiet hlisted n (hrest.subset hn)) hslots
        · simp [complete, Field.value, hcomplete, bind, Except.bind, pure, Except.pure]

/-- What is listed is sound, as a field can make something of it. -/
theorem Follows.sound {parts : List Part} {values : Values αs} (h : fs.Follows depth parts values)
    {known : List (List Char × Spelling)} (hlisted : Listed parts known) :
    ∀ m ∈ known, StringToken m.1 ∧ m.2.Sound := by
  induction fs generalizing parts known with
  | nil =>
    cases parts with
    | cons part parts => exact h.elim
    | nil =>
      cases hlisted
      exact List.forall_mem_nil _
  | cons f fs ih =>
    cases parts with
    | nil => exact h.elim
    | cons part parts =>
      obtain ⟨-, hmakes, -, h⟩ := h
      cases hlisted with
      | omitted _ hlisted => exact ih h hlisted
      | stated key _ holds hlisted =>
        exact List.forall_mem_cons.mpr ⟨⟨key, (hmakes _ holds).sound⟩, ih h hlisted⟩

end Fields

namespace Record
variable {r : Record α} {sp : Spelling} {depth : Nat}

/-- **A record makes what its object writes**, whatever the order of the members is, under
whichever names they stand and whatever else the object holds. -/
theorem makes_of_writes (hs : r.fields.Decide) {parts : List Part} (hapart : Part.Apart parts)
    {values : Values r.types} (h : r.fields.Follows depth parts values)
    (hwrites : sp.Writes parts) : r.shape.Makes (depth + 1) (r.make values) sp := by
  obtain ⟨members, known, others, rfl, hperm, hlisted, hothers⟩ := hwrites
  have hforms : ∀ m ∈ members, StringToken m.1 ∧ m.2.Sound := by
    intro m hm
    rcases List.mem_append.mp (hperm.subset hm) with hm | hm
    · exact h.sound hlisted m hm
    · exact ⟨(hothers m hm).key, (hothers m hm).sound⟩
  have hsound : (Spelling.object members).Sound :=
    .object (fun m hm => (hforms m hm).1) fun m hm => (hforms m hm).2
  obtain ⟨slots, hslots, hcomplete⟩ :=
    Fields.exists_slots_of_listed h hapart hlisted hothers hperm
  refine ⟨hsound, ?_⟩
  rw [sense_record hs hsound, taken?, Fields.takeMembers?, hslots]
  show r.make <$> (r.fields.complete slots).toOption = _
  rw [hcomplete]
  rfl

end Record

/-! ### Refused spellings -/

/-- Two members stand under names of the same part. -/
def Repeats (known : List (List String)) (members : List (List Char × Spelling)) : Prop :=
  ∃ names ∈ known, ∃ before m between n after,
    members = before ++ m :: (between ++ n :: after) ∧ IsNamed names m ∧ IsNamed names n

/-- The value stands under one of the names in an object, or at the place in an array. -/
inductive Gives (names : List String) (index : Nat) : Spelling → Spelling → Prop
  /-- It is the value of a member. -/
  | member {members : List (List Char × Spelling)} {m : List Char × Spelling} (hm : m ∈ members)
      (named : IsNamed names m) : Gives names index (.object members) m.2
  /-- It is an item. -/
  | item {items : List Spelling} {i : Spelling} (h : items[index]? = some i) :
      Gives names index (.array items) i

theorem Gives.sound {names : List String} {index : Nat} {sp i : Spelling}
    (h : Gives names index sp i) (hsound : sp.Sound) : i.Sound := by
  cases h with
  | member hm _ => exact hsound.member _ hm
  | item hi => exact hsound.item i (List.mem_of_getElem? hi)

/-- The shape makes nothing of the spelling. -/
def Shape.Refuses (s : Shape α) (sp : Spelling) : Prop :=
  ∀ depth, (s.read depth).sense sp = none

/-- A list is refused with any of its items. -/
theorem Shape.refuses_list {s : Shape α} (hs : s.Decides) {items : List Spelling}
    (hsound : (Spelling.array items).Sound) {i : Spelling} (hi : i ∈ items) (h : s.Refuses i) :
    (Shape.list s).Refuses (.array items) := by
  intro depth
  rw [sense_list hs hsound]
  cases depth with
  | zero => rfl
  | succ depth => exact mapM_eq_none hi (h depth)

namespace Fields
variable {fs : Fields αs} {key : String} {i : Nat} {depth : Nat}
  {members : List (List Char × Spelling)}

/-- The place of the first field that answers to the key. -/
def index? : {αs : List Type} → Fields αs → String → Option Nat
  | _, .nil, _ => none
  | _, .cons f fs, key => if f.answersTo key then some 0 else (fs.index? key).map (· + 1)

/-- The shape of the field at the place has the property. -/
def AtIndex (P : {α : Type} → Shape α → Prop) : {αs : List Type} → Fields αs → Nat → Prop
  | _, .nil, _ => False
  | _, .cons f _, 0 => P f.shape
  | _, .cons _ fs, i + 1 => fs.AtIndex P i

/-- The field at the place is filled. -/
def IsFilled : {αs : List Type} → Fields αs → Slots αs → Nat → Prop
  | _, .nil, _, _ => False
  | _, .cons _ _, (slot, _), 0 => slot.isSome = true
  | _, .cons _ fs, (_, slots), i + 1 => fs.IsFilled slots i

theorem AtIndex.atKey {P : {α : Type} → Shape α → Prop} (h : fs.AtIndex P i)
    (hindex : fs.index? key = some i) : fs.AtKey P key := by
  induction fs generalizing i with
  | nil => exact h
  | cons f fs ih =>
    unfold index? at hindex
    unfold AtKey
    by_cases hanswers : f.answersTo key = true
    · rw [if_pos hanswers] at hindex ⊢
      cases hindex
      exact h
    · rw [if_neg hanswers] at hindex ⊢
      obtain ⟨j, hj, rfl⟩ := Option.map_eq_some_iff.mp hindex
      exact ih h hj

section filled
variable {made : {α : Type} → Shape α → Option α} {slots slots' : Slots αs}

/-- The field that answers to a key is filled once a member under this key has been taken. -/
theorem isFilled_of_take? (hindex : fs.index? key = some i)
    (h : fs.take? made key slots = some slots') : fs.IsFilled slots' i := by
  induction fs generalizing i with
  | nil => cases hindex
  | cons f fs ih =>
    obtain ⟨slot, slots⟩ := slots
    unfold index? at hindex
    rw [take?] at h
    by_cases hanswers : f.answersTo key = true
    · rw [if_pos hanswers] at h hindex
      cases hindex
      cases slot with
      | some a => cases h
      | none =>
        obtain ⟨a, -, rfl⟩ := Option.map_eq_some_iff.mp h
        rfl
    · rw [if_neg hanswers] at h hindex
      obtain ⟨j, hj, rfl⟩ := Option.map_eq_some_iff.mp hindex
      obtain ⟨slots', hslots, rfl⟩ := Option.map_eq_some_iff.mp h
      exact ih hj hslots

/-- A field that is filled stays so, whatever is taken later. -/
theorem IsFilled.of_take? (hfilled : fs.IsFilled slots i)
    (h : fs.take? made key slots = some slots') : fs.IsFilled slots' i := by
  induction fs generalizing i with
  | nil => exact hfilled.elim
  | cons f fs ih =>
    obtain ⟨slot, slots⟩ := slots
    rw [take?] at h
    by_cases hanswers : f.answersTo key = true
    · rw [if_pos hanswers] at h
      cases slot with
      | some a => cases h
      | none =>
        obtain ⟨a, -, rfl⟩ := Option.map_eq_some_iff.mp h
        cases i with
        | zero => rfl
        | succ i => exact hfilled
    · rw [if_neg hanswers] at h
      obtain ⟨slots', hslots, rfl⟩ := Option.map_eq_some_iff.mp h
      cases i with
      | zero => exact hfilled
      | succ i => exact ih hfilled hslots

theorem IsFilled.take?_eq_none (hfilled : fs.IsFilled slots i) (hindex : fs.index? key = some i) :
    fs.take? made key slots = none := by
  induction fs generalizing i with
  | nil => cases hindex
  | cons f fs ih =>
    obtain ⟨slot, slots⟩ := slots
    unfold index? at hindex
    rw [take?]
    by_cases hanswers : f.answersTo key = true
    · rw [if_pos hanswers] at hindex
      cases hindex
      rw [if_pos hanswers]
      exact if_pos hfilled
    · rw [if_neg hanswers] at hindex
      obtain ⟨j, hj, rfl⟩ := Option.map_eq_some_iff.mp hindex
      rw [if_neg hanswers, ih hfilled hj]
      rfl

end filled

/-- Where a field is filled no more members are taken with one for it among them. -/
theorem IsFilled.foldlM_eq_none {slots : Slots αs} (hfilled : fs.IsFilled slots i)
    {n : List Char × Spelling} (hn : n ∈ members) (hname : key? n.1 = some key)
    (hindex : fs.index? key = some i) : members.foldlM (fs.takeMember? depth) slots = none := by
  induction members generalizing slots with
  | nil => cases hn
  | cons m members ih =>
    rw [List.foldlM_cons]
    cases hstep : fs.takeMember? depth slots m with
    | none => rfl
    | some slots' =>
      obtain ⟨key', hkey', htake⟩ := Option.bind_eq_some_iff.mp hstep
      rcases List.mem_cons.mp hn with rfl | hn
      · obtain rfl : key' = key := Option.some.inj (hkey'.symm.trans hname)
        rw [hfilled.take?_eq_none hindex] at htake
        cases htake
      · exact ih (hfilled.of_take? htake) hn

/-- No two members fill the same field. -/
theorem takeMembers?_eq_none_of_repeats {names : List String}
    (hnames : ∀ name ∈ names, fs.index? name = some i)
    {before between after : List (List Char × Spelling)} {m n : List Char × Spelling}
    (hm : IsNamed names m) (hn : IsNamed names n) :
    fs.takeMembers? depth (before ++ m :: (between ++ n :: after)) = none := by
  obtain ⟨name, hmem, hname⟩ := hm
  obtain ⟨name', hmem', hname'⟩ := hn
  rw [takeMembers?, List.foldlM_append]
  cases before.foldlM (fs.takeMember? depth) fs.empty with
  | none => rfl
  | some slots =>
    show (m :: (between ++ n :: after)).foldlM (fs.takeMember? depth) slots >>= _ = none
    rw [List.foldlM_cons, takeMember?, hname]
    show (fs.take? _ name slots >>= _) >>= _ = none
    cases htake : fs.take? (fun s => (s.read depth).sense m.2) name slots with
    | none => rfl
    | some slots' =>
      have hfilled := isFilled_of_take? (hnames name hmem) htake
      have hnone : (between ++ n :: after).foldlM (fs.takeMember? depth) slots' = none :=
        hfilled.foldlM_eq_none (by simp) hname' (hnames name' hmem')
      show (between ++ n :: after).foldlM (fs.takeMember? depth) slots' >>= _ = none
      rw [hnone]
      rfl

/-- An item that its field refuses is refused with all the others. -/
theorem takeItems?_eq_none {items : List Spelling} {sp : Spelling} (hitem : items[i]? = some sp)
    (h : fs.AtIndex (fun s => s.Refuses sp) i) : fs.takeItems? depth items = none := by
  induction fs generalizing items i with
  | nil => exact h.elim
  | cons f fs ih =>
    cases items with
    | nil => cases hitem
    | cons first items =>
      rw [takeItems?]
      cases i with
      | zero =>
        obtain rfl : first = sp := Option.some.inj hitem
        have hfirst : (f.shape.read depth).sense first = none := h depth
        rw [hfirst]
        rfl
      | succ i =>
        have hitem : items[i]? = some sp := hitem
        rw [ih hitem h]
        exact Option.bind_fun_none _

end Fields

namespace Record
variable {r : Record α} {sp : Spelling}

/-- **A record refuses two members for one field**, wherever they stand. -/
theorem refuses_of_repeats (hs : r.fields.Decide) {known : List (List String)}
    (hknown : ∀ names ∈ known, ∃ i < r.fields.count, ∀ name ∈ names,
      r.fields.index? name = some i)
    {members : List (List Char × Spelling)} (hsound : (Spelling.object members).Sound)
    (h : Repeats known members) : r.shape.Refuses (.object members) := by
  obtain ⟨names, hnames, before, m, between, n, after, rfl, hm, hn⟩ := h
  obtain ⟨i, -, hindex⟩ := hknown names hnames
  intro depth
  rw [sense_record hs hsound]
  cases depth with
  | zero => rfl
  | succ depth =>
    rw [taken?, Fields.takeMembers?_eq_none_of_repeats hindex hm hn]
    rfl

/-- A record is refused with the value of any of its fields. -/
theorem refuses_of_gives (hs : r.fields.Decide) {names : List String} {i : Nat}
    (hnames : ∀ name ∈ names, r.fields.index? name = some i) (hsound : sp.Sound) {value : Spelling}
    (hgives : Gives names i sp value) (h : r.fields.AtIndex (fun s => s.Refuses value) i) :
    r.shape.Refuses sp := by
  intro depth
  rw [sense_record hs hsound]
  cases depth with
  | zero => cases hgives <;> rfl
  | succ depth =>
    cases hgives with
    | @member members m hm named =>
      obtain ⟨name, hmem, hname⟩ := named
      have hnone : ∀ slots, r.fields.takeMember? depth slots m = none := by
        intro slots
        rw [Fields.takeMember?, hname]
        exact Fields.take?_eq_none ((h.atKey (hnames name hmem)).imp fun _ _ hs => hs depth) slots
      rw [taken?, Fields.takeMembers?, foldlM_eq_none hm hnone]
      rfl
    | item hitem =>
      rw [taken?, Fields.takeItems?_eq_none hitem h]
      rfl

end Record
end PipelineCanvas.Json
