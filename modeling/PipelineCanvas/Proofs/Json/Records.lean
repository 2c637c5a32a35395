import PipelineCanvas.Json.Record
import PipelineCanvas.Proofs.Json.Shapes
/-! # Records read what they write

A record comes back from its object when the names of its fields are told apart, each value that is
written is viewed back by the shape of its field, and each that is not is the default of its field
(`Record.viewsBack`, `Record.viewsBack_entry`). So much is about trees. The induction is on the
fields: the first field takes the first member, if it is written, and keeps its value while the
others take theirs, as it does not answer to their names.

A text is not read by way of a tree, though, but in one pass. That pass does what viewing the tree
does, as long as fields answer to all keys of the object (`Record.agrees_object`). Over an entry it
always does (`Record.agrees_entry`), as only the identifier is read there in passing. Together the
two say that records read what they write. -/
namespace PipelineCanvas.Json
open Reader
variable {α ι : Type} {αs : List Type}

theorem Field.answersTo_name (f : Field α) : f.answersTo f.name = true := by
  simp [answersTo]

/-- What is done with a member in one pass begins behind its key. -/
theorem Reader.follows_member {σ : Type} {value : Reader α} {f : σ → String → Reader σ}
    {take : σ → String × α → Except Fault σ} {m : String × α}
    (h : ∀ {s s' cs cs' rest}, expectToken ':' cs = .ok ((), cs') → value cs' = .ok (m.2, rest) →
      take s m = .ok s' → f s m.1 cs = .ok (s', rest)) :
    Brackets.Follows (member quoted value) (fun s => do f s (← quoted)) take m := by
  intro s s' cs rest hmember htake
  obtain ⟨k, cs₁, hk, hmember⟩ := Reader.bind_eq_ok_iff.mp hmember
  obtain ⟨_, cs₂, hcolon, hmember⟩ := Reader.bind_eq_ok_iff.mp hmember
  obtain ⟨a, _, ha, hmember⟩ := Reader.bind_eq_ok_iff.mp hmember
  cases hmember
  show (quoted >>= f s) cs = .ok (s', rest)
  rw [bind_of_ok hk]
  exact h hcolon ha htake

namespace Fields

/-- The names of the fields, in their order. -/
def names : {αs : List Type} → Fields αs → List String
  | _, .nil => []
  | _, .cons f fs => f.name :: fs.names

/-- No field answers to the name of one behind it. -/
def Distinct : {αs : List Type} → Fields αs → Prop
  | _, .nil => True
  | _, .cons f fs => (∀ name ∈ fs.names, f.answersTo name = false) ∧ fs.Distinct

instance decidableDistinct : {αs : List Type} → (fs : Fields αs) → Decidable fs.Distinct
  | _, .nil => inferInstanceAs (Decidable True)
  | _, .cons f fs =>
    have := fs.decidableDistinct
    inferInstanceAs (Decidable ((∀ name ∈ fs.names, f.answersTo name = false) ∧ fs.Distinct))

/-- What is written of the values is viewed back, and what is not written is left out by right. -/
def ViewsBack : {αs : List Type} → Fields αs → Values αs → Prop
  | _, .nil, _ => True
  | _, .cons f fs, (a, values) =>
    (if f.isWritten a then f.shape.ViewsBack a else f.absent = some a) ∧ fs.ViewsBack values

/-- A field answers to the key, and its shape agrees on the tree. -/
def Agrees : {αs : List Type} → Fields αs → String → Json → Prop
  | _, .nil, _, _ => False
  | _, .cons f fs, key, t => if f.answersTo key then f.shape.Agrees t else fs.Agrees key t

/-! ### Writing and viewing -/

theorem mem_names_of_mem_toMembers {fs : Fields αs} {values : Values αs} {m : String × Json}
    (h : m ∈ fs.toMembers values) : m.1 ∈ fs.names := by
  induction fs with
  | nil => cases h
  | cons f fs ih =>
    obtain ⟨a, values⟩ := values
    unfold toMembers at h
    split at h
    · rcases List.mem_cons.mp h with rfl | h
      · exact List.mem_cons_self
      · exact List.mem_cons_of_mem _ (ih h)
    · exact List.mem_cons_of_mem _ (ih h)

/-- A field keeps its value while members are taken that it does not answer to. -/
theorem foldlM_viewMember_cons {f : Field α} {fs : Fields αs} {members : List (String × Json)}
    (h : ∀ m ∈ members, f.answersTo m.1 = false) (slot : Option α) {slots slots' : Slots αs}
    (hfold : members.foldlM fs.viewMember slots = .ok slots') :
    members.foldlM (Fields.cons f fs).viewMember (slot, slots) = .ok (slot, slots') := by
  induction members generalizing slots with
  | nil =>
    cases hfold
    rfl
  | cons m members ih =>
    obtain ⟨between, hm, hfold⟩ := PipelineCanvas.bind_eq_ok_iff.mp hfold
    have hstep : (Fields.cons f fs).viewMember (slot, slots) m = .ok (slot, between) := by
      have hno : ¬f.answersTo m.1 = true := by simp [h m List.mem_cons_self]
      unfold viewMember at hm ⊢
      rw [fill, if_neg hno]
      cases hfill : fs.fill m.1 (fun s => s.view m.2) slots with
      | none =>
        rw [hfill] at hm
        cases hm
        rfl
      | some taken =>
        rw [hfill] at hm
        obtain rfl : taken = .ok between := hm
        rfl
    rw [List.foldlM_cons, hstep]
    exact ih (fun n hn => h n (List.mem_cons_of_mem _ hn)) hfold

/-- A member under the name of the first field fills it. -/
theorem viewMember_cons_self {f : Field α} {a : α} {t : Json} (h : f.shape.view t = .ok a)
    (fs : Fields αs) (slots : Slots αs) :
    (Fields.cons f fs).viewMember (none, slots) (f.name, t) = .ok (some a, slots) := by
  simp [viewMember, fill, f.answersTo_name, h, bind, Except.bind, pure, Except.pure]

/-- The members that are written for values fill the slots that complete to the values. -/
theorem exists_slots {fs : Fields αs} (hdistinct : fs.Distinct) {values : Values αs}
    (hback : fs.ViewsBack values) :
    ∃ slots, (fs.toMembers values).foldlM fs.viewMember fs.empty = .ok slots ∧
      fs.complete slots = .ok values := by
  induction fs with
  | nil => exact ⟨(), rfl, rfl⟩
  | cons f fs ih =>
    obtain ⟨a, values⟩ := values
    obtain ⟨ha, hback⟩ := hback
    obtain ⟨slots, hfold, hcomplete⟩ := ih hdistinct.2 hback
    have hkeys : ∀ m ∈ fs.toMembers values, f.answersTo m.1 = false := fun m hm =>
      hdistinct.1 m.1 (mem_names_of_mem_toMembers hm)
    unfold toMembers
    split at ha
    · next hwritten =>
      refine ⟨(some a, slots), ?_, ?_⟩
      · have hself : (Fields.cons f fs).viewMember (none, fs.empty) (f.name, f.shape.toJson a) =
            .ok (some a, fs.empty) := viewMember_cons_self ha fs fs.empty
        rw [if_pos hwritten, List.foldlM_cons, empty, hself]
        exact foldlM_viewMember_cons hkeys (some a) hfold
      · simp [complete, Field.value, hcomplete, bind, Except.bind, pure, Except.pure]
    -- not written: the slot stays empty and is filled with what is absent by right
    · next hwritten =>
      refine ⟨(none, slots), ?_, ?_⟩
      · rw [if_neg hwritten]
        exact foldlM_viewMember_cons hkeys none hfold
      · simp [complete, Field.value, ha, hcomplete, bind, Except.bind, pure, Except.pure]

/-- The values come back from the members that are written for them. -/
theorem viewMembers_toMembers {fs : Fields αs} (hdistinct : fs.Distinct) {values : Values αs}
    (hback : fs.ViewsBack values) : fs.viewMembers (fs.toMembers values) = .ok values := by
  obtain ⟨slots, hfold, hcomplete⟩ := exists_slots hdistinct hback
  rw [viewMembers, hfold]
  exact hcomplete

/-! ### Reading and viewing -/

/-- The field that a member fills in a tree is filled in the text of the tree too. -/
theorem fill_agrees {fs : Fields αs} {key : String} {t : Json} (h : fs.Agrees key t) {depth : Nat}
    {cs cs' rest : List Char} (hcolon : expectToken ':' cs = .ok ((), cs'))
    (ht : tree depth cs' = .ok (t, rest)) (slots : Slots αs) :
    ∃ taken read, fs.fill key (fun s => s.view t) slots = some taken ∧
      fs.fill key (fun s => do
        expectToken ':'
        s.read depth) slots = some read ∧
      ∀ {slots'}, taken = .ok slots' → read cs = .ok (slots', rest) := by
  induction fs with
  | nil => exact h.elim
  | cons f fs ih =>
    obtain ⟨slot, slots⟩ := slots
    unfold Agrees at h
    unfold fill
    split at h
    · next hanswers =>
      refine ⟨_, _, if_pos hanswers, if_pos hanswers, ?_⟩
      intro slots' htaken
      cases slot with
      | some a => cases htaken
      | none =>
        obtain ⟨a, ha, htaken⟩ := PipelineCanvas.bind_eq_ok_iff.mp htaken
        cases htaken
        have hread : (do
            expectToken ':'
            f.shape.read depth) cs = .ok (a, rest) := by
          rw [bind_of_ok hcolon]
          exact h depth ht ha
        exact bind_of_ok hread
    · next hanswers =>
      obtain ⟨taken, read, htaken, hread, hagree⟩ := ih h slots
      rw [if_neg hanswers, if_neg hanswers, htaken, hread]
      refine ⟨_, _, rfl, rfl, ?_⟩
      intro slots' hmap
      obtain ⟨slots', hslots, hmap⟩ := PipelineCanvas.bind_eq_ok_iff.mp hmap
      cases hmap
      exact bind_of_ok (hagree hslots)

/-- A member is taken in passing as it is viewed in a tree. -/
theorem follows_of_agrees {fs : Fields αs} {m : String × Json} (h : fs.Agrees m.1 m.2)
    (depth : Nat) : Brackets.Follows (member quoted (tree depth))
      (fun slots => do fs.readMember depth slots (← quoted)) fs.viewMember m := by
  refine follows_member ?_
  intro slots slots' cs cs' rest hcolon ht hview
  obtain ⟨taken, read, htaken, hread, hagree⟩ := fill_agrees h hcolon ht slots
  rw [viewMember, htaken] at hview
  rw [readMember, hread]
  exact hagree hview

end Fields

namespace Record

/-- A record comes back from its object. -/
theorem viewsBack {r : Record α} (hdistinct : r.fields.Distinct) {a : α}
    (hback : r.fields.ViewsBack (r.parts a)) (hmake : r.make (r.parts a) = a) :
    r.shape.ViewsBack a := by
  show r.make <$> r.fields.viewMembers (r.fields.toMembers (r.parts a)) = .ok a
  rw [Fields.viewMembers_toMembers hdistinct hback]
  exact congrArg Except.ok hmake

/-- An object is read in one pass as it is viewed, where fields answer to its keys. -/
theorem agrees_object {r : Record α} {members : List (String × Json)}
    (h : ∀ m ∈ members, r.fields.Agrees m.1 m.2) : r.shape.Agrees (.object members) := by
  intro depth cs rest a htree hview
  obtain ⟨below, tail, rfl, hpeek, hmembers⟩ := tree_object htree
  obtain ⟨values, hvalues, rfl⟩ := PipelineCanvas.map_eq_ok_iff.mp hview
  obtain ⟨slots, hfold, hcomplete⟩ := PipelineCanvas.bind_eq_ok_iff.mp hvalues
  have hslots : Reader.members quoted (r.fields.readMember below) r.fields.empty tail =
      .ok (slots, rest) :=
    Brackets.pass_of_collect hmembers (fun m hm => Fields.follows_of_agrees (h m hm) below) hfold
  have hread : r.fields.readMembers below tail = .ok (values, rest) := by
    rw [Fields.readMembers, bind_of_ok hslots]
    exact lift_eq_ok hcomplete
  have hopen : (do
      Reader.expect '\x7b'
      r.make <$> r.fields.readMembers below : Reader α) ('\x7b' :: tail) =
        .ok (r.make values, rest) := by
    rw [bind_of_ok (expect_cons '\x7b')]
    exact map_of_ok hread
  show (peekToken >>= _) cs = _
  rw [bind_of_ok hpeek]
  exact hopen

/-! ### Entries -/

theorem splitMember_id {name : String} {id : Shape ι} {t : Json} {i : ι} (h : id.view t = .ok i)
    (others : List (String × Json)) :
    splitMember name id (none, others) (name, t) = .ok (some i, others) := by
  simp [splitMember, h, bind, Except.bind, pure, Except.pure]

theorem foldlM_splitMember {name : String} {id : Shape ι} {members : List (String × Json)}
    (h : ∀ m ∈ members, m.1 ≠ name) (i : Option ι) (others : List (String × Json)) :
    members.foldlM (splitMember name id) (i, others) = .ok (i, members.reverse ++ others) := by
  induction members generalizing others with
  | nil => rfl
  | cons m members ih =>
    have hstep : splitMember name id (i, others) m = .ok (i, m :: others) := by
      rw [splitMember, if_pos (h m List.mem_cons_self)]
      rfl
    rw [List.foldlM_cons, hstep, List.reverse_cons, List.append_assoc]
    exact ih (fun n hn => h n (List.mem_cons_of_mem _ hn)) (m :: others)

/-- A record comes back with its identifier from the object of its entry. -/
theorem viewsBack_entry {r : Record α} (hdistinct : r.fields.Distinct) {a : α}
    (hback : r.fields.ViewsBack (r.parts a)) (hmake : r.make (r.parts a) = a) {name : String}
    (hname : name ∉ r.fields.names) {id : Shape ι} {i : ι} (hid : id.ViewsBack i)
    (expected : String) : (r.entry expected name id).ViewsBack (i, a) := by
  have hkeys : ∀ m ∈ r.fields.toMembers (r.parts a), m.1 ≠ name := by
    rintro m hm rfl
    exact hname (Fields.mem_names_of_mem_toMembers hm)
  have hfold : ((name, id.toJson i) :: r.fields.toMembers (r.parts a)).foldlM
      (splitMember name id) (none, []) =
        .ok (some i, (r.fields.toMembers (r.parts a)).reverse) := by
    rw [List.foldlM_cons, splitMember_id hid]
    have hrest : List.foldlM (splitMember name id) (some i, []) _ = .ok (some i, _ ++ []) :=
      foldlM_splitMember hkeys (some i) []
    rwa [List.append_nil] at hrest
  have hentry : r.ofEntry name (some i, (r.fields.toMembers (r.parts a)).reverse) =
      .ok (i, a) := by
    have hsplit : split name (some i, (r.fields.toMembers (r.parts a)).reverse) =
        .ok (i, r.fields.toMembers (r.parts a)) :=
      congrArg (fun others => Except.ok (i, others)) (List.reverse_reverse _)
    rw [ofEntry, hsplit]
    show (do return (i, r.make (← r.fields.viewMembers (r.fields.toMembers (r.parts a)))) :
      Except Fault (ι × α)) = _
    rw [Fields.viewMembers_toMembers hdistinct hback]
    exact congrArg (fun a => Except.ok (i, a)) hmake
  show (do
    r.ofEntry name (← List.foldlM (splitMember name id) (none, [])
      ((name, id.toJson i) :: r.fields.toMembers (r.parts a))) : Except Fault (ι × α)) = _
  rw [hfold]
  exact hentry

theorem follows_splitMember {name : String} {id : Shape ι} {m : String × Json}
    (hid : id.Agrees m.2) (depth : Nat) : Brackets.Follows (member quoted (tree depth))
      (fun parts => do readEntryMember name id depth parts (← quoted)) (splitMember name id) m := by
  obtain ⟨key, t⟩ := m
  refine follows_member ?_
  rintro ⟨i, others⟩ parts' cs cs' rest hcolon ht hview
  unfold splitMember at hview
  unfold readEntryMember
  split at hview
  · next hkey =>
    cases hview
    rw [if_neg hkey, bind_of_ok hcolon, bind_of_ok ht]
    rfl
  · next hkey =>
    cases i with
    | some i => cases hview
    | none =>
      obtain ⟨i, hi, hview⟩ := PipelineCanvas.bind_eq_ok_iff.mp hview
      cases hview
      have hread : id.read depth cs' = .ok (i, rest) := hid depth ht hi
      rw [if_pos (not_ne_iff.mp hkey)]
      show (do
        expectToken ':'
        return (some (← id.read depth), others) : Reader (EntryParts ι)) cs = _
      rw [bind_of_ok hcolon, bind_of_ok hread]
      rfl

/-- An entry is read in one pass as it is viewed, whatever its members. -/
theorem agrees_entry (r : Record α) (expected name : String) {id : Shape ι}
    (hid : ∀ t, id.Agrees t) (t : Json) : (r.entry expected name id).Agrees t := by
  intro depth cs rest e htree hview
  cases t with
  | object members =>
    obtain ⟨below, tail, rfl, hpeek, hmembers⟩ := tree_object htree
    obtain ⟨parts, hparts, hentry⟩ := PipelineCanvas.bind_eq_ok_iff.mp hview
    have hread : Reader.members quoted (readEntryMember name id below) (none, []) tail =
        .ok (parts, rest) :=
      Brackets.pass_of_collect hmembers (fun m _ => follows_splitMember (hid m.2) below) hparts
    have hopen : (do
        Reader.expect '\x7b'
        let parts ← Reader.members quoted (readEntryMember name id below) (none, [])
        r.ofEntry name parts : Reader (ι × α)) ('\x7b' :: tail) = .ok (e, rest) := by
      rw [bind_of_ok (expect_cons '\x7b'), bind_of_ok hread]
      exact lift_eq_ok hentry
    show (peekToken >>= _) cs = _
    rw [bind_of_ok hpeek]
    exact hopen
  | _ => cases hview

end Record
end PipelineCanvas.Json
