import PipelineCanvas.Proofs.Json.BrokenTexts
import PipelineCanvas.Proofs.Json.Records
/-! # Records that break off

The members of a record are read one after the other, each into its field. Where the text of a
record breaks off, what is left is read as in the whole text, until this has ended in a member or
before the closing brace (`Fields.outcome_readMembers`). So it is not read, and nothing else is at
fault than that the text has ended, provided that all of the text is read
(`Record.exists_fault_of_breaksOff`).

The loop over the members carries the invariant `Fields.Awaits`: the members that are still to come
are known, and their keys are all keys of fields. So no key is refused as an unknown one, and where
a field has a second member the whole text is refused for it as well. What is asked of the fields is
`Fields.AllLoose`, and nothing of the values that they hold. -/
namespace PipelineCanvas.Json
open Reader
variable {α : Type} {αs : List Type} {left lost : List Char}

/-! ### Members -/

/-- The member as it is spelled. -/
def spelledMember (m : String × Json) : List (List Char) :=
  Spelling.memberToken (quote m.1, Spelling.ofJson m.2)

namespace Fields
variable {fs : Fields αs} {key : String} {depth : Nat} {slots : Slots αs}

/-- A field answers to the key, and the worst that its shape does is to stop where the text ends. -/
def LooseAt (fs : Fields αs) (lost : List Char) (key : String) : Prop :=
  fs.AtKey (fun s => ∀ depth, Loose lost (s.read depth)) key

/-- The member for the key is read into its field, which is as loose as its shape. -/
theorem LooseAt.exists_fill (h : fs.LooseAt lost key) (depth : Nat) (slots : Slots αs) :
    ∃ r, fs.fill key (fun s => do
        expectToken ':'
        s.read depth) slots = some r ∧ Loose lost r := by
  induction fs with
  | nil => exact h.elim
  | cons f fs ih =>
    obtain ⟨slot, slots⟩ := slots
    unfold LooseAt AtKey at h
    unfold fill
    by_cases hanswers : f.answersTo key = true
    · rw [if_pos hanswers] at h ⊢
      have hread : Loose lost (do
          expectToken ':'
          f.shape.read depth) := (firm_expectToken (by decide)).bind fun _ => h depth
      exact ⟨_, rfl, .guarded (fun _ => fails_error rfl) <|
        hread.bind (fun a => (firm_pure _).robust) fun _ _ => exhausts_pure trivial⟩
    · rw [if_neg hanswers] at h ⊢
      obtain ⟨r, hfill, hr⟩ := ih h slots
      rw [hfill]
      exact ⟨_, rfl, hr.map (Prod.mk slot) fun _ => id⟩

theorem LooseAt.readMember (h : fs.LooseAt lost key) (depth : Nat) (slots : Slots αs) :
    Loose lost (fs.readMember depth slots key) := by
  obtain ⟨r, hfill, hr⟩ := h.exists_fill depth slots
  unfold Fields.readMember
  rw [hfill]
  exact hr

/-- The shapes of all fields may stop at the end of a text and do nothing worse. -/
def AllLoose (lost : List Char) : {αs : List Type} → Fields αs → Prop
  | _, .nil => True
  | _, .cons f fs => (∀ depth, Loose lost (f.shape.read depth)) ∧ fs.AllLoose lost

theorem AllLoose.looseAt (h : fs.AllLoose lost) (hkey : key ∈ fs.names) : fs.LooseAt lost key := by
  induction fs with
  | nil => cases hkey
  | cons f fs ih =>
    unfold LooseAt AtKey
    split
    · exact h.1
    · next hanswers =>
      rcases List.mem_cons.mp hkey with rfl | hkey
      · exact absurd f.answersTo_name hanswers
      · exact ih h.2 hkey

/-- The members that are still to come, up to the end of the object and of the text. -/
def Awaits (fs : Fields αs) (lost : List Char) (first : Bool) (left : List Char) : Prop :=
  ∃ members : List (String × Json), (∀ m ∈ members, fs.LooseAt lost m.1) ∧
    Spaced (Brackets.partTokens first (members.map spelledMember) ++ [['\x7d']]) (left ++ lost)

theorem Awaits.written {first : Bool} (h : fs.Awaits lost first left) : Written (left ++ lost) := by
  obtain ⟨members, -, hspaced⟩ := h
  refine writesTokens_bracketed curly_enclosesSpaced ?_ first (fun _ => written_of_spaced_nil)
    hspaced
  exact List.forall_mem_map.mpr (writesTokens_ofMembers members)

/-- Behind a key the value of its field is read, or the text breaks off in it. -/
theorem outcome_readMember (hs : fs.Decide) {m : String × Json} (hm : fs.LooseAt lost m.1)
    {members : List (String × Json)} (hmembers : ∀ m ∈ members, fs.LooseAt lost m.1)
    (hspaced : Spaced ([':'] :: (Spelling.ofJson m.2).tokens ++
      (Brackets.partTokens false (members.map spelledMember) ++ [['\x7d']])) (left ++ lost))
    (hwritten : Written (left ++ lost)) :
    Outcome (fs.readMember depth slots m.1) left lost (fun _ => True) fun _ rest =>
      fs.Awaits lost false rest := by
  refine (hm.readMember depth slots left hwritten).mono (fun _ => id) fun slots' rest whole _ => ?_
  have hyields := finds_readMember hs (Spelling.sound_ofJson m.2) depth slots m.1 _ _
    (curly_enclosesSpaced.mayFollow (members.map spelledMember)) hspaced
  exact ⟨members, hmembers, (hyields.of_ok whole).2⟩

/-- One round of the loop over the members: a member is read, or the closing brace, or the text
breaks off in one of them. What is still to come is known behind a member again. -/
theorem outcome_step (hs : fs.Decide) {state : Bool × Slots αs}
    (h : fs.Awaits lost state.1 left) :
    Outcome (curly.step (fun slots => do fs.readMember depth slots (← quoted)) state) left lost
      (fun x => ∃ t, x = .inl t)
      (Sum.elim (fun state => fs.Awaits lost state.1) fun _ rest => Written (rest ++ lost)) := by
  have hwritten := h.written
  obtain ⟨first, slots⟩ := state
  obtain ⟨members, hmembers, hspaced⟩ := h
  have hhas := firm_hasMember first left hwritten
  cases members with
  | nil =>
    rw [List.map_nil, Brackets.partTokens_nil] at hspaced
    obtain ⟨ws, cs, hws, -, heq⟩ := hspaced.exists_cons
    have hclose : hasMember first (left ++ lost) = .ok (false, '\x7d' :: cs) := by
      rw [heq]
      exact curly_encloses.close first hws
    refine (hhas.known hclose).bind ?_ nofun
    rintro has rest ⟨rfl, hrest, -⟩
    refine (firm_expect (by decide) rest hrest).bind (fun _ rest hrest => ?_) nofun
    exact .reads rfl rfl hrest
  | cons m members =>
    obtain ⟨hm, hmembers⟩ := List.forall_mem_cons.mp hmembers
    have hbegins : BeginsMember (quote m.1) := ⟨_, rfl⟩
    -- the whole text has the key here, so what is left has it or breaks off before its end
    obtain ⟨cs, hpart, hinner, -⟩ := curly_enclosesSpaced.hasPart_cons hbegins hspaced
    refine (hhas.known hpart).bind ?_ nofun
    rintro has rest ⟨rfl, hrest, heq⟩
    have hkey : quoted (rest ++ lost) = .ok (m.1, cs) := by rw [heq, quoted_quote]
    have hmember : Outcome (do fs.readMember depth slots (← quoted)) rest lost (fun _ => True)
        fun _ rest => fs.Awaits lost false rest := by
      refine ((firm_quoted rest hrest).known hkey).bind ?_ nofun
      rintro key rest ⟨rfl, hrest, rfl⟩
      exact outcome_readMember hs hm hmembers hinner hrest
    refine hmember.bind (fun slots rest hrest => ?_) fun slots _ => exhausts_pure ⟨_, rfl⟩
    exact .reads rfl rfl hrest

/-- **The members of an object are never taken for complete** where the closing brace is lost. -/
theorem outcome_readMembers (hs : fs.Decide) (h : fs.Awaits lost true left) :
    Outcome (fs.readMembers depth) left lost (fun _ => False) fun _ rest =>
      Written (rest ++ lost) := by
  have hcurly : curly.Robust lost := Brackets.robust_curly
  have hpass : Outcome (Reader.members quoted (fs.readMember depth) fs.empty) left lost
      (fun _ => False) fun _ rest => Written (rest ++ lost) :=
    .loop (fun state left => fs.Awaits lost state.1 left) (fun _ _ => outcome_step hs)
      (hcurly.step_nil _) h
  exact hpass.bind (fun slots rest hrest => firm_lift _ rest hrest) nofun

end Fields

namespace Record
variable {r : Record α} {members : List (String × Json)}

/-- A record is read as in the whole text, or it fails: nothing is taken for its closing brace. -/
theorem outcome_record (hs : r.fields.Decide) (hmembers : ∀ m ∈ members, r.fields.LooseAt lost m.1)
    (h : Spaced (Spelling.ofJson (.object members)).tokens (left ++ lost)) (depth : Nat) :
    Outcome (r.shape.read depth) left lost (fun _ => False) fun _ rest =>
      Written (rest ++ lost) := by
  have hwritten : Written (left ++ lost) :=
    writesTokens_ofJson (.object members) [] (left ++ lost) nofun (fun _ => written_of_spaced_nil)
      (by rwa [List.append_nil])
  rw [Spelling.ofJson, Spelling.tokens, Spelling.memberTokens_eq_map, Spelling.ofMembers_eq_map,
    List.map_map] at h
  obtain ⟨ws, cs, hws, hinner, heq⟩ := h.exists_cons
  have hpeek : peekToken (left ++ lost) = .ok ('\x7b', '\x7b' :: cs) := by
    rw [heq]
    exact peekToken_append hws (by decide)
  refine ((firm_peekToken left hwritten).known hpeek).bind ?_ nofun
  rintro c rest ⟨rfl, hrest, heq⟩
  cases depth with
  | zero => exact firm_throw _ rest hrest
  | succ depth =>
    have hopen : expect '\x7b' (rest ++ lost) = .ok ((), cs) := by rw [heq, expect_cons]
    refine ((firm_expect (by decide) rest hrest).known hopen).bind ?_ nofun
    rintro _ rest ⟨-, -, rfl⟩
    exact (Fields.outcome_readMembers hs ⟨members, hmembers, hinner⟩).map r.make nofun
      fun _ _ => id

/-- What is left of a record is not read. The text has ended there, if all of it is read. -/
theorem exists_fault (hs : r.fields.Decide) (hloose : ∀ lost, r.fields.AllLoose lost) {a : α}
    (h : Spaced (Spelling.ofJson (r.shape.toJson a)).tokens (left ++ lost)) (hlost : ¬Blank lost)
    (depth : Nat) : ∃ fault, r.shape.read depth left = .error fault ∧
      ∀ p, r.shape.read depth (left ++ lost) = .ok p → fault = .ended := by
  have hsound := Spelling.sound_ofJson (r.shape.toJson a)
  have hmembers : ∀ m ∈ r.fields.toMembers (r.parts a), r.fields.LooseAt lost m.1 := fun m hm =>
    (hloose lost).looseAt (Fields.mem_names_of_mem_toMembers hm)
  cases outcome_record hs hmembers h depth with
  | @fails fault hleft whole =>
    exact ⟨fault, hleft, fun p hp => whole.resolve_right fun hfails => hfails p hp⟩
  | @reads a rest hleft whole _ =>
    -- what is read ends with the last token, and that is lost
    have hyields := finds_record hs hsound depth [] (left ++ lost) nofun (by rwa [List.append_nil])
    have hblank : Blank (rest ++ lost) := (hyields.of_ok whole).2.blank
    exact absurd (fun c hc => hblank c (List.mem_append_right rest hc)) hlost
  | spends _ ha => exact ha.elim

end Record

/-! ### Texts -/

/-- The first text is what is left of the second where this breaks off, between two characters and
before its end. -/
def BreaksOff (left text : String) : Prop := left.toList <+: text.toList ∧ left ≠ text

namespace BreaksOff
variable {left text : String}

/-- A text that is given by its characters breaks off where a proper beginning of them ends. -/
theorem of_chars {chars : List Char} (h : left.toList <+: chars) (hne : left.toList ≠ chars) :
    BreaksOff left (String.ofList chars) := by
  refine ⟨by rwa [String.toList_ofList], ?_⟩
  rintro rfl
  exact hne String.toList_ofList

/-- The last character is lost, whatever is left. -/
theorem exists_lost (h : BreaksOff left text) {init : List Char} {c : Char}
    (htext : text.toList = init ++ [c]) :
    ∃ lost, text.toList = left.toList ++ lost ∧ c ∈ lost := by
  obtain ⟨⟨lost, hlost⟩, hne⟩ := h
  refine ⟨lost, hlost.symm, ?_⟩
  rcases List.eq_nil_or_concat lost with rfl | ⟨more, d, rfl⟩
  · rw [List.append_nil] at hlost
    exact absurd (String.toList_inj.mp hlost) hne
  · rw [htext, List.concat_eq_append, ← List.append_assoc] at hlost
    obtain rfl := List.singleton_inj.mp (List.append_inj' hlost rfl).2
    simp

end BreaksOff

/-- An object that is written without blanks ends with its closing brace. -/
theorem compactChars_object (members : List (String × Json)) :
    ∃ init, (Json.object members).compactChars = init ++ ['\x7d'] :=
  ⟨_, by rw [compactChars]⟩

/-- An object that is written in lines ends with its closing brace. -/
theorem prettyChars_object (members : List (String × Json)) :
    ∃ init, (Json.object members).prettyChars 0 = init ++ ['\x7d'] := by
  rw [prettyChars, block]
  split
  · exact ⟨['\x7b'], rfl⟩
  · exact ⟨_, rfl⟩

/-- **What is left of the text of a record is not read**, and if all of the text is read, this is
because the text has ended. -/
theorem Record.exists_fault_of_breaksOff {r : Record α} (hs : r.fields.Decide)
    (hloose : ∀ lost, r.fields.AllLoose lost) {a : α} {left text : String}
    (hspaced : Spaced (Spelling.ofJson (r.shape.toJson a)).tokens text.toList)
    (hclosed : ∃ init, text.toList = init ++ ['\x7d']) (h : BreaksOff left text) (depth : Nat) :
    ∃ fault, r.shape.read depth left.toList = .error fault ∧
      ∀ p, r.shape.read depth text.toList = .ok p → fault = .ended := by
  obtain ⟨init, htext⟩ := hclosed
  obtain ⟨lost, hlost, hbrace⟩ := h.exists_lost htext
  have hblank : ¬Blank lost := fun hblank => absurd (hblank _ hbrace) (by decide)
  rw [hlost] at hspaced ⊢
  exact exists_fault hs hloose hspaced hblank depth

end PipelineCanvas.Json
