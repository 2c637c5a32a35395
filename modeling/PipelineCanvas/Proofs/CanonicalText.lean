import PipelineCanvas.Diagram.Saved
import PipelineCanvas.Proofs.Json.Canonical
import PipelineCanvas.Proofs.Json.Senses
/-! # Canonical texts are JSON

The canonical text of properties is what stands for them in a fragment of the source, so it has to
be a text that other programs can read. This file says that it is JSON in canonical form
(`Properties.canonical_spells`): it spells a tree of the grammar, the keys of every object ascend
strictly, no blank stands outside strings, and it is read back as the properties. It is also what
stands for the properties in the saved text of a diagram.

What is written for a tree without blanks is a spelling of the tree, `Spelling.ofJson`. That the
tokens of the spelling are those of the grammar holds whatever characters are in the strings, as
every character is either written as it is or by an escape (`letters_append_quotedChar`), and
whatever numbers there are, as every number has the form of one (`numberToken_text`). What the
spelling stands for is the echo of the tree (`Spelling.value?_ofJson`), that is the tree with each
double as it is read back from its text, and so it stands for the tree itself where its doubles read
back. -/
namespace PipelineCanvas.Json

/-! ### Tokens that are written -/

/-- A character between quotes is written as letters of the grammar. -/
theorem letters_append_quotedChar (c : Char) {cs : List Char} (h : Letters cs) :
    Letters (quotedChar c ++ cs) := by
  unfold quotedChar
  split_ifs with h₁ h₂ h₃ h₄ h₅ h₆ h₇ hcontrol
  -- the escapes of two characters
  iterate 7 exact .escape (by decide) h
  · refine .unit rfl (fun d hd => ?_) h
    obtain ⟨n, -, rfl⟩ := List.mem_map.mp hd
    rw [Reader.hexValue?_digitChar (Nat.mod_lt _ (by decide))]
    rfl
  · exact .plain h₁ h₂ hcontrol h

/-- Every string is written as a string of the grammar. -/
theorem stringToken_quote (s : String) : StringToken (quote s) := by
  have hletters : ∀ cs : List Char, Letters (cs.flatMap quotedChar) := by
    intro cs
    induction cs with
    | nil => exact .nil
    | cons c cs ih =>
      rw [List.flatMap_cons]
      exact letters_append_quotedChar c ih
  exact .mk (hletters s.toList)

/-- A quoted key is read as the key. -/
theorem key?_quote (s : String) : key? (quote s) = some s := by
  have hread : Reader.quoted (quote s ++ []) = .ok (s, []) := Reader.quoted_quote s
  rw [List.append_nil] at hread
  rw [key?, Reader.alone?, hread]

/-- Every exponent is written as one of the grammar, with its sign. -/
theorem exponentText_exponentChars (e : Option Int) : ExponentText (Numeral.exponentChars e) := by
  cases e with
  | none => exact .none
  | some e =>
    have hdigits : ∀ c ∈ decimalDigits e.natAbs, c.isDigit = true :=
      fun _ => isDigit_of_mem_decimalDigits
    rw [Numeral.exponentChars]
    have hsign : [if e < 0 then '-' else '+'] ∈ [[], ['+'], ['-']] := by split_ifs <;> decide
    exact .some (by decide) hsign (decimalDigits_ne_nil _) hdigits

/-- Every number is written as a number of the grammar. -/
theorem numberToken_text (n : Number) : NumberToken n.text := by
  obtain ⟨numeral, h, htext, -⟩ := n.exists_numeral
  rw [htext]
  exact .mk h.whole_ne h.whole_digits h.no_zero h.fraction_ne h.fraction_digits
    (exponentText_exponentChars _)

/-! ### Spellings that are written -/

namespace Spelling

mutual

/-- The spelling of a tree with its members in their order. -/
def ofJson : Json → Spelling
  | .array items => .array (ofItems items)
  | .object members => .object (ofMembers members)
  | t => .scalar t.scalarChars

def ofItems : List Json → List Spelling
  | [] => []
  | t :: ts => ofJson t :: ofItems ts

def ofMembers : List (String × Json) → List (List Char × Spelling)
  | [] => []
  | (k, t) :: ms => (quote k, ofJson t) :: ofMembers ms

end

theorem ofItems_eq_map (items : List Json) : ofItems items = items.map ofJson := by
  induction items with
  | nil => rfl
  | cons t ts ih => rw [ofItems, ih, List.map_cons]

theorem ofMembers_eq_map (members : List (String × Json)) :
    ofMembers members = members.map fun m => (quote m.1, ofJson m.2) := by
  induction members with
  | nil => rfl
  | cons m ms ih => rw [ofMembers, ih, List.map_cons]

mutual

/-- The tokens of what is written are those of the grammar. -/
theorem sound_ofJson : ∀ t : Json, (ofJson t).Sound
  | .null => .scalar .null
  | .bool true => .scalar .true
  | .bool false => .scalar .false
  | .number n => .scalar (.number (numberToken_text n))
  | .string s => .scalar (.string (stringToken_quote s))
  | .array items => .array (sound_ofItems items)
  | .object members =>
    .object (fun m hm => (sound_ofMembers members m hm).1) fun m hm =>
      (sound_ofMembers members m hm).2

theorem sound_ofItems : ∀ items : List Json, ∀ s ∈ ofItems items, s.Sound
  | [] => List.forall_mem_nil _
  | t :: ts => List.forall_mem_cons.mpr ⟨sound_ofJson t, sound_ofItems ts⟩

theorem sound_ofMembers :
    ∀ members : List (String × Json), ∀ m ∈ ofMembers members, StringToken m.1 ∧ m.2.Sound
  | [] => List.forall_mem_nil _
  | (k, t) :: ms =>
    List.forall_mem_cons.mpr ⟨⟨stringToken_quote k, sound_ofJson t⟩, sound_ofMembers ms⟩

end

theorem flatten_withCommas (parts : List (List (List Char))) :
    (withCommas parts).flatten = separated [','] (parts.map List.flatten) := by
  cases parts with
  | nil => rfl
  | cons part parts =>
    rw [withCommas, List.flatten_append, List.map_cons, separated_cons, List.flatMap_map]
    simp [List.flatMap_def, List.flatten_flatten, Function.comp_def]

mutual

/-- The tokens stand one next to the other. -/
theorem flatten_tokens_ofJson : ∀ t : Json, (ofJson t).tokens.flatten = t.compactChars
  | .null => rfl
  | .bool true => rfl
  | .bool false => rfl
  | .number n => List.append_nil _
  | .string s => List.append_nil _
  | .array items => by
    rw [ofJson, tokens, compactChars, List.flatten_cons, List.flatten_append, flatten_withCommas,
      flatten_itemTokens items]
    rfl
  | .object members => by
    rw [ofJson, tokens, compactChars, List.flatten_cons, List.flatten_append, flatten_withCommas,
      flatten_memberTokens members]
    rfl

theorem flatten_itemTokens :
    ∀ items : List Json, (itemTokens (ofItems items)).map List.flatten = compactItems items
  | [] => rfl
  | t :: ts => congrArg₂ List.cons (flatten_tokens_ofJson t) (flatten_itemTokens ts)

theorem flatten_memberTokens : ∀ members : List (String × Json),
    (memberTokens (ofMembers members)).map List.flatten = compactMembers members
  | [] => rfl
  | (k, t) :: ms => by
    have hmember : (quote k :: [':'] :: (ofJson t).tokens).flatten =
        quote k ++ ':' :: t.compactChars := by
      rw [List.flatten_cons, List.flatten_cons, flatten_tokens_ofJson t]
      rfl
    exact congrArg₂ List.cons hmember (flatten_memberTokens ms)

end

/-- The members of every object stand in strictly ascending order of their keys, by code points. -/
inductive Ascending : Spelling → Prop
  | scalar (token : List Char) : Ascending (.scalar token)
  | array {items : List Spelling} (h : ∀ s ∈ items, Ascending s) : Ascending (.array items)
  | object {members : List (List Char × Spelling)}
      (keys : members.Pairwise fun a b => ∃ k l, key? a.1 = some k ∧ key? b.1 = some l ∧
        k.toList.map Char.toNat < l.toList.map Char.toNat)
      (h : ∀ m ∈ members, Ascending m.2) : Ascending (.object members)

/-- Where the keys of a tree ascend, they do in its spelling. -/
theorem ascending_ofJson {t : Json} (h : t.Normal) : (ofJson t).Ascending := by
  induction h with
  | null => exact .scalar _
  | bool b => cases b <;> exact .scalar _
  | number n => exact .scalar _
  | string s => exact .scalar _
  | array _ ih =>
    rw [ofJson, ofItems_eq_map]
    exact .array (List.forall_mem_map.mpr ih)
  | object ascending _ ih =>
    rw [ofJson, ofMembers_eq_map]
    refine .object (List.pairwise_map.mpr (ascending.imp fun {a b} hlt => ?_))
      (List.forall_mem_map.mpr ih)
    have hchars : a.1.toList < b.1.toList := String.lt_iff.mp (compareOfLessAndEq_eq_lt.mp hlt)
    exact ⟨a.1, b.1, key?_quote a.1, key?_quote b.1, List.map_lt (fun _ _ h => h) hchars⟩

/-- Every spelling that is written stands for the echo of its tree. -/
theorem value?_ofJson {t : Json} {depth : Nat} (h : t.depth ≤ depth) :
    (ofJson t).value? depth = some t.echo := by
  -- the reader has what the spelling stands for, and it has the echo
  obtain ⟨token, inner, htokens, -, hread⟩ := Reader.understands_tree (sound_ofJson t) depth
  have htext : t.compactChars = token ++ inner.flatten := by
    rw [← flatten_tokens_ofJson, htokens, List.flatten_cons]
  have htree : Reader.tree depth (t.compactChars ++ []) = .ok (t.echo, []) :=
    Reader.tree_compactChars h numberEnd_nil
  rw [List.append_nil, htext] at htree
  have hspaced : Spaced (inner ++ []) inner.flatten := by
    rw [List.append_nil]
    exact spaced_flatten inner
  exact ((hread [] inner.flatten nofun hspaced).of_ok htree).1

/-- A spelling stands for its tree where the doubles in it read back. -/
theorem value?_of_readsBack {t : Json} {depth : Nat} (h : t.depth ≤ depth) (ht : t.ReadsBack) :
    (ofJson t).value? depth = some t := by
  rw [value?_ofJson h, ht.echo_eq]

end Spelling

/-! ### Blanks -/

theorem isBlank_of_isDigit {c : Char} (h : c.isDigit = true) : Reader.isBlank c = false :=
  isBlank_of_numberStart (.inr h)

theorem NumberToken.not_blank {token : List Char} (h : NumberToken token) :
    ∀ c ∈ token, Reader.isBlank c = false := by
  obtain @⟨negative, whole, exponent, fraction, -, hwhole, -, -, hfraction, hexponent⟩ := h
  have hsign : ∀ c ∈ Numeral.signChars negative, Reader.isBlank c = false := by
    cases negative with
    | true => exact List.forall_mem_singleton.mpr (by decide)
    | false => exact List.forall_mem_nil _
  have hpoint : ∀ c ∈ Numeral.fractionChars fraction, Reader.isBlank c = false := by
    cases fraction with
    | none => exact List.forall_mem_nil _
    | some ds =>
      exact List.forall_mem_cons.mpr
        ⟨by decide, fun c hc => isBlank_of_isDigit (hfraction ds rfl c hc)⟩
  have hmark : ∀ c ∈ exponent, Reader.isBlank c = false := by
    cases hexponent with
    | none => exact List.forall_mem_nil _
    | @some mark sign ds hmark hsign _ digits =>
      have hmarks : ∀ c ∈ ['e', 'E'], Reader.isBlank c = false := by simp [Reader.isBlank]
      have hsigns : ∀ cs ∈ [[], ['+'], ['-']], ∀ c ∈ cs, Reader.isBlank c = false := by
        simp [Reader.isBlank]
      rw [List.forall_mem_cons, List.forall_mem_append]
      exact ⟨hmarks mark hmark, hsigns sign hsign, fun c hc => isBlank_of_isDigit (digits c hc)⟩
  rw [List.forall_mem_append, List.forall_mem_append, List.forall_mem_append]
  exact ⟨hsign, fun c hc => isBlank_of_isDigit (hwhole c hc), hpoint, hmark⟩

/-- The token is a string or has no blank in it. -/
def KeepsBlanks (token : List Char) : Prop :=
  StringToken token ∨ ∀ c ∈ token, Reader.isBlank c = false

/-- Blanks are part of no scalar but a string. -/
theorem ScalarToken.keepsBlanks {token : List Char} (h : ScalarToken token) :
    KeepsBlanks token := by
  cases h with
  | null | true | false => exact .inr (by simp [Reader.isBlank])
  | string h => exact .inl h
  | number h => exact .inr h.not_blank

theorem keepsBlanks_withCommas {parts : List (List (List Char))}
    (h : ∀ part ∈ parts, ∀ token ∈ part, KeepsBlanks token) :
    ∀ token ∈ withCommas parts, KeepsBlanks token := by
  cases parts with
  | nil => exact List.forall_mem_nil _
  | cons part parts =>
    obtain ⟨hpart, hparts⟩ := List.forall_mem_cons.mp h
    rw [withCommas, List.forall_mem_append]
    refine ⟨hpart, fun token htoken => ?_⟩
    obtain ⟨p, hp, htoken⟩ := List.mem_flatMap.mp htoken
    rcases List.mem_cons.mp htoken with rfl | htoken
    · exact .inr (List.forall_mem_singleton.mpr rfl)
    · exact hparts p hp token htoken

theorem keepsBlanks_bracketed {opening closing : Char} (hopening : Reader.isBlank opening = false)
    (hclosing : Reader.isBlank closing = false) {parts : List (List (List Char))}
    (h : ∀ part ∈ parts, ∀ token ∈ part, KeepsBlanks token) :
    ∀ token ∈ [opening] :: (withCommas parts ++ [[closing]]), KeepsBlanks token := by
  rw [List.forall_mem_cons, List.forall_mem_append]
  exact ⟨.inr (List.forall_mem_singleton.mpr hopening), keepsBlanks_withCommas h,
    List.forall_mem_singleton.mpr (.inr (List.forall_mem_singleton.mpr hclosing))⟩

/-- No token but a string has a blank in it. -/
theorem Spelling.Sound.keepsBlanks {s : Spelling} (h : s.Sound) :
    ∀ token ∈ s.tokens, KeepsBlanks token := by
  induction h with
  | scalar h => exact List.forall_mem_singleton.mpr h.keepsBlanks
  | array _ ih =>
    rw [tokens, itemTokens_eq_map]
    exact keepsBlanks_bracketed (by decide) (by decide) (List.forall_mem_map.mpr ih)
  | object keys _ ih =>
    rw [tokens, memberTokens_eq_map]
    refine keepsBlanks_bracketed (by decide) (by decide) (List.forall_mem_map.mpr fun m hm => ?_)
    exact List.forall_mem_cons.mpr ⟨.inl (keys m hm),
      List.forall_mem_cons.mpr ⟨.inr (List.forall_mem_singleton.mpr rfl), ih m hm⟩⟩

/-! ### Parts of a text -/

theorem infix_separated {separator part : List Char} {parts : List (List Char)}
    (h : part ∈ parts) : part <:+: separated separator parts := by
  cases parts with
  | nil => cases h
  | cons p ps =>
    rw [separated_cons]
    rcases List.mem_cons.mp h with rfl | h
    · exact List.infix_append_left
    · have hpart : part <:+: separator ++ part := List.infix_append_right
      rw [List.flatMap_def]
      exact List.infix_append_of_infix_right
        (hpart.trans (List.infix_of_mem_flatten (List.mem_map_of_mem h)))

theorem infix_bracketed {opening closing : Char} {part : List Char} {parts : List (List Char)}
    (h : part ∈ parts) : part <:+: opening :: separated [','] parts ++ [closing] :=
  List.infix_append_of_infix_left (List.infix_cons (infix_separated h))

/-- The text of an item stands in that of its array. -/
theorem infix_compactChars_array {t : Json} {items : List Json} (h : t ∈ items) :
    t.compactChars <:+: (Json.array items).compactChars := by
  rw [compactChars, compactItems_eq_map]
  exact infix_bracketed (List.mem_map_of_mem h)

/-- The text of a member stands in that of its object, behind its key. -/
theorem infix_compactChars_object {k : String} {t : Json} {members : List (String × Json)}
    (h : (k, t) ∈ members) :
    Reader.memberText k t.compactChars <:+: (Json.object members).compactChars := by
  rw [compactChars, compactMembers_eq_map]
  exact infix_bracketed (List.mem_map.mpr ⟨(k, t), h, rfl⟩)

end PipelineCanvas.Json

namespace PipelineCanvas
open Json

/-- In the text of a diagram the canonical text stands for the properties of each node. -/
theorem Diagram.infix_toText {d : Diagram} {id : NodeId} {n : Node} (h : d.node? id = some n) :
    Reader.memberText "properties" n.properties.canonical.toList <:+: d.toText.toList := by
  have hentry : SavedDiagram.savedNode.toJson (id, n.toPlacement) = .object
      [("id", NodeId.shape.toJson id), ("name", .string n.name),
        ("block_type", .string n.kind.text), ("properties", n.properties.toJson),
        ("position", Position.record.shape.toJson n.position)] := rfl
  have hobject : SavedDiagram.record.shape.toJson d.saved = .object
      [("nodes", .array (d.saved.nodes.map SavedDiagram.savedNode.toJson)),
        ("links", .array (d.saved.links.map SavedDiagram.savedLink.toJson))] := rfl
  have hnode : SavedDiagram.savedNode.toJson (id, n.toPlacement) ∈
      d.saved.nodes.map SavedDiagram.savedNode.toJson :=
    List.mem_map_of_mem (List.mem_map_of_mem (Table.get?_eq_some_iff.mp h))
  -- the member stands in the object of its node, that in the list, and the list in the diagram
  have hbag : Reader.memberText "properties" n.properties.toJson.compactChars <:+:
      (SavedDiagram.savedNode.toJson (id, n.toPlacement)).compactChars := by
    rw [hentry]
    exact infix_compactChars_object (by simp)
  have hnodes := infix_compactChars_array hnode
  have hvalue : (Json.array (d.saved.nodes.map SavedDiagram.savedNode.toJson)).compactChars <:+:
      Reader.memberText "nodes" _ :=
    List.infix_append_of_infix_right (List.infix_cons List.infix_rfl)
  rw [Properties.toList_canonical, Diagram.toText, Shape.toText, compact, String.toList_ofList,
    hobject]
  exact hbag.trans (hnodes.trans (hvalue.trans (infix_compactChars_object List.mem_cons_self)))

/-- The spelling is that of the canonical text, and the text is well-formed JSON in canonical form.
-/
structure Properties.SpelledBy (p : Properties) (s : Spelling) : Prop where
  /-- Its tokens are those of the grammar. -/
  sound : s.Sound
  /-- The members of every object, at every depth, ascend strictly by key. -/
  ascending : s.Ascending
  /-- The text is its tokens, one next to the other. -/
  text_eq : p.canonical.toList = s.tokens.flatten
  /-- No blank stands outside strings. -/
  keepsBlanks : ∀ token ∈ s.tokens, StringToken token ∨ ∀ c ∈ token, Reader.isBlank c = false
  /-- It stands for the properties, if their doubles are read as they were. -/
  value_eq : p.toJson.ReadsBack → s.value? p.toJson.depth = some p.toJson

/-- What is promised of the canonical text of properties. That it reads back is promised where the
doubles in the properties do so: of any other double the text says no more than what is read. -/
structure Properties.Rendered (p : Properties) : Prop where
  /-- The text is JSON in canonical form. -/
  spelled : ∃ s : Spelling, p.SpelledBy s
  /-- The reader makes the properties of it, if they are not nested too deeply for any text. -/
  reads_back : p.toJson.depth ≤ 127 → p.toJson.ReadsBack →
    Shape.properties.ofText p.canonical = .ok p
  /-- It is the text that is written without blanks. -/
  compact_eq : p.canonical = Shape.properties.toText p
  /-- It is what stands for the properties of a node in the text of its diagram. -/
  in_diagram : ∀ {d : Diagram} {id : NodeId} {n : Node}, d.node? id = some n → n.properties = p →
    quote "properties" ++ ':' :: p.canonical.toList <:+: d.toText.toList

/-- The canonical text is spelled by the tree of the properties. -/
theorem Properties.spelledBy_ofJson (p : Properties) : p.SpelledBy (Spelling.ofJson p.toJson) where
  sound := Spelling.sound_ofJson p.toJson
  ascending := Spelling.ascending_ofJson p.normal_toJson
  text_eq := by rw [toList_canonical, Spelling.flatten_tokens_ofJson]
  keepsBlanks := (Spelling.sound_ofJson p.toJson).keepsBlanks
  value_eq h := Spelling.value?_of_readsBack (Nat.le_refl _) h

/-- **The canonical text of properties is JSON that reads back to them.** It spells their tree with
the keys of every object in ascending order and nothing between its tokens, and it is the text that
is saved for them. -/
theorem Properties.canonical_spells (p : Properties) : p.Rendered where
  spelled := ⟨_, p.spelledBy_ofJson⟩
  reads_back hdepth hreads := by
    have hspelled := p.spelledBy_ofJson
    have hspaced : Spaced (Spelling.ofJson p.toJson).tokens p.canonical.toList := by
      rw [hspelled.text_eq]
      exact spaced_flatten _
    exact (Shape.ofText_properties_eq_ok_iff hspelled.sound hspaced).mpr
      ⟨_, Spelling.value?_of_readsBack hdepth hreads, p.ofMembers_entries⟩
  compact_eq := by
    rw [← String.toList_inj, toList_canonical, Shape.toText, compact, String.toList_ofList]
    rfl
  in_diagram := by
    rintro d id n hn rfl
    exact d.infix_toText hn

/-- An array with the number `0.5` and an object under keys that do not ascend, one with a quote in
it. -/
def sampleBag : Properties :=
  .ofMembers [("z", .array [.number (.double ((Double.nearest? false 1 2).getD default))]),
    ("a\"", .object [("y", .null), ("x", .bool true)])]

/-- A diagram with one node, which has these properties. -/
def bagged : Diagram :=
  { (∅ : Diagram) with
    nodes := (∅ : Table NodeId Node).insert ⟨0⟩
      ((Node.new "sink" .consumer).withProperties sampleBag) }

/-- Of these properties, keys ascend when they are written, and the quote is escaped. -/
theorem Properties.canonical_spells_sample :
    sampleBag.toJson.depth ≤ 127 ∧ sampleBag.toJson.ReadsBack ∧
      Shape.properties.ofText sampleBag.canonical = .ok sampleBag ∧
      bagged.node? ⟨0⟩ = some ((Node.new "sink" .consumer).withProperties sampleBag) ∧
      quote "properties" ++ ':' :: sampleBag.canonical.toList <:+: bagged.toText.toList := by
  have hreads : sampleBag.toJson.ReadsBack := by decide +kernel
  exact ⟨by decide, hreads, (canonical_spells sampleBag).reads_back (by decide) hreads, rfl,
    (canonical_spells sampleBag).in_diagram (show bagged.node? ⟨0⟩ = some _ from rfl) rfl⟩

end PipelineCanvas
