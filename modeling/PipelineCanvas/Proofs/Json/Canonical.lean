import PipelineCanvas.Proofs.Json.Trees
/-! # Canonical texts

The canonical text of properties stands for them in the source of a pipeline, so it should tell
properties apart. It does (`Properties.canonical_inj`), in two steps.

For a tree that is in order already the canonical text is the compact one
(`Normal.canonicalChars_eq`), and properties are kept in order. And no two trees have the same
compact text (`compactChars_inj`). The reader alone would not show this, as it may take two doubles
for one: it rounds several times. But every double is the nearest to the decimal that is written for
it, so a reader that rounds only once takes each text for the tree that it was written for, and that
such a reader exists is all that is needed (`Reader.Leaves.nearest`).

The other fact that the source relies on is about its lines. What is written between quotes is
escaped, so no text has a control character in it, a line break least of all
(`Properties.not_newline_mem_canonical`). -/
namespace PipelineCanvas.Json

/-! ### Compact texts tell trees apart -/

theorem canonicalItems_eq_map (items : List Json) :
    canonicalItems items = items.map canonicalChars := by
  induction items with
  | nil => rfl
  | cons t ts ih => rw [canonicalItems, ih, List.map_cons]

theorem canonicalMembers_eq_map (members : List (String × Json)) :
    canonicalMembers members = members.map fun m => (m.1, m.2.canonicalChars) := by
  induction members with
  | nil => rfl
  | cons m ms ih =>
    obtain ⟨k, t⟩ := m
    rw [canonicalMembers, ih, List.map_cons]

/-- What is in order is written as it stands. -/
theorem Normal.canonicalChars_eq {t : Json} (h : t.Normal) :
    t.canonicalChars = t.compactChars := by
  induction h with
  | null => rfl
  | bool b => cases b <;> rfl
  | number n => rfl
  | string s => rfl
  | @array items _ ih =>
    rw [canonicalChars, compactChars, canonicalItems_eq_map, compactItems_eq_map,
      List.map_congr_left ih]
  | @object members ascending _ ih =>
    have hentries : (Table.ofList (canonicalMembers members)).entries =
        canonicalMembers members := by
      refine Table.entries_ofList ?_
      rw [canonicalMembers_eq_map]
      exact List.pairwise_map.mpr ascending
    have hparts : (canonicalMembers members).map (fun m => quote m.1 ++ ':' :: m.2) =
        compactMembers members := by
      rw [canonicalMembers_eq_map, compactMembers_eq_map, List.map_map]
      refine List.map_congr_left fun m hm => ?_
      show quote m.1 ++ ':' :: m.2.canonicalChars = Reader.memberText m.1 m.2.compactChars
      rw [ih m hm, Reader.memberText]
    rw [canonicalChars, compactChars, hentries, hparts]

/-- A number that is rounded once, to the nearest double. -/
def Reader.nearestNumber : Reader Json := do
  match (← Reader.numeral).nearest? with
  | some n => return .number n
  | none => throw .malformed

/-- Readers that take every number as what is nearest to its text. -/
def Reader.Leaves.nearest : Reader.Leaves := ⟨Reader.quoted, Reader.nearestNumber⟩

/-- Rounded once, every number is read as it was written. -/
theorem Reader.Leaves.nearest_reads : Reader.Leaves.nearest.Reads id where
  string_eq := rfl
  number_text n rest hrest := by
    obtain ⟨numeral, hproper, htext, hnumber, -⟩ := n.exists_numeral
    have hself : n.mapDouble id = n := by cases n <;> rfl
    show Reader.nearestNumber (n.text ++ rest) = _
    rw [htext, hself, Reader.nearestNumber, Reader.bind_of_ok (Reader.numeral_chars hproper hrest),
      hnumber]
    rfl

/-- **A tree is told by its compact text**, also where two doubles in it are read as the same. -/
theorem compactChars_inj {t u : Json} : t.compactChars = u.compactChars ↔ t = u := by
  refine ⟨fun heq => ?_, congrArg compactChars⟩
  -- both are read off the one text, rounded once, where there is room for the deeper of them
  have read : ∀ v : Json, v.depth ≤ max t.depth u.depth →
      Reader.treeWith .nearest (max t.depth u.depth) (v.compactChars ++ []) = .ok (v, []) := by
    intro v hv
    have hself : v.mapDoubles id = v := mapDoubles_eq_self fun _ _ => rfl
    rw [Reader.treeWith_compactChars Reader.Leaves.nearest_reads hv numberEnd_nil, hself]
  have ht := read t (Nat.le_max_left _ _)
  rw [heq, read u (Nat.le_max_right _ _)] at ht
  cases ht
  rfl

/-! ### No control characters -/

/-- The character is no control character. -/
abbrev Prints (c : Char) : Prop := 32 ≤ c.toNat

theorem prints_of_all {cs : List Char} (h : cs.all (32 ≤ ·.toNat) = true) :
    ∀ c ∈ cs, Prints c :=
  fun c hc => of_decide_eq_true (List.all_eq_true.mp h c hc)

theorem prints_of_isDigit {c : Char} (h : c.isDigit = true) : Prints c :=
  Nat.le_trans (by decide) (Char.isDigit_iff_toNat.mp h).1

theorem prints_hexDigits {n : Nat} : ∀ c ∈ hexDigits n, Prints c := by
  have hdigit : ∀ d < 16, Prints (Nat.digitChar d) := by decide
  intro c hc
  obtain ⟨d, -, rfl⟩ := List.mem_map.mp hc
  exact hdigit _ (Nat.mod_lt _ (by decide))

/-- A control character is always escaped. -/
theorem prints_quotedChar (c : Char) : ∀ x ∈ quotedChar c, Prints x := by
  unfold quotedChar
  split_ifs with h₁ h₂ h₃ h₄ h₅ h₆ h₇ hcontrol
  -- the escapes of two characters
  iterate 7 exact prints_of_all rfl
  · exact List.forall_mem_cons.mpr
      ⟨by decide, List.forall_mem_cons.mpr ⟨by decide, prints_hexDigits⟩⟩
  · exact List.forall_mem_singleton.mpr (Nat.le_of_not_lt hcontrol)

theorem prints_quote (s : String) : ∀ c ∈ quote s, Prints c := by
  intro c hc
  simp only [quote, List.cons_append, List.mem_cons, List.mem_append, List.mem_flatMap,
    List.not_mem_nil, or_false] at hc
  rcases hc with rfl | ⟨d, -, hc⟩ | rfl
  · decide
  · exact prints_quotedChar d c hc
  · decide

theorem Numeral.Proper.prints {n : Numeral} (h : n.Proper) : ∀ c ∈ n.chars, Prints c := by
  have hsign : ∀ c ∈ signChars n.negative, Prints c := by
    cases n.negative with
    | true => exact prints_of_all rfl
    | false => exact List.forall_mem_nil _
  have hfraction : ∀ c ∈ fractionChars n.fraction, Prints c := by
    cases hpart : n.fraction with
    | none => exact List.forall_mem_nil _
    | some ds =>
      have hds := h.fraction_digits ds hpart
      exact List.forall_mem_cons.mpr ⟨by decide, fun c hc => prints_of_isDigit (hds c hc)⟩
  have hexponent : ∀ c ∈ exponentChars n.exponent, Prints c := by
    cases n.exponent with
    | none => exact List.forall_mem_nil _
    | some e =>
      have hmark : Prints (if e < 0 then '-' else '+') := by split_ifs <;> decide
      exact List.forall_mem_cons.mpr ⟨by decide, List.forall_mem_cons.mpr
        ⟨hmark, fun c hc => prints_of_isDigit (isDigit_of_mem_decimalDigits hc)⟩⟩
  rw [chars, List.forall_mem_append, List.forall_mem_append, List.forall_mem_append]
  exact ⟨hsign, fun c hc => prints_of_isDigit (h.whole_digits c hc), hfraction, hexponent⟩

theorem prints_numberText (n : Number) : ∀ c ∈ n.text, Prints c := by
  obtain ⟨numeral, hproper, htext, -⟩ := n.exists_numeral
  rw [htext]
  exact hproper.prints

theorem prints_separated {separator : List Char} {parts : List (List Char)}
    (hseparator : ∀ c ∈ separator, Prints c) (hparts : ∀ part ∈ parts, ∀ c ∈ part, Prints c) :
    ∀ c ∈ separated separator parts, Prints c := by
  cases parts with
  | nil => exact List.forall_mem_nil _
  | cons part parts =>
    obtain ⟨hpart, hparts⟩ := List.forall_mem_cons.mp hparts
    rw [separated_cons, List.forall_mem_append]
    refine ⟨hpart, fun c hc => ?_⟩
    obtain ⟨p, hp, hc⟩ := List.mem_flatMap.mp hc
    rcases List.mem_append.mp hc with hc | hc
    · exact hseparator c hc
    · exact hparts p hp c hc

theorem prints_bracketed {opening closing : Char} (hopening : Prints opening)
    (hclosing : Prints closing) {parts : List (List Char)}
    (hparts : ∀ part ∈ parts, ∀ c ∈ part, Prints c) :
    ∀ c ∈ opening :: separated [','] parts ++ [closing], Prints c := by
  rw [List.cons_append, List.forall_mem_cons, List.forall_mem_append]
  exact ⟨hopening, prints_separated (prints_of_all rfl) hparts,
    List.forall_mem_singleton.mpr hclosing⟩

mutual

/-- A tree is written on one line, whatever its strings are. -/
theorem prints_compactChars : ∀ t : Json, ∀ c ∈ t.compactChars, Prints c
  | .null => prints_of_all rfl
  | .bool true => prints_of_all rfl
  | .bool false => prints_of_all rfl
  | .number n => prints_numberText n
  | .string s => prints_quote s
  | .array items => by
    rw [compactChars]
    exact prints_bracketed (by decide) (by decide) (prints_compactItems items)
  | .object members => by
    rw [compactChars]
    exact prints_bracketed (by decide) (by decide) (prints_compactMembers members)

theorem prints_compactItems :
    ∀ items : List Json, ∀ part ∈ compactItems items, ∀ c ∈ part, Prints c
  | [] => List.forall_mem_nil _
  | t :: ts => List.forall_mem_cons.mpr ⟨prints_compactChars t, prints_compactItems ts⟩

theorem prints_compactMembers :
    ∀ members : List (String × Json), ∀ part ∈ compactMembers members, ∀ c ∈ part, Prints c
  | [] => List.forall_mem_nil _
  | (k, t) :: ms => by
    have hmember : ∀ c ∈ quote k ++ ':' :: t.compactChars, Prints c := by
      rw [List.forall_mem_append, List.forall_mem_cons]
      exact ⟨prints_quote k, by decide, prints_compactChars t⟩
    exact List.forall_mem_cons.mpr ⟨hmember, prints_compactMembers ms⟩

end

end PipelineCanvas.Json

/-! ### Properties -/

namespace PipelineCanvas.Properties

/-- The keys of properties ascend, at every depth. -/
theorem normal_toJson (p : Properties) : p.toJson.Normal := by
  refine .object (List.pairwise_map.mpr p.ascending) fun m hm => ?_
  obtain ⟨e, -, rfl⟩ := List.mem_map.mp hm
  exact e.2.normal

theorem toJson_inj {p q : Properties} : p.toJson = q.toJson ↔ p = q := by
  refine ⟨fun h => ?_, congrArg toJson⟩
  rw [← p.ofMembers_entries, Json.object.inj h, q.ofMembers_entries]

/-- So their canonical text is the compact text of their tree. -/
theorem toList_canonical (p : Properties) : p.canonical.toList = p.toJson.compactChars := by
  rw [canonical, Json.canonical, String.toList_ofList, p.normal_toJson.canonicalChars_eq]

/-- **Properties are told by their canonical text.** -/
theorem canonical_inj {p q : Properties} : p.canonical = q.canonical ↔ p = q := by
  rw [← String.toList_inj, toList_canonical, toList_canonical, Json.compactChars_inj, toJson_inj]

/-- The canonical text is one line. -/
theorem not_newline_mem_canonical (p : Properties) : '\n' ∉ p.canonical.toList := by
  intro h
  rw [toList_canonical] at h
  exact absurd (Json.prints_compactChars _ _ h) (by decide)

end PipelineCanvas.Properties
