import PipelineCanvas.Json.Tree
import PipelineCanvas.Proofs.Json.Brackets
import PipelineCanvas.Proofs.Json.Echoes
import PipelineCanvas.Proofs.Json.Strings
/-! # Trees come back from their texts

By induction on nesting every tree is read off its compact text under any limit that its depth does
not exceed (`Reader.tree_compactChars`). What is read is the echo of the tree: it has the same
members, items, strings and whole numbers, and for each double what its text is read as. It is the
tree itself where the doubles read back (`Json.ReadsBack`). The induction is made for any reader of
numbers that puts one double in the place of another (`Reader.Leaves.Reads`), so that the same is
known of the reader that rounds once.

In the other direction, where a tree has been read, what it begins with and what its parts were read
by is known (`Reader.tree_string` and its like). These lemmas are how a shape is shown to agree on a
tree: from the tree that was read they lead back to the text. The last of them say that a look at
the next token changes nothing, so that the blanks before a value need not be spoken of again. -/
namespace PipelineCanvas.Json

/-! ### Nesting -/

mutual

/-- How many arrays and objects stand one inside another. -/
def depth : Json → Nat
  | .array items => depthItems items + 1
  | .object members => depthMembers members + 1
  | _ => 0

def depthItems : List Json → Nat
  | [] => 0
  | t :: ts => max t.depth (depthItems ts)

def depthMembers : List (String × Json) → Nat
  | [] => 0
  | (_, t) :: ms => max t.depth (depthMembers ms)

end

theorem depth_le_depthItems {t : Json} {items : List Json} (h : t ∈ items) :
    t.depth ≤ depthItems items := by
  induction items with
  | nil => cases h
  | cons u us ih =>
    rw [depthItems]
    rcases List.mem_cons.mp h with rfl | h
    · omega
    · have := ih h
      omega

theorem depthItems_le {items : List Json} {n : Nat} (h : ∀ t ∈ items, t.depth ≤ n) :
    depthItems items ≤ n := by
  induction items with
  | nil => exact Nat.zero_le _
  | cons t ts ih =>
    rw [depthItems]
    have ht := h t List.mem_cons_self
    have hts := ih fun u hu => h u (List.mem_cons_of_mem _ hu)
    omega

theorem depthMembers_eq (members : List (String × Json)) :
    depthMembers members = depthItems (members.map (·.2)) := by
  induction members with
  | nil => rfl
  | cons m ms ih => rw [depthMembers, ih, List.map_cons, depthItems]

theorem depth_le_depthMembers {m : String × Json} {members : List (String × Json)}
    (h : m ∈ members) : m.2.depth ≤ depthMembers members := by
  rw [depthMembers_eq]
  exact depth_le_depthItems (List.mem_map_of_mem h)

/-! ### Compact texts -/

/-- No blank is taken for the start of a number. -/
theorem isBlank_of_numberStart {c : Char} (h : c = '-' ∨ c.isDigit = true) :
    Reader.isBlank c = false := by
  cases hblank : Reader.isBlank c with
  | false => rfl
  | true =>
    simp only [Reader.isBlank, Bool.or_eq_true, beq_iff_eq] at hblank
    rcases hblank with ((rfl | rfl) | rfl) | rfl <;> exact absurd h (by decide)

namespace Reader

/-- The text of a member whose value has the given text. -/
def memberText (key : String) (value : List Char) : List Char := quote key ++ ':' :: value

/-- A member is read off its text if its value is. -/
theorem member_text {α : Type} {value : Reader α} {k : String}
    {text rest : List Char} {a : α}
    (h : value (text ++ rest) = .ok (a, rest)) :
    member quoted value (memberText k text ++ rest) = .ok ((k, a), rest) := by
  have hcolon : expectToken ':' (':' :: (text ++ rest)) = .ok ((), text ++ rest) :=
    expectToken_append blank_nil (by decide)
  rw [memberText, List.append_assoc, List.cons_append, member, bind_of_ok (quoted_quote k),
    bind_of_ok hcolon, bind_of_ok h, pure_apply]

end Reader

theorem compactItems_eq_map (items : List Json) : compactItems items = items.map compactChars := by
  induction items with
  | nil => rfl
  | cons t ts ih => rw [compactItems, ih, List.map_cons]

theorem compactMembers_eq_map (members : List (String × Json)) : compactMembers members =
    members.map fun m => Reader.memberText m.1 m.2.compactChars := by
  induction members with
  | nil => rfl
  | cons m ms ih =>
    obtain ⟨k, t⟩ := m
    rw [compactMembers, ih, List.map_cons]
    rfl

/-- No tree begins with a blank or a closing bracket. -/
theorem beginsItem_compactChars (t : Json) : Reader.BeginsItem t.compactChars := by
  cases t with
  | null => exact ⟨'n', _, rfl, by decide, by decide⟩
  | bool b => cases b with
    | true => exact ⟨'t', _, rfl, by decide, by decide⟩
    | false => exact ⟨'f', _, rfl, by decide, by decide⟩
  | number n =>
    obtain ⟨c, cs, htext, hc⟩ := n.text_eq_cons
    refine ⟨c, cs, htext, isBlank_of_numberStart hc, ?_⟩
    rintro rfl
    exact absurd hc (by decide)
  | string s => exact ⟨'"', _, rfl, by decide, by decide⟩
  | array items => exact ⟨'[', _, by rw [compactChars]; rfl, by decide, by decide⟩
  | object members => exact ⟨'\x7b', _, by rw [compactChars]; rfl, by decide, by decide⟩

namespace Reader
variable {rest : List Char}

theorem treeOver_number {leaves : Leaves} {inner : Option (Reader Json)} {c : Char}
    (hc : c = '-' ∨ c.isDigit = true) (cs : List Char) :
    treeOver leaves inner (c :: cs) = leaves.number (c :: cs) := by
  have hpeek : peekToken (c :: cs) = .ok (c, c :: cs) := peekToken_cons (isBlank_of_numberStart hc)
  rw [treeOver, bind_of_ok hpeek]
  split
  · exact absurd hc (by decide)
  · exact absurd hc (by decide)
  · unfold scalar
    split
    · exact absurd hc (by decide)
    · exact absurd hc (by decide)
    · exact absurd hc (by decide)
    · exact absurd hc (by decide)
    · rw [if_pos hc]

/-- The readers read what is written, numbers with other doubles in the places of their own. -/
structure Leaves.Reads (leaves : Leaves) (f : Double → Double) : Prop where
  /-- Strings are read with their values. -/
  string_eq : leaves.string = quoted
  /-- A number is read off its text, whatever stands behind it that is not a part of it. -/
  number_text : ∀ (n : Number) {rest : List Char}, NumberEnd rest →
    leaves.number (n.text ++ rest) = .ok (.number (n.mapDouble f), rest)

/-- The reader itself puts the echo of each double in its place. -/
theorem Leaves.exact_reads : Leaves.exact.Reads Double.echo where
  string_eq := rfl
  number_text n _ hrest := map_of_ok (number_text n hrest)

variable {leaves : Leaves} {f : Double → Double}

/-- What has no items and no members is read at every depth. -/
theorem treeOver_compactChars (hleaves : leaves.Reads f) {t : Json} (h : t.depth = 0)
    (inner : Option (Reader Json)) (hrest : NumberEnd rest) :
    treeOver leaves inner (t.compactChars ++ rest) = .ok (t.mapDoubles f, rest) := by
  cases t with
  | null =>
    have hword : word ['n', 'u', 'l', 'l'] (['n', 'u', 'l', 'l'] ++ rest) = .ok ((), rest) :=
      word_append _
    exact map_of_ok (f := fun _ => Json.null) hword
  | bool b => cases b with
    | true =>
      have hword : word ['t', 'r', 'u', 'e'] (['t', 'r', 'u', 'e'] ++ rest) = .ok ((), rest) :=
        word_append _
      exact map_of_ok (f := fun _ => Json.bool true) hword
    | false =>
      have hword : word ['f', 'a', 'l', 's', 'e'] (['f', 'a', 'l', 's', 'e'] ++ rest) =
          .ok ((), rest) := word_append _
      exact map_of_ok (f := fun _ => Json.bool false) hword
  | number n =>
    obtain ⟨c, cs, htext, hc⟩ := n.text_eq_cons
    have hread := hleaves.number_text n hrest
    rw [htext] at hread
    have htree : treeOver leaves inner (c :: (cs ++ rest)) =
        .ok (.number (n.mapDouble f), rest) := by
      rw [treeOver_number hc]
      exact hread
    rwa [← List.cons_append, ← htext] at htree
  | string s =>
    have hpeek : peekToken (quote s ++ rest) = .ok ('"', quote s ++ rest) :=
      peekToken_cons (by decide)
    show treeOver leaves inner (quote s ++ rest) = _
    rw [treeOver, bind_of_ok hpeek]
    show (Json.string <$> leaves.string) (quote s ++ rest) = _
    rw [hleaves.string_eq]
    exact map_of_ok (quoted_quote s)
  | array items => simp [Json.depth] at h
  | object members => simp [Json.depth] at h

/-- Every tree is read off its compact text with the doubles that the readers give. -/
theorem treeWith_compactChars (hleaves : leaves.Reads f) {t : Json} {depth : Nat}
    (h : t.depth ≤ depth) (hrest : NumberEnd rest) :
    treeWith leaves depth (t.compactChars ++ rest) = .ok (t.mapDoubles f, rest) := by
  -- by the levels that are allowed, as the reader recurses on these; a scalar needs none
  induction depth generalizing t rest with
  | zero => exact treeOver_compactChars hleaves (Nat.le_zero.mp h) none hrest
  | succ depth ih =>
    rw [treeWith]
    cases t with
    | array items =>
      have hitems : Brackets.Reads (treeWith leaves depth) compactChars (Json.mapDoubles f)
          BeginsItem items := by
        intro u hu
        have hdepth := depth_le_depthItems hu
        rw [Json.depth] at h
        exact ⟨beginsItem_compactChars u, ih (by omega)⟩
      have hread : arrayItems (treeWith leaves depth) ([] ++ (separated [',']
          (items.map compactChars) ++ ([] ++ ']' :: rest))) =
            .ok (items.map (Json.mapDoubles f), rest) :=
        square_encloses.collect_separated hitems blank_nil blank_nil blank_nil
      rw [compactChars, compactItems_eq_map, List.append_assoc, Json.mapDoubles,
        mapItemDoubles_eq_map]
      exact map_of_ok hread
    | object members =>
      have hmembers : Brackets.Reads (member leaves.string (treeWith leaves depth))
          (fun m => memberText m.1 m.2.compactChars) (fun m => (m.1, m.2.mapDoubles f))
          BeginsMember members := by
        intro m hm
        have hdepth := depth_le_depthMembers hm
        rw [Json.depth] at h
        rw [hleaves.string_eq]
        exact ⟨⟨_, rfl⟩, fun hend => member_text (ih (by omega) hend)⟩
      have hread : objectMembers leaves.string (treeWith leaves depth) ([] ++ (separated [',']
          (members.map fun m => memberText m.1 m.2.compactChars) ++ ([] ++ '\x7d' :: rest))) =
            .ok (members.map fun m => (m.1, m.2.mapDoubles f), rest) :=
        curly_encloses.collect_separated hmembers blank_nil blank_nil blank_nil
      rw [compactChars, compactMembers_eq_map, List.append_assoc, Json.mapDoubles,
        mapMemberDoubles_eq_map]
      exact map_of_ok hread
    | null => exact treeOver_compactChars hleaves rfl _ hrest
    | bool b => exact treeOver_compactChars hleaves rfl _ hrest
    | number n => exact treeOver_compactChars hleaves rfl _ hrest
    | string s => exact treeOver_compactChars hleaves rfl _ hrest

/-- **Every tree is read off its compact text** as its echo, where as much nesting is allowed as it
has. -/
theorem tree_compactChars {t : Json} {depth : Nat} (h : t.depth ≤ depth) (hrest : NumberEnd rest) :
    tree depth (t.compactChars ++ rest) = .ok (t.echo, rest) :=
  treeWith_compactChars Leaves.exact_reads h hrest

/-! ### What has been read as a tree -/

theorem peekToken_eq_ok {c : Char} {cs' : List Char} (h : peekToken cs = .ok (c, cs')) :
    ∃ tail, cs' = c :: tail := by
  obtain ⟨_, cs'', -, h⟩ := bind_eq_ok_iff.mp h
  cases cs'' with
  | nil => cases h
  | cons d tail =>
    cases h
    exact ⟨tail, rfl⟩

/-- Where a tree is read, an array or an object or a scalar stands. -/
theorem treeOver_eq_ok {inner : Option (Reader Json)} {t : Json}
    (h : treeOver .exact inner cs = .ok (t, rest)) :
    ∃ c tail, peekToken cs = .ok (c, c :: tail) ∧
      ((∃ item items, c = '[' ∧ inner = some item ∧ t = .array items ∧
          arrayItems item tail = .ok (items, rest)) ∨
        (∃ value members, c = '\x7b' ∧ inner = some value ∧ t = .object members ∧
          objectMembers quoted value tail = .ok (members, rest)) ∨
        scalar .exact c (c :: tail) = .ok (t, rest)) := by
  obtain ⟨c, cs', hpeek, h⟩ := bind_eq_ok_iff.mp h
  obtain ⟨tail, rfl⟩ := peekToken_eq_ok hpeek
  refine ⟨c, tail, hpeek, ?_⟩
  split at h
  · cases inner with
    | none => cases h
    | some item =>
      obtain ⟨items, hitems, rfl⟩ := map_eq_ok_iff.mp h
      exact .inl ⟨item, items, rfl, rfl, rfl, hitems⟩
  · cases inner with
    | none => cases h
    | some value =>
      obtain ⟨members, hmembers, rfl⟩ := map_eq_ok_iff.mp h
      exact .inr (.inl ⟨value, members, rfl, rfl, rfl, hmembers⟩)
  · exact .inr (.inr h)

/-- What is read as a scalar is one, and strings and numbers are read by their own readers. -/
theorem scalar_eq_ok {c : Char} {t : Json} (h : scalar .exact c cs = .ok (t, rest)) :
    t = .null ∨ (∃ b, t = .bool b) ∨ (c = '"' ∧ ∃ s, t = .string s ∧ quoted cs = .ok (s, rest)) ∨
      ((c = '-' ∨ c.isDigit = true) ∧ ∃ n, t = .number n ∧ number cs = .ok (n, rest)) := by
  unfold scalar at h
  split at h
  · obtain ⟨_, -, rfl⟩ := map_eq_ok_iff.mp h
    exact .inl rfl
  · obtain ⟨_, -, rfl⟩ := map_eq_ok_iff.mp h
    exact .inr (.inl ⟨true, rfl⟩)
  · obtain ⟨_, -, rfl⟩ := map_eq_ok_iff.mp h
    exact .inr (.inl ⟨false, rfl⟩)
  · obtain ⟨s, hs, rfl⟩ := map_eq_ok_iff.mp h
    exact .inr (.inr (.inl ⟨rfl, s, rfl, hs⟩))
  · split at h
    · next hc =>
      obtain ⟨n, hn, rfl⟩ := map_eq_ok_iff.mp h
      exact .inr (.inr (.inr ⟨hc, n, rfl, hn⟩))
    · cases h

theorem tree_eq_treeOver (depth : Nat) : ∃ inner, tree depth = treeOver .exact inner ∧
    ∀ item, inner = some item → ∃ below, depth = below + 1 ∧ item = tree below := by
  cases depth with
  | zero => exact ⟨none, rfl, fun _ h => nomatch h⟩
  | succ depth =>
    refine ⟨some (tree depth), rfl, ?_⟩
    rintro _ ⟨⟩
    exact ⟨depth, rfl, rfl⟩

/-- Where no array and no object is read, a scalar is. -/
theorem tree_scalar {depth : Nat} {t : Json} (h : tree depth cs = .ok (t, rest))
    (hitems : ∀ items, t ≠ .array items) (hmembers : ∀ members, t ≠ .object members) :
    ∃ c tail, peekToken cs = .ok (c, tail) ∧ scalar .exact c tail = .ok (t, rest) := by
  obtain ⟨inner, htree, -⟩ := tree_eq_treeOver depth
  rw [htree] at h
  obtain ⟨c, tail, hpeek, ⟨_, items, _, _, ht, _⟩ | ⟨_, members, _, _, ht, _⟩ | h⟩ :=
    treeOver_eq_ok h
  · exact absurd ht (hitems items)
  · exact absurd ht (hmembers members)
  · exact ⟨c, c :: tail, hpeek, h⟩

/-- Where a string has been read, a quote was next and the reader of strings has read it. -/
theorem tree_string {depth : Nat} {s : String} (h : tree depth cs = .ok (.string s, rest)) :
    ∃ tail, peekToken cs = .ok ('"', tail) ∧ quoted tail = .ok (s, rest) := by
  obtain ⟨c, tail, hpeek, h⟩ := tree_scalar h nofun nofun
  rcases scalar_eq_ok h with h | ⟨_, h⟩ | ⟨rfl, s, h, hs⟩ | ⟨_, _, h, _⟩
  · cases h
  · cases h
  · cases h
    exact ⟨tail, hpeek, hs⟩
  · cases h

/-- Where a number has been read, a sign or a digit was next and the reader of numbers has read it.
-/
theorem tree_number {depth : Nat} {n : Number} (h : tree depth cs = .ok (.number n, rest)) :
    ∃ c tail, (c = '-' ∨ c.isDigit = true) ∧ peekToken cs = .ok (c, tail) ∧
      number tail = .ok (n, rest) := by
  obtain ⟨c, tail, hpeek, h⟩ := tree_scalar h nofun nofun
  rcases scalar_eq_ok h with h | ⟨_, h⟩ | ⟨_, _, h, _⟩ | ⟨hc, n, h, hn⟩
  · cases h
  · cases h
  · cases h
  · cases h
    exact ⟨c, tail, hc, hpeek, hn⟩

/-- Where an array has been read, its items have been, one level deeper. -/
theorem tree_array {depth : Nat} {items : List Json}
    (h : tree depth cs = .ok (.array items, rest)) :
    ∃ below tail, depth = below + 1 ∧ peekToken cs = .ok ('[', '[' :: tail) ∧
      arrayItems (tree below) tail = .ok (items, rest) := by
  obtain ⟨inner, htree, hinner⟩ := tree_eq_treeOver depth
  rw [htree] at h
  obtain ⟨c, tail, hpeek, ⟨item, items, rfl, hitem, ht, h⟩ | ⟨_, _, _, _, ht, _⟩ | h⟩ :=
    treeOver_eq_ok h
  · cases ht
    obtain ⟨below, hdepth, rfl⟩ := hinner item hitem
    exact ⟨below, tail, hdepth, hpeek, h⟩
  · cases ht
  · rcases scalar_eq_ok h with h | ⟨_, h⟩ | ⟨_, _, h, _⟩ | ⟨_, _, h, _⟩ <;> cases h

/-- Where an object has been read, its members have been, one level deeper. -/
theorem tree_object {depth : Nat} {members : List (String × Json)}
    (h : tree depth cs = .ok (.object members, rest)) :
    ∃ below tail, depth = below + 1 ∧ peekToken cs = .ok ('\x7b', '\x7b' :: tail) ∧
      objectMembers quoted (tree below) tail = .ok (members, rest) := by
  obtain ⟨inner, htree, hinner⟩ := tree_eq_treeOver depth
  rw [htree] at h
  obtain ⟨c, tail, hpeek, ⟨_, _, _, _, ht, _⟩ | ⟨value, members, rfl, hvalue, ht, h⟩ | h⟩ :=
    treeOver_eq_ok h
  · cases ht
  · cases ht
    obtain ⟨below, hdepth, rfl⟩ := hinner value hvalue
    exact ⟨below, tail, hdepth, hpeek, h⟩
  · rcases scalar_eq_ok h with h | ⟨_, h⟩ | ⟨_, _, h, _⟩ | ⟨_, _, h, _⟩ <;> cases h

/-! ### What is next -/

theorem peekToken_peeked {c : Char} {cs' : List Char} (h : peekToken cs = .ok (c, cs')) :
    peekToken cs' = .ok (c, cs') := by
  obtain ⟨_, between, hskip, hpeek⟩ := bind_eq_ok_iff.mp h
  cases hskip
  obtain ⟨tail, rfl⟩ := peekToken_eq_ok h
  have hdrop : cs.dropWhile isBlank = c :: tail := by
    cases hcs : cs.dropWhile isBlank with
    | nil =>
      rw [hcs] at hpeek
      cases hpeek
    | cons d ds =>
      rw [hcs] at hpeek
      cases hpeek
      rfl
  have hblank := List.head?_dropWhile_not isBlank cs
  rw [hdrop] at hblank
  exact peekToken_cons hblank

/-- A look at what is next does not change the tree. -/
theorem tree_peeked {depth : Nat} {c : Char} {cs' : List Char}
    (h : peekToken cs = .ok (c, cs')) : tree depth cs' = tree depth cs := by
  obtain ⟨inner, htree, -⟩ := tree_eq_treeOver depth
  rw [htree, treeOver, bind_of_ok h, bind_of_ok (peekToken_peeked h)]

/-- Where a tree is read there is a token. -/
theorem exists_peekToken {depth : Nat} {t : Json} (h : tree depth cs = .ok (t, rest)) :
    ∃ c cs', peekToken cs = .ok (c, cs') := by
  obtain ⟨inner, htree, -⟩ := tree_eq_treeOver depth
  obtain ⟨c, tail, hpeek, -⟩ := treeOver_eq_ok (htree ▸ h)
  exact ⟨c, c :: tail, hpeek⟩

theorem scalar_ne_null {c : Char} (hc : c ≠ 'n') : scalar .exact c cs ≠ .ok (.null, rest) := by
  intro h
  unfold scalar at h
  split at h
  · exact hc rfl
  · obtain ⟨_, -, h⟩ := map_eq_ok_iff.mp h
    cases h
  · obtain ⟨_, -, h⟩ := map_eq_ok_iff.mp h
    cases h
  · obtain ⟨_, -, h⟩ := map_eq_ok_iff.mp h
    cases h
  · split at h
    · obtain ⟨_, -, h⟩ := map_eq_ok_iff.mp h
      cases h
    · cases h

/-- What begins with an `n` is read as `null`, and nothing else is. -/
theorem tree_null_cases {depth : Nat} {t : Json} {c : Char} {cs' : List Char}
    (hpeek : peekToken cs = .ok (c, cs')) (h : tree depth cs = .ok (t, rest)) :
    c = 'n' ∧ t = .null ∧ word ['n', 'u', 'l', 'l'] cs' = .ok ((), rest) ∨ c ≠ 'n' ∧ t ≠ .null := by
  by_cases hc : c = 'n'
  · subst hc
    obtain ⟨inner, htree, -⟩ := tree_eq_treeOver depth
    rw [htree, treeOver, bind_of_ok hpeek] at h
    obtain ⟨_, hword, rfl⟩ := map_eq_ok_iff.mp h
    exact .inl ⟨rfl, rfl, hword⟩
  · refine .inr ⟨hc, ?_⟩
    rintro rfl
    obtain ⟨d, tail, hpeek', hscalar⟩ := tree_scalar h nofun nofun
    rw [hpeek] at hpeek'
    cases hpeek'
    exact scalar_ne_null hc hscalar

end Reader
end PipelineCanvas.Json
