import PipelineCanvas.Proofs.Json.Senses
/-! # Passing over values

What no field answers to is passed over, and only its form counts: every sound spelling is taken off
the text, however deep it is and whatever its tokens stand for (`Reader.finds_skip`). A number that
is too great for a double is passed over, and so is half of a surrogate pair.

The reader that passes over values is the reader of trees with other readers for strings and
numbers, which do not ask for a value. It has no limit of depth but the characters of the text, and
that is enough, since every level takes a character (`Spelling.depth_le_length`). With as many
levels as a spelling has, its value does not depend on their number (`Spelling.value?_of_depth_le`).
-/
namespace PipelineCanvas.Json
open Reader

/-! ### Levels -/

namespace Spelling

mutual

/-- How many arrays and objects stand one inside another. -/
def depth : Spelling → Nat
  | .scalar _ => 0
  | .array items => depthItems items + 1
  | .object members => depthMembers members + 1

def depthItems : List Spelling → Nat
  | [] => 0
  | s :: ss => max s.depth (depthItems ss)

def depthMembers : List (List Char × Spelling) → Nat
  | [] => 0
  | (_, s) :: ms => max s.depth (depthMembers ms)

end

variable {items : List Spelling} {members : List (List Char × Spelling)}

theorem depth_le_depthItems {s : Spelling} (h : s ∈ items) : s.depth ≤ depthItems items := by
  induction items with
  | nil => cases h
  | cons t items ih =>
    rw [depthItems]
    rcases List.mem_cons.mp h with rfl | h
    · omega
    · have hrest := ih h
      omega

theorem depthMembers_eq (members : List (List Char × Spelling)) :
    depthMembers members = depthItems (members.map (·.2)) := by
  induction members with
  | nil => rfl
  | cons m members ih => rw [depthMembers, ih, List.map_cons, depthItems]

theorem depth_le_depthMembers {m : List Char × Spelling} (h : m ∈ members) :
    m.2.depth ≤ depthMembers members := by
  rw [depthMembers_eq]
  exact depth_le_depthItems (List.mem_map_of_mem h)

mutual

/-- The value of a spelling is the same with as many levels as it has and with more. -/
theorem value?_of_depth_le : ∀ (s : Spelling) {n m : Nat}, s.depth ≤ n → s.depth ≤ m →
    s.value? n = s.value? m
  | .scalar _, _, _, _, _ => by rw [value?, value?]
  | .array items, n + 1, m + 1, hn, hm => by
    rw [value?, value?, itemValues?_of_depth_le items (Nat.le_of_succ_le_succ hn)
      (Nat.le_of_succ_le_succ hm)]
  | .object members, n + 1, m + 1, hn, hm => by
    rw [value?, value?, memberValues?_of_depth_le members (Nat.le_of_succ_le_succ hn)
      (Nat.le_of_succ_le_succ hm)]

theorem itemValues?_of_depth_le : ∀ (items : List Spelling) {n m : Nat}, depthItems items ≤ n →
    depthItems items ≤ m → itemValues? n items = itemValues? m items
  | [], _, _, _, _ => by rw [itemValues?, itemValues?]
  | s :: items, n, m, hn, hm => by
    obtain ⟨hsn, hn⟩ := Nat.max_le.mp hn
    obtain ⟨hsm, hm⟩ := Nat.max_le.mp hm
    rw [itemValues?, itemValues?, value?_of_depth_le s hsn hsm, itemValues?_of_depth_le items hn hm]

theorem memberValues?_of_depth_le : ∀ (members : List (List Char × Spelling)) {n m : Nat},
    depthMembers members ≤ n → depthMembers members ≤ m →
      memberValues? n members = memberValues? m members
  | [], _, _, _, _ => by rw [memberValues?, memberValues?]
  | (k, s) :: members, n, m, hn, hm => by
    obtain ⟨hsn, hn⟩ := Nat.max_le.mp hn
    obtain ⟨hsm, hm⟩ := Nat.max_le.mp hm
    rw [memberValues?, memberValues?, value?_of_depth_le s hsn hsm,
      memberValues?_of_depth_le members hn hm]

end

/-! ### Levels and characters -/

theorem depthItems_lt {n : Nat} (hn : 0 < n) (h : ∀ s ∈ items, s.depth < n) :
    depthItems items < n := by
  induction items with
  | nil => exact hn
  | cons s items ih =>
    obtain ⟨hs, hitems⟩ := List.forall_mem_cons.mp h
    exact Nat.max_lt.mpr ⟨hs, ih hitems⟩

/-- Each part has fewer characters than all of them with the brackets around them. -/
theorem length_part_lt {parts : List (List (List Char))} {part : List (List Char)}
    (h : part ∈ parts) (opening : Char) (closing : List (List Char)) :
    part.flatten.length < ([opening] :: (withCommas parts ++ closing)).flatten.length := by
  cases parts with
  | nil => cases h
  | cons first parts =>
    rw [withCommas]
    rcases List.mem_cons.mp h with rfl | h
    · simp only [List.flatten_cons, List.flatten_append, List.length_append, List.length_singleton]
      omega
    · obtain ⟨before, after, rfl⟩ := List.append_of_mem h
      simp only [List.flatMap_append, List.flatMap_cons, List.flatten_cons, List.flatten_append,
        List.length_append, List.length_singleton]
      omega

mutual

/-- Every level takes a character. -/
theorem depth_le_length : ∀ s : Spelling, s.depth ≤ s.tokens.flatten.length
  | .scalar _ => Nat.zero_le _
  | .array items => by
    rw [depth, tokens, itemTokens_eq_map]
    refine Nat.succ_le_of_lt (depthItems_lt (by simp) fun s hs => ?_)
    exact Nat.lt_of_le_of_lt (depths_le_length items s hs)
      (length_part_lt (List.mem_map_of_mem hs) '[' _)
  | .object members => by
    rw [depth, depthMembers_eq, tokens, memberTokens_eq_map]
    refine Nat.succ_le_of_lt (depthItems_lt (by simp) (List.forall_mem_map.mpr fun m hm => ?_))
    have hvalue : m.2.tokens.flatten.length ≤ (memberToken m).flatten.length := by
      simp only [memberToken, List.flatten_cons, List.length_append]
      omega
    exact Nat.lt_of_le_of_lt ((memberDepths_le_length members m hm).trans hvalue)
      (length_part_lt (List.mem_map_of_mem hm) '\x7b' _)

theorem depths_le_length : ∀ items : List Spelling, ∀ s ∈ items, s.depth ≤ s.tokens.flatten.length
  | [] => List.forall_mem_nil _
  | s :: items => List.forall_mem_cons.mpr ⟨depth_le_length s, depths_le_length items⟩

theorem memberDepths_le_length :
    ∀ members : List (List Char × Spelling), ∀ m ∈ members, m.2.depth ≤ m.2.tokens.flatten.length
  | [] => List.forall_mem_nil _
  | (_, s) :: members =>
    List.forall_mem_cons.mpr ⟨depth_le_length s, memberDepths_le_length members⟩

end

end Spelling

theorem Spaced.length_flatten_le {tokens : List (List Char)} {cs : List Char}
    (h : Spaced tokens cs) : tokens.flatten.length ≤ cs.length := by
  induction h with
  | nil => exact Nat.zero_le _
  | cons _ _ ih =>
    simp only [List.flatten_cons, List.length_append]
    omega

/-! ### Form without value -/

namespace Reader
variable {token cs rest : List Char}

/-- Letters are taken one by one where no value is asked for, whatever escapes there are. -/
theorem exists_rounds_codeUnit (h : Letters cs) (read : List Char) :
    ∃ s, ∀ rest, Rounds (stringStep codeUnit) read (cs ++ '"' :: rest) s rest := by
  induction h generalizing read with
  | nil => exact ⟨_, fun rest => .stop (List.cons_ne_nil _ _) rfl⟩
  | @plain c cs quote slash control _ ih =>
    obtain ⟨s, hs⟩ := ih (c :: read)
    exact ⟨s, fun rest => .go (Nat.lt_succ_self _) (stringStep_plain read quote slash control)
      (hs rest)⟩
  | @escape c cs hc _ ih =>
    obtain ⟨d, hd⟩ := exists_escape hc codeUnit
    obtain ⟨s, hs⟩ := ih (d :: read)
    refine ⟨s, fun rest => .go ?_ (stringStep_escape read (hd (cs ++ '"' :: rest))) (hs rest)⟩
    rw [List.cons_append, List.cons_append, List.length_cons, List.length_cons]
    omega
  | @unit hex cs length_eq digits _ ih =>
    -- any code unit will do, also half of a surrogate pair
    obtain ⟨n, hn⟩ := exists_hex4 length_eq digits
    obtain ⟨s, hs⟩ := ih (Char.ofNat n :: read)
    have hunit : ∀ rest, escape codeUnit ('u' :: (hex ++ (cs ++ '"' :: rest))) =
        .ok (Char.ofNat n, cs ++ '"' :: rest) := by
      intro rest
      show codeUnit _ = _
      rw [codeUnit, bind_of_ok (hn _), pure_apply]
    refine ⟨s, fun rest => ?_⟩
    rw [List.cons_append, List.cons_append, List.append_assoc]
    refine .go ?_ (stringStep_escape read (hunit rest)) (hs rest)
    simp only [List.length_cons, List.length_append]
    omega

/-- Every string of the grammar is passed over, also with half of a surrogate pair in it. -/
theorem exists_settles_codeUnit (h : StringToken token) :
    ∃ s, (quotedWith codeUnit).Settles token (some s) := by
  obtain ⟨h⟩ := h
  obtain ⟨s, hs⟩ := exists_rounds_codeUnit h []
  refine ⟨s, fun rest _ => ?_⟩
  rw [List.cons_append, List.append_assoc, quotedWith, bind_of_ok (expect_cons '"')]
  exact (hs rest).loop

/-- Every number of the grammar is passed over, however great it is. -/
theorem exists_settles_anyNumeral (h : NumberToken token) :
    ∃ n, anyNumeral.Settles token (some n) := by
  obtain ⟨n, hn⟩ := exists_numeral h
  refine ⟨n, fun rest hrest => ?_⟩
  rw [anyNumeral, hn hrest]

/-- Every token of a value is passed over in every text. -/
theorem exists_settles_formal (h : ScalarToken token) (inner : Option (Reader Json)) :
    ∃ t, (treeOver .formal inner).Settles token (some t) := by
  cases h with
  | null => exact ⟨_, settles_treeOver (by decide) (by decide) (settles_word _)⟩
  | true => exact ⟨_, settles_treeOver (by decide) (by decide) (settles_word _)⟩
  | false => exact ⟨_, settles_treeOver (by decide) (by decide) (settles_word _)⟩
  | string h =>
    obtain ⟨s, hs⟩ := exists_settles_codeUnit h
    have hsettles : (treeOver .formal inner).Settles token ((some s).map Json.string) :=
      settles_treeOver_string h hs inner
    exact ⟨_, hsettles⟩
  | number h =>
    obtain ⟨n, hn⟩ := exists_settles_anyNumeral h
    exact ⟨_, settles_treeOver_number h (hn.map fun _ => Json.null) inner⟩

/-- A spelling is passed over with as many levels as it has. -/
theorem exists_understands_formal {s : Spelling} (h : s.Sound) {depth : Nat}
    (hdepth : s.depth ≤ depth) :
    ∃ t, Understands (treeWith .formal depth) BeginsItem s.tokens (some t) := by
  induction depth generalizing s with
  | zero =>
    cases h with
    | scalar h =>
      obtain ⟨t, ht⟩ := exists_settles_formal h none
      refine ⟨t, _, [], rfl, h.beginsItem, fun later cs hfollow hcs => ?_⟩
      exact ht.yields (square_encloses.ne_nil h.beginsItem) hfollow hcs
    | array => cases hdepth
    | object => cases hdepth
  | succ depth ih =>
    cases h with
    | scalar h =>
      obtain ⟨t, ht⟩ := exists_settles_formal h (some (treeWith .formal depth))
      refine ⟨t, _, [], rfl, h.beginsItem, fun later cs hfollow hcs => ?_⟩
      exact ht.yields (square_encloses.ne_nil h.beginsItem) hfollow hcs
    | @array items h =>
      -- that the items are passed over is known of each, so the values are chosen for all at once
      choose! value hvalue using fun s (hs : s ∈ items) => ih (h s hs)
        ((Spelling.depth_le_depthItems hs).trans (Nat.le_of_succ_le_succ hdepth))
      refine ⟨.array (items.map value), ['['], _, rfl, ⟨'[', [], rfl, by decide, by decide⟩,
        fun later cs _ hcs => ?_⟩
      rw [Spelling.itemTokens_eq_map, List.append_assoc] at hcs
      have hitems : Yields (arrayItems (treeWith .formal depth)) later cs
          (items.mapM fun s => some (value s)) :=
        square_enclosesSpaced.yields_collect hvalue hcs
      rw [show (items.mapM fun s => some (value s)) = some (items.map value) from
        List.mapM_pure] at hitems
      exact (hitems.map Json.array).of_eq rfl (Nat.le_add_right _ _)
    | @object members keys h =>
      choose! key hkey using fun m (hm : m ∈ members) => exists_settles_codeUnit (keys m hm)
      choose! value hvalue using fun m (hm : m ∈ members) => ih (h m hm)
        ((Spelling.depth_le_depthMembers hm).trans (Nat.le_of_succ_le_succ hdepth))
      refine ⟨.object (members.map fun m => (key m, value m)), ['\x7b'], _, rfl,
        ⟨'\x7b', [], rfl, by decide, by decide⟩, fun later cs _ hcs => ?_⟩
      rw [Spelling.memberTokens_eq_map, List.append_assoc] at hcs
      have hmembers : Yields (objectMembers (quotedWith codeUnit) (treeWith .formal depth)) later cs
          (members.mapM fun m => some (key m, value m)) :=
        curly_enclosesSpaced.yields_collect (fun m hm => understands_member (keys m hm)
          (hkey m hm) ((hvalue m hm).finds (treeWith_blank))) hcs
      rw [show (members.mapM fun m => some (key m, value m)) =
        some (members.map fun m => (key m, value m)) from List.mapM_pure] at hmembers
      exact (hmembers.map Json.object).of_eq rfl (Nat.le_add_right _ _)

/-- **Every sound spelling is passed over.** -/
theorem finds_skip {s : Spelling} (h : s.Sound) : Finds skip s.tokens (some ()) := by
  intro later cs hfollow hcs
  have hlength := hcs.length_flatten_le
  rw [List.flatten_append, List.length_append] at hlength
  have hdepth := s.depth_le_length
  obtain ⟨t, ht⟩ := exists_understands_formal h (show s.depth ≤ cs.length by omega)
  have hyields := (ht.finds treeWith_blank later cs hfollow hcs).map fun _ => ()
  exact hyields.of_eq rfl (Nat.le_refl _)

end Reader
end PipelineCanvas.Json
