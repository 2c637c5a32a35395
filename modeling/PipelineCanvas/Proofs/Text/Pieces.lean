import Mathlib.Algebra.Order.Ring.Nat
import Mathlib.Data.List.Flatten
import Mathlib.Data.List.Infix
/-! # Texts cut at a separator

`split` cuts a text at every occurrence of a separator, from the left, and goes on behind the
occurrence. It stands for the reader of a source, who takes it for a list of stages with the
separator between them. Where stages are put together with the separator, the question is whether
they come apart again.

If no occurrence reaches from one text into the next (`Apart`), the pieces of the two together are
those of each, with the last of the one and the first of the other grown into one (`pieces_append`).
Everything else follows from this equation: where the first character of the separator does not come
again in it, texts that are put together with the separator come apart again into the pieces of each
(`pieces_intercalate`). So the parts come back just if none of them has the separator in it
(`split_intercalate_eq_iff`). -/
namespace PipelineCanvas.Text

/-- The pieces between the occurrences of the separator, after some characters are passed over. -/
def piecesFrom (separator : List Char) : Nat → List Char → List (List Char)
  | _, [] => [[]]
  | skip + 1, _ :: cs => piecesFrom separator skip cs
  | 0, c :: cs =>
    if separator <+: c :: cs then [] :: piecesFrom separator (separator.length - 1) cs
    else (piecesFrom separator 0 cs).modifyHead (c :: ·)

/-- The pieces between the occurrences of the separator, from the left and without overlaps. -/
def pieces (separator cs : List Char) : List (List Char) := piecesFrom separator 0 cs

/-- Cuts a text at every occurrence of the separator, from the left and without overlaps. -/
def split (separator text : String) : List String :=
  (pieces separator.toList text.toList).map String.ofList

/-- Pieces one after the other, the last of the one list and the first of the other in one. -/
def grow : List (List Char) → List (List Char) → List (List Char)
  | [], qs => qs
  | [p], qs => qs.modifyHead (p ++ ·)
  | p :: ps, qs => p :: grow ps qs

section
variable {separator : List Char}

theorem piecesFrom_ne_nil (skip : Nat) (cs : List Char) : piecesFrom separator skip cs ≠ [] := by
  induction cs generalizing skip with
  | nil => exact List.cons_ne_nil _ _
  | cons c cs ih =>
    cases skip with
    | succ skip => exact ih skip
    | zero =>
      rw [piecesFrom]
      split_ifs
      · exact List.cons_ne_nil _ _
      · exact mt List.modifyHead_eq_nil_iff.mp (ih 0)

theorem pieces_ne_nil (separator cs : List Char) : pieces separator cs ≠ [] :=
  piecesFrom_ne_nil 0 cs

theorem length_pieces_pos (separator cs : List Char) : 0 < (pieces separator cs).length :=
  List.length_pos_iff.mpr (pieces_ne_nil separator cs)

theorem grow_cons {p : List Char} {ps : List (List Char)} (h : ps ≠ []) (qs : List (List Char)) :
    grow (p :: ps) qs = p :: grow ps qs := by
  cases ps with
  | nil => exact absurd rfl h
  | cons _ _ => rfl

theorem grow_modifyHead {ps : List (List Char)} (h : ps ≠ []) (c : Char)
    (qs : List (List Char)) :
    grow (ps.modifyHead (c :: ·)) qs = (grow ps qs).modifyHead (c :: ·) := by
  cases ps with
  | nil => exact absurd rfl h
  | cons p ps =>
    cases ps with
    | nil =>
      show qs.modifyHead (c :: p ++ ·) = (qs.modifyHead (p ++ ·)).modifyHead (c :: ·)
      rw [List.modifyHead_modifyHead]
      rfl
    | cons _ _ => rfl

/-- One piece is lost where two lists grow together. -/
theorem length_grow {ps : List (List Char)} (h : ps ≠ []) (qs : List (List Char)) :
    (grow ps qs).length + 1 = ps.length + qs.length := by
  induction ps with
  | nil => exact absurd rfl h
  | cons p ps ih =>
    by_cases hnil : ps = []
    · subst ps
      rw [grow, List.length_modifyHead, List.length_singleton, Nat.add_comm]
    · rw [grow_cons hnil, List.length_cons, List.length_cons, ih hnil]
      omega

theorem grow_nil_cons {ps : List (List Char)} (h : ps ≠ []) (qs : List (List Char)) :
    grow ps ([] :: qs) = ps ++ qs := by
  induction ps with
  | nil => exact absurd rfl h
  | cons p ps ih =>
    by_cases hnil : ps = []
    · subst ps
      rw [grow, List.modifyHead_cons, List.append_nil, List.singleton_append]
    · rw [grow_cons hnil, ih hnil, List.cons_append]

/-- No occurrence of the separator begins in the first text and ends in the second. -/
def Apart (separator u v : List Char) : Prop :=
  ∀ w, w ≠ [] → w <:+ u → separator <+: w ++ v → separator <+: w

theorem Apart.of_cons {c : Char} {u v : List Char} (h : Apart separator (c :: u) v) :
    Apart separator u v :=
  fun w hne hw => h w hne (hw.trans (List.suffix_cons c u))

/-- The same behind characters that are passed over. The induction is on the first text, and an
occurrence that begins in it passes over no more than is left of it. -/
theorem piecesFrom_append {u v : List Char} (h : Apart separator u v) {skip : Nat}
    (hskip : skip ≤ u.length) :
    piecesFrom separator skip (u ++ v) =
      grow (piecesFrom separator skip u) (pieces separator v) := by
  induction u generalizing skip with
  | nil =>
    obtain rfl : skip = 0 := Nat.le_zero.mp hskip
    rw [piecesFrom, grow, List.nil_append, pieces]
    exact (congrFun List.modifyHead_id _).symm
  | cons c u ih =>
    cases skip with
    | succ skip => exact ih h.of_cons (Nat.le_of_succ_le_succ hskip)
    | zero =>
      rw [piecesFrom]
      by_cases hbegins : separator <+: c :: u
      · -- what is passed over ends within `u`, as the occurrence does
        have hlength : separator.length - 1 ≤ u.length := Nat.sub_le_of_le_add hbegins.length_le
        have hlonger : separator <+: c :: (u ++ v) := List.prefix_append_of_prefix hbegins
        rw [List.cons_append, piecesFrom, if_pos hbegins, if_pos hlonger, ih h.of_cons hlength,
          grow_cons (piecesFrom_ne_nil _ _)]
      · have hnot : ¬ separator <+: c :: (u ++ v) := fun hlonger =>
          hbegins (h _ (List.cons_ne_nil c u) (List.suffix_refl _) hlonger)
        rw [List.cons_append, piecesFrom, if_neg hbegins, if_neg hnot, ih h.of_cons (Nat.zero_le _),
          grow_modifyHead (piecesFrom_ne_nil _ _)]

/-- **The pieces of two texts in one**, where no separator reaches from the one into the other. -/
theorem pieces_append {u v : List Char} (h : Apart separator u v) :
    pieces separator (u ++ v) = grow (pieces separator u) (pieces separator v) :=
  piecesFrom_append h (Nat.zero_le _)

theorem piecesFrom_length_append (us v : List Char) :
    piecesFrom separator us.length (us ++ v) = pieces separator v := by
  induction us with
  | nil => rfl
  | cons _ _ ih => exact ih

/-- Before a separator at the beginning stands an empty piece. -/
theorem pieces_separator_append (hne : separator ≠ []) (v : List Char) :
    pieces separator (separator ++ v) = [] :: pieces separator v := by
  cases separator with
  | nil => exact absurd rfl hne
  | cons first others =>
    have hbegins : first :: others <+: first :: (others ++ v) := List.prefix_append _ v
    rw [pieces, List.cons_append, piecesFrom, if_pos hbegins, List.length_cons,
      Nat.add_sub_cancel, piecesFrom_length_append]

/-- A text without the separator is one piece. -/
theorem pieces_eq_self {cs : List Char} (h : ¬ separator <:+: cs) :
    pieces separator cs = [cs] := by
  induction cs with
  | nil => rfl
  | cons c cs ih =>
    have hbegins : ¬ separator <+: c :: cs := fun hbegins => h hbegins.isInfix
    have hrest : pieces separator cs = [cs] := ih fun hwithin => h (List.infix_cons hwithin)
    rw [pieces] at hrest
    rw [pieces, piecesFrom, if_neg hbegins, hrest]
    rfl

/-- An occurrence that ends behind the first text has in it a character of the second. -/
theorem apart_of_head_not_mem {u v : List Char} (h : ∀ c ∈ v.head?, c ∉ separator) :
    Apart separator u v := by
  intro w _ _ hbegins
  rcases List.prefix_or_prefix_of_prefix hbegins (List.prefix_append w v) with hw | ⟨t, rfl⟩
  · exact hw
  · have ht : t <+: v := (List.prefix_append_right_inj w).mp hbegins
    cases t with
    | nil => rw [List.append_nil]
    | cons c t =>
      have hhead : c ∈ v.head? := by
        obtain ⟨v, rfl⟩ := ht
        rfl
      exact absurd (List.mem_append_right w List.mem_cons_self) (h c hhead)

/-- What has no separator in it and begins with no character of one adds no piece. -/
theorem length_pieces_append {u v : List Char} (hhead : ∀ c ∈ v.head?, c ∉ separator)
    (hv : ¬ separator <:+: v) :
    (pieces separator (u ++ v)).length = (pieces separator u).length := by
  have hlength := length_grow (pieces_ne_nil separator u) [v]
  rw [pieces_append (apart_of_head_not_mem hhead), pieces_eq_self hv]
  exact Nat.add_right_cancel hlength

end

/-! ### Separators whose first character does not come again -/

section
variable {first : Char} {others : List Char} (hfirst : first ∉ others)
include hfirst

/-- No occurrence begins within another. -/
theorem apart_separator (u v : List Char) :
    Apart (first :: others) u (first :: others ++ v) := by
  intro w hne _ hbegins
  rcases List.prefix_or_prefix_of_prefix hbegins (List.prefix_append w _) with hw | ⟨t, ht⟩
  · exact hw
  · obtain ⟨c, w, rfl⟩ := List.exists_cons_of_ne_nil hne
    obtain ⟨rfl, rfl⟩ : c = first ∧ w ++ t = others := List.cons_eq_cons.mp ht
    cases t with
    | nil => rw [List.append_nil]
    | cons d t =>
      -- the rest of the occurrence begins where the next one does
      have hrest : d :: t <+: c :: (w ++ d :: t) ++ v :=
        (List.prefix_append_right_inj (c :: w)).mp hbegins
      obtain ⟨rfl, -⟩ := List.cons_prefix_cons.mp hrest
      exact absurd (List.mem_append_right w List.mem_cons_self) hfirst

/-- A text is cut at a separator, wherever it stands. -/
theorem pieces_append_separator (u v : List Char) :
    pieces (first :: others) (u ++ (first :: others) ++ v) =
      pieces (first :: others) u ++ pieces (first :: others) v := by
  rw [List.append_assoc, pieces_append (apart_separator hfirst u v),
    pieces_separator_append (List.cons_ne_nil _ _), grow_nil_cons (pieces_ne_nil _ u)]

/-- There is more than one piece just if there is a separator. -/
theorem one_lt_length_pieces_iff {cs : List Char} :
    1 < (pieces (first :: others) cs).length ↔ first :: others <:+: cs := by
  by_cases h : first :: others <:+: cs
  · obtain ⟨u, v, rfl⟩ := h
    rw [pieces_append_separator hfirst, List.length_append]
    have hu := length_pieces_pos (first :: others) u
    have hv := length_pieces_pos (first :: others) v
    exact iff_of_true (by omega) ⟨u, v, rfl⟩
  · rw [pieces_eq_self h]
    exact iff_of_false (Nat.lt_irrefl 1) h

/-- **Parts that are put together come apart again into the pieces of each.** -/
theorem pieces_intercalate {parts : List (List Char)} (hne : parts ≠ []) :
    pieces (first :: others) ((first :: others).intercalate parts) =
      parts.flatMap (pieces (first :: others)) := by
  induction parts with
  | nil => exact absurd rfl hne
  | cons part parts ih =>
    by_cases hnil : parts = []
    · subst parts
      rw [List.intercalate_singleton, List.flatMap_singleton]
    · rw [List.intercalate_cons_of_ne_nil hnil, pieces_append_separator hfirst, ih hnil,
        List.flatMap_cons]

/-- Parts have a piece each at least, and if no more, then none has a separator in it. -/
theorem length_flatMap_pieces {parts : List (List Char)} :
    parts.length ≤ (parts.flatMap (pieces (first :: others))).length ∧
      ((parts.flatMap (pieces (first :: others))).length ≤ parts.length →
        ∀ part ∈ parts, ¬ first :: others <:+: part) := by
  induction parts with
  | nil => exact ⟨Nat.le_refl _, fun _ => List.forall_mem_nil _⟩
  | cons part parts ih =>
    rw [List.flatMap_cons, List.length_append, List.length_cons, List.forall_mem_cons,
      ← one_lt_length_pieces_iff hfirst]
    have hpart := length_pieces_pos (first :: others) part
    exact ⟨by omega, fun hle => ⟨by omega, ih.2 (by omega)⟩⟩

/-- Every part is the only piece of itself just if none has the separator in it. -/
theorem flatMap_pieces_eq_iff {parts : List (List Char)} :
    parts.flatMap (pieces (first :: others)) = parts ↔
      ∀ part ∈ parts, ¬ first :: others <:+: part := by
  refine ⟨fun h => (length_flatMap_pieces hfirst).2 (Nat.le_of_eq (congrArg List.length h)),
    fun h => ?_⟩
  rw [List.flatMap_congr fun part hpart => pieces_eq_self (h part hpart),
    List.flatMap_singleton']

end

/-! ### Texts put together with a separator -/

section
variable {separator : String} {first : Char} {others : List Char}
  (hseparator : separator.toList = first :: others) (hfirst : first ∉ others)
include hseparator hfirst

/-- A text is cut where it has the separator in it. -/
theorem one_lt_length_split_iff {text : String} :
    1 < (split separator text).length ↔ separator.toList <:+: text.toList := by
  rw [split, List.length_map, hseparator, one_lt_length_pieces_iff hfirst]

/-- Parts that are put together are cut into the pieces of each. -/
theorem split_intercalate {parts : List String} (hne : parts ≠ []) :
    split separator (separator.intercalate parts) =
      ((parts.map String.toList).flatMap (pieces separator.toList)).map String.ofList := by
  have hnonempty : parts.map String.toList ≠ [] := mt List.map_eq_nil_iff.mp hne
  rw [split, String.toList_intercalate, hseparator, pieces_intercalate hfirst hnonempty]

/-- The parts come back just if none has the separator in it. -/
theorem split_intercalate_eq_iff {parts : List String} (hne : parts ≠ []) :
    split separator (separator.intercalate parts) = parts ↔
      ∀ part ∈ parts, ¬ separator.toList <:+: part.toList := by
  have hparts : (parts.map String.toList).map String.ofList = parts := by
    simp [Function.comp_def]
  have hinj : ∀ cs ds : List Char, String.ofList cs = String.ofList ds → cs = ds :=
    fun _ _ => String.ofList_inj.mp
  conv_lhs => rhs; rw [← hparts]
  rw [split_intercalate hseparator hfirst hne, hseparator, List.map_inj_right hinj,
    flatMap_pieces_eq_iff hfirst, List.forall_mem_map]

/-- There are as many pieces of the whole as of the parts. -/
theorem length_split_intercalate {parts : List String} (hne : parts ≠ []) :
    (split separator (separator.intercalate parts)).length =
      (parts.map fun part => (split separator part).length).sum := by
  rw [split_intercalate hseparator hfirst hne, List.length_map, List.length_flatMap, List.map_map]
  refine congrArg List.sum (List.map_congr_left fun part _ => ?_)
  rw [split, List.length_map, Function.comp_apply]

end

example : split "\n| " ("\n| ".intercalate ["a", "b\n|", "c"]) = ["a", "b\n|", "c"] := by decide

end PipelineCanvas.Text
