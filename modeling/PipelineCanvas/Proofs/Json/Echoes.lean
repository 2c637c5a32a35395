import PipelineCanvas.Json.Value
import PipelineCanvas.Proofs.Json.Numerals
import PipelineCanvas.Proofs.Numeric.Approximation
/-! # What numbers are read as when they are read again

The reader rounds more than once, so a double that is written need not be the one that its text is
read as. What it is read as is its **echo** (`Double.echo`). Whole numbers echo as they are, and
most doubles do, but not `933.2485775292209`, which comes back as `933.2485775292208`. The doubles
that come back are those that **read back** (`Double.ReadsBack`). That a double does so is checked
by reading its text, and where a result depends on it, it is assumed of the doubles in question.

What holds of all doubles is that their text is read at all (`Reader.number_text`). This is not to
be taken for granted near the end of the range, where the least rounding up leads out of it: the
decimal `1.7976931348623158e308`, to which the greatest double is the nearest, is refused. But it is
not the decimal that this double is written as.

The proof follows the reader. It takes no more leading digits than fit 64 bits and counts the others
in the exponent, so what it turns into a double is not above the decimal that is written
(`Numeral.exists_leading`). Such a decimal is read if the double leaves room for three roundings,
`Decimal.isSome_approximate?_of_toDouble?`. The four greatest doubles of either sign do not, and
their texts are read one by one (`Double.isOk_number_of_greatest`).

In a tree every double is replaced by its echo, and everything else is as it was (`Json.echo`). -/
namespace PipelineCanvas
open Json

namespace Json.Numeral
variable {m n : Numeral} {v : Nat} {ds : List Char}

/-! ### Digits that have room -/

theorem le_ofDigitChars (v : Nat) (ds : List Char) : v ≤ Nat.ofDigitChars 10 ds v := by
  rw [Nat.ofDigitChars_eq_ofDigitChars_zero]
  exact Nat.le_trans (Nat.le_mul_of_pos_left v (Nat.pow_pos (by decide))) (Nat.le_add_right _ _)

theorem takeDigits_lt (hv : v < 0x10000000000000000) :
    (takeDigits v ds).1 < 0x10000000000000000 := by
  induction ds generalizing v with
  | nil => exact hv
  | cons c ds ih =>
    rw [takeDigits]
    split
    · next hroom => exact ih hroom
    · exact hv

/-- Digits whose number has 64 bits are all taken. -/
theorem takeDigits_of_lt (h : Nat.ofDigitChars 10 ds v < 0x10000000000000000) :
    takeDigits v ds = (Nat.ofDigitChars 10 ds v, []) := by
  induction ds generalizing v with
  | nil => rfl
  | cons c ds ih =>
    rw [Nat.ofDigitChars_cons] at h ⊢
    have hroom := Nat.lt_of_le_of_lt (le_ofDigitChars _ ds) h
    rw [takeDigits, if_pos hroom]
    exact ih h

/-- With zeros in the place of the digits that are left over, a number is not greater. -/
theorem takeDigits_mul_le (v : Nat) (ds : List Char) :
    (takeDigits v ds).1 * 10 ^ (takeDigits v ds).2.length ≤ Nat.ofDigitChars 10 ds v := by
  induction ds generalizing v with
  | nil => exact Nat.le_of_eq (Nat.mul_one v)
  | cons c ds ih =>
    rw [takeDigits]
    split
    · exact ih _
    · rw [Nat.ofDigitChars_eq_ofDigitChars_zero, Nat.mul_comm]
      exact Nat.le_add_right _ _

theorem length_takeDigits_le (v : Nat) (ds : List Char) :
    (takeDigits v ds).2.length ≤ ds.length := by
  induction ds generalizing v with
  | nil => exact Nat.le_refl _
  | cons c ds ih =>
    rw [takeDigits]
    split
    · exact Nat.le_succ_of_le (ih _)
    · exact Nat.le_refl _

/-! ### The leading digits of a numeral -/

/-- The leading digits of a numeral fit 64 bits. -/
theorem leading_digits_lt (n : Numeral) : n.leading.digits < 2 ^ 64 := by
  have hlt : n.leading.digits < 0x10000000000000000 := takeDigits_lt (takeDigits_lt (by decide))
  exact hlt

/-- Digits that are left over before the point are no more than there are. -/
theorem leading_exponent_le (n : Numeral) :
    n.leading.exponent ≤ n.exponent.getD 0 + n.whole.length := by
  have hwhole := length_takeDigits_le 0 n.whole
  have hfraction := length_takeDigits_le (takeDigits 0 n.whole).1 (n.fraction.getD [])
  show n.exponent.getD 0 + (takeDigits 0 n.whole).2.length -
    ((n.fraction.getD []).length - (takeDigits (takeDigits 0 n.whole).1 _).2.length) ≤ _
  omega

/-- Where the digits before the point have room, some at the end may be missing. -/
theorem exists_leading (hn : n.Proper) (hlen : n.whole.length ≤ 19) : ∃ l : Nat,
    n.leading.digits * 10 ^ l ≤ n.decimal.digits ∧
      n.leading.exponent = n.decimal.exponent + l := by
  have hwhole : takeDigits 0 n.whole = (digitsValue n.whole, []) := by
    refine takeDigits_of_lt (Nat.lt_of_lt_of_le (digitsValue_lt hn.whole_digits) ?_)
    exact Nat.le_trans (Nat.pow_le_pow_right (by decide) hlen) (by decide)
  have hdigits := takeDigits_mul_le (digitsValue n.whole) (n.fraction.getD [])
  refine ⟨(takeDigits (digitsValue n.whole) (n.fraction.getD [])).2.length, ?_, ?_⟩
  · have hvalue : n.decimal.digits =
        Nat.ofDigitChars 10 (n.fraction.getD []) (digitsValue n.whole) :=
      Nat.ofDigitChars_append 0
    rw [hvalue]
    simpa only [leading, hwhole] using hdigits
  · simp only [leading, decimal, hwhole, List.length_nil]
    omega

/-! ### Numerals that are read -/

theorem isSome_wholeOr {double : Option Double} (h : double.isSome) :
    (n.wholeOr double).isSome := by
  unfold wholeOr
  split
  · split
    · rfl
    · simpa using h
  · simpa using h

theorem isSome_of_wholeOr {double : Option Double} (hexponent : n.exponent ≠ none)
    (h : (n.wholeOr double).isSome) : double.isSome := by
  unfold wholeOr at h
  split at h
  · next hnone => exact absurd hnone hexponent
  · simpa using h

/-- A numeral without an exponent is read, or with one that is not positive. -/
theorem isSome_toNumber?_of_le (hlen : n.whole.length ≤ 20) (hexponent : n.exponent.getD 0 ≤ 0) :
    n.toNumber?.isSome := by
  have hle := n.leading_exponent_le
  exact isSome_wholeOr (Decimal.isSome_approximate?_of_le n.leading_digits_lt (by omega))

/-- What a double is written as is read, save for the four greatest ones. -/
theorem isSome_toNumber?_of_nearest? {x : Double} (hn : n.Proper) (hlen : n.whole.length ≤ 19)
    (h : n.nearest? = some (.double x)) (hx : x.LeavesRoom) : n.toNumber?.isSome := by
  obtain ⟨l, hle, hexponent⟩ := exists_leading hn hlen
  obtain ⟨hread, -⟩ := wholeOr_eq_double h
  exact isSome_wholeOr
    (Decimal.isSome_approximate?_of_toDouble? hread hx n.leading_digits_lt hle hexponent)

end Json.Numeral

/-! ### Echoes -/

namespace Double

/-- What is read from the text of the double. -/
def echo (x : Double) : Double :=
  match Reader.number (x.text Number.positional) with
  | .ok (.double y, _) => y
  | _ => x

/-- The double is read from its text as it was. -/
def ReadsBack (x : Double) : Prop :=
  Reader.number (x.text Number.positional) = .ok (.double x, [])

instance (x : Double) : Decidable x.ReadsBack := inferInstanceAs (Decidable (_ = _))

theorem ReadsBack.echo_eq {x : Double} (h : x.ReadsBack) : x.echo = x := by
  rw [ReadsBack] at h
  rw [echo, h]

/-- The text of the greatest doubles, which leave no room for rounding, is read. -/
theorem isOk_number_of_greatest (negative : Bool) {k : Nat} (hk : k < 4) :
    (ofParts? negative (2 ^ 53 - 1 - k) 2045).any
      fun x => (Reader.number (x.text Number.positional)).isOk := by
  -- eight texts, each of which the kernel reads
  have htable : ∀ negative : Bool, ∀ k < 4, (ofParts? negative (2 ^ 53 - 1 - k) 2045).any
      (fun x => (Reader.number (x.text Number.positional)).isOk) = true := by
    decide +kernel
  exact htable negative k hk

/-- A double that leaves no room for rounding is one of the four greatest of its sign. -/
theorem exists_of_not_leavesRoom {x : Double} (h : ¬x.LeavesRoom) :
    ∃ k < 4, ofParts? x.negative (2 ^ 53 - 1 - k) 2045 = some x := by
  have hlt : x.significand < 2 ^ 53 := x.significand_lt
  have hle := x.scale_le
  unfold LeavesRoom at h
  have hscale : x.scale = 2045 := by omega
  refine ⟨2 ^ 53 - 1 - x.significand, by omega, ?_⟩
  rw [show 2 ^ 53 - 1 - (2 ^ 53 - 1 - x.significand) = x.significand by omega, ← hscale]
  exact x.ofParts?_self

/-- **The text of every double is read**, as a double. -/
theorem exists_toNumber? {x : Double} {n : Numeral} (hn : n.Proper)
    (htext : x.text Number.positional = n.chars) (hlen : n.whole.length ≤ 19)
    (hnumber : n.nearest? = some (.double x)) : ∃ y : Double, n.toNumber? = some (.double y) := by
  have hsome : n.toNumber?.isSome := by
    by_cases hroom : x.LeavesRoom
    · exact Numeral.isSome_toNumber?_of_nearest? hn hlen hnumber hroom
    · obtain ⟨k, hk, hx⟩ := exists_of_not_leavesRoom hroom
      have hread := isOk_number_of_greatest x.negative hk
      have hnumeral : Reader.numeral n.chars = .ok (n, []) := by
        have happend := Reader.numeral_chars hn numberEnd_nil
        rwa [List.append_nil] at happend
      rw [hx, Option.any_some, htext, Reader.number, Reader.bind_of_ok hnumeral] at hread
      cases hvalue : n.toNumber? with
      | some m => rfl
      | none =>
        rw [hvalue] at hread
        cases hread
  obtain ⟨-, hform⟩ := Numeral.wholeOr_eq_double hnumber
  rw [Numeral.toNumber?, hform] at hsome ⊢
  obtain ⟨y, hy⟩ := Option.isSome_iff_exists.mp (by simpa using hsome)
  exact ⟨y, by rw [hy]; rfl⟩

end Double

/-- The number with another double in its place, if it is one. -/
def Number.mapDouble (f : Double → Double) : Number → Number
  | .whole w => .whole w
  | .double x => .double (f x)

/-- What is read from the text of the number. -/
def Number.echo (n : Number) : Number := n.mapDouble Double.echo

/-- The text of a number is that of a numeral that is read, a double as its echo. -/
theorem Number.exists_toNumber? (n : Number) : ∃ numeral : Json.Numeral, numeral.Proper ∧
    n.text = numeral.chars ∧ numeral.toNumber? = some n.echo ∧ numeral.whole.length ≤ 20 := by
  cases n with
  | whole w =>
    obtain ⟨numeral, hproper, htext, hnumber, hlen⟩ := w.exists_numeral
    obtain ⟨hfraction, hexponent, hwhole⟩ := Numeral.wholeOr_eq_whole hnumber
    refine ⟨numeral, hproper, htext, ?_, hlen⟩
    rw [Numeral.toNumber?, Numeral.wholeOr, hfraction, hexponent, hwhole]
    rfl
  | double x =>
    obtain ⟨numeral, hproper, htext, hnumber, hlen⟩ := x.exists_numeral positional
    obtain ⟨y, hread⟩ :=
      Double.exists_toNumber? hproper htext (Nat.le_trans hlen (by decide)) hnumber
    have halone : Reader.number (x.text positional) = .ok (.double y, []) := by
      have happend := Reader.number_chars hproper hread numberEnd_nil
      rwa [List.append_nil, ← htext] at happend
    have hecho : x.echo = y := by rw [Double.echo, halone]
    refine ⟨numeral, hproper, htext, ?_, Nat.le_trans hlen (by decide)⟩
    rw [hread, Number.echo, mapDouble, hecho]

/-- **Every number is read off its text**, a double as its echo. -/
theorem Json.Reader.number_text (n : Number) {rest : List Char} (hrest : NumberEnd rest) :
    number (n.text ++ rest) = .ok (n.echo, rest) := by
  obtain ⟨numeral, hproper, htext, hread, -⟩ := n.exists_toNumber?
  rw [htext]
  exact number_chars hproper hread hrest

/-- A double reads back just if it is its own echo. -/
theorem Double.readsBack_iff {x : Double} : x.ReadsBack ↔ x.echo = x := by
  refine ⟨ReadsBack.echo_eq, fun h => ?_⟩
  have hread : Reader.number (x.text Number.positional ++ []) = .ok (.double x.echo, []) :=
    Reader.number_text (.double x) numberEnd_nil
  rwa [List.append_nil, h] at hread

/-- A coordinate that does not read back. -/
example : (Reader.number "933.2485775292209".toList).toOption.map (String.ofList ·.1.text) =
    some "933.2485775292208" := by decide +kernel

/-! ### Trees -/

namespace Json

mutual

/-- The doubles that stand in the tree, in text order. -/
def doubles : Json → List Double
  | .null => []
  | .bool _ => []
  | .number (.whole _) => []
  | .number (.double x) => [x]
  | .string _ => []
  | .array items => itemDoubles items
  | .object members => memberDoubles members

def itemDoubles : List Json → List Double
  | [] => []
  | t :: ts => t.doubles ++ itemDoubles ts

def memberDoubles : List (String × Json) → List Double
  | [] => []
  | (_, t) :: ms => t.doubles ++ memberDoubles ms

end

mutual

/-- The tree with other doubles in the places of its own. -/
def mapDoubles (f : Double → Double) : Json → Json
  | .null => .null
  | .bool b => .bool b
  | .number n => .number (n.mapDouble f)
  | .string s => .string s
  | .array items => .array (mapItemDoubles f items)
  | .object members => .object (mapMemberDoubles f members)

def mapItemDoubles (f : Double → Double) : List Json → List Json
  | [] => []
  | t :: ts => t.mapDoubles f :: mapItemDoubles f ts

def mapMemberDoubles (f : Double → Double) : List (String × Json) → List (String × Json)
  | [] => []
  | (k, t) :: ms => (k, t.mapDoubles f) :: mapMemberDoubles f ms

end

/-- What is read from a text of the tree. -/
def echo (t : Json) : Json := t.mapDoubles Double.echo

/-- All doubles of the tree are read as they were. -/
def ReadsBack (t : Json) : Prop := ∀ x ∈ t.doubles, x.ReadsBack

instance (t : Json) : Decidable t.ReadsBack := inferInstanceAs (Decidable (∀ x ∈ _, _))

variable {f : Double → Double}

theorem itemDoubles_eq_flatMap (items : List Json) :
    itemDoubles items = items.flatMap doubles := by
  induction items with
  | nil => rfl
  | cons t ts ih => rw [itemDoubles, ih, List.flatMap_cons]

theorem memberDoubles_eq_flatMap (members : List (String × Json)) :
    memberDoubles members = members.flatMap fun m => m.2.doubles := by
  induction members with
  | nil => rfl
  | cons m ms ih => rw [memberDoubles, ih, List.flatMap_cons]

theorem mapItemDoubles_eq_map (f : Double → Double) (items : List Json) :
    mapItemDoubles f items = items.map (mapDoubles f) := by
  induction items with
  | nil => rfl
  | cons t ts ih => rw [mapItemDoubles, ih, List.map_cons]

theorem mapMemberDoubles_eq_map (f : Double → Double) (members : List (String × Json)) :
    mapMemberDoubles f members = members.map fun m => (m.1, m.2.mapDoubles f) := by
  induction members with
  | nil => rfl
  | cons m ms ih => rw [mapMemberDoubles, ih, List.map_cons]

mutual

/-- A tree stays as it is where its doubles do. -/
theorem mapDoubles_eq_self : ∀ {t : Json}, (∀ x ∈ t.doubles, f x = x) → t.mapDoubles f = t
  | .null, _ => rfl
  | .bool _, _ => rfl
  | .number (.whole _), _ => rfl
  | .number (.double _), h => congrArg (Json.number ∘ Number.double) (h _ List.mem_cons_self)
  | .string _, _ => rfl
  | .array _, h => congrArg Json.array (mapItemDoubles_eq_self h)
  | .object _, h => congrArg Json.object (mapMemberDoubles_eq_self h)

theorem mapItemDoubles_eq_self :
    ∀ {items : List Json}, (∀ x ∈ itemDoubles items, f x = x) → mapItemDoubles f items = items
  | [], _ => rfl
  | _ :: _, h =>
    congrArg₂ List.cons (mapDoubles_eq_self fun x hx => h x (List.mem_append_left _ hx))
      (mapItemDoubles_eq_self fun x hx => h x (List.mem_append_right _ hx))

theorem mapMemberDoubles_eq_self : ∀ {members : List (String × Json)},
    (∀ x ∈ memberDoubles members, f x = x) → mapMemberDoubles f members = members
  | [], _ => rfl
  | (k, _) :: _, h =>
    congrArg₂ List.cons
      (congrArg (Prod.mk k) (mapDoubles_eq_self fun x hx => h x (List.mem_append_left _ hx)))
      (mapMemberDoubles_eq_self fun x hx => h x (List.mem_append_right _ hx))

end

/-- **A tree whose doubles read back is read as it is.** -/
theorem ReadsBack.echo_eq {t : Json} (h : t.ReadsBack) : t.echo = t :=
  mapDoubles_eq_self fun x hx => (h x hx).echo_eq

theorem readsBack_array_iff {items : List Json} :
    (Json.array items).ReadsBack ↔ ∀ t ∈ items, t.ReadsBack := by
  have hdoubles : (Json.array items).doubles = items.flatMap doubles :=
    itemDoubles_eq_flatMap items
  simp only [ReadsBack, hdoubles, List.mem_flatMap]
  exact ⟨fun h t ht x hx => h x ⟨t, ht, hx⟩, fun h x ⟨t, ht, hx⟩ => h t ht x hx⟩

theorem readsBack_object_iff {members : List (String × Json)} :
    (Json.object members).ReadsBack ↔ ∀ m ∈ members, m.2.ReadsBack := by
  have hdoubles : (Json.object members).doubles = members.flatMap fun m => m.2.doubles :=
    memberDoubles_eq_flatMap members
  simp only [ReadsBack, hdoubles, List.mem_flatMap]
  exact ⟨fun h m hm x hx => h x ⟨m, hm, hx⟩, fun h x ⟨m, hm, hx⟩ => h m hm x hx⟩

/-- What is in order stays in order, as the keys are the same. -/
theorem Normal.mapDoubles {t : Json} (h : t.Normal) : (t.mapDoubles f).Normal := by
  induction h with
  | null => exact .null
  | bool b => exact .bool b
  | number n => exact .number _
  | string s => exact .string s
  | array _ ih =>
    rw [Json.mapDoubles, mapItemDoubles_eq_map]
    exact .array (List.forall_mem_map.mpr ih)
  | object ascending _ ih =>
    rw [Json.mapDoubles, mapMemberDoubles_eq_map]
    exact .object (List.pairwise_map.mpr ascending) (List.forall_mem_map.mpr ih)

end Json

/-- The value as it is read from a text of it. -/
def Value.echo (v : Value) : Value := ⟨v.tree.echo, v.normal.mapDoubles⟩

/-- The properties as they are read from a text of them. -/
def Properties.echo (p : Properties) : Properties := p.map fun _ v => v.echo

theorem Value.echo_eq {v : Value} (h : v.tree.ReadsBack) : v.echo = v := Value.ext h.echo_eq

theorem Properties.echo_eq {p : Properties} (h : p.toJson.ReadsBack) : p.echo = p := by
  rw [toJson, readsBack_object_iff] at h
  refine Table.ext ((List.map_congr_left fun e he => ?_).trans (List.map_id' _))
  exact congrArg (Prod.mk e.1) (Value.echo_eq (h _ (List.mem_map_of_mem he)))

/-- The tree of an echo is the echo of the tree. -/
theorem Properties.toJson_echo (p : Properties) : p.echo.toJson = p.toJson.echo := by
  rw [toJson, toJson, Json.echo, mapDoubles, mapMemberDoubles_eq_map]
  simp [Properties.echo, Table.map, Value.echo, Json.echo]

end PipelineCanvas
