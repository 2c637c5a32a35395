import PipelineCanvas.Json.Shape
import PipelineCanvas.Proofs.Json.Trees
/-! # Shapes read what they write

A shape reads a text in one pass, or takes a value from a tree that has been read before. It
**agrees** on a tree when it reads every text of the tree as it views the tree, and it **views
back** a value when it takes it from the tree that is written for it. The second is about trees only
and is proved shape by shape; the first is what brings the texts in.

Of the text that is written for a value, a shape that agrees reads what it views in the echo of the
tree (`Shape.read_toText`). That is the value itself where the shape views it back and the doubles
in the tree read back. Records and entries are the subject of `PipelineCanvas.Proofs.Json.Records`.
-/
namespace PipelineCanvas.Json.Shape
open Reader
variable {α β : Type}

/-- Whatever is viewed in the tree is read off its texts. -/
def Agrees (s : Shape α) (t : Json) : Prop :=
  ∀ depth {cs rest a}, tree depth cs = .ok (t, rest) → s.view t = .ok a →
    s.read depth cs = .ok (a, rest)

/-- The value is viewed in the tree that is written for it. -/
def ViewsBack (s : Shape α) (a : α) : Prop := s.view (s.toJson a) = .ok a

/-- **What is viewed in the echo of a tree is read off its text**, if the text has no more levels
than are allowed. -/
theorem read_toText {s : Shape α} {a b : α} (hview : s.view (s.toJson a).echo = .ok b)
    (hagrees : s.Agrees (s.toJson a).echo) (hdepth : (s.toJson a).depth ≤ maxDepth) :
    s.read maxDepth (s.toText a).toList = .ok (b, []) := by
  have htree : tree maxDepth ((s.toJson a).compactChars ++ []) = .ok ((s.toJson a).echo, []) :=
    tree_compactChars hdepth numberEnd_nil
  rw [List.append_nil] at htree
  rw [toText, compact, String.toList_ofList]
  exact hagrees maxDepth htree hview

/-! ### Agreement -/

/-- A string is read as it is viewed, and so are the other scalars. -/
theorem agrees_string (t : Json) : Shape.string.Agrees t := by
  intro depth cs rest a htree hview
  cases t with
  | string s =>
    cases hview
    obtain ⟨tail, hpeek, hquoted⟩ := tree_string htree
    show (peekToken >>= _) cs = _
    rw [bind_of_ok hpeek, if_pos rfl]
    exact hquoted
  | _ => cases hview

theorem agrees_numberWith (expected : String) (pick : Number → Except Fault α) (put : α → Json)
    (t : Json) : (numberWith expected pick put).Agrees t := by
  intro depth cs rest a htree hview
  cases t with
  | number n =>
    obtain ⟨c, tail, hc, hpeek, hnumber⟩ := tree_number htree
    show (peekToken >>= _) cs = _
    rw [bind_of_ok hpeek, if_pos hc, bind_of_ok hnumber]
    exact lift_eq_ok hview
  | _ => cases hview

theorem Agrees.imap {s : Shape α} {t : Json} (h : s.Agrees t) (f : α → β) (g : β → α) :
    (s.imap f g).Agrees t := by
  intro depth cs rest b htree hview
  obtain ⟨a, ha, rfl⟩ := PipelineCanvas.map_eq_ok_iff.mp hview
  exact map_of_ok (h depth htree ha)

theorem agrees_value (t : Json) : Shape.value.Agrees t := by
  intro depth cs rest v htree hview
  cases hview
  exact map_of_ok htree

theorem view_optional {s : Shape α} {t : Json} (h : t ≠ .null) :
    (optional s).view t = some <$> s.view t := by
  cases t with
  | null => exact absurd rfl h
  | _ => rfl

theorem agrees_optional {s : Shape α} {t : Json} (h : s.Agrees t) : (optional s).Agrees t := by
  intro depth cs rest o htree hview
  obtain ⟨c, cs', hpeek⟩ := exists_peekToken htree
  show (peekToken >>= _) cs = _
  rw [bind_of_ok hpeek]
  rcases tree_null_cases hpeek htree with ⟨rfl, rfl, hword⟩ | ⟨hc, hnull⟩
  · cases hview
    exact map_of_ok hword
  · rw [view_optional hnull] at hview
    obtain ⟨a, ha, rfl⟩ := PipelineCanvas.map_eq_ok_iff.mp hview
    rw [if_neg hc]
    exact map_of_ok (h depth ((tree_peeked hpeek).trans htree) ha)

/-- A name is read as it is viewed. -/
theorem agrees_choice (name : α → String) (choices : List α) (s : String) :
    (choice name choices).Agrees (.string s) := by
  intro depth cs rest a htree hview
  obtain ⟨tail, hpeek, hquoted⟩ := tree_string htree
  show (peekToken >>= _) cs = _
  rw [bind_of_ok hpeek]
  show (quoted >>= fun s => liftM (choose name choices s)) tail = _
  rw [bind_of_ok hquoted]
  exact lift_eq_ok hview

/-- A list agrees on a tree if its shape does on the items. -/
theorem agrees_list {s : Shape α} {t : Json}
    (h : ∀ items, t = .array items → ∀ u ∈ items, s.Agrees u) : (Shape.list s).Agrees t := by
  intro depth cs rest as htree hview
  cases t with
  | array items =>
    obtain ⟨below, tail, rfl, hpeek, hitems⟩ := tree_array htree
    show (peekToken >>= _) cs = _
    rw [bind_of_ok hpeek]
    have hread : arrayItems (s.read below) tail = .ok (as, rest) :=
      Brackets.collect_of_view hitems (fun u hu => h items rfl u hu below) hview
    have hopen : (do
        Reader.expect '['
        arrayItems (s.read below) : Reader (List α)) ('[' :: tail) = .ok (as, rest) := by
      rw [bind_of_ok (expect_cons '['), hread]
    exact hopen
  | _ => cases hview

/-! ### Writing and viewing -/

theorem viewsBack_string (s : String) : Shape.string.ViewsBack s := rfl

/-- A natural number of 64 bits comes back. -/
theorem viewsBack_natural (expected : String) {n : Nat} (h : n < 0x10000000000000000) :
    (natural expected).ViewsBack n := by
  have hmin : ((Whole.ofNat n).val) = n := by
    simp only [Whole.ofNat]
    omega
  show (if 0 ≤ (Whole.ofNat n).val then _ else _) = _
  rw [if_pos (by omega), hmin]
  rfl

theorem viewsBack_double (x : Double) : Shape.double.ViewsBack x := rfl

theorem ViewsBack.imap {s : Shape α} {f : α → β} {g : β → α} {b : β} (h : s.ViewsBack (g b))
    (hfg : f (g b) = b) : (s.imap f g).ViewsBack b := by
  show f <$> s.view (s.toJson (g b)) = .ok b
  rw [h]
  exact congrArg Except.ok hfg

theorem viewsBack_value (v : Value) : Shape.value.ViewsBack v :=
  congrArg Except.ok (Value.ofJson_tree v)

/-- A value that is not written as `null` is not taken for none. -/
theorem viewsBack_optional {s : Shape α} {o : Option α} (h : ∀ a ∈ o, s.ViewsBack a)
    (hnull : ∀ a ∈ o, s.toJson a ≠ .null) : (optional s).ViewsBack o := by
  cases o with
  | none => rfl
  | some a =>
    have hview : (optional s).view (s.toJson a) = some <$> s.view (s.toJson a) :=
      view_optional (hnull a rfl)
    show (optional s).view (s.toJson a) = _
    rw [hview, h a rfl]
    rfl

theorem viewsBack_list {s : Shape α} {as : List α} (h : ∀ a ∈ as, s.ViewsBack a) :
    (Shape.list s).ViewsBack as := by
  show (as.map s.toJson).mapM s.view = .ok as
  induction as with
  | nil => rfl
  | cons a as ih =>
    have ha : s.view (s.toJson a) = .ok a := h a List.mem_cons_self
    rw [List.map_cons, List.mapM_cons, ha, ih fun b hb => h b (List.mem_cons_of_mem _ hb)]
    rfl

/-- Properties come back whatever they are, as their keys are in order. -/
theorem viewsBack_properties (p : Properties) : Shape.properties.ViewsBack p := by
  show Except.ok (Properties.ofMembers _) = .ok p
  rw [Properties.ofMembers_entries]

/-- A choice is known by its name. -/
theorem viewsBack_choice {name : α → String} {choices : List α} {a : α} (ha : a ∈ choices)
    (hname : ∀ b ∈ choices, name b = name a → b = a) : (choice name choices).ViewsBack a := by
  show choose name choices (name a) = .ok a
  have hfind : choices.find? (fun b => name b == name a) = some a := by
    cases hfound : choices.find? fun b => name b == name a with
    | none => simpa using List.find?_eq_none.mp hfound a ha
    | some b =>
      have hb : name b = name a := by simpa using List.find?_some hfound
      rw [hname b (List.mem_of_find?_eq_some hfound) hb]
  rw [choose, hfind]
  rfl

end PipelineCanvas.Json.Shape
