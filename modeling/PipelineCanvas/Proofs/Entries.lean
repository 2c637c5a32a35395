import PipelineCanvas.Proofs.Elements
import PipelineCanvas.Proofs.Json.Layouts
import PipelineCanvas.Proofs.Saving
/-! # Nodes by themselves and in saved diagrams

A node is read in one pass where it stands by itself, and as a value that has been read before where
it is an entry of a saved diagram. Where its object has only members that a node knows, both come to
the same, whatever their order, repetitions and values are, with one exception: a kind that stands
as a key over an empty object counts only in a value that has been read (`Node.reads_as_entry`).

Both are compared with a third, which is what is viewed in the value of the node's spelling. For an
entry that is what is read anyway (`SavesNode.ofText_eq_ok_iff`). For a node by itself it is because
the shapes of its fields are plain, where the kind is not hollow (`NodeMembers.ofText_eq_ok_iff`).
Where it is, the node has the value that it would have with `null` in the place of the empty object
(`viewed?_fillKind`), and this one is not hollow.

A diagram takes two levels of the nesting that a text may have. So the members of the node are
limited to 125 levels here: up to there both readers are allowed as many as there are. -/
namespace PipelineCanvas
open Json Reader
variable {α ι : Type}

/-! ### An identifier among the members -/

/-- An entry is its identifier and the record of the other members. -/
theorem Json.Record.view_entry (r : Record α) (expected : String) {name : String} {id : Shape ι}
    {t : Json} {i : ι} (hid : id.view t = .ok i) {before after : List (String × Json)}
    (hbefore : ∀ m ∈ before, m.1 ≠ name) (hafter : ∀ m ∈ after, m.1 ≠ name) :
    (r.entry expected name id).view (.object (before ++ (name, t) :: after)) =
      (fun a => (i, a)) <$> r.shape.view (.object (before ++ after)) := by
  have hsplit : (before ++ (name, t) :: after).foldlM (splitMember name id) (none, []) =
      .ok (some i, (before ++ after).reverse) := by
    rw [List.foldlM_append, foldlM_splitMember hbefore]
    show ((name, t) :: after).foldlM (splitMember name id) (none, before.reverse ++ []) = _
    rw [List.foldlM_cons, splitMember_id hid]
    refine (foldlM_splitMember hafter (some i) _).trans ?_
    rw [List.append_nil, List.reverse_append]
  show (List.foldlM (splitMember name id) (none, []) _ >>= r.ofEntry name) = _
  rw [hsplit]
  show (split name (some i, (before ++ after).reverse) >>= fun p => do
    return (p.1, r.make (← r.fields.viewMembers p.2))) = _
  rw [split, List.reverse_reverse, pure_bind]
  show _ = (fun a => (i, a)) <$> r.make <$> r.fields.viewMembers (before ++ after)
  cases r.fields.viewMembers (before ++ after) <;> rfl

/-! ### The members of a node -/

/-- Members that a node knows, in any order, any number of times and with any values, at most 125
levels deep with the object that they are in. -/
structure NodeMembers (members : List (List Char × Spelling)) : Prop where
  /-- They are members of the grammar. -/
  sound : (Spelling.object members).Sound
  /-- A node knows all their keys. -/
  keys : HasOnly ["name", "block_type", "properties", "position"] members
  /-- A place that is given by members has no others than its two. -/
  position : ∀ m ∈ members, key? m.1 = some "position" →
    ∀ places, m.2 = .object places → HasOnly ["x", "y"] places
  /-- They are no deeper than what is left to them in a diagram. -/
  depth_le : (Spelling.object members).depth ≤ 125

/-- The member is a kind that stands as a key over an empty object. -/
def HollowKind (m : List Char × Spelling) : Prop :=
  key? m.1 = some "block_type" ∧ Shape.Hollow m.2

/-- The spelling with `null` in the place of an empty object under its one key. -/
def Json.Spelling.filled : Spelling → Spelling
  | .object [(key, .object [])] => .object [(key, .scalar ['n', 'u', 'l', 'l'])]
  | s => s

/-- The member, and if it is a kind then with `null` in the place of an empty object. -/
def fillKind (m : List Char × Spelling) : List Char × Spelling :=
  if key? m.1 = some "block_type" then (m.1, m.2.filled) else m

/-- The spelling of a saved diagram with one node and no links. -/
inductive IsDiagramOf (entry : Spelling) : Spelling → Prop
  /-- The nodes come first. -/
  | nodesFirst {nodes links : List Char} (hnodes : key? nodes = some "nodes")
      (hlinks : key? links = some "links") :
      IsDiagramOf entry (.object [(nodes, .array [entry]), (links, .array [])])
  /-- The links come first, of which there are none. -/
  | linksFirst {nodes links : List Char} (hnodes : key? nodes = some "nodes")
      (hlinks : key? links = some "links") :
      IsDiagramOf entry (.object [(links, .array []), (nodes, .array [entry])])

/-- The spelling of a saved diagram whose one node has these members and the identifier, which
stands anywhere among them. -/
structure SavesNode (members : List (List Char × Spelling)) (i : Nat) (s : Spelling) : Prop where
  /-- The diagram is a text of the grammar. -/
  sound : s.Sound
  /-- The identifier is one that may be saved. -/
  id_le : i ≤ Diagram.greatestSavedId
  /-- The members of the entry are those of the node and the identifier. -/
  exists_entry : ∃ before after idKey idToken, members = before ++ after ∧
    key? idKey = some "id" ∧ meaning? idToken = some (.ofNat i) ∧
      IsDiagramOf (.object (before ++ (idKey, .scalar idToken) :: after)) s

/-- A text is read as a node if and only if the other is read as a diagram, which then has that
node under the identifier. -/
def Node.ReadsAlike (i : Nat) (text diagramText : String) : Prop :=
  (∀ n, Node.record.shape.ofText text = .ok n →
    ∃ d, Diagram.ofText diagramText = .ok d ∧ d.node? ⟨i⟩ = some n) ∧
  ∀ d, Diagram.ofText diagramText = .ok d →
    ∃ n, Node.record.shape.ofText text = .ok n ∧ d.node? ⟨i⟩ = some n

variable {members before after : List (List Char × Spelling)} {entry s : Spelling}
  {text diagramText : String} {i : Nat}

/-! ### A saved diagram -/

/-- A diagram is read off a text if the value of the text is one. -/
theorem Diagram.ofText_eq_ok_iff (hsound : s.Sound)
    (hkeys : ∀ members, s = .object members → HasOnly ["nodes", "links"] members)
    (htext : Spaced s.tokens text.toList) {d : Diagram} :
    ofText text = .ok d ↔
      ∃ saved, s.viewed? SavedDiagram.record.shape maxDepth = some saved ∧ load saved = .ok d := by
  have hplain : SavedDiagram.record.shape.Plain s := by
    refine Record.plain_of_allPlain SavedDiagram.decide_fields SavedDiagram.allPlain_fields
      hsound ?_
    intro members hs m hm key hkey
    have hmem := (hkeys members hs).mem hm hkey
    simp only [List.mem_cons, List.not_mem_nil, or_false] at hmem
    rcases hmem with rfl | rfl <;> exact trivial
  have hfinds := Record.decides SavedDiagram.decide_fields maxDepth s hsound
  rw [hplain maxDepth] at hfinds
  have hyields := hfinds [] text.toList nofun (by rwa [List.append_nil])
  cases hviewed : s.viewed? SavedDiagram.record.shape maxDepth with
  | none =>
    rw [hviewed] at hyields
    constructor
    · intro h
      obtain ⟨saved, rest, hread, -⟩ := load_of_ofText h
      exact absurd hread (hyields _)
    · rintro ⟨_, ⟨⟩, _⟩
  | some saved =>
    rw [hviewed] at hyields
    obtain ⟨rest, hread, hrest, -⟩ := hyields
    -- only blanks are left behind the value, so the end of the text is no problem
    have hload : ofText text = (load saved).mapError .entries := by
      rw [ofText, hread]
      show ((load saved).mapError .entries >>= fun d => (finish rest).mapError .text >>= fun _ =>
        pure d : Except LoadError Diagram) = _
      rw [finish_of_blank hrest.blank]
      exact bind_pure _
    rw [hload, mapError_eq_ok_iff]
    simp

namespace IsDiagramOf

/-- Such a diagram has no other members than its two lists. -/
theorem hasOnly (h : IsDiagramOf entry s) : ∀ members, s = .object members →
    HasOnly ["nodes", "links"] members := by
  rintro members rfl
  cases h with
  | nodesFirst hnodes hlinks =>
    exact List.forall_mem_cons.mpr ⟨⟨_, by simp, hnodes⟩, List.forall_mem_singleton.mpr
      ⟨_, by simp, hlinks⟩⟩
  | linksFirst hnodes hlinks =>
    exact List.forall_mem_cons.mpr ⟨⟨_, by simp, hlinks⟩, List.forall_mem_singleton.mpr
      ⟨_, by simp, hnodes⟩⟩

/-- The lists of a saved diagram. -/
def lists (nodes : Shape α) (links : Shape ι) : Fields [List α, List ι] :=
  .cons { name := "nodes", shape := .list nodes } <|
  .cons { name := "links", shape := .list links } .nil

section lists
variable (nodes : Shape α) (links : Shape ι) (t : Json)

theorem viewMember_nodes (l : Option (List ι)) :
    (lists nodes links).viewMember (none, l, ()) ("nodes", .array [t]) =
      (fun e => (some [e], l, ())) <$> nodes.view t := by
  show ([t].mapM nodes.view >>= fun es => pure (some es, l, ())) = _
  rw [List.mapM_cons, List.mapM_nil]
  cases nodes.view t <;> rfl

theorem viewMembers_nodesFirst : (lists nodes links).viewMembers
    [("nodes", .array [t]), ("links", .array [])] = (fun e => ([e], [], ())) <$> nodes.view t := by
  rw [Fields.viewMembers, List.foldlM_cons]
  show ((lists nodes links).viewMember (none, none, ()) _ >>= _) >>= _ = _
  rw [viewMember_nodes]
  cases nodes.view t <;> rfl

theorem viewMembers_linksFirst : (lists nodes links).viewMembers
    [("links", .array []), ("nodes", .array [t])] = (fun e => ([e], [], ())) <$> nodes.view t := by
  show ((lists nodes links).viewMember (none, some [], ()) ("nodes", .array [t]) >>= pure) >>= _ = _
  rw [viewMember_nodes]
  cases nodes.view t <;> rfl

end lists

theorem toOption_view {members : List (String × Json)} {t : Json}
    (h : (lists SavedDiagram.savedNode SavedDiagram.savedLink).viewMembers members =
      (fun e => ([e], [], ())) <$> SavedDiagram.savedNode.view t) :
    (SavedDiagram.record.shape.view (.object members)).toOption =
      (fun e => ⟨[e], []⟩) <$> (SavedDiagram.savedNode.view t).toOption := by
  show (SavedDiagram.record.make <$> (lists _ _).viewMembers members).toOption = _
  rw [h]
  cases SavedDiagram.savedNode.view t <;> rfl

/-- What is viewed in the diagram is what is viewed in its entry. -/
theorem viewed? (h : IsDiagramOf entry s) (depth : Nat) :
    s.viewed? SavedDiagram.record.shape (depth + 2) =
      (fun e => ⟨[e], []⟩) <$> entry.viewed? SavedDiagram.savedNode depth := by
  cases h with
  | nodesFirst hnodes hlinks =>
    simp only [Spelling.viewed?, Spelling.value?, Spelling.memberValues?, Spelling.itemValues?,
      hnodes, hlinks]
    cases entry.value? depth with
    | none => rfl
    | some t => exact toOption_view (viewMembers_nodesFirst _ _ t)
  | linksFirst hnodes hlinks =>
    simp only [Spelling.viewed?, Spelling.value?, Spelling.memberValues?, Spelling.itemValues?,
      hnodes, hlinks]
    cases entry.value? depth with
    | none => rfl
    | some t => exact toOption_view (viewMembers_linksFirst _ _ t)

end IsDiagramOf

/-! ### An entry -/

section entry
variable {idKey idToken : List Char}

theorem key_ne_id (h : HasOnly ["name", "block_type", "properties", "position"] members)
    {depth : Nat} {values : List (String × Json)}
    (hvalues : members.mapM (Spelling.memberValue? depth) = some values) :
    ∀ v ∈ values, v.1 ≠ "id" := by
  intro v hv
  obtain ⟨m, hm, hvalue⟩ := exists_of_mem_mapM hvalues hv
  have hkey : key? m.1 = some v.1 := by
    obtain ⟨key, hkey, hvalue⟩ := Option.bind_eq_some_iff.mp hvalue
    obtain ⟨t, -, hvalue⟩ := Option.bind_eq_some_iff.mp hvalue
    cases hvalue
    exact hkey
  have hmem := h.mem hm hkey
  intro heq
  rw [heq] at hmem
  exact absurd hmem (by decide)

/-- The value of an entry is its identifier and the placement of its other members. -/
theorem viewed?_entry
    (h : HasOnly ["name", "block_type", "properties", "position"] (before ++ after))
    (hkey : key? idKey = some "id") (hid : meaning? idToken = some (.ofNat i))
    (hi : i ≤ Diagram.greatestSavedId) (depth : Nat) :
    (Spelling.object (before ++ (idKey, .scalar idToken) :: after)).viewed? SavedDiagram.savedNode
      (depth + 1) = (fun p => (⟨i⟩, p)) <$>
        (Spelling.object (before ++ after)).viewed? Placement.record.shape (depth + 1) := by
  have hmember : Spelling.memberValue? depth (idKey, .scalar idToken) =
      some ("id", .ofNat i) := by
    simp [Spelling.memberValue?, hkey, Spelling.value?, hid]
  have hview : NodeId.shape.view (.ofNat i) = .ok ⟨i⟩ :=
    NodeId.viewsBack (Nat.lt_of_le_of_lt hi (by decide))
  obtain ⟨hbefore, hafter⟩ := HasOnly.append.mp h
  rw [Spelling.viewed?, Spelling.viewed?, Spelling.value?, Spelling.value?,
    Spelling.memberValues?_eq_mapM, Spelling.memberValues?_eq_mapM, List.mapM_append,
    List.mapM_append, List.mapM_cons, hmember]
  cases hbs : before.mapM (Spelling.memberValue? depth) with
  | none => rfl
  | some bs =>
    cases has : after.mapM (Spelling.memberValue? depth) with
    | none => rfl
    | some as =>
      -- both sides see the same members once the identifier is set apart
      show (SavedDiagram.savedNode.view (.object (bs ++ ("id", .ofNat i) :: as))).toOption =
        _ <$> (Placement.record.shape.view (.object (bs ++ as))).toOption
      rw [SavedDiagram.savedNode, Record.view_entry _ _ hview (key_ne_id hbefore hbs)
        (key_ne_id hafter has)]
      cases Placement.record.shape.view (.object (bs ++ as)) <;> rfl

end entry

/-- The one node of a diagram that is read. -/
theorem SavesNode.ofText_eq_ok_iff (h : SavesNode members i s)
    (hkeys : HasOnly ["name", "block_type", "properties", "position"] members)
    (htext : Spaced s.tokens text.toList) {d : Diagram} : Diagram.ofText text = .ok d ↔
      ∃ p, (Spelling.object members).viewed? Placement.record.shape 125 = some p ∧
        d = SavedDiagram.diagram ⟨[(⟨i⟩, p)], []⟩ := by
  have hload : ∀ p, Diagram.load ⟨[(⟨i⟩, p)], []⟩ = .ok d ↔
      d = SavedDiagram.diagram ⟨[(⟨i⟩, p)], []⟩ := by
    intro p
    rw [Diagram.load_eq_ok_iff]
    refine and_iff_right ⟨by simp, by simp, ?_, nofun⟩
    rintro e he
    obtain rfl := List.mem_singleton.mp he
    exact h.id_le
  obtain ⟨before, after, idKey, idToken, rfl, hkey, hid, hs⟩ := h.exists_entry
  -- the entry stands two levels below the diagram
  rw [Diagram.ofText_eq_ok_iff h.sound hs.hasOnly htext, show maxDepth = 125 + 2 from rfl,
    hs.viewed?, viewed?_entry hkeys hkey hid h.id_le]
  cases (Spelling.object (before ++ after)).viewed? Placement.record.shape (124 + 1) with
  | none => simp
  | some p => simp [hload]

/-! ### A node by itself -/

/-- A node is what a placement with its members makes. -/
theorem viewed?_node (members : List (List Char × Spelling)) (depth : Nat) :
    (Spelling.object members).viewed? Node.record.shape depth =
      Node.ofPlacement <$> (Spelling.object members).viewed? Placement.record.shape depth := by
  cases depth with
  | zero => rfl
  | succ depth =>
    rw [Spelling.viewed?, Spelling.viewed?, Spelling.value?]
    cases Spelling.memberValues? depth members with
    | none => rfl
    | some values =>
      show (Node.record.make <$> Placement.record.fields.viewMembers values).toOption =
        Node.ofPlacement <$> (Placement.record.make <$>
          Placement.record.fields.viewMembers values).toOption
      cases Placement.record.fields.viewMembers values <;> rfl

namespace NodeMembers

/-- The fields of a node are plain on its members, where its kind is not hollow. -/
theorem plain_fields (h : NodeMembers members) (hsolid : ∀ m ∈ members, ¬HollowKind m)
    {m : List Char × Spelling} (hm : m ∈ members) {key : String} (hkey : key? m.1 = some key) :
    Node.record.fields.AtKey (fun s => s.Plain m.2) key := by
  have hsound := h.sound.member m hm
  have hmem := h.keys.mem hm hkey
  simp only [List.mem_cons, List.not_mem_nil, or_false] at hmem
  rcases hmem with rfl | rfl | rfl | rfl
  · exact Shape.plain_string hsound
  · exact Shape.plain_choice _ _ hsound fun hhollow => hsolid m hm ⟨hkey, hhollow⟩
  · exact Shape.plain_properties hsound
  · exact Position.plain_shape hsound (h.position m hm hkey)

/-- A node is read off its members if their values make a placement. -/
theorem ofText_eq_ok_iff (h : NodeMembers members) (hsolid : ∀ m ∈ members, ¬HollowKind m)
    (htext : Spaced (Spelling.object members).tokens text.toList) {n : Node} :
    Node.record.shape.ofText text = .ok n ↔
      ∃ p, (Spelling.object members).viewed? Placement.record.shape 125 = some p ∧
        n = .ofPlacement p := by
  have hplain : Node.record.shape.Plain (.object members) := by
    refine Record.plain_record (r := Node.record) Placement.decide_fields h.sound ?_ nofun
    rintro _ ⟨⟩ m hm key hkey
    exact h.plain_fields hsolid hm hkey
  have hread := hplain.ofText (Record.decides Placement.decide_fields) h.sound htext
  have hdepth : (Spelling.object members).value? maxDepth = (Spelling.object members).value? 125 :=
    Spelling.value?_of_depth_le _ (h.depth_le.trans (by decide)) h.depth_le
  rw [viewed?_node, Spelling.viewed?, hdepth] at hread
  rw [← toOption_eq_some_iff, hread]
  exact Option.map_eq_some_iff.trans (exists_congr fun p => and_congr_right' eq_comm)

end NodeMembers

/-! ### Kinds over an empty object -/

theorem Json.Spelling.filled_cases (s : Spelling) :
    (∃ key, s = .object [(key, .object [])] ∧
      s.filled = .object [(key, .scalar ['n', 'u', 'l', 'l'])]) ∨
    ¬Shape.Hollow s ∧ s.filled = s := by
  by_cases h : Shape.Hollow s
  · obtain ⟨key, rfl⟩ := h
    exact .inl ⟨key, rfl, rfl⟩
  · refine .inr ⟨h, ?_⟩
    unfold filled
    split
    · exact absurd ⟨_, rfl⟩ h
    · rfl

theorem Json.Spelling.not_hollow_filled (s : Spelling) : ¬Shape.Hollow s.filled := by
  rcases s.filled_cases with ⟨key, -, hfilled⟩ | ⟨hsolid, hfilled⟩
  · rw [hfilled]
    rintro ⟨_, ⟨⟩⟩
  · rwa [hfilled]

theorem Json.Spelling.Sound.filled (h : s.Sound) : s.filled.Sound := by
  rcases s.filled_cases with ⟨key, rfl, hfilled⟩ | ⟨-, hfilled⟩
  · have hkey : StringToken key := h.key (key, .object []) List.mem_cons_self
    rw [hfilled]
    refine .object (List.forall_mem_singleton.mpr hkey) ?_
    exact List.forall_mem_singleton.mpr (.scalar .null)
  · rwa [hfilled]

theorem Json.Spelling.depth_filled_le (s : Spelling) : s.filled.depth ≤ s.depth := by
  rcases s.filled_cases with ⟨key, rfl, hfilled⟩ | ⟨-, hfilled⟩
  · rw [hfilled]
    simp [depth, depthMembers]
  · rw [hfilled]

/-- An empty object and `null` under the key of a kind are viewed alike. -/
theorem viewed?_kind_filled (s : Spelling) (depth : Nat) :
    s.filled.viewed? BlockKind.shape (depth + 2) = s.viewed? BlockKind.shape (depth + 2) := by
  rcases s.filled_cases with ⟨key, rfl, hfilled⟩ | ⟨-, hfilled⟩
  · rw [hfilled]
    unfold Spelling.viewed? BlockKind.shape
    simp only [Spelling.value?, Spelling.memberValues?]
    cases key? key with
    | none => rfl
    | some k =>
      exact (Shape.view_choice_member _ _ k .null).trans
        (Shape.view_choice_member _ _ k (.object [])).symm
  · rw [hfilled]

section fillKind
variable (m : List Char × Spelling)

theorem fillKind_key : (fillKind m).1 = m.1 := by
  unfold fillKind
  split <;> rfl

theorem fillKind_of_not_kind {m : List Char × Spelling} (h : key? m.1 ≠ some "block_type") :
    fillKind m = m := if_neg h

theorem fillKind_of_kind {m : List Char × Spelling} (h : key? m.1 = some "block_type") :
    fillKind m = (m.1, m.2.filled) := if_pos h

theorem not_hollowKind_fillKind : ¬HollowKind (fillKind m) := by
  rintro ⟨hkey, hhollow⟩
  rw [fillKind_key] at hkey
  rw [fillKind_of_kind hkey] at hhollow
  exact m.2.not_hollow_filled hhollow

theorem sound_fillKind {m : List Char × Spelling} (h : m.2.Sound) : (fillKind m).2.Sound := by
  by_cases hkey : key? m.1 = some "block_type"
  · rw [fillKind_of_kind hkey]
    exact h.filled
  · rwa [fillKind_of_not_kind hkey]

theorem depth_fillKind_le : (fillKind m).2.depth ≤ m.2.depth := by
  by_cases hkey : key? m.1 = some "block_type"
  · rw [fillKind_of_kind hkey]
    exact m.2.depth_filled_le
  · rw [fillKind_of_not_kind hkey]

/-- Both members fill the field of the kind alike. -/
theorem fillMember?_fillKind (depth : Nat) (slots : Slots Placement.record.types) :
    Placement.record.fields.fillMember? (depth + 2) slots (fillKind m) =
      Placement.record.fields.fillMember? (depth + 2) slots m := by
  by_cases hkey : key? m.1 = some "block_type"
  · have hknown : Placement.record.fields.AtKey (fun _ => True) "block_type" := trivial
    have hfill : ∀ s : Spelling, Placement.record.fields.fillMember? (depth + 2) slots (m.1, s) =
        Placement.record.fields.take? (fun shape => s.viewed? shape (depth + 2)) "block_type"
          slots := fun s => Fields.fillMember?_eq (m := (m.1, s)) hkey hknown _ _
    rw [fillKind_of_kind hkey, hfill]
    refine Eq.trans (Fields.take?_congr ?_ slots) (hfill m.2).symm
    exact viewed?_kind_filled m.2 depth
  · rw [fillKind_of_not_kind hkey]

end fillKind

theorem depthMembers_fillKind_le (members : List (List Char × Spelling)) :
    Spelling.depthMembers (members.map fillKind) ≤ Spelling.depthMembers members := by
  induction members with
  | nil => exact Nat.le_refl _
  | cons m members ih =>
    have hm := depth_fillKind_le m
    simp only [List.map_cons, Spelling.depthMembers]
    omega

/-- With its kind filled a node is viewed as it was. -/
theorem viewed?_fillKind (members : List (List Char × Spelling)) (depth : Nat) :
    (Spelling.object (members.map fillKind)).viewed? Placement.record.shape (depth + 3) =
      (Spelling.object members).viewed? Placement.record.shape (depth + 3) := by
  rw [Record.viewed?_object, Record.viewed?_object, List.foldlM_map]
  simp only [fillMember?_fillKind]

namespace NodeMembers

theorem fillKind (h : NodeMembers members) : NodeMembers (members.map fillKind) where
  sound := by
    refine .object (List.forall_mem_map.mpr fun m hm => ?_)
      (List.forall_mem_map.mpr fun m hm => ?_)
    · rw [fillKind_key]
      exact h.sound.key m hm
    · exact sound_fillKind (h.sound.member m hm)
  keys := List.forall_mem_map.mpr fun m hm => by
    rw [fillKind_key]
    exact h.keys m hm
  position := List.forall_mem_map.mpr fun m hm hkey => by
    rw [fillKind_key] at hkey
    have hkind : key? m.1 ≠ some "block_type" := by
      rw [hkey]
      decide
    rw [fillKind_of_not_kind hkind]
    exact h.position m hm hkey
  depth_le := (Nat.succ_le_succ (depthMembers_fillKind_le members)).trans h.depth_le

/-- A kind that stands as a key over an empty object is refused where it is read in passing. -/
theorem ofText_ne_ok (h : NodeMembers members) (hhollow : ∃ m ∈ members, HollowKind m)
    (htext : Spaced (Spelling.object members).tokens text.toList) (n : Node) :
    Node.record.shape.ofText text ≠ .ok n := by
  obtain ⟨m, hm, hkey, key, hkind⟩ := hhollow
  have hsound := h.sound.member m hm
  have hsense : ∀ depth, (BlockKind.shape.read depth).sense m.2 = none := by
    intro depth
    rw [BlockKind.shape, Shape.sense_choice _ _ hsound, hkind]
    cases depth with
    | zero => rfl
    | succ depth =>
      have hnothing : Shape.nothing? depth (.object []) = none :=
        Shape.nothing?_eq_none (by cases depth <;> nofun)
      simp [Shape.chosen?, hnothing]
  have hnone : ∀ depth slots, Node.record.fields.takeMember? depth slots m = none := by
    intro depth slots
    have hknown : Node.record.fields.AtKey (fun shape => (shape.read depth).sense m.2 = none)
        "block_type" := hsense depth
    rw [Fields.takeMember?, hkey]
    exact Fields.take?_eq_none hknown slots
  have hread : (Node.record.shape.ofText text).toOption = none := by
    rw [(Record.decides (r := Node.record) Placement.decide_fields).ofText h.sound htext,
      Record.sense_record (r := Node.record) Placement.decide_fields h.sound]
    show Node.record.make <$> Node.record.fields.takeMembers? _ members = none
    rw [Fields.takeMembers?, foldlM_eq_none hm (hnone _)]
    rfl
  intro hok
  rw [hok] at hread
  cases hread

end NodeMembers

/-! ### Both ways of reading -/

/-- A node reads alike in a diagram with other members, if these have the same value for it. -/
theorem NodeMembers.readsAlike {others : List (List Char × Spelling)} (h : NodeMembers others)
    (hsolid : ∀ m ∈ others, ¬HollowKind m)
    (htext : Spaced (Spelling.object others).tokens text.toList)
    (hviewed : (Spelling.object others).viewed? Placement.record.shape 125 =
      (Spelling.object members).viewed? Placement.record.shape 125)
    (hmembers : NodeMembers members) (hs : SavesNode members i s)
    (hdiagram : Spaced s.tokens diagramText.toList) : Node.ReadsAlike i text diagramText := by
  have hget : ∀ p, (SavedDiagram.diagram ⟨[(⟨i⟩, p)], []⟩).node? ⟨i⟩ = some (.ofPlacement p) := by
    intro p
    simp [Diagram.node?, SavedDiagram.diagram, Table.ofList]
  constructor
  · intro n hn
    obtain ⟨p, hp, rfl⟩ := (h.ofText_eq_ok_iff hsolid htext).mp hn
    rw [hviewed] at hp
    exact ⟨_, (hs.ofText_eq_ok_iff hmembers.keys hdiagram).mpr ⟨p, hp, rfl⟩, hget p⟩
  · intro d hd
    obtain ⟨p, hp, rfl⟩ := (hs.ofText_eq_ok_iff hmembers.keys hdiagram).mp hd
    rw [← hviewed] at hp
    exact ⟨_, (h.ofText_eq_ok_iff hsolid htext).mpr ⟨p, hp, rfl⟩, hget p⟩

/-- **A node reads the same by itself and inside a saved diagram**, whatever its members are and
wherever the identifier stands among them, unless its kind stands as a key over an empty object.
Such a node is refused by itself. Inside a diagram it reads as the node does that has `null` in the
place of the empty object. -/
theorem Node.reads_as_entry (h : NodeMembers members) (hs : SavesNode members i s)
    (hdiagram : Spaced s.tokens diagramText.toList) :
    ((∀ m ∈ members, ¬HollowKind m) → ∀ text : String,
      Spaced (Spelling.object members).tokens text.toList →
        Node.ReadsAlike i text diagramText) ∧
    ((∃ m ∈ members, HollowKind m) →
      (∀ text : String, Spaced (Spelling.object members).tokens text.toList →
        ∀ n, Node.record.shape.ofText text ≠ .ok n) ∧
      ∀ text : String, Spaced (Spelling.object (members.map fillKind)).tokens text.toList →
        Node.ReadsAlike i text diagramText) := by
  refine ⟨fun hsolid text htext => ?_, fun hhollow => ⟨fun text htext => ?_, fun text htext => ?_⟩⟩
  · exact h.readsAlike hsolid htext rfl h hs hdiagram
  · exact h.ofText_ne_ok hhollow htext
  · have hsolid : ∀ m ∈ members.map fillKind, ¬HollowKind m :=
      List.forall_mem_map.mpr fun m _ => not_hollowKind_fillKind m
    exact h.fillKind.readsAlike hsolid htext (viewed?_fillKind members 122) h hs hdiagram

/-- A node whose kind stands as a key, which has some content. -/
def keyedNode (content : Json) : List (String × Json) :=
  [("name", .string "a"), ("block_type", .object [("producer", content)])]

/-- A saved diagram with that node. -/
def keyedDiagram (content : Json) : Json :=
  .object [("nodes", .array [.object (("id", .ofNat 0) :: keyedNode content)]),
    ("links", .array [])]

theorem nodeMembers_keyedNode :
    NodeMembers (Spelling.ofMembers (keyedNode (.object []))) where
  sound := Spelling.sound_ofJson (.object (keyedNode (.object [])))
  keys := List.forall_mem_cons.mpr ⟨⟨"name", by decide, by decide⟩,
    List.forall_mem_singleton.mpr ⟨"block_type", by decide, by decide⟩⟩
  position := List.forall_mem_cons.mpr ⟨fun hkey => absurd hkey (by decide),
    List.forall_mem_singleton.mpr fun hkey => absurd hkey (by decide)⟩
  depth_le := by decide

theorem hollowKind_keyedNode :
    ∃ m ∈ Spelling.ofMembers (keyedNode (.object [])), HollowKind m :=
  ⟨_, List.mem_cons_of_mem _ List.mem_cons_self, by decide, _, rfl⟩

theorem savesNode_keyedDiagram (content : Json) :
    SavesNode (Spelling.ofMembers (keyedNode content)) 0
      (Spelling.ofJson (keyedDiagram content)) where
  sound := Spelling.sound_ofJson _
  id_le := by decide
  exists_entry := ⟨[], _, quote "id", ['0'], rfl, by decide, rfl,
    .nodesFirst (by decide) (by decide)⟩

/-- Inside a diagram the empty object in the kind is read. -/
theorem exists_ofText_keyedDiagram :
    ∃ d, Diagram.ofText (keyedDiagram (.object [])).compact = .ok d := by
  have hviewed : (Spelling.object (Spelling.ofMembers (keyedNode (.object [])))).viewed?
      Placement.record.shape 125 = some { name := "a", kind := .producer } := by rfl
  exact ⟨_, ((savesNode_keyedDiagram _).ofText_eq_ok_iff nodeMembers_keyedNode.keys
    (spaced_compact _)).mpr ⟨_, hviewed, rfl⟩⟩

/-- A node with an empty object in its kind is read inside a diagram only. -/
theorem not_readsAlike_keyedNode :
    NodeMembers (Spelling.ofMembers (keyedNode (.object []))) ∧
    Spaced (Spelling.object (Spelling.ofMembers (keyedNode (.object [])))).tokens
      (Json.object (keyedNode (.object []))).compact.toList ∧
    SavesNode (Spelling.ofMembers (keyedNode (.object []))) 0
      (Spelling.ofJson (keyedDiagram (.object []))) ∧
    Spaced (Spelling.ofJson (keyedDiagram (.object []))).tokens
      (keyedDiagram (.object [])).compact.toList ∧
    ¬Node.ReadsAlike 0 (Json.object (keyedNode (.object []))).compact
      (keyedDiagram (.object [])).compact := by
  have htext := spaced_compact (.object (keyedNode (.object [])))
  refine ⟨nodeMembers_keyedNode, htext, savesNode_keyedDiagram _, spaced_compact _, ?_⟩
  rintro ⟨-, halike⟩
  obtain ⟨d, hd⟩ := exists_ofText_keyedDiagram
  obtain ⟨n, hn, -⟩ := halike d hd
  exact nodeMembers_keyedNode.ofText_ne_ok hollowKind_keyedNode htext n hn

/-- Inside a diagram it is the node that has `null` there. -/
theorem readsAlike_keyedNode_null :
    NodeMembers (Spelling.ofMembers (keyedNode (.object []))) ∧
    SavesNode (Spelling.ofMembers (keyedNode (.object []))) 0
      (Spelling.ofJson (keyedDiagram (.object []))) ∧
    (∀ n, Node.record.shape.ofText (Json.object (keyedNode (.object []))).compact ≠ .ok n) ∧
    Node.ReadsAlike 0 (Json.object (keyedNode .null)).compact
      (keyedDiagram (.object [])).compact := by
  have htext := spaced_compact (.object (keyedNode (.object [])))
  have hnull := spaced_compact (.object (keyedNode .null))
  obtain ⟨-, hhollow⟩ := Node.reads_as_entry nodeMembers_keyedNode
    (savesNode_keyedDiagram (.object [])) (spaced_compact _)
  obtain ⟨hrefused, halike⟩ := hhollow hollowKind_keyedNode
  exact ⟨nodeMembers_keyedNode, savesNode_keyedDiagram _, hrefused _ htext, halike _ hnull⟩

end PipelineCanvas
