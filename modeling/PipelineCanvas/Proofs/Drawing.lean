import PipelineCanvas.Canvas
import PipelineCanvas.Proofs.Edits
/-! # The diagram of a canvas

A canvas is **well drawn** when its boxes have different identifiers and every arrow leads from a
box that emits data to one that takes data in (`Canvas.WellDrawn`). The first loop makes nodes of
the boxes and keeps a table of the identifiers that it has met, by which the second loop finds the
ends of the arrows (`Knows`). Once the ends are found nothing is left to go wrong but that a box has
no port in the direction: the table gives only nodes that are stored, a node has the ports of its
kind, and the next link identifier is free. So `Canvas.Breaks` lists all that can be wrong with a
canvas, in the order in which it is found.

The invariant of both loops is that the diagram **depicts** what has been gone through so far
(`Depicts`): the boxes before this one have their nodes, numbered as they are listed, and the arrows
before this one have their links. It says more than that the loops do not fail. At the end it is
what the diagram of the canvas is, node by node and link by link, so the second half of the main
theorem is the invariant itself, taken for the whole canvas (`Canvas.toDiagram_spec`).

Identifiers of boxes are any strings, and so are the names of blocks. An identifier is looked for
among all boxes, also those that are listed behind the arrow in the text, as all boxes come first.
That arrows repeat each other, or lead from a box to itself, is nothing that is asked about here: it
is drawn as it stands, and whether a source comes of it is decided elsewhere. -/
namespace PipelineCanvas

theorem Node.portIndex?_output_eq_none_iff {p : Placement} :
    (ofPlacement p).portIndex? .output = none ↔ p.kind = .consumer := by
  have hports : (ofPlacement p).ports = p.kind.ports := rfl
  rw [portIndex?, hports]
  cases p.kind <;> decide

theorem Node.portIndex?_input_eq_none_iff {p : Placement} :
    (ofPlacement p).portIndex? .input = none ↔ p.kind = .producer := by
  have hports : (ofPlacement p).ports = p.kind.ports := rfl
  rw [portIndex?, hports]
  cases p.kind <;> decide

namespace Canvas
variable {boxes : List Box} {arrows : List Arrow} {d : Diagram} {names : Names}

/-- The box listed at the index has the identifier. -/
def Named (boxes : List Box) (id : String) (i : Nat) (box : Box) : Prop :=
  boxes[i]? = some box ∧ box.id = id

/-- The arrow leads from a box that emits data to one that takes data in. -/
def Fits (boxes : List Box) (arrow : Arrow) : Prop :=
  (∃ i box, Named boxes arrow.source i box ∧ box.placement.kind ≠ .consumer) ∧
    ∃ i box, Named boxes arrow.target i box ∧ box.placement.kind ≠ .producer

/-- The boxes have different identifiers, and all arrows fit them. -/
def WellDrawn (c : Canvas) : Prop :=
  (c.boxes.map Box.id).Nodup ∧ ∀ arrow ∈ c.arrows, Fits c.boxes arrow

/-- What is wrong with an arrow between boxes that have different identifiers. -/
inductive Misses (boxes : List Box) (arrow : Arrow) : CanvasError → Prop
  /-- The end where the arrow starts is looked for first. -/
  | noSource (h : ∀ i box, ¬ Named boxes arrow.source i box) :
    Misses boxes arrow (.noSuchBox arrow.source)
  /-- The other end is looked for before the kinds are looked at. -/
  | noTarget {i : Nat} {box : Box} (source : Named boxes arrow.source i box)
    (h : ∀ k other, ¬ Named boxes arrow.target k other) :
    Misses boxes arrow (.noSuchBox arrow.target)
  /-- The box at the start has nothing to send. -/
  | noOutput {i k : Nat} {box other : Box} (source : Named boxes arrow.source i box)
    (target : Named boxes arrow.target k other) (h : box.placement.kind = .consumer) :
    Misses boxes arrow (.edit (.lacksPort ⟨i⟩ .output))
  /-- The box at the end takes nothing in, while the one at the start is in order. -/
  | noInput {i k : Nat} {box other : Box} (source : Named boxes arrow.source i box)
    (emits : box.placement.kind ≠ .consumer) (target : Named boxes arrow.target k other)
    (h : other.placement.kind = .producer) : Misses boxes arrow (.edit (.lacksPort ⟨k⟩ .input))

/-- What is wrong with a canvas: the first box whose identifier has been met, or else what is wrong
with the first arrow that does not fit. -/
inductive Breaks (c : Canvas) : CanvasError → Prop
  /-- Boxes come before arrows, so a repeated identifier is found whatever the arrows are. -/
  | repeatedBox {before after : List Box} {box : Box} (h : c.boxes = before ++ box :: after)
    (distinct : (before.map Box.id).Nodup) (met : box.id ∈ before.map Box.id) :
    Breaks c (.repeatedBox box.id)
  /-- All boxes are in order, and so are the arrows before this one. -/
  | arrow {before after : List Arrow} {arrow : Arrow} {error : CanvasError}
    (distinct : (c.boxes.map Box.id).Nodup) (h : c.arrows = before ++ arrow :: after)
    (fit : ∀ a ∈ before, Fits c.boxes a) (misses : Misses c.boxes arrow error) : Breaks c error

/-- The link runs from the out-port of the box that the arrow starts from to the in-port of the
box that it points to. -/
def Runs (boxes : List Box) (d : Diagram) (arrow : Arrow) (link : Link) : Prop :=
  ∃ i box k other, Named boxes arrow.source i box ∧ Named boxes arrow.target k other ∧
    d.port? ⟨i⟩ .output = some link.source ∧ d.port? ⟨k⟩ .input = some link.target

/-- The diagram has a node for each box and a link for each arrow, numbered as they are listed, and
nothing else. -/
structure Depicts (boxes : List Box) (arrows : List Arrow) (d : Diagram) : Prop where
  /-- The node of a box has the number of the box in the list. -/
  node?_eq : ∀ i, d.node? ⟨i⟩ = boxes[i]?.map fun box => .ofPlacement box.placement
  freshNode_eq : d.freshNode = boxes.length
  /-- The link of an arrow has the number of the arrow in the list. -/
  runs : ∀ j arrow, arrows[j]? = some arrow → ∃ link, d.link? ⟨j⟩ = some link ∧
    Runs boxes d arrow link
  /-- There are no other links. -/
  link?_eq_none : ∀ j, arrows.length ≤ j → d.link? ⟨j⟩ = none
  freshLink_eq : d.freshLink = arrows.length

/-! ### The boxes -/

/-- The table gives the node of each box by the identifier of the box, and no other. -/
def Knows (boxes : List Box) (names : Names) : Prop :=
  ∀ id i, names.get? id = some ⟨i⟩ ↔ ∃ box, Named boxes id i box

theorem depicts_empty : Depicts [] [] ∅ where
  node?_eq _ := rfl
  freshNode_eq := rfl
  runs _ _ h := nomatch h
  link?_eq_none _ _ := rfl
  freshLink_eq := rfl

theorem knows_empty : Knows [] ∅ := fun _ _ => ⟨nofun, fun ⟨_, h, _⟩ => nomatch h⟩

theorem exists_named_iff {id : String} :
    (∃ i box, Named boxes id i box) ↔ id ∈ boxes.map Box.id := by
  rw [List.mem_map]
  constructor
  · rintro ⟨i, box, hbox, hid⟩
    exact ⟨box, List.mem_of_getElem? hbox, hid⟩
  · rintro ⟨box, hmem, hid⟩
    obtain ⟨i, hbox⟩ := List.mem_iff_getElem?.mp hmem
    exact ⟨i, box, hbox, hid⟩

theorem Knows.contains_iff (h : Knows boxes names) {id : String} :
    names.contains id = true ↔ id ∈ boxes.map Box.id := by
  rw [Table.contains_iff, ← exists_named_iff]
  constructor
  · rintro ⟨⟨i⟩, hid⟩
    exact ⟨i, (h id i).mp hid⟩
  · rintro ⟨i, hid⟩
    exact ⟨⟨i⟩, (h id i).mpr hid⟩

theorem getElem?_snoc {α : Type} (l : List α) (a : α) (i : Nat) :
    (l ++ [a])[i]? = if i = l.length then some a else l[i]? := by
  rcases Nat.lt_trichotomy i l.length with hi | rfl | hi
  · rw [List.getElem?_append_left hi, if_neg (Nat.ne_of_lt hi)]
  · rw [List.getElem?_concat_length, if_pos rfl]
  · rw [if_neg (Nat.ne_of_gt hi), List.getElem?_eq_none (Nat.le_of_lt hi), List.getElem?_eq_none]
    rw [List.length_append, List.length_singleton]
    exact hi

theorem named_snoc {box other : Box} {id : String} {i : Nat} :
    Named (boxes ++ [box]) id i other ↔
      Named boxes id i other ∨ i = boxes.length ∧ box = other ∧ box.id = id := by
  unfold Named
  rw [getElem?_snoc]
  by_cases hi : i = boxes.length
  · have hnone : boxes[i]? = none := List.getElem?_eq_none (Nat.le_of_eq hi.symm)
    rw [if_pos hi, hnone, Option.some.injEq]
    constructor
    · rintro ⟨rfl, hid⟩
      exact .inr ⟨hi, rfl, hid⟩
    · rintro (⟨⟨⟩, -⟩ | ⟨-, rfl, hid⟩)
      exact ⟨rfl, hid⟩
  · rw [if_neg hi]
    exact ⟨.inl, fun h => h.resolve_right fun hlast => hi hlast.1⟩

/-- The step of the first loop. Nothing but the new node is seen under the new number, and under the
others nothing changes. -/
theorem Depicts.place (hd : Depicts boxes [] d) (box : Box) :
    Depicts (boxes ++ [box]) [] (d.place (.ofPlacement box.placement)).2 where
  node?_eq i := by
    show (d.nodes.insert ⟨d.freshNode⟩ (.ofPlacement box.placement)).get? ⟨i⟩ = _
    rw [hd.freshNode_eq, getElem?_snoc]
    by_cases hi : i = boxes.length
    · rw [if_pos hi, hi, Table.get?_insert_self]
      rfl
    · have hne : (⟨i⟩ : NodeId) ≠ ⟨boxes.length⟩ := fun heq => hi (congrArg NodeId.index heq)
      rw [if_neg hi, Table.get?_insert_of_ne _ hne]
      exact hd.node?_eq i
  freshNode_eq := by
    rw [List.length_append, List.length_singleton, ← hd.freshNode_eq]
    rfl
  runs _ _ h := nomatch h
  link?_eq_none j hj := hd.link?_eq_none j hj
  freshLink_eq := hd.freshLink_eq

/-- The table is kept in step with the boxes. That the identifier is new is what makes the table
answer for one box only. -/
theorem Knows.insert (hn : Knows boxes names) {box : Box} (fresh : box.id ∉ boxes.map Box.id) :
    Knows (boxes ++ [box]) (names.insert box.id ⟨boxes.length⟩) := by
  intro id i
  simp only [named_snoc]
  rw [Table.get?_insert]
  by_cases hid : id = box.id
  · subst id
    have hnew : ¬ ∃ i other, Named boxes box.id i other := mt exists_named_iff.mp fresh
    rw [if_pos rfl, Option.some.injEq, NodeId.mk.injEq]
    constructor
    · rintro rfl
      exact ⟨box, .inr ⟨rfl, rfl, rfl⟩⟩
    · rintro ⟨other, hother | ⟨rfl, -, -⟩⟩
      · exact absurd ⟨i, other, hother⟩ hnew
      · rfl
  · rw [if_neg hid, hn id i]
    constructor
    · rintro ⟨other, hother⟩
      exact ⟨other, .inl hother⟩
    · rintro ⟨other, hother | ⟨-, -, heq⟩⟩
      · exact ⟨other, hother⟩
      · exact absurd heq.symm hid

/-- A box with a new identifier is added to diagram and table together. -/
theorem addBox_of_fresh (hd : Depicts boxes [] d) (hn : Knows boxes names) {box : Box}
    (fresh : box.id ∉ boxes.map Box.id) : ∃ r, addBox d names box = .ok r ∧
      Depicts (boxes ++ [box]) [] r.1 ∧ Knows (boxes ++ [box]) r.2 := by
  have hnot : names.contains box.id ≠ true := mt hn.contains_iff.mp fresh
  have hadd : addBox d names box = .ok ((d.place (.ofPlacement box.placement)).2,
      names.insert box.id ⟨d.freshNode⟩) := by
    rw [addBox, if_neg hnot]
    rfl
  refine ⟨_, hadd, hd.place box, ?_⟩
  rw [hd.freshNode_eq]
  exact hn.insert fresh

/-- A box whose identifier is in the table is refused before anything is stored. -/
theorem addBox_of_met (hn : Knows boxes names) {box : Box} (met : box.id ∈ boxes.map Box.id) :
    addBox d names box = .error (.repeatedBox box.id) := by
  rw [addBox, if_pos (hn.contains_iff.mpr met)]
  rfl

/-- The first loop makes the nodes, as long as no identifier comes again. -/
theorem exists_boxes (distinct : (boxes.map Box.id).Nodup) :
    ∃ r : Diagram × Names, boxes.foldlM (fun (d, names) box => addBox d names box) (∅, ∅) = .ok r ∧
      Depicts boxes [] r.1 ∧ Knows boxes r.2 := by
  refine foldlM_reaches (P := fun done (r : Diagram × Names) =>
    Depicts done [] r.1 ∧ Knows done r.2) ⟨depicts_empty, knows_empty⟩ ?_
  rintro done box ⟨d, names⟩ hdone ⟨hd, hn⟩
  have hnodup : ((done ++ [box]).map Box.id).Nodup := distinct.sublist (hdone.sublist.map Box.id)
  rw [List.map_append, List.nodup_append] at hnodup
  refine addBox_of_fresh hd hn fun hmem => ?_
  exact hnodup.2.2 _ hmem _ List.mem_cons_self rfl

/-! ### The arrows -/

/-- An end of an arrow is found under the number of its box. -/
theorem Knows.resolve_eq (hn : Knows boxes names) {id : String} {i : Nat} {box : Box}
    (h : Named boxes id i box) : resolve names id = .ok ⟨i⟩ := by
  rw [resolve, (hn id i).mpr ⟨box, h⟩]
  rfl

/-- What the table does not know no box is named. -/
theorem Knows.resolve_eq_error (hn : Knows boxes names) {id : String}
    (h : ∀ i box, ¬ Named boxes id i box) : resolve names id = .error (.noSuchBox id) := by
  have hnone : names.get? id = none := by
    refine Option.eq_none_iff_forall_ne_some.mpr fun node hnode => ?_
    obtain ⟨box, hbox⟩ := (hn id node.index).mp hnode
    exact h _ _ hbox
  rw [resolve, hnone]
  rfl

/-- Where both ends are found an arrow is drawn by joining their nodes. -/
theorem addArrow_of_named (hn : Knows boxes names) {arrow : Arrow} {i k : Nat} {box other : Box}
    (source : Named boxes arrow.source i box) (target : Named boxes arrow.target k other) :
    addArrow names d arrow = Prod.snd <$> (d.join ⟨i⟩ ⟨k⟩).mapError .edit := by
  rw [addArrow, hn.resolve_eq source, hn.resolve_eq target]
  show ((d.join ⟨i⟩ ⟨k⟩).mapError CanvasError.edit >>= fun r => pure r.2) = _
  exact bind_pure_comp Prod.snd _

section
variable {id : String} {i : Nat} {box : Box}

theorem Depicts.node?_of_named (hd : Depicts boxes arrows d) (h : Named boxes id i box) :
    d.node? ⟨i⟩ = some (.ofPlacement box.placement) := by
  rw [hd.node?_eq, h.1]
  rfl

/-- The ports of a node are those of its box, as nothing changes a node after it is placed. -/
theorem Depicts.port?_eq (hd : Depicts boxes arrows d) (h : Named boxes id i box)
    (direction : Direction) : d.port? ⟨i⟩ direction =
      ((Node.ofPlacement box.placement).portIndex? direction).map fun port => ⟨⟨i⟩, port⟩ := by
  rw [Diagram.port?, hd.node?_of_named h, Option.map_eq_bind]
  rfl

theorem Depicts.port?_output_eq_none_iff (hd : Depicts boxes arrows d)
    (h : Named boxes id i box) : d.port? ⟨i⟩ .output = none ↔ box.placement.kind = .consumer := by
  rw [hd.port?_eq h, Option.map_eq_none_iff, Node.portIndex?_output_eq_none_iff]

theorem Depicts.port?_input_eq_none_iff (hd : Depicts boxes arrows d)
    (h : Named boxes id i box) : d.port? ⟨i⟩ .input = none ↔ box.placement.kind = .producer := by
  rw [hd.port?_eq h, Option.map_eq_none_iff, Node.portIndex?_input_eq_none_iff]

end

/-- An arrow that does not fit is refused for what is wrong with it. -/
theorem Depicts.addArrow_of_misses (hd : Depicts boxes arrows d) (hn : Knows boxes names)
    {arrow : Arrow} {error : CanvasError} (h : Misses boxes arrow error) :
    addArrow names d arrow = .error error := by
  cases h with
  | noSource h =>
    rw [addArrow, hn.resolve_eq_error h]
    rfl
  | noTarget source h =>
    rw [addArrow, hn.resolve_eq source, hn.resolve_eq_error h]
    rfl
  | noOutput source target h =>
    have lacks := Diagram.portOf_eq_error (hd.node?_of_named source)
      ((hd.port?_output_eq_none_iff source).mpr h)
    rw [addArrow_of_named hn source target, Diagram.join, lacks]
    rfl
  | @noInput i k box other source emits target h =>
    obtain ⟨port, hport⟩ :=
      Option.ne_none_iff_exists'.mp (mt (hd.port?_output_eq_none_iff source).mp emits)
    have lacks := Diagram.portOf_eq_error (hd.node?_of_named target)
      ((hd.port?_input_eq_none_iff target).mpr h)
    rw [addArrow_of_named hn source target, Diagram.join, Diagram.portOf_eq_ok_iff.mpr hport, lacks]
    rfl

/-- The link of an arrow goes under the next identifier. -/
theorem Depicts.link (hd : Depicts boxes arrows d) {arrow : Arrow} {link : Link}
    (hruns : Runs boxes d arrow link) : Depicts boxes (arrows ++ [arrow]) (d.linked link) where
  node?_eq := hd.node?_eq
  freshNode_eq := hd.freshNode_eq
  runs j a ha := by
    show ∃ l, (d.links.insert ⟨d.freshLink⟩ link).get? ⟨j⟩ = some l ∧ Runs boxes d a l
    rw [hd.freshLink_eq]
    rw [getElem?_snoc] at ha
    by_cases hj : j = arrows.length
    · rw [if_pos hj] at ha
      cases ha
      rw [hj, Table.get?_insert_self]
      exact ⟨link, rfl, hruns⟩
    · have hne : (⟨j⟩ : LinkId) ≠ ⟨arrows.length⟩ := fun heq => hj (congrArg LinkId.index heq)
      rw [if_neg hj] at ha
      rw [Table.get?_insert_of_ne _ hne]
      exact hd.runs j a ha
  link?_eq_none j hj := by
    show (d.links.insert ⟨d.freshLink⟩ link).get? ⟨j⟩ = none
    rw [List.length_append, List.length_singleton] at hj
    have hne : (⟨j⟩ : LinkId) ≠ ⟨arrows.length⟩ := fun heq =>
      Nat.ne_of_gt hj (congrArg LinkId.index heq)
    rw [hd.freshLink_eq, Table.get?_insert_of_ne _ hne]
    exact hd.link?_eq_none j (Nat.le_of_lt hj)
  freshLink_eq := by
    rw [List.length_append, List.length_singleton, ← hd.freshLink_eq]
    rfl

/-- The step of the second loop: an arrow that fits becomes the next link. -/
theorem Depicts.addArrow_of_fits (hd : Depicts boxes arrows d) (hn : Knows boxes names)
    {arrow : Arrow} (fits : Fits boxes arrow) :
    ∃ e, addArrow names d arrow = .ok e ∧ Depicts boxes (arrows ++ [arrow]) e := by
  obtain ⟨⟨i, box, source, emits⟩, k, other, target, takes⟩ := fits
  obtain ⟨s, hs⟩ :=
    Option.ne_none_iff_exists'.mp (mt (hd.port?_output_eq_none_iff source).mp emits)
  obtain ⟨t, ht⟩ :=
    Option.ne_none_iff_exists'.mp (mt (hd.port?_input_eq_none_iff target).mp takes)
  have free : d.link? ⟨d.freshLink⟩ = none := hd.link?_eq_none _ (Nat.le_of_eq hd.freshLink_eq.symm)
  refine ⟨d.linked ⟨s, t⟩, ?_, hd.link ⟨i, box, k, other, source, target, hs, ht⟩⟩
  rw [addArrow_of_named hn source target, Diagram.join_of_port? free hs ht]
  rfl

/-- The second loop makes the links, as long as every arrow fits. -/
theorem Depicts.exists_arrows (hd : Depicts boxes [] d) (hn : Knows boxes names)
    (fit : ∀ arrow ∈ arrows, Fits boxes arrow) :
    ∃ e, arrows.foldlM (addArrow names) d = .ok e ∧ Depicts boxes arrows e := by
  refine foldlM_reaches (P := Depicts boxes) hd fun {done arrow d} hdone hd => ?_
  exact hd.addArrow_of_fits hn (fit arrow (hdone.subset List.mem_concat_self))

/-! ### What is wrong with a canvas -/

/-- What is so at the beginning of a list and not at its end ceases to be so with one of its
items. -/
theorem exists_first {α : Type} {P : List α → Prop} {l : List α} (hnil : P []) (h : ¬ P l) :
    ∃ before a after, l = before ++ a :: after ∧ P before ∧ ¬ P (before ++ [a]) := by
  induction l using List.reverseRecOn with
  | nil => exact absurd hnil h
  | append_singleton l a ih =>
    by_cases hl : P l
    · exact ⟨l, a, [], rfl, hl, h⟩
    · obtain ⟨before, b, after, rfl, hbefore, hb⟩ := ih hl
      refine ⟨before, b, after ++ [a], ?_, hbefore, hb⟩
      rw [List.append_assoc, List.cons_append]

/-- What `Misses` lists is complete: of an arrow that does not fit one of its cases holds. -/
theorem exists_misses_of_not_fits {arrow : Arrow} (h : ¬ Fits boxes arrow) :
    ∃ error, Misses boxes arrow error := by
  by_cases hsource : ∃ i box, Named boxes arrow.source i box
  · obtain ⟨i, box, source⟩ := hsource
    by_cases htarget : ∃ k other, Named boxes arrow.target k other
    · obtain ⟨k, other, target⟩ := htarget
      by_cases hemits : box.placement.kind = .consumer
      · exact ⟨_, .noOutput source target hemits⟩
      · by_cases htakes : other.placement.kind = .producer
        · exact ⟨_, .noInput source hemits target htakes⟩
        · exact absurd ⟨⟨i, box, source, hemits⟩, k, other, target, htakes⟩ h
    · exact ⟨_, .noTarget source fun k other hk => htarget ⟨k, other, hk⟩⟩
  · exact ⟨_, .noSource fun i box hi => hsource ⟨i, box, hi⟩⟩

/-- A canvas is well drawn, or something is wrong with it. -/
theorem wellDrawn_or_breaks (c : Canvas) : c.WellDrawn ∨ ∃ error, c.Breaks error := by
  by_cases hdistinct : (c.boxes.map Box.id).Nodup
  · by_cases hfit : ∀ arrow ∈ c.arrows, Fits c.boxes arrow
    · exact .inl ⟨hdistinct, hfit⟩
    · obtain ⟨before, arrow, after, harrows, hbefore, hnot⟩ :=
        exists_first (P := fun arrows => ∀ arrow ∈ arrows, Fits c.boxes arrow)
          (List.forall_mem_nil _) hfit
      have hmisses : ¬ Fits c.boxes arrow := fun hfits =>
        hnot (List.forall_mem_append.mpr ⟨hbefore, List.forall_mem_singleton.mpr hfits⟩)
      obtain ⟨error, hmisses⟩ := exists_misses_of_not_fits hmisses
      exact .inr ⟨error, .arrow hdistinct harrows hbefore hmisses⟩
  · obtain ⟨before, box, after, hboxes, hbefore, hnot⟩ :=
      exists_first (P := fun boxes => (boxes.map Box.id).Nodup) List.nodup_nil hdistinct
    refine .inr ⟨_, .repeatedBox hboxes hbefore ?_⟩
    by_contra hnew
    refine hnot ?_
    rw [List.map_append]
    refine List.nodup_append.mpr ⟨hbefore, List.pairwise_singleton _ _, ?_⟩
    rintro id hid _ hbox rfl
    rw [List.map_singleton, List.mem_singleton] at hbox
    exact hnew (hbox ▸ hid)

/-- Both loops go through, one invariant after the other: the first ends with the diagram that
depicts the boxes and no arrows. -/
theorem toDiagram_of_wellDrawn {c : Canvas} (h : c.WellDrawn) :
    ∃ d, c.toDiagram = .ok d ∧ Depicts c.boxes c.arrows d := by
  obtain ⟨⟨d, names⟩, hboxes, hd, hn⟩ := exists_boxes h.1
  obtain ⟨e, harrows, he⟩ := hd.exists_arrows hn h.2
  exact ⟨e, bind_eq_ok_iff.mpr ⟨_, hboxes, harrows⟩, he⟩

/-- Up to the fault the loops go as for a canvas that is well drawn, and there they stop. -/
theorem toDiagram_of_breaks {c : Canvas} {error : CanvasError} (h : c.Breaks error) :
    c.toDiagram = .error error := by
  cases h with
  | repeatedBox h distinct met =>
    obtain ⟨⟨d, names⟩, hboxes, -, hn⟩ := exists_boxes distinct
    refine bind_eq_error_iff.mpr (.inl ?_)
    rw [h]
    exact foldlM_fails hboxes (addBox_of_met hn met)
  | arrow distinct h fit misses =>
    obtain ⟨⟨d, names⟩, hboxes, hd, hn⟩ := exists_boxes distinct
    obtain ⟨e, harrows, he⟩ := hd.exists_arrows hn fit
    refine bind_eq_error_iff.mpr (.inr ⟨_, hboxes, ?_⟩)
    rw [h]
    exact foldlM_fails harrows (he.addArrow_of_misses hn misses)

theorem wellDrawn_of_toDiagram {c : Canvas} (h : c.toDiagram = .ok d) :
    c.WellDrawn ∧ Depicts c.boxes c.arrows d := by
  rcases c.wellDrawn_or_breaks with hwell | ⟨error, hbreaks⟩
  · obtain ⟨e, he, hdepicts⟩ := toDiagram_of_wellDrawn hwell
    rw [h] at he
    cases he
    exact ⟨hwell, hdepicts⟩
  · rw [toDiagram_of_breaks hbreaks] at h
    cases h

def readBox : Box := ⟨"source", { name := "read", kind := .producer }⟩

def writeBox (id : String) : Box := ⟨id, { name := "write", kind := .consumer }⟩

end Canvas
end PipelineCanvas
