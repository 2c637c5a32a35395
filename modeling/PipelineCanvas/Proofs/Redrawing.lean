import Mathlib.Data.List.Nodup
import Mathlib.Data.List.Perm.Basic
import Mathlib.Data.Set.Function
import PipelineCanvas.Proofs.Drawing
import PipelineCanvas.Proofs.Renumbering
import PipelineCanvas.Proofs.Stages
/-! # The order of a canvas does not matter

A canvas is **redrawn** when its boxes and arrows are listed in another order and its boxes are
given other identifiers, told apart as before. Nodes and links are numbered as boxes and arrows are
listed, so the diagram of the other canvas has other numbers, and where there is no diagram another
fault may be found first. But whether a canvas is well drawn does not depend on the order
(`Redrawing.wellDrawn_iff`), and if it is, the two diagrams are renumberings of each other
(`Redrawing.exists_renumbering`): every place in one list has a place in the other. Places are
matched one by one, as there may be several arrows between two boxes.

What a renumbered diagram has in common with the other is known already, so nothing about chains or
sources is shown here. The work is to find the renumbering. A permutation says that two lists have
the same entries, but not which entry of the one is which entry of the other, and an arrow that
stands twice has two places to choose from; so the places are matched before
anything else (`exists_places`), and the numbers follow from the places.

The identifiers have to be told apart where they are used, also in arrows that name no box: an arrow
to a box that is missing must not come to name one. -/
namespace PipelineCanvas

/-- The box under another identifier. -/
def Box.renamed (b : Box) (rename : String → String) : Box := { b with id := rename b.id }

/-- The arrow between the boxes with the other identifiers. -/
def Arrow.renamed (a : Arrow) (rename : String → String) : Arrow :=
  ⟨rename a.source, rename a.target⟩

/-- Lists of the same items, those of one renamed, have the same places in another order. -/
theorem exists_places {α β : Type} {f : α → β} {l : List α} {m : List β} (h : m.Perm (l.map f)) :
    ∃ place : Nat → Nat, Set.BijOn place {i | i < l.length} {i | i < m.length} ∧
      ∀ {i a}, l[i]? = some a → m[place i]? = some (f a) := by
  classical
  have hlength : (l.map f).length = l.length := List.length_map f
  -- the permutation is one of the places within the list; beyond its end nothing is asked
  let place (i : Nat) : Nat := if hi : i < (l.map f).length then h.symm.idxBij ⟨i, hi⟩ else i
  have place_eq : ∀ {i} (hi : i < (l.map f).length), place i = h.symm.idxBij ⟨i, hi⟩ :=
    fun hi => dif_pos hi
  refine ⟨place, ⟨?_, ?_, ?_⟩, ?_⟩
  · intro i hi
    have hi' : i < (l.map f).length := hlength ▸ hi
    rw [place_eq hi']
    exact Fin.isLt _
  · intro i hi j hj hij
    have hi' : i < (l.map f).length := hlength ▸ hi
    have hj' : j < (l.map f).length := hlength ▸ hj
    rw [place_eq hi', place_eq hj'] at hij
    exact congrArg Fin.val (h.symm.idxBij_injective (Fin.ext hij))
  · intro j hj
    obtain ⟨i, hi⟩ := h.symm.idxBij_surjective ⟨j, hj⟩
    refine ⟨i, hlength ▸ i.isLt, ?_⟩
    rw [place_eq i.isLt, hi]
  · intro i a ha
    obtain ⟨hi, rfl⟩ := List.getElem?_eq_some_iff.mp ha
    have hi' : i < (l.map f).length := hlength.symm ▸ hi
    have hget := h.symm.getElem_idxBij_eq_getElem ⟨i, hi'⟩
    rw [place_eq hi', List.getElem?_eq_getElem (Fin.isLt _), hget, List.getElem_map]

/-- Numbers that go to numbers one by one go so as identifiers. -/
theorem bijOn_of_index {ι : Type} (index : ι → Nat) (ofIndex : Nat → ι)
    (index_of : ∀ i, index (ofIndex i) = i) (of_index : ∀ id, ofIndex (index id) = id)
    {place : Nat → Nat} {s t : Set ι} {m n : Nat} (h : Set.BijOn place {i | i < m} {i | i < n})
    (hs : ∀ id, id ∈ s ↔ index id < m) (ht : ∀ id, id ∈ t ↔ index id < n) :
    Set.BijOn (fun id => ofIndex (place (index id))) s t := by
  refine ⟨fun id hid => ?_, fun a ha b hb hab => ?_, fun id hid => ?_⟩
  · rw [ht, index_of]
    exact h.mapsTo ((hs id).mp hid)
  · have hplace := congrArg index hab
    rw [index_of, index_of] at hplace
    have hindex := h.injOn ((hs a).mp ha) ((hs b).mp hb) hplace
    rw [← of_index a, hindex, of_index]
  · obtain ⟨i, hi, hplace⟩ := h.surjOn ((ht id).mp hid)
    refine ⟨ofIndex i, (hs _).mpr (by rwa [index_of]), ?_⟩
    show ofIndex (place (index (ofIndex i))) = id
    rw [index_of, hplace, of_index]

namespace Canvas
variable {c e : Canvas} {boxes : List Box} {arrows : List Arrow}

/-- A box has the identifier, or an arrow has an end there. -/
def Mentions (c : Canvas) (id : String) : Prop :=
  (∃ box ∈ c.boxes, box.id = id) ∨ ∃ arrow ∈ c.arrows, arrow.source = id ∨ arrow.target = id

/-- The second canvas is the first in another order and with other identifiers. -/
structure Redrawing (c e : Canvas) where
  /-- The other identifier of each box. -/
  rename : String → String
  /-- Identifiers that the canvas mentions are told apart as before, those of missing boxes
  included. -/
  rename_injOn : Set.InjOn rename {id | c.Mentions id}
  /-- The boxes are the renamed ones in some order. -/
  boxes_perm : e.boxes.Perm (c.boxes.map (·.renamed rename))
  /-- So are the arrows, each as often as it stood there. -/
  arrows_perm : e.arrows.Perm (c.arrows.map (·.renamed rename))

/-! ### What a list of boxes or arrows says whatever its order -/

theorem exists_named_of_mem {box : Box} (h : box ∈ boxes) : ∃ i, Named boxes box.id i box := by
  obtain ⟨i, hi⟩ := List.mem_iff_getElem?.mp h
  exact ⟨i, hi, rfl⟩

/-- Where identifiers are different, each is that of one box. -/
theorem Named.unique (distinct : (boxes.map Box.id).Nodup) {id : String} {i k : Nat}
    {box other : Box} (hi : Named boxes id i box) (hk : Named boxes id k other) :
    i = k ∧ box = other := by
  have hids : (boxes.map Box.id)[i]? = (boxes.map Box.id)[k]? := by
    rw [List.getElem?_map, List.getElem?_map, hi.1, hk.1, Option.map_some, Option.map_some, hi.2,
      hk.2]
  obtain ⟨hlt, -⟩ := List.getElem?_eq_some_iff.mp hi.1
  obtain rfl := (List.getElem?_inj (by rwa [List.length_map]) distinct).mp hids
  exact ⟨rfl, Option.some.inj (hi.1.symm.trans hk.1)⟩

/-- The numbers of nodes are the places in the list of boxes. -/
theorem Depicts.mem_keys_nodes_iff {d : Diagram} (h : Depicts boxes arrows d) (id : NodeId) :
    id ∈ d.nodes.keys ↔ id.index < boxes.length := by
  have hnode : d.nodes.get? id = boxes[id.index]?.map fun box => .ofPlacement box.placement :=
    h.node?_eq id.index
  rw [Table.mem_keys_iff, ← Option.isSome_iff_exists, hnode, Option.isSome_map,
    isSome_getElem?]

theorem Depicts.mem_keys_links_iff {d : Diagram} (h : Depicts boxes arrows d) (id : LinkId) :
    id ∈ d.links.keys ↔ id.index < arrows.length := by
  rw [Table.mem_keys_iff]
  constructor
  · rintro ⟨link, hlink⟩
    by_contra hge
    have hnone := h.link?_eq_none id.index (Nat.le_of_not_lt hge)
    rw [show d.link? id = some link from hlink] at hnone
    cases hnone
  · intro hlt
    obtain ⟨link, hlink, -⟩ := h.runs id.index _ (List.getElem?_eq_getElem hlt)
    exact ⟨link, hlink⟩

namespace Redrawing

/-! ### Well drawn in any order -/

/-- Whether a box of a name is there, and what it is, does not depend on its place. -/
theorem exists_named_iff (r : Redrawing c e) {id : String} (hid : c.Mentions id)
    {P : Placement → Prop} : (∃ i box, Named e.boxes (r.rename id) i box ∧ P box.placement) ↔
      ∃ i box, Named c.boxes id i box ∧ P box.placement := by
  constructor
  · rintro ⟨i, box, ⟨hbox, heq⟩, hP⟩
    obtain ⟨old, hold, rfl⟩ :=
      List.mem_map.mp (r.boxes_perm.mem_iff.mp (List.mem_of_getElem? hbox))
    obtain rfl := r.rename_injOn (.inl ⟨old, hold, rfl⟩) hid heq
    obtain ⟨k, hk⟩ := exists_named_of_mem hold
    exact ⟨k, old, hk, hP⟩
  · rintro ⟨i, box, ⟨hbox, rfl⟩, hP⟩
    have hmem : box.renamed r.rename ∈ e.boxes :=
      r.boxes_perm.mem_iff.mpr (List.mem_map_of_mem (List.mem_of_getElem? hbox))
    obtain ⟨k, hk⟩ := exists_named_of_mem hmem
    exact ⟨k, _, hk, hP⟩

/-- An arrow fits by what the boxes at its ends are, wherever they are listed. -/
theorem fits_iff (r : Redrawing c e) {arrow : Arrow} (harrow : arrow ∈ c.arrows) :
    Fits e.boxes (arrow.renamed r.rename) ↔ Fits c.boxes arrow :=
  and_congr
    (r.exists_named_iff (P := fun p => p.kind ≠ .consumer) (.inr ⟨arrow, harrow, .inl rfl⟩))
    (r.exists_named_iff (P := fun p => p.kind ≠ .producer) (.inr ⟨arrow, harrow, .inr rfl⟩))

theorem nodup_iff (r : Redrawing c e) :
    (e.boxes.map Box.id).Nodup ↔ (c.boxes.map Box.id).Nodup := by
  have hids : (c.boxes.map (·.renamed r.rename)).map Box.id =
      (c.boxes.map Box.id).map r.rename := by
    rw [List.map_map, List.map_map]
    rfl
  rw [(r.boxes_perm.map Box.id).nodup_iff, hids]
  refine ⟨List.Nodup.of_map r.rename, List.Nodup.map_on fun a ha b hb => ?_⟩
  obtain ⟨box, hbox, rfl⟩ := List.mem_map.mp ha
  obtain ⟨other, hother, rfl⟩ := List.mem_map.mp hb
  exact r.rename_injOn (.inl ⟨box, hbox, rfl⟩) (.inl ⟨other, hother, rfl⟩)

/-- Each of the conditions is about the boxes and arrows as a whole. -/
theorem wellDrawn_iff (r : Redrawing c e) : e.WellDrawn ↔ c.WellDrawn := by
  refine and_congr r.nodup_iff ⟨fun h arrow harrow => ?_, fun h arrow harrow => ?_⟩
  · exact (r.fits_iff harrow).mp (h _ (r.arrows_perm.mem_iff.mpr (List.mem_map_of_mem harrow)))
  · obtain ⟨old, hold, rfl⟩ := List.mem_map.mp (r.arrows_perm.mem_iff.mp harrow)
    exact (r.fits_iff hold).mpr (h old hold)

/-! ### The diagrams -/

/-- The nodes of the two diagrams have been made of the same box. -/
def SameBox (r : Redrawing c e) (id other : NodeId) : Prop :=
  ∃ box, c.boxes[id.index]? = some box ∧ e.boxes[other.index]? = some (box.renamed r.rename)

/-- The port of a box is the port of the box in its other place. -/
theorem port?_eq {d f : Diagram} (hd : Depicts c.boxes c.arrows d) (hf : Depicts e.boxes e.arrows f)
    {id other : String} {i k : Nat} {box renamed : Box} (hi : Named c.boxes id i box)
    (hk : Named e.boxes other k renamed) (hsame : renamed.placement = box.placement)
    {direction : Direction} {port : PortAddress} (hport : d.port? ⟨i⟩ direction = some port) :
    f.port? ⟨k⟩ direction = some ⟨⟨k⟩, port.port⟩ ∧ port.node = ⟨i⟩ := by
  rw [hd.port?_eq hi, Option.map_eq_some_iff] at hport
  obtain ⟨index, hindex, rfl⟩ := hport
  rw [hf.port?_eq hk, hsame, hindex]
  exact ⟨rfl, rfl⟩

/-- The diagrams of a canvas and of one redrawn from it are renumberings of each other, in which
nodes of the same box have the place of each other. -/
theorem exists_renumbering (r : Redrawing c e) {d f : Diagram} (hc : c.toDiagram = .ok d)
    (he : e.toDiagram = .ok f) : ∃ n : Diagram.Renumbering d f, ∀ {i box},
      c.boxes[i]? = some box → e.boxes[(n.node ⟨i⟩).index]? = some (box.renamed r.rename) := by
  obtain ⟨-, hd⟩ := wellDrawn_of_toDiagram hc
  obtain ⟨⟨distinct, -⟩, hf⟩ := wellDrawn_of_toDiagram he
  obtain ⟨boxPlace, boxPlace_bij, hbox⟩ := exists_places r.boxes_perm
  obtain ⟨arrowPlace, arrowPlace_bij, harrow⟩ := exists_places r.arrows_perm
  -- the end of an arrow is found at the place of the box that it was at
  have moved : ∀ {id i k box other}, Named c.boxes id i box →
      Named e.boxes (r.rename id) k other → boxPlace i = k ∧ box.renamed r.rename = other :=
    fun hi hk => Named.unique distinct ⟨hbox hi.1, congrArg r.rename hi.2⟩ hk
  have node_eq : ∀ {id m n}, d.node? id = some m → f.node? ⟨boxPlace id.index⟩ = some n →
      n.toPlacement = m.toPlacement := by
    intro id m n hm hn
    rw [show d.node? id = _ from hd.node?_eq id.index, Option.map_eq_some_iff] at hm
    obtain ⟨box, hb, rfl⟩ := hm
    rw [hf.node?_eq, hbox hb] at hn
    cases hn
    rfl
  have link_eq : ∀ {id k l}, d.link? id = some k → f.link? ⟨arrowPlace id.index⟩ = some l →
      l = k.renumbered fun id => ⟨boxPlace id.index⟩ := by
    intro id k l hk hl
    have hlt := (hd.mem_keys_links_iff id).mp (Table.mem_keys_iff.mpr ⟨k, hk⟩)
    have harrow_at := List.getElem?_eq_getElem hlt
    obtain ⟨k', hk', i, box, j, other, hi, hj, hsource, htarget⟩ := hd.runs _ _ harrow_at
    obtain ⟨l', hl', i', box', j', other', hi', hj', hsource', htarget'⟩ :=
      hf.runs _ _ (harrow harrow_at)
    obtain rfl := Option.some.inj (hk.symm.trans hk')
    obtain rfl := Option.some.inj (hl.symm.trans hl')
    obtain ⟨rfl, rfl⟩ := moved hi hi'
    obtain ⟨rfl, rfl⟩ := moved hj hj'
    obtain ⟨hs, hsnode⟩ := port?_eq hd hf hi hi' rfl hsource
    obtain ⟨ht, htnode⟩ := port?_eq hd hf hj hj' rfl htarget
    rw [hsource'] at hs
    rw [htarget'] at ht
    rw [Link.renumbered, hsnode, htnode, ← Option.some.inj hs, ← Option.some.inj ht]
  refine ⟨⟨fun id => ⟨boxPlace id.index⟩, fun id => ⟨arrowPlace id.index⟩, ?_, ?_, node_eq,
    link_eq⟩, hbox⟩
  · exact bijOn_of_index NodeId.index NodeId.mk (fun _ => rfl) (fun _ => rfl) boxPlace_bij
      hd.mem_keys_nodes_iff hf.mem_keys_nodes_iff
  · exact bijOn_of_index LinkId.index LinkId.mk (fun _ => rfl) (fun _ => rfl) arrowPlace_bij
      hd.mem_keys_links_iff hf.mem_keys_links_iff

/-- **The order of a canvas does not matter.** There is a diagram of a redrawn canvas just if there
is one of the canvas. Then every rule gives both the same source or the same error, and finds
chains of nodes that have been made of the same boxes one by one. -/
theorem toDiagram_redrawn (r : Redrawing c e) :
    ((∃ f, e.toDiagram = .ok f) ↔ ∃ d, c.toDiagram = .ok d) ∧
      ∀ d f, c.toDiagram = .ok d → e.toDiagram = .ok f → ∀ rules : SourceRules,
        rules.source f = rules.source d ∧
        (∀ error, rules.chainIds f = .error error ↔ rules.chainIds d = .error error) ∧
        ∀ ids, rules.chainIds d = .ok ids →
          ∃ others, rules.chainIds f = .ok others ∧ List.Forall₂ r.SameBox ids others := by
  refine ⟨?_, fun d f hc he rules => ?_⟩
  · constructor
    · rintro ⟨f, he⟩
      obtain ⟨d, hc, -⟩ :=
        toDiagram_of_wellDrawn (r.wellDrawn_iff.mp (wellDrawn_of_toDiagram he).1)
      exact ⟨d, hc⟩
    · rintro ⟨d, hc⟩
      obtain ⟨f, he, -⟩ :=
        toDiagram_of_wellDrawn (r.wellDrawn_iff.mpr (wellDrawn_of_toDiagram hc).1)
      exact ⟨f, he⟩
  · -- boxes and arrows are numbered as they are listed, so another order is a renumbering
    obtain ⟨n, hplace⟩ := r.exists_renumbering hc he
    have hchain := n.chain_eq (Diagram.wellFormed_of_toDiagram hc)
      (Diagram.wellFormed_of_toDiagram he) rules.stepLimit rules.refuseMerges
    have hids := SourceRules.chainIds_eq_of_chain hchain
    refine ⟨SourceRules.source_eq_of_chain hchain, fun error => ?_, fun ids hd => ?_⟩
    · rw [hids, map_eq_error_iff]
    · refine ⟨ids.map n.node, ?_, ?_⟩
      · rw [hids, hd]
        rfl
      · rw [List.forall₂_map_right_iff, List.forall₂_same]
        intro id hid
        obtain ⟨node, hnode⟩ := rules.exists_node_of_chainIds hd hid
        obtain ⟨box, hbox, -⟩ := Option.map_eq_some_iff.mp
          (((wellDrawn_of_toDiagram hc).2.node?_eq id.index).symm.trans hnode)
        exact ⟨box, hbox, hplace hbox⟩

end Redrawing

/-- The canvas with its boxes and arrows in reverse order, and a mark behind each identifier. -/
def reversed (c : Canvas) : Canvas where
  boxes := (c.boxes.map (·.renamed (· ++ "*"))).reverse
  arrows := (c.arrows.map (·.renamed (· ++ "*"))).reverse

def redrawing_reversed (c : Canvas) : Redrawing c c.reversed where
  rename := (· ++ "*")
  rename_injOn _ _ _ _ h := (String.append_left_inj "*").mp h
  boxes_perm := List.reverse_perm _
  arrows_perm := List.reverse_perm _

/-- A source, a filter and a sink, and another filter with two arrows to the sink. -/
def mergingCanvas : Canvas where
  boxes := [readBox, ⟨"keep", { name := "keep", kind := .transformer }⟩, writeBox "sink",
    ⟨"drop", { name := "keep", kind := .transformer }⟩]
  arrows := [⟨"source", "keep"⟩, ⟨"keep", "sink"⟩, ⟨"drop", "sink"⟩, ⟨"drop", "sink"⟩]

/-- A canvas with its boxes and arrows the other way round gives another numbering, the same chain
of boxes and the same source, and the same error where merges are refused. -/
theorem toDiagram_redrawn_sample : ∃ d f, mergingCanvas.toDiagram = .ok d ∧
    mergingCanvas.reversed.toDiagram = .ok f ∧
    ({} : SourceRules).chainIds d = .ok [⟨0⟩, ⟨1⟩, ⟨2⟩] ∧
    (∃ others, ({} : SourceRules).chainIds f = .ok others ∧
      List.Forall₂ mergingCanvas.redrawing_reversed.SameBox [⟨0⟩, ⟨1⟩, ⟨2⟩] others) ∧
    ({} : SourceRules).source f = ({} : SourceRules).source d ∧
    ({ refuseMerges := true } : SourceRules).source f = .error .merge := by
  obtain ⟨hiff, hsame⟩ := mergingCanvas.redrawing_reversed.toDiagram_redrawn
  obtain ⟨f, he⟩ := hiff.mpr ⟨_, rfl⟩
  obtain ⟨hsource, -, hids⟩ := hsame _ f rfl he {}
  obtain ⟨hrefused, -⟩ := hsame _ f rfl he { refuseMerges := true }
  exact ⟨_, f, rfl, he, rfl, hids _ rfl, hsource, hrefused⟩

end Canvas
end PipelineCanvas
