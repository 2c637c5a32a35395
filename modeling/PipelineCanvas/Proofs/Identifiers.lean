import PipelineCanvas.Proofs.Saving
/-! # Identifiers are never used again

A session **opens** with the empty diagram or with one that has been read, and goes on with edits,
of which any may be refused. The identifiers of a diagram are **numbered** when those stored are
behind the counters and links end at stored nodes; every change keeps them so. Nodes and links get
the number of the counter, and counters only grow, so an identifier that is behind its counter and
not stored stays unused (`Later`): it is dead.

In a session of fewer than `2 ^ 63` edits no counter comes to `2 ^ 64`. It begins at `2 ^ 63` at
most, as larger identifiers are not read, and an edit moves it by one. So the session is the same
with counters of 64 bits (`Diagram.wordRun`).

What it is for an identifier to be dead is spelled out edit by edit (`DeadNode`, `DeadLink`). A dead
node is named by no link, so no link brings it back either, and every edit that names it fails with
the same error that it would fail with if the number had never been given out. Of an edit that names
two ports this holds where the other one is not at fault itself, as the port where a link leaves is
looked at first.

`Numbered` asks for less than being well formed does, namely for nothing about ports. It holds from
the start of a session on, whatever is placed, so the result about numbers does not depend on how
the nodes of a session have been made.

The result is about moments of one session, which are beginnings of its list of edits. A later
moment is a longer beginning, and `later_of_isPrefix` says all that is needed of the time between.
-/
namespace PipelineCanvas

namespace Edit.Answer

/-- The identifier given to a new node. -/
def placedId? : Edit.Answer → Option NodeId
  | .placed id => some id
  | _ => none

/-- The identifier given to a new link. -/
def attachedId? : Edit.Answer → Option LinkId
  | .attached id => some id
  | _ => none

end Edit.Answer

namespace Diagram
variable {d e f : Diagram} {edit : Edit} {answer : Edit.Answer}

/-- The diagrams that a session opens with. -/
inductive Opens : Diagram → Prop
  | empty : Opens ∅
  | read {text : String} {d : Diagram} (h : ofText text = .ok d) : Opens d

/-- What edits that follow one another hand back, or why they are refused. -/
def outcomes (d : Diagram) : List Edit → List (Except EditError Edit.Answer)
  | [] => []
  | edit :: edits => (Prod.fst <$> d.perform edit) :: (d.after edit).outcomes edits

/-- What is picked from the answers of edits that follow one another. -/
def picked {ι : Type} (pick : Edit.Answer → Option ι) (d : Diagram) (edits : List Edit) : List ι :=
  (d.outcomes edits).filterMap fun outcome => outcome.toOption.bind pick

/-- The identifiers that are given to nodes, one after the other. -/
def placedIds : Diagram → List Edit → List NodeId := picked Edit.Answer.placedId?

/-- The identifiers that are given to links, one after the other. -/
def attachedIds : Diagram → List Edit → List LinkId := picked Edit.Answer.attachedId?

/-- The diagram with its counters as far as 64 bits hold them. -/
def wrapped (d : Diagram) : Diagram :=
  { d with freshNode := d.freshNode % 2 ^ 64, freshLink := d.freshLink % 2 ^ 64 }

/-- The diagram after several edits, with counters of 64 bits. -/
def wordRun (d : Diagram) (edits : List Edit) : Diagram :=
  edits.foldl (fun d edit => (d.after edit).wrapped) d

/-- No node has the identifier, no link ends there, and whatever names it is refused for that
reason, unless another thing named before it is at fault. -/
structure DeadNode (d : Diagram) (id : NodeId) : Prop where
  not_stored : d.node? id = none
  /-- No link ends at it, so none can be followed to it. -/
  not_touched : ∀ {i link}, d.link? i = some link → link.touches id = false
  /-- It cannot be taken out once more. -/
  remove : d.perform (.remove id) = .error (.noSuchNode id)
  configure : ∀ properties, d.perform (.configure id properties) = .error (.noSuchNode id)
  move : ∀ position, d.perform (.move id position) = .error (.noSuchNode id)
  /-- A link cannot leave it, whatever port of it is named. -/
  attach_source : ∀ port target, d.perform (.attach ⟨id, port⟩ target) = .error (.noSuchNode id)
  /-- A link cannot enter it from a port that is in order. -/
  attach_target : ∀ source port, d.HasPort source .output →
    d.perform (.attach source ⟨id, port⟩) = .error (.noSuchNode id)
  /-- It cannot be joined to anything. -/
  join_source : ∀ target, d.perform (.join id target) = .error (.noSuchNode id)
  /-- Nothing that can send can be joined to it. -/
  join_target : ∀ source port, d.port? source .output = some port →
    d.perform (.join source id) = .error (.noSuchNode id)

/-- No link has the identifier, and taking it out is refused for that reason. -/
structure DeadLink (d : Diagram) (id : LinkId) : Prop where
  not_stored : d.link? id = none
  /-- It cannot be taken out once more. -/
  detach : d.perform (.detach id) = .error (.noSuchLink id)

/-! ### Changes keep identifiers numbered -/

/-- Identifiers that are stored are behind the counters, and links end at stored nodes. -/
structure Numbered (d : Diagram) : Prop where
  /-- All stored nodes are behind the counter. -/
  node_lt : ∀ {id node}, d.node? id = some node → id.index < d.freshNode
  link_lt : ∀ {id link}, d.link? id = some link → id.index < d.freshLink
  /-- The node that a link leaves is there, so with the node the link has gone. -/
  source_stored : ∀ {id link}, d.link? id = some link → (d.node? link.source.node).isSome
  target_stored : ∀ {id link}, d.link? id = some link → (d.node? link.target.node).isSome

theorem WellFormed.numbered (h : d.WellFormed) : d.Numbered where
  node_lt := h.node_lt
  link_lt := h.link_lt
  source_stored hl := (h.source_fits hl).stored
  target_stored hl := (h.target_fits hl).stored

/-- The number that is given out next is not stored. -/
theorem Numbered.node_fresh (h : d.Numbered) : d.node? ⟨d.freshNode⟩ = none :=
  Option.eq_none_iff_forall_ne_some.mpr fun _ hn => Nat.lt_irrefl _ (h.node_lt hn)

theorem Numbered.link_fresh (h : d.Numbered) : d.link? ⟨d.freshLink⟩ = none :=
  Option.eq_none_iff_forall_ne_some.mpr fun _ hl => Nat.lt_irrefl _ (h.link_lt hl)

theorem Numbered.place (h : d.Numbered) (node : Node) : (d.place node).2.Numbered := by
  have keep : ∀ {id}, (d.node? id).isSome → ((d.place node).2.node? id).isSome := by
    intro id hid
    show ((d.nodes.insert ⟨d.freshNode⟩ node).get? id).isSome
    rw [Table.get?_insert]
    split
    · rfl
    · exact hid
  constructor
  · intro id n hn
    rcases Table.get?_insert_cases hn with ⟨rfl, -⟩ | hn
    · exact Nat.lt_succ_self _
    · exact Nat.lt_succ_of_lt (h.node_lt hn)
  · exact h.link_lt
  · exact fun hl => keep (h.source_stored hl)
  · exact fun hl => keep (h.target_stored hl)

/-- With a node go the links that end there. -/
theorem Numbered.erase (h : d.Numbered) (id : NodeId) : Numbered { d with
    nodes := d.nodes.erase id, links := d.links.filter fun _ l => !l.touches id } := by
  have keep : ∀ {other}, other ≠ id → (d.node? other).isSome →
      ((d.nodes.erase id).get? other).isSome := by
    intro other hne hother
    rwa [Table.get?_erase_of_ne _ hne]
  constructor
  · exact fun hn => h.node_lt (Table.get?_of_get?_erase hn)
  · exact fun hl => h.link_lt (get?_filter_touches.mp hl).1
  · intro i l hl
    obtain ⟨hl, hs, -⟩ := get?_filter_touches.mp hl
    exact keep hs (h.source_stored hl)
  · intro i l hl
    obtain ⟨hl, -, ht⟩ := get?_filter_touches.mp hl
    exact keep ht (h.target_stored hl)

/-- A link is put between nodes that are there. -/
theorem Numbered.linked (h : d.Numbered) {source target : PortAddress}
    (hs : d.HasPort source .output) (ht : d.HasPort target .input) :
    (d.linked ⟨source, target⟩).Numbered := by
  constructor
  · exact h.node_lt
  · intro i l hl
    rcases Table.get?_insert_cases hl with ⟨rfl, -⟩ | hl
    · exact Nat.lt_succ_self _
    · exact Nat.lt_succ_of_lt (h.link_lt hl)
  · intro i l hl
    rcases Table.get?_insert_cases hl with ⟨-, rfl⟩ | hl
    · exact hs.stored
    · exact h.source_stored hl
  · intro i l hl
    rcases Table.get?_insert_cases hl with ⟨-, rfl⟩ | hl
    · exact ht.stored
    · exact h.target_stored hl

/-- Without a link there is less to ask for. -/
theorem Numbered.detach (h : d.Numbered) (id : LinkId) :
    Numbered { d with links := d.links.erase id } where
  node_lt := h.node_lt
  link_lt hl := h.link_lt (Table.get?_of_get?_erase hl)
  source_stored hl := h.source_stored (Table.get?_of_get?_erase hl)
  target_stored hl := h.target_stored (Table.get?_of_get?_erase hl)

theorem isSome_modify (d : Diagram) (id other : NodeId) (f : Node → Node) :
    ((d.nodes.modify id f).get? other).isSome = (d.node? other).isSome := by
  rw [Table.get?_modify]
  split
  · exact Option.isSome_map
  · rfl

theorem Numbered.modify (h : d.Numbered) (id : NodeId) (f : Node → Node) :
    Numbered { d with nodes := d.nodes.modify id f } := by
  constructor
  · intro other n hn
    have hstored : (d.node? other).isSome := by
      rw [← d.isSome_modify id other f]
      exact Option.isSome_of_mem hn
    obtain ⟨m, hm⟩ := Option.isSome_iff_exists.mp hstored
    exact h.node_lt hm
  · exact h.link_lt
  · exact fun hl => (d.isSome_modify id _ f).trans (h.source_stored hl)
  · exact fun hl => (d.isSome_modify id _ f).trans (h.target_stored hl)

/-- Nothing is asked of the edit, not even that the node it places has the ports of its kind. -/
theorem Numbered.change (h : d.Numbered) (hc : d.Change edit answer e) : e.Numbered := by
  cases hc with
  | place node => exact h.place node
  | remove _ => exact h.erase _
  | attach _ hs ht => exact h.linked hs ht
  | join _ hs ht => exact h.linked hs ht
  | detach _ => exact h.detach _
  | configure _ => exact h.modify _ _
  | move _ => exact h.modify _ _

theorem Numbered.run (h : d.Numbered) (edits : List Edit) : (d.run edits).Numbered :=
  run_keeps (fun _ hc hd => hd.change hc) h

/-! ### Counters only grow -/

/-- The second diagram comes from the first by edits: counters have not gone back, and what was not
stored behind them is not stored now. -/
structure Later (d e : Diagram) : Prop where
  freshNode_le : d.freshNode ≤ e.freshNode
  freshLink_le : d.freshLink ≤ e.freshLink
  /-- What is behind the counter and not there stays away. -/
  node_gone : ∀ {id}, id.index < d.freshNode → d.node? id = none → e.node? id = none
  link_gone : ∀ {id}, id.index < d.freshLink → d.link? id = none → e.link? id = none

theorem Later.refl (d : Diagram) : d.Later d :=
  ⟨Nat.le_refl _, Nat.le_refl _, fun _ h => h, fun _ h => h⟩

theorem Later.trans (hde : d.Later e) (hef : e.Later f) : d.Later f where
  freshNode_le := Nat.le_trans hde.freshNode_le hef.freshNode_le
  freshLink_le := Nat.le_trans hde.freshLink_le hef.freshLink_le
  node_gone hid h := hef.node_gone (Nat.lt_of_lt_of_le hid hde.freshNode_le) (hde.node_gone hid h)
  link_gone hid h := hef.link_gone (Nat.lt_of_lt_of_le hid hde.freshLink_le) (hde.link_gone hid h)

/-- The one edit that stores a node stores it at the counter, and so not at a number behind it. -/
theorem later_place (d : Diagram) (node : Node) : d.Later (d.place node).2 where
  freshNode_le := Nat.le_succ _
  freshLink_le := Nat.le_refl _
  node_gone {id} hid h := by
    have hne : id ≠ ⟨d.freshNode⟩ := by
      rintro rfl
      exact Nat.lt_irrefl _ hid
    exact (Table.get?_insert_of_ne _ hne node).trans h
  link_gone _ h := h

/-- The same for links. -/
theorem later_linked (d : Diagram) (link : Link) : d.Later (d.linked link) where
  freshNode_le := Nat.le_refl _
  freshLink_le := Nat.le_succ _
  node_gone _ h := h
  link_gone {id} hid h := by
    have hne : id ≠ ⟨d.freshLink⟩ := by
      rintro rfl
      exact Nat.lt_irrefl _ hid
    exact (Table.get?_insert_of_ne _ hne link).trans h

theorem later_modify (d : Diagram) (id : NodeId) (f : Node → Node) :
    d.Later { d with nodes := d.nodes.modify id f } where
  freshNode_le := Nat.le_refl _
  freshLink_le := Nat.le_refl _
  node_gone {other} _ h := by
    have hstored := d.isSome_modify id other f
    rw [h] at hstored
    exact Option.isNone_iff_eq_none.mp (Option.isSome_eq_false_iff.mp hstored)
  link_gone _ h := h

/-- Case by case. Two kinds of edits move a counter, and the others store nothing under an
identifier that was free. -/
theorem Change.later (h : d.Change edit answer e) : d.Later e := by
  cases h with
  | place node => exact d.later_place node
  | remove _ =>
    refine ⟨Nat.le_refl _, Nat.le_refl _, fun _ hid => ?_, fun _ hid => ?_⟩
    · exact Table.get?_erase_eq_none hid
    · show (d.links.filter _).get? _ = none
      rw [Table.get?_filter, show d.links.get? _ = none from hid]
      rfl
  | attach _ _ _ => exact d.later_linked _
  | join _ _ _ => exact d.later_linked _
  | detach _ =>
    exact ⟨Nat.le_refl _, Nat.le_refl _, fun _ hid => hid,
      fun _ hid => Table.get?_erase_eq_none hid⟩
  | configure _ => exact d.later_modify _ _
  | move _ => exact d.later_modify _ _

/-- An edit that is refused changes nothing at all. -/
theorem later_after (d : Diagram) (edit : Edit) : d.Later (d.after edit) := by
  rcases d.after_cases edit with ⟨answer, hp⟩ | hp
  · exact (change_of_perform hp).later
  · rw [hp]
    exact .refl d

theorem later_run (d : Diagram) (edits : List Edit) : d.Later (d.run edits) :=
  run_keeps (P := d.Later) (fun _ hc hd => hd.trans hc.later) (.refl d)

theorem run_append (d : Diagram) (before after : List Edit) :
    d.run (before ++ after) = (d.run before).run after :=
  List.foldl_append

/-- Of two moments in a session the later one is the one with more edits behind it. -/
theorem later_of_isPrefix {first second : List Edit} (h : first <+: second) (d : Diagram) :
    (d.run first).Later (d.run second) := by
  obtain ⟨rest, rfl⟩ := h
  rw [run_append]
  exact later_run _ rest

/-- A change moves a counter by at most one. -/
theorem Change.fresh_le (h : d.Change edit answer e) :
    e.freshNode ≤ d.freshNode + 1 ∧ e.freshLink ≤ d.freshLink + 1 := by
  cases h with
  | place node => exact ⟨Nat.le_refl _, Nat.le_succ _⟩
  | attach _ _ _ => exact ⟨Nat.le_succ _, Nat.le_refl _⟩
  | join _ _ _ => exact ⟨Nat.le_succ _, Nat.le_refl _⟩
  | _ => exact ⟨Nat.le_succ _, Nat.le_succ _⟩

theorem fresh_after_le (d : Diagram) (edit : Edit) :
    (d.after edit).freshNode ≤ d.freshNode + 1 ∧ (d.after edit).freshLink ≤ d.freshLink + 1 := by
  rcases d.after_cases edit with ⟨answer, hp⟩ | hp
  · exact (change_of_perform hp).fresh_le
  · rw [hp]
    exact ⟨Nat.le_succ _, Nat.le_succ _⟩

/-- An edit moves each counter by one at most, so a session does by its length. -/
theorem fresh_run_le (d : Diagram) (edits : List Edit) :
    (d.run edits).freshNode ≤ d.freshNode + edits.length ∧
      (d.run edits).freshLink ≤ d.freshLink + edits.length := by
  induction edits generalizing d with
  | nil => exact ⟨Nat.le_refl _, Nat.le_refl _⟩
  | cons edit edits ih =>
    obtain ⟨hnode, hlink⟩ := d.fresh_after_le edit
    obtain ⟨hnodes, hlinks⟩ := ih (d.after edit)
    show ((d.after edit).run edits).freshNode ≤ _ ∧ ((d.after edit).run edits).freshLink ≤ _
    rw [List.length_cons]
    omega

/-! ### Identifiers that are given out -/

/-- An edit that gives out no identifier of the sort adds nothing to the list. -/
theorem picked_cons_of_none {ι : Type} {pick : Edit.Answer → Option ι}
    (h : ∀ answer e, d.perform edit = .ok (answer, e) → pick answer = none) (edits : List Edit) :
    picked pick d (edit :: edits) = picked pick (d.after edit) edits := by
  cases hperform : d.perform edit with
  | error error => simp [picked, outcomes, hperform, Functor.map, Except.map, Except.toOption]
  | ok r =>
    obtain ⟨answer, e⟩ := r
    simp [picked, outcomes, hperform, Functor.map, Except.map, Except.toOption,
      h answer e hperform]

/-- One that does puts it in front of those that are given out later. -/
theorem picked_cons_of_some {ι : Type} {pick : Edit.Answer → Option ι} {i : ι}
    (hperform : d.perform edit = .ok (answer, e)) (hpick : pick answer = some i)
    (edits : List Edit) : picked pick d (edit :: edits) = i :: picked pick e edits := by
  have hafter : d.after edit = e := by
    rw [after, hperform]
  simp [picked, outcomes, hperform, hafter, Functor.map, Except.map, Except.toOption, hpick]

/-- What is picked from the answers ascends when each is numbered by a counter that it moves on. -/
theorem picked_ascending {ι : Type} {pick : Edit.Answer → Option ι} {index : ι → Nat}
    {counter : Diagram → Nat} (mono : ∀ {d e : Diagram}, d.Later e → counter d ≤ counter e)
    (numbers : ∀ {d e : Diagram} {edit answer i}, d.Change edit answer e → pick answer = some i →
      index i = counter d ∧ counter e = counter d + 1) (d : Diagram) (edits : List Edit) :
    (picked pick d edits).Pairwise (fun i j => index i < index j) ∧
      ∀ i ∈ picked pick d edits, counter d ≤ index i := by
  induction edits generalizing d with
  | nil => exact ⟨.nil, fun _ hi => nomatch hi⟩
  | cons edit edits ih =>
    by_cases hnone : ∀ answer e, d.perform edit = .ok (answer, e) → pick answer = none
    · obtain ⟨ascending, ahead⟩ := ih (d.after edit)
      rw [picked_cons_of_none hnone]
      exact ⟨ascending, fun i hi => Nat.le_trans (mono (d.later_after edit)) (ahead i hi)⟩
    · simp only [Classical.not_forall] at hnone
      obtain ⟨answer, e, hperform, hpick⟩ := hnone
      obtain ⟨i, hpick⟩ := Option.ne_none_iff_exists'.mp hpick
      obtain ⟨hindex, hcounter⟩ := numbers (change_of_perform hperform) hpick
      obtain ⟨ascending, ahead⟩ := ih e
      rw [picked_cons_of_some hperform hpick]
      refine ⟨List.pairwise_cons.mpr ⟨fun j hj => ?_, ascending⟩,
        List.forall_mem_cons.mpr ⟨Nat.le_of_eq hindex.symm, fun j hj => ?_⟩⟩
      · have := ahead j hj
        omega
      · have := ahead j hj
        omega

/-- Every identifier of a node that is given out is the counter of its moment. -/
theorem placedIds_ascending (d : Diagram) (edits : List Edit) :
    (d.placedIds edits).Pairwise (fun i j => i.index < j.index) ∧
      ∀ id ∈ d.placedIds edits, d.freshNode ≤ id.index := by
  refine picked_ascending (fun h => h.freshNode_le) ?_ d edits
  intro d e edit answer id h hpick
  cases h <;> cases hpick
  exact ⟨rfl, rfl⟩

theorem attachedIds_ascending (d : Diagram) (edits : List Edit) :
    (d.attachedIds edits).Pairwise (fun i j => i.index < j.index) ∧
      ∀ id ∈ d.attachedIds edits, d.freshLink ≤ id.index := by
  refine picked_ascending (fun h => h.freshLink_le) ?_ d edits
  intro d e edit answer id h hpick
  cases h <;> cases hpick <;> exact ⟨rfl, rfl⟩

/-! ### Identifiers that are gone -/

/-- The node is looked for before the port, so whatever port is named the node is what is missing.
-/
theorem acceptPort_of_gone {port : PortAddress} (h : d.node? port.node = none)
    (direction : Direction) : d.acceptPort port direction = .error (.noSuchNode port.node) := by
  simp [acceptPort, h, throw, throwThe, MonadExceptOf.throw]

theorem portOf_of_gone {id : NodeId} (h : d.node? id = none) (direction : Direction) :
    d.portOf id direction = .error (.noSuchNode id) := by
  have hcontains : d.nodes.contains id = false := Table.not_contains_iff.mpr h
  simp [portOf, hcontains, throw, throwThe, MonadExceptOf.throw]

/-- With a free identifier ahead, only the ports of a link can be at fault. -/
theorem attach_of_free (h : d.link? ⟨d.freshLink⟩ = none) (source target : PortAddress) :
    d.attach source target = (do
      d.acceptPort source .output
      d.acceptPort target .input
      return (⟨d.freshLink⟩, d.linked ⟨source, target⟩)) := by
  have hcontains : d.links.contains ⟨d.freshLink⟩ = false := Table.not_contains_iff.mpr h
  simp only [attach, storeLink, hcontains, Bool.false_eq_true, if_false]
  cases d.acceptPort source .output with
  | error error => rfl
  | ok _ => cases d.acceptPort target .input <;> rfl

/-- What is not stored is dead: nothing else is needed of the past of the session. -/
theorem Numbered.deadNode (h : d.Numbered) {id : NodeId} (gone : d.node? id = none) :
    d.DeadNode id := by
  -- as the next link identifier is free, attaching gets as far as the ports, and reports these
  have attach_source : ∀ port target, d.attach ⟨id, port⟩ target = .error (.noSuchNode id) := by
    intro port target
    rw [attach_of_free h.link_fresh, acceptPort_of_gone gone]
    rfl
  have attach_target : ∀ source port, d.HasPort source .output →
      d.attach source ⟨id, port⟩ = .error (.noSuchNode id) := by
    intro source port hs
    rw [attach_of_free h.link_fresh, acceptPort_eq_ok_iff.mpr hs, acceptPort_of_gone gone]
    rfl
  have hcontains : d.nodes.contains id = false := Table.not_contains_iff.mpr gone
  constructor
  · exact gone
  · intro i link hlink
    have hs := h.source_stored hlink
    have ht := h.target_stored hlink
    cases htouches : link.touches id with
    | false => rfl
    | true =>
      rcases Bool.or_eq_true_iff.mp htouches with heq | heq
      · rw [eq_of_beq heq, gone] at hs
        cases hs
      · rw [eq_of_beq heq, gone] at ht
        cases ht
  · show d.remove id >>= _ = _
    rw [remove, gone]
    rfl
  · intro properties
    show d.configure id properties >>= _ = _
    rw [configure, modifyNode, if_neg (by rw [hcontains]; exact Bool.false_ne_true)]
    rfl
  · intro position
    show d.move id position >>= _ = _
    rw [move, modifyNode, if_neg (by rw [hcontains]; exact Bool.false_ne_true)]
    rfl
  · intro port target
    show d.attach ⟨id, port⟩ target >>= _ = _
    rw [attach_source]
    rfl
  · intro source port hs
    show d.attach source ⟨id, port⟩ >>= _ = _
    rw [attach_target source port hs]
    rfl
  · intro target
    show d.join id target >>= _ = _
    rw [join, portOf_of_gone gone]
    rfl
  · intro source port hport
    have hsource : d.portOf source .output = .ok port := by
      have hstored : d.nodes.contains source = true := by
        obtain ⟨node, hnode, -⟩ := Option.bind_eq_some_iff.mp hport
        exact Option.isSome_of_mem hnode
      rw [portOf, if_pos hstored, hport]
      rfl
    show d.join source id >>= _ = _
    rw [join, hsource, portOf_of_gone gone]
    rfl

theorem deadLink_of_gone {id : LinkId} (gone : d.link? id = none) : d.DeadLink id where
  not_stored := gone
  detach := by
    show d.detach id >>= _ = _
    rw [Diagram.detach, gone]
    rfl

/-! ### No identifier is used twice -/

theorem acceptPort_ne_repeatedLink {port : PortAddress} {direction : Direction} {id : LinkId} :
    d.acceptPort port direction ≠ .error (.repeatedLink id) := by
  unfold acceptPort
  split
  · exact nofun
  · split
    · exact nofun
    · split <;> exact nofun

theorem portOf_ne_repeatedLink {node : NodeId} {direction : Direction} {id : LinkId} :
    d.portOf node direction ≠ .error (.repeatedLink id) := by
  unfold portOf
  split
  · split <;> exact nofun
  · exact nofun

theorem Numbered.attach_ne_repeatedLink (h : d.Numbered) (source target : PortAddress)
    (id : LinkId) : d.attach source target ≠ .error (.repeatedLink id) := by
  rw [attach_of_free h.link_fresh]
  intro herror
  rcases bind_eq_error_iff.mp herror with hs | ⟨_, -, herror⟩
  · exact acceptPort_ne_repeatedLink hs
  · rcases bind_eq_error_iff.mp herror with ht | ⟨_, -, herror⟩
    · exact acceptPort_ne_repeatedLink ht
    · cases herror

theorem Numbered.join_ne_repeatedLink (h : d.Numbered) (source target : NodeId) (id : LinkId) :
    d.join source target ≠ .error (.repeatedLink id) := by
  intro herror
  rcases bind_eq_error_iff.mp herror with hs | ⟨_, -, herror⟩
  · exact portOf_ne_repeatedLink hs
  · rcases bind_eq_error_iff.mp herror with ht | ⟨_, -, herror⟩
    · exact portOf_ne_repeatedLink ht
    · exact h.attach_ne_repeatedLink _ _ id herror

/-- That the next identifier of a link is taken is an error that no edit can run into. -/
theorem Numbered.perform_ne_repeatedLink (h : d.Numbered) (edit : Edit) (id : LinkId) :
    d.perform edit ≠ .error (.repeatedLink id) := by
  cases edit with
  | place node => exact nofun
  | remove i =>
    show d.remove i >>= _ ≠ _
    unfold remove
    split <;> exact nofun
  | attach source target =>
    intro herror
    rcases bind_eq_error_iff.mp herror with ha | ⟨_, -, herror⟩
    · exact h.attach_ne_repeatedLink _ _ id ha
    · cases herror
  | join source target =>
    intro herror
    rcases bind_eq_error_iff.mp herror with hj | ⟨_, -, herror⟩
    · exact h.join_ne_repeatedLink _ _ id hj
    · cases herror
  | detach i =>
    show d.detach i >>= _ ≠ _
    unfold Diagram.detach
    split <;> exact nofun
  | configure i properties =>
    show d.configure i properties >>= _ ≠ _
    unfold configure modifyNode
    split <;> exact nofun
  | move i position =>
    show d.move i position >>= _ ≠ _
    unfold move modifyNode
    split <;> exact nofun

/-! ### Sessions -/

theorem Opens.numbered (h : d.Opens) : d.Numbered := by
  cases h with
  | empty => exact wellFormed_empty.numbered
  | read h => exact (wellFormed_of_ofText h).numbered

/-- The counters begin behind the largest identifier that is read, or at zero. -/
theorem Opens.fresh_le (h : d.Opens) : d.freshNode ≤ 2 ^ 63 ∧ d.freshLink ≤ 2 ^ 63 := by
  cases h with
  | empty => exact ⟨Nat.zero_le _, Nat.zero_le _⟩
  | read h => exact fresh_le_of_ofText h

theorem wrapped_of_fits (hnode : FitsWord d.freshNode) (hlink : FitsWord d.freshLink) :
    d.wrapped = d :=
  Diagram.ext rfl rfl (Nat.mod_eq_of_lt hnode) (Nat.mod_eq_of_lt hlink)

/-- A run is the same with counters of 64 bits as long as these hold them. -/
theorem wordRun_of_fits {edits : List Edit} (h : ∀ before, before <+: edits →
    FitsWord (d.run before).freshNode ∧ FitsWord (d.run before).freshLink) :
    d.wordRun edits = d.run edits := by
  induction edits generalizing d with
  | nil => rfl
  | cons edit edits ih =>
    obtain ⟨hnode, hlink⟩ := h [edit] ((List.prefix_cons_inj edit).mpr (List.nil_prefix))
    have hafter : (d.after edit).wrapped = d.after edit := wrapped_of_fits hnode hlink
    show (d.after edit).wrapped.wordRun edits = (d.after edit).run edits
    rw [hafter]
    exact ih fun before hbefore => h (edit :: before) ((List.prefix_cons_inj edit).mpr hbefore)

/-- What is promised of the identifiers while a diagram is edited. Moments are given by the edits
up to them. -/
structure NeverReuses (d : Diagram) (edits : List Edit) : Prop where
  /-- At no moment does a counter need more than 64 bits. -/
  counters_fit : ∀ {before}, before <+: edits →
    FitsWord (d.run before).freshNode ∧ FitsWord (d.run before).freshLink
  /-- Counters of 64 bits do not come round. -/
  wordRun_eq : ∀ {before}, before <+: edits → d.wordRun before = d.run before
  /-- A node is placed where none is stored. -/
  place_free : ∀ {before}, before <+: edits → ∀ node,
    (d.run before).node? ((d.run before).place node).1 = none
  /-- So the check for a repeated link never fails. -/
  not_repeatedLink : ∀ {before}, before <+: edits → ∀ edit id,
    (d.run before).perform edit ≠ .error (.repeatedLink id)
  /-- Nodes are numbered in the order in which they are placed, and no number is given out twice. -/
  placed_ascending : (d.placedIds edits).Pairwise fun i j => i.index < j.index
  /-- No number is given to a node that some node had at the start. -/
  placed_new : ∀ id ∈ d.placedIds edits, d.node? id = none
  /-- The same goes for links, whichever of the two edits makes them. -/
  attached_ascending : (d.attachedIds edits).Pairwise fun i j => i.index < j.index
  attached_new : ∀ id ∈ d.attachedIds edits, d.link? id = none
  /-- A node that is there at one moment and not at a later one is dead from then on. -/
  node_dead : ∀ {first second third id}, first <+: second → second <+: third → third <+: edits →
    ((d.run first).node? id).isSome → (d.run second).node? id = none → (d.run third).DeadNode id
  /-- So is a link, be it taken out by itself or with a node. -/
  link_dead : ∀ {first second third id}, first <+: second → second <+: third → third <+: edits →
    ((d.run first).link? id).isSome → (d.run second).link? id = none → (d.run third).DeadLink id

/-- **Identifiers are never used again.** In a session of fewer than `2 ^ 63` edits, whatever these
are and however many of them are refused, no counter overflows, what is given out is new and
ascends, and what is taken out stays dead. -/
theorem Opens.neverReuses (h : d.Opens) {edits : List Edit} (hlength : edits.length ≤ 2 ^ 63 - 1) :
    d.NeverReuses edits := by
  have numbered : ∀ moment, (d.run moment).Numbered := fun moment => h.numbered.run moment
  have fits : ∀ before, before <+: edits →
      FitsWord (d.run before).freshNode ∧ FitsWord (d.run before).freshLink := by
    intro before hbefore
    obtain ⟨hnode, hlink⟩ := h.fresh_le
    obtain ⟨hnodes, hlinks⟩ := d.fresh_run_le before
    have := hbefore.length_le
    constructor <;> omega
  constructor
  · exact fun hbefore => fits _ hbefore
  · exact fun hbefore => wordRun_of_fits fun first hfirst => fits first (hfirst.trans hbefore)
  · exact fun _ _ => (numbered _).node_fresh
  · exact fun _ edit id => (numbered _).perform_ne_repeatedLink edit id
  · exact (d.placedIds_ascending edits).1
  · intro id hid
    refine Option.eq_none_iff_forall_ne_some.mpr fun node hnode => ?_
    exact Nat.not_lt.mpr ((d.placedIds_ascending edits).2 id hid) (h.numbered.node_lt hnode)
  · exact (d.attachedIds_ascending edits).1
  · intro id hid
    refine Option.eq_none_iff_forall_ne_some.mpr fun link hlink => ?_
    exact Nat.not_lt.mpr ((d.attachedIds_ascending edits).2 id hid) (h.numbered.link_lt hlink)
  · intro first second third id hfirst hsecond _ hstored hgone
    obtain ⟨node, hnode⟩ := Option.isSome_iff_exists.mp hstored
    -- what was stored once lies below the counter, and nothing comes in below it
    have behind := (numbered first).node_lt hnode
    have still := (later_of_isPrefix hsecond d).node_gone
      (Nat.lt_of_lt_of_le behind (later_of_isPrefix hfirst d).freshNode_le) hgone
    exact (numbered third).deadNode still
  · intro first second third id hfirst hsecond _ hstored hgone
    obtain ⟨link, hlink⟩ := Option.isSome_iff_exists.mp hstored
    have behind := (numbered first).link_lt hlink
    have still := (later_of_isPrefix hsecond d).link_gone
      (Nat.lt_of_lt_of_le behind (later_of_isPrefix hfirst d).freshLink_le) hgone
    exact deadLink_of_gone still

/-- Four nodes are placed with four identifiers, of which the last is dead, and so is the link that
was removed with it. -/
theorem neverReuses_sample : Opens ∅ ∧ sampleEdits.length ≤ 2 ^ 63 - 1 ∧
    placedIds ∅ sampleEdits = [⟨0⟩, ⟨1⟩, ⟨2⟩, ⟨3⟩] ∧ NeverReuses ∅ sampleEdits ∧
      (run ∅ sampleEdits).DeadNode ⟨3⟩ ∧ (run ∅ sampleEdits).DeadLink ⟨2⟩ := by
  have hlength : sampleEdits.length ≤ 2 ^ 63 - 1 := by decide
  have h : NeverReuses ∅ sampleEdits := Opens.neverReuses .empty hlength
  have hprefix : sampleEdits.take 7 <+: sampleEdits := List.take_prefix 7 _
  exact ⟨.empty, hlength, by decide, h,
    h.node_dead hprefix (List.prefix_refl _) (List.prefix_refl _) (by decide) rfl,
    h.link_dead hprefix (List.prefix_refl _) (List.prefix_refl _) (by decide) rfl⟩

end Diagram
end PipelineCanvas
