import PipelineCanvas.Chain.InPlace
import PipelineCanvas.Proofs.Limits
/-! # The walk ends

Every pass of the loop in `Walker.pass` marks a node that was not marked before, or is the last. A
pass that does not end the loop has also found the node that it marked. So when a pass begins, the
marked nodes are all stored, and are one more than the passes made (`Sound`). The count of steps
stays below the number of nodes, which a word of 64 bits holds, and does not come round.

This asks nothing of the links: they may go in circles, or lead to nodes that are not there. The
loop is bounded by nothing else, and comes to what `Diagram.walk` comes to, in as many passes
(`Sound.ends`).

The loop is stated as a relation between a walker and what comes of it (`Ends`), and not as a
function, since nothing but the proof says that there is an end. The relation is deterministic
(`Ends.unique`), so a bound on the passes of some way to the end is a bound on the passes of the
loop. The walker counts in words of 64 bits and compares with the limit after adding one; the
comparison is what would go wrong if the count came round, so that it does not is a part of the
result and not only of the proof.

One assumption is made, that the nodes of the diagram can be counted in a word. A table of nodes
that could not would not fit into the memory of the machine. -/
namespace PipelineCanvas

namespace Diagram

/-! ### How often a walk looks for links -/

/-- Once, or once more than the walk that goes on from another node. -/
theorem passes_walk_cases (d : Diagram) (refuse : Bool) (stepsLeft : Nat) (visited : List NodeId)
    (current : NodeId) : (d.walk refuse stepsLeft visited current).passes = 1 ∨
      ∃ next node left, d.following refuse visited current = .ok next ∧ stepsLeft = left + 1 ∧
        d.node? next = some node ∧ (d.walk refuse stepsLeft visited current).passes =
          (d.walk refuse left (next :: visited) next).passes + 1 := by
  rcases d.walk_cases refuse stepsLeft visited current with
    ⟨_, -, hwalk⟩ | ⟨_, -, -, hwalk⟩ | ⟨_, _, -, -, -, hwalk⟩ |
    ⟨next, node, left, hfollow, hleft, hnode, hwalk⟩
  · exact .inl (by rw [hwalk, Walk.passes])
  · exact .inl (by rw [hwalk, Walk.passes])
  · exact .inl (by rw [hwalk, Walk.passes])
  · by_cases hkind : node.kind = .consumer
    · exact .inl (by rw [hwalk, if_pos hkind, Walk.passes, Walk.passes])
    · refine .inr ⟨next, node, left, hfollow, hleft, hnode, ?_⟩
      rw [hwalk, if_neg hkind, Walk.passes]

/-- At most once more than it may take steps. -/
theorem passes_walk_le_succ (d : Diagram) (refuse : Bool) (stepsLeft : Nat) (visited : List NodeId)
    (current : NodeId) : (d.walk refuse stepsLeft visited current).passes ≤ stepsLeft + 1 := by
  induction stepsLeft using Nat.strong_induction_on generalizing visited current with
  | _ stepsLeft ih =>
    rcases d.passes_walk_cases refuse stepsLeft visited current with
      hlast | ⟨next, node, left, -, rfl, -, hpasses⟩
    · omega
    · have hrest := ih left (Nat.lt_succ_self left) (next :: visited) next
      omega

/-- At most once for each node that has not been visited, and once more. -/
theorem passes_walk_le (d : Diagram) (refuse : Bool) (stepsLeft : Nat) {visited : List NodeId}
    (current : NodeId) (nodup : visited.Nodup)
    (stored : ∀ id ∈ visited, ∃ node, d.node? id = some node) :
    (d.walk refuse stepsLeft visited current).passes + visited.length ≤ d.nodes.size + 1 := by
  induction stepsLeft using Nat.strong_induction_on generalizing visited current with
  | _ stepsLeft ih =>
    have hsize : visited.length ≤ d.nodes.size := Table.length_le_size nodup stored
    rcases d.passes_walk_cases refuse stepsLeft visited current with
      hlast | ⟨next, node, left, hfollow, rfl, hnode, hpasses⟩
    · omega
    · obtain ⟨-, fresh⟩ := leadsOnly_of_following hfollow
      have hrest := ih left (Nat.lt_succ_self left) next (List.nodup_cons.mpr ⟨fresh, nodup⟩)
        (List.forall_mem_cons.mpr ⟨⟨node, hnode⟩, stored⟩)
      rw [List.length_cons] at hrest
      omega

end Diagram

namespace Walker
variable {d : Diagram} {limit : UInt64} {refuse : Bool} {w w' : Walker}

/-! ### One pass -/

/-- How a program with errors and a state goes on. The equations below open the loop once, so that
no later proof does. -/
theorem run_bind {α β : Type} (program : ExceptT ChainError (StateM Walker) α)
    (rest : α → ExceptT ChainError (StateM Walker) β) (w : Walker) :
    (program >>= rest).run.run w = match program.run.run w with
      | (.ok a, w') => (rest a).run.run w'
      | (.error error, w') => (.error error, w') := by
  show ExceptT.bindCont rest (program.run.run w).1 (program.run.run w).2 = _
  rcases program.run.run w with ⟨answer, w'⟩
  cases answer <;> rfl

theorem run_get (w : Walker) :
    (get : ExceptT ChainError (StateM Walker) Walker).run.run w = (.ok w, w) := rfl

theorem run_modify (f : Walker → Walker) (w : Walker) :
    (modify f : ExceptT ChainError (StateM Walker) Unit).run.run w = (.ok (), f w) := rfl

theorem run_liftExcept {α : Type} (answer : Except ChainError α) (w : Walker) :
    (liftExcept answer : ExceptT ChainError (StateM Walker) α).run.run w = (answer, w) := by
  cases answer <;> rfl

/-- The loop has marked a node and counted a step. -/
def led (w : Walker) (next : NodeId) : Walker :=
  { w with visited := next :: w.visited, steps := w.steps + 1 }

/-- The loop has come to a node. -/
def moved (w : Walker) (stop : Stop) : Walker :=
  { w.led stop.1 with chain := w.chain ++ [stop], current := stop.1 }

/-- One pass in full: the next node is looked for, then counted, then looked up. -/
theorem afterPass_eq (w : Walker) (d : Diagram) (limit : UInt64) (refuse : Bool) :
    w.afterPass d limit refuse = match d.following refuse w.visited w.current with
      | .error error => (.error error, w)
      | .ok next =>
        if limit < w.steps + 1 then (.error .tooLong, w.led next)
        else match d.node? next with
          | none => (.error (.dangling w.current), w.led next)
          | some node => (.ok (node.kind == .consumer), w.moved (next, node)) := by
  simp only [afterPass, pass, run_bind, run_get, run_modify, run_liftExcept]
  cases d.following refuse w.visited w.current with
  | error error => rfl
  | ok next =>
    by_cases hlimit : limit < w.steps + 1
    · simp only [if_pos hlimit]
      rfl
    · simp only [if_neg hlimit]
      cases d.node? next <;> rfl

/-- A pass writes nothing, or marks a node and breaks off, or comes to the node it has marked. -/
theorem afterPass_cases (w : Walker) (d : Diagram) (limit : UInt64) (refuse : Bool) :
    (∃ error, w.afterPass d limit refuse = (.error error, w)) ∨
    (∃ error next, w.afterPass d limit refuse = (.error error, w.led next)) ∨
    ∃ next node, d.following refuse w.visited w.current = .ok next ∧ ¬ limit < w.steps + 1 ∧
      d.node? next = some node ∧
        w.afterPass d limit refuse = (.ok (node.kind == .consumer), w.moved (next, node)) := by
  rw [afterPass_eq]
  cases hfollow : d.following refuse w.visited w.current with
  | error error => exact .inl ⟨error, rfl⟩
  | ok next =>
    by_cases hlimit : limit < w.steps + 1
    · exact .inr (.inl ⟨.tooLong, next, by simp [hlimit]⟩)
    · cases hnode : d.node? next with
      | none => exact .inr (.inl ⟨.dangling w.current, next, by simp [hlimit, hnode]⟩)
      | some node =>
        exact .inr (.inr ⟨next, node, rfl, hlimit, hnode, by simp [hlimit, hnode]⟩)

/-! ### The loop -/

/-- A pass that does not end the loop. -/
def Goes (d : Diagram) (limit : UInt64) (refuse : Bool) (w w' : Walker) : Prop :=
  w.afterPass d limit refuse = (.ok false, w')

/-- A pass after some passes that do not end the loop begins so. -/
abbrev Reaches (d : Diagram) (limit : UInt64) (refuse : Bool) : Walker → Walker → Prop :=
  Relation.ReflTransGen (Goes d limit refuse)

/-- The loop ends, with so many passes still made, and this comes of it. -/
inductive Ends (d : Diagram) (limit : UInt64) (refuse : Bool) :
    Walker → Nat → Except ChainError (List Stop) → Prop where
  /-- The last pass breaks a rule, or comes to a consumer. -/
  | last {w w' : Walker} {answer : Except ChainError Bool}
    (h : w.afterPass d limit refuse = (answer, w')) (hlast : answer ≠ .ok false) :
    Ends d limit refuse w 1 (answer.map fun _ => w'.chain)
  /-- A pass that does not end the loop is counted, and the loop goes on from the walker after it.
  -/
  | again {w w' : Walker} {passes : Nat} {result : Except ChainError (List Stop)}
    (h : Goes d limit refuse w w') (rest : Ends d limit refuse w' passes result) :
    Ends d limit refuse w (passes + 1) result

/-- The loop ends in one way only. -/
theorem Ends.unique {passes passes' : Nat} {result result' : Except ChainError (List Stop)}
    (h : Ends d limit refuse w passes result) (h' : Ends d limit refuse w passes' result') :
    passes = passes' ∧ result = result' := by
  induction h generalizing passes' result' with
  | last h hlast =>
    cases h' with
    | last h' _ =>
      cases h.symm.trans h'
      exact ⟨rfl, rfl⟩
    | again h' _ =>
      cases h.symm.trans h'
      exact absurd rfl hlast
  | again h _ ih =>
    cases h' with
    | last h' hlast =>
      cases h.symm.trans h'
      exact absurd rfl hlast
    | again h' rest =>
      cases h.symm.trans h'
      obtain ⟨rfl, rfl⟩ := ih rest
      exact ⟨rfl, rfl⟩

/-! ### What a pass keeps -/

/-- What holds of the loop when a pass begins. -/
structure Sound (d : Diagram) (limit : UInt64) (w : Walker) : Prop where
  /-- No node is marked twice. -/
  nodup : w.visited.Nodup
  /-- All marked nodes are there. -/
  stored : ∀ id ∈ w.visited, ∃ node, d.node? id = some node
  /-- The nodes are one more than the steps, as the walk begins at a marked one. -/
  counted : w.visited.length = w.steps.toNat + 1
  /-- The limit has not been passed. -/
  within : w.steps.toNat ≤ limit.toNat

/-- At the start the producer is marked and no step has been made. -/
theorem sound_start {id : NodeId} {node : Node} (h : d.node? id = some node) :
    Sound d limit (start (id, node)) where
  nodup := List.pairwise_singleton _ id
  stored := List.forall_mem_singleton.mpr ⟨node, h⟩
  counted := rfl
  within := Nat.zero_le _

/-- The steps are fewer than the nodes. -/
theorem Sound.steps_lt (h : Sound d limit w) : w.steps.toNat < d.nodes.size := by
  have := Table.length_le_size h.nodup h.stored
  rw [h.counted] at this
  omega

/-- So the count does not come round. -/
theorem Sound.steps_succ (h : Sound d limit w) (fits : d.nodes.size < UInt64.size) :
    (w.steps + 1).toNat = w.steps.toNat + 1 := by
  have hlt : w.steps.toNat + 1 < UInt64.size := Nat.lt_of_le_of_lt h.steps_lt fits
  rw [UInt64.toNat_add]
  exact Nat.mod_eq_of_lt hlt

/-- The next step is one too many just when there is none left to take. -/
theorem Sound.limit_lt_iff (h : Sound d limit w) (fits : d.nodes.size < UInt64.size) {left : Nat}
    (hleft : w.steps.toNat + left = limit.toNat) : limit < w.steps + 1 ↔ left = 0 := by
  rw [UInt64.lt_iff_toNat_lt, h.steps_succ fits]
  omega

/-- The step of the invariant. That the next node was not marked is what `following` has checked,
and that the count does not come round is that the nodes are fewer than a word can count. -/
theorem Sound.moved (h : Sound d limit w) (fits : d.nodes.size < UInt64.size) {next : NodeId}
    {node : Node} (hfollow : d.following refuse w.visited w.current = .ok next)
    (hlimit : ¬ limit < w.steps + 1) (hnode : d.node? next = some node) :
    Sound d limit (w.moved (next, node)) where
  nodup := List.nodup_cons.mpr ⟨(Diagram.leadsOnly_of_following hfollow).2, h.nodup⟩
  stored := List.forall_mem_cons.mpr ⟨⟨node, hnode⟩, h.stored⟩
  counted := by
    show (next :: w.visited).length = (w.steps + 1).toNat + 1
    rw [List.length_cons, h.counted, h.steps_succ fits]
  within := Nat.le_of_not_lt fun hlt => hlimit (UInt64.lt_iff_toNat_lt.mpr hlt)

/-- A pass that does not end the loop has moved on to a node that is there. -/
theorem Sound.goes (h : Sound d limit w) (fits : d.nodes.size < UInt64.size)
    (hgoes : Goes d limit refuse w w') : Sound d limit w' := by
  rcases w.afterPass_cases d limit refuse with
    ⟨_, hpass⟩ | ⟨_, _, hpass⟩ | ⟨next, node, hfollow, hlimit, hnode, hpass⟩
  · rw [Goes, hpass] at hgoes
    cases hgoes
  · rw [Goes, hpass] at hgoes
    cases hgoes
  · rw [Goes, hpass] at hgoes
    obtain rfl : w.moved (next, node) = w' := congrArg Prod.snd hgoes
    exact h.moved fits hfollow hlimit hnode

/-- By induction on the passes. -/
theorem Sound.reaches (h : Sound d limit w) (fits : d.nodes.size < UInt64.size)
    (hreaches : Reaches d limit refuse w w') : Sound d limit w' := by
  induction hreaches with
  | refl => exact h
  | tail _ hgoes ih => exact ih.goes fits hgoes

/-- The last pass, too, counts no more steps than there are nodes. -/
theorem Sound.steps_afterPass_le (h : Sound d limit w) (fits : d.nodes.size < UInt64.size) :
    (w.afterPass d limit refuse).2.steps.toNat ≤ d.nodes.size := by
  have hlt := h.steps_lt
  have hsucc : (w.steps + 1).toNat ≤ d.nodes.size := by
    rw [h.steps_succ fits]
    exact hlt
  rcases w.afterPass_cases d limit refuse with
    ⟨_, hpass⟩ | ⟨_, _, hpass⟩ | ⟨next, node, -, -, -, hpass⟩
  · rw [hpass]
    exact Nat.le_of_lt hlt
  · rw [hpass]
    exact hsucc
  · rw [hpass]
    exact hsucc

/-! ### The loop is the walk -/

theorem map_append_stop (before : List Stop) (stop : Stop)
    (found : Except ChainError (List Stop)) :
    ((before ++ [stop]) ++ ·) <$> found = (before ++ ·) <$> (stop :: ·) <$> found := by
  cases found with
  | error _ => rfl
  | ok behind => exact congrArg Except.ok (List.append_assoc before [stop] behind)

/-- The loop comes to what the walk comes to that has as many steps left. -/
theorem Sound.ends (h : Sound d limit w) (fits : d.nodes.size < UInt64.size) {left : Nat}
    (hleft : w.steps.toNat + left = limit.toNat) :
    Ends d limit refuse w (d.walk refuse left w.visited w.current).passes
      ((w.chain ++ ·) <$> (d.walk refuse left w.visited w.current).stops) := by
  induction left using Nat.strong_induction_on generalizing w with
  | _ left ih =>
    -- the walk runs out of steps where the count passes the limit
    have hlimit := h.limit_lt_iff fits hleft
    have hpass := w.afterPass_eq d limit refuse
    rcases d.walk_cases refuse left w.visited w.current with
      ⟨error, hfollow, hwalk⟩ | ⟨next, hfollow, rfl, hwalk⟩ |
      ⟨next, left, hfollow, rfl, hnode, hwalk⟩ |
      ⟨next, node, left, hfollow, rfl, hnode, hwalk⟩
    · rw [hfollow] at hpass
      rw [hwalk]
      exact .last hpass nofun
    · simp only [hfollow, if_pos (hlimit.mpr rfl)] at hpass
      rw [hwalk]
      exact .last hpass nofun
    · have hwithin : ¬ limit < w.steps + 1 := fun hlt => nomatch hlimit.mp hlt
      simp only [hfollow, if_neg hwithin, hnode] at hpass
      rw [hwalk]
      exact .last hpass nofun
    · have hwithin : ¬ limit < w.steps + 1 := fun hlt => nomatch hlimit.mp hlt
      simp only [hfollow, if_neg hwithin, hnode] at hpass
      rw [hwalk, Walk.passes, Walk.stops_step]
      by_cases hkind : node.kind = .consumer
      · rw [if_pos hkind]
        rw [hkind] at hpass
        exact .last hpass nofun
      · rw [beq_false_of_ne hkind] at hpass
        have hleft' : (w.steps + 1).toNat + left = limit.toNat := by
          rw [h.steps_succ fits]
          omega
        have hrest := ih left (Nat.lt_succ_self left) (h.moved fits hfollow hwithin hnode) hleft'
        rw [if_neg hkind, ← map_append_stop]
        exact .again hpass hrest

/-- What makes sure that the loop ends. -/
structure Bounded (d : Diagram) (limit : UInt64) (refuse : Bool) (producer : Stop) : Prop where
  /-- It comes to the chain of the diagram, or to the rule that is broken. -/
  ends : ∃ passes, Ends d limit refuse (start producer) passes (d.chain limit.toNat refuse)
  /-- The passes are bounded by the limit and by the number of nodes, whichever is less. -/
  passes_le : ∀ {passes result}, Ends d limit refuse (start producer) passes result →
    passes ≤ min (limit.toNat + 1) d.nodes.size
  /-- The count of steps does not come round, whichever pass is next. -/
  steps_succ : ∀ {w}, Reaches d limit refuse (start producer) w →
    (w.steps + 1).toNat = w.steps.toNat + 1
  /-- The count stays within the number of nodes, behind the last pass too. -/
  steps_le : ∀ {w}, Reaches d limit refuse (start producer) w →
    w.steps.toNat ≤ d.nodes.size ∧ (w.afterPass d limit refuse).2.steps.toNat ≤ d.nodes.size

/-- **The walk ends on every diagram that has one producer**, wherever its links lead, after no more
passes than there are nodes and than one more than the steps it may take. That the number of nodes
fits in a word is all that is asked. -/
theorem bounded {id : NodeId} {node : Node} (h : d.OnlyProducer id) (hnode : d.node? id = some node)
    (fits : d.nodes.size < UInt64.size) (limit : UInt64) (refuse : Bool) :
    Bounded d limit refuse (id, node) := by
  have hsound : Sound d limit (start (id, node)) := sound_start hnode
  have hstart : d.start = .ok (id, node) := by
    obtain ⟨found, hstart, hfound⟩ := Diagram.start_of_onlyProducer h
    rw [hnode] at hfound
    cases hfound
    exact hstart
  -- the loop ends where the walk does, and its passes are those of the walk
  have hends : Ends d limit refuse (start (id, node))
      (d.walk refuse limit.toNat [id] id).passes (d.chain limit.toNat refuse) := by
    rw [Diagram.chain_of_start hstart]
    exact hsound.ends fits (Nat.zero_add _)
  constructor
  · exact ⟨_, hends⟩
  · intro passes result hother
    obtain ⟨rfl, -⟩ := hother.unique hends
    have hsteps := d.passes_walk_le_succ refuse limit.toNat [id] id
    have hnodes := d.passes_walk_le refuse limit.toNat id hsound.nodup hsound.stored
    rw [show (start (id, node)).visited = [id] from rfl, List.length_singleton] at hnodes
    omega
  · intro w hreaches
    exact (hsound.reaches fits hreaches).steps_succ fits
  · intro w hreaches
    have hw := hsound.reaches fits hreaches
    exact ⟨Nat.le_of_lt hw.steps_lt, hw.steps_afterPass_le fits⟩

/-- A producer that leads into a link from a node to itself, and a link between nodes that are not
there. -/
def astray : Diagram where
  nodes := .ofList [(⟨0⟩, .new "Source" .producer), (⟨1⟩, .new "Filter" .transformer)]
  links := .ofList [(⟨0⟩, ⟨⟨⟨0⟩, 0⟩, ⟨⟨1⟩, 0⟩⟩), (⟨1⟩, ⟨⟨⟨1⟩, 1⟩, ⟨⟨1⟩, 0⟩⟩),
    (⟨2⟩, ⟨⟨⟨7⟩, 0⟩, ⟨⟨9⟩, 0⟩⟩)]
  freshNode := 2
  freshLink := 3

/-- With the greatest limit there is. -/
theorem bounded_astray : astray.OnlyProducer ⟨0⟩ ∧
    astray.node? ⟨0⟩ = some (.new "Source" .producer) ∧ astray.nodes.size < UInt64.size ∧
      Bounded astray 0xFFFFFFFFFFFFFFFF false (⟨0⟩, .new "Source" .producer) := by
  have hstart : astray.start = .ok (⟨0⟩, .new "Source" .producer) := rfl
  obtain ⟨hnode, honly⟩ := Diagram.onlyProducer_of_start hstart
  have fits : astray.nodes.size < UInt64.size := by decide
  exact ⟨honly, hnode, fits, bounded honly hnode fits _ false⟩

end Walker
end PipelineCanvas
