import PipelineCanvas.Diagram.InPlace
/-! # Edits in place

Edits in place are **all or nothing**: each comes to the edit that hands back a new diagram or none.
Two reasons carry the proofs. Checks come before the first write, and where a write comes before its
check, as when something is taken out, it has written nothing if the check fails. Behind the last
check nothing can fail.

A program that works in place is compared with a function by `settle`: where the function has given
a new diagram, this is what the program leaves behind, and where it has failed, the program leaves
the diagram as it found it. The comparison is an equation, so it can be rewritten with, and programs
that are put together of others are compared part by part. What no lemma covers is a program that
fails after it has changed something, and there is none. -/
namespace PipelineCanvas
namespace InPlace
variable {ε δ α β : Type} {d e : Diagram}

/-- The second program goes on where the first has left the diagram, also where that was a failure.
-/
theorem on_bind (program : InPlace ε α) (next : α → InPlace ε β) (d : Diagram) :
    on (program >>= next) d = match program.on d with
      | (.ok a, e) => (next a).on e
      | (.error error, e) => (.error error, e) := by
  show ExceptT.bindCont next (program.on d).1 (program.on d).2 = _
  rcases program.on d with ⟨answer, e⟩
  cases answer <;> rfl

@[simp] theorem on_get (d : Diagram) : on (get : InPlace ε Diagram) d = (.ok d, d) := rfl

@[simp] theorem on_modify (f : Diagram → Diagram) (d : Diagram) :
    on (modify f : InPlace ε Unit) d = (.ok (), f d) := rfl

@[simp] theorem on_liftExcept (answer : Except ε α) (d : Diagram) :
    on (liftExcept answer : InPlace ε α) d = (answer, d) := by
  cases answer <;> rfl

@[simp] theorem on_look (ask : Diagram → Except ε α) (d : Diagram) :
    (look ask).on d = (ask d, d) := by
  rw [look, on_bind, on_get]
  exact on_liftExcept (ask d) d

@[simp] theorem on_adapt (program : InPlace ε α) (f : ε → δ) (d : Diagram) :
    on (program.adapt f : InPlace δ α) d = ((program.on d).1.mapError f, (program.on d).2) := rfl

/-! ### All or nothing -/

/-- The answer to an edit, and the diagram it leaves: the new one, or the old one where the edit is
refused. -/
def settle (d : Diagram) : Except ε (α × Diagram) → Except ε α × Diagram
  | .ok (a, e) => (.ok a, e)
  | .error error => (.error error, d)

/-- An error says that nothing has been written. -/
theorem settle_of_error {outcome : Except ε (α × Diagram)} {error : ε}
    (h : settle d outcome = (.error error, e)) : e = d := by
  cases outcome with
  | ok r => cases h
  | error _ =>
    cases h
    rfl

/-- What cannot fail may follow an edit that is all or nothing. -/
theorem on_bind_of_settle {program : InPlace ε α} {outcome : Except ε (α × Diagram)}
    {next : α → InPlace ε β} {finish : α × Diagram → β × Diagram}
    (h : program.on d = settle d outcome)
    (hnext : ∀ r, (next r.1).on r.2 = (.ok (finish r).1, (finish r).2)) :
    on (program >>= next) d = settle d (outcome >>= fun r => .ok (finish r)) := by
  rw [on_bind, h]
  cases outcome with
  | error _ => rfl
  | ok r => exact hnext r

/-- The same behind an edit that answers nothing. -/
theorem on_bind_of_store {program : InPlace ε Unit} {outcome : Except ε Diagram}
    {next : Unit → InPlace ε β} {finish : Diagram → β × Diagram}
    (h : program.on d = settle d (do return ((), ← outcome)))
    (hnext : ∀ e, (next ()).on e = (.ok (finish e).1, (finish e).2)) :
    on (program >>= next) d = settle d (outcome >>= fun e => .ok (finish e)) := by
  rw [on_bind_of_settle h fun r => hnext r.2, bind_assoc]
  rfl

/-- What writes nothing may come before an edit that is all or nothing. -/
theorem on_liftExcept_bind {answer : Except ε α} {next : α → InPlace ε β}
    {outcome : α → Except ε (β × Diagram)} (h : ∀ a, (next a).on d = settle d (outcome a)) :
    on (liftExcept answer >>= next) d = settle d (answer >>= outcome) := by
  rw [on_bind, on_liftExcept]
  cases answer with
  | error _ => rfl
  | ok a => exact h a

/-- To look first and go on with what was seen is all or nothing if what follows is. -/
theorem on_look_bind {ask : Diagram → Except ε α} {next : α → InPlace ε β}
    {outcome : α → Except ε (β × Diagram)} (h : ∀ a, (next a).on d = settle d (outcome a)) :
    on (look ask >>= next) d = settle d (ask d >>= outcome) := by
  rw [on_bind, on_look, ← on_liftExcept_bind h, on_bind, on_liftExcept]

theorem settle_look (d : Diagram) (answer : Except ε α) :
    settle d (answer >>= fun a => .ok (a, d)) = (answer, d) := by
  cases answer <;> rfl

/-- An edit that is all or nothing is so whatever its errors are made into. -/
theorem adapt_on_of_settle {program : InPlace ε α} {outcome : Except ε (α × Diagram)} (f : ε → δ)
    (h : program.on d = settle d outcome) :
    on (program.adapt f : InPlace δ α) d = settle d (outcome.mapError f) := by
  rw [on_adapt, h]
  cases outcome <;> rfl

/-- Errors may be told in other words. -/
theorem adapt_on_of_store {program : InPlace ε Unit} {outcome : Except ε Diagram} (f : ε → δ)
    (h : program.on d = settle d (do return ((), ← outcome))) :
    on (program.adapt f : InPlace δ Unit) d = settle d (do return ((), ← outcome.mapError f)) := by
  rw [on_adapt, h]
  cases outcome <;> rfl

/-! ### Edits -/

/-- Where there is no node to take out, nothing has been taken out. -/
theorem remove_on (id : NodeId) (d : Diagram) : (remove id).on d = settle d (d.remove id) := by
  unfold remove Diagram.remove
  simp only [on_bind, on_get, on_modify]
  cases hid : d.node? id with
  | none =>
    have gone : d.nodes.erase id = d.nodes := Table.erase_of_get?_eq_none hid
    rw [gone]
    rfl
  | some node => rfl

/-- The link is stored last, when both ports have been accepted. -/
theorem storeLink_on (id : LinkId) (link : Link) (d : Diagram) :
    (storeLink id link).on d = settle d (do return ((), ← d.storeLink id link)) := by
  unfold storeLink Diagram.storeLink
  rw [on_bind, on_get]
  cases hid : d.links.contains id with
  | true =>
    simp only [hid]
    rfl
  | false =>
    simp only [hid, Bool.false_eq_true, if_false, bind_assoc]
    exact on_look_bind fun _ => on_look_bind fun _ => rfl

/-- Both ports are looked at before the link is stored, and the counter is moved last. -/
theorem attach_on (source target : PortAddress) (d : Diagram) :
    (attach source target).on d = settle d (d.attach source target) := by
  unfold attach
  rw [on_bind, on_get]
  -- the next identifier is the one before the link is stored
  exact on_bind_of_store (storeLink_on ⟨d.freshLink⟩ ⟨source, target⟩ d) fun _ => rfl

theorem join_on (source target : NodeId) (d : Diagram) :
    (join source target).on d = settle d (d.join source target) :=
  on_look_bind fun _ => on_look_bind fun _ => attach_on _ _ d

/-- The link is taken out before it is seen whether it was there, and where it was not, nothing has
been taken. -/
theorem detach_on (id : LinkId) (d : Diagram) : (detach id).on d = settle d (d.detach id) := by
  unfold detach Diagram.detach
  simp only [on_bind, on_get, on_modify]
  cases hid : d.link? id with
  | none =>
    have gone : d.links.erase id = d.links := Table.erase_of_get?_eq_none hid
    rw [gone]
    rfl
  | some link => rfl

/-- That the node is there is looked at before it is changed. -/
theorem modifyNode_on (id : NodeId) (f : Node → Node) (d : Diagram) :
    (modifyNode id f).on d = settle d (do return ((), ← d.modifyNode id f)) := by
  unfold modifyNode Diagram.modifyNode
  rw [on_bind, on_get]
  cases hid : d.nodes.contains id with
  | true =>
    simp only [hid]
    rfl
  | false =>
    simp only [hid]
    rfl

/-- An edit in place is all or nothing. To place a node there is nothing that could fail. -/
theorem perform_on (edit : Edit) (d : Diagram) :
    (perform edit).on d = settle d (d.perform edit) := by
  cases edit with
  | place node => rfl
  | remove id => exact on_bind_of_settle (remove_on id d) fun _ => rfl
  | attach source target => exact on_bind_of_settle (attach_on source target d) fun _ => rfl
  | join source target => exact on_bind_of_settle (join_on source target d) fun _ => rfl
  | detach id => exact on_bind_of_settle (detach_on id d) fun _ => rfl
  | configure id properties => exact on_bind_of_store (modifyNode_on id _ d) fun _ => rfl
  | move id position => exact on_bind_of_store (modifyNode_on id _ d) fun _ => rfl

end InPlace
end PipelineCanvas
