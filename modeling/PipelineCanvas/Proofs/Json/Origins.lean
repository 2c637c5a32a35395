import PipelineCanvas.Proofs.Json.Records
/-! # Where what has been read comes from

Other files say what is read off a given text. This one goes the other way: something has been read,
and the question is what is known of it. A tree that has been read is no deeper than was allowed
(`Reader.depth_le_of_tree`), and putting its members in order makes it no deeper. So properties that
come from a file can be written to one again.

The values of a record that has been read or viewed have each been read or viewed in the shape of
their field, or are what the field holds where it is left out (`Fields.Come`). The origin of a value
is a parameter of this, since the values of a list are read from texts and those of an entry are
viewed in trees. What carries the induction is the same of the slots that are filled so far
(`Fields.SlotsCome`), as a member fills at most one and leaves the others. -/
namespace PipelineCanvas.Json
open Reader
variable {α ι : Type} {αs : List Type} {cs rest : List Char}

/-! ### Parts between brackets -/

/-- What each part keeps, a pass over all parts keeps. -/
theorem Reader.Brackets.pass_keeps {b : Brackets} {σ : Type} {part : σ → Reader σ} {P : σ → Prop}
    (keeps : ∀ {s s' cs rest}, part s cs = .ok (s', rest) → P s → P s') {s s' : σ}
    (h : b.pass part s cs = .ok (s', rest)) (hs : P s) : P s' := by
  -- the budget is not a part of the statement, and the induction is on it
  suffices ∀ {budget cs : List Char} {first : Bool} {s : σ},
      rounds (b.step part) budget (first, s) cs = .ok (s', rest) → P s → P s' from this h hs
  intro budget
  induction budget with
  | nil => exact fun h => nomatch h
  | cons c budget ih =>
    intro cs first s h hs
    unfold Reader.rounds at h
    split at h
    · cases h
    · next hstep =>
      obtain ⟨has, _, -, hstep⟩ := Reader.bind_eq_ok_iff.mp hstep
      cases has with
      | true =>
        obtain ⟨_, _, hpart, hstep⟩ := Reader.bind_eq_ok_iff.mp hstep
        cases hstep
        exact ih h (keeps hpart hs)
      | false =>
        obtain ⟨_, _, -, hstep⟩ := Reader.bind_eq_ok_iff.mp hstep
        cases hstep
    · next hstep =>
      obtain ⟨has, _, -, hstep⟩ := Reader.bind_eq_ok_iff.mp hstep
      cases has with
      | true =>
        obtain ⟨_, _, -, hstep⟩ := Reader.bind_eq_ok_iff.mp hstep
        cases hstep
      | false =>
        obtain ⟨_, _, -, hstep⟩ := Reader.bind_eq_ok_iff.mp hstep
        cases hstep
        cases h
        exact hs

/-- Every part has been read as one. -/
theorem Reader.Brackets.mem_of_collect {b : Brackets} {part : Reader α} {parts : List α}
    (h : b.collect part cs = .ok (parts, rest)) :
    ∀ a ∈ parts, ∃ cs' rest', part cs' = .ok (a, rest') := by
  obtain ⟨read, hpass, rfl⟩ := Reader.map_eq_ok_iff.mp h
  have hread : ∀ a ∈ read, ∃ cs' rest', part cs' = .ok (a, rest') := by
    -- what the pass keeps is that all that it has kept so far has been read
    refine pass_keeps (P := fun read : List α => ∀ a ∈ read, ∃ cs' rest', part cs' = .ok (a, rest'))
      ?_ hpass (List.forall_mem_nil _)
    intro read read' cs rest hpush hread
    obtain ⟨a, _, ha, hpush⟩ := Reader.bind_eq_ok_iff.mp hpush
    cases hpush
    exact List.forall_mem_cons.mpr ⟨⟨_, _, ha⟩, hread⟩
  exact fun a ha => hread a (List.mem_reverse.mp ha)

/-! ### Nesting -/

/-- **A tree that has been read is no deeper than was allowed.** -/
theorem Reader.depth_le_of_tree {depth : Nat} {t : Json} (h : tree depth cs = .ok (t, rest)) :
    t.depth ≤ depth := by
  induction depth generalizing t cs rest with
  | zero =>
    cases t with
    | array items =>
      obtain ⟨_, _, hdepth, -⟩ := tree_array h
      cases hdepth
    | object members =>
      obtain ⟨_, _, hdepth, -⟩ := tree_object h
      cases hdepth
    | _ => exact Nat.le_refl 0
  | succ depth ih =>
    cases t with
    | array items =>
      obtain ⟨_, _, hdepth, -, hitems⟩ := tree_array h
      cases hdepth
      refine Nat.succ_le_succ (depthItems_le fun t ht => ?_)
      obtain ⟨_, _, ht⟩ := Brackets.mem_of_collect hitems t ht
      exact ih ht
    | object members =>
      obtain ⟨_, _, hdepth, -, hmembers⟩ := tree_object h
      cases hdepth
      rw [Json.depth, depthMembers_eq]
      refine Nat.succ_le_succ (depthItems_le fun t ht => ?_)
      obtain ⟨m, hm, rfl⟩ := List.mem_map.mp ht
      obtain ⟨_, _, hmember⟩ := Brackets.mem_of_collect hmembers m hm
      obtain ⟨_, _, -, hmember⟩ := Reader.bind_eq_ok_iff.mp hmember
      obtain ⟨_, _, -, hmember⟩ := Reader.bind_eq_ok_iff.mp hmember
      obtain ⟨_, _, ht, hmember⟩ := Reader.bind_eq_ok_iff.mp hmember
      cases hmember
      exact ih ht
    | _ => exact Nat.zero_le _

mutual

/-- A tree is no deeper when its members are in order. -/
theorem depth_normalize_le : ∀ t : Json, t.normalize.depth ≤ t.depth
  | .null => Nat.le_refl _
  | .bool _ => Nat.le_refl _
  | .number _ => Nat.le_refl _
  | .string _ => Nat.le_refl _
  | .array items => Nat.succ_le_succ (depthItems_le (depth_normalizeItems_le items))
  | .object members => by
    rw [normalize, Json.depth, depthMembers_eq]
    refine Nat.succ_le_succ (depthItems_le fun t ht => ?_)
    obtain ⟨m, hm, rfl⟩ := List.mem_map.mp ht
    exact depth_normalizeMembers_le members m (Table.mem_entries_ofList hm)

theorem depth_normalizeItems_le :
    ∀ items : List Json, ∀ t ∈ normalizeItems items, t.depth ≤ depthItems items
  | [], _, h => nomatch h
  | t :: ts, u, h => by
    rw [depthItems]
    rcases List.mem_cons.mp h with rfl | h
    · exact Nat.le_trans (depth_normalize_le t) (Nat.le_max_left _ _)
    · exact Nat.le_trans (depth_normalizeItems_le ts u h) (Nat.le_max_right _ _)

/-- Of several members for a key one is kept, and it is no deeper than all of them. -/
theorem depth_normalizeMembers_le : ∀ members : List (String × Json),
    ∀ m ∈ normalizeMembers members, m.2.depth ≤ depthMembers members
  | [], _, h => nomatch h
  | (k, t) :: ms, m, h => by
    rw [depthMembers]
    rcases List.mem_cons.mp h with rfl | h
    · exact Nat.le_trans (depth_normalize_le t) (Nat.le_max_left _ _)
    · exact Nat.le_trans (depth_normalizeMembers_le ms m h) (Nat.le_max_right _ _)

end

/-- Properties are no deeper than the object that they are taken from. -/
theorem depth_ofMembers_le (members : List (String × Json)) :
    (Properties.ofMembers members).toJson.depth ≤ (Json.object members).depth := by
  rw [Properties.toJson, Json.depth, Json.depth, depthMembers_eq]
  refine Nat.succ_le_succ (depthItems_le fun t ht => ?_)
  obtain ⟨_, hentry, rfl⟩ := List.mem_map.mp ht
  obtain ⟨e, he, rfl⟩ := List.mem_map.mp hentry
  obtain ⟨m, hm, rfl⟩ := List.mem_map.mp (Table.mem_entries_ofList he)
  exact Nat.le_trans (depth_normalize_le m.2) (depth_le_depthMembers hm)

/-! ### Values of fields -/

namespace Fields

/-- Each value comes from where the values of its shape come from, or is that of a field that is
left out. -/
def Come (origin : {α : Type} → Shape α → α → Prop) :
    {αs : List Type} → Fields αs → Values αs → Prop
  | _, .nil, _ => True
  | _, .cons f fs, (a, values) =>
    (f.absent = some a ∨ origin f.shape a) ∧ fs.Come origin values

/-- Each slot that is filled holds a value that comes from where the values of its shape do. -/
def SlotsCome (origin : {α : Type} → Shape α → α → Prop) :
    {αs : List Type} → Fields αs → Slots αs → Prop
  | _, .nil, _ => True
  | _, .cons f fs, (slot, slots) =>
    (∀ a, slot = some a → origin f.shape a) ∧ fs.SlotsCome origin slots

section
variable {origin : {α : Type} → Shape α → α → Prop}

theorem slotsCome_empty (fs : Fields αs) : fs.SlotsCome origin fs.empty := by
  induction fs with
  | nil => trivial
  | cons f fs ih => exact ⟨nofun, ih⟩

/-- When a record is complete, what is in its slots becomes its values, and the empty ones are
filled by right. -/
theorem come_of_complete {fs : Fields αs} {slots : Slots αs} {values : Values αs}
    (hslots : fs.SlotsCome origin slots) (h : fs.complete slots = .ok values) :
    fs.Come origin values := by
  induction fs with
  | nil => trivial
  | cons f fs ih =>
    obtain ⟨slot, slots⟩ := slots
    obtain ⟨a, ha, h⟩ := PipelineCanvas.bind_eq_ok_iff.mp h
    obtain ⟨others, hothers, h⟩ := PipelineCanvas.bind_eq_ok_iff.mp h
    cases h
    refine ⟨?_, ih hslots.2 hothers⟩
    unfold Field.value at ha
    split at ha
    · cases ha
      exact .inr (hslots.1 _ rfl)
    · split at ha
      · next habsent =>
        cases ha
        exact .inl habsent
      · cases ha

/-- A member fills at most one slot, with what it is viewed as. -/
theorem slotsCome_of_viewMember {fs : Fields αs} {slots slots' : Slots αs} {m : String × Json}
    (hview : ∀ {α : Type} (s : Shape α) a, s.view m.2 = .ok a → origin s a)
    (h : fs.viewMember slots m = .ok slots') (hslots : fs.SlotsCome origin slots) :
    fs.SlotsCome origin slots' := by
  unfold viewMember at h
  induction fs with
  | nil =>
    cases h
    trivial
  | cons f fs ih =>
    obtain ⟨slot, slots⟩ := slots
    unfold fill at h
    split at h
    · cases slot with
      | some _ => cases h
      | none =>
        obtain ⟨a, ha, h⟩ := PipelineCanvas.bind_eq_ok_iff.mp h
        cases h
        refine ⟨fun b hb => ?_, hslots.2⟩
        cases hb
        exact hview f.shape a ha
    · cases hfill : fs.fill m.1 (fun s => s.view m.2) slots with
      | none =>
        rw [hfill] at h
        cases h
        exact hslots
      | some taken =>
        rw [hfill] at h
        obtain ⟨others, htaken, h⟩ := PipelineCanvas.bind_eq_ok_iff.mp h
        cases h
        exact ⟨hslots.1, ih (by rw [hfill]; exact htaken) hslots.2⟩

/-- The values that are viewed in an object come from its members. What is known of the members is
asked only for trees that are among them, so that a bound on their depth can be used. -/
theorem come_of_viewMembers {fs : Fields αs} {members : List (String × Json)} {values : Values αs}
    (hview : ∀ m ∈ members, ∀ {α : Type} (s : Shape α) a, s.view m.2 = .ok a → origin s a)
    (h : fs.viewMembers members = .ok values) : fs.Come origin values := by
  obtain ⟨slots, hfold, hcomplete⟩ := PipelineCanvas.bind_eq_ok_iff.mp h
  refine come_of_complete ?_ hcomplete
  have fold : ∀ (members : List (String × Json)) (slots slots' : Slots αs),
      (∀ m ∈ members, ∀ {α : Type} (s : Shape α) a, s.view m.2 = .ok a → origin s a) →
      members.foldlM fs.viewMember slots = .ok slots' → fs.SlotsCome origin slots →
        fs.SlotsCome origin slots' := by
    intro members
    induction members with
    | nil =>
      rintro slots slots' - hfold hslots
      cases hfold
      exact hslots
    | cons m members ih =>
      intro slots slots' hview hfold hslots
      obtain ⟨between, hm, hfold⟩ := PipelineCanvas.bind_eq_ok_iff.mp hfold
      refine ih between slots' (fun n hn => hview n (List.mem_cons_of_mem _ hn)) hfold ?_
      exact slotsCome_of_viewMember (hview m List.mem_cons_self) hm hslots
  exact fold members fs.empty slots hview hfold fs.slotsCome_empty

theorem come_of_viewItems {fs : Fields αs} {expected : String} {index : Nat}
    {items left : List Json} {values : Values αs}
    (hview : ∀ {α : Type} (s : Shape α) t a, s.view t = .ok a → origin s a)
    (h : fs.viewItems expected index items = .ok (values, left)) : fs.Come origin values := by
  induction fs generalizing index items left with
  | nil => trivial
  | cons f fs ih =>
    unfold viewItems at h
    have others_come : ∀ {a : _} {behind : List Json},
        (fs.viewItems expected (index + 1) behind >>= fun r => pure ((a, r.1), r.2)) =
          .ok (values, left) → values.1 = a ∧ fs.Come origin values.2 := by
      intro a behind h
      obtain ⟨⟨others, left'⟩, hothers, h⟩ := PipelineCanvas.bind_eq_ok_iff.mp h
      cases h
      exact ⟨rfl, ih hothers⟩
    split at h
    · obtain ⟨a, ha, h⟩ := PipelineCanvas.bind_eq_ok_iff.mp h
      obtain ⟨rfl, hothers⟩ := others_come h
      exact ⟨.inr (hview _ _ _ ha), hothers⟩
    · next habsent =>
      obtain ⟨rfl, hothers⟩ := others_come h
      exact ⟨.inl habsent, hothers⟩
    · cases h

/-- A member fills at most one slot, with what is read behind its key. -/
theorem slotsCome_of_readMember {fs : Fields αs} {depth : Nat} {slots slots' : Slots αs}
    {key : String}
    (hread : ∀ {α : Type} (s : Shape α) cs rest a, s.read depth cs = .ok (a, rest) → origin s a)
    (h : fs.readMember depth slots key cs = .ok (slots', rest))
    (hslots : fs.SlotsCome origin slots) : fs.SlotsCome origin slots' := by
  unfold readMember at h
  induction fs with
  | nil =>
    obtain ⟨_, _, -, h⟩ := Reader.bind_eq_ok_iff.mp h
    obtain ⟨_, _, -, h⟩ := Reader.bind_eq_ok_iff.mp h
    cases h
    trivial
  | cons f fs ih =>
    obtain ⟨slot, slots⟩ := slots
    unfold fill at h
    split at h
    · cases slot with
      | some _ => cases h
      | none =>
        obtain ⟨a, _, ha, h⟩ := Reader.bind_eq_ok_iff.mp h
        obtain ⟨_, _, -, ha⟩ := Reader.bind_eq_ok_iff.mp ha
        cases h
        refine ⟨fun b hb => ?_, hslots.2⟩
        cases hb
        exact hread f.shape _ _ a ha
    · cases hfill : fs.fill key (fun s => do
          expectToken ':'
          s.read depth) slots with
      | none =>
        simp only [hfill] at h
        obtain ⟨_, _, -, h⟩ := Reader.bind_eq_ok_iff.mp h
        obtain ⟨_, _, -, h⟩ := Reader.bind_eq_ok_iff.mp h
        cases h
        exact hslots
      | some taken =>
        simp only [hfill] at h
        obtain ⟨others, _, htaken, h⟩ := Reader.bind_eq_ok_iff.mp h
        cases h
        exact ⟨hslots.1, ih (by simp only [hfill]; exact htaken) hslots.2⟩

/-- The values that are read from an object come from the text behind its keys. The invariant of the
loop over the members is what is known of the slots. -/
theorem come_of_readMembers {fs : Fields αs} {depth : Nat} {values : Values αs}
    (hread : ∀ {α : Type} (s : Shape α) cs rest a, s.read depth cs = .ok (a, rest) → origin s a)
    (h : fs.readMembers depth cs = .ok (values, rest)) : fs.Come origin values := by
  obtain ⟨slots, _, hslots, h⟩ := Reader.bind_eq_ok_iff.mp h
  refine come_of_complete ?_ (eq_ok_of_lift h)
  refine Brackets.pass_keeps (P := fs.SlotsCome origin) ?_ hslots fs.slotsCome_empty
  intro slots slots' cs rest hmember hcome
  obtain ⟨_, _, -, hmember⟩ := Reader.bind_eq_ok_iff.mp hmember
  exact slotsCome_of_readMember hread hmember hcome

theorem come_of_readItems {fs : Fields αs} {expected : String} {depth index : Nat}
    {values : Values αs}
    (hread : ∀ {α : Type} (s : Shape α) cs rest a, s.read depth cs = .ok (a, rest) → origin s a)
    (h : fs.readItems expected depth index cs = .ok (values, rest)) : fs.Come origin values := by
  induction fs generalizing index cs with
  | nil => trivial
  | cons f fs ih =>
    have others_come : ∀ {a : _} {cs : List Char}, (do
        return (a, ← fs.readItems expected depth (index + 1)) : Reader (Values _)) cs =
          .ok (values, rest) → values.1 = a ∧ fs.Come origin values.2 := by
      intro a cs h
      obtain ⟨others, _, hothers, h⟩ := Reader.bind_eq_ok_iff.mp h
      cases h
      exact ⟨rfl, ih hothers⟩
    obtain ⟨has, _, -, h⟩ := Reader.bind_eq_ok_iff.mp h
    split at h
    · obtain ⟨a, _, ha, h⟩ := Reader.bind_eq_ok_iff.mp h
      obtain ⟨rfl, hothers⟩ := others_come h
      exact ⟨.inr (hread f.shape _ _ _ ha), hothers⟩
    · cases habsent : f.absent with
      | some a =>
        simp only [habsent] at h
        obtain ⟨rfl, hothers⟩ := others_come h
        exact ⟨.inl habsent, hothers⟩
      | none =>
        simp only [habsent] at h
        cases h

end
end Fields

/-! ### Lists and records -/

theorem Reader.failType_ne_ok {expected : String} {a : α} :
    failType expected cs ≠ .ok (a, rest) := by
  intro h
  obtain ⟨_, _, -, h⟩ := Reader.bind_eq_ok_iff.mp h
  cases h

/-- Every item of a list that has been read has been read in its shape, one level deeper. -/
theorem Shape.mem_of_readList {s : Shape α} {depth : Nat} {as : List α}
    (h : (Shape.list s).read depth cs = .ok (as, rest)) :
    ∃ below, depth = below + 1 ∧ ∀ a ∈ as, ∃ cs' rest', s.read below cs' = .ok (a, rest') := by
  obtain ⟨c, _, -, h⟩ := Reader.bind_eq_ok_iff.mp h
  split at h
  · obtain ⟨_, _, hfail, -⟩ := Reader.bind_eq_ok_iff.mp h
    exact absurd hfail failType_ne_ok
  · cases depth with
    | zero => cases h
    | succ below =>
      obtain ⟨_, _, -, h⟩ := Reader.bind_eq_ok_iff.mp h
      exact ⟨below, rfl, Brackets.mem_of_collect h⟩

namespace Record

/-- **The values of a record that has been read** have been read one level deeper. -/
theorem come_of_read {r : Record α} {depth : Nat} {a : α}
    (h : r.shape.read depth cs = .ok (a, rest)) :
    ∃ below values, depth = below + 1 ∧ a = r.make values ∧
      r.fields.Come (fun s a => ∃ cs rest, s.read below cs = .ok (a, rest)) values := by
  obtain ⟨c, _, -, h⟩ := Reader.bind_eq_ok_iff.mp h
  split at h
  · obtain ⟨_, _, -, h⟩ := Reader.bind_eq_ok_iff.mp h
    obtain ⟨values, hvalues, rfl⟩ := Reader.map_eq_ok_iff.mp h
    exact ⟨_, values, rfl, rfl, Fields.come_of_readMembers (fun _ _ _ _ h => ⟨_, _, h⟩) hvalues⟩
  · obtain ⟨_, _, -, h⟩ := Reader.bind_eq_ok_iff.mp h
    obtain ⟨values, _, hvalues, h⟩ := Reader.bind_eq_ok_iff.mp h
    obtain ⟨_, _, -, h⟩ := Reader.bind_eq_ok_iff.mp h
    cases h
    exact ⟨_, values, rfl, rfl, Fields.come_of_readItems (fun _ _ _ _ h => ⟨_, _, h⟩) hvalues⟩
  · cases h
  · cases h
  · exact absurd h failType_ne_ok

/-- The values of a record that has been viewed have been viewed in trees. -/
theorem come_of_view {r : Record α} {t : Json} {a : α} (h : r.shape.view t = .ok a) :
    ∃ values, a = r.make values ∧ r.fields.Come (fun s a => ∃ u, s.view u = .ok a) values := by
  cases t with
  | object members =>
    obtain ⟨values, hvalues, rfl⟩ := PipelineCanvas.map_eq_ok_iff.mp h
    exact ⟨values, rfl, Fields.come_of_viewMembers (fun m _ _ _ _ h => ⟨m.2, h⟩) hvalues⟩
  | array items =>
    obtain ⟨⟨values, left⟩, hvalues, h⟩ := PipelineCanvas.bind_eq_ok_iff.mp h
    have hcome : r.fields.Come (fun s a => ∃ u, s.view u = .ok a) values :=
      Fields.come_of_viewItems (fun _ t _ h => ⟨t, h⟩) hvalues
    -- items may be left over, and then nothing is viewed
    dsimp only at h
    split at h
    · cases h
      exact ⟨values, rfl, hcome⟩
    · cases h
  | _ => cases h

/-- The values of an entry are viewed in trees one level deeper. -/
theorem come_of_readEntry {r : Record α} {expected name : String} {id : Shape ι} {depth : Nat}
    {i : ι} {a : α} (h : (r.entry expected name id).read depth cs = .ok ((i, a), rest)) :
    ∃ below values, depth = below + 1 ∧ a = r.make values ∧
      r.fields.Come (fun s a => ∃ t, t.depth ≤ below ∧ s.view t = .ok a) values := by
  obtain ⟨c, _, -, h⟩ := Reader.bind_eq_ok_iff.mp h
  split at h
  · obtain ⟨_, _, hfail, -⟩ := Reader.bind_eq_ok_iff.mp h
    exact absurd hfail failType_ne_ok
  · cases depth with
    | zero => cases h
    | succ below =>
      obtain ⟨_, _, -, h⟩ := Reader.bind_eq_ok_iff.mp h
      obtain ⟨⟨found, others⟩, _, hparts, h⟩ := Reader.bind_eq_ok_iff.mp h
      -- what is not the id has been read as trees, and stays as deep as that
      have hothers : ∀ m ∈ others, m.2.depth ≤ below := by
        refine Brackets.pass_keeps (P := fun parts : EntryParts ι => ∀ m ∈ parts.2,
          m.2.depth ≤ below) ?_ hparts (List.forall_mem_nil _)
        intro parts parts' cs rest hmember hparts
        obtain ⟨key, _, -, hmember⟩ := Reader.bind_eq_ok_iff.mp hmember
        unfold readEntryMember at hmember
        split at hmember
        · split at hmember
          · cases hmember
          · obtain ⟨_, _, -, hmember⟩ := Reader.bind_eq_ok_iff.mp hmember
            obtain ⟨_, _, -, hmember⟩ := Reader.bind_eq_ok_iff.mp hmember
            cases hmember
            exact hparts
        · obtain ⟨_, _, -, hmember⟩ := Reader.bind_eq_ok_iff.mp hmember
          obtain ⟨t, _, ht, hmember⟩ := Reader.bind_eq_ok_iff.mp hmember
          cases hmember
          exact List.forall_mem_cons.mpr ⟨depth_le_of_tree ht, hparts⟩
      obtain ⟨⟨_, members⟩, hsplit, hentry⟩ :=
        PipelineCanvas.bind_eq_ok_iff.mp (eq_ok_of_lift h)
      obtain ⟨values, hvalues, hentry⟩ := PipelineCanvas.bind_eq_ok_iff.mp hentry
      cases hentry
      have hmembers : ∀ m ∈ members, m.2.depth ≤ below := by
        cases found with
        | none => cases hsplit
        | some _ =>
          cases hsplit
          exact fun m hm => hothers m (List.mem_reverse.mp hm)
      exact ⟨below, values, rfl, rfl,
        Fields.come_of_viewMembers (fun m hm _ _ _ h => ⟨m.2, hmembers m hm, h⟩) hvalues⟩

end Record
end PipelineCanvas.Json
