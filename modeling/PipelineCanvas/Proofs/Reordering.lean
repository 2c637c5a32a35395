import PipelineCanvas.Proofs.CanonicalText
import PipelineCanvas.Proofs.Reachability
import PipelineCanvas.Proofs.Stages
/-! # The order of members does not matter

A spelling is **reordered** when the members of its objects, at every depth, are listed in another
order. Where keys are told apart both stand for the same, or both for nothing
(`Json.Spelling.Reordered.value?_eq`): the reader keeps the order of the text, but what it makes of
an object has its keys in order. So the same properties are read off the two texts, and diagrams
whose nodes have these properties have the same source.

Where one object has two members of one key, the later of them counts, and their order shows; this
is why keys have to be told apart (`Json.Spelling.Distinct`). Blanks and escapes may differ as they
like, since scalars are compared by what they mean.

The induction on spellings is over `normalize`, the tree with its keys in order: members that are
read in another order make the same table (`Table.ofList_perm`). -/
namespace PipelineCanvas

/-! ### Lists of options -/

section mapM
variable {α β γ : Type} {l m : List α}

/-- What is done with every result can be done with each as it comes. -/
theorem map_mapM (f : α → Option β) (g : β → γ) (l : List α) :
    List.map g <$> l.mapM f = l.mapM fun a => g <$> f a := by
  induction l with
  | nil => rfl
  | cons a l ih =>
    rw [List.mapM_cons, List.mapM_cons, ← ih]
    cases f a with
    | none => rfl
    | some b => cases l.mapM f <;> rfl

/-- Lists whose items agree place by place are taken to the same. -/
theorem mapM_eq_of_zip {f : α → Option β} (length_eq : l.length = m.length)
    (h : ∀ p ∈ l.zip m, f p.1 = f p.2) : l.mapM f = m.mapM f := by
  induction l generalizing m with
  | nil => rw [List.length_eq_zero_iff.mp length_eq.symm]
  | cons a l ih =>
    obtain ⟨b, m, rfl⟩ := List.exists_cons_of_length_eq_add_one length_eq.symm
    obtain ⟨hab, hrest⟩ := List.forall_mem_cons.mp h
    rw [List.mapM_cons, List.mapM_cons, hab, ih (Nat.succ.inj length_eq) hrest]

/-- Items in another order are taken to their results in another order. -/
theorem exists_mapM_of_perm {f : α → Option β} (h : l.Perm m) {bs : List β}
    (hl : l.mapM f = some bs) : ∃ cs, m.mapM f = some cs ∧ bs.Perm cs := by
  induction h generalizing bs with
  | nil => exact ⟨bs, hl, .refl bs⟩
  | cons a _ ih =>
    obtain ⟨b, cs, hb, hcs, rfl⟩ := mapM_cons_eq_some_iff.mp hl
    obtain ⟨ds, hds, hperm⟩ := ih hcs
    exact ⟨b :: ds, mapM_cons_eq_some_iff.mpr ⟨b, ds, hb, hds, rfl⟩, hperm.cons b⟩
  | swap a a' l =>
    obtain ⟨b, _, hb, htail, rfl⟩ := mapM_cons_eq_some_iff.mp hl
    obtain ⟨b', cs, hb', hcs, rfl⟩ := mapM_cons_eq_some_iff.mp htail
    have hswapped : (a' :: l).mapM f = some _ := mapM_cons_eq_some_iff.mpr ⟨b, cs, hb, hcs, rfl⟩
    exact ⟨b' :: b :: cs, mapM_cons_eq_some_iff.mpr ⟨b', _, hb', hswapped, rfl⟩, .swap _ _ _⟩
  | trans _ _ ih₁ ih₂ =>
    obtain ⟨cs, hcs, hperm⟩ := ih₁ hl
    obtain ⟨ds, hds, hperm'⟩ := ih₂ hcs
    exact ⟨ds, hds, hperm.trans hperm'⟩

/-- What does not depend on the order of the results does not depend on that of the items. -/
theorem mapM_congr_of_perm {f : α → Option β} {g : List β → γ} (h : l.Perm m)
    (hg : ∀ {bs cs}, l.mapM f = some bs → bs.Perm cs → g bs = g cs) :
    g <$> l.mapM f = g <$> m.mapM f := by
  cases hl : l.mapM f with
  | some bs =>
    obtain ⟨cs, hcs, hperm⟩ := exists_mapM_of_perm h hl
    rw [hcs]
    exact congrArg some (hg hl hperm)
  | none =>
    cases hm : m.mapM f with
    | none => rfl
    | some cs =>
      obtain ⟨bs, hbs, -⟩ := exists_mapM_of_perm h.symm hm
      rw [hl] at hbs
      cases hbs

end mapM

namespace Json
namespace Spelling

/-- The second spelling has the same values and members as the first, the members of any object in
another order. -/
inductive Reordered : Spelling → Spelling → Prop
  /-- Scalars have the same meaning. -/
  | scalar {token token' : List Char} (h : meaning? token = meaning? token') :
      Reordered (.scalar token) (.scalar token')
  /-- Items are reordered each in its place. -/
  | array {items items' : List Spelling} (length_eq : items.length = items'.length)
      (h : ∀ p ∈ items.zip items', Reordered p.1 p.2) : Reordered (.array items) (.array items')
  /-- Members have the same keys and reordered values, and then come in another order. -/
  | object {members shuffled members' : List (List Char × Spelling)}
      (length_eq : members.length = shuffled.length)
      (keys : ∀ p ∈ members.zip shuffled, key? p.1.1 = key? p.2.1)
      (h : ∀ p ∈ members.zip shuffled, Reordered p.1.2 p.2.2) (perm : shuffled.Perm members') :
      Reordered (.object members) (.object members')

/-- No object has two members of one key. -/
inductive Distinct : Spelling → Prop
  /-- A scalar has no keys. -/
  | scalar (token : List Char) : Distinct (.scalar token)
  /-- The items have none twice. -/
  | array {items : List Spelling} (h : ∀ s ∈ items, Distinct s) : Distinct (.array items)
  /-- No two keys are the same, and the values have none twice. -/
  | object {members : List (List Char × Spelling)}
      (keys : members.Pairwise fun a b => ∀ k, key? a.1 = some k → key? b.1 ≠ some k)
      (h : ∀ m ∈ members, Distinct m.2) : Distinct (.object members)

variable {s s' : Spelling}

/-- Keys that ascend are different. -/
theorem Ascending.distinct (h : s.Ascending) : s.Distinct := by
  induction h with
  | scalar token => exact .scalar token
  | array _ ih => exact .array ih
  | object keys _ ih =>
    refine .object (keys.imp ?_) ih
    rintro a b ⟨k, l, hk, hl, hlt⟩ key hka hkb
    obtain rfl : k = key := Option.some.inj (hk.symm.trans hka)
    obtain rfl : l = k := Option.some.inj (hl.symm.trans hkb)
    exact absurd hlt (List.lt_irrefl _)

/-- The member's key and its value in order. -/
def orderedMember? (depth : Nat) (m : List Char × Spelling) : Option (String × Json) :=
  (fun e => (e.1, e.2.normalize)) <$> memberValue? depth m

theorem orderedMember?_eq (depth : Nat) (m : List Char × Spelling) : orderedMember? depth m = do
    return (← key? m.1, ← normalize <$> m.2.value? depth) := by
  unfold orderedMember? memberValue?
  cases key? m.1 with
  | none => rfl
  | some k => cases m.2.value? depth <;> rfl

theorem normalize_array (depth : Nat) (items : List Spelling) :
    normalize <$> value? (depth + 1) (.array items) =
      Json.array <$> items.mapM fun s => normalize <$> s.value? depth := by
  rw [value?, itemValues?_eq_mapM, ← map_mapM]
  cases items.mapM (value? depth) with
  | none => rfl
  | some ts => exact congrArg some (by rw [normalize, normalizeItems_eq_map])

theorem normalize_object (depth : Nat) (members : List (List Char × Spelling)) :
    normalize <$> value? (depth + 1) (.object members) =
      (fun ms => Json.object (Table.ofList ms).entries) <$>
        members.mapM (orderedMember? depth) := by
  have hmembers : members.mapM (orderedMember? depth) = _ := (map_mapM _ _ members).symm
  rw [value?, memberValues?_eq_mapM, hmembers]
  cases members.mapM (memberValue? depth) with
  | none => rfl
  | some ms => exact congrArg some (by rw [normalize, normalizeMembers_eq_map])

theorem key?_of_orderedMember? {depth : Nat} {m : List Char × Spelling} {e : String × Json}
    (h : orderedMember? depth m = some e) : key? m.1 = some e.1 := by
  rw [orderedMember?_eq] at h
  obtain ⟨k, hk, h⟩ := Option.bind_eq_some_iff.mp h
  obtain ⟨t, -, h⟩ := Option.bind_eq_some_iff.mp h
  cases h
  exact hk

/-- Where keys are told apart, the members that are read have different keys. -/
theorem nodup_keys {members : List (List Char × Spelling)} {depth : Nat}
    (keys : members.Pairwise fun a b => ∀ k, key? a.1 = some k → key? b.1 ≠ some k)
    {ms : List (String × Json)} (h : members.mapM (orderedMember? depth) = some ms) :
    (ms.map (·.1)).Nodup := by
  induction members generalizing ms with
  | nil =>
    cases h
    exact List.nodup_nil
  | cons m members ih =>
    obtain ⟨hm, hmembers⟩ := List.pairwise_cons.mp keys
    obtain ⟨e, es, he, hes, rfl⟩ := mapM_cons_eq_some_iff.mp h
    refine List.nodup_cons.mpr ⟨fun hmem => ?_, ih hmembers hes⟩
    obtain ⟨e', he', hkey⟩ := List.mem_map.mp hmem
    obtain ⟨m', hm', hread⟩ := exists_of_mem_mapM hes he'
    have hsame : e'.1 = e.1 := hkey
    exact hm m' hm' e.1 (key?_of_orderedMember? he) (hsame ▸ key?_of_orderedMember? hread)

/-- **What a spelling stands for does not depend on the order of its members.** -/
theorem Reordered.value?_eq (h : s.Reordered s') (distinct : s.Distinct) (depth : Nat) :
    normalize <$> s.value? depth = normalize <$> s'.value? depth := by
  induction h generalizing depth with
  | scalar h => rw [value?, value?, h]
  | @array items items' length_eq _ ih =>
    obtain _ | distinct | _ := distinct
    cases depth with
    | zero => rfl
    | succ depth =>
      rw [normalize_array, normalize_array]
      congr 1
      refine mapM_eq_of_zip length_eq fun p hp => ih p hp (distinct p.1 ?_) depth
      exact (List.of_mem_zip hp).1
  | @object members shuffled members' length_eq keys _ perm ih =>
    obtain _ | _ | ⟨hkeys, distinct⟩ := distinct
    cases depth with
    | zero => rfl
    | succ depth =>
      -- first other values in the places of the members, then the members in another order
      have hsame : members.mapM (orderedMember? depth) = shuffled.mapM (orderedMember? depth) := by
        refine mapM_eq_of_zip length_eq fun p hp => ?_
        rw [orderedMember?_eq, orderedMember?_eq, keys p hp,
          ih p hp (distinct p.1 (List.of_mem_zip hp).1) depth]
      rw [normalize_object, normalize_object, hsame]
      refine mapM_congr_of_perm perm fun {bs cs} hbs hperm => ?_
      have hnodup : (bs.map (·.1)).Nodup := nodup_keys hkeys (hsame.trans hbs)
      simp only [Table.ofList_perm hperm hnodup]

end Spelling

/-- The second text has the same members as the first but for their order, in every object, and no
object of the first has two members of one key. Blanks may be anywhere. -/
def SameMembers (text text' : String) : Prop :=
  ∃ s s' : Spelling, s.Sound ∧ s'.Sound ∧ s.Reordered s' ∧ s.Distinct ∧
    Spaced s.tokens text.toList ∧ Spaced s'.tokens text'.toList

/-- The properties of an object are the object with its keys in order. -/
theorem toJson_ofMembers (members : List (String × Json)) :
    (Properties.ofMembers members).toJson = (Json.object members).normalize := by
  have htrees : (Properties.ofMembers members).map (fun _ v => v.tree) =
      Table.ofList (members.map fun m => (m.1, m.2.normalize)) := by
    rw [Properties.ofMembers, ← Table.ofList_map_value, List.map_map]
    rfl
  rw [normalize, normalizeMembers_eq_map, ← htrees]
  rfl

/-- Properties are read off a text that spells them with their keys in any order. -/
theorem ofText_eq_ok_iff_normalize {s : Spelling} (h : s.Sound) {text : String}
    (htext : Spaced s.tokens text.toList) {p : Properties} :
    Shape.properties.ofText text = .ok p ↔ normalize <$> s.value? maxDepth = some p.toJson := by
  rw [Shape.ofText_properties_eq_ok_iff h htext]
  constructor
  · rintro ⟨members, hvalue, rfl⟩
    rw [hvalue, toJson_ofMembers]
    rfl
  · intro hvalue
    obtain ⟨t, ht, hnormal⟩ := Option.map_eq_some_iff.mp hvalue
    cases t with
    | object members =>
      exact ⟨members, ht, Properties.toJson_inj.mp ((toJson_ofMembers members).trans hnormal)⟩
    | _ => cases hnormal

/-- **The same properties are read off texts with the same members**, or off neither. -/
theorem SameMembers.ofText_eq_ok_iff {text text' : String} (h : SameMembers text text')
    {p : Properties} :
    Shape.properties.ofText text = .ok p ↔ Shape.properties.ofText text' = .ok p := by
  obtain ⟨s, s', sound, sound', reordered, distinct, spaced, spaced'⟩ := h
  rw [ofText_eq_ok_iff_normalize sound spaced, ofText_eq_ok_iff_normalize sound' spaced',
    reordered.value?_eq distinct]

end Json

open Json

/-- Properties that are equal, or are read off two texts with the same members. -/
def Properties.Alike (p q : Properties) : Prop :=
  p = q ∨ ∃ text text', SameMembers text text' ∧ Shape.properties.ofText text = .ok p ∧
    Shape.properties.ofText text' = .ok q

/-- Properties that are alike are the same. -/
theorem Properties.Alike.eq {p q : Properties} (h : p.Alike q) : p = q := by
  rcases h with rfl | ⟨text, text', hsame, hp, hq⟩
  · rfl
  · rw [hsame.ofText_eq_ok_iff, hq] at hp
    exact (Except.ok.inj hp).symm

/-- Nodes that differ in nothing but their position and the order of members in the texts of their
properties. -/
structure Node.Alike (m n : Node) : Prop where
  /-- They go by the same name. -/
  name_eq : m.name = n.name
  /-- They are of the same kind. -/
  kind_eq : m.kind = n.kind
  /-- They have the same ports. -/
  ports_eq : m.ports = n.ports
  /-- Their properties are equal, or have been read off texts with the same members. -/
  properties : m.properties.Alike n.properties

/-- The stage of a node is made of its name and its properties. -/
theorem Node.stage_congr {m n : Node} (hname : m.name = n.name)
    (hproperties : m.properties = n.properties) : m.stage = n.stage := by
  rw [stage, stage, hname, hproperties]

theorem Node.Alike.stage_eq {m n : Node} (h : m.Alike n) : m.stage = n.stage :=
  stage_congr h.name_eq h.properties.eq

namespace Diagram
variable {d e : Diagram}

/-- The diagrams have the same links, and alike nodes under the same identifiers. -/
structure Alike (d e : Diagram) : Prop where
  /-- Where the first has a node, the second has one like it. -/
  stored : ∀ {id m}, d.node? id = some m → ∃ n, e.node? id = some n ∧ m.Alike n
  /-- Where the first has no node, neither has the second. -/
  absent : ∀ {id}, d.node? id = none → e.node? id = none
  /-- Their links are the same. -/
  links_eq : d.links = e.links

namespace Alike

theorem hasKind_iff (h : d.Alike e) {id : NodeId} {kind : BlockKind} :
    e.HasKind id kind ↔ d.HasKind id kind := by
  cases hm : d.node? id with
  | none => simp [HasKind, hm, h.absent hm]
  | some m =>
    obtain ⟨n, hn, halike⟩ := h.stored hm
    simp [HasKind, hm, hn, halike.kind_eq]

/-- Alike diagrams agree on all that a chain reaches. -/
theorem agreesOnReached (h : d.Alike e) (hd : d.WellFormed) : d.AgreesOnReached e where
  producer_iff _ := h.hasKind_iff
  stored hid := by
    obtain ⟨m, hm⟩ := hid.exists_node hd
    obtain ⟨n, hn, halike⟩ := h.stored hm
    exact ⟨m, n, hm, hn, halike.kind_eq.symm⟩
  targets_perm {id} _ := by
    rw [targets, targets, linksLeavingNode, linksLeavingNode, linksWhere, linksWhere, h.links_eq]

/-- They have the same chain, each with its own nodes. -/
theorem chain_eq (h : d.Alike e) (hd : d.WellFormed) (he : e.WellFormed) (limit : Nat)
    (refuse : Bool) : e.chain limit refuse =
      List.map (fun s => (s.1, (e.node? s.1).getD s.2)) <$> d.chain limit refuse := by
  have himage : ∀ {id m}, d.Reached id → d.node? id = some m →
      e.node? id = some ((e.node? id).getD m) := by
    intro id m _ hm
    obtain ⟨n, hn, -⟩ := h.stored hm
    rw [hn]
    rfl
  have harrivals : refuse = true → ∀ {id}, d.Reached id → e.arrivals id = d.arrivals id := by
    intro _ id _
    rw [arrivals, arrivals, linksWhere, linksWhere, h.links_eq]
  exact (h.agreesOnReached hd).chain_eq hd he himage harrivals limit

/-- Alike diagrams have the same source, where the stages are the default ones. -/
theorem source_eq (h : d.Alike e) (hd : d.WellFormed) (he : e.WellFormed) {rules : SourceRules}
    (plain : rules.writers = ∅) : rules.source e = rules.source d := by
  rw [rules.source_eq_map, rules.source_eq_map, h.chain_eq hd he,
    SourceRules.stage_of_no_writers plain]
  cases hchain : d.chain rules.stepLimit rules.refuseMerges with
  | error error => rfl
  | ok stops =>
    refine congrArg Except.ok (congrArg stageSeparator.intercalate ?_)
    rw [List.map_map]
    refine List.map_congr_left fun stop hstop => ?_
    obtain ⟨n, hn, halike⟩ := h.stored ((node?_of_mem_chain hchain).2 stop hstop)
    show Node.stage ((e.node? stop.1).getD stop.2) = _
    rw [hn]
    exact halike.stage_eq.symm

end Alike
end Diagram

/-- **The order of members does not show.** Of two texts that have the same members, in any order at
any depth, both are read as properties or neither is. The two have one canonical text, and so nodes
of one block have one stage; and diagrams that differ in nothing else but in positions have the same
source, or are refused for the same reason. -/
theorem members_order_irrelevant :
    (∀ {text text' : String}, SameMembers text text' →
      ((∃ p, Shape.properties.ofText text = .ok p) ↔
        ∃ q, Shape.properties.ofText text' = .ok q) ∧
      ∀ {p q : Properties}, Shape.properties.ofText text = .ok p →
        Shape.properties.ofText text' = .ok q → p.canonical = q.canonical ∧
          ∀ {m n : Node}, m.name = n.name → m.properties = p → n.properties = q →
            m.stage = n.stage) ∧
    ∀ {d e : Diagram}, d.Obtainable → e.Obtainable → d.Alike e →
      ∀ rules : SourceRules, rules.writers = ∅ → rules.source d = rules.source e := by
  refine ⟨fun {text text'} h => ⟨?_, ?_⟩, fun hd he halike rules plain => ?_⟩
  · simp only [h.ofText_eq_ok_iff]
  · intro p q hp hq
    have hpq : p = q := Properties.Alike.eq (.inr ⟨text, text', h, hp, hq⟩)
    refine ⟨congrArg Properties.canonical hpq, ?_⟩
    rintro m n hname rfl rfl
    exact Node.stage_congr hname hpq
  · exact (halike.source_eq hd.wellFormed he.wellFormed plain).symm

open Diagram

/-- Members with an object among them, listed in one order or the other. -/
def bagMembers (back : Bool) : List (String × Json) :=
  let inner : List (String × Json) := [("x", .null), ("y", .bool true)]
  if back then [("b", .array []), ("a", .object inner.reverse)]
  else [("a", .object inner), ("b", .array [])]

/-- The members as a text, with blanks in the one and none in the other. -/
def bagText (back : Bool) : String :=
  String.ofList ((Spelling.ofJson (.object (bagMembers back))).tokens.flatMap
    (List.replicate back.toNat ' ' ++ ·))

theorem spaced_bagText (back : Bool) :
    Spaced (Spelling.ofJson (.object (bagMembers back))).tokens (bagText back).toList := by
  rw [bagText, String.toList_ofList]
  refine spaced_flatMap (fun c hc => ?_) _
  rw [List.eq_of_mem_replicate hc]
  decide

/-- The two texts have the same members, at both depths in another order. -/
theorem sameMembers_bagText : SameMembers (bagText false) (bagText true) := by
  have inner : (Spelling.ofJson (.object [("x", .null), ("y", .bool true)])).Reordered
      (Spelling.ofJson (.object [("y", .bool true), ("x", .null)])) := by
    refine .object ?_ ?_ ?_ (.swap _ _ _)
    · rfl
    · decide
    · exact List.forall_mem_cons.mpr ⟨.scalar rfl, List.forall_mem_singleton.mpr (.scalar rfl)⟩
  have reordered : (Spelling.ofJson (.object (bagMembers false))).Reordered
      (Spelling.ofJson (.object (bagMembers true))) := by
    refine .object ?_ ?_ ?_ (.swap _ _ _)
    · rfl
    · decide
    · exact List.forall_mem_cons.mpr ⟨inner, List.forall_mem_singleton.mpr (.array rfl nofun)⟩
  have normal : (Json.object (bagMembers false)).Normal := by
    refine .object (by decide) (List.forall_mem_cons.mpr ⟨.object (by decide) ?_, ?_⟩)
    · exact List.forall_mem_cons.mpr ⟨.null, List.forall_mem_singleton.mpr (.bool true)⟩
    · exact List.forall_mem_singleton.mpr (.array nofun)
  exact ⟨_, _, Spelling.sound_ofJson _, Spelling.sound_ofJson _, reordered,
    (Spelling.ascending_ofJson normal).distinct, spaced_bagText false, spaced_bagText true⟩

theorem ofText_bagText (back : Bool) :
    Shape.properties.ofText (bagText back) = .ok (.ofMembers (bagMembers back)) := by
  refine (Shape.ofText_properties_eq_ok_iff (Spelling.sound_ofJson _) (spaced_bagText back)).mpr
    ⟨bagMembers back, Spelling.value?_of_readsBack ?_ ?_, rfl⟩
  · cases back <;> decide
  · cases back <;> decide

/-- A source that has these properties and a sink, and the source moved in one case. -/
def bagEdits (back : Bool) : List Edit :=
  [.place ((Node.new "source" .producer).withProperties (.ofMembers (bagMembers back))),
    .place (.new "sink" .consumer), .join ⟨0⟩ ⟨1⟩,
    .move ⟨0⟩ ⟨if back then .infinite false else default, default⟩]

theorem bagEdits_built (back : Bool) : ∀ edit ∈ bagEdits back, edit.Built := by
  simp only [bagEdits, List.forall_mem_cons]
  exact ⟨(Node.Built.new _ _).withProperties _, .new _ _, trivial, trivial, List.forall_mem_nil _⟩

theorem alike_bagEdits : (run ∅ (bagEdits false)).Alike (run ∅ (bagEdits true)) where
  stored {id m} hm := by
    have hbags : Properties.Alike (.ofMembers (bagMembers false)) (.ofMembers (bagMembers true)) :=
      .inr ⟨_, _, sameMembers_bagText, ofText_bagText false, ofText_bagText true⟩
    have nodes : ∀ e ∈ (run ∅ (bagEdits false)).nodes.entries,
        ∃ n, (run ∅ (bagEdits true)).node? e.1 = some n ∧ e.2.Alike n :=
      List.forall_mem_cons.mpr ⟨⟨_, rfl, rfl, rfl, rfl, hbags⟩,
        List.forall_mem_singleton.mpr ⟨_, rfl, rfl, rfl, rfl, .inl rfl⟩⟩
    exact nodes _ (Table.get?_eq_some_iff.mp hm)
  absent {id} hnone := by
    refine Option.eq_none_iff_forall_ne_some.mpr fun n hn => ?_
    have hkeys : (run ∅ (bagEdits false)).nodes.keys = (run ∅ (bagEdits true)).nodes.keys := rfl
    have hkey : id ∈ (run ∅ (bagEdits true)).nodes.keys := Table.mem_keys_iff.mpr ⟨n, hn⟩
    rw [← hkeys] at hkey
    obtain ⟨m, hm⟩ := Table.mem_keys_iff.mp hkey
    rw [node?, hm] at hnone
    cases hnone
  links_eq := rfl

/-- The two texts are read as properties with one canonical text, and so the two diagrams have one
source. -/
theorem members_order_irrelevant_sample :
    SameMembers (bagText false) (bagText true) ∧
      Shape.properties.ofText (bagText false) = .ok (.ofMembers (bagMembers false)) ∧
      Shape.properties.ofText (bagText true) = .ok (.ofMembers (bagMembers true)) ∧
      (Properties.ofMembers (bagMembers false)).canonical =
        (Properties.ofMembers (bagMembers true)).canonical ∧
      (run ∅ (bagEdits false)).Obtainable ∧ (run ∅ (bagEdits true)).Obtainable ∧
      (run ∅ (bagEdits false)).Alike (run ∅ (bagEdits true)) ∧
      ({} : SourceRules).source (run ∅ (bagEdits false)) =
        ({} : SourceRules).source (run ∅ (bagEdits true)) := by
  have hd : (run ∅ (bagEdits false)).Obtainable := .run .empty (bagEdits_built false)
  have he : (run ∅ (bagEdits true)).Obtainable := .run .empty (bagEdits_built true)
  obtain ⟨htexts, hdiagrams⟩ := members_order_irrelevant
  obtain ⟨hcanonical, -⟩ :=
    (htexts sameMembers_bagText).2 (ofText_bagText false) (ofText_bagText true)
  exact ⟨sameMembers_bagText, ofText_bagText false, ofText_bagText true, hcanonical, hd, he,
    alike_bagEdits, hdiagrams hd he alike_bagEdits {} rfl⟩

end PipelineCanvas
