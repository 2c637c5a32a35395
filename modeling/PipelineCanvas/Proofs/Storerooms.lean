import Mathlib.Data.List.Induction
import PipelineCanvas.Proofs.Shelves
import PipelineCanvas.Studio
/-! # Registries show the last catalog

The events in a storeroom say by themselves which catalog was published last to each registry, and
which it was when a snapshot was taken (`Storeroom.Ledger`). The clients see what they say
(`Storeroom.tells_run`), for a shelf looks like its catalog whoever has filled it. Publishing
changes which shelf a registry shows and never a shelf, so a snapshot goes on showing what it did
(`Storeroom.kept_prefix_run`). A studio has one registry for all its clients.

Three things come between a catalog and what is seen of it. Clients are clones of each other and
hold their registry in common, so it does not matter which of them publishes. A registry shows a
shelf by its number, so that a snapshot is a number, too, and keeps its shelf. And a shelf is filled
in an order that nobody knows. The ledger has none of this: it keeps the catalogs themselves, as
they were published, and the proof that the storeroom is as the ledger says is one step for each
kind of event (`Tells.step`).

That what is published stays to be seen is stated for as long as nobody with the same registry
publishes (`Quiet`). Others may publish, clone themselves and enter as they like. -/
namespace PipelineCanvas

/-- The studio after several actions, one after the other. -/
def Studio.after (s : Studio) (actions : List (Nat × Action)) : Studio :=
  actions.foldl (fun s a => s.act a.1 a.2) s

/-! ### What the events say -/

namespace Storeroom
variable {fill : Filler} {r : Storeroom}

/-- What the events say of the catalogs. -/
structure Ledger where
  /-- For each registry the catalog that was published last. -/
  catalogs : List (List Block) := []
  /-- For each client the number of its registry. -/
  holders : List Nat := []
  /-- For each snapshot the catalog of its moment, the latest last. -/
  kept : List (List Block) := []

namespace Ledger

/-- The catalog that was published last to the registry of the client. -/
def catalog? (l : Ledger) (client : Nat) : Option (List Block) := do
  l.catalogs[← l.holders[client]?]?

def after (l : Ledger) : Event → Ledger
  | .enter blocks =>
    { l with catalogs := l.catalogs ++ [blocks], holders := l.holders ++ [l.catalogs.length] }
  | .clone client => { l with holders := l.holders ++ l.holders[client]?.toList }
  | .publish client blocks =>
    match l.holders[client]? with
    | some registry => { l with catalogs := l.catalogs.set registry blocks }
    | none => l
  | .takeSnapshot client => { l with kept := l.kept ++ (l.catalog? client).toList }

end Ledger

def ledger (events : List Event) : Ledger := events.foldl Ledger.after {}

theorem ledger_concat (events : List Event) (e : Event) :
    ledger (events ++ [e]) = (ledger events).after e :=
  List.foldl_concat ..

/-- The two clients hold one registry. -/
def Shares (holders : List Nat) (client other : Nat) : Prop :=
  ∃ registry, holders[client]? = some registry ∧ holders[other]? = some registry

namespace Ledger
variable {l : Ledger}

theorem holders_prefix_after (l : Ledger) (e : Event) : l.holders <+: (l.after e).holders := by
  cases e with
  | enter | clone => exact List.prefix_append ..
  | publish =>
    simp only [after]
    split <;> exact List.prefix_rfl
  | takeSnapshot => exact List.prefix_rfl

/-- Clients go on holding their registries. -/
theorem holder_after {client registry : Nat} (h : l.holders[client]? = some registry) (e : Event) :
    (l.after e).holders[client]? = some registry := by
  obtain ⟨more, hmore⟩ := l.holders_prefix_after e
  rwa [← hmore, List.getElem?_append_left (List.getElem?_eq_some_iff.mp h).1]

/-- Every client holds a registry that is there. -/
def Held (l : Ledger) : Prop := ∀ registry ∈ l.holders, registry < l.catalogs.length

/-- A client that enters brings its registry, and a clone takes over one that is there. -/
theorem Held.after (h : l.Held) (e : Event) : (l.after e).Held := by
  cases e with
  | enter blocks =>
    intro registry hregistry
    rw [Ledger.after, List.length_append]
    rcases List.mem_append.mp hregistry with hold | hnew
    · exact Nat.lt_succ_of_lt (h registry hold)
    · rw [List.mem_singleton.mp hnew]
      exact Nat.lt_succ_self _
  | clone client =>
    intro registry hregistry
    rcases List.mem_append.mp hregistry with hold | hnew
    · exact h registry hold
    · exact h registry (List.mem_of_getElem? (Option.mem_toList.mp hnew))
  | publish client blocks =>
    simp only [Ledger.after]
    split
    · intro registry hregistry
      rw [List.length_set]
      exact h registry hregistry
    · exact h
  | takeSnapshot => exact h

/-- Publishing changes the catalog of one registry only. -/
theorem catalogs_publish (h : l.Held) {client registry : Nat} {blocks : List Block}
    (hclient : l.holders[client]? = some registry) :
    (l.after (.publish client blocks)).catalogs[registry]? = some blocks := by
  simp only [after, hclient]
  exact List.getElem?_set_self (h registry (List.mem_of_getElem? hclient))

/-- A catalog stays until the next is published to its registry. -/
theorem catalogs_after {registry : Nat} {blocks : List Block} {e : Event}
    (h : l.catalogs[registry]? = some blocks)
    (hquiet : ∀ client new, e = .publish client new → l.holders[client]? ≠ some registry) :
    (l.after e).catalogs[registry]? = some blocks := by
  cases e with
  | enter => exact (List.getElem?_append_left (List.getElem?_eq_some_iff.mp h).1).trans h
  | clone | takeSnapshot => exact h
  | publish client new =>
    simp only [after]
    split
    · next other hother =>
      have hne : other ≠ registry := fun heq => hquiet client new rfl (heq ▸ hother)
      exact (List.getElem?_set_ne hne).trans h
    · exact h

end Ledger

theorem held_ledger (events : List Event) : (ledger events).Held := by
  induction events using List.reverseRecOn with
  | nil => exact fun _ h => nomatch h
  | append_singleton events e ih =>
    rw [ledger_concat]
    exact ih.after e

theorem holder_ledger {events : List Event} {client registry : Nat}
    (h : (ledger events).holders[client]? = some registry) (later : List Event) :
    (ledger (events ++ later)).holders[client]? = some registry := by
  induction later using List.reverseRecOn with
  | nil => rwa [List.append_nil]
  | append_singleton later e ih =>
    rw [← List.append_assoc, ledger_concat]
    exact Ledger.holder_after ih e

/-- Nobody with the registry of the client publishes. -/
def Quiet (holders : List Nat) (client : Nat) (events : List Event) : Prop :=
  ∀ other blocks, .publish other blocks ∈ events → ¬ Shares holders client other

/-- By induction on the later events, the last one first. While it is quiet none of them touches the
registry. -/
theorem catalogs_ledger {events later : List Event} {client registry : Nat} {blocks : List Block}
    (hclient : (ledger events).holders[client]? = some registry)
    (h : (ledger events).catalogs[registry]? = some blocks)
    (hquiet : Quiet (ledger (events ++ later)).holders client later) :
    (ledger (events ++ later)).catalogs[registry]? = some blocks := by
  induction later using List.reverseRecOn with
  | nil => rwa [List.append_nil]
  | append_singleton later e ih =>
    rw [← List.append_assoc, ledger_concat] at hquiet ⊢
    have holder : ∀ {other n}, (ledger (events ++ later)).holders[other]? = some n →
        ((ledger (events ++ later)).after e).holders[other]? = some n :=
      fun hother => Ledger.holder_after hother e
    have hkept := holder_ledger hclient later
    refine Ledger.catalogs_after (ih ?_) ?_
    · rintro other new hmem ⟨n, hn, hother⟩
      exact hquiet other new (List.mem_append_left _ hmem) ⟨n, holder hn, holder hother⟩
    · rintro other new rfl hother
      exact hquiet other new (List.mem_append_right _ List.mem_cons_self)
        ⟨registry, holder hkept, holder hother⟩

/-- The catalog that a client published is that of all with its registry until one of them publishes
another. -/
theorem catalog?_of_publish {events later : List Event} {client other : Nat} {blocks : List Block}
    (hclient : client < (ledger events).holders.length)
    (hquiet : Quiet (ledger (events ++ .publish client blocks :: later)).holders client later)
    (hother : Shares (ledger (events ++ .publish client blocks :: later)).holders client other) :
    (ledger (events ++ .publish client blocks :: later)).catalog? other = some blocks := by
  obtain ⟨registry, hregistry⟩ : ∃ registry, (ledger events).holders[client]? = some registry :=
    ⟨_, List.getElem?_eq_getElem hclient⟩
  have hpublished := holder_ledger hregistry [.publish client blocks]
  have hcatalog : (ledger (events ++ [.publish client blocks])).catalogs[registry]? =
      some blocks := by
    rw [ledger_concat]
    exact Ledger.catalogs_publish (held_ledger events) hregistry
  obtain ⟨shared, hshared, hholds⟩ := hother
  rw [List.append_cons] at hquiet hshared hholds ⊢
  obtain rfl := Option.some.inj (hshared.symm.trans (holder_ledger hpublished later))
  rw [Ledger.catalog?, hholds]
  exact catalogs_ledger hpublished hcatalog hquiet

/-- What is seen of the shelf of the number. -/
def view? (r : Storeroom) (n : Nat) : Option Views := r.shelves[n]?.map Shelf.views

/-- The storeroom is as the events say. -/
structure Tells (r : Storeroom) (l : Ledger) : Prop where
  /-- The clients hold the registries that the ledger says they do. -/
  clients_eq : r.clients = l.holders
  /-- Each registry shows a shelf that looks like its catalog. -/
  registries_eq : r.registries.map r.view? = l.catalogs.map (some ∘ catalogViews)
  /-- Each snapshot is of a shelf that looks like the catalog of its moment. -/
  snapshots_eq : r.snapshots.map r.view? = l.kept.map (some ∘ catalogViews)

/-! ### Shelves stay as they are -/

/-- Shelves are added at the end and never changed. -/
theorem shelves_prefix_step (r : Storeroom) (e : Event) :
    r.shelves <+: (r.step fill e).shelves := by
  cases e with
  | enter => exact List.prefix_append ..
  | clone | takeSnapshot => exact List.prefix_rfl
  | publish =>
    simp only [step]
    split
    · exact List.prefix_append ..
    · exact List.prefix_rfl

/-- So are snapshots. -/
theorem snapshots_prefix_step (r : Storeroom) (e : Event) :
    r.snapshots <+: (r.step fill e).snapshots := by
  cases e with
  | enter | clone => exact List.prefix_rfl
  | publish =>
    simp only [step]
    split <;> exact List.prefix_rfl
  | takeSnapshot => exact List.prefix_append ..

theorem shelf_of_more {s : Storeroom} {n : Nat} (h : r.shelves <+: s.shelves)
    (hn : (r.view? n).isSome = true) : s.shelves[n]? = r.shelves[n]? := by
  have hlt : n < r.shelves.length := by rwa [view?, Option.isSome_map, isSome_getElem?] at hn
  obtain ⟨more, hmore⟩ := h
  rw [← hmore, List.getElem?_append_left hlt]

section Growth
variable {s : Storeroom} {ns : List Nat} {catalogs : List (List Block)}

theorem isSome_of_map_eq (h : ns.map r.view? = catalogs.map (some ∘ catalogViews))
    {n : Nat} (hn : n ∈ ns) : (r.view? n).isSome = true := by
  have hview := List.mem_map_of_mem (f := r.view?) hn
  rw [h] at hview
  obtain ⟨blocks, -, hblocks⟩ := List.mem_map.mp hview
  exact hblocks ▸ rfl

/-- More shelves do not change what is seen of those that were there. -/
theorem map_view?_of_more (hshelves : r.shelves <+: s.shelves)
    (h : ns.map r.view? = catalogs.map (some ∘ catalogViews)) :
    ns.map s.view? = catalogs.map (some ∘ catalogViews) := by
  rw [← h]
  exact List.map_congr_left fun n hn =>
    congrArg (Option.map Shelf.views) (shelf_of_more hshelves (isSome_of_map_eq h hn))

end Growth

/-! ### What is seen follows the events -/

/-- The new shelf shows its catalog, whoever filled it. -/
theorem view?_fill (fair : fill.Fair) (r : Storeroom) (blocks : List Block) {s : Storeroom}
    (hs : s.shelves = r.shelves ++ [fill r.shelves.length blocks]) :
    s.view? r.shelves.length = some (catalogViews blocks) := by
  rw [view?, hs, List.getElem?_concat_length]
  exact congrArg some (fair _ _).views_eq

namespace Tells
variable {l : Ledger}

theorem registries_length (h : r.Tells l) : r.registries.length = l.catalogs.length := by
  simpa using congrArg List.length h.registries_eq

/-- The shelf that is shown to a client is of the catalog of its registry. -/
theorem map_shown? (h : r.Tells l) (client : Nat) : (r.shown? client).map r.view? =
    (l.catalog? client).map (some ∘ catalogViews) := by
  unfold shown? Ledger.catalog?
  rw [h.clients_eq]
  cases l.holders[client]? with
  | none => rfl
  | some registry =>
    show r.registries[registry]?.map r.view? = l.catalogs[registry]?.map _
    rw [← List.getElem?_map, ← List.getElem?_map, h.registries_eq]

/-- What the invariant is for: a client sees the catalog that the ledger has for it. -/
theorem map_seen? (h : r.Tells l) (client : Nat) :
    (r.seen? client).map Shelf.views = (l.catalog? client).map catalogViews :=
  calc (r.seen? client).map Shelf.views
    _ = ((r.shown? client).map r.view?).join := by rw [seen?]; cases r.shown? client <;> rfl
    _ = ((l.catalog? client).map (some ∘ catalogViews)).join := by rw [h.map_shown?]
    _ = (l.catalog? client).map catalogViews := by cases l.catalog? client <;> rfl

theorem map_kept (h : r.Tells l) : r.kept.map Shelf.views = l.kept.map catalogViews :=
  calc r.kept.map Shelf.views
    _ = r.snapshots.filterMap r.view? := List.map_filterMap
    _ = (r.snapshots.map r.view?).filterMap id := by rw [List.filterMap_map, Function.id_comp]
    _ = (l.kept.map (some ∘ catalogViews)).filterMap id := by rw [h.snapshots_eq]
    _ = l.kept.filterMap (some ∘ catalogViews) := List.filterMap_map
    _ = l.kept.map catalogViews := congrFun List.filterMap_eq_map' _

/-- One event. Publishing fills a new shelf, which looks like its catalog as the filler is fair; the
shelves before it keep their numbers and looks. -/
theorem step (h : r.Tells l) (fair : fill.Fair) (e : Event) :
    (r.step fill e).Tells (l.after e) := by
  have hshelves : r.shelves <+: (r.step fill e).shelves := shelves_prefix_step r e
  cases e with
  | enter blocks =>
    refine ⟨?_, ?_, map_view?_of_more hshelves h.snapshots_eq⟩
    · show r.clients ++ [r.registries.length] = l.holders ++ [l.catalogs.length]
      rw [h.clients_eq, h.registries_length]
    · show (r.registries ++ [r.shelves.length]).map _ = (l.catalogs ++ [blocks]).map _
      rw [List.map_append, List.map_append, map_view?_of_more hshelves h.registries_eq]
      exact congrArg (_ ++ [·]) (view?_fill fair r blocks rfl)
  | clone client =>
    refine ⟨?_, h.registries_eq, h.snapshots_eq⟩
    show r.clients ++ r.clients[client]?.toList = l.holders ++ l.holders[client]?.toList
    rw [h.clients_eq]
  | publish client blocks =>
    have hclients := h.clients_eq
    simp only [Storeroom.step, Ledger.after, hclients] at hshelves ⊢
    -- a client that is not there publishes nothing, on either side
    cases hclient : l.holders[client]? with
    | none => exact h
    | some registry =>
      simp only [hclient] at hshelves ⊢
      refine ⟨rfl, ?_, map_view?_of_more hshelves h.snapshots_eq⟩
      rw [List.map_set, List.map_set, map_view?_of_more hshelves h.registries_eq]
      exact congrArg _ (view?_fill fair r blocks rfl)
  | takeSnapshot client =>
    refine ⟨h.clients_eq, h.registries_eq, ?_⟩
    show (r.snapshots ++ (r.shown? client).toList).map r.view? =
      (l.kept ++ (l.catalog? client).toList).map _
    rw [List.map_append, List.map_append, h.snapshots_eq, ← Option.toList_map, ← Option.toList_map,
      h.map_shown?]

/-- The snapshots go on showing the shelves that they did. -/
theorem kept_prefix_step (h : r.Tells l) (e : Event) : r.kept <+: (r.step fill e).kept := by
  have hsame : r.kept = r.snapshots.filterMap fun n => (r.step fill e).shelves[n]? :=
    List.filterMap_congr fun n hn =>
      (shelf_of_more (shelves_prefix_step r e) (isSome_of_map_eq h.snapshots_eq hn)).symm
  rw [hsame]
  exact (snapshots_prefix_step r e).filterMap _

end Tells

theorem run_concat (events : List Event) (e : Event) :
    run fill (events ++ [e]) = (run fill events).step fill e :=
  List.foldl_concat ..

/-- By induction on the events, the last one first. -/
theorem tells_run (fair : fill.Fair) (events : List Event) :
    (run fill events).Tells (ledger events) := by
  induction events using List.reverseRecOn with
  | nil => exact ⟨rfl, rfl, rfl⟩
  | append_singleton events e ih =>
    rw [run_concat, ledger_concat]
    exact ih.step fair e

/-- More events may add snapshots but take none away. -/
theorem kept_prefix_run (fair : fill.Fair) (events more : List Event) :
    (run fill events).kept <+: (run fill (events ++ more)).kept := by
  induction more using List.reverseRecOn with
  | nil => exact (List.append_nil events).symm ▸ List.prefix_rfl
  | append_singleton more e ih =>
    rw [← List.append_assoc, run_concat]
    exact ih.trans ((tells_run fair (events ++ more)).kept_prefix_step e)

/-- A snapshot is of the shelf that the client sees. -/
theorem kept_takeSnapshot (r : Storeroom) (client : Nat) :
    (r.step fill (.takeSnapshot client)).kept = r.kept ++ (r.seen? client).toList := by
  show (r.snapshots ++ (r.shown? client).toList).filterMap _ = r.kept ++ _
  rw [List.filterMap_append, seen?]
  cases r.shown? client with
  | none => rfl
  | some n =>
    refine congrArg (r.kept ++ ·) ?_
    show [n].filterMap (fun n => r.shelves[n]?) = r.shelves[n]?.toList
    cases hshelf : r.shelves[n]? with
    | none => exact List.filterMap_cons_none hshelf
    | some shelf => exact List.filterMap_cons_some hshelf

/-! ### Studios -/

/-- An action in a studio is an event in a storeroom. -/
def Event.ofAction : Nat × Studio.Action → Event
  | (client, .publish blocks) => .publish client blocks
  | (client, .takeSnapshot) => .takeSnapshot client

/-- A client enters and is cloned. -/
def opening (blocks : List Block) (clones : Nat) : List Event :=
  .enter blocks :: List.replicate clones (.clone 0)

/-- The clients see the palette of the studio, and the snapshots are the same. -/
structure Follows (r : Storeroom) (clones : Nat) (s : Studio) : Prop where
  /-- Every client sees the palette of the studio. -/
  seen_eq : ∀ client ≤ clones, (r.seen? client).map Shelf.views = some s.palette.views
  /-- The snapshots are the palettes that the studio has kept, the earliest first. -/
  kept_eq : r.kept.map Shelf.views = s.snapshots.reverse.map Palette.views

/-- All clients share one registry, which shows what the studio does. -/
structure Ledger.Mirrors (l : Ledger) (clones : Nat) (s : Studio) : Prop where
  /-- There is one registry, which all clients hold. -/
  holders_eq : l.holders = List.replicate (clones + 1) 0
  /-- Its catalog is the one that the palette of the studio is made of. -/
  catalogs_eq : ∃ blocks, l.catalogs = [blocks] ∧ s.palette = .ofCatalog blocks
  kept_eq : l.kept.map Palette.ofCatalog = s.snapshots.reverse

theorem mirrors_opening (blocks : List Block) (clones : Nat) :
    (ledger (opening blocks clones)).Mirrors clones { palette := .ofCatalog blocks } := by
  have hledger : ledger (opening blocks clones) =
      ⟨[blocks], List.replicate (clones + 1) 0, []⟩ := by
    induction clones with
    | zero => rfl
    | succ clones ih =>
      rw [opening, List.replicate_succ', ← List.cons_append, ledger_concat]
      rw [opening] at ih
      rw [ih, List.replicate_succ' (n := clones + 1)]
      rfl
  rw [hledger]
  exact ⟨rfl, ⟨blocks, rfl, rfl⟩, rfl⟩

namespace Ledger.Mirrors
variable {l : Ledger} {clones : Nat} {s : Studio}

theorem holders_getElem? (h : l.Mirrors clones s) {client : Nat} (hclient : client ≤ clones) :
    l.holders[client]? = some 0 := by
  rw [h.holders_eq, List.getElem?_replicate_of_lt (Nat.lt_succ_of_le hclient)]

theorem map_catalog? (h : l.Mirrors clones s) {client : Nat} (hclient : client ≤ clones) :
    (l.catalog? client).map catalogViews = some s.palette.views := by
  obtain ⟨blocks, hcatalogs, hpalette⟩ := h.catalogs_eq
  rw [catalog?, h.holders_getElem? hclient, hcatalogs, hpalette]
  rfl

theorem map_kept (h : l.Mirrors clones s) :
    l.kept.map catalogViews = s.snapshots.reverse.map Palette.views := by
  rw [← h.kept_eq, List.map_map]
  rfl

/-- Each action of the studio is an event of the storeroom, and the two stay in step. -/
theorem act (h : l.Mirrors clones s) {a : Nat × Studio.Action} (ha : a.1 ≤ clones) :
    (l.after (.ofAction a)).Mirrors clones (s.act a.1 a.2) := by
  obtain ⟨client, action⟩ := a
  obtain ⟨blocks, hcatalogs, hpalette⟩ := h.catalogs_eq
  have hholder := h.holders_getElem? ha
  cases action with
  | publish new =>
    have hafter : l.after (.publish client new) = { l with catalogs := [new] } := by
      simp only [after, hholder, hcatalogs]
      rfl
    rw [Event.ofAction, hafter]
    exact ⟨h.holders_eq, ⟨new, rfl, rfl⟩, h.kept_eq⟩
  | takeSnapshot =>
    have hcatalog : l.catalog? client = some blocks := by
      rw [catalog?, hholder, hcatalogs]
      rfl
    refine ⟨h.holders_eq, ⟨blocks, hcatalogs, hpalette⟩, ?_⟩
    show (l.kept ++ (l.catalog? client).toList).map _ = (s.palette :: s.snapshots).reverse
    rw [hcatalog, List.map_append, h.kept_eq, List.reverse_cons, hpalette]
    rfl

theorem after (h : l.Mirrors clones s) {actions : List (Nat × Studio.Action)}
    (hclients : ∀ a ∈ actions, a.1 ≤ clones) :
    ((actions.map Event.ofAction).foldl Ledger.after l).Mirrors clones (s.after actions) := by
  induction actions generalizing l s with
  | nil => exact h
  | cons a actions ih =>
    obtain ⟨ha, hrest⟩ := List.forall_mem_cons.mp hclients
    exact ih (h.act ha) hrest

end Ledger.Mirrors

/-- Each block is put in front of those before. -/
def Filler.inFront : Filler := fun _ blocks => blocks.foldl Shelf.putFirst ∅

theorem Filler.fair_inFront : Filler.inFront.Fair := fun _ blocks => Shelf.fills_putFirst ∅ blocks

/-- What is promised of a storeroom after the events, and after some more of them. -/
structure ShowsLatest (fill : Filler) (events more : List Event) : Prop where
  /-- A client sees the catalog that was published last to its registry. -/
  seen_eq : ∀ client, ((run fill events).seen? client).map Shelf.views =
    ((ledger events).catalog? client).map catalogViews
  /-- Whoever published it, all who hold the registry see it until one of them publishes again. -/
  seen_publish : ∀ client other blocks, client < (run fill events).clients.length →
    ∀ r, r = run fill (events ++ .publish client blocks :: more) →
      Quiet r.clients client more → Shares r.clients client other →
        (r.seen? other).map Shelf.views = some (catalogViews blocks)
  /-- A snapshot shows the catalog of its moment. -/
  kept_eq : (run fill events).kept.map Shelf.views = (ledger events).kept.map catalogViews
  /-- It stays the same shelf, whatever is published afterwards. -/
  kept_lasts : (run fill events).kept <+: (run fill (events ++ more)).kept
  /-- What is kept is the shelf that the client sees who takes the snapshot. -/
  kept_takeSnapshot : ∀ client, (run fill (events ++ [.takeSnapshot client])).kept =
    (run fill events).kept ++ ((run fill events).seen? client).toList
  /-- Of several blocks with one name the last is shown. -/
  shows : ∀ blocks, (catalogViews blocks).Show blocks
  /-- The order of a catalog is not seen where its names differ. -/
  order_irrelevant : ∀ blocks other, blocks.Perm other → (blocks.map (·.name)).Nodup →
    catalogViews blocks = catalogViews other
  /-- A studio is the case of one registry. -/
  follows : ∀ blocks clones (actions : List (Nat × Studio.Action)), (∀ a ∈ actions, a.1 ≤ clones) →
    (run fill (opening blocks clones ++ actions.map .ofAction)).Follows clones
      (({ palette := .ofCatalog blocks } : Studio).after actions)

/-- **Registries show the last catalog**, whoever fills the shelves and in whatever order the blocks
stand on them. A client sees the catalog that was published last to its registry, be it by itself or
by another who holds the registry, and a snapshot shows for ever what the client saw who took it. A
shelf shows the last block of each name, and the order of a catalog is not seen where its names
differ. A studio is the case of one registry. -/
theorem shows_latest {fill : Filler} (fair : fill.Fair) (events more : List Event) :
    ShowsLatest fill events more := by
  have htells := tells_run fair
  refine
    { seen_eq := (htells events).map_seen?
      seen_publish := ?_
      kept_eq := (htells events).map_kept
      kept_lasts := kept_prefix_run fair events more
      kept_takeSnapshot := ?_
      shows := show_catalogViews
      order_irrelevant := fun _ _ => catalogViews_perm
      follows := ?_ }
  · rintro client other blocks hclient _ rfl hquiet hother
    rw [(htells _).clients_eq] at hclient hquiet hother
    rw [(htells _).map_seen?, catalog?_of_publish hclient hquiet hother]
    rfl
  · intro client
    rw [run_concat, kept_takeSnapshot]
  · intro blocks clones actions hclients
    have hmirrors := (mirrors_opening blocks clones).after hclients
    rw [ledger, ← List.foldl_append] at hmirrors
    refine ⟨fun client hclient => ?_, (htells _).map_kept.trans hmirrors.map_kept⟩
    exact ((htells _).map_seen? client).trans (hmirrors.map_catalog? hclient)

/-- The clone of a clone sees what was published through the first clone. The snapshot that was
taken before has the one mapper that was listed last. -/
theorem shows_latest_sample : Filler.inFront.Fair ∧ ∃ r : Storeroom,
    r = run .inFront (opening [⟨"map", .producer, .null⟩, ⟨"map", .consumer, .null⟩] 1 ++
      [.takeSnapshot 0] ++ .publish 1 [⟨"sink", .consumer, .null⟩] ::
        [.clone 1, .takeSnapshot 2]) ∧
    (r.seen? 2).map Shelf.views = some (catalogViews [⟨"sink", .consumer, .null⟩]) ∧
    ∃ before after, r.kept.map Shelf.views = [before, after] ∧
      before.block? "map" = some ⟨"map", .consumer, .null⟩ ∧ before.size = 1 ∧
      after.contains "map" = false := by
  have hbefore := shows_latest Filler.fair_inFront
    (opening [⟨"map", .producer, .null⟩, ⟨"map", .consumer, .null⟩] 1 ++ [.takeSnapshot 0])
    [.clone 1, .takeSnapshot 2]
  have hafter := shows_latest Filler.fair_inFront
    (opening [⟨"map", .producer, .null⟩, ⟨"map", .consumer, .null⟩] 1 ++ [.takeSnapshot 0] ++
      .publish 1 [⟨"sink", .consumer, .null⟩] :: [.clone 1, .takeSnapshot 2]) []
  refine ⟨Filler.fair_inFront, _, rfl, ?_, _, _, hafter.kept_eq, ?_, ?_, ?_⟩
  · exact hbefore.seen_publish 1 2 _ (by decide) _ rfl (fun _ _ h => by simp at h) ⟨0, rfl, rfl⟩
  · exact (hbefore.shows _).block?_eq_some_iff.mpr
      ⟨[⟨"map", .producer, .null⟩], [], rfl, rfl, nofun⟩
  · exact (hbefore.shows _).size_eq
  · refine Bool.eq_false_iff.mpr fun h => ?_
    obtain ⟨block, hblock, hname⟩ := (hbefore.shows _).contains_iff.mp h
    rw [List.mem_singleton.mp hblock] at hname
    exact absurd hname (by decide)

end Storeroom
end PipelineCanvas
