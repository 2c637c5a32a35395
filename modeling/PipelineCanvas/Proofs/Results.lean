import Mathlib.Data.List.Induction
import PipelineCanvas.Table
/-! # Computations that may fail

A sequence of steps succeeds when each step does, what every step keeps is kept by a loop over a
list, a loop goes from left to right up to the first item that is not taken, or that does not pass a
check, and a loop that stores what it goes over succeeds when no key comes twice.

These facts are about `Except` and `Option` and about loops over lists in general, and say nothing
of diagrams or texts. What they are for is that results about a particular loop are stated with the
list that it goes over, and proved without opening the monad that it runs in. The equivalences are
the ones to rewrite with: a success is taken apart into the successes of its steps, and an error
into the step that it comes from and the successes before that. -/
namespace PipelineCanvas
variable {ε α β : Type}

/-- The second step is taken with what the first has given. -/
theorem bind_eq_ok_iff {x : Except ε α} {f : α → Except ε β} {b : β} :
    x >>= f = .ok b ↔ ∃ a, x = .ok a ∧ f a = .ok b := by
  cases x <;> simp [bind, Except.bind]

/-- An error comes from the first step, or from the second after the first has gone well. -/
theorem bind_eq_error_iff {x : Except ε α} {f : α → Except ε β} {e : ε} :
    x >>= f = .error e ↔ x = .error e ∨ ∃ a, x = .ok a ∧ f a = .error e := by
  cases x <;> simp [bind, Except.bind]

theorem map_eq_ok_iff {x : Except ε α} {f : α → β} {b : β} :
    f <$> x = .ok b ↔ ∃ a, x = .ok a ∧ f a = b := by
  cases x <;> simp [Functor.map, Except.map]

theorem map_eq_error_iff {x : Except ε α} {f : α → β} {e : ε} :
    f <$> x = .error e ↔ x = .error e := by
  cases x <;> simp [Functor.map, Except.map]

/-- To tell an error in other words does not change what succeeds. -/
theorem mapError_eq_ok_iff {δ : Type} {x : Except ε α} {f : ε → δ} {a : α} :
    x.mapError f = .ok a ↔ x = .ok a := by
  cases x with
  | error e => exact ⟨nofun, nofun⟩
  | ok b =>
    show (Except.ok b : Except δ α) = .ok a ↔ Except.ok b = .ok a
    rw [Except.ok.injEq, Except.ok.injEq]

theorem mapError_eq_error_iff {δ : Type} {x : Except ε α} {f : ε → δ} {e : δ} :
    x.mapError f = .error e ↔ ∃ e', x = .error e' ∧ f e' = e := by
  cases x with
  | error e' =>
    show (Except.error (f e') : Except δ α) = .error e ↔ _
    simp
  | ok a => exact ⟨nofun, nofun⟩

/-- Loops that do the same with each item do the same. -/
theorem mapM_congr {m : Type → Type} [Monad m] [LawfulMonad m] {f g : α → m β} {l : List α}
    (h : ∀ a ∈ l, f a = g a) : l.mapM f = l.mapM g := by
  induction l with
  | nil => rfl
  | cons a l ih =>
    obtain ⟨ha, hl⟩ := List.forall_mem_cons.mp h
    rw [List.mapM_cons, List.mapM_cons, ha, ih hl]

theorem foldlM_congr {m : Type → Type} [Monad m] [LawfulMonad m] {f g : β → α → m β} {l : List α}
    (h : ∀ a ∈ l, ∀ b, f b a = g b a) (b : β) : l.foldlM f b = l.foldlM g b := by
  induction l generalizing b with
  | nil => rfl
  | cons a l ih =>
    obtain ⟨ha, hl⟩ := List.forall_mem_cons.mp h
    rw [List.foldlM_cons, List.foldlM_cons, ha b]
    exact congrArg (g b a >>= ·) (funext (ih hl))

theorem mapM_cons_eq_some_iff {f : α → Option β} {a : α} {l : List α} {bs : List β} :
    (a :: l).mapM f = some bs ↔ ∃ b cs, f a = some b ∧ l.mapM f = some cs ∧ bs = b :: cs := by
  rw [List.mapM_cons]
  cases f a with
  | none => simp
  | some b => cases l.mapM f <;> simp [eq_comm]

theorem exists_of_mem_mapM {f : α → Option β} {l : List α} {bs : List β}
    (h : l.mapM f = some bs) {b : β} (hb : b ∈ bs) : ∃ a ∈ l, f a = some b := by
  induction l generalizing bs with
  | nil =>
    cases h
    cases hb
  | cons a l ih =>
    obtain ⟨c, cs, hc, hcs, rfl⟩ := mapM_cons_eq_some_iff.mp h
    rcases List.mem_cons.mp hb with rfl | hb
    · exact ⟨a, List.mem_cons_self, hc⟩
    · obtain ⟨a', ha', hfa'⟩ := ih hcs hb
      exact ⟨a', List.mem_cons_of_mem _ ha', hfa'⟩

theorem toOption_eq_some_iff {x : Except ε α} {a : α} : x.toOption = some a ↔ x = .ok a := by
  cases x <;> simp [Except.toOption]

theorem toOption_bind (x : Except ε α) (f : α → Except ε β) :
    (x >>= f).toOption = x.toOption >>= fun a => (f a).toOption := by
  cases x <;> rfl

/-- Where only success is of interest a loop may be looked at without its errors. -/
theorem toOption_foldlM (step : β → α → Except ε β) (l : List α) (b : β) :
    (l.foldlM step b).toOption = l.foldlM (fun b a => (step b a).toOption) b := by
  induction l generalizing b with
  | nil => rfl
  | cons a l ih =>
    rw [List.foldlM_cons, List.foldlM_cons, toOption_bind]
    exact congrArg ((step b a).toOption >>= ·) (funext ih)

/-- A loop over an item that is never taken gives nothing. -/
theorem foldlM_eq_none {step : β → α → Option β} {l : List α} {a : α} (ha : a ∈ l)
    (h : ∀ b, step b a = none) (b : β) : l.foldlM step b = none := by
  obtain ⟨before, after, rfl⟩ := List.append_of_mem ha
  rw [List.foldlM_append]
  cases before.foldlM step b with
  | none => rfl
  | some c =>
    show (a :: after).foldlM step c = none
    rw [List.foldlM_cons, h c]
    rfl

theorem mapM_eq_none {f : α → Option β} {l : List α} {a : α} (ha : a ∈ l) (h : f a = none) :
    l.mapM f = none := by
  cases hl : l.mapM f with
  | none => rfl
  | some bs =>
    obtain ⟨before, after, rfl⟩ := List.append_of_mem ha
    rw [List.mapM_append, List.mapM_cons, h] at hl
    cases hbefore : before.mapM f with
    | none =>
      rw [hbefore] at hl
      cases hl
    | some cs =>
      rw [hbefore] at hl
      cases hl

/-- To go over the results is to take each item to its result and go on from there. -/
theorem mapM_bind_foldlM {γ : Type} (f : α → Option β) (step : γ → β → Option γ) (l : List α)
    (c : γ) :
    (l.mapM f >>= fun bs => bs.foldlM step c) = l.foldlM (fun c a => f a >>= step c) c := by
  induction l generalizing c with
  | nil => rfl
  | cons a l ih =>
    rw [List.mapM_cons, List.foldlM_cons]
    cases f a with
    | none => rfl
    | some b =>
      show (l.mapM f >>= fun bs => some (b :: bs)) >>= _ = step c b >>= _
      cases hstep : step c b with
      | none => cases l.mapM f <;> simp [List.foldlM_cons, hstep]
      | some c' =>
        refine Eq.trans ?_ (ih c')
        cases l.mapM f <;> simp [List.foldlM_cons, hstep]

/-- What every step of a loop keeps, the loop keeps. -/
theorem foldlM_keeps {step : β → α → Except ε β} {P : β → Prop}
    (keeps : ∀ {b a c}, step b a = .ok c → P b → P c) {l : List α} {b c : β}
    (h : l.foldlM step b = .ok c) (hb : P b) : P c := by
  induction l generalizing b with
  | nil =>
    cases h
    exact hb
  | cons a l ih =>
    obtain ⟨b', hstep, h⟩ := bind_eq_ok_iff.mp h
    exact ih h (keeps hstep hb)

/-- A loop that takes one item after the other comes to the end of the list, with what is so of the
items it has taken. -/
theorem foldlM_reaches {step : β → α → Except ε β} {P : List α → β → Prop} {l : List α} {b : β}
    (hb : P [] b) (takes : ∀ {done a b}, done ++ [a] <+: l → P done b →
      ∃ c, step b a = .ok c ∧ P (done ++ [a]) c) : ∃ c, l.foldlM step b = .ok c ∧ P l c := by
  induction l using List.reverseRecOn with
  | nil => exact ⟨b, rfl, hb⟩
  | append_singleton l a ih =>
    obtain ⟨c, hl, hc⟩ := ih fun hdone => takes (hdone.trans (List.prefix_append l [a]))
    obtain ⟨c', ha, hc'⟩ := takes (List.prefix_refl _) hc
    refine ⟨c', ?_, hc'⟩
    rw [List.foldlM_append, bind_eq_ok_iff]
    exact ⟨c, hl, bind_eq_ok_iff.mpr ⟨c', ha, rfl⟩⟩

/-- A loop ends where an item is not taken. -/
theorem foldlM_fails {step : β → α → Except ε β} {before after : List α} {a : α} {b c : β} {e : ε}
    (h : before.foldlM step b = .ok c) (ha : step c a = .error e) :
    (before ++ a :: after).foldlM step b = .error e := by
  rw [List.foldlM_append, bind_eq_error_iff]
  exact .inr ⟨c, h, bind_eq_error_iff.mpr (.inl ha)⟩

/-- A loop fails where it has taken all items up to one and not that one. -/
theorem foldlM_eq_error_iff {step : β → α → Except ε β} {l : List α} {b : β} {e : ε} :
    l.foldlM step b = .error e ↔ ∃ before a after c, l = before ++ a :: after ∧
      before.foldlM step b = .ok c ∧ step c a = .error e := by
  constructor
  · intro h
    induction l generalizing b with
    | nil => cases h
    | cons a l ih =>
      rcases bind_eq_error_iff.mp h with ha | ⟨b', ha, h⟩
      · exact ⟨[], a, l, b, rfl, rfl, ha⟩
      · obtain ⟨before, a', after, c, rfl, hbefore, ha'⟩ := ih h
        exact ⟨a :: before, a', after, c, rfl, bind_eq_ok_iff.mpr ⟨b', ha, hbefore⟩, ha'⟩
  · rintro ⟨before, a, after, c, rfl, hbefore, ha⟩
    exact foldlM_fails hbefore ha

/-- A loop that stores nothing is the case of one that stores something trivial. -/
theorem forM_eq_foldlM (f : α → Except ε Unit) (l : List α) :
    l.forM f = l.foldlM (fun _ a => f a) () := by
  induction l with
  | nil => rfl
  | cons a l ih =>
    show (f a >>= fun _ => l.forM f) = f a >>= fun _ => l.foldlM (fun _ a => f a) ()
    rw [ih]

/-- A loop of checks succeeds when all of them do. -/
theorem forM_eq_ok_iff {f : α → Except ε Unit} {l : List α} :
    l.forM f = .ok () ↔ ∀ a ∈ l, f a = .ok () := by
  induction l with
  | nil => exact ⟨nofun, fun _ => rfl⟩
  | cons a l ih =>
    rw [List.forall_mem_cons, ← ih]
    show f a >>= (fun _ => l.forM f) = .ok () ↔ _
    rw [bind_eq_ok_iff]
    exact ⟨fun ⟨_, ha, hl⟩ => ⟨ha, hl⟩, fun ⟨ha, hl⟩ => ⟨(), ha, hl⟩⟩

/-- The first item that is at fault decides, where those before it are not. -/
theorem forM_eq_error_iff {f : α → Except ε Unit} {l : List α} {e : ε} :
    l.forM f = .error e ↔ ∃ before a after, l = before ++ a :: after ∧
      (∀ b ∈ before, f b = .ok ()) ∧ f a = .error e := by
  simp only [forM_eq_foldlM, foldlM_eq_error_iff, ← forM_eq_ok_iff]
  exact ⟨fun ⟨before, a, after, _, h⟩ => ⟨before, a, after, h⟩,
    fun ⟨before, a, after, h⟩ => ⟨before, a, after, (), h⟩⟩

/-- A loop over a list fails with the first item at fault, where all items before it are taken. -/
theorem foldlM_eq_error_of_find? {step : β → α → Except ε β} {P : β → List α → Prop}
    {faulty : α → Bool} {g : α → ε}
    (takes : ∀ {b a l}, P b (a :: l) → faulty a = false → ∃ c, step b a = .ok c ∧ P c l)
    (fails : ∀ {b a l}, P b (a :: l) → faulty a = true → step b a = .error (g a))
    {l : List α} {b : β} (hb : P b l) {a : α} (ha : l.find? faulty = some a) :
    l.foldlM step b = .error (g a) := by
  induction l generalizing b with
  | nil => cases ha
  | cons c l ih =>
    rw [List.foldlM_cons]
    rw [List.find?_cons] at ha
    split at ha
    · next hc =>
      cases ha
      rw [fails hb hc]
      rfl
    · next hc =>
      obtain ⟨b', hstep, hb'⟩ := takes hb hc
      rw [hstep]
      exact ih hb' ha

/-- Entries are stored in a table one by one as long as their keys are free and they are accepted,
where what has been stored does not change what is accepted. -/
theorem foldlM_insert_eq_ok_iff {σ K V : Type} [Ord K] [Std.TransOrd K] [Std.LawfulEqOrd K]
    [DecidableEq K] {step : σ → α → Except ε σ} (table : σ → Table K V) (key : α → K)
    (value : α → V) (Accepts : σ → α → Prop) (store : σ → α → σ)
    (hstep : ∀ {s a t}, step s a = .ok t ↔
      (table s).get? (key a) = none ∧ Accepts s a ∧ t = store s a)
    (htable : ∀ s a, table (store s a) = (table s).insert (key a) (value a))
    (haccepts : ∀ s a b, Accepts (store s a) b ↔ Accepts s b) {l : List α} {s t : σ} :
    l.foldlM step s = .ok t ↔ (∀ a ∈ l, (table s).get? (key a) = none) ∧ (l.map key).Nodup ∧
      (∀ a ∈ l, Accepts s a) ∧ t = l.foldl store s := by
  induction l generalizing s with
  | nil => simp [pure, Except.pure, eq_comm]
  | cons a l ih =>
    simp only [List.foldlM_cons, bind_eq_ok_iff, hstep, ih]
    constructor
    · rintro ⟨_, ⟨ha, haccept, rfl⟩, hfree, hnodup, hrest, rfl⟩
      -- a key that is free once `a` is stored was free before, and is not the key of `a`
      have hold : ∀ b ∈ l, key b ≠ key a ∧ (table s).get? (key b) = none := by
        intro b hb
        have hnone := hfree b hb
        rw [htable, Table.get?_insert] at hnone
        split at hnone
        · cases hnone
        · next hne => exact ⟨hne, hnone⟩
      have hnew : key a ∉ l.map key := by
        intro hmem
        obtain ⟨b, hb, heq⟩ := List.mem_map.mp hmem
        exact (hold b hb).1 heq
      exact ⟨List.forall_mem_cons.mpr ⟨ha, fun b hb => (hold b hb).2⟩,
        List.nodup_cons.mpr ⟨hnew, hnodup⟩,
        List.forall_mem_cons.mpr ⟨haccept, fun b hb => (haccepts s a b).mp (hrest b hb)⟩, rfl⟩
    · rintro ⟨hfree, hnodup, hrest, rfl⟩
      obtain ⟨ha, hfree⟩ := List.forall_mem_cons.mp hfree
      obtain ⟨haccept, hrest⟩ := List.forall_mem_cons.mp hrest
      obtain ⟨hnew, hnodup⟩ := List.nodup_cons.mp hnodup
      refine ⟨_, ⟨ha, haccept, rfl⟩, fun b hb => ?_, hnodup,
        fun b hb => (haccepts s a b).mpr (hrest b hb), rfl⟩
      have hne : key b ≠ key a := fun heq => hnew (List.mem_map.mpr ⟨b, hb, heq⟩)
      rw [htable, Table.get?_insert_of_ne _ hne]
      exact hfree b hb

end PipelineCanvas
