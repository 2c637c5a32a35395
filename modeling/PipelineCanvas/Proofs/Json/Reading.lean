import PipelineCanvas.Json.Reader
/-! # Basic readers

What the basic readers take off the front of a text. The text is given as what is taken followed by
a rest, which stays; where a reader takes as much as it can, the rest must not go on in the same
way. Statements of this form can be put together along the reader, by `bind_of_ok`, as the rest of
the one is the text of the next.

A loop reads as long as its step asks for another round. Its budget is the length of the text, and
each round has to take something off the text, so a loop that has its rounds (`Rounds`) does not run
out of budget before they are over (`Rounds.loop`). -/
namespace PipelineCanvas.Json

/-- Nothing but blanks. -/
def Blank (ws : List Char) : Prop := ∀ c ∈ ws, Reader.isBlank c = true

theorem blank_nil : Blank [] := fun _ h => nomatch h

theorem Blank.append {ws vs : List Char} (hws : Blank ws) (hvs : Blank vs) : Blank (ws ++ vs) := by
  intro c hc
  rcases List.mem_append.mp hc with hc | hc
  · exact hws c hc
  · exact hvs c hc

namespace Reader
variable {α β σ : Type} {cs rest : List Char}

/-- What is read first is passed on, with the rest of the text. -/
theorem bind_of_ok {r : Reader α} {f : α → Reader β} {a : α} (h : r cs = .ok (a, rest)) :
    (r >>= f) cs = f a rest := by
  simp [bind, StateT.bind, h, Except.bind]

theorem bind_of_error {r : Reader α} {f : α → Reader β} {fault : Fault} (h : r cs = .error fault) :
    (r >>= f) cs = .error fault := by
  simp [bind, StateT.bind, h, Except.bind]

theorem map_of_ok {r : Reader α} {f : α → β} {a : α} (h : r cs = .ok (a, rest)) :
    (f <$> r) cs = .ok (f a, rest) := by
  simp [Functor.map, StateT.map, h, bind, Except.bind, pure, Except.pure]

theorem bind_eq_ok_iff {β : Type} {r : Reader α} {f : α → Reader β} {b : β} :
    (r >>= f) cs = .ok (b, rest) ↔ ∃ a cs', r cs = .ok (a, cs') ∧ f a cs' = .ok (b, rest) := by
  simp only [bind, StateT.bind, Except.bind]
  cases r cs with
  | error e => simp
  | ok p =>
    constructor
    · exact fun h => ⟨p.1, p.2, rfl, h⟩
    · rintro ⟨a, cs', hp, h⟩
      cases hp
      exact h

theorem map_eq_ok_iff {β : Type} {r : Reader α} {f : α → β} {b : β} :
    (f <$> r) cs = .ok (b, rest) ↔ ∃ a, r cs = .ok (a, rest) ∧ f a = b := by
  simp only [Functor.map, StateT.map, bind, Except.bind, pure, Except.pure]
  cases r cs with
  | error e => simp
  | ok p =>
    obtain ⟨a, cs'⟩ := p
    simp only [Except.ok.injEq, Prod.mk.injEq]
    constructor
    · rintro ⟨rfl, rfl⟩
      exact ⟨a, ⟨rfl, rfl⟩, rfl⟩
    · rintro ⟨_, ⟨rfl, rfl⟩, rfl⟩
      exact ⟨rfl, rfl⟩

/-- A result that does not come from the text takes nothing off it. -/
theorem lift_eq_ok {e : Except Fault α} {a : α} (h : e = .ok a) :
    (liftM e : Reader α) cs = .ok (a, cs) := by
  rw [h]
  rfl

/-- Conversely, what is passed on in this way is the result. -/
theorem eq_ok_of_lift {e : Except Fault α} {a : α}
    (h : (liftM e : Reader α) cs = .ok (a, rest)) : e = .ok a := by
  cases e with
  | error fault => cases h
  | ok b =>
    cases h
    rfl

theorem pure_apply (a : α) : (pure a : Reader α) cs = .ok (a, cs) := rfl

/-! ### Characters -/

theorem eat_of_mem {chars : List Char} {c : Char} (h : c ∈ chars) :
    eat chars (c :: rest) = .ok (true, rest) := by
  simp [eat, h]

theorem eat_of_not_mem {chars : List Char} (h : ∀ c ∈ rest.head?, c ∉ chars) :
    eat chars rest = .ok (false, rest) := by
  cases rest with
  | nil => rfl
  | cons c cs => simp [eat, h c rfl]

theorem expect_cons (c : Char) : expect c (c :: rest) = .ok ((), rest) := by
  have hnext : next (c :: rest) = .ok (c, rest) := rfl
  rw [expect, bind_of_ok hnext, if_neg (by simp)]
  rfl

theorem word_append (w : List Char) : word w (w ++ rest) = .ok ((), rest) := by
  induction w with
  | nil => rfl
  | cons c w ih =>
    rw [word, List.cons_append, bind_of_ok (expect_cons c)]
    exact ih

/-! ### Blanks -/

theorem skipBlank_append {ws : List Char} (hws : Blank ws)
    (hrest : ∀ c ∈ rest.head?, isBlank c = false) : skipBlank (ws ++ rest) = .ok ((), rest) := by
  have hdrop : (ws ++ rest).dropWhile isBlank = rest := by
    rw [List.dropWhile_append_of_pos hws]
    cases rest with
    | nil => rfl
    | cons c cs => simp [hrest c rfl]
  simp [skipBlank, hdrop]

/-- Blanks before a token are passed over. -/
theorem peekToken_append {ws : List Char} (hws : Blank ws) {c : Char} (hc : isBlank c = false) :
    peekToken (ws ++ c :: rest) = .ok (c, c :: rest) := by
  have hhead : ∀ d ∈ (c :: rest).head?, isBlank d = false := by
    intro d hd
    cases hd
    exact hc
  rw [peekToken, bind_of_ok (skipBlank_append hws hhead)]
  rfl

theorem peekToken_cons {c : Char} (hc : isBlank c = false) :
    peekToken (c :: rest) = .ok (c, c :: rest) := by
  have h : peekToken ([] ++ c :: rest) = .ok (c, c :: rest) := peekToken_append blank_nil hc
  exact h

/-- What begins with a token does not care for blanks before it. -/
theorem peekToken_bind_append {ws : List Char} (hws : Blank ws) {c : Char}
    (hc : isBlank c = false) (f : Char → Reader α) :
    (peekToken >>= f) (ws ++ c :: rest) = f c (c :: rest) :=
  bind_of_ok (peekToken_append hws hc)

theorem expectToken_append {ws : List Char} (hws : Blank ws) {c : Char} (hc : isBlank c = false) :
    expectToken c (ws ++ c :: rest) = .ok ((), rest) := by
  have hhead : ∀ d ∈ (c :: rest).head?, isBlank d = false := by
    intro d hd
    cases hd
    exact hc
  rw [expectToken, bind_of_ok (skipBlank_append hws hhead)]
  exact expect_cons c

/-! ### Loops -/

theorem rounds_of_inl {step : σ → Reader (σ ⊕ β)} {s t : σ} (h : step s cs = .ok (.inl t, rest))
    (c : Char) (budget : List Char) :
    rounds step (c :: budget) s cs = rounds step budget t rest := by
  simp [rounds, h]

theorem rounds_of_inr {step : σ → Reader (σ ⊕ β)} {s : σ} {b : β}
    (h : step s cs = .ok (.inr b, rest)) (c : Char) (budget : List Char) :
    rounds step (c :: budget) s cs = .ok (b, rest) := by
  simp [rounds, h]

/-- The rounds of a loop, from a state and a text to its result and what is left of the text. -/
inductive Rounds (step : σ → Reader (σ ⊕ β)) : σ → List Char → β → List Char → Prop
  /-- The step has a result, and some text was left for it. -/
  | stop {s : σ} {cs : List Char} {b : β} {rest : List Char} (hne : cs ≠ [])
      (h : step s cs = .ok (.inr b, rest)) : Rounds step s cs b rest
  /-- The step takes something and asks for another round. -/
  | go {s t : σ} {cs cs' : List Char} {b : β} {rest : List Char} (hlt : cs'.length < cs.length)
      (h : step s cs = .ok (.inl t, cs')) (hrounds : Rounds step t cs' b rest) :
      Rounds step s cs b rest

/-- **The loop comes to the end of its rounds.** -/
theorem Rounds.loop {step : σ → Reader (σ ⊕ β)} {s : σ} {b : β} (h : Rounds step s cs b rest) :
    loop step s cs = .ok (b, rest) := by
  -- the budget is spent by a character a round, and each round takes at least one off the text
  suffices ∀ budget : List Char, cs.length ≤ budget.length →
      rounds step budget s cs = .ok (b, rest) from this cs (Nat.le_refl _)
  induction h with
  | stop hne h =>
    intro budget hle
    cases budget with
    | nil => exact absurd (List.length_eq_zero_iff.mp (Nat.le_zero.mp hle)) hne
    | cons c budget => exact rounds_of_inr h c budget
  | go hlt h _ ih =>
    intro budget hle
    cases budget with
    | nil =>
      rw [List.length_nil] at hle
      omega
    | cons c budget =>
      rw [List.length_cons] at hle
      rw [rounds_of_inl h c budget]
      exact ih budget (by omega)

end Reader
end PipelineCanvas.Json
