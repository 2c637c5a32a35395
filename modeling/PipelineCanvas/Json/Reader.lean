import PipelineCanvas.Json.Fault
/-! Reading from the front of a text. A `Reader` takes what it understands off the text and leaves
the rest; the first problem in reading order is its fault. Repetition is `Reader.loop`, which lets
the text itself bound the number of rounds; `Reader.loop_eq` says that the bound is never felt. -/
namespace PipelineCanvas.Json

/-- Takes a value off the front of a text, or reports the first problem. -/
abbrev Reader (α : Type) := StateT (List Char) (Except Fault) α

namespace Reader
variable {α β σ : Type}

/-- Takes the next character. -/
def next : Reader Char
  | [] => .error .ended
  | c :: cs => .ok (c, cs)

/-- The next character, which stays where it is. -/
def peek : Reader Char
  | [] => .error .ended
  | c :: cs => .ok (c, c :: cs)

/-- Takes one of the given characters if it comes next, and says whether it did. -/
def eat (chars : List Char) : Reader Bool
  | [] => .ok (false, [])
  | c :: cs => .ok (if c ∈ chars then (true, cs) else (false, c :: cs))

/-- Takes this character and no other. -/
def expect (c : Char) : Reader Unit := do
  if (← next) ≠ c then throw .malformed

/-- Takes these characters one after the other. -/
def word : List Char → Reader Unit
  | [] => pure ()
  | c :: cs => do
    expect c
    word cs

/-- The longest run of characters that satisfy the test, possibly empty. -/
def takeWhile (p : Char → Bool) : Reader (List Char) :=
  fun cs => .ok (cs.takeWhile p, cs.dropWhile p)

/-- The characters that may stand between the tokens of a text. -/
def isBlank (c : Char) : Bool := c == ' ' || c == '\t' || c == '\n' || c == '\r'

def skipBlank : Reader Unit := fun cs => .ok ((), cs.dropWhile isBlank)

/-- The first character of the next token, which stays where it is. -/
def peekToken : Reader Char := do
  skipBlank
  peek

/-- Takes this character as the next token. -/
def expectToken (c : Char) : Reader Unit := do
  skipBlank
  expect c

/-- Accepts the end of the text, after blanks. -/
def finish : Reader Unit := do
  skipBlank
  unless (← get).isEmpty do throw .malformed

/-- Reads a text from its first to its last character. -/
def readAll (r : Reader α) (text : String) : Except Fault α :=
  StateT.run' (do
    let a ← r
    finish
    return a) text.toList

/-- Takes up to as many rounds as the first text has characters. -/
def rounds (step : σ → Reader (σ ⊕ β)) : List Char → σ → Reader β
  | [], _, _ => .error .ended
  | _ :: budget, s, cs =>
    match step s cs with
    | .error fault => .error fault
    | .ok (.inl s, cs) => rounds step budget s cs
    | .ok (.inr b, cs) => .ok (b, cs)

/-- Repeats a step on a state until it gives a result. Every step takes a character or fails, so a
text without characters for another round has ended. -/
def loop (step : σ → Reader (σ ⊕ β)) (s : σ) : Reader β :=
  fun cs => rounds step cs s cs

/-- A step that takes a character when it goes on, and fails where there is none. -/
structure Advances (step : σ → Reader (σ ⊕ β)) : Prop where
  ended : ∀ s, step s [] = .error .ended
  shorter : ∀ {s cs t rest}, step s cs = .ok (.inl t, rest) → rest.length < cs.length

/-- More rounds than the text has characters make no difference. -/
theorem rounds_eq_loop {step : σ → Reader (σ ⊕ β)} (h : Advances step) {budget cs : List Char}
    (hle : cs.length ≤ budget.length) (s : σ) : rounds step budget s cs = loop step s cs := by
  suffices ∀ {b c cs : List Char}, cs.length ≤ b.length → cs.length ≤ c.length → ∀ s,
      rounds step b s cs = rounds step c s cs from this hle (Nat.le_refl _) s
  intro b
  induction b with
  | nil =>
    intro c cs hb hc s
    obtain rfl := List.length_eq_zero_iff.mp (Nat.le_zero.mp hb)
    cases c with
    | nil => rfl
    | cons _ c => simp [rounds, h.ended]
  | cons _ b ih =>
    intro c cs hb hc s
    cases c with
    | nil =>
      obtain rfl := List.length_eq_zero_iff.mp (Nat.le_zero.mp hc)
      simp [rounds, h.ended]
    | cons _ c =>
      unfold rounds
      split
      · rfl
      · next hs =>
        have := h.shorter hs
        simp only [List.length_cons] at hb hc
        exact ih (by omega) (by omega) _
      · rfl

/-- The loop takes one step and goes on from there. -/
theorem loop_eq {step : σ → Reader (σ ⊕ β)} (h : Advances step) (s : σ) :
    loop step s = (do
      match ← step s with
      | .inl s => loop step s
      | .inr b => return b) := by
  funext cs
  cases cs with
  | nil => simp [loop, rounds, h.ended, bind, StateT.bind, Except.bind]
  | cons c cs =>
    simp only [loop, rounds, bind, StateT.bind, Except.bind]
    split
    · next hs => rw [hs]
    · next hs =>
      rw [hs]
      have := h.shorter hs
      exact rounds_eq_loop h (by simp only [List.length_cons] at this; omega) _
    · next hs =>
      rw [hs]
      rfl

/-- Whether another item follows before the closing bracket, which stays. The comma before an item
that is not the first is taken. -/
def hasItem (first : Bool) : Reader Bool := do
  let c ← peekToken
  if c = ']' then return false
  else if first then return true
  else
    expect ','
    if (← peekToken) = ']' then throw .malformed
    return true

/-- Whether another member follows before the closing brace, which stays. The comma before a
member that is not the first is taken, and a member begins with a quote. -/
def hasMember (first : Bool) : Reader Bool := do
  let c ← peekToken
  if c = '\x7d' then return false
  unless first do
    expect ','
    skipBlank
  if (← peek) ≠ '"' then throw .malformed
  return true

/-- A pair of brackets around parts with commas between them. -/
structure Brackets where
  /-- Whether another part follows before the closing bracket. -/
  hasPart : Bool → Reader Bool
  closing : Char

/-- The brackets of an array. -/
def square : Brackets := ⟨hasItem, ']'⟩

/-- The brackets of an object. -/
def curly : Brackets := ⟨hasMember, '\x7d'⟩

namespace Brackets

/-- Passes a state through another part, or takes the closing bracket. -/
def step (b : Brackets) (part : σ → Reader σ) (s : Bool × σ) : Reader ((Bool × σ) ⊕ σ) := do
  if ← b.hasPart s.1 then return .inl (false, ← part s.2)
  else
    expect b.closing
    return .inr s.2

/-- Passes a state through all parts, from behind the opening bracket to behind the closing one. -/
def pass (b : Brackets) (part : σ → Reader σ) (s : σ) : Reader σ := loop (b.step part) (true, s)

/-- Reads all parts, from behind the opening bracket to behind the closing one. -/
def collect (b : Brackets) (part : Reader α) : Reader (List α) :=
  List.reverse <$> b.pass (fun read => return (← part) :: read) []

end Brackets

/-- Passes a state through the members of an object. What is done with a member begins after its
key, at the colon. -/
def members (key : Reader String) (member : σ → String → Reader σ) (s : σ) : Reader σ :=
  curly.pass (fun s => do member s (← key)) s

end Reader
end PipelineCanvas.Json
