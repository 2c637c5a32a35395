import PipelineCanvas.Proofs.CanonicalText
/-! # Texts over several lines

A registration is written over several lines, a diagram on one. Whichever it is, the text has the
tokens of its tree and blanks among them (`spaced_pretty`, `spaced_compact`), so the two are read
alike. What a shape views in the echo of a tree it reads off every text of the tree, wherever the
blanks are (`Shape.ofText_of_spaced`).

The text of a tree is put together from the texts of its parts, and so are its tokens. That the ones
make up the other is therefore said so that it can be put together too, `Lays`: whatever tokens come
later, and whatever text of them. -/
namespace PipelineCanvas.Json
open Reader

/-! ### Tokens in a text -/

/-- The tokens make up the text, with blanks around them and none missing. -/
def Lays (tokens : List (List Char)) (text : List Char) : Prop :=
  ∀ later cs, Spaced later cs → Spaced (tokens ++ later) (text ++ cs)

section lays
variable {ws text text' token : List Char} {tokens tokens' : List (List Char)} {ι : Type}
  {items : List ι} {tokensOf : ι → List (List Char)} {textOf : ι → List Char}

/-- Two texts one after the other hold the tokens of both. -/
theorem Lays.append (h : Lays tokens text) (h' : Lays tokens' text') :
    Lays (tokens ++ tokens') (text ++ text') := by
  intro later cs hcs
  rw [List.append_assoc, List.append_assoc]
  exact h _ _ (h' _ _ hcs)

theorem lays_nil : Lays [] [] := fun _ _ => id

theorem lays_token (token : List Char) : Lays [token] token := fun _ _ => .cons blank_nil

theorem lays_blank (hws : Blank ws) : Lays [] ws := by
  intro later cs hcs
  cases hcs with
  | nil hblank => exact .nil (hws.append hblank)
  | cons hblank hcs =>
    rw [List.nil_append, ← List.append_assoc]
    exact .cons (hws.append hblank) hcs

theorem Lays.spaced (h : Lays tokens text) : Spaced tokens text := by
  have hspaced : Spaced (tokens ++ []) (text ++ []) := h _ _ (.nil blank_nil)
  rwa [List.append_nil, List.append_nil] at hspaced

theorem lays_flatMap (h : ∀ i ∈ items, Lays (tokensOf i) (textOf i)) :
    Lays (items.flatMap tokensOf) (items.flatMap textOf) := by
  induction items with
  | nil => exact lays_nil
  | cons i items ih =>
    obtain ⟨hi, hitems⟩ := List.forall_mem_cons.mp h
    rw [List.flatMap_cons, List.flatMap_cons]
    exact hi.append (ih hitems)

theorem lays_separated (hws : Blank ws) (h : ∀ i ∈ items, Lays (tokensOf i) (textOf i)) :
    Lays (withCommas (items.map tokensOf)) (separated (',' :: ws) (items.map textOf)) := by
  cases items with
  | nil => exact lays_nil
  | cons i items =>
    obtain ⟨hi, hitems⟩ := List.forall_mem_cons.mp h
    have hcomma : Lays [[',']] (',' :: ws) := (lays_token [',']).append (lays_blank hws)
    rw [List.map_cons, List.map_cons, withCommas, separated_cons, List.flatMap_map,
      List.flatMap_map]
    exact hi.append (lays_flatMap fun j hj => hcomma.append (hitems j hj))

theorem blank_newline (level : Nat) : Blank (newline level) := by
  intro c hc
  rcases List.mem_cons.mp hc with rfl | hc
  · decide
  · rw [List.eq_of_mem_replicate hc]
    decide

/-- Parts in a block of lines stand between the brackets, each behind a line break. -/
theorem lays_block (level : Nat) (opening closing : Char)
    (h : ∀ i ∈ items, Lays (tokensOf i) (textOf i)) :
    Lays ([opening] :: (withCommas (items.map tokensOf) ++ [[closing]]))
      (block level opening closing (items.map textOf)) := by
  have hopening : Lays [[opening]] [opening] := lays_token [opening]
  have hclosing : Lays [[closing]] [closing] := lays_token [closing]
  by_cases hempty : items = []
  · subst hempty
    exact hopening.append hclosing
  · have hlines : (items.map textOf).isEmpty = false := by
      simpa using hempty
    have hinner := (hopening.append (lays_blank (blank_newline (level + 1)))).append
      ((lays_separated (blank_newline (level + 1)) h).append
        ((lays_blank (blank_newline level)).append hclosing))
    rw [block, hlines, if_neg Bool.false_ne_true]
    simpa using hinner

end lays

/-! ### Trees over several lines -/

theorem prettyItems_eq_map (level : Nat) (items : List Json) :
    prettyItems level items = items.map (prettyChars level) := by
  induction items with
  | nil => rfl
  | cons t ts ih => rw [prettyItems, ih, List.map_cons]

theorem prettyMembers_eq_map (level : Nat) (members : List (String × Json)) :
    prettyMembers level members =
      members.map fun m => quote m.1 ++ ':' :: ' ' :: m.2.prettyChars level := by
  induction members with
  | nil => rfl
  | cons m ms ih =>
    obtain ⟨k, t⟩ := m
    rw [prettyMembers, ih, List.map_cons]

mutual

/-- The lines of a tree hold the tokens of its spelling. -/
theorem lays_prettyChars (level : Nat) :
    ∀ t : Json, Lays (Spelling.ofJson t).tokens (t.prettyChars level)
  | .null => lays_token _
  | .bool true => lays_token _
  | .bool false => lays_token _
  | .number n => lays_token n.text
  | .string s => lays_token (quote s)
  | .array items => by
    rw [Spelling.ofJson, Spelling.tokens, prettyChars, prettyItems_eq_map,
      Spelling.itemTokens_eq_map, Spelling.ofItems_eq_map, List.map_map]
    exact lays_block level '[' ']' (lays_prettyItems (level + 1) items)
  | .object members => by
    rw [Spelling.ofJson, Spelling.tokens, prettyChars, prettyMembers_eq_map,
      Spelling.memberTokens_eq_map, Spelling.ofMembers_eq_map, List.map_map]
    exact lays_block level '\x7b' '\x7d' (lays_prettyMembers (level + 1) members)

theorem lays_prettyItems (level : Nat) : ∀ items : List Json,
    ∀ t ∈ items, Lays (Spelling.ofJson t).tokens (t.prettyChars level)
  | [] => List.forall_mem_nil _
  | t :: ts => List.forall_mem_cons.mpr ⟨lays_prettyChars level t, lays_prettyItems level ts⟩

theorem lays_prettyMembers (level : Nat) : ∀ members : List (String × Json), ∀ m ∈ members,
    Lays (Spelling.memberToken (quote m.1, Spelling.ofJson m.2))
      (quote m.1 ++ ':' :: ' ' :: m.2.prettyChars level)
  | [] => List.forall_mem_nil _
  | (k, t) :: ms => by
    have hcolon : Lays [[':']] [':', ' '] :=
      (lays_token [':']).append (lays_blank (List.forall_mem_singleton.mpr (by decide)))
    have hmember : Lays (Spelling.memberToken (quote k, Spelling.ofJson t))
        (quote k ++ ':' :: ' ' :: t.prettyChars level) :=
      (lays_token (quote k)).append (hcolon.append (lays_prettyChars level t))
    exact List.forall_mem_cons.mpr ⟨hmember, lays_prettyMembers level ms⟩

end

/-- **A text over several lines is its tokens with blanks among them.** -/
theorem spaced_pretty (t : Json) : Spaced (Spelling.ofJson t).tokens t.pretty.toList := by
  rw [pretty, String.toList_ofList]
  exact (lays_prettyChars 0 t).spaced

/-- A text without blanks is its tokens too. -/
theorem spaced_compact (t : Json) : Spaced (Spelling.ofJson t).tokens t.compact.toList := by
  rw [compact, String.toList_ofList, ← Spelling.flatten_tokens_ofJson]
  exact spaced_flatten _

/-! ### Reading them -/

variable {α : Type} {t : Json} {text : String}

/-- A tree is read off all its texts, with each double as its echo, and only blanks are left. -/
theorem Reader.tree_of_spaced {depth : Nat} {cs : List Char} (hdepth : t.depth ≤ depth)
    (h : Spaced (Spelling.ofJson t).tokens cs) :
    ∃ rest, tree depth cs = .ok (t.echo, rest) ∧ Blank rest := by
  obtain ⟨token, inner, htokens, ⟨c, tail, rfl, hc, -⟩, hread⟩ :=
    understands_tree (Spelling.sound_ofJson t) depth
  rw [htokens] at h
  obtain ⟨ws, cs', hws, hcs, rfl⟩ := h.exists_cons
  have hyields := hread [] cs' nofun (by rwa [List.append_nil])
  rw [Spelling.value?_ofJson hdepth] at hyields
  obtain ⟨rest, htree, hrest, -⟩ := hyields
  exact ⟨rest, (tree_blank hws hc).trans htree, hrest.blank⟩

/-- **What is viewed in the echo of a tree is read off all its texts**, wherever the blanks are. -/
theorem Shape.ofText_of_spaced {s : Shape α} {a : α} (hview : s.view t.echo = .ok a)
    (hagrees : s.Agrees t.echo) (hdepth : t.depth ≤ maxDepth)
    (htext : Spaced (Spelling.ofJson t).tokens text.toList) : s.ofText text = .ok a := by
  obtain ⟨rest, htree, hrest⟩ := tree_of_spaced hdepth htext
  exact readAll_of_blank (hagrees maxDepth htree hview) hrest

/-- Every text of a tree is read as its echo. -/
theorem ofText_of_spaced (hdepth : t.depth ≤ maxDepth)
    (htext : Spaced (Spelling.ofJson t).tokens text.toList) : ofText text = .ok t.echo := by
  obtain ⟨rest, htree, hrest⟩ := tree_of_spaced hdepth htext
  exact readAll_of_blank htree hrest

end PipelineCanvas.Json
