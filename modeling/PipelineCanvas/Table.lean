/-! Finite tables with ascending keys. A table is the list of its entries in strictly ascending
order of key, so every listing of a table is in key order, and tables in which the same is found
under every key are equal. The lemmas at the end say what each operation does to `get?`. -/
namespace PipelineCanvas

/-- Finitely many entries, one per key, listed by ascending key. -/
@[ext] structure Table (K V : Type) [Ord K] where
  /-- The entries in key order. -/
  entries : List (K × V)
  ascending : entries.Pairwise fun a b => compare a.1 b.1 = .lt

namespace Table
variable {K V W : Type} [Ord K]

instance : EmptyCollection (Table K V) := ⟨⟨[], .nil⟩⟩

instance : Inhabited (Table K V) := ⟨∅⟩

def isEmpty (t : Table K V) : Bool := t.entries.isEmpty

/-- The number of entries. -/
def size (t : Table K V) : Nat := t.entries.length

def keys (t : Table K V) : List K := t.entries.map (·.1)

/-- What is stored under the key. -/
def get? (t : Table K V) (k : K) : Option V :=
  (t.entries.find? fun e => compare k e.1 == .eq).map (·.2)

@[simp] theorem get?_empty (k : K) : (∅ : Table K V).get? k = none := rfl

def contains (t : Table K V) (k : K) : Bool := (t.get? k).isSome

/-- Keeps the entries that satisfy the test. -/
def filter (keep : K → V → Bool) (t : Table K V) : Table K V where
  entries := t.entries.filter fun e => keep e.1 e.2
  ascending := t.ascending.filter _

/-- The table without the entry under the key. -/
def erase (t : Table K V) (k : K) : Table K V := t.filter fun l _ => compare k l != .eq

/-- Puts a function of key and value in place of each value. -/
def map (f : K → V → W) (t : Table K V) : Table K W where
  entries := t.entries.map fun e => (e.1, f e.1 e.2)
  ascending := List.pairwise_map.mpr t.ascending

/-- Changes the value under the key, where there is one. -/
def modify (t : Table K V) (k : K) (f : V → V) : Table K V :=
  t.map fun l v => if compare k l = .eq then f v else v

/-- Puts an entry into a list that ascends, in place of one with the same key. -/
def insertEntry (k : K) (v : V) : List (K × V) → List (K × V)
  | [] => [(k, v)]
  | e :: es =>
    match compare k e.1 with
    | .lt => (k, v) :: e :: es
    | .eq => (k, v) :: es
    | .gt => e :: insertEntry k v es

theorem mem_insertEntry {k : K} {v : V} {a : K × V} {es : List (K × V)}
    (h : a ∈ insertEntry k v es) : a = (k, v) ∨ a ∈ es := by
  induction es with
  | nil => simpa [insertEntry] using h
  | cons e es ih =>
    unfold insertEntry at h
    split at h
    · simpa using h
    · rcases List.mem_cons.mp h with h | h
      · exact .inl h
      · exact .inr (List.mem_cons_of_mem _ h)
    · rcases List.mem_cons.mp h with rfl | h
      · exact .inr List.mem_cons_self
      · exact (ih h).imp_right (List.mem_cons_of_mem _)

variable [Std.LawfulEqOrd K]

theorem find?_insertEntry_self (k : K) (v : V) (es : List (K × V)) :
    (insertEntry k v es).find? (fun e => compare k e.1 == .eq) = some (k, v) := by
  induction es with
  | nil => simp [insertEntry, Std.ReflOrd.compare_self]
  | cons e es ih =>
    unfold insertEntry
    split
    · simp [Std.ReflOrd.compare_self]
    · simp [Std.ReflOrd.compare_self]
    · next hk => simp [hk, ih]

theorem find?_insertEntry_of_ne {k l : K} (h : l ≠ k) (v : V) (es : List (K × V)) :
    (insertEntry k v es).find? (fun e => compare l e.1 == .eq) =
      es.find? fun e => compare l e.1 == .eq := by
  have hlk : (compare l k == .eq) = false := by
    simpa using fun heq => h (Std.LawfulEqOrd.eq_of_compare heq)
  induction es with
  | nil => simp [insertEntry, hlk]
  | cons e es ih =>
    unfold insertEntry
    split
    · simp [hlk]
    · next hk =>
      obtain rfl := Std.LawfulEqOrd.eq_of_compare hk
      simp [hlk]
    · simp [List.find?_cons, ih]

variable [Std.TransOrd K]

theorem ascending_insertEntry (k : K) (v : V) {es : List (K × V)}
    (h : es.Pairwise fun a b => compare a.1 b.1 = .lt) :
    (insertEntry k v es).Pairwise fun a b => compare a.1 b.1 = .lt := by
  induction es with
  | nil => simp [insertEntry]
  | cons e es ih =>
    obtain ⟨head, tail⟩ := List.pairwise_cons.mp h
    unfold insertEntry
    split
    · next hk =>
      refine List.pairwise_cons.mpr ⟨fun a ha => ?_, h⟩
      rcases List.mem_cons.mp ha with rfl | ha
      · exact hk
      · exact Std.TransCmp.lt_trans hk (head a ha)
    · next hk =>
      cases Std.LawfulEqOrd.eq_of_compare hk
      exact List.pairwise_cons.mpr ⟨head, tail⟩
    · next hk =>
      refine List.pairwise_cons.mpr ⟨fun a ha => ?_, ih tail⟩
      rcases mem_insertEntry ha with rfl | ha
      · exact Std.OrientedCmp.gt_iff_lt.mp hk
      · exact head a ha

/-- Stores a value under a key, in place of what was there. -/
def insert (t : Table K V) (k : K) (v : V) : Table K V where
  entries := insertEntry k v t.entries
  ascending := ascending_insertEntry k v t.ascending

/-- The table of the pairs of a list; of several with one key the last counts. -/
def ofList (l : List (K × V)) : Table K V := l.foldl (fun t e => t.insert e.1 e.2) ∅

theorem mem_entries_ofList {l : List (K × V)} {a : K × V} (h : a ∈ (ofList l).entries) :
    a ∈ l := by
  have fold : ∀ (l : List (K × V)) (t : Table K V),
      a ∈ (l.foldl (fun t e => t.insert e.1 e.2) t).entries → a ∈ l ∨ a ∈ t.entries := by
    intro l
    induction l with
    | nil => exact fun _ h => .inr h
    | cons e l ih =>
      intro t h
      rcases ih _ h with h | h
      · exact .inl (List.mem_cons_of_mem _ h)
      · rcases mem_insertEntry h with rfl | h
        · exact .inl List.mem_cons_self
        · exact .inr h
  rcases fold l ∅ h with h | h
  · exact h
  · cases h

omit [Std.LawfulEqOrd K] in
theorem insertEntry_of_forall_lt {k : K} {v : V} {es : List (K × V)}
    (h : ∀ e ∈ es, compare e.1 k = .lt) : insertEntry k v es = es ++ [(k, v)] := by
  induction es with
  | nil => rfl
  | cons e es ih =>
    have hk : compare k e.1 = .gt := Std.OrientedCmp.gt_iff_lt.mpr (h e List.mem_cons_self)
    simp [insertEntry, hk, ih fun a ha => h a (List.mem_cons_of_mem _ ha)]

/-- A list that ascends is the list of entries of its table. -/
theorem entries_ofList {l : List (K × V)} (h : l.Pairwise fun a b => compare a.1 b.1 = .lt) :
    (ofList l).entries = l := by
  have fold : ∀ (l : List (K × V)) (t : Table K V),
      (t.entries ++ l).Pairwise (fun a b => compare a.1 b.1 = .lt) →
        (l.foldl (fun t e => t.insert e.1 e.2) t).entries = t.entries ++ l := by
    intro l
    induction l with
    | nil => exact fun t _ => (List.append_nil _).symm
    | cons e l ih =>
      intro t h
      have hlt : ∀ a ∈ t.entries, compare a.1 e.1 = .lt := fun a ha =>
        (List.pairwise_append.mp h).2.2 a ha e List.mem_cons_self
      have hinsert : (t.insert e.1 e.2).entries = t.entries ++ [e] := insertEntry_of_forall_lt hlt
      have hstep := ih (t.insert e.1 e.2) (by rwa [hinsert, List.append_assoc])
      rwa [hinsert, List.append_assoc] at hstep
  exact fold l ∅ h

theorem ofList_entries (t : Table K V) : ofList t.entries = t :=
  Table.ext (entries_ofList t.ascending)

/-! ### What is found in a table -/

/-- A key is found with the value of its entry. -/
theorem get?_eq_some_iff {t : Table K V} {k : K} {v : V} :
    t.get? k = some v ↔ (k, v) ∈ t.entries := by
  have unique : ∀ {es : List (K × V)}, es.Pairwise (fun a b => compare a.1 b.1 = .lt) →
      (k, v) ∈ es → es.find? (fun e => compare k e.1 == .eq) = some (k, v) := by
    intro es
    induction es with
    | nil => exact fun _ h => nomatch h
    | cons e es ih =>
      intro ascending h
      obtain ⟨head, tail⟩ := List.pairwise_cons.mp ascending
      rcases List.mem_cons.mp h with rfl | h
      · simp [Std.ReflOrd.compare_self]
      · have hk : compare k e.1 = .gt := Std.OrientedCmp.gt_iff_lt.mpr (head _ h)
        simp [hk, ih tail h]
  constructor
  · intro h
    obtain ⟨⟨l, w⟩, hfind, rfl⟩ := Option.map_eq_some_iff.mp h
    have hl : compare k l = .eq := by simpa using List.find?_some hfind
    obtain rfl := Std.LawfulEqOrd.eq_of_compare hl
    exact List.mem_of_find?_eq_some hfind
  · intro h
    rw [get?, unique t.ascending h]
    rfl

theorem mem_keys_iff {t : Table K V} {k : K} : k ∈ t.keys ↔ ∃ v, t.get? k = some v := by
  simp [keys, get?_eq_some_iff]

omit [Std.TransOrd K] in
/-- A key stands in one entry. -/
theorem nodup_keys (t : Table K V) : t.keys.Nodup := by
  refine List.pairwise_map.mpr (t.ascending.imp fun {a b} hlt heq => ?_)
  rw [heq, Std.ReflOrd.compare_self] at hlt
  cases hlt

/-- The entries listed before one are those with smaller keys. -/
theorem exists_cut_iff {t : Table K V} {e : K × V} {P : K × V → Prop} :
    (∃ before after, t.entries = before ++ e :: after ∧ ∀ a ∈ before, P a) ↔
      e ∈ t.entries ∧ ∀ a ∈ t.entries, compare a.1 e.1 = .lt → P a := by
  constructor
  · rintro ⟨before, after, hcut, hbefore⟩
    have hascending := t.ascending
    rw [hcut, List.pairwise_append, List.pairwise_cons] at hascending
    obtain ⟨-, ⟨hafter, -⟩, -⟩ := hascending
    rw [hcut]
    refine ⟨by simp, fun a ha hlt => ?_⟩
    rcases List.mem_append.mp ha with ha | ha
    · exact hbefore a ha
    · rcases List.mem_cons.mp ha with rfl | ha
      · rw [Std.ReflOrd.compare_self] at hlt
        cases hlt
      · rw [Std.OrientedCmp.gt_iff_lt.mpr (hafter a ha)] at hlt
        cases hlt
  · rintro ⟨he, hsmaller⟩
    obtain ⟨before, after, hcut⟩ := List.append_of_mem he
    have hascending := t.ascending
    rw [hcut, List.pairwise_append] at hascending
    refine ⟨before, after, hcut, fun a ha => hsmaller a ?_ ?_⟩
    · rw [hcut]
      exact List.mem_append_left _ ha
    · exact hascending.2.2 a ha e List.mem_cons_self

/-- Tables in which the same is found are equal. -/
theorem ext_get? {t u : Table K V} (h : ∀ k, t.get? k = u.get? k) : t = u := by
  have mem : ∀ a : K × V, a ∈ t.entries ↔ a ∈ u.entries := fun a => by
    rw [← get?_eq_some_iff, ← get?_eq_some_iff, h]
  have nodup : ∀ t : Table K V, t.entries.Nodup := fun t =>
    List.Pairwise.of_map (·.1) (fun a b hne heq => hne (congrArg (·.1) heq)) t.nodup_keys
  have perm : t.entries.Perm u.entries :=
    (List.perm_ext_iff_of_nodup (nodup t) (nodup u)).mpr mem
  exact Table.ext (perm.eq_of_pairwise (fun a b _ _ hab hba => by
    rw [Std.OrientedCmp.gt_iff_lt.mpr hab] at hba
    cases hba) t.ascending u.ascending)

@[simp] theorem get?_insert_self (t : Table K V) (k : K) (v : V) :
    (t.insert k v).get? k = some v := by
  simp [get?, insert, find?_insertEntry_self]

theorem get?_insert_of_ne (t : Table K V) {k l : K} (h : l ≠ k) (v : V) :
    (t.insert k v).get? l = t.get? l := by
  simp [get?, insert, find?_insertEntry_of_ne h]

theorem get?_insert [DecidableEq K] (t : Table K V) (k l : K) (v : V) :
    (t.insert k v).get? l = if l = k then some v else t.get? l := by
  split
  · next h => rw [h, get?_insert_self]
  · next h => exact get?_insert_of_ne t h v

/-- In the table of a list the last entry of a key is found. -/
theorem get?_ofList [DecidableEq K] (l : List (K × V)) (k : K) :
    (ofList l).get? k = (l.reverse.find? fun e => e.1 == k).map (·.2) := by
  have fold : ∀ (l : List (K × V)) (t : Table K V),
      (l.foldl (fun t e => t.insert e.1 e.2) t).get? k =
        ((l.reverse.find? fun e => e.1 == k).map (·.2)).or (t.get? k) := by
    intro l
    induction l with
    | nil => exact fun _ => rfl
    | cons e l ih =>
      intro t
      rw [List.foldl_cons, ih, List.reverse_cons, List.find?_append, get?_insert]
      cases l.reverse.find? fun e => e.1 == k with
      | some found => rfl
      | none =>
        by_cases he : e.1 = k
        · simp [he]
        · simp [he, Ne.symm he]
  rw [ofList, fold, get?_empty, Option.or_none]

/-- In the table of a list an entry is found behind which the list has no other with its key. -/
theorem get?_ofList_eq_some_iff_last [DecidableEq K] {l : List (K × V)} {k : K} {v : V} :
    (ofList l).get? k = some v ↔
      ∃ before after, l = before ++ (k, v) :: after ∧ ∀ e ∈ after, e.1 ≠ k := by
  rw [get?_ofList, Option.map_eq_some_iff]
  constructor
  · rintro ⟨⟨key, value⟩, hfound, rfl⟩
    obtain ⟨hkey, later, earlier, hl, hlater⟩ := List.find?_eq_some_iff_append.mp hfound
    obtain rfl : key = k := by simpa using hkey
    refine ⟨earlier.reverse, later.reverse, ?_, fun e he => ?_⟩
    · rw [← List.reverse_reverse l, hl]
      simp
    · simpa using hlater e (List.mem_reverse.mp he)
  · rintro ⟨before, after, rfl, hafter⟩
    refine ⟨(k, v), List.find?_eq_some_iff_append.mpr ⟨beq_self_eq_true k, after.reverse,
      before.reverse, by simp, fun e he => ?_⟩, rfl⟩
    simpa using hafter e (List.mem_reverse.mp he)

/-- A key is not found just if no entry of the list has it. -/
theorem get?_ofList_eq_none_iff [DecidableEq K] {l : List (K × V)} {k : K} :
    (ofList l).get? k = none ↔ k ∉ l.map (·.1) := by
  rw [get?_ofList, Option.map_eq_none_iff, List.find?_eq_none, List.mem_map]
  constructor
  · rintro hnone ⟨e, he, rfl⟩
    exact hnone e (List.mem_reverse.mpr he) (beq_self_eq_true e.1)
  · intro hnot e he hkey
    exact hnot ⟨e, List.mem_reverse.mp he, beq_iff_eq.mp hkey⟩

/-- Where keys are told apart, a table has what its list has. -/
theorem get?_ofList_eq_some_iff [DecidableEq K] {l : List (K × V)} (nodup : (l.map (·.1)).Nodup)
    {k : K} {v : V} : (ofList l).get? k = some v ↔ (k, v) ∈ l := by
  rw [get?_ofList_eq_some_iff_last]
  constructor
  · rintro ⟨before, after, rfl, -⟩
    exact List.mem_append_right before List.mem_cons_self
  · intro hmem
    obtain ⟨before, after, rfl⟩ := List.append_of_mem hmem
    rw [List.map_append, List.map_cons] at nodup
    have hnew : k ∉ after.map (·.1) := (List.nodup_cons.mp (List.nodup_append.mp nodup).2.1).1
    exact ⟨before, after, rfl, fun e he hkey => hnew (List.mem_map.mpr ⟨e, he, hkey⟩)⟩

/-- Where keys are told apart, the order of the list does not matter. -/
theorem ofList_perm [DecidableEq K] {l m : List (K × V)} (h : l.Perm m)
    (nodup : (l.map (·.1)).Nodup) : ofList l = ofList m := by
  have nodup' : (m.map (·.1)).Nodup := (h.map (·.1)).nodup nodup
  refine ext_get? fun k => Option.ext fun v => ?_
  rw [get?_ofList_eq_some_iff nodup, get?_ofList_eq_some_iff nodup', h.mem_iff]

/-- What is found after an insertion has been inserted or was there before. -/
theorem get?_insert_cases {t : Table K V} {k l : K} {v w : V}
    (h : (t.insert k v).get? l = some w) : l = k ∧ w = v ∨ t.get? l = some w := by
  by_cases hl : l = k
  · rw [hl, get?_insert_self] at h
    exact .inl ⟨hl, (Option.some.inj h).symm⟩
  · rw [get?_insert_of_ne t hl] at h
    exact .inr h

theorem get?_filter (keep : K → V → Bool) (t : Table K V) (k : K) :
    (t.filter keep).get? k = (t.get? k).filter (keep k) := by
  refine Option.ext fun v => ?_
  simp [get?_eq_some_iff, filter]

@[simp] theorem get?_erase_self (t : Table K V) (k : K) : (t.erase k).get? k = none := by
  refine Option.eq_none_iff_forall_ne_some.mpr fun v h => ?_
  simpa [erase, filter, Std.ReflOrd.compare_self] using get?_eq_some_iff.mp h

theorem get?_erase_of_ne (t : Table K V) {k l : K} (h : l ≠ k) :
    (t.erase k).get? l = t.get? l := by
  have hkl : compare k l ≠ .eq := fun heq => h (Std.LawfulEqOrd.eq_of_compare heq).symm
  refine Option.ext fun v => ?_
  simp [get?_eq_some_iff, erase, filter, hkl]

theorem get?_erase [DecidableEq K] (t : Table K V) (k l : K) :
    (t.erase k).get? l = if l = k then none else t.get? l := by
  split
  · next h => rw [h, get?_erase_self]
  · next h => exact get?_erase_of_ne t h

/-- What is found after a deletion was there before. -/
theorem get?_of_get?_erase {t : Table K V} {k l : K} {v : V} (h : (t.erase k).get? l = some v) :
    t.get? l = some v := by
  by_cases hl : l = k
  · rw [hl, get?_erase_self] at h
    cases h
  · rwa [get?_erase_of_ne t hl] at h

/-- Where nothing is stored under the key there is nothing to delete. -/
theorem erase_of_get?_eq_none {t : Table K V} {k : K} (h : t.get? k = none) : t.erase k = t := by
  refine ext_get? fun l => ?_
  by_cases hl : l = k
  · rw [hl, get?_erase_self, h]
  · exact get?_erase_of_ne t hl

theorem get?_erase_eq_none {t : Table K V} {k l : K} (h : t.get? l = none) :
    (t.erase k).get? l = none :=
  Option.eq_none_iff_forall_ne_some.mpr fun v hv =>
    Option.eq_none_iff_forall_ne_some.mp h v (get?_of_get?_erase hv)

@[simp] theorem get?_map (f : K → V → W) (t : Table K V) (k : K) :
    (t.map f).get? k = (t.get? k).map (f k) := by
  refine Option.ext fun w => ?_
  simp only [get?_eq_some_iff, Option.map_eq_some_iff, map, List.mem_map]
  constructor
  · rintro ⟨⟨l, v⟩, h, rfl, rfl⟩
    exact ⟨v, h, rfl⟩
  · rintro ⟨v, h, rfl⟩
    exact ⟨(k, v), h, rfl⟩

/-- A table of changed values is that of the list with the values changed. -/
theorem ofList_map_value [DecidableEq K] (f : V → W) (l : List (K × V)) :
    ofList (l.map fun e => (e.1, f e.2)) = (ofList l).map fun _ => f := by
  refine ext_get? fun k => ?_
  rw [get?_map, get?_ofList, get?_ofList, ← List.map_reverse, List.find?_map, Option.map_map,
    Option.map_map]
  rfl

@[simp] theorem get?_modify_self (t : Table K V) (k : K) (f : V → V) :
    (t.modify k f).get? k = (t.get? k).map f := by
  simp [modify, Std.ReflOrd.compare_self]

theorem get?_modify_of_ne (t : Table K V) {k l : K} (h : l ≠ k) (f : V → V) :
    (t.modify k f).get? l = t.get? l := by
  have hkl : compare k l ≠ .eq := fun heq => h (Std.LawfulEqOrd.eq_of_compare heq).symm
  simp [modify, hkl]

theorem get?_modify [DecidableEq K] (t : Table K V) (k l : K) (f : V → V) :
    (t.modify k f).get? l = if l = k then (t.get? l).map f else t.get? l := by
  split
  · next h => rw [h, get?_modify_self]
  · next h => exact get?_modify_of_ne t h f

/-- Where nothing is stored under the key there is nothing to change. -/
theorem modify_of_get?_eq_none {t : Table K V} {k : K} (h : t.get? k = none) (f : V → V) :
    t.modify k f = t := by
  refine ext_get? fun l => ?_
  by_cases hl : l = k
  · rw [hl, get?_modify_self, h]
    rfl
  · exact get?_modify_of_ne t hl f

omit [Std.LawfulEqOrd K] [Std.TransOrd K] in
theorem contains_iff {t : Table K V} {k : K} : t.contains k = true ↔ ∃ v, t.get? k = some v :=
  Option.isSome_iff_exists

omit [Std.LawfulEqOrd K] [Std.TransOrd K] in
theorem not_contains_iff {t : Table K V} {k : K} : t.contains k = false ↔ t.get? k = none := by
  simp [contains]

end Table
end PipelineCanvas
