import PipelineCanvas.Json.Basic
import PipelineCanvas.Table
/-! JSON values with ordered keys. A text may spell one value in many ways: members in any order,
a key more than once. `Json.normalize` keeps the last member of each key and lists the members of
every object by ascending key; `Value` and `Properties` hold trees of that form only, so that two
of them are equal when they have the same members. -/
namespace PipelineCanvas
namespace Json

/-- Every object in the tree lists its members by strictly ascending key. -/
inductive Normal : Json → Prop where
  | null : Normal .null
  | bool (b : Bool) : Normal (.bool b)
  | number (n : Number) : Normal (.number n)
  | string (s : String) : Normal (.string s)
  | array {items : List Json} (h : ∀ t ∈ items, Normal t) : Normal (.array items)
  | object {members : List (String × Json)}
      (ascending : members.Pairwise fun a b => compare a.1 b.1 = .lt)
      (h : ∀ m ∈ members, Normal m.2) : Normal (.object members)

mutual

/-- The tree with the members of every object by ascending key, the last of each key. -/
def normalize : Json → Json
  | .null => .null
  | .bool b => .bool b
  | .number n => .number n
  | .string s => .string s
  | .array items => .array (normalizeItems items)
  | .object members => .object (Table.ofList (normalizeMembers members)).entries

def normalizeItems : List Json → List Json
  | [] => []
  | t :: ts => t.normalize :: normalizeItems ts

def normalizeMembers : List (String × Json) → List (String × Json)
  | [] => []
  | (k, t) :: ms => (k, t.normalize) :: normalizeMembers ms

end

mutual

theorem normal_normalize : ∀ t : Json, t.normalize.Normal
  | .null => .null
  | .bool b => .bool b
  | .number n => .number n
  | .string s => .string s
  | .array items => .array (normal_normalizeItems items)
  | .object members =>
    .object (Table.ofList (normalizeMembers members)).ascending fun m hm =>
      normal_normalizeMembers members m (Table.mem_entries_ofList hm)

theorem normal_normalizeItems : ∀ (items : List Json), ∀ t ∈ normalizeItems items, t.Normal
  | [], _, h => nomatch h
  | t :: ts, u, h => by
    rcases List.mem_cons.mp h with rfl | h
    · exact normal_normalize t
    · exact normal_normalizeItems ts u h

theorem normal_normalizeMembers :
    ∀ (members : List (String × Json)), ∀ m ∈ normalizeMembers members, m.2.Normal
  | [], _, h => nomatch h
  | (k, t) :: ms, m, h => by
    rcases List.mem_cons.mp h with rfl | h
    · exact normal_normalize t
    · exact normal_normalizeMembers ms m h

end

theorem normalizeItems_eq_map (items : List Json) : normalizeItems items = items.map normalize := by
  induction items with
  | nil => rfl
  | cons t ts ih => rw [normalizeItems, ih, List.map_cons]

theorem normalizeMembers_eq_map (members : List (String × Json)) :
    normalizeMembers members = members.map fun m => (m.1, m.2.normalize) := by
  induction members with
  | nil => rfl
  | cons m ms ih => rw [normalizeMembers, ih, List.map_cons]

theorem Normal.normalize_eq {t : Json} (h : t.Normal) : t.normalize = t := by
  induction h with
  | null => rfl
  | bool b => rfl
  | number n => rfl
  | string s => rfl
  | array _ ih =>
    rw [normalize, normalizeItems_eq_map, List.map_congr_left ih, List.map_id']
  | @object members ascending _ ih =>
    have hmembers : members.map (fun m => (m.1, m.2.normalize)) = members := by
      rw [List.map_congr_left fun m hm => congrArg (Prod.mk m.1) (ih m hm), List.map_id']
    rw [normalize, normalizeMembers_eq_map, hmembers, Table.entries_ofList ascending]

end Json

/-- A JSON value with ordered keys. -/
@[ext] structure Value where
  tree : Json
  normal : tree.Normal

namespace Value

def ofJson (t : Json) : Value := ⟨t.normalize, t.normal_normalize⟩

theorem ofJson_tree (v : Value) : ofJson v.tree = v := Value.ext v.normal.normalize_eq

def null : Value := ⟨.null, .null⟩

instance : Inhabited Value := ⟨null⟩

end Value

/-- JSON values under names, as they configure a node. -/
abbrev Properties := Table String Value

namespace Properties

/-- The properties that the members of an object give; of several with one name the last counts. -/
def ofMembers (members : List (String × Json)) : Properties :=
  Table.ofList (members.map fun m => (m.1, .ofJson m.2))

def toJson (p : Properties) : Json := .object (p.entries.map fun e => (e.1, e.2.tree))

theorem ofMembers_entries (p : Properties) :
    ofMembers (p.entries.map fun e => (e.1, e.2.tree)) = p := by
  have hentries : (p.entries.map fun e => (e.1, e.2.tree)).map
      (fun m => (m.1, Value.ofJson m.2)) = p.entries := by
    simp [Function.comp_def, Value.ofJson_tree]
  rw [ofMembers, hentries, Table.ofList_entries]

end Properties

end PipelineCanvas
