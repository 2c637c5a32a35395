import PipelineCanvas.File
import PipelineCanvas.Table
/-! A **directory** of text files, read and written by path. A path is a sequence of names between
slashes that is walked from the directory, or from the root where it begins with a slash. The
directory holds files only; around it there are the directories that it is in, of which nothing is
known at first. What is written at a path is read there again, `Directory.read_write`. -/
namespace PipelineCanvas

/-- Text files, each by the shortest path to it from the directory. -/
@[ext] structure Directory where
  files : Table String String

/-- A name at the end of a path. -/
structure Destination where
  /-- The shortest path to the directory that the name is in. -/
  base : String
  name : String
  /-- Whether a slash follows the name, which is then that of a directory. -/
  slashed : Bool

namespace Directory

/-- The file of the name, if there is one. A name has at most 255 bytes. -/
def find (d : Directory) (base name : String) : Except FileError (Option String) :=
  if 255 < name.utf8ByteSize then throw .nameTooLong
  else return d.files.get? (base ++ name)

/-- Walks along the names of a path. An empty name or `.` stays where it is, `..` goes to the
directory around this one, and no other name leads to a directory. -/
def resolve (d : Directory) (base : String) : List String → Except FileError Destination
  | [] => throw .isDirectory
  | name :: rest =>
    if name = "" ∨ name = "." then d.resolve base rest
    else if name = ".." then d.resolve (if base = "/" then base else base ++ "../") rest
    else if rest.all String.isEmpty then
      return { base, name, slashed := !rest.isEmpty }
    else do
      match ← d.find base name with
      | some _ => throw .notDirectory
      | none => throw .notFound

/-- Where a path leads. A path has less than 4096 bytes. -/
def destination (d : Directory) (path : String) : Except FileError Destination :=
  if path.isEmpty then throw .notFound
  else if 4096 ≤ path.utf8ByteSize then throw .nameTooLong
  else d.resolve (if path.startsWith "/" then "/" else "") (path.splitOn "/")

/-- The text of the file at a path. -/
def read (d : Directory) : FileReader := fun path => do
  let place ← d.destination path
  match ← d.find place.base place.name with
  | some text => if place.slashed then throw .notDirectory else return text
  | none => throw .notFound

/-- Writes a text to the file at a path, in place of what it held. -/
def write (d : Directory) (path text : String) : Except FileError Directory := do
  let place ← d.destination path
  -- a slash at the end is looked at before the name
  if place.slashed then throw .isDirectory
  let _ ← d.find place.base place.name
  return ⟨d.files.insert (place.base ++ place.name) text⟩

/-- The files in `d` itself that `old` does not hold in the same form. -/
def changedSince (d old : Directory) : List (String × String) :=
  d.files.entries.filter fun e => !e.1.contains '/' && old.files.get? e.1 != some e.2

/-! ### What is written is read -/

/-- Files change where a path fails, but not where it leads. -/
theorem resolve_eq_ok {d e : Directory} {base : String} {names : List String}
    {place : Destination} (h : d.resolve base names = .ok place) :
    e.resolve base names = .ok place := by
  induction names generalizing base with
  | nil => cases h
  | cons name rest ih =>
    unfold resolve at h ⊢
    split at h
    · next hstay =>
      rw [if_pos hstay]
      exact ih h
    · next hstay =>
      rw [if_neg hstay]
      split at h
      · next hup =>
        rw [if_pos hup]
        exact ih h
      · next hup =>
        rw [if_neg hup]
        split at h
        · next hend =>
          rw [if_pos hend]
          exact h
        · cases hfind : d.find base name with
          | error error => simp [hfind, bind, Except.bind] at h
          | ok found => cases found <;> simp [hfind, bind, Except.bind, throw, throwThe,
              MonadExceptOf.throw] at h

theorem destination_eq_ok {d e : Directory} {path : String} {place : Destination}
    (h : d.destination path = .ok place) : e.destination path = .ok place := by
  unfold destination at h ⊢
  split at h
  · cases h
  · next hempty =>
    rw [if_neg hempty]
    split at h
    · cases h
    · next hlong =>
      rw [if_neg hlong]
      exact resolve_eq_ok h

/-- All that writing does: the path leads to the name of a file, and that file has the text now. -/
theorem write_eq_ok {d e : Directory} {path text : String} (h : d.write path text = .ok e) :
    ∃ place, d.destination path = .ok place ∧ place.slashed = false ∧
      ¬255 < place.name.utf8ByteSize ∧
        e = ⟨d.files.insert (place.base ++ place.name) text⟩ := by
  unfold write at h
  cases hplace : d.destination path with
  | error error => simp [hplace, bind, Except.bind] at h
  | ok place =>
    cases hslash : place.slashed with
    | true => simp [hplace, hslash, bind, Except.bind, throw, throwThe, MonadExceptOf.throw] at h
    | false =>
      by_cases hname : 255 < place.name.utf8ByteSize
      · simp [hplace, hslash, find, hname, bind, Except.bind, throw, throwThe,
          MonadExceptOf.throw] at h
      · simp [hplace, hslash, find, hname, bind, Except.bind, pure, Except.pure] at h
        exact ⟨place, rfl, hslash, hname, h.symm⟩

/-- **A text that is written is read again at the same path.** -/
theorem read_write {d e : Directory} {path text : String} (h : d.write path text = .ok e) :
    e.read path = .ok text := by
  obtain ⟨place, hplace, hslash, hname, rfl⟩ := write_eq_ok h
  simp [read, destination_eq_ok hplace, hslash, find, hname, bind, Except.bind, pure, Except.pure]

/-! ### What has changed -/

@[simp] theorem changedSince_self (d : Directory) : d.changedSince d = [] := by
  refine List.filter_eq_nil_iff.mpr fun f hf => ?_
  have hstored : d.files.get? f.1 = some f.2 := Table.get?_eq_some_iff.mpr hf
  simp [hstored]

/-- Whatever file is changed by writing, the text is what it holds. -/
theorem changedSince_write {d e : Directory} {path text : String} (h : d.write path text = .ok e) :
    ∀ f ∈ e.changedSince d, f.2 = text := by
  obtain ⟨place, -, -, -, rfl⟩ := write_eq_ok h
  intro f hf
  obtain ⟨hmem, hchanged⟩ := List.mem_filter.mp hf
  rcases Table.get?_insert_cases (Table.get?_eq_some_iff.mpr hmem) with ⟨-, htext⟩ | hold
  · exact htext
  · simp [hold] at hchanged

end Directory
end PipelineCanvas
