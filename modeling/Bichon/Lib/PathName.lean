/-!
# Paths and their components

The reading of a path by `std::path`: an optional drive, whether a root follows, and the
components between the separators, of which empty ones and `.` are dropped. `Path.join`
replaces the path by an absolute name, so a name that comes from outside can lead
anywhere. `Path.location` takes the path apart where it goes back up, and a plain name
leads right below where it is joined to (`inside_join`). Links in the file system are not
looked at.
-/

namespace PathName

inductive Style where
  | unix
  | windows
  deriving DecidableEq, Repr

structure Path where
  drive : Option Char
  rooted : Bool
  parts : List (List Char)
  deriving DecidableEq, Repr

def isSeparator : Style → Char → Bool
  | .unix, c => c == '/'
  | .windows, c => c == '/' || c == '\\'

/-- The drive in front of a path, and the rest. -/
def splitDrive : Style → List Char → Option Char × List Char
  | .windows, c :: ':' :: rest => (some c, rest)
  | _, text => (none, text)

def up : List Char := ['.', '.']

def parse (style : Style) (text : List Char) : Path :=
  let (drive, rest) := splitDrive style text
  { drive := drive
    rooted := rest.head?.any (isSeparator style)
    parts := (rest.splitOnP (isSeparator style)).filter
      fun part => decide (part ≠ [] ∧ part ≠ ['.']) }

def Path.join (style : Style) (dest : Path) (name : List Char) : Path :=
  let path := parse style name
  if path.drive.isSome then path
  else if path.rooted then { dest with rooted := true, parts := path.parts }
  else { dest with parts := dest.parts ++ path.parts }

/-- One component further; above the root there is only the root. -/
def descend (rooted : Bool) (place : List (List Char)) (part : List Char) : List (List Char) :=
  if part = up then
    if place.getLast?.all (fun last => decide (last = up)) then
      if rooted then place else place ++ [up]
    else place.dropLast
  else place ++ [part]

/-- Where a path leads, from its drive and root on. -/
def Path.location (path : Path) : List (List Char) := path.parts.foldl (descend path.rooted) []

/-- The path leads to a place below another one. -/
structure Path.Inside (path dest : Path) : Prop where
  drive : path.drive = dest.drive
  rooted : path.rooted = dest.rooted
  below : ∃ rest, rest ≠ [] ∧ path.location = dest.location ++ rest

/-- A name that is one component. -/
structure Plain (name : List Char) : Prop where
  ne_nil : name ≠ []
  ne_dot : name ≠ ['.']
  ne_up : name ≠ up
  slash : '/' ∉ name
  backslash : '\\' ∉ name
  colon : ':' ∉ name

theorem splitDrive_of_notMem {name : List Char} (h : ':' ∉ name) (style : Style) :
    splitDrive style name = (none, name) := by
  unfold splitDrive
  split
  · rename_i c rest
    exact absurd (List.mem_cons_of_mem c List.mem_cons_self) h
  · rfl

variable {name : List Char} (h : Plain name)

include h

theorem Plain.not_isSeparator (style : Style) : ∀ c ∈ name, isSeparator style c = false := by
  intro c hc
  have hslash : c ≠ '/' := fun heq => h.slash (heq ▸ hc)
  have hback : c ≠ '\\' := fun heq => h.backslash (heq ▸ hc)
  cases style with
  | unix => simpa [isSeparator] using hslash
  | windows => simpa [isSeparator] using ⟨hslash, hback⟩

theorem Plain.parse (style : Style) : parse style name = ⟨none, false, [name]⟩ := by
  have hsep := h.not_isSeparator style
  have hhead : name.head?.any (isSeparator style) = false := by
    cases name with
    | nil => rfl
    | cons c rest => exact hsep c List.mem_cons_self
  rw [PathName.parse, splitDrive_of_notMem h.colon]
  simp only [hhead, List.splitOnP_eq_singleton hsep]
  simp [h.ne_nil, h.ne_dot]

theorem Plain.join (style : Style) (dest : Path) :
    dest.join style name = { dest with parts := dest.parts ++ [name] } := by
  rw [Path.join, h.parse style]
  rfl

/-- A plain name leads below the path it is joined to. -/
theorem inside_join (style : Style) (dest : Path) : (dest.join style name).Inside dest := by
  rw [h.join]
  refine ⟨rfl, rfl, [name], List.cons_ne_nil _ _, ?_⟩
  rw [Path.location, Path.location, List.foldl_append, List.foldl_cons, List.foldl_nil, descend,
    if_neg h.ne_up]

end PathName
