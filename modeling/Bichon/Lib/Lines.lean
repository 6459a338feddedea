import Bichon.Lib.Bytes

/-!
# Lines of a file

`lines` cuts a file at its line feeds, the way a buffered reader does: what comes
after the last line feed is a line of its own unless it is empty. A file that is
only ever extended by whole lines is `unlines` of them, and what was appended to
it is read back line by line. An unfinished line at the end is glued to whatever
is appended next, which is why `AtLineStart` matters. `cut` keeps the line feeds, so that
nothing of the file is lost.
-/

namespace Lines

open ByteFile List

def newline : UInt8 := 10

def lines : Bytes → List Bytes
  | [] => []
  | b :: bs =>
    if b = newline then [] :: lines bs
    else
      match lines bs with
      | [] => [[b]]
      | l :: ls => (b :: l) :: ls

def unlines (ls : List Bytes) : Bytes := (ls.map (· ++ [newline])).flatten

/-- The next byte is the first of a line. -/
def AtLineStart (file : Bytes) : Prop := file = [] ∨ file.getLast? = some newline

instance (file : Bytes) : Decidable (AtLineStart file) := inferInstanceAs (Decidable (_ ∨ _))

@[simp] theorem lines_nil : lines [] = [] := rfl

@[simp] theorem unlines_nil : unlines [] = [] := rfl

@[simp] theorem unlines_cons (l : Bytes) (ls : List Bytes) :
    unlines (l :: ls) = l ++ newline :: unlines ls := by
  simp [unlines]

@[simp] theorem unlines_append (ls ms : List Bytes) :
    unlines (ls ++ ms) = unlines ls ++ unlines ms := by
  simp [unlines]

variable {file l line mark rest : Bytes}

/-- A finished line at the front. -/
theorem lines_append_newline (h : newline ∉ l) (rest : Bytes) :
    lines (l ++ newline :: rest) = l :: lines rest := by
  induction l with
  | nil => simp [lines]
  | cons b l ih =>
    rw [mem_cons, not_or] at h
    rw [cons_append, lines, if_neg (Ne.symm h.1), ih h.2]

/-- A line that was begun and not finished. -/
theorem lines_of_notMem (h : newline ∉ l) (hne : l ≠ []) : lines l = [l] := by
  induction l with
  | nil => exact absurd rfl hne
  | cons b l ih =>
    rw [mem_cons, not_or] at h
    rw [lines, if_neg (Ne.symm h.1)]
    cases l with
    | nil => rfl
    | cons c l => rw [ih h.2 (cons_ne_nil c l)]

theorem lines_unlines_append {ls : List Bytes} (h : ∀ l ∈ ls, newline ∉ l) (rest : Bytes) :
    lines (unlines ls ++ rest) = ls ++ lines rest := by
  induction ls with
  | nil => rfl
  | cons l ls ih =>
    rw [forall_mem_cons] at h
    rw [unlines_cons, append_assoc, cons_append, lines_append_newline h.1, ih h.2,
      cons_append]

theorem lines_unlines {ls : List Bytes} (h : ∀ l ∈ ls, newline ∉ l) : lines (unlines ls) = ls := by
  simpa using lines_unlines_append h []

/-- An unfinished line is all that can stand between the last line feed and the end
of the file. -/
theorem not_atLineStart_append (h : newline ∉ rest) (hne : rest ≠ []) :
    ¬ AtLineStart (file ++ rest) := by
  rintro (hnil | hlast)
  · exact hne (append_eq_nil_iff.mp hnil).2
  · rw [getLast?_append, getLast?_eq_some_getLast hne, Option.some_or,
      Option.some.injEq] at hlast
    exact h (hlast ▸ getLast_mem hne)

/-! ## Lines with their line feeds -/

/-- The file, cut behind every line feed. -/
def cut : Bytes → List Bytes
  | [] => []
  | b :: bs =>
    if b = newline then [b] :: cut bs
    else
      match cut bs with
      | [] => [[b]]
      | l :: ls => (b :: l) :: ls

@[simp] theorem cut_nil : cut [] = [] := rfl

theorem flatten_cut (file : Bytes) : (cut file).flatten = file := by
  induction file with
  | nil => rfl
  | cons b bs ih =>
    rw [cut]
    split
    · rw [flatten_cons, ih, singleton_append]
    · cases hbs : cut bs with
      | nil =>
        rw [hbs] at ih
        rw [← ih]
        rfl
      | cons l ls =>
        rw [hbs, flatten_cons] at ih
        rw [flatten_cons, cons_append, ih]

theorem cut_append_newline (h : newline ∉ l) (rest : Bytes) :
    cut (l ++ newline :: rest) = (l ++ [newline]) :: cut rest := by
  induction l with
  | nil => simp [cut]
  | cons b l ih =>
    rw [mem_cons, not_or] at h
    rw [cons_append, cut, if_neg (Ne.symm h.1), ih h.2, cons_append]

/-- Behind a line feed the file is cut afresh. -/
theorem cut_append_newline_append (front rest : Bytes) :
    cut (front ++ newline :: rest) = cut (front ++ [newline]) ++ cut rest := by
  induction front with
  | nil => simp [cut]
  | cons b front ih =>
    by_cases hb : b = newline
    · rw [cons_append, cut, if_pos hb, ih, cons_append, cut, if_pos hb, cons_append]
    · have hne : cut (front ++ [newline]) ≠ [] := by
        intro hnil
        have hflat := flatten_cut (front ++ [newline])
        rw [hnil] at hflat
        simp at hflat
      obtain ⟨l, ls, hls⟩ := exists_cons_of_ne_nil hne
      rw [cons_append, cut, if_neg hb, ih, cons_append, cut, if_neg hb, hls]
      rfl

theorem cut_append {front : Bytes} (h : AtLineStart front) (rest : Bytes) :
    cut (front ++ rest) = cut front ++ cut rest := by
  rcases h with rfl | hlast
  · rfl
  · obtain ⟨front', rfl⟩ := getLast?_eq_some_iff.mp hlast
    rw [append_assoc, singleton_append, cut_append_newline_append]

/-- The bytes are the first line of the file, and the others what comes behind it. -/
structure IsLine (line rest : Bytes) : Prop where
  ne_nil : line ≠ []
  inside : newline ∉ line.dropLast
  finished : rest = [] ∨ line.getLast? = some newline

theorem cut_of_notMem (h : newline ∉ line) (hne : line ≠ []) : cut line = [line] := by
  induction line with
  | nil => exact absurd rfl hne
  | cons b line ih =>
    rw [mem_cons, not_or] at h
    rw [cut, if_neg (Ne.symm h.1)]
    cases line with
    | nil => rfl
    | cons c line => rw [ih h.2 (cons_ne_nil c line)]

theorem IsLine.notMem (h : IsLine line rest) (hlast : line.getLast? ≠ some newline) :
    newline ∉ line := by
  rw [getLast?_eq_some_getLast h.ne_nil, ne_eq, Option.some.injEq] at hlast
  rw [← dropLast_append_getLast h.ne_nil, mem_append, mem_singleton, not_or]
  exact ⟨h.inside, Ne.symm hlast⟩

theorem IsLine.cut_append (h : IsLine line rest) : cut (line ++ rest) = line :: cut rest := by
  by_cases hlast : line.getLast? = some newline
  · obtain ⟨front, rfl⟩ := getLast?_eq_some_iff.mp hlast
    rw [append_assoc, singleton_append, cut_append_newline (by simpa using h.inside)]
  · rw [h.finished.resolve_right hlast, append_nil, cut_of_notMem (h.notMem hlast) h.ne_nil,
      cut_nil]

theorem exists_isLine (h : file ≠ []) : ∃ line rest, file = line ++ rest ∧ IsLine line rest := by
  induction file with
  | nil => exact absurd rfl h
  | cons b file ih =>
    by_cases hb : b = newline
    · exact ⟨[b], file, rfl, by simp, by simp, .inr (by rw [hb]; rfl)⟩
    · by_cases hfile : file = []
      · exact ⟨[b], [], by rw [hfile]; rfl, by simp, by simp, .inl rfl⟩
      · obtain ⟨line, rest, rfl, hline⟩ := ih hfile
        obtain ⟨c, line, rfl⟩ := exists_cons_of_ne_nil hline.ne_nil
        refine ⟨b :: c :: line, rest, rfl, by simp, ?_, hline.finished.imp_right fun hlast => ?_⟩
        · rw [dropLast_cons_cons, mem_cons, not_or]
          exact ⟨Ne.symm hb, hline.inside⟩
        · rwa [getLast?_cons_cons]

/-- Induction on the lines of a file. -/
@[elab_as_elim]
theorem lineInduction {motive : Bytes → Prop} (nil : motive [])
    (line : ∀ line rest, IsLine line rest → motive rest → motive (line ++ rest)) (file : Bytes) :
    motive file := by
  by_cases h : file = []
  · exact h ▸ nil
  · obtain ⟨first, rest, hfile, hline⟩ := exists_isLine h
    have hlt : rest.length < file.length := by
      rw [hfile, length_append]
      exact Nat.lt_add_of_pos_left (length_pos_of_ne_nil hline.ne_nil)
    exact hfile ▸ line first rest hline (lineInduction nil line rest)
termination_by file.length

/-- What begins the file begins its first line, unless it reaches beyond it. -/
theorem IsLine.isPrefix_iff (h : IsLine line rest) (hmark : newline ∉ mark) :
    mark <+: line ++ rest ↔ mark <+: line := by
  refine ⟨fun hmark' => ?_, fun hmark' => hmark'.trans (prefix_append line rest)⟩
  rcases h.finished with rfl | hlast
  · rwa [append_nil] at hmark'
  · rcases prefix_or_prefix_of_prefix hmark' (prefix_append line rest) with hle | hle
    · exact hle
    · exact absurd (hle.subset (mem_of_getLast? hlast)) hmark

/-- The lines of a finished file are finished. -/
theorem getLast?_of_mem_cut (hfile : AtLineStart file) (h : l ∈ cut file) :
    l.getLast? = some newline := by
  induction file using lineInduction with
  | nil => simp at h
  | line line rest hline ih =>
    have hlast := hfile.resolve_left (by simp [hline.ne_nil])
    rw [hline.cut_append, mem_cons] at h
    by_cases hrest : rest = []
    · subst hrest
      rw [cut_nil, mem_nil_iff, or_false] at h
      rwa [h, ← append_nil line]
    · rcases h with rfl | h
      · exact hline.finished.resolve_left hrest
      · refine ih (.inr ?_) h
        rwa [getLast?_append_of_ne_nil _ hrest] at hlast

end Lines
