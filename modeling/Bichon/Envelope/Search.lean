import Bichon.Envelope.Detach
import Bichon.Lib.Placeholder

/-!
# Searching for placeholders

A placeholder starts with two `<` and has no other one, so that two of them never
overlap, and the search from left to right, which goes on behind each occurrence,
finds all of them. `marks_reattachTasks` says which replacements are scheduled: one
for each placeholder of a storage hash, and those of the decoded hash of a record
whose own placeholder is nowhere in the text.
-/

namespace Bichon.Envelope

open ByteFile (Bytes)

open Splice List

theorem placeholder_eq (hash : String) :
    placeholder hash = 60 :: 60 :: (asBytes "BICHON_DETACH_HASH:" ++ asBytes hash ++ [62, 62]) := by
  have hfront : asBytes detachPlaceholderPrefix = 60 :: 60 :: asBytes "BICHON_DETACH_HASH:" := by
    decide +kernel
  have hend : asBytes ">>" = [62, 62] := by decide +kernel
  rfl

variable {hash : String}

theorem length_placeholder (h : IsDigest hash) : (placeholder hash).length = 87 := by
  have hfront : (asBytes "BICHON_DETACH_HASH:").length = 19 := by decide +kernel
  simp [placeholder_eq, hfront, h.1]

theorem placeholder_ne_nil (hash : String) : placeholder hash ≠ [] := by
  exact cons_ne_nil _ _

theorem placeholder_inj {hash' : String} (h : placeholder hash = placeholder hash') :
    hash = hash' := by
  simp only [placeholder_eq, cons.injEq, true_and, append_cancel_right_eq,
    append_cancel_left_eq] at h
  exact asBytes_inj.mp h

theorem getElem?_placeholder_ne (h : IsDigest hash) (d : Nat) :
    (placeholder hash)[d + 2]? ≠ some 60 := by
  have hfront : (60 : UInt8) ∉ asBytes "BICHON_DETACH_HASH:" := by decide +kernel
  have hhash : (60 : UInt8) ∉ asBytes hash := fun hmem => absurd (h.2 60 hmem) (by decide)
  rw [placeholder_eq, getElem?_cons_succ, getElem?_cons_succ]
  intro hd
  have hmem := mem_of_getElem? hd
  simp only [mem_append, hfront, hhash, or_self, false_or] at hmem
  exact absurd hmem (by decide)

variable {eml pattern text : Bytes}

theorem getElem?_of_isPrefix_drop {p : Bytes} {i d : Nat} (h : p <+: text.drop i)
    (hd : d < p.length) : text[i + d]? = p[d]? := by
  obtain ⟨rest, hrest⟩ := h
  rw [← getElem?_drop, ← hrest, getElem?_append_left hd]

theorem separated_placeholder : Separated placeholder IsDigest where
  ne_nil := fun _ => placeholder_ne_nil _
  apart := by
    intro k l text i j hk hl hpk hpl hij
    rw [length_placeholder hk]
    by_contra hlt
    -- The second `<` of the later placeholder stands behind the two of the earlier one.
    have hstart : ∀ d < 2, text[j + d]? = some 60 := by
      intro d hd
      rw [getElem?_of_isPrefix_drop hpl (by rw [length_placeholder hl]; omega), placeholder_eq]
      match d, hd with
      | 0, _ => rfl
      | 1, _ => rfl
    obtain ⟨d, hd⟩ := Nat.exists_eq_add_of_lt hij
    rcases Nat.lt_or_ge (d + 2) 87 with hin | hout
    · have hnext := hstart 1 (by omega)
      rw [show j + 1 = i + (d + 2) by omega, getElem?_of_isPrefix_drop hpk
        (by rw [length_placeholder hk]; exact hin)] at hnext
      exact getElem?_placeholder_ne hk d hnext
    · have hfirst := hstart 0 (by omega)
      rw [show j + 0 = i + (84 + 2) by omega, getElem?_of_isPrefix_drop hpk
        (by rw [length_placeholder hk]; omega)] at hfirst
      exact getElem?_placeholder_ne hk 84 hfirst
  inj := by
    intro k l text hk hl hpk hpl
    have hlen : (placeholder k).length = (placeholder l).length := by
      rw [length_placeholder hk, length_placeholder hl]
    exact placeholder_inj ((prefix_of_prefix_length_le hpk hpl hlen.le).eq_of_length hlen)

/-- No two windows that are equal to the pattern overlap. -/
def SelfApart (pattern : Bytes) : Prop :=
  ∀ {text : Bytes} {i j : Nat}, pattern <+: text.drop i → pattern <+: text.drop j → i < j →
    i + pattern.length ≤ j

theorem windowPosition_eq_none (hp : pattern ≠ []) :
    windowPosition pattern text = none ↔ ∀ i, ¬ pattern <+: text.drop i := by
  induction text with
  | nil => simp [windowPosition, hp]
  | cons b bs ih =>
    rw [windowPosition]
    split
    next h => simpa using ⟨0, h⟩
    next h =>
      rw [Option.map_eq_none_iff, ih]
      constructor
      · intro hbs i
        cases i with
        | zero => exact h
        | succ i => exact hbs i
      · exact fun hall i => hall (i + 1)

theorem windowPosition_eq_some {pos : Nat} (h : windowPosition pattern text = some pos) :
    pattern <+: text.drop pos ∧ ∀ i < pos, ¬ pattern <+: text.drop i := by
  induction text generalizing pos with
  | nil => simp [windowPosition] at h
  | cons b bs ih =>
    rw [windowPosition] at h
    split at h
    next hhead =>
      obtain rfl := Option.some.inj h
      exact ⟨hhead, by simp⟩
    next hhead =>
      obtain ⟨p, hp, rfl⟩ := Option.map_eq_some_iff.mp h
      obtain ⟨hfound, hbefore⟩ := ih hp
      refine ⟨hfound, fun i hi => ?_⟩
      cases i with
      | zero => exact hhead
      | succ i => exact hbefore i (by omega)

theorem mem_occurrencesFrom (hp : pattern ≠ []) (hself : SelfApart pattern)
    {fuel cursor : Nat} (hfuel : eml.length < fuel + cursor) {i : Nat} :
    i ∈ occurrencesFrom pattern eml fuel cursor ↔ cursor ≤ i ∧ pattern <+: eml.drop i := by
  have hlen : ∀ {i}, pattern <+: eml.drop i → i < eml.length := by
    intro i hi
    have := isPrefix_drop_length hp hi
    have := length_pos_of_ne_nil hp
    omega
  induction fuel generalizing cursor with
  | zero =>
    simp only [occurrencesFrom, not_mem_nil, false_iff, not_and]
    intro hi hpat
    have := hlen hpat
    omega
  | succ fuel ih =>
    rw [occurrencesFrom]
    split
    next hnone =>
      rw [windowPosition_eq_none hp] at hnone
      simp only [not_mem_nil, false_iff, not_and]
      intro hi hpat
      apply hnone (i - cursor)
      rwa [drop_drop, Nat.add_sub_cancel' hi]
    next pos hpos =>
      obtain ⟨hfound, hbefore⟩ := windowPosition_eq_some hpos
      rw [drop_drop] at hfound
      have hpattern := length_pos_of_ne_nil hp
      have hrest : i ∈ occurrencesFrom pattern eml fuel (cursor + pos + pattern.length) ↔
          cursor + pos + pattern.length ≤ i ∧ pattern <+: eml.drop i := ih (by omega)
      rw [mem_cons, hrest]
      constructor
      · rintro (rfl | ⟨hi, hpat⟩)
        · exact ⟨Nat.le_add_right _ _, hfound⟩
        · exact ⟨by omega, hpat⟩
      · rintro ⟨hi, hpat⟩
        rcases lt_trichotomy i (cursor + pos) with hlt | rfl | hgt
        · exfalso
          apply hbefore (i - cursor) (by omega)
          rwa [drop_drop, Nat.add_sub_cancel' hi]
        · exact .inl rfl
        · exact .inr ⟨hself hfound hpat hgt, hpat⟩

theorem mem_placeholderTasks (h : IsDigest hash) {alt : Option String} {task : Task} :
    task ∈ placeholderTasks eml hash alt ↔ placeholder hash <+: eml.drop task.start ∧
      task = ⟨task.start, task.start + (placeholder hash).length, hash, alt⟩ := by
  have hself : SelfApart (placeholder hash) := separated_placeholder.apart h h
  simp only [placeholderTasks, mem_map,
    mem_occurrencesFrom (placeholder_ne_nil hash) hself
      (by omega : eml.length < eml.length + 1 + 0),
    Nat.zero_le, true_and]
  constructor
  · rintro ⟨i, hi, rfl⟩
    exact ⟨hi, rfl⟩
  · rintro ⟨hpat, htask⟩
    exact ⟨task.start, hpat, htask.symm⟩

/-- The placeholder of the hash stands somewhere in the text. -/
def Occurs (eml : Bytes) (hash : String) : Prop := ∃ i, placeholder hash <+: eml.drop i

theorem placeholderTasks_eq_nil (h : IsDigest hash)
    (alt : Option String) : placeholderTasks eml hash alt = [] ↔ ¬ Occurs eml hash := by
  simp only [eq_nil_iff_forall_not_mem, mem_placeholderTasks h, Occurs, not_exists, not_and]
  constructor
  · exact fun hnone i hi => hnone ⟨i, i + (placeholder hash).length, hash, alt⟩ hi rfl
  · exact fun hnone task hpat _ => hnone task.start hpat

def attachmentTasks (eml : Bytes) (detail : AttachmentInfo) : List Task :=
  placeholderTasks eml detail.storageHash none ++
    if placeholderTasks eml detail.storageHash none = [] ∧ detail.rawContentHash.isSome then
      placeholderTasks eml detail.contentHash (some detail.storageHash)
    else
      []

theorem scheduleAttachment_eq (eml : Bytes) (tasks : List Task) (detail : AttachmentInfo) :
    scheduleAttachment eml tasks detail = tasks ++ attachmentTasks eml detail := by
  simp only [scheduleAttachment, schedulePlaceholder, attachmentTasks, length_eq_zero_iff]
  split <;> simp

theorem foldl_scheduleAttachment (eml : Bytes) (attachments : List AttachmentInfo)
    (tasks : List Task) :
    attachments.foldl (scheduleAttachment eml) tasks =
      tasks ++ attachments.flatMap (attachmentTasks eml) := by
  induction attachments generalizing tasks with
  | nil => simp
  | cons detail attachments ih =>
    rw [foldl_cons, ih, scheduleAttachment_eq, flatMap_cons, append_assoc]

/-- The attachment lets the search look for `hash`, and the blob of `alt` serve
when there is none under `hash`. -/
def SearchedFor (eml : Bytes) (detail : AttachmentInfo) (hash : String) (alt : Option String) :
    Prop :=
  (hash = detail.storageHash ∧ alt = none) ∨
    (¬ Occurs eml detail.storageHash ∧ detail.rawContentHash.isSome ∧
      hash = detail.contentHash ∧ alt = some detail.storageHash)

theorem mem_attachmentTasks {detail : AttachmentInfo}
    (hs : IsDigest detail.storageHash) (hc : IsDigest detail.contentHash) {task : Task} :
    task ∈ attachmentTasks eml detail ↔ SearchedFor eml detail task.hash task.alt ∧
      placeholder task.hash <+: eml.drop task.start ∧
        task.stop = task.start + (placeholder task.hash).length := by
  obtain ⟨start, stop, hash, alt⟩ := task
  rw [attachmentTasks, mem_append, mem_placeholderTasks hs, SearchedFor,
    ← placeholderTasks_eq_nil hs none]
  simp only [Task.mk.injEq, true_and]
  constructor
  · rintro (⟨hpat, rfl, rfl, rfl⟩ | hmem)
    · exact ⟨.inl ⟨rfl, rfl⟩, hpat, rfl⟩
    · split at hmem
      next hcond =>
        obtain ⟨hpat, htask⟩ := (mem_placeholderTasks hc).mp hmem
        simp only [Task.mk.injEq, true_and] at htask
        obtain ⟨rfl, rfl, rfl⟩ := htask
        exact ⟨.inr ⟨hcond.1, hcond.2, rfl, rfl⟩, hpat, rfl⟩
      next => simp at hmem
  · rintro ⟨⟨rfl, rfl⟩ | ⟨hnone, hraw, rfl, rfl⟩, hpat, rfl⟩
    · exact .inl ⟨hpat, rfl, rfl, rfl⟩
    · rw [if_pos ⟨hnone, hraw⟩]
      exact .inr ((mem_placeholderTasks hc).mpr ⟨hpat, rfl⟩)

section Tasks

variable {eml : Bytes} {attachments : List AttachmentInfo}

/-- The hashes of the records are digests. -/
structure Digests (attachments : List AttachmentInfo) : Prop where
  storage : ∀ detail ∈ attachments, IsDigest detail.storageHash
  content : ∀ detail ∈ attachments, IsDigest detail.contentHash

/-- The hash is one of those that are searched for. -/
def SearchedIn (eml : Bytes) (attachments : List AttachmentInfo) (hash : String) : Prop :=
  ∃ detail ∈ attachments, ∃ alt, SearchedFor eml detail hash alt

theorem SearchedFor.isDigest (h : Digests attachments) {detail : AttachmentInfo}
    (hmem : detail ∈ attachments) {hash : String} {alt : Option String}
    (hs : SearchedFor eml detail hash alt) : IsDigest hash := by
  rcases hs with ⟨rfl, -⟩ | ⟨-, -, rfl, -⟩
  · exact h.storage detail hmem
  · exact h.content detail hmem

theorem separated_searchedIn (h : Digests attachments) :
    Separated placeholder (SearchedIn eml attachments) := by
  refine separated_placeholder.mono fun {hash} hsearched => ?_
  obtain ⟨detail, hdetail, alt, hs⟩ := hsearched
  exact hs.isDigest h hdetail

variable {task : Task}

theorem mem_flatMap_attachmentTasks (h : Digests attachments) :
    task ∈ attachments.flatMap (attachmentTasks eml) ↔
      (∃ detail ∈ attachments, SearchedFor eml detail task.hash task.alt) ∧
        placeholder task.hash <+: eml.drop task.start ∧
          task.stop = task.start + (placeholder task.hash).length := by
  rw [mem_flatMap]
  constructor
  · rintro ⟨detail, hmem, htask⟩
    obtain ⟨hs, hrest⟩ :=
      (mem_attachmentTasks (h.storage detail hmem) (h.content detail hmem)).mp htask
    exact ⟨⟨detail, hmem, hs⟩, hrest⟩
  · rintro ⟨⟨detail, hmem, hs⟩, hrest⟩
    exact ⟨detail, hmem,
      (mem_attachmentTasks (h.storage detail hmem) (h.content detail hmem)).mpr ⟨hs, hrest⟩⟩

theorem hash_eq_of_start_eq (h : Digests attachments) {t u : Task}
    (ht : t ∈ attachments.flatMap (attachmentTasks eml))
    (hu : u ∈ attachments.flatMap (attachmentTasks eml)) (hstart : t.start = u.start) :
    t.hash = u.hash ∧ t.stop = u.stop := by
  obtain ⟨⟨d, hd, hsd⟩, hpt, hstopt⟩ := (mem_flatMap_attachmentTasks h).mp ht
  obtain ⟨⟨d', hd', hsd'⟩, hpu, hstopu⟩ := (mem_flatMap_attachmentTasks h).mp hu
  have hhash : t.hash = u.hash :=
    separated_placeholder.inj (hsd.isDigest h hd) (hsd'.isDigest h hd') hpt (hstart ▸ hpu)
  exact ⟨hhash, by rw [hstopt, hstopu, hstart, hhash]⟩

theorem reattachTasks_eq (eml : Bytes) (attachments : List AttachmentInfo) :
    reattachTasks eml attachments =
      ((attachments.flatMap (attachmentTasks eml)).insertionSort
        fun a b => b.start ≤ a.start).destutter
          fun a b => ¬ (b.start = a.start ∧ b.stop = a.stop) := by
  rw [reattachTasks, foldl_scheduleAttachment, nil_append]

theorem mem_insertionSort_attachmentTasks :
    task ∈ (attachments.flatMap (attachmentTasks eml)).insertionSort
      (fun a b => b.start ≤ a.start) ↔ task ∈ attachments.flatMap (attachmentTasks eml) :=
  (perm_insertionSort _ _).mem_iff

theorem pairwise_reattachTasks (h : Digests attachments) :
    (reattachTasks eml attachments).Pairwise fun t u => u.start < t.start := by
  rw [reattachTasks_eq]
  refine pairwise_destutter _ (pairwise_insertionSort_desc Task.start _)
    fun t ht u hu hdiff hstart => ?_
  rw [mem_insertionSort_attachmentTasks] at ht hu
  exact hdiff ⟨hstart.symm, (hash_eq_of_start_eq h ht hu hstart).2.symm⟩

theorem mem_of_mem_reattachTasks (ht : task ∈ reattachTasks eml attachments) :
    task ∈ attachments.flatMap (attachmentTasks eml) := by
  rw [reattachTasks_eq] at ht
  exact mem_insertionSort_attachmentTasks.mp ((destutter_sublist _ _).subset ht)

/-- The places of the replacements are the marks of the hashes that are searched
for. -/
theorem marks_reattachTasks (h : Digests attachments) (eml : Bytes) :
    Marks placeholder (SearchedIn eml attachments) eml
      ((reattachTasks eml attachments).map fun t => (t.start, t.hash)) := by
  constructor
  · rw [pairwise_map]
    exact pairwise_reattachTasks h
  · intro i hash
    rw [reattachTasks_eq, mem_map_destutter _ fun t ht u hu hsame => ?_]
    · simp only [mem_map, mem_insertionSort_attachmentTasks, mem_flatMap_attachmentTasks h,
        Prod.mk.injEq]
      constructor
      · rintro ⟨task, ⟨⟨detail, hd, hs⟩, hpat, -⟩, rfl, rfl⟩
        exact ⟨⟨detail, hd, task.alt, hs⟩, hpat⟩
      · rintro ⟨⟨detail, hd, alt, hs⟩, hpat⟩
        exact ⟨⟨i, i + (placeholder hash).length, hash, alt⟩, ⟨⟨detail, hd, hs⟩, hpat, rfl⟩,
          rfl, rfl⟩
    · rw [mem_insertionSort_attachmentTasks] at ht hu
      have hstart : t.start = u.start := (not_not.mp hsame).1.symm
      exact Prod.ext hstart (hash_eq_of_start_eq h ht hu hstart).1

theorem descends_reattachTasks (h : Digests attachments) :
    Descends eml.length ((reattachTasks eml attachments).map fun t =>
      (⟨t.start, t.stop, []⟩ : Edit UInt8)) := by
  have hmarks := (marks_reattachTasks h eml).descends (separated_searchedIn h) fun _ => []
  rw [map_map] at hmarks
  rwa [map_congr_left fun t ht => ?_]
  obtain ⟨-, -, hstop⟩ := (mem_flatMap_attachmentTasks h).mp (mem_of_mem_reattachTasks ht)
  rw [hstop]
  rfl

theorem exists_foldlM_runTask {load : String → Except BichonError (Option Bytes)}
    (hload : ∀ hash, ∃ data, load hash = .ok data) {tasks : List Task}
    (h : Descends eml.length (tasks.map fun t => (⟨t.start, t.stop, []⟩ : Edit UInt8))) :
    ∃ eml', tasks.foldlM (runTask load) eml = .ok eml' := by
  induction tasks generalizing eml with
  | nil => exact ⟨eml, rfl⟩
  | cons t tasks ih =>
    obtain ⟨hle, hstop, hrest⟩ := h
    obtain ⟨data, hdata⟩ : ∃ data, t.data load = .ok data := by
      obtain ⟨first, hfirst⟩ := hload t.hash
      cases first with
      | some data => exact ⟨some data, by rw [Task.data, hfirst]; rfl⟩
      | none =>
        cases halt : t.alt with
        | none => exact ⟨none, by rw [Task.data, hfirst, halt]; rfl⟩
        | some alt =>
          obtain ⟨data, hdata⟩ := hload alt
          exact ⟨data, by rw [Task.data, hfirst, halt]; exact hdata⟩
    cases data with
    | none =>
      rw [foldlM_cons, runTask, hdata]
      exact ih (hrest.mono (hle.trans hstop))
    | some data =>
      rw [foldlM_cons, runTask, hdata]
      simp only [splice, if_pos (⟨hle, hstop⟩ : t.start ≤ t.stop ∧ t.stop ≤ eml.length)]
      refine ih (hrest.mono ?_)
      simp only [length_append, length_take]
      have hstart : t.start ≤ eml.length := hle.trans hstop
      omega

theorem exists_reattachParts (h : Digests attachments) (eml : Bytes)
    {load : String → Except BichonError (Option Bytes)}
    (hload : ∀ hash, ∃ data, load hash = .ok data) :
    ∃ restored, reattachParts eml attachments load = .ok restored :=
  exists_foldlM_runTask hload (descends_reattachTasks h)

end Tasks

end Bichon.Envelope
