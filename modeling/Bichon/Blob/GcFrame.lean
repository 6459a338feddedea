import Bichon.Blob.Histories
import Bichon.Blob.Reference

/-!
# What a compaction leaves alone

A compaction should not be noticed by readers. `gc_frame_iff` says when it is not:
as long as the segment that is rewritten has no live entry at all or one with data.
The number that decides whether the segment is dropped counts data bytes, so live
entries whose values are empty go down with it.
-/

namespace Bichon.Blob

open ByteFile LastWrite Durable Transition View

/-- The record is live and names the segment. -/
def IndexStore.Live (index : IndexStore) (id : Nat) (record : IndexRecord) : Prop :=
  ∃ key, index.get key = some record ∧ record.segmentId = id

/-- Among the live entries of the segment a compaction would rewrite, if there are
any, there is one with data. -/
def Engine.GcKeepsData (config : Config) (s : Engine) : Prop :=
  ∀ id, gcTarget config s = some id → (∃ record, s.disk.index.Live id record) →
    ∃ record, s.disk.index.Live id record ∧ record.dataSize ≠ 0

/-- Every segment with a live entry keeps its file and its statistics. -/
def Engine.KeepsLiveSegments (s t : Engine) : Prop :=
  ∀ id record, s.disk.index.Live id record → s.disk.fs.read? (.seg id) ≠ none →
    t.disk.fs.read? (.seg id) ≠ none ∧ t.globalMeta.segments[id]? ≠ none

section

variable {X : Extern} {v : View} {s t : Engine} {config : Config} {id : Nat}

theorem Entry.compression_of_value_error {e : Entry} {err : Error} (h : e.value X = .error err) :
    ∃ codec, err = .compression codec := by
  unfold Entry.value decompress at h
  cases hcodec : e.codec with
  | none =>
    rw [hcodec] at h
    cases h
  | zstd =>
    rw [hcodec] at h
    cases hout : X.zstdDecode e.data <;> rw [hout] at h <;> cases h
    exact ⟨_, rfl⟩
  | lz4 =>
    rw [hcodec] at h
    cases hout : X.lz4Decompress e.data e.rawSize.toNat <;> rw [hout] at h <;> cases h
    exact ⟨_, rfl⟩

theorem Entry.value_ne_segmentNotFound (e : Entry) (id : Nat) :
    e.value X ≠ .error (.segmentNotFound id) := by
  intro h
  obtain ⟨codec, ⟨⟩⟩ := Entry.compression_of_value_error h

theorem OnDisk.read_ne_none_iff {d : Disk} (h : OnDisk X v d) :
    d.fs.read? (.seg id) ≠ none ↔ v.layout id ≠ none := by
  rw [h.read id]
  simp

theorem View.Coherent.kept_ne_nil (h : v.Coherent) (hlayout : v.layout id ≠ none)
    {record : IndexRecord} (hlive : v.index.Live id record) : v.kept id ≠ [] := by
  obtain ⟨key, hget, rfl⟩ := hlive
  obtain ⟨e, he, -⟩ := h.sound.kept_of_get hget hlayout
  exact List.ne_nil_of_mem he

theorem InMemory.keeps_of_layout (ht : InMemory X v t) {es : List Entry}
    (hes : v.layout id = some es) (hne : es ≠ []) :
    t.disk.fs.read? (.seg id) ≠ none ∧ t.globalMeta.segments[id]? ≠ none :=
  ⟨ht.read_ne_none_iff.mpr (by rw [hes]; exact Option.some_ne_none _), ht.tracked hes hne⟩

theorem View.Coherent.dataBytes_kept_eq_zero_iff (h : v.Coherent) (hlayout : v.layout id ≠ none) :
    dataBytes (v.kept id) = 0 ↔ ∀ record, v.index.Live id record → record.dataSize = 0 := by
  rw [← not_iff_not, kept, ← Ne, (h.sound.points id).dataBytes_ne_zero_iff (h.valid id)]
  push Not
  constructor
  · rintro ⟨key, record, e, hget, hid, -, hne⟩
    exact ⟨record, ⟨key, hget, hid⟩, hne⟩
  · rintro ⟨record, ⟨key, hget, rfl⟩, hne⟩
    obtain ⟨e, -, -, hentry, -⟩ := h.sound.kept_of_get hget hlayout
    exact ⟨key, record, e, hget, rfl, entryOf_iff.mp hentry, hne⟩

theorem View.Coherent.keepsData_iff (hv : v.Coherent) (h : InMemory X v s)
    (ht : gcTarget config s = some id) :
    s.GcKeepsData config ↔ (v.kept id = [] ∨ dataBytes (v.kept id) ≠ 0) := by
  obtain ⟨-, hlayout, -⟩ := h.gcTarget ht
  rw [Ne, hv.dataBytes_kept_eq_zero_iff hlayout, ← h.index_eq]
  push Not
  constructor
  · intro hkeeps
    by_cases hnil : v.kept id = []
    · exact .inl hnil
    · obtain ⟨e, he⟩ := List.exists_mem_of_ne_nil _ hnil
      obtain ⟨record, hget, hid⟩ := liveIn_of_mem_kept he
      rw [← h.index_eq] at hget
      exact .inr (hkeeps id ht ⟨record, e.key, hget, hid⟩)
  · rintro hdata id' ht' ⟨record, hlive⟩
    rw [ht] at ht'
    cases ht'
    exact hdata.resolve_left (hv.kept_ne_nil hlayout (h.index_eq ▸ hlive))

theorem lookup_compacted_iff (hv : v.Coherent) (hlayout : v.layout id ≠ none) :
    (∀ key, (v.compacted id).lookup X key = v.lookup X key) ↔
      (v.kept id = [] ∨ dataBytes (v.kept id) ≠ 0) := by
  constructor
  · intro hsame
    by_cases hnil : v.kept id = []
    · exact .inl hnil
    · obtain ⟨e, he⟩ := List.exists_mem_of_ne_nil _ hnil
      refine .inr fun hzero => ?_
      have hread := hsame e.key
      rcases hv.lookup_compacted (X := X) hlayout e.key with ⟨-, hafter⟩ | ⟨hdead, -⟩
      · rw [if_pos hzero, hread, hv.lookup_of_mem_kept he] at hafter
        exact e.value_ne_segmentNotFound id hafter
      · exact hdead (liveIn_of_mem_kept he)
  · intro hdata key
    rcases hv.lookup_compacted (X := X) hlayout key with ⟨hlive, hafter⟩ | ⟨-, hafter⟩
    · obtain ⟨e, he, -⟩ := (hv.sound.liveIn_iff hlayout).mp hlive
      rw [hafter, if_neg (hdata.resolve_left (List.ne_nil_of_mem he))]
    · exact hafter

theorem keepsLiveSegments_iff (h : InMemory X v s) (hv : v.Coherent) (hlayout : v.layout id ≠ none)
    (ht : InMemory X (v.compacted id) t) :
    s.KeepsLiveSegments t ↔ (v.kept id = [] ∨ dataBytes (v.kept id) ≠ 0) := by
  constructor
  · intro hkeeps
    by_cases hnil : v.kept id = []
    · exact .inl hnil
    · obtain ⟨e, he⟩ := List.exists_mem_of_ne_nil _ hnil
      obtain ⟨record, hget, hid⟩ := liveIn_of_mem_kept he
      rw [← h.index_eq] at hget
      refine .inr fun hzero => ?_
      have hfile := (hkeeps id record ⟨e.key, hget, hid⟩ (h.read_ne_none_iff.mpr hlayout)).1
      rw [ht.read_ne_none_iff, compacted, layout_committed_self, if_pos hzero] at hfile
      exact hfile rfl
  · rintro hdata id' record hlive hfile
    rw [h.index_eq] at hlive
    rw [h.read_ne_none_iff] at hfile
    have hnil := hv.kept_ne_nil hfile hlive
    by_cases hne : id' = id
    · subst hne
      have hself := v.layout_committed_self id' (v.kept id')
      rw [if_neg (hdata.resolve_left hnil)] at hself
      exact ht.keeps_of_layout hself hnil
    · obtain ⟨es, hes⟩ := Option.ne_none_iff_exists'.mp hfile
      have hother : (v.compacted id).layout id' = some es := (layout_committed_ne _ hne).trans hes
      refine ht.keeps_of_layout hother fun hempty => hnil ?_
      rw [kept, entriesAt, hes, hempty]
      rfl

end

/-- In every state an orderly history leads to, a compaction leaves every read as it
was exactly when it keeps data or had nothing to keep, and exactly then it keeps every
segment that has a live entry. -/
theorem gc_frame_iff {X : Extern} {config : Config} {steps : List Step} {s : Engine}
    (h : Reached X config steps s) (timestamp : Nat) :
    ((∀ key, (Engine.get X key (Engine.gc X config timestamp s).state).result =
        (Engine.get X key s).result) ↔ s.GcKeepsData config) ∧
      (s.KeepsLiveSegments (Engine.gc X config timestamp s).state ↔ s.GcKeepsData config) := by
  obtain ⟨v, hmem, hv⟩ := h.coherent
  cases ht : gcTarget config s with
  | none =>
    have hkeeps : s.GcKeepsData config := by
      intro id hid
      rw [ht] at hid
      cases hid
    rw [gc_of_target_none X ht]
    refine ⟨⟨fun _ => hkeeps, fun _ _ => rfl⟩, ⟨fun _ => hkeeps, ?_⟩⟩
    rintro - id record hlive hfile
    rw [hmem.index_eq] at hlive
    rw [hmem.read_ne_none_iff] at hfile
    obtain ⟨es, hes⟩ := Option.ne_none_iff_exists'.mp hfile
    refine hmem.keeps_of_layout hes fun hempty => hv.kept_ne_nil hfile hlive ?_
    rw [kept, entriesAt, hes, hempty]
    rfl
  | some id =>
    obtain ⟨-, hlayout, -⟩ := hmem.gcTarget ht
    obtain ⟨_, -, ⟨-, hafter⟩, -⟩ := runs_gc hmem hv ht timestamp
    rw [hv.keepsData_iff hmem ht]
    refine ⟨?_, keepsLiveSegments_iff hmem hv hlayout hafter⟩
    rw [← lookup_compacted_iff (X := X) hv hlayout]
    simp only [get_eq_lookup hmem, get_eq_lookup hafter]

theorem InMemory.keptOf_eq {X : Extern} {v : View} {s : Engine} (h : InMemory X v s) {id : Nat}
    {file : Bytes} (hfile : s.disk.fs.read? (.seg id) = some file) :
    keptOf s.disk.index id (scanEntries X id file 0).visited = v.kept id := by
  have hread := h.read id
  rw [hfile] at hread
  obtain ⟨es, hes, rfl⟩ := Option.map_eq_some_iff.mp hread.symm
  rw [h.toOnDisk.scanEntries hes, h.index_eq, kept, entriesAt, hes]
  rfl

/-- A history after which a compaction keeps one of two values. -/
def keepingActions : List Action :=
  [.op (.put (Key.fill 1) [1] .none),
   .op (.put (Key.fill 2) [2] .none),
   .op (.delete (Key.fill 1)),
   .op .sealActiveSegment]

def keepingSteps : List Step := freshSteps keepingActions

theorem reached_keepingSteps :
    ∃ s, Reached reference quarterConfig keepingSteps s ∧ gcTarget quarterConfig s = some 1 ∧
      (∃ r ∈ s.disk.index.get (Key.fill 2), r.segmentId = 1 ∧ r.dataSize = 1) ∧
      keptOf s.disk.index 1
        (scanEntries reference 1 ((s.disk.fs.read? (.seg 1)).getD []) 0).visited =
          [⟨0, .none, Key.fill 2, 1, [2]⟩] := by
  obtain ⟨s, hs, h⟩ : ∃ s ∈ engineAfter reference quarterConfig keepingSteps,
      gcTarget quarterConfig s = some 1 ∧
      (∃ r ∈ s.disk.index.get (Key.fill 2), r.segmentId = 1 ∧ r.dataSize = 1) ∧
      keptOf s.disk.index 1
        (scanEntries reference 1 ((s.disk.fs.read? (.seg 1)).getD []) 0).visited =
          [⟨0, .none, Key.fill 2, 1, [2]⟩] := by
    decide +kernel
  exact ⟨s, reached_freshSteps (runFrom_of_engineAfter hs), h⟩

theorem gc_frame_iff_keeping :
    ∃ s, Reached reference quarterConfig keepingSteps s ∧ gcTarget quarterConfig s = some 1 ∧
      (∀ key, (Engine.get reference key (Engine.gc reference quarterConfig 7 s).state).result =
        (Engine.get reference key s).result) ∧
      s.KeepsLiveSegments (Engine.gc reference quarterConfig 7 s).state := by
  obtain ⟨s, hs, ht, ⟨record, hget, hid, hsize⟩, -⟩ := reached_keepingSteps
  have hkeeps : s.GcKeepsData quarterConfig := by
    intro id hid' _
    rw [ht] at hid'
    cases hid'
    exact ⟨record, ⟨_, hget, hid⟩, by rw [hsize]; decide⟩
  exact ⟨s, hs, ht, (gc_frame_iff hs 7).1.mpr hkeeps, (gc_frame_iff hs 7).2.mpr hkeeps⟩

/-- A live empty value is lost with its segment. -/
theorem gc_drops_empty_value :
    (engineAfter reference quarterConfig (freshSteps
        [.op (.put (Key.fill 1) [] .none),
         .op (.put (Key.fill 2) [2] .none),
         .op (.delete (Key.fill 2)),
         .op .sealActiveSegment])).map (fun s =>
      ((Engine.get reference (Key.fill 1) s).result.toOption,
        (Engine.get reference (Key.fill 1) (Engine.gc reference quarterConfig 7 s).state).error?)) =
      some (some (some []), some (.segmentNotFound 1)) := by
  decide +kernel

end Bichon.Blob
