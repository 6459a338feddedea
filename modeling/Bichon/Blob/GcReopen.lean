import Bichon.Blob.GcFrame

/-!
# Reopening after a compaction

After a compaction the store should come back as it was when it is closed and opened
again. `gc_reopen_iff`: it does exactly when no live entry of the compacted segment
holds data and the other segments are recorded as indexed to their ends. What stands
in the way is the offset that the compaction records: the number of data bytes, where
recovery compares it with a length that counts the headers too.
-/

namespace Bichon.Blob

open ByteFile LastWrite Durable Transition Option View

/-- Recovery has nothing to scan in the segment. -/
def Disk.Indexed (d : Disk) (id : Nat) : Prop :=
  ∀ file, d.fs.read? (.seg id) = some file →
    file.length ≤ scanStart false ((d.metaBin.getD .new).indexedUpTo id) file.length

/-- Closing and opening the store leaves the files and what is read as they are. -/
def Engine.SurvivesReopen (X : Extern) (config : Config) (s : Engine) : Prop :=
  ∃ s', (Status.stopped s.disk).next X config .openStore = some (.running s') ∧
    (∀ id, s'.disk.fs.read? (.seg id) = s.disk.fs.read? (.seg id)) ∧
    ∀ key, (Engine.get X key s').result = (Engine.get X key s).result

section

variable {X : Extern} {v w : View} {s : Engine} {d : Disk} {config : Config} {id : Nat}

theorem OnDisk.indexed_iff (h : OnDisk X v d) :
    d.Indexed id ↔ (v.layout id ≠ none → sizeAll (v.entriesAt id) ≤ v.scanFrom id) := by
  unfold Disk.Indexed
  rw [h.read id, h.marks id, scanFrom, entriesAt]
  cases v.layout id with
  | none | some => simp

theorem View.lookup_congr (hlayout : w.layout = v.layout) (htable : w.table = v.table)
    (key : Key) : w.lookup X key = v.lookup X key := by
  rw [lookup, lookup, htable]
  cases v.table key with
  | none => rfl
  | some record =>
    rw [readSlot, readSlot, readRecord_congr (congrFun hlayout _)]

theorem View.scanFrom_eq (h : v.layout id ≠ none → sizeAll (v.entriesAt id) ≤ v.scanFrom id) :
    v.scanFrom id = sizeAll (v.entriesAt id) := by
  refine le_antisymm (scanFrom_le v id) ?_
  by_cases hnone : v.layout id = none
  · rw [entriesAt, hnone]
    exact Nat.zero_le _
  · exact h hnone

theorem View.pendingIn_eq_nil (h : v.layout id ≠ none → sizeAll (v.entriesAt id) ≤ v.scanFrom id) :
    v.pendingIn id = [] := by
  rw [pendingIn, List.filter_eq_nil_iff]
  intro record hrecord
  obtain ⟨e, offset, hat, rfl⟩ := mem_recordsIn.mp hrecord
  have hend := add_diskSize_le_of_mem_offsetsFrom hat
  have hpos := diskSize_pos e
  rw [decide_eq_true_eq, scanFrom_eq h]
  dsimp only [IndexRecord.ofEntry]
  omega

theorem View.opened_of_indexed (ho : v.Open)
    (h : ∀ id, v.layout id ≠ none → sizeAll (v.entriesAt id) ≤ v.scanFrom id) :
    v.Aligned ∧ v.opened.layout = v.layout ∧ v.opened.table = v.table := by
  have hpending : v.pending = [] := by
    rw [pending_eq_flatMap, List.flatMap_eq_nil_iff]
    exact fun id _ => pendingIn_eq_nil (h id)
  refine ⟨fun id => by rw [scanFrom_eq (h id)]; exact boundary_sizeAll _, ?_, ?_⟩
  · obtain ⟨es, hes⟩ := ne_none_iff_exists'.mp ho.active
    rw [opened, entriesAt, hes, getD_some, ← hes]
    exact Function.update_eq_self _ _
  · rw [opened, hpending]
    rfl

theorem Reached.valid {steps : List Step} (h : Reached X config steps s) :
    config.validate = .ok () := by
  refine h.1.invariant (I := fun st => ∀ s, st = .running s → config.validate = .ok ())
    (fun {st step st'} hst _ hnext s' heq => ?_) (fun s heq => by cases heq) h.2 s rfl
  subst heq
  cases st with
  | running s₀ => exact hst s₀ rfl
  | stopped d₀ =>
    cases hconfig : config.validate with
    | ok _ => rfl
    | error err =>
      cases step with
      | openStore =>
        rw [Status.next, openStore_of_invalid hconfig] at hnext
        cases hnext
      | _ => cases hnext

theorem survivesReopen_of_indexed (h : InMemory X v s) (hconfig : config.validate = .ok ())
    (hindexed : ∀ id, s.disk.Indexed id) : s.SurvivesReopen X config := by
  obtain ⟨haligned, hlayout, htable⟩ := opened_of_indexed h.open_
    fun id => h.indexed_iff.mp (hindexed id)
  obtain ⟨out, hout, hmem, -⟩ := h.toOnDisk.runs_openStore hconfig haligned
  refine ⟨_, by rw [Status.next, hout], fun id => ?_, fun key => ?_⟩
  · rw [hmem.read id, h.read id, hlayout]
  · rw [get_eq_lookup hmem, get_eq_lookup h, lookup_congr hlayout htable]

theorem indexed_compacted_iff (h : InMemory X v s) {t : Engine}
    (ht : InMemory X (v.compacted id) t) {id' : Nat} (hne : id' ≠ id) :
    t.disk.Indexed id' ↔ s.disk.Indexed id' := by
  have hlayout : (v.compacted id).layout id' = v.layout id' := layout_committed_ne _ hne
  have hmarks : (v.compacted id).marks id' = v.marks id' := Function.update_of_ne hne _ _
  rw [ht.indexed_iff, h.indexed_iff, scanFrom, scanFrom, entriesAt, entriesAt,
    hlayout, hmarks]

end

/-- In every state an orderly history leads to in which there is something to compact:
the compaction commits, and afterwards the store survives a reopen without anything
being scanned, with the length of the compacted file on record, exactly when no live
entry of the segment holds data and the other segments are indexed to their ends. -/
theorem gc_reopen_iff {X : Extern} {config : Config} {steps : List Step} {s : Engine}
    (h : Reached X config steps s) {id : Nat} (ht : gcTarget config s = some id) (timestamp : Nat) :
    (∃ stats, (Engine.gc X config timestamp s).result = .ok (some stats)) ∧
      (((Engine.gc X config timestamp s).state.SurvivesReopen X config ∧
          (∀ id', (Engine.gc X config timestamp s).state.disk.Indexed id') ∧
          ∀ file, (Engine.gc X config timestamp s).state.disk.fs.read? (.seg id) = some file →
            (Engine.gc X config timestamp s).state.globalMeta.indexedUpTo id = file.length) ↔
        (∀ record, s.disk.index.Live id record → record.dataSize = 0) ∧
          ∀ id', id' ≠ id → s.disk.Indexed id') := by
  obtain ⟨v, hmem, hv⟩ := h.coherent
  obtain ⟨-, hlayout, -⟩ := hmem.gcTarget ht
  obtain ⟨out, hout, ⟨hsome, hafter⟩, -⟩ := runs_gc hmem hv ht timestamp
  obtain ⟨stats, rfl⟩ := isSome_iff_exists.mp hsome
  refine ⟨⟨stats, hout⟩, ?_⟩
  have hself := v.layout_committed_self id (v.kept id)
  rw [hmem.index_eq, ← hv.dataBytes_kept_eq_zero_iff hlayout]
  constructor
  · rintro ⟨-, hindexed, hlength⟩
    refine ⟨?_, fun id' hne => (indexed_compacted_iff hmem hafter hne).mp (hindexed id')⟩
    by_contra hdata
    -- the file is there, and its headers are missing in the recorded offset
    rw [if_neg hdata] at hself
    have hread := hafter.read id
    rw [compacted, hself] at hread
    have hrecorded := hlength _ hread
    have hmark : (v.compacted id).marks id = dataBytes (v.kept id) := Function.update_self _ _ _
    rw [hafter.memMarks, hmark, length_encodeAll] at hrecorded
    have hne : v.kept id ≠ [] := fun hnil => hdata (by rw [hnil]; rfl)
    exact absurd hrecorded (Nat.ne_of_lt (dataBytes_lt_sizeAll hne))
  · rintro ⟨hdata, hothers⟩
    rw [if_pos hdata] at hself
    have hread := hafter.read id
    rw [compacted, hself] at hread
    have hindexed : ∀ id', (Engine.gc X config timestamp s).state.disk.Indexed id' := by
      intro id'
      by_cases hne : id' = id
      · subst hne
        intro file hfile
        rw [hread] at hfile
        cases hfile
      · exact (indexed_compacted_iff hmem hafter hne).mpr (hothers id' hne)
    refine ⟨survivesReopen_of_indexed hafter h.valid hindexed, hindexed, fun file hfile => ?_⟩
    rw [hread] at hfile
    cases hfile

/-- A history after which a compaction has nothing to keep. -/
def emptiedSteps : List Step :=
  freshSteps
    [.op (.put (Key.fill 1) [1] .none),
     .op (.delete (Key.fill 1)),
     .op .sealActiveSegment]

theorem gc_reopen_iff_emptied :
    ∃ s, Reached reference quarterConfig emptiedSteps s ∧ gcTarget quarterConfig s = some 1 ∧
      (Engine.gc reference quarterConfig 7 s).state.SurvivesReopen reference quarterConfig := by
  obtain ⟨s, hs, ht, hsegments, hsecond, hkept⟩ :
      ∃ s ∈ engineAfter reference quarterConfig emptiedSteps, gcTarget quarterConfig s = some 1 ∧
        diskSegments s.disk.fs = [1, 2] ∧ s.disk.fs.read? (.seg 2) = some [] ∧
        keptOf s.disk.index 1
          (scanEntries reference 1 ((s.disk.fs.read? (.seg 1)).getD []) 0).visited = [] := by
    decide +kernel
  have hreached := reached_freshSteps (runFrom_of_engineAfter hs)
  obtain ⟨v, hmem, hv⟩ := hreached.coherent
  obtain ⟨-, hlayout, -⟩ := hmem.gcTarget ht
  obtain ⟨file, hfile⟩ := ne_none_iff_exists'.mp (hmem.read_ne_none_iff.mpr hlayout)
  rw [hfile, getD_some, hmem.keptOf_eq hfile] at hkept
  refine ⟨s, hreached, ht, ((gc_reopen_iff hreached ht 7).2.mpr ⟨?_, ?_⟩).1⟩
  · intro record hlive
    rw [hmem.index_eq] at hlive
    exact absurd hkept (hv.kept_ne_nil hlayout hlive)
  · intro id hne file' hfile'
    have hin : id ∈ diskSegments s.disk.fs :=
      mem_diskSegments.mpr (by rw [hfile']; exact some_ne_none _)
    rw [hsegments] at hin
    have hid : id = 2 := by simpa [hne] using hin
    rw [hid, hsecond] at hfile'
    cases hfile'
    exact Nat.zero_le _

/-- One value is kept. The compaction records one byte of a file of fifty-one, and after
a reopen the value is gone and the file is cut. -/
theorem gc_records_data_bytes : (engineAfter reference quarterConfig keepingSteps).map (fun s =>
      let t := (Engine.gc reference quarterConfig 7 s).state
      (t.globalMeta.indexedUpTo 1, (t.disk.fs.read? (.seg 1)).map List.length,
        (Engine.get reference (Key.fill 2) t).result.toOption)) =
      some (1, some 51, some (some [2])) ∧
    (engineAfter reference quarterConfig
        (keepingSteps ++ [.act (.gc 7), .close, .openStore])).map (fun s =>
      ((s.disk.fs.read? (.seg 1)).map List.length,
        (Engine.get reference (Key.fill 2) s).error?)) =
      some (some 1, some (.io .unexpectedEof)) := by
  decide +kernel

end Bichon.Blob
