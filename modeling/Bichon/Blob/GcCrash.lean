import Bichon.Blob.GcReopen
import Bichon.Blob.Rebuild

/-!
# A crash behind the rename

`gc_finish` puts the compacted file in the place of the segment before the index and
the metadata hear of it. If the process dies there, the index still holds the old
offsets, and `recover` has nothing but the length of the file to tell it that the
segment was compacted. That is enough when the segment was recorded as indexed to its
end: a file of the same length is the same file, and a shorter one is scanned from its
front, which files every kept entry under its new offset. The kept entries are the
ones the index pointed at, so no newer version is overridden.
-/

namespace Bichon.Blob

open ByteFile LastWrite Durable Transition List Option Engine IndexStore View

/-! ## Dropping entries shortens a file -/

theorem eq_of_sublist_of_sizeAll_le {ks es : List Entry} (h : ks.Sublist es)
    (hsize : sizeAll es ≤ sizeAll ks) : ks = es := by
  induction h with
  | slnil => rfl
  | cons e hsub _ =>
    have hle := sizeAll_le_of_sublist hsub
    have hpos := diskSize_pos e
    rw [sizeAll_cons] at hsize
    omega
  | cons_cons e _ ih =>
    rw [sizeAll_cons, sizeAll_cons] at hsize
    rw [ih (by omega)]

section

variable {X : Extern} {v : View} {s : Engine} {config : Config} {id : Nat}

namespace View

theorem Replays.sound (h : v.Replays) : v.Sound := by
  intro key record hrecord hlive
  have hget : v.replayed.get key = some record := by
    rw [h key]
    exact get_eq_some_iff.mpr ⟨hrecord, hlive⟩
  have htable := (get_eq_some_iff.mp hget).1
  rw [replayed, table_empty_insertBatch] at htable
  cases hlast : lastFor key (updates v.records) with
  | none =>
    rw [hlast] at htable
    cases htable
  | some slot =>
    rw [hlast, getD_some] at htable
    subst htable
    obtain ⟨r, hr, heq⟩ := mem_map.mp (mem_of_lastFor hlast)
    cases heq
    exact ⟨rfl, leads_of_mem_records hr⟩

/-- Every segment that has a file is recorded as indexed to its end. -/
def FullyIndexed (v : View) : Prop := ∀ id es, v.layout id = some es → v.marks id = sizeAll es

theorem FullyIndexed.le_scanFrom (h : v.FullyIndexed) (hid : v.layout id ≠ none) :
    sizeAll (v.entriesAt id) ≤ v.scanFrom id := by
  obtain ⟨es, hes⟩ := ne_none_iff_exists'.mp hid
  have hentries : v.entriesAt id = es := by rw [entriesAt, hes, getD_some]
  rw [scanFrom, hentries, h id es hes, scanStart]
  simp

section

variable {ks : List Entry}

theorem entriesAt_replaced_ne (ks : List Entry) {id' : Nat} (h : id' ≠ id) :
    (v.replaced id ks).entriesAt id' = v.entriesAt id' :=
  entriesAt_of_layout_ne (layout_replaced_ne ks) h

theorem scanFrom_replaced_ne (ks : List Entry) {id' : Nat} (h : id' ≠ id) :
    (v.replaced id ks).scanFrom id' = v.scanFrom id' := by
  rw [scanFrom, entriesAt_replaced_ne ks h]
  rfl

theorem recordsIn_replaced_self (v : View) (id : Nat) (ks : List Entry) :
    (v.replaced id ks).recordsIn id = recordsOf id ks := by
  rw [recordsIn, entriesAt_replaced_self]
  rfl

theorem FullyIndexed.pending_replaced (h : v.FullyIndexed) (hid : id ≤ v.active)
    (hshort : sizeAll ks < v.marks id) : (v.replaced id ks).pending = recordsOf id ks := by
  have hself : (v.replaced id ks).pendingIn id = recordsOf id ks := by
    rw [pendingIn, scanFrom_replaced_self hshort, recordsIn_replaced_self, filter_eq_self]
    intro record _
    exact decide_eq_true (Nat.zero_le _)
  have hother : ∀ id' ≠ id, (v.replaced id ks).pendingIn id' = [] := by
    intro id' hne
    rw [pendingIn, scanFrom_replaced_ne ks hne, recordsIn, entriesAt_replaced_ne ks hne]
    exact pendingIn_eq_nil h.le_scanFrom
  obtain ⟨front, back, hfront, hback, hrange, -⟩ := range_split (Nat.lt_succ_of_le hid)
  have hnil : ∀ ids : List Nat, id ∉ ids → ids.flatMap (v.replaced id ks).pendingIn = [] := by
    intro ids hids
    rw [flatMap_eq_nil_iff]
    intro id' hid'
    exact hother id' fun heq => hids (heq ▸ hid')
  rw [pending_eq_flatMap]
  change (range (v.active + 1)).flatMap _ = _
  rw [hrange, flatMap_append, flatMap_append, hnil front hfront, hnil back hback,
    flatMap_singleton, hself, nil_append, append_nil]

theorem FullyIndexed.aligned_replaced (h : v.FullyIndexed) (hshort : sizeAll ks < v.marks id) :
    (v.replaced id ks).Aligned := by
  intro id'
  by_cases hne : id' = id
  · subst hne
    rw [scanFrom_replaced_self hshort]
    exact boundary_zero _
  · rw [scanFrom_replaced_ne ks hne, entriesAt_replaced_ne ks hne, scanFrom_eq h.le_scanFrom]
    exact boundary_sizeAll _

end

theorem Coherent.lookup_reindexed (h : v.Coherent) (hlayout : v.layout id ≠ none) (key : Key) :
    (v.reindexed id (v.kept id)).lookup X key = v.lookup X key := by
  have hself : (v.reindexed id (v.kept id)).layout id ≠ none := by
    simp [reindexed, insertAll, layout_replaced_self]
  rcases h.lookup_rewritten (X := X) hlayout (rewritten_reindexed v id _) key with
    ⟨-, hread⟩ | ⟨-, hread⟩
  · rwa [if_neg hself] at hread
  · exact hread

end View

theorem View.Coherent.opened_replaced (h : v.Coherent) (hfull : v.FullyIndexed)
    (hid : id < v.active) (hlayout : v.layout id ≠ none) :
    (v.replaced id (v.kept id)).Aligned ∧
      ∀ key, (v.replaced id (v.kept id)).opened.lookup X key = v.lookup X key := by
  obtain ⟨es, hes⟩ := ne_none_iff_exists'.mp hlayout
  have hentries : v.entriesAt id = es := by rw [entriesAt, hes, getD_some]
  by_cases hsize : sizeAll es ≤ sizeAll (v.kept id)
  · -- nothing was dropped
    have hkept : v.kept id = es :=
      eq_of_sublist_of_sizeAll_le (hentries ▸ keptOf_sublist v.index id 0 (v.entriesAt id)) hsize
    have hsame : v.replaced id (v.kept id) = v := by
      rw [replaced, hkept, ← hes, Function.update_eq_self]
    rw [hsame]
    obtain ⟨haligned, hl, ht⟩ := opened_of_indexed h.isOpen fun id' => hfull.le_scanFrom
    exact ⟨haligned, lookup_congr hl ht⟩
  · have hshort : sizeAll (v.kept id) < v.marks id := by
      rw [hfull id es hes]
      omega
    refine ⟨hfull.aligned_replaced hshort, fun key => ?_⟩
    have hpending := hfull.pending_replaced (Nat.le_of_lt hid) hshort
    have hactive : (v.replaced id (v.kept id)).layout v.active ≠ none := by
      rw [layout_replaced_ne _ (Nat.ne_of_gt hid)]
      exact h.isOpen.active
    rw [← h.lookup_reindexed hlayout key]
    refine lookup_congr ?_ ?_ key
    · funext id'
      by_cases hactive' : id' = v.active
      · subst hactive'
        exact layout_opened hactive
      · exact Function.update_of_ne hactive' _ _
    · rw [opened, insertAll, hpending]
      rfl

theorem InMemory.fullyIndexed (h : InMemory X v s)
    (hlength : ∀ id file, s.disk.fs.read? (.seg id) = some file →
      s.globalMeta.indexedUpTo id = file.length) : v.FullyIndexed := by
  intro id es hes
  have hread := h.read id
  rw [hes, map_some] at hread
  rw [← h.memMarks, hlength id _ hread, length_encodeAll]

end

/-- In every state of the store in which the segments are recorded as indexed to the
ends of their files and the index points at the latest entry of every key: when the
process dies after the compacted file was renamed into place and before the index or
the metadata is touched, the store opens again and every key reads as before. -/
theorem gc_rename_crash_recovers {X : Extern} {v : View} {s : Engine} {config : Config}
    (h : InMemory X v s) (hconfig : config.validate = .ok ())
    (hlength : ∀ id file, s.disk.fs.read? (.seg id) = some file →
      s.globalMeta.indexedUpTo id = file.length)
    (hlatest : v.Replays) (timestamp : Nat) {prep : GcPrepare}
    (hprep : (Engine.gcPrepare X config timestamp s).result = .ok (some prep)) :
    ∃ s', (Status.stopped (Engine.gcFinish prep
          (Engine.gcPrepare X config timestamp s).state).state.disk).next X config .openStore =
        some (.running s') ∧
      ∀ key, (Engine.get X key s').result = (Engine.get X key s).result := by
  have hv : v.Coherent := ⟨h.open_, h.validView, hlatest.sound⟩
  have hfull := h.fullyIndexed hlength
  cases htarget : gcTarget config s with
  | none =>
    rw [gcPrepare_of_target_none X htarget] at hprep
    cases hprep
  | some id =>
    obtain ⟨hid, hlayout, -⟩ := h.gcTarget htarget
    obtain ⟨out, hout, ⟨prep', rfl, hsegment, hmem, hprepared⟩, -⟩ :=
      runs_gcPrepare h hv.sound htarget timestamp
    cases hout.symm.trans hprep
    have htemp := hprepared.temp
    obtain ⟨file, hfile, -⟩ := map_eq_some_iff.mp htemp
    obtain ⟨haligned, hlookup⟩ := hv.opened_replaced (X := X) hfull hid hlayout
    have hrenamed := hmem.toOnDisk.replaced hid hv.valid_kept htemp
    rw [← hsegment] at hrenamed haligned hlookup
    have hdisk : (gcFinish prep
        (gcPrepare X config timestamp s).state).state.disk =
          { (gcPrepare X config timestamp s).state.disk with
            fs := (gcPrepare X config timestamp s).state.disk.fs.rename
              (.temp prep.tempStamp) (.seg prep.segmentId) } := by
      rw [gcFinish, Prog.state_bind, hfile]
      rfl
    rw [hdisk]
    obtain ⟨out, hopen, hopened, -⟩ := hrenamed.runs_openStore hconfig haligned
    refine ⟨_, by rw [Status.next, hopen], fun key => ?_⟩
    rw [get_eq_lookup hopened, get_eq_lookup h, hlookup]

/-- One value is live and one was deleted: the compaction keeps one entry of three, and
a crash behind the rename is mended by the next open. -/
theorem gc_rename_crash_recovers_keeping :
    ∃ s prep s', engineAfter reference quarterConfig keepingSteps = some s ∧
      (Engine.gcPrepare reference quarterConfig 7 s).result = .ok (some prep) ∧
      (prep.entriesKept, prep.entriesSkipped) = (1, 2) ∧
      (Status.stopped (Engine.gcFinish prep
          (Engine.gcPrepare reference quarterConfig 7 s).state).state.disk).next
        reference quarterConfig .openStore = some (.running s') ∧
      ∀ key, (Engine.get reference key s').result = (Engine.get reference key s).result := by
  obtain ⟨s, hs, ⟨out, hout, prep, rfl, hcounts⟩, hall⟩ :
      ∃ s ∈ engineAfter reference quarterConfig keepingSteps,
        (∃ out ∈ (gcPrepare reference quarterConfig 7 s).result.toOption, ∃ prep ∈ out,
          (prep.entriesKept, prep.entriesSkipped) = (1, 2)) ∧
        ∀ id ∈ diskSegments s.disk.fs, ∀ file ∈ s.disk.fs.read? (.seg id),
          s.globalMeta.indexedUpTo id = file.length := by
    decide +kernel
  have hprep := eq_ok_of_mem_toOption hout
  have hlength : ∀ id file, s.disk.fs.read? (.seg id) = some file →
      s.globalMeta.indexedUpTo id = file.length := by
    intro id file hfile
    exact hall id (mem_diskSegments.mpr (by simp [hfile])) file hfile
  have hsafe : Along (Status.next reference quarterConfig) (Rebuildable reference quarterConfig)
      (.stopped Disk.empty) keepingSteps :=
    ⟨trivial, fun st _ => along_fits _ _ [_, _, _, _] (by decide) st⟩
  have hstart : (Status.stopped Disk.empty).InStep reference quarterConfig := rfl
  obtain ⟨hconfig, v, hmem, -, hreplays⟩ := hsafe.invariant
    (fun hst hguard hnext => hst.next hguard hnext) hstart (runFrom_of_engineAfter hs)
  obtain ⟨s', hopen, hget⟩ := gc_rename_crash_recovers hmem hconfig hlength hreplays 7 hprep
  exact ⟨s, prep, s', hs, hprep, hcounts, hopen, hget⟩

end Bichon.Blob
