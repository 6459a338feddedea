import Bichon.Blob.GcFrame

/-!
# Operations between the two phases of a compaction

The first phase of a compaction decides which entries are live, the second one inserts
their records, and other operations may complete in between. `gc_window_iff` says when
nobody's write is lost: every key the first phase found live in the segment must either
be written once more after the second phase, or must not have changed in between, and
the segment must not be dropped.
-/

namespace Bichon.Blob

open ByteFile LastWrite Durable Transition Option View GlobalMeta Keeps

/-- A compaction with operations between its phases and behind it. The write mutex
keeps them out of the second phase, and the lock on the state out of the first. -/
def gcInterleaved (X : Extern) (config : Config) (timestamp : Nat) (between after : List Op)
    (s : Engine) : Engine :=
  let prepared := Engine.gcPrepare X config timestamp s
  let s₁ := runOps X config between prepared.state
  let s₂ := match prepared.result with
    | .ok (some prep) => (Engine.gcCommit prep s₁).state
    | _ => s₁
  runOps X config after s₂

/-- What the completed ones among the operations do to the map. -/
def completedBy (ops : List Op) : List (Key × Option Bytes) := ops.flatMap Op.completed

def View.afterAll (X : Extern) (config : Config) (ops : List Op) (v : View) : View :=
  ops.foldl (fun v op => op.after X config v) v

section

variable {X : Extern} {v w : View} {s : Engine} {config : Config} {id : Nat}

theorem inMemory_runOps (ops : List Op) (h : InMemory X v s) :
    InMemory X (v.afterAll X config ops) (runOps X config ops s) := by
  induction ops generalizing v s with
  | nil => exact h
  | cons op ops ih => exact ih (op.inMemory_after config h)

theorem coherent_afterAll (ops : List Op) (h : v.Coherent) :
    (v.afterAll X config ops).Coherent := by
  induction ops generalizing v with
  | nil => exact h
  | cons op ops ih => exact ih (op.coherent_after config h)

theorem updates_afterAll (ops : List Op) (h : v.Coherent) (key : Key) :
    (v.afterAll X config ops).lookup X key =
      match lastFor key (completedBy ops) with
      | some value => .ok value
      | none => v.lookup X key := by
  induction ops generalizing v with
  | nil => rfl
  | cons op ops ih =>
    rw [completedBy, List.flatMap_cons, lastFor_append]
    have hrest := ih (v := op.after X config v) (op.coherent_after config h)
    rw [completedBy, op.updates_after config h] at hrest
    refine Eq.trans hrest ?_
    cases lastFor key (ops.flatMap Op.completed) with
    | none | some => rfl

/-! ## Segments below the active one -/

theorem active_appendAll_le (es : List Entry) (v : View) : v.active ≤ (v.appendAll es).active := by
  induction es generalizing v with
  | nil => exact le_refl _
  | cons e es ih =>
    have hroom : v.active ≤ v.room.active := by
      rw [room]
      split
      · exact Nat.le_succ _
      · exact le_refl _
    exact hroom.trans (ih (v.appendOne e))

theorem active_le_of_mem_recordsFor {es : List Entry} {r : IndexRecord}
    (h : r ∈ v.recordsFor es) : v.active ≤ r.segmentId := by
  induction es generalizing v with
  | nil => cases h
  | cons e es ih =>
    have hone := active_appendAll_le [e] v
    rcases List.mem_cons.mp h with rfl | hrest
    · exact hone
    · exact hone.trans (ih hrest)

theorem liveIn_of_write {es : List Entry} {ends : List (Nat × Nat)} (hid : id < v.active)
    {key : Key} (h : (v.write es ends).LiveIn id key) : v.LiveIn id key := by
  obtain ⟨record, hget, hrid⟩ := h
  obtain ⟨htable, hlive⟩ := IndexStore.get_eq_some_iff.mp hget
  have hwrite : (v.write es ends).table =
      setAll v.table (IndexStore.updates (v.recordsFor es)) := by
    rw [write, markAll_eq, insertAll, table_appendAll]
  change (v.write es ends).table key = some record at htable
  rw [hwrite, setAll_apply] at htable
  cases hlast : lastFor key (IndexStore.updates (v.recordsFor es)) with
  | none =>
    rw [hlast] at htable
    exact ⟨record, IndexStore.get_eq_some_iff.mpr ⟨htable, hlive⟩, hrid⟩
  | some slot =>
    rw [hlast] at htable
    obtain ⟨r, hr, heq⟩ := List.mem_map.mp (mem_of_lastFor hlast)
    cases heq
    cases htable
    have := active_le_of_mem_recordsFor hr
    omega

theorem Op.frame_after (op : Op) (config : Config) (v : View) :
    v.active ≤ (op.after X config v).active ∧
      ∀ {id}, id < v.active → ∀ {key}, (op.after X config v).LiveIn id key → v.LiveIn id key := by
  unfold Op.after
  split
  · refine op.view_induction X config v ⟨Nat.le_succ _, fun _ _ h => h⟩ ⟨le_refl _, fun _ _ h => h⟩
      ⟨?_, fun hid _ h => liveIn_of_write hid h⟩
    rw [write, markAll_eq]
    exact active_appendAll_le _ v
  · refine ⟨active_appendAll_le _ v, fun _ key h => ?_⟩
    have htable := table_appendAll (op.accepted X config) v
    rwa [View.LiveIn, index, htable] at h

theorem frame_afterAll (ops : List Op) (config : Config) (v : View) :
    v.active ≤ (v.afterAll X config ops).active ∧
      ∀ {id}, id < v.active → ∀ {key}, (v.afterAll X config ops).LiveIn id key →
        v.LiveIn id key := by
  induction ops generalizing v with
  | nil => exact ⟨le_refl _, fun _ _ h => h⟩
  | cons op ops ih =>
    obtain ⟨hle, hlive⟩ := op.frame_after (X := X) config v
    obtain ⟨hle', hlive'⟩ := ih (op.after X config v)
    exact ⟨hle.trans hle', fun hid _ h => hlive hid (hlive' (hid.trans_le hle) h)⟩

/-! ## The temporary file -/

/-- The temporary file is there, nobody writes to it, and the segment it is meant for
has statistics. -/
structure TempKept (timestamp id : Nat) (content : Bytes) (s : Engine) : Prop where
  file : ∃ i, s.disk.fs.inode? (.temp timestamp) = some i ∧ s.disk.fs.data i = content ∧
    s.activeWriter.file ≠ i
  tracked : s.globalMeta.segments[id]? ≠ none

theorem GlobalMeta.modify_ne_none {m : GlobalMeta} (h : m.segments[id]? ≠ none) (id' : Nat)
    (f : SegmentStats → SegmentStats) : (m.modify id' f).segments[id]? ≠ none := by
  rw [getElem?_modify]
  split
  · simpa using h
  · exact h

theorem GlobalMeta.upsert_ne_none {m : GlobalMeta} (h : m.segments[id]? ≠ none) (id' : Nat)
    (f : SegmentStats → SegmentStats) : (m.upsert id' f).segments[id]? ≠ none := by
  rw [getElem?_upsert]
  split
  · exact some_ne_none _
  · exact h

theorem TempKept.createSegment {timestamp : Nat} {content : Bytes} (newId : Nat) :
    Keeps (TempKept timestamp id content) (TempKept timestamp id content) (fun _ => True)
      (Engine.sealActive.createSegment newId) := by
  refine durable fun {s} h => ⟨?_, trivial⟩
  obtain ⟨i, hi, hdata, -⟩ := h.file
  have hi' : (s.disk.fs.create (.seg newId)).inode? (.temp timestamp) = some i := by
    rw [FileSystem.inode?_create_ne _ (by simp)]
    exact hi
  refine ⟨⟨i, hi', ?_, ?_⟩, h.tracked⟩
  · rw [FileSystem.data_create_of_ne hi (by simp)]
    exact hdata
  · -- the new writer has the inode of the new file
    dsimp only
    have hread := s.disk.fs.read?_create_self (.seg newId)
    obtain ⟨j, hj, -⟩ := map_eq_some_iff.mp hread
    rw [hj, getD_some]
    intro hji
    have hname := FileSystem.inode?_inj hj (hji ▸ hi')
    cases hname

theorem closed_tempKept (X : Extern) (timestamp id : Nat) (content : Bytes) :
    Engine.Closed X (TempKept timestamp id content) (TempKept timestamp id content)
      (fun _ => True) where
  fails := fun h => h
  save := fun h => ⟨⟨h.file, h.tracked⟩, trivial⟩
  index := fun _ h => ⟨⟨h.file, h.tracked⟩, trivial⟩
  pool := fun _ h => ⟨h.file, h.tracked⟩
  modify := fun id' _ _ h => ⟨h.file, modify_ne_none h.tracked id' _⟩
  upsert := fun id' _ _ h => ⟨h.file, upsert_ne_none h.tracked id' _⟩
  append := by
    intro entry
    refine durable fun {s} h => ⟨?_, trivial⟩
    obtain ⟨i, hi, hdata, hne⟩ := h.file
    dsimp only [SegmentWriter.append]
    refine ⟨⟨i, hi, ?_, hne⟩, h.tracked⟩
    rw [FileSystem.data_write_ne _ _ (Ne.symm hne)]
    exact hdata
  sealing := by
    intro fault
    refine bind state fun s => ?_
    split
    · exact pure ()
    · refine bind (modify fun h =>
        ⟨h.file, upsert_ne_none h.tracked _ _⟩) fun _ => ?_
      split
      · exact fail (fun h => h) _
      · split
        · exact fail (fun h => h) _
        · refine bind (modify fun h =>
            ⟨h.file, modify_ne_none h.tracked _ _⟩) fun _ => ?_
          refine bind (modify fun h => ⟨h.file, h.tracked⟩) fun _ => ?_
          split
          · exact fail (fun h => h) _
          · exact bind (TempKept.createSegment _) fun _ =>
              durable fun h => ⟨⟨h.file, h.tracked⟩, trivial⟩

theorem tempKept_runOps {timestamp : Nat} {content : Bytes} (ops : List Op)
    (h : TempKept timestamp id content s) :
    TempKept timestamp id content (runOps X config ops s) := by
  induction ops generalizing s with
  | nil => exact h
  | cons op ops ih =>
    have hstep := (op.keeps (closed_tempKept X timestamp id content) config noFaults).final h
    rw [op.runWith_noFaults] at hstep
    exact ih hstep

theorem Prepared.runOps {ks : List Entry} {prep : GcPrepare} (hp : Prepared X ks prep s)
    (h : InMemory X v s) (config : Config) (ops : List Op) :
    Prepared X ks prep (runOps X config ops s) := by
  obtain ⟨i, hi, hdata⟩ := map_eq_some_iff.mp hp.temp
  have hne : s.activeWriter.file ≠ i := by
    intro heq
    have hname := FileSystem.inode?_inj h.writerFile (heq ▸ hi)
    cases hname
  have hkept : TempKept prep.tempStamp prep.segmentId (encodeAll X ks)
      (Blob.runOps X config ops s) :=
    tempKept_runOps ops ⟨⟨i, hi, hdata, hne⟩, hp.tracked⟩
  obtain ⟨j, hj, hdata', -⟩ := hkept.file
  exact { hp with
    temp := by rw [FileSystem.read?_eq_some hj, hdata']
    tracked := hkept.tracked }

/-! ## Reading afterwards -/

theorem completedBy_append (ops ops' : List Op) :
    completedBy (ops ++ ops') = completedBy ops ++ completedBy ops' := List.flatMap_append

theorem lookup_committed_afterAll_iff (config : Config) (hv : v.Coherent) (hid : id < v.active)
    (hlayout : v.layout id ≠ none) (ops : List Op) (key : Key) :
    ((v.afterAll X config ops).committed id (v.kept id)).lookup X key =
        (v.afterAll X config ops).lookup X key ↔
      (v.LiveIn id key → dataBytes (v.kept id) ≠ 0 ∧
        ∀ value, lastFor key (completedBy ops) = some value → v.lookup X key = .ok value) := by
  by_cases hlive : v.LiveIn id key
  · obtain ⟨e, he, rfl⟩ := (hv.sound.liveIn_iff hlayout).mp hlive
    have hread := hv.lookup_of_mem_kept (X := X) he
    rw [(rewritten_committed _ id _).lookup_of_mem live_kept hv.valid_kept keptOf_unique he,
      updates_afterAll ops hv, hread]
    simp only [layout_committed_eq_none_iff]
    by_cases hzero : dataBytes (v.kept id) = 0
    · rw [if_pos hzero]
      refine ⟨fun heq => ?_, fun h => absurd hzero (h hlive).1⟩
      cases hlast : lastFor e.key (completedBy ops) with
      | some value =>
        rw [hlast] at heq
        cases heq
      | none =>
        rw [hlast] at heq
        exact absurd heq.symm (e.value_ne_segmentNotFound id)
    · rw [if_neg hzero]
      cases hlast : lastFor e.key (completedBy ops) with
      | some value =>
        refine ⟨fun heq _ => ⟨hzero, fun value' hvalue' => ?_⟩, fun h => (h hlive).2 value rfl⟩
        cases hvalue'
        exact heq
      | none => exact ⟨fun _ _ => ⟨hzero, fun _ h => (by cases h)⟩, fun _ => rfl⟩
  · refine ⟨fun _ h => absurd h hlive, fun _ => ?_⟩
    refine (rewritten_committed _ id _).lookup_of_notMem live_kept (fun e he hkey => ?_)
      fun hlater => ?_
    · exact hlive (hkey ▸ liveIn_of_mem_kept he)
    · exact hlive ((frame_afterAll ops config v).2 hid hlater)

theorem inMemory_gcInterleaved (h : InMemory X v s) (hv : v.Coherent)
    (ht : gcTarget config s = some id) (timestamp : Nat) (between after : List Op) :
    InMemory X (((v.afterAll X config between).committed id (v.kept id)).afterAll X config after)
      (gcInterleaved X config timestamp between after s) := by
  obtain ⟨hid, -, -⟩ := h.gcTarget ht
  obtain ⟨out, hresult, ⟨prep, rfl, rfl, hmem, hp⟩, -⟩ := runs_gcPrepare h hv.sound ht timestamp
  have hlt := hid.trans_le (frame_afterAll (X := X) between config v).1
  obtain ⟨_, -, hcommitted, -⟩ := runs_gcCommit (inMemory_runOps between hmem)
    (hp.runOps hmem config between) hlt hv.valid_kept
  rw [gcInterleaved, hresult]
  exact inMemory_runOps after hcommitted

end

/-- In every state an orderly history leads to, a compaction that other operations
overlap with in any way leaves every key with the last value written to it exactly
when each key that was live in the segment is written again behind the second phase,
or keeps its value between the phases while the segment keeps data. -/
theorem gc_window_iff {X : Extern} {config : Config} {steps : List Step} {s : Engine}
    (h : Reached X config steps s) (timestamp : Nat) (between after : List Op) :
    (∀ key, (Engine.get X key (gcInterleaved X config timestamp between after s)).result =
        match lastFor key (completedBy (between ++ after)) with
        | some value => .ok value
        | none => (Engine.get X key s).result) ↔
      ∀ id, gcTarget config s = some id → ∀ key record, s.disk.index.get key = some record →
        record.segmentId = id → lastFor key (completedBy after) = none →
        (∃ r, s.disk.index.Live id r ∧ r.dataSize ≠ 0) ∧
          ∀ value, lastFor key (completedBy between) = some value →
            (Engine.get X key s).result = .ok value := by
  obtain ⟨v, hmem, hv⟩ := h.coherent
  cases ht : gcTarget config s with
  | none =>
    refine ⟨fun _ id hid => (by cases hid), fun _ key => ?_⟩
    have hsame : gcInterleaved X config timestamp between after s =
        runOps X config (between ++ after) s := by
      rw [gcInterleaved, gcPrepare_of_target_none X ht, runOps, runOps, runOps,
        List.foldl_append]
    rw [hsame, get_eq_lookup (inMemory_runOps _ hmem), updates_afterAll _ hv, get_eq_lookup hmem]
  | some id =>
    obtain ⟨hid, hlayout, -⟩ := hmem.gcTarget ht
    have hfinal := inMemory_gcInterleaved hmem hv ht timestamp between after
    have hbetween : (v.afterAll X config between).Coherent := coherent_afterAll between hv
    have hlive : ∀ key, (v.afterAll X config between).LiveIn id key →
        ∃ e ∈ v.kept id, e.key = key := fun key hkey =>
      (hv.sound.liveIn_iff hlayout).mp ((frame_afterAll between config v).2 hid hkey)
    have hcommitted := hbetween.rewritten (rewritten_committed _ id _) hlive
      (hid.trans_le (frame_afterAll (X := X) between config v).1) hv.valid_kept
    have hdata : (∃ r, s.disk.index.Live id r ∧ r.dataSize ≠ 0) ↔ dataBytes (v.kept id) ≠ 0 := by
      rw [Ne, hv.dataBytes_kept_eq_zero_iff hlayout, ← hmem.index_eq]
      push Not
      rfl
    -- key by key: without a later write the two views have to agree
    have hkey : ∀ key, ((Engine.get X key
          (gcInterleaved X config timestamp between after s)).result =
        match lastFor key (completedBy (between ++ after)) with
        | some value => .ok value
        | none => (Engine.get X key s).result) ↔
        (lastFor key (completedBy after) = none → v.LiveIn id key →
          dataBytes (v.kept id) ≠ 0 ∧ ∀ value, lastFor key (completedBy between) = some value →
            v.lookup X key = .ok value) := by
      intro key
      rw [get_eq_lookup hfinal, updates_afterAll after hcommitted, get_eq_lookup hmem,
        completedBy_append, lastFor_append]
      cases hafter : lastFor key (completedBy after) with
      | some value => exact ⟨fun _ h => (by cases h), fun _ => rfl⟩
      | none =>
        have hview := lookup_committed_afterAll_iff (X := X) config hv hid hlayout between key
        rw [updates_afterAll between hv] at hview
        exact ⟨fun heq _ => hview.mp heq, fun hcond => hview.mpr (hcond rfl)⟩
    constructor
    · rintro hall id' hid' key record hget hrid hafter
      cases hid'
      rw [hmem.index_eq] at hget
      obtain ⟨hne, hvalue⟩ := (hkey key).mp (hall key) hafter ⟨record, hget, hrid⟩
      rw [get_eq_lookup hmem]
      exact ⟨hdata.mpr hne, hvalue⟩
    · rintro hcond key
      refine (hkey key).mpr fun hafter ⟨record, hget, hrid⟩ => ?_
      rw [← hmem.index_eq] at hget
      obtain ⟨hne, hvalue⟩ := hcond id rfl key record hget hrid hafter
      rw [get_eq_lookup hmem] at hvalue
      exact ⟨hdata.mp hne, hvalue⟩

theorem gc_window_iff_other_key :
    ∃ s, Reached reference quarterConfig keepingSteps s ∧ gcTarget quarterConfig s = some 1 ∧
      ∀ key, (Engine.get reference key (gcInterleaved reference quarterConfig 7
          [.put (Key.fill 3) [3] .none] [] s)).result =
        match lastFor key (completedBy ([.put (Key.fill 3) [3] .none] ++ [])) with
        | some value => .ok value
        | none => (Engine.get reference key s).result := by
  obtain ⟨s, hs, ht, ⟨r, hr, hsegment, hsize⟩, hkept⟩ := reached_keepingSteps
  refine ⟨s, hs, ht, (gc_window_iff hs 7 _ _).mpr fun id hid key record hget hrid _ => ?_⟩
  rw [ht] at hid
  cases hid
  obtain ⟨v, hmem, hv⟩ := hs.coherent
  obtain ⟨-, hlayout, -⟩ := hmem.gcTarget ht
  obtain ⟨file, hfile⟩ := ne_none_iff_exists'.mp (hmem.read_ne_none_iff.mpr hlayout)
  rw [hfile, getD_some, hmem.keptOf_eq hfile] at hkept
  -- the only live key of the segment is the second one
  have hkey : key = Key.fill 2 := by
    rw [hmem.index_eq] at hget
    obtain ⟨e, he, rfl⟩ := (hv.sound.liveIn_iff hlayout).mp ⟨record, hget, hrid⟩
    rw [hkept] at he
    rw [List.mem_singleton.mp he]
  subst hkey
  refine ⟨⟨r, ⟨_, hr, hsegment⟩, by rw [hsize]; decide⟩, fun value hvalue => ?_⟩
  cases hvalue

/-- A key is deleted between the two phases, and the second phase brings it back. -/
theorem gc_undoes_delete :
    lastFor (Key.fill 2) (completedBy [.delete (Key.fill 2)]) = some none ∧
      (engineAfter reference quarterConfig keepingSteps).map (fun s =>
        (((Op.delete (Key.fill 2)).run reference quarterConfig
            (Engine.gcPrepare reference quarterConfig 7 s).state).result.toOption,
          (Engine.get reference (Key.fill 2) (gcInterleaved reference quarterConfig 7
            [.delete (Key.fill 2)] [] s)).result.toOption)) =
        some (some (), some (some [2])) := by
  decide +kernel

end Bichon.Blob
