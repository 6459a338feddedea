import Bichon.Blob.Histories
import Bichon.Blob.Reference

/-!
# Segment files and their recorded hashes

Sealing a segment records the hash of its file, compaction replaces it with the hash
of the new file, and a backup takes the recorded hash for the hash of what it copies.
Here every operation may meet the faults a seal can meet, and every one may crash.

`hashes_match`: the recorded hashes are those of the files through every run in which

* nothing is appended to a file that has a hash, which happens after a seal that could
  not create the next segment,
* no compaction is cut short between the rename and the save of the metadata,
* no open cuts off the tail of a file that has a hash.
-/

namespace Bichon.Blob

open ByteFile LastWrite Durable Transition FileSystem List Engine GlobalMeta Prog Status

/-! ## Backup artifacts -/

structure SegmentArtifact where
  segmentId : Nat
  sha256 : Key
  bytes : Nat

namespace Engine

/-- The loop of `backup_segments` over the statistics, with the artifacts so far and
whether a hash was added. -/
def backupLoop (X : Extern) :
    List (Nat × SegmentStats) → List SegmentArtifact × Bool → EngineM (List SegmentArtifact × Bool)
  | [], acc => pure acc
  | (segId, stats) :: rest, acc =>
    if stats.sealed then do
      let s ← Prog.state
      match s.disk.fs.read? (.seg segId) with
      | none => Prog.fail (.segmentNotFound segId)
      | some file =>
        match stats.sha256 with
        | some h => backupLoop X rest (acc.1 ++ [⟨segId, h, file.length⟩], acc.2)
        | none => do
            let h := X.sha256 file
            modifyMeta fun m => m.modify segId fun stats => { stats with sha256 := some h }
            backupLoop X rest (acc.1 ++ [⟨segId, h, file.length⟩], true)
    else
      backupLoop X rest acc

def backupSegments (X : Extern) : EngineM (List SegmentArtifact) := do
  let s ← Prog.state
  let out ← backupLoop X s.globalMeta.segments.toList ([], false)
  if out.2 then do
    save
    pure out.1
  else
    pure out.1

end Engine

/-! ## Runs with faults -/

inductive FaultStep where
  | act (op : Op) (faults : Nat → Option SealFault)
  | crash (op : Op) (faults : Nat → Option SealFault) (steps : Nat)
  | gc (timestamp : Nat)
  | gcCrash (timestamp steps : Nat)
  | backup
  | backupCrash (steps : Nat)
  | close
  | openStore
  | openCrash (steps : Nat)

def Status.after (X : Extern) (config : Config) : Status → FaultStep → Option Status
  | running s, .act op faults => some (running (op.runWith X config faults s).state)
  | running s, .crash op faults steps =>
    some (stopped ((op.runWith X config faults).crashPoint s steps).disk)
  | running s, .gc timestamp => some (running (Engine.gc X config timestamp s).state)
  | running s, .gcCrash timestamp steps =>
    some (stopped ((Engine.gc X config timestamp).crashPoint s steps).disk)
  | running s, .backup => some (running (Engine.backupSegments X s).state)
  | running s, .backupCrash steps =>
    some (stopped ((Engine.backupSegments X).crashPoint s steps).disk)
  | running s, .close => some (stopped s.disk)
  | stopped d, .openStore => (stopped d).next X config .openStore
  | stopped d, .openCrash steps => (stopped d).next X config (.openCrash steps)
  | _, _ => none

def Status.fs : Status → FileSystem FileName
  | running s => s.disk.fs
  | stopped d => d.fs

/-- The metadata in memory, or on disk while the store is stopped. -/
def Status.globalMeta : Status → GlobalMeta
  | running s => s.globalMeta
  | stopped d => d.metaBin.getD .new

/-! ## The condition -/

def GlobalMeta.hashOf (m : GlobalMeta) (id : Nat) : Option Key :=
  (m.segments[id]?).bind SegmentStats.sha256

/-- No hash is recorded for the file the writer appends to. -/
def Engine.AppendsUnhashed (s : Engine) : Prop :=
  ∀ id, s.disk.fs.inode? (.seg id) = some s.activeWriter.file →
    s.globalMeta.hashOf id = none ∧ s.disk.savedMeta.hashOf id = none

/-- The scan of a file with a hash goes to the end of the file. -/
def Disk.HashedWhole (X : Extern) (d : Disk) : Prop :=
  ∀ id file, d.savedMeta.hashOf id ≠ none → d.fs.read? (.seg id) = some file →
    ∀ n, (scanEntries X id file (scanStart (!d.index.readable) (d.savedMeta.indexedUpTo id)
        file.length)).outcome = .ok n →
      scanStart (!d.index.readable) (d.savedMeta.indexedUpTo id) file.length < file.length →
        file.length ≤ n

/-- The operations that append. -/
def Op.Appends : Op → Prop
  | put .. => True
  | putBatch _ => True
  | delete _ => True
  | deleteBatch _ => True
  | _ => False

namespace Engine

/-- The second phase up to the save of the metadata. -/
def gcRewrite (prep : GcPrepare) : EngineM (Option GcPrepare) := do
  gcFinish prep
  gcInvalidate prep
  gcInsertKept prep
  gcDeleteKeys prep
  pure (some prep)

def gcUnsaved (X : Extern) (config : Config) (timestamp : Nat) : EngineM (Option GcPrepare) := do
  let prep ← gcPrepare X config timestamp
  match prep with
  | none => pure none
  | some prep => gcRewrite prep

def gcSaving : Option GcPrepare → EngineM (Option GcStats)
  | none => pure none
  | some prep => do
      gcUpdateMeta prep
      pure (some ⟨prep.segmentId, prep.bytesBefore, prep.bytesAfter, prep.entriesKept,
        prep.entriesSkipped, prep.sha256⟩)

theorem gc_eq_unsaved (X : Extern) (config : Config) (timestamp : Nat) :
    gc X config timestamp = gcUnsaved X config timestamp >>= gcSaving := by
  rw [gc, gcUnsaved, bind_assoc]
  congr 1
  funext prep
  cases prep with
  | none => exact (pure_bind _ _).symm
  | some prep =>
    dsimp only
    rw [gcCommit, gcRewrite]
    simp only [bind_assoc, pure_bind, gcSaving]

/-- A crash of a compaction spares the hashes: it comes before the rename or after the
save, or no hash is on disk for the segment. -/
def GcCrashSpares (X : Extern) (config : Config) (timestamp steps : Nat) (s : Engine) : Prop :=
  (∀ id, gcTarget config s = some id → s.disk.savedMeta.hashOf id = none) ∨
    steps ≤ (gcPrepare X config timestamp s).passed.length ∨
    (gcUnsaved X config timestamp s).passed.length < steps

end Engine

def SparesHashes (X : Extern) (config : Config) : Status → FaultStep → Prop
  | .running s, .act op _ => op.Appends → s.AppendsUnhashed
  | .running s, .crash op _ _ => op.Appends → s.AppendsUnhashed
  | .running s, .gcCrash timestamp steps => s.GcCrashSpares X config timestamp steps
  | .stopped d, .openStore => d.HashedWhole X
  | .stopped d, .openCrash _ => d.HashedWhole X
  | _, _ => True

/-! ## What is kept -/

/-- Every recorded hash is the hash of the file. -/
def GlobalMeta.Matches (X : Extern) (fs : FileSystem FileName) (m : GlobalMeta) : Prop :=
  ∀ id h, m.hashOf id = some h → (fs.read? (.seg id)).map X.sha256 = some h

def Disk.Hashed (X : Extern) (d : Disk) : Prop := d.savedMeta.Matches X d.fs

structure Engine.Hashed (X : Extern) (s : Engine) : Prop where
  inMemory : s.globalMeta.Matches X s.disk.fs
  onDisk : s.disk.Hashed X
  top : ∀ id, s.disk.fs.read? (.seg id) ≠ none → id ≤ s.activeWriter.id

/-- The artifact says what the file of the segment is. -/
def SegmentArtifact.Describes (X : Extern) (fs : FileSystem FileName) (a : SegmentArtifact) :
    Prop :=
  ∃ file, fs.read? (.seg a.segmentId) = some file ∧ a.sha256 = X.sha256 file ∧ a.bytes = file.length

def Status.Hashed (X : Extern) : Status → Prop
  | running s => s.Hashed X
  | stopped d => d.Hashed X

section

variable {X : Extern} {config : Config} {m m' : GlobalMeta} {fs fs' : FileSystem FileName}
  {s t : Engine} {d c : Disk} {id : Nat}

namespace GlobalMeta

theorem hashOf_modify (m : GlobalMeta) (id id' : Nat) (f : SegmentStats → SegmentStats) :
    (m.modify id f).hashOf id' =
      if id = id' then (m.segments[id']?).bind fun st => (f st).sha256 else m.hashOf id' := by
  rw [hashOf, getElem?_modify, hashOf]
  split
  · cases m.segments[id']? <;> rfl
  · rfl

variable {f : SegmentStats → SegmentStats}

theorem hashOf_upsert (m : GlobalMeta) (id : Nat)
    (hf : ∀ st, (f st).sha256 = st.sha256) (id' : Nat) :
    (m.upsert id f).hashOf id' = m.hashOf id' := by
  rw [hashOf, getElem?_upsert, hashOf]
  split
  · rename_i heq
    subst heq
    cases hst : m.segments[id]? with
    | none => exact hf _
    | some st => exact hf st
  · rfl

theorem hashOf_modify_of_eq (m : GlobalMeta) (id : Nat)
    (hf : ∀ st, (f st).sha256 = st.sha256) (id' : Nat) :
    (m.modify id f).hashOf id' = m.hashOf id' := by
  rw [hashOf_modify, hashOf]
  split
  · simp only [hf]
  · rfl

/-- The statistics of all other segments. -/
def without (m : GlobalMeta) (id : Nat) : GlobalMeta := { m with segments := m.segments.erase id }

theorem hashOf_without (m : GlobalMeta) (id id' : Nat) :
    (m.without id).hashOf id' = if id = id' then none else m.hashOf id' := by
  rw [hashOf, without, hashOf]
  rw [Std.ExtTreeMap.getElem?_erase]
  by_cases h : id = id'
  · simp [h]
  · simp [h]

theorem Matches.congr (h : m.Matches X fs) (hhash : ∀ id, m'.hashOf id = m.hashOf id) :
    m'.Matches X fs := by
  intro id h' hid
  exact h id h' ((hhash id).symm.trans hid)

theorem ne_of_hashOf_without {id' : Nat} (h : (m.without id).hashOf id' ≠ none) : id' ≠ id := by
  rintro rfl
  rw [hashOf_without, if_pos rfl] at h
  exact h rfl

theorem Matches.without (h : m.Matches X fs) (id : Nat) : (m.without id).Matches X fs := by
  intro id' h' hid
  rw [hashOf_without] at hid
  split at hid
  · cases hid
  · exact h id' h' hid

theorem Matches.withFs (h : m.Matches X fs)
    (hread : ∀ id, m.hashOf id ≠ none → fs'.read? (.seg id) = fs.read? (.seg id)) :
    m.Matches X fs' := by
  intro id h' hid
  rw [hread id (by rw [hid]; exact Option.some_ne_none _)]
  exact h id h' hid

theorem Matches.read_ne_none (h : m.Matches X fs) (hid : m.hashOf id ≠ none) :
    fs.read? (.seg id) ≠ none := by
  obtain ⟨h', hh⟩ := Option.ne_none_iff_exists'.mp hid
  intro hnone
  have hmatch := h id h' hh
  rw [hnone] at hmatch
  cases hmatch

theorem Matches.setHash (h : (m.without id).Matches X fs)
    (hf : ∀ st, (fs.read? (.seg id)).map X.sha256 = (f st).sha256) :
    (m.modify id f).Matches X fs := by
  intro id' h' hid
  rw [hashOf_modify] at hid
  split at hid
  next heq =>
    obtain ⟨st, -, hst⟩ := Option.bind_eq_some_iff.mp hid
    rw [← heq, hf, hst]
  next hne => exact h id' h' (by rw [hashOf_without, if_neg hne, hid])

end GlobalMeta

/-! ### Operations -/

namespace Engine

section

variable (h : s.Hashed X)

include h

theorem Hashed.withMeta (hm : m.Matches X s.disk.fs) :
    ({ s with globalMeta := m } : Engine).Hashed X where
  inMemory := hm
  onDisk := h.onDisk
  top := h.top

theorem Hashed.withActive (newId : Nat) :
    ({ s with globalMeta := { s.globalMeta with activeSegmentId := newId } } : Engine).Hashed X :=
  h.withMeta h.inMemory

theorem Hashed.save :
    ({ s with disk := { s.disk with metaBin := some s.globalMeta } } : Engine).Hashed X where
  inMemory := h.inMemory
  onDisk := h.inMemory
  top := h.top

theorem Hashed.write (hu : s.AppendsUnhashed) (content : Bytes) (writer : SegmentWriter)
    (hid : writer.id = s.activeWriter.id) (hfile : writer.file = s.activeWriter.file) :
    ({ s with
        disk := { s.disk with fs := s.disk.fs.write s.activeWriter.file content }
        activeWriter := writer } : Engine).Hashed X ∧
      ({ s with
        disk := { s.disk with fs := s.disk.fs.write s.activeWriter.file content }
        activeWriter := writer } : Engine).AppendsUnhashed := by
  refine ⟨⟨h.inMemory.withFs fun id hne => ?_, h.onDisk.withFs fun id hne => ?_,
    fun id hread => ?_⟩, fun id hi => ?_⟩
  · exact read?_write_of_inode?_ne _ fun hi => hne (hu id hi).1
  · exact read?_write_of_inode?_ne _ fun hi => hne (hu id hi).2
  · rw [Ne, read?_eq_none_iff, inode?_write,
      ← read?_eq_none_iff] at hread
    rw [hid]
    exact h.top id hread
  · rw [inode?_write, hfile] at hi
    exact hu id hi

theorem Hashed.append (hu : s.AppendsUnhashed) (entry : Entry) :
    (Engine.writeActive X entry s).state.Hashed X ∧
      (Engine.writeActive X entry s).state.AppendsUnhashed := by
  rw [writeActive, durable, SegmentWriter.append]
  exact h.write hu _ _ rfl rfl

theorem Hashed.createSegment {oldId : Nat} (hid : s.activeWriter.id = oldId)
    (hfs : fs = s.disk.fs.create (.seg (oldId + 1)))
    (ht : t = { s with
      disk := { s.disk with fs }
      activeWriter :=
        { file := (fs.inode? (.seg (oldId + 1))).getD 0, pos := 0, id := oldId + 1,
          bytesWritten := 0 } }) : t.Hashed X ∧ t.AppendsUnhashed := by
  subst hfs ht
  have hnew : s.disk.fs.read? (.seg (oldId + 1)) = none := by
    by_contra hne
    have := h.top _ hne
    omega
  have hother : ∀ id', s.disk.fs.read? (.seg id') ≠ none →
      (s.disk.fs.create (.seg (oldId + 1))).read? (.seg id') = s.disk.fs.read? (.seg id') := by
    intro id' hfile
    refine read?_create_ne _ fun heq => hfile ?_
    rw [heq]
    exact hnew
  have hinode := inode?_create_of_none (read?_eq_none_iff.mp hnew)
  refine ⟨⟨h.inMemory.withFs fun id' hne => hother id' (h.inMemory.read_ne_none hne),
    h.onDisk.withFs fun id' hne => hother id' (h.onDisk.read_ne_none hne), ?_⟩, ?_⟩
  · intro id' hfile
    dsimp only
    by_cases heq : id' = oldId + 1
    · exact heq.le
    · rw [read?_create_ne _ (by simpa using heq)] at hfile
      have := h.top id' hfile
      omega
  · intro id' hi
    have heq : id' = oldId + 1 := by
      rw [hinode (.seg (oldId + 1)), if_pos rfl, Option.getD_some] at hi
      have hself := hinode (.seg (oldId + 1))
      rw [if_pos rfl] at hself
      simpa using inode?_inj hi hself
    subst heq
    constructor
    · by_contra hne
      exact h.inMemory.read_ne_none hne hnew
    · by_contra hne
      exact h.onDisk.read_ne_none hne hnew

theorem yields_sealActive (fault : Option SealFault) :
    Yields (Engine.sealActive X fault) s
      (fun _ t => t.Hashed X ∧ (s.AppendsUnhashed → t.AppendsUnhashed))
      (Hashed X) (·.disk.Hashed X) := by
  refine Yields.state_bind ?_
  split
  · exact Yields.pure ⟨h, fun hu => hu⟩
  · have hsealed : ({ s with globalMeta := s.globalMeta.upsert s.activeWriter.id fun stats =>
        { stats with sealed := true } } : Engine).Hashed X :=
      h.withMeta (h.inMemory.congr (s.globalMeta.hashOf_upsert _ fun _ => rfl))
    refine Yields.modify_bind ?_
    split
    · exact Yields.fail hsealed
    · split
      · exact Yields.fail hsealed
      · rename_i file hfile
        have hhashed := hsealed.withMeta ((hsealed.inMemory.without _).setHash
          (f := fun stats => { stats with sha256 := some (X.sha256 file) }) fun _ => by
            rw [hfile, Option.map_some])
        refine Yields.modify_bind ?_
        refine Yields.modify_bind ?_
        have hnext := hhashed.withActive (s.activeWriter.id + 1)
        split
        · exact Yields.fail hnext
        · obtain ⟨hcreated, hunhashed⟩ := hnext.createSegment rfl rfl rfl
          refine Yields.durable_bind hcreated.onDisk ?_
          exact Yields.durable ⟨hcreated.save, fun _ id hi => ⟨(hunhashed id hi).1,
            (hunhashed id hi).1⟩⟩ hcreated.inMemory

end

/-- The operations keep the hashes right as long as nothing is appended to a file that
has one. -/
theorem closed_hashed (X : Extern) :
    Engine.Closed X (fun s => s.Hashed X ∧ s.AppendsUnhashed) (Hashed X)
      (·.disk.Hashed X) where
  fails := fun h => h.1
  save := fun ⟨h, hu⟩ => ⟨⟨h.save, fun id hi => ⟨(hu id hi).1, (hu id hi).1⟩⟩, h.inMemory⟩
  index := fun _ ⟨h, hu⟩ => ⟨⟨⟨h.inMemory, h.onDisk, h.top⟩, hu⟩, h.onDisk⟩
  pool := fun _ ⟨h, hu⟩ => ⟨⟨h.inMemory, h.onDisk, h.top⟩, hu⟩
  modify := fun {s} id {f} hf ⟨h, hu⟩ => by
    have hhash := s.globalMeta.hashOf_modify_of_eq id (f := f) fun st => (hf st).2.2
    exact ⟨h.withMeta (h.inMemory.congr hhash), fun id' hi =>
      ⟨(hhash id').trans (hu id' hi).1, (hu id' hi).2⟩⟩
  upsert := fun {s} id {f} hf ⟨h, hu⟩ => by
    have hhash := s.globalMeta.hashOf_upsert id (f := f) fun st => (hf st).2.2
    exact ⟨h.withMeta (h.inMemory.congr hhash), fun id' hi =>
      ⟨(hhash id').trans (hu id' hi).1, (hu id' hi).2⟩⟩
  append := fun entry => Keeps.durable fun ⟨h, hu⟩ =>
    ⟨h.append hu entry, (h.append hu entry).1.onDisk⟩
  sealing := fun fault => Keeps.of_yields fun s ⟨h, hu⟩ =>
    (yields_sealActive h fault).mono (fun _ _ ht => ⟨ht.1, ht.2 hu⟩) (fun _ ht => ht)
      fun _ ht => ht

theorem yields_runWith (h : s.Hashed X) (op : Op) (hop : op.Appends → s.AppendsUnhashed)
    (config : Config) (faults : Nat → Option SealFault) :
    Yields (op.runWith X config faults) s (fun _ => Hashed X) (Hashed X)
      (·.disk.Hashed X) := by
  have happends : op.Appends → Yields (op.runWith X config faults) s (fun _ => Hashed X) (Hashed X)
      (·.disk.Hashed X) := fun ha =>
    ((op.keeps (closed_hashed X) config faults).yields ⟨h, hop ha⟩).mono (fun _ _ ht => ht.1)
      (fun _ ht => ht) fun _ ht => ht
  cases op with
  | put | putBatch | delete | deleteBatch => exact happends trivial
  | flush => exact Yields.durable h.save h.inMemory
  | sealActiveSegment =>
    exact (yields_sealActive h (faults 0)).mono (fun _ _ ht => ht.1) (fun _ ht => ht) fun _ ht => ht
  | get key =>
    obtain ⟨hpassed, hstate⟩ := get_state X key s
    have hread : (get X key s).state.Hashed X := by
      rcases hstate with heq | ⟨_, _, -, heq⟩
      · rw [heq]
        exact h
      · rw [heq]
        exact ⟨h.inMemory, h.onDisk, h.top⟩
    refine Yields.bind (P := fun _ t => t.Hashed X) ⟨fun _ _ => hread, fun _ _ => hread, ?_⟩
      fun _ _ ht => Yields.pure ht
    rw [hpassed]
    exact fun _ ht => by cases ht

/-! ### Compaction -/

/-- The new file is there, with the hash that was computed for it. -/
structure Ready (X : Extern) (prep : GcPrepare) (s : Engine) : Prop where
  temp : (s.disk.fs.read? (.temp prep.tempStamp)).map X.sha256 = some prep.sha256
  file : s.disk.fs.read? (.seg prep.segmentId) ≠ none

/-- All hashes but that of the rewritten segment are right. -/
structure Rewritten (X : Extern) (prep : GcPrepare) (s : Engine) : Prop where
  inMemory : (s.globalMeta.without prep.segmentId).Matches X s.disk.fs
  onDisk : (s.disk.savedMeta.without prep.segmentId).Matches X s.disk.fs
  file : (s.disk.fs.read? (.seg prep.segmentId)).map X.sha256 = some prep.sha256
  top : ∀ id, s.disk.fs.read? (.seg id) ≠ none → id ≤ s.activeWriter.id

variable {prep : GcPrepare}

theorem Rewritten.hashed_of_unhashed (h : Rewritten X prep s)
    (hu : s.disk.savedMeta.hashOf prep.segmentId = none) : s.disk.Hashed X := by
  refine h.onDisk.congr fun id => ?_
  rw [hashOf_without]
  split
  next heq => rw [← heq, hu]
  next => rfl

theorem Hashed.withSame (h : s.Hashed X) {fs' : FileSystem FileName}
    (hsame : SameSegments s.disk.fs fs') :
    ({ s with disk := { s.disk with fs := fs' } } : Engine).Hashed X where
  inMemory := h.inMemory.withFs fun id _ => hsame id
  onDisk := h.onDisk.withFs fun id _ => hsame id
  top := fun id hid => h.top id (by rw [← hsame id]; exact hid)

theorem yields_gcPrepare (h : s.Hashed X) (config : Config) (timestamp : Nat) :
    Yields (Engine.gcPrepare X config timestamp) s
      (fun out t => t.Hashed X ∧ t.disk.metaBin = s.disk.metaBin ∧
        ∀ prep, out = some prep → gcTarget config s = some prep.segmentId ∧ Ready X prep t)
      (Hashed X) (·.disk.Hashed X) := by
  have hspares := gcPrepare_spares X config timestamp s
  have hhashed : ∀ t ∈ (gcPrepare X config timestamp s).state ::
      (gcPrepare X config timestamp s).passed,
      t.Hashed X ∧ t.disk.metaBin = s.disk.metaBin := by
    intro t ht
    obtain ⟨fs, hfs, rfl⟩ := hspares t ht
    exact ⟨h.withSame hfs.read?, rfl⟩
  obtain ⟨hstate, hmeta⟩ := hhashed _ mem_cons_self
  refine ⟨fun out hout => ⟨hstate, hmeta, ?_⟩, fun _ _ => hstate,
    fun t ht => (hhashed t (mem_cons_of_mem _ ht)).1.onDisk⟩
  rintro prep rfl
  obtain ⟨htarget, file, -, hfile, -, hprep, htemp⟩ := gcPrepare_collects hout
  obtain ⟨fs, hfs, heq⟩ := hspares _ mem_cons_self
  refine ⟨htarget, ?_, ?_⟩
  · rw [htemp, hprep.sha256]
    rfl
  · rw [heq]
    rw [hfs.read? prep.segmentId, hfile]
    exact Option.some_ne_none _

theorem runs_gcRewrite (h : s.Hashed X) (hr : Ready X prep s) :
    Runs (Engine.gcRewrite prep) s (fun out t => out = some prep ∧ Rewritten X prep t)
      (fun t => s.disk.savedMeta.hashOf prep.segmentId = none → t.disk.Hashed X) := by
  obtain ⟨content, hcontent, hhash⟩ := Option.map_eq_some_iff.mp hr.temp
  obtain ⟨i, hi, hdata⟩ := Option.map_eq_some_iff.mp hcontent
  have hread := read?_rename_temp hi prep.segmentId
  have hother : ∀ id, id ≠ prep.segmentId →
      (s.disk.fs.rename (.temp prep.tempStamp) (.seg prep.segmentId)).read? (.seg id) =
        s.disk.fs.read? (.seg id) := fun id hne => by rw [hread, if_neg hne]
  let P : Engine → Prop := fun t => Rewritten X prep t ∧ t.disk.metaBin = s.disk.metaBin
  have hunhashed : ∀ {t}, P t → s.disk.savedMeta.hashOf prep.segmentId = none →
      t.disk.Hashed X := by
    intro t ht hu
    refine ht.1.hashed_of_unhashed ?_
    rw [Disk.savedMeta, ht.2]
    exact hu
  have hindex : ∀ {t : Engine} (index : IndexStore), P t →
      P { t with disk := { t.disk with index := index } } := fun _ ht =>
    ⟨⟨ht.1.inMemory, ht.1.onDisk, ht.1.file, ht.1.top⟩, ht.2⟩
  have hrenamed : P { s with disk := { s.disk with
      fs := s.disk.fs.rename (.temp prep.tempStamp) (.seg prep.segmentId) } } := by
    refine ⟨⟨(h.inMemory.without _).withFs fun id hid => hother id (ne_of_hashOf_without hid),
      (h.onDisk.without _).withFs fun id hid => hother id (ne_of_hashOf_without hid), ?_,
      fun id hne => ?_⟩, rfl⟩
    · rw [hread, if_pos rfl, hdata]
      exact congrArg some hhash
    · by_cases heq : id = prep.segmentId
      · rw [heq]
        exact h.top _ hr.file
      · rw [hother id heq] at hne
        exact h.top id hne
  refine Runs.seq (runs_gcFinish hi (hunhashed hrenamed)) ?_
  rintro _ _ rfl
  refine Runs.seq (P := fun _ t => P t) (Runs.modify ?_) fun _ t ht => ?_
  · exact ⟨⟨hrenamed.1.inMemory, hrenamed.1.onDisk, hrenamed.1.file, hrenamed.1.top⟩, rfl⟩
  refine Runs.seq (runs_gcInsertKept prep (hunhashed (hindex _ ht))) ?_
  rintro _ _ rfl
  have ht' := hindex (t.disk.index.insertBatch prep.keptRecords) ht
  refine Runs.seq (runs_gcDeleteKeys prep (hunhashed (hindex _ ht'))) ?_
  rintro _ _ rfl
  exact Runs.pure ⟨rfl, (hindex _ ht').1⟩

theorem yields_gcUpdateMeta (h : Rewritten X prep s) :
    Yields (Engine.gcUpdateMeta prep) s (fun _ => Hashed X) (Hashed X)
      (·.disk.Hashed X) := by
  rw [gcUpdateMeta]
  split
  · refine Yields.modify_bind ?_
    refine Yields.durable_bind h.inMemory ?_
    have hremoved : (s.globalMeta.without prep.segmentId).Matches X
        (s.disk.fs.remove (.seg prep.segmentId)) := by
      refine h.inMemory.withFs fun id hid => ?_
      rw [read?_remove, if_neg (by simpa using ne_of_hashOf_without hid)]
    refine Yields.durable ⟨hremoved, hremoved, fun id hid => h.top id fun hnone => hid ?_⟩ hremoved
    rw [read?_remove]
    split
    · rfl
    · exact hnone
  · have hupdated : (s.globalMeta.modify prep.segmentId (compactedStats prep)).Matches X
        s.disk.fs := h.inMemory.setHash fun _ => h.file
    refine Yields.modify_bind ?_
    exact Yields.durable ⟨hupdated, hupdated, h.top⟩ hupdated

theorem yields_gcSaving (h : Rewritten X prep s) :
    Yields (gcSaving (some prep)) s (fun _ => Hashed X) (Hashed X)
      (·.disk.Hashed X) :=
  Yields.bind (yields_gcUpdateMeta h) fun _ _ ht => Yields.pure ht

theorem yields_gc (h : s.Hashed X) (config : Config) (timestamp : Nat) :
    Yields (Engine.gc X config timestamp) s (fun _ => Hashed X) (Hashed X)
      (fun t => (∀ id, gcTarget config s = some id → s.disk.savedMeta.hashOf id = none) →
        t.disk.Hashed X) := by
  rw [gc_eq_unsaved, gcUnsaved, bind_assoc]
  refine Yields.bind ((yields_gcPrepare h config timestamp).mono (fun _ _ ht => ht)
    (fun _ ht => ht) fun _ ht _ => ht) ?_
  rintro out t ⟨ht, hmeta, hready⟩
  cases out with
  | none =>
    exact Yields.pure ht
  | some prep =>
    obtain ⟨htarget, hprep⟩ := hready prep rfl
    refine Yields.bind (((runs_gcRewrite ht hprep).weaken fun u hu hsaved => hu ?_).yields) ?_
    · rw [Disk.savedMeta, hmeta]
      exact hsaved _ htarget
    · rintro _ u ⟨rfl, hu⟩
      exact (yields_gcSaving hu).mono (fun _ _ h => h) (fun _ h => h) fun _ h _ => h

theorem passed_gcSaving_ne_nil (prep : GcPrepare) (s : Engine) :
    (gcSaving (some prep) s).passed ≠ [] := by
  change ((gcUpdateMeta prep >>= fun _ => pure _) s).passed ≠ []
  rw [gcUpdateMeta]
  split
  · exact cons_ne_nil _ _
  · exact cons_ne_nil _ _

/-- A crash is one of the first phase, unless the phase has found a segment. -/
theorem crashPoint_gc (X : Extern) (config : Config) (timestamp steps : Nat) (s : Engine) :
    (gc X config timestamp).crashPoint s steps = (gcPrepare X config timestamp).crashPoint s steps ∨
      ∃ prep, (gcPrepare X config timestamp s).result = .ok (some prep) := by
  cases hr : (gcPrepare X config timestamp s).result with
  | error e =>
    left
    rw [crashPoint, gc, bind_of_error hr]
    rfl
  | ok out =>
    cases out with
    | none =>
      left
      rw [crashPoint, gc, bind_of_ok hr]
      dsimp only
      rw [pure_apply, append_nil]
      rfl
    | some prep => exact .inr ⟨prep, rfl⟩

theorem hashed_gcCrash (h : s.Hashed X) {config : Config} {timestamp steps : Nat}
    (hspares : s.GcCrashSpares X config timestamp steps) :
    ((Engine.gc X config timestamp).crashPoint s steps).disk.Hashed X := by
  have hprepare := yields_gcPrepare h config timestamp
  rcases hspares with hunhashed | hearly | hlate
  · exact (yields_gc h config timestamp).crashPoint (fun _ => h.onDisk) steps hunhashed
  · rw [gc, crashPoint_bind_of_le hearly]
    exact hprepare.crashPoint h.onDisk steps
  · rcases crashPoint_gc X config timestamp steps s with heq | ⟨prep, hr⟩
    · rw [heq]
      exact hprepare.crashPoint h.onDisk steps
    · obtain ⟨ht, -, hready⟩ := hprepare.1 _ hr
      obtain ⟨_, hresult, ⟨rfl, hrewritten⟩, -⟩ := runs_gcRewrite ht (hready prep rfl).2
      have hunsaved : (gcUnsaved X config timestamp s).result = .ok (some prep) ∧
          (gcUnsaved X config timestamp s).state =
            (gcRewrite prep (gcPrepare X config timestamp s).state).state := by
        rw [gcUnsaved, bind_of_ok hr]
        exact ⟨hresult, rfl⟩
      rw [gc_eq_unsaved]
      have hmem := crashPoint_bind_of_lt (f := gcSaving) hunsaved.1
        (passed_gcSaving_ne_nil prep _) hlate
      rw [hunsaved.2] at hmem
      exact (yields_gcSaving hrewritten).2.2 _ hmem

/-! ### Backup -/

theorem yields_backupLoop {segments : List (Nat × SegmentStats)} {acc : List SegmentArtifact × Bool}
    (h : s.Hashed X)
    (hsegments : ∀ p ∈ segments, ∀ h', p.2.sha256 = some h' →
      (s.disk.fs.read? (.seg p.1)).map X.sha256 = some h')
    (hacc : ∀ a ∈ acc.1, a.Describes X s.disk.fs) :
    Yields (backupLoop X segments acc) s
      (fun out t => t.Hashed X ∧ t.disk = s.disk ∧ ∀ a ∈ out.1, a.Describes X s.disk.fs)
      (Hashed X) (·.disk.Hashed X) := by
  induction segments generalizing s acc with
  | nil => exact Yields.pure ⟨h, rfl, hacc⟩
  | cons p segments ih =>
    obtain ⟨segId, stats⟩ := p
    have hrest := fun p hp => hsegments p (mem_cons_of_mem _ hp)
    rw [backupLoop]
    split
    · refine Yields.state_bind ?_
      split
      · exact Yields.fail h
      · rename_i file hfile
        have hpush : ∀ h', X.sha256 file = h' →
            ∀ a ∈ acc.1 ++ [⟨segId, h', file.length⟩], a.Describes X s.disk.fs := by
          rintro h' rfl a ha
          rcases mem_append.mp ha with ha | ha
          · exact hacc a ha
          · rw [mem_singleton.mp ha]
            exact ⟨file, hfile, rfl, rfl⟩
        split
        · rename_i h' hsha
          have hhash := hsegments (segId, stats) mem_cons_self h' hsha
          rw [hfile, Option.map_some, Option.some.injEq] at hhash
          exact ih h hrest (hpush h' hhash)
        · refine Yields.modify_bind (ih (h.withMeta ((h.inMemory.without _).setHash fun _ => ?_))
            hrest (hpush _ rfl))
          rw [hfile, Option.map_some]
    · exact ih h hrest hacc

theorem yields_backupSegments (h : s.Hashed X) :
    Yields (backupSegments X) s
      (fun out t => t.Hashed X ∧ ∀ a ∈ out, a.Describes X s.disk.fs)
      (Hashed X) (·.disk.Hashed X) := by
  refine Yields.state_bind (Yields.bind (yields_backupLoop h ?_ fun _ ha => by cases ha) ?_)
  · rintro ⟨segId, stats⟩ hmem h' hsha
    refine h.inMemory segId h' ?_
    rw [hashOf, Std.ExtTreeMap.mem_toList_iff_getElem?_eq_some.mp hmem]
    exact hsha
  · rintro out t ⟨ht, -, hout⟩
    split
    · exact Yields.durable_bind ht.inMemory (Yields.pure ⟨ht.save, hout⟩)
    · exact Yields.pure ⟨ht, hout⟩

end Engine

/-! ### Opening -/

theorem hashOf_discover (ids : List Nat) (m : GlobalMeta) (id : Nat) :
    (discover ids m).hashOf id = m.hashOf id := by
  rw [hashOf, getElem?_discover, hashOf]
  split
  · cases m.segments[id]? <;> rfl
  · rfl

theorem hashOf_resetStats (m : GlobalMeta) (id : Nat) : m.resetStats.hashOf id = m.hashOf id := by
  rw [hashOf, resetStats, hashOf]
  rw [Std.ExtTreeMap.getElem?_map]
  cases m.segments[id]? <;> rfl

theorem Disk.hashOf_scanMeta (d : Disk) (id : Nat) :
    d.scanMeta.hashOf id = d.savedMeta.hashOf id := by
  rw [Disk.scanMeta]
  split
  · exact hashOf_discover _ _ id
  · exact (hashOf_resetStats _ id).trans (hashOf_discover _ _ id)

theorem Disk.le_active_scanMeta (d : Disk) (h : d.fs.read? (.seg id) ≠ none) :
    id ≤ d.scanMeta.activeSegmentId := by
  have hle := le_active_discover (diskSegments_sorted d.fs) (d.metaBin.getD .new)
    (mem_diskSegments.mpr h)
  rw [Disk.scanMeta]
  split
  · exact hle
  · exact hle

section

variable (h : d.Hashed X) (hw : d.HashedWhole X)

include hw

/-- A file that has a hash is not cut. -/
theorem trimmed_scanned (hid : d.savedMeta.hashOf id ≠ none) :
    trimmed (d.scanned X) d.fs id = d.fs.read? (.seg id) := by
  cases hfile : d.fs.read? (.seg id) with
  | none => rw [trimmed, hfile, Option.map_none]
  | some file =>
    have hle : file.length ≤ (d.scanned X id).length := by
      rw [Disk.scanned]
      split
      next scan hscan =>
        by_contra hlt
        rw [scanOf, hfile, Option.getD_some] at hscan
        obtain ⟨visited, hscans⟩ := scans_of_scanSegment hscan
        have hentries := hscans.scan
        have hstart := (scanEntries_take (scanStart_le ..) hentries).1
        rw [scanStart_scanMeta] at hentries hstart
        exact hlt (hw id file hid hfile _ (congrArg Scan.outcome hentries) (by omega))
      next => rw [hfile, Option.getD_some]
    rw [trimmed, hfile, Option.map_some, take_of_length_le hle]

include h

theorem openedFile_scanned (hid : d.savedMeta.hashOf id ≠ none) :
    openedFile (d.scanned X) d id = trimmed (d.scanned X) d.fs id := by
  rw [openedFile]
  split
  · obtain ⟨file, hfile⟩ := Option.ne_none_iff_exists'.mp (GlobalMeta.Matches.read_ne_none h hid)
    rw [trimmed_scanned hw hid, hfile, Option.getD_some]
  · rfl

/-- The scans keep the hashes. -/
theorem Updated.matches (hm : Updated (d.scanned X) (diskSegments d.fs) d.scanMeta m)
    (hread : ∀ id, d.savedMeta.hashOf id ≠ none →
      fs.read? (.seg id) = trimmed (d.scanned X) d.fs id) : m.Matches X fs := by
  intro id h' hid
  have hsaved : d.savedMeta.hashOf id = some h' := by
    rw [← d.hashOf_scanMeta, hashOf]
    by_cases hmem : id ∈ diskSegments d.fs
    · rw [hashOf, hm.scanned id hmem, Option.bind_some, Disk.scanned] at hid
      split at hid
      next scan hscan =>
        obtain ⟨visited, hscans⟩ := scans_of_scanSegment hscan
        rw [hscans.sha256] at hid
        cases hst : d.scanMeta.segments[id]? with
        | none =>
          rw [hst] at hid
          cases hid
        | some st => rwa [hst] at hid
      next => cases hid
    · rwa [hashOf, hm.kept id hmem] at hid
  have hne : d.savedMeta.hashOf id ≠ none := by simp [hsaved]
  rw [hread id hne, trimmed_scanned hw hne]
  exact h id h' hsaved

theorem Stage.hashed (hst : Stage (d.scanned X) d c) : c.Hashed X := by
  cases hst with
  | scanning hindex hbin hfiles =>
    rw [Disk.Hashed, Disk.savedMeta, hbin]
    refine GlobalMeta.Matches.withFs h fun id hid => ?_
    rcases hfiles id with heq | heq
    · exact heq
    · exact heq.trans (trimmed_scanned hw hid)
  | saved m hbin hupdated hindex hfiles =>
    rw [Disk.Hashed, Disk.savedMeta, hbin]
    exact hupdated.matches h hw fun id _ => hfiles id
  | inserted m hbin hupdated hindex hfiles =>
    rw [Disk.Hashed, Disk.savedMeta, hbin]
    refine hupdated.matches h hw fun id hid => ?_
    rcases hfiles with hfiles | hfiles
    · exact hfiles id
    · exact (hfiles id).trans (openedFile_scanned h hw hid)

theorem hashed_openStore (config : Config) :
    Yields (openStore X config) d (fun out c => (Engine.opened c out).Hashed X)
      (Disk.Hashed X) (Disk.Hashed X) := by
  refine (yields_openStore config fun _ _ _ hf => d.scanned_of_ok hf).mono ?_ ?_
    fun c hc => hc.hashed h hw
  · rintro out c ⟨-, hopens⟩
    have hm : out.1.Matches X c.fs := hopens.updated.matches h hw fun id hid =>
      (hopens.files id).trans (openedFile_scanned h hw hid)
    refine ⟨hm, ?_, fun id hne => ?_⟩
    · change (c.metaBin.getD .new).Matches X c.fs
      rw [hopens.bin]
      exact hm
    · change id ≤ out.2.id
      rw [hopens.writer.id_eq, hopens.updated.active]
      by_cases hactive : id = d.scanMeta.activeSegmentId
      · exact hactive.le
      · refine d.le_active_scanMeta fun hnone => hne ?_
        change c.fs.read? (.seg id) = none
        rw [hopens.files, openedFile, if_neg hactive, trimmed, hnone, Option.map_none]
  · rintro c ⟨-, rfl | hc⟩
    · exact h
    · exact hc.hashed h hw

end

/-! ## Every run -/

theorem Status.Hashed.after {st st' : Status} {e : FaultStep} (h : st.Hashed X)
    (hspares : SparesHashes X config st e) (hafter : st.after X config e = some st') :
    st'.Hashed X := by
  cases st with
  | running s =>
    have hop := fun (op : Op) (faults : Nat → Option SealFault) ha =>
      yields_runWith h op ha config faults
    cases e with
    | act op faults =>
      cases hafter
      exact (hop op faults hspares).final fun _ _ ht => ht
    | crash op faults steps =>
      cases hafter
      exact (hop op faults hspares).crashPoint h.onDisk steps
    | gc timestamp =>
      cases hafter
      exact (yields_gc h config timestamp).final fun _ _ ht => ht
    | gcCrash timestamp steps =>
      cases hafter
      exact hashed_gcCrash h hspares
    | backup =>
      cases hafter
      exact (yields_backupSegments h).final fun _ _ ht => ht.1
    | backupCrash steps =>
      cases hafter
      exact (yields_backupSegments h).crashPoint h.onDisk steps
    | close =>
      cases hafter
      exact h.onDisk
    | openStore | openCrash => cases hafter
  | stopped d =>
    cases e with
    | openStore =>
      have hopen := hashed_openStore h hspares config
      rw [Status.after, Status.next] at hafter
      split at hafter
      · rename_i out hresult
        cases hafter
        exact hopen.1 out hresult
      · rename_i err hresult
        cases hafter
        exact hopen.2.1 err hresult
    | openCrash steps =>
      cases hafter
      exact (hashed_openStore h hspares config).crashPoint h steps
    | _ => cases hafter

end

/-- Every sealed segment with a recorded hash has a file with that hash. -/
def Status.SealedMatch (X : Extern) (st : Status) : Prop :=
  ∀ id stats h, st.globalMeta.segments[id]? = some stats → stats.sealed = true →
    stats.sha256 = some h → (st.fs.read? (.seg id)).map X.sha256 = some h

/-- In every run that meets the condition the recorded hashes are those of the files,
and so are the hashes of the artifacts of a backup. -/
theorem hashes_match {X : Extern} {config : Config} {events : List FaultStep} {st : Status}
    (hspares : Along (Status.after X config) (SparesHashes X config) (.stopped Disk.empty) events)
    (hrun : runFrom (Status.after X config) (.stopped Disk.empty) events = some st) :
    st.SealedMatch X ∧
      ∀ s, st = .running s → ∀ artifacts, (Engine.backupSegments X s).result = .ok artifacts →
        ∀ a ∈ artifacts, a.Describes X s.disk.fs := by
  have hempty : (stopped Disk.empty).Hashed X := by
    intro id h hid
    cases hid
  have hst : st.Hashed X :=
    hspares.invariant (I := Status.Hashed X)
      (fun h hguard hafter => Status.Hashed.after h hguard hafter) hempty hrun
  refine ⟨fun id stats h hstats _ hsha => ?_, ?_⟩
  · have hhash : st.globalMeta.hashOf id = some h := by
      rw [hashOf, hstats]
      exact hsha
    cases st with
    | running s => exact hst.inMemory id h hhash
    | stopped d => exact hst id h hhash
  · rintro s rfl artifacts hresult
    exact ((yields_backupSegments hst).1 artifacts hresult).2

theorem Engine.AppendsUnhashed.of_writer {s : Engine}
    (hfile : s.disk.fs.inode? (.seg s.activeWriter.id) = some s.activeWriter.file)
    (hmem : s.globalMeta.hashOf s.activeWriter.id = none)
    (hdisk : s.disk.savedMeta.hashOf s.activeWriter.id = none) : s.AppendsUnhashed := by
  intro id hi
  have hid := inode?_inj hi hfile
  cases hid
  exact ⟨hmem, hdisk⟩

/-- A run with a seal that fails after it has recorded the hash. -/
theorem hashes_match_failed_seal :
    ∃ st, runFrom (Status.after reference quarterConfig) (.stopped Disk.empty)
        [.openStore, .act (.put (Key.fill 1) [1] .none) noFaults,
         .act .sealActiveSegment fun _ => some .createNext] = some st ∧
      (st.globalMeta.hashOf 1).isSome = true ∧ st.SealedMatch reference := by
  obtain ⟨st₀, hst₀, s, hs, hfile, hmem, hdisk⟩ :
      ∃ st ∈ (stopped Disk.empty).after reference quarterConfig .openStore, ∃ s ∈ st.engine?,
        s.disk.fs.inode? (.seg s.activeWriter.id) = some s.activeWriter.file ∧
        s.globalMeta.hashOf s.activeWriter.id = none ∧
        s.disk.savedMeta.hashOf s.activeWriter.id = none := by
    decide +kernel
  obtain ⟨st, hst, hsome⟩ : ∃ st ∈ runFrom (after reference quarterConfig) (.stopped Disk.empty)
      [.openStore, .act (.put (Key.fill 1) [1] .none) noFaults,
       .act .sealActiveSegment fun _ => some .createNext],
      (st.globalMeta.hashOf 1).isSome = true := by
    decide +kernel
  refine ⟨st, hst, hsome, (hashes_match ?_ hst).1⟩
  refine ⟨fun id file hne => absurd rfl hne, fun st₁ hst₁ => ⟨?_, fun st₂ _ => ⟨?_, ?_⟩⟩⟩
  · cases hst₀.symm.trans hst₁
    cases st₀ with
    | stopped d => trivial
    | running s =>
      cases hs
      exact fun _ => .of_writer hfile hmem hdisk
  · cases st₂ with
    | stopped d => trivial
    | running s => exact fun hop => hop.elim
  · exact fun _ _ => trivial

/-- The segment is sealed and its recorded hash is not that of its file. -/
def Status.stale (X : Extern) (id : Nat) (st : Status) : Bool :=
  match st.globalMeta.segments[id]? with
  | none => false
  | some stats =>
    stats.sealed && stats.sha256.isSome && stats.sha256 != (st.fs.read? (.seg id)).map X.sha256

theorem Status.not_sealedMatch_of_stale {X : Extern} {st : Status} {id : Nat}
    (h : st.stale X id = true) : ¬ st.SealedMatch X := by
  intro hmatch
  unfold stale at h
  split at h
  · cases h
  · rename_i stats hstats
    simp only [Bool.and_eq_true, bne_iff_ne] at h
    obtain ⟨hash, hhash⟩ := Option.isSome_iff_exists.mp h.1.2
    exact h.2 (hhash.trans (hmatch id stats hash hstats h.1.1 hhash).symm)

/-- The three ways to a hash that is not that of the file: an entry is appended after
a seal that could not create the next segment; a compaction is cut short after the
rename; an open cuts a segment that a compaction has recorded as indexed up to a place
inside an entry. -/
theorem hashes_mismatch :
    (∃ st, runFrom (Status.after reference quarterConfig) (.stopped Disk.empty)
        [.openStore, .act (.put (Key.fill 1) [1] .none) noFaults,
         .act .sealActiveSegment (fun _ => some .createNext),
         .act (.put (Key.fill 2) [2] .none) noFaults] = some st ∧ ¬ st.SealedMatch reference) ∧
      (∃ st, runFrom (Status.after reference quarterConfig) (.stopped Disk.empty)
        [.openStore, .act (.put (Key.fill 1) [1] .none) noFaults,
         .act (.put (Key.fill 2) [2] .none) noFaults, .act (.delete (Key.fill 1)) noFaults,
         .act .sealActiveSegment noFaults, .gcCrash 7 3, .openStore] = some st ∧
        ¬ st.SealedMatch reference) ∧
      ∃ st, runFrom (Status.after reference quarterConfig) (.stopped Disk.empty)
        [.openStore, .act (.put (Key.fill 1) [1] .none) noFaults,
         .act (.put (Key.fill 2) [2] .none) noFaults, .act (.delete (Key.fill 1)) noFaults,
         .act .sealActiveSegment noFaults, .gc 7, .close, .openStore] = some st ∧
        ¬ st.SealedMatch reference := by
  have hstale : ∀ {o : Option Status}, (∃ st ∈ o, st.stale reference 1 = true) →
      ∃ st, o = some st ∧ ¬ st.SealedMatch reference := fun ⟨st, hst, hs⟩ =>
    ⟨st, hst, not_sealedMatch_of_stale hs⟩
  exact ⟨hstale (by decide +kernel), hstale (by decide +kernel), hstale (by decide +kernel)⟩

end Bichon.Blob
