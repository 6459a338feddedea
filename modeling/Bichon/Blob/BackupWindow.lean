import Bichon.Blob.GetRace
import Bichon.Blob.Hashes

/-!
# The backup window and the compaction thread

`prepare_for_backup` sets the pause flag, seals the active segment and flushes. The
compaction thread looks at the flag once, at the start of a pass, and then seals,
prepares, waits for the write mutex and commits. `Window.next` lets the two run step by
step.

A pass that has begun before the flag was set goes on after `prepare_for_backup` has
returned. `backup_window_stable`: if no such pass still has a file to rename or to
remove when it returns, no segment file changes until the pause ends.
-/

namespace Bichon.Blob

open ByteFile LastWrite Durable Transition Engine Keeps Prog

namespace Engine

/-- Seal the active segment if enough of it is garbage. -/
def ensureSealed (X : Extern) (config : Config) (fault : Option SealFault) : EngineM Unit := do
  let s ← Prog.state
  match s.globalMeta.segments[s.activeWriter.id]? with
  | none => pure ()
  | some stats =>
    if config.gcDeletedRatio ≤ stats.deletedRatio then sealActive X fault else pure ()

def needsGc (config : Config) (s : Engine) : Bool := s.globalMeta.segments.toList.any fun p =>
    p.2.sealed && decide (config.gcDeletedRatio ≤ p.2.deletedRatio)

def gcIfNeeded (X : Extern) (config : Config) (timestamp : Nat) : EngineM (Option GcStats) := do
  let s ← Prog.state
  if needsGc config s then gc X config timestamp else pure none

end Engine

/-! ## The two threads -/

inductive GcThread where
  | idle
  | sealing
  | checking
  | preparing
  | locking (prep : GcPrepare)
  | committing (prep : GcPrepare) (pc : GcPc)

/-- The second phase runs under the write mutex. -/
def GcThread.holdsMutex : GcThread → Bool
  | committing .. => true
  | _ => false

/-- Where the backup is. An open window remembers the files it was opened with. -/
inductive BackupPc where
  | start
  | sealing
  | flushing
  | syncing
  | window (files : FileSystem FileName)
  | failed

def BackupPc.files? : BackupPc → Option (FileSystem FileName)
  | window files => some files
  | _ => none

/-- The next step of `prepare_for_backup` is its last one. -/
def BackupPc.returning : BackupPc → Bool
  | syncing => true
  | _ => false

structure Window where
  engine : Engine
  gcPaused : Bool
  gcThread : GcThread
  backup : BackupPc

inductive WindowStep where
  /-- the compaction thread; the fault is that of a seal -/
  | gc (timestamp : Nat) (fault : Option SealFault)
  | prepare (fault : Option SealFault)
  | backupSegments
  /-- `set_gc_paused(false)` -/
  | resume

def Window.stepGc (X : Extern) (config : Config) (timestamp : Nat) (fault : Option SealFault)
    (w : Window) : Option Window :=
  match w.gcThread with
  | .idle => some (if w.gcPaused then w else { w with gcThread := .sealing })
  | .sealing =>
    -- a failed seal is logged, and the pass goes on
    some { w with
      engine := (Engine.ensureSealed X config fault w.engine).state, gcThread := .checking }
  | .checking =>
    some { w with
      gcThread := if Engine.needsGc config w.engine then .preparing else .idle }
  | .preparing =>
    let out := Engine.gcPrepare X config timestamp w.engine
    match out.result with
    | .ok (some prep) => some { w with engine := out.state, gcThread := .locking prep }
    | _ => some { w with engine := out.state, gcThread := .idle }
  | .locking prep => some { w with gcThread := .committing prep .finish }
  | .committing prep pc =>
    match Blob.stepGc prep false w.engine pc with
    | none => some { w with gcThread := .idle }
    | some out => some { w with engine := out.1, gcThread := .committing prep out.2 }

def Window.stepPrepare (X : Extern) (fault : Option SealFault) (w : Window) : Option Window :=
  match w.backup with
  | .start => some { w with gcPaused := true, backup := .sealing }
  | .sealing =>
    if w.gcThread.holdsMutex then
      none
    else
      let out := Engine.sealActiveSegment X fault w.engine
      match out.result with
      | .ok _ => some { w with engine := out.state, backup := .flushing }
      | .error _ => some { w with engine := out.state, backup := .failed }
  | .flushing =>
    if w.gcThread.holdsMutex then
      none
    else
      some { w with engine := (Engine.flushActive w.engine).state, backup := .syncing }
  | .syncing => some { w with backup := .window w.engine.disk.fs }
  | .window _ | .failed => none

def Window.next (X : Extern) (config : Config) (w : Window) : WindowStep → Option Window
  | .gc timestamp fault => w.stepGc X config timestamp fault
  | .prepare fault => w.stepPrepare X fault
  | .backupSegments =>
    match w.backup with
    | .window _ =>
      if w.gcThread.holdsMutex then
        none
      else
        some { w with engine := (Engine.backupSegments X w.engine).state }
    | _ => none
  | .resume =>
    match w.backup with
    | .window _ | .failed => some { w with gcPaused := false, backup := .start }
    | _ => none

/-! ## One thread alone -/

theorem gcFinish_state_of_error {prep : GcPrepare} {s : Engine} {err : Error}
    (h : (Engine.gcFinish prep s).result = .error err) : (Engine.gcFinish prep s).state = s := by
  rw [gcFinish, state_bind] at h ⊢
  cases hi : s.disk.fs.inode? (.temp prep.tempStamp) with
  | none => rfl
  | some i =>
    rw [hi] at h
    cases h

/-- A pass that nobody interrupts seals and compacts as `ensureSealed` and `gcIfNeeded`
say. -/
theorem window_gc_alone (X : Extern) (config : Config) (timestamp : Nat)
    (fault : Option SealFault) (s : Engine) :
    ∃ n, runFrom (Window.next X config) ⟨s, false, .idle, .start⟩
        (List.replicate n (.gc timestamp fault)) =
      some ⟨(Engine.gcIfNeeded X config timestamp
        (Engine.ensureSealed X config fault s).state).state,
        false, .idle, .start⟩ := by
  generalize ht : (ensureSealed X config fault s).state = t
  cases hneeds : needsGc config t with
  | false =>
    have hpass : (gcIfNeeded X config timestamp t).state = t := by
      rw [gcIfNeeded, state_bind, hneeds]
      rfl
    refine ⟨3, ?_⟩
    simp [runFrom, List.replicate, Window.next, Window.stepGc, ht, hneeds, hpass]
  | true =>
    have hpass : gcIfNeeded X config timestamp t = gc X config timestamp t := by
      rw [gcIfNeeded, state_bind, hneeds]
      rfl
    rw [hpass, gc]
    cases hprep : (gcPrepare X config timestamp t).result with
    | error err =>
      rw [bind_of_error hprep]
      refine ⟨4, ?_⟩
      simp [runFrom, List.replicate, Window.next, Window.stepGc, ht, hneeds, hprep]
    | ok out =>
      rw [bind_of_ok hprep]
      cases out with
      | none =>
        refine ⟨4, ?_⟩
        simp [runFrom, List.replicate, Window.next, Window.stepGc, ht, hneeds, hprep,
          pure_apply]
      | some prep =>
        dsimp only
        generalize hu : (gcPrepare X config timestamp t).state = u
        cases hfinish : (gcFinish prep u).result with
        | error err =>
          have hcommit : (gcCommit prep u).result = .error err := by
            rw [gcCommit, bind_of_error hfinish]
          have hstate : (gcCommit prep u).state = u := by
            rw [gcCommit, bind_of_error hfinish]
            exact gcFinish_state_of_error hfinish
          rw [bind_of_error hcommit, hstate]
          refine ⟨7, ?_⟩
          simp [runFrom, List.replicate, Window.next, Window.stepGc, stepGc, ht, hneeds,
            hprep, hu, hfinish]
        | ok _ =>
          obtain ⟨⟨stats, hcommit⟩, hstate⟩ := gcCommit_of_finish hfinish
          rw [bind_of_ok hcommit, pure_apply, hstate, gcUpdateMeta_eq]
          refine ⟨if prep.bytesAfter = 0 then 12 else 11, ?_⟩
          split_ifs with hzero <;>
            simp [runFrom, List.replicate, Window.next, Window.stepGc, stepGc, ht, hneeds, hprep,
              hu, hfinish, hzero]

/-! ## What holds in the window -/

/-- The thread has no file to rename or to remove. -/
def GcThread.AtRest : GcThread → Prop
  | idle => True
  | committing prep pc => pc.renamed = true ∧ pc ≠ .removeFile ∧ prep.bytesAfter ≠ 0
  | _ => False

instance : DecidablePred GcThread.AtRest
  | .idle => isTrue trivial
  | .committing _ _ => inferInstanceAs (Decidable (_ = _ ∧ _ ≠ _ ∧ _ ≠ _))
  | .sealing | .checking | .preparing | .locking _ => isFalse id

/-- The condition on a step: the compaction thread is at rest when
`prepare_for_backup` returns. -/
def ReturnsAtRest (w : Window) : WindowStep → Prop
  | .prepare _ => w.backup.returning = true → w.gcThread.AtRest
  | _ => True

instance (w : Window) : DecidablePred (ReturnsAtRest w)
  | .prepare _ => inferInstanceAs (Decidable (w.backup.returning = true → w.gcThread.AtRest))
  | .gc .. | .backupSegments | .resume => isTrue trivial

def Window.Inv (w : Window) : Prop :=
  match w.backup with
  | .start => True
  | .window files => w.gcPaused = true ∧ w.gcThread.AtRest ∧ w.engine.disk.fs = files
  | _ => w.gcPaused = true

section

variable {X : Extern} {config : Config} {w w' : Window} {s : Engine} {prep : GcPrepare}

theorem stepGc_of_atRest {pc pc' : GcPc} {t : Engine} (h : (GcThread.committing prep pc).AtRest)
    (hstep : stepGc prep false s pc = some (t, pc')) :
    t.disk.fs = s.disk.fs ∧ (GcThread.committing prep pc').AtRest := by
  obtain ⟨hrenamed, hremove, hdata⟩ := h
  cases pc with
  | finish => cases hrenamed
  | removeFile => exact absurd rfl hremove
  | done => cases hstep
  | invalidate =>
    cases hstep
    exact ⟨rfl, rfl, by simp, hdata⟩
  | insertKept =>
    rw [stepGc, gcInsertKept_state] at hstep
    cases hstep
    exact ⟨rfl, rfl, by simp, hdata⟩
  | deleteKeys =>
    cases hstep
    refine ⟨?_, rfl, by simp, hdata⟩
    rw [gcDeleteKeys]
    split <;> rfl
  | updateMeta =>
    obtain ⟨m, hstate⟩ := gcSaveMeta_state prep s
    rw [stepGc, hstate, if_neg Bool.false_ne_true, if_neg hdata] at hstep
    cases hstep
    exact ⟨rfl, rfl, by simp, hdata⟩

theorem Window.fs_stepGc_of_atRest {timestamp : Nat} {fault : Option SealFault}
    (h : w.gcThread.AtRest) (hpaused : w.gcPaused = true)
    (hstep : w.stepGc X config timestamp fault = some w') :
    w'.engine.disk.fs = w.engine.disk.fs ∧ w'.gcThread.AtRest ∧ w'.gcPaused = true ∧
      w'.backup = w.backup := by
  unfold Window.stepGc at hstep
  cases hthread : w.gcThread with
  | idle =>
    rw [hthread] at hstep
    rw [if_pos hpaused] at hstep
    cases hstep
    exact ⟨rfl, h, hpaused, rfl⟩
  | committing prep pc =>
    rw [hthread] at hstep h
    dsimp only at hstep
    split at hstep
    · cases hstep
      exact ⟨rfl, trivial, hpaused, rfl⟩
    · rename_i out hout
      cases hstep
      obtain ⟨hfs, hrest⟩ := stepGc_of_atRest h hout
      exact ⟨hfs, hrest, hpaused, rfl⟩
  | sealing | checking | preparing | locking =>
    rw [hthread] at h
    exact h.elim

theorem Window.stepGc_frame {timestamp : Nat} {fault : Option SealFault}
    (hstep : w.stepGc X config timestamp fault = some w') :
    w'.gcPaused = w.gcPaused ∧ w'.backup = w.backup := by
  unfold Window.stepGc at hstep
  cases hthread : w.gcThread with
  | idle =>
    simp only [hthread] at hstep
    split at hstep <;> cases hstep <;> exact ⟨rfl, rfl⟩
  | preparing | committing =>
    simp only [hthread] at hstep
    split at hstep <;> cases hstep <;> exact ⟨rfl, rfl⟩
  | sealing | checking | locking =>
    simp only [hthread] at hstep
    cases hstep
    exact ⟨rfl, rfl⟩

theorem fs_backupSegments (X : Extern) (s : Engine) :
    (Engine.backupSegments X s).state.disk.fs = s.disk.fs := by
  let I : Engine → Prop := fun t => t.disk.fs = s.disk.fs
  have hloop : ∀ segments acc, Keeps I I (fun _ => True) (backupLoop X segments acc) := by
    intro segments
    induction segments with
    | nil => exact fun acc => pure acc
    | cons p segments ih =>
      intro acc
      rw [backupLoop]
      split
      · refine bind state fun t => ?_
        split
        · exact fail (fun h => h) _
        · split
          · exact ih _
          · exact bind (modify fun h => h) fun _ => ih _
      · exact ih _
  have hkeeps : Keeps I I (fun _ => True) (backupSegments X) := by
    refine bind state fun t => bind (hloop _ _) fun out => ?_
    split
    · exact bind (durable fun h => ⟨h, trivial⟩) fun _ => pure _
    · exact pure _
  exact hkeeps.final (I := I) rfl

theorem Window.Inv.next {step : WindowStep} (h : w.Inv) (hguard : ReturnsAtRest w step)
    (hnext : w.next X config step = some w') : w'.Inv := by
  cases step with
  | gc timestamp fault =>
    unfold Window.Inv at h ⊢
    obtain ⟨hpaused, hbackup⟩ := Window.stepGc_frame hnext
    rw [hbackup]
    cases hb : w.backup with
    | start => trivial
    | window files =>
      rw [hb] at h
      obtain ⟨hp, hrest, hfs⟩ := h
      obtain ⟨hfs', hrest', hp', -⟩ := Window.fs_stepGc_of_atRest hrest hp hnext
      exact ⟨hp', hrest', hfs'.trans hfs⟩
    | sealing | flushing | syncing | failed =>
      rw [hb] at h
      exact hpaused.trans h
  | prepare fault =>
    rw [Window.next, Window.stepPrepare] at hnext
    unfold Window.Inv at h
    cases hb : w.backup with
    | start =>
      rw [hb] at hnext
      cases hnext
      exact rfl
    | sealing =>
      rw [hb] at hnext h
      dsimp only at hnext
      split at hnext
      · cases hnext
      · split at hnext
        · cases hnext
          exact h
        · cases hnext
          exact h
    | flushing =>
      rw [hb] at hnext h
      dsimp only at hnext
      split at hnext
      · cases hnext
      · cases hnext
        exact h
    | syncing =>
      rw [ReturnsAtRest, hb] at hguard
      rw [hb] at hnext h
      cases hnext
      exact ⟨h, hguard rfl, rfl⟩
    | window | failed =>
      rw [hb] at hnext
      cases hnext
  | backupSegments =>
    rw [Window.next] at hnext
    split at hnext
    · rename_i files hb
      split at hnext
      · cases hnext
      · cases hnext
        unfold Window.Inv at h ⊢
        rw [hb] at h
        rw [hb]
        exact ⟨h.1, h.2.1, (fs_backupSegments X w.engine).trans h.2.2⟩
    · cases hnext
  | resume =>
    rw [Window.next] at hnext
    split at hnext
    · cases hnext
      trivial
    · cases hnext
      trivial
    · cases hnext

end

/-- In every run in which the compaction thread is at rest when `prepare_for_backup`
returns, the files stay as they were at that moment until the pause ends. -/
theorem backup_window_stable {X : Extern} {config : Config} {s : Engine} {gcThread : GcThread}
    {steps : List WindowStep} {w : Window}
    (hguard : Along (Window.next X config) ReturnsAtRest ⟨s, false, gcThread, .start⟩ steps)
    (hrun : runFrom (Window.next X config) ⟨s, false, gcThread, .start⟩ steps = some w)
    {files : FileSystem FileName} (hw : w.backup = .window files) :
    w.engine.disk.fs = files := by
  have hstart : (Window.mk s false gcThread .start).Inv := trivial
  have hinv : w.Inv :=
    hguard.invariant (I := Window.Inv) (fun h hg hnext => h.next hg hnext) hstart hrun
  unfold Window.Inv at hinv
  rw [hw] at hinv
  exact hinv.2.2

/-- A pass of the compaction thread that ends before the backup begins. -/
def restingSteps : List WindowStep :=
  List.replicate 11 (.gc 7 none) ++ List.replicate 4 (.prepare none) ++
    [.gc 8 none, .backupSegments, .gc 8 none]

theorem backup_window_stable_after_pass :
    ∃ s w files, engineAfter reference quarterConfig keepingSteps = some s ∧
      runFrom (Window.next reference quarterConfig) ⟨s, false, .idle, .start⟩ restingSteps =
        some w ∧
      w.backup = .window files ∧ w.engine.disk.fs = files := by
  obtain ⟨s, hs, hguard, w, hw, files, hwindow, -⟩ :
      ∃ s ∈ engineAfter reference quarterConfig keepingSteps,
        Along (Window.next reference quarterConfig) ReturnsAtRest ⟨s, false, .idle, .start⟩
          restingSteps ∧
        ∃ w ∈ runFrom (Window.next reference quarterConfig) ⟨s, false, .idle, .start⟩ restingSteps,
          ∃ files ∈ w.backup.files?, True := by
    decide +kernel
  have hopen : w.backup = .window files := by
    cases hb : w.backup with
    | window files' =>
      rw [hb] at hwindow
      cases hwindow
      rfl
    | _ =>
      rw [hb] at hwindow
      cases hwindow
  exact ⟨s, w, files, hs, hw, hopen, backup_window_stable hguard hw hopen⟩

/-- The thread has prepared the new file when the flag is set. It waits for the mutex
while `prepare_for_backup` seals and flushes, and renames after it has returned: the
file of segment 1, which the backup lists, is replaced in the open window. -/
theorem backup_window_renamed : ((engineAfter reference quarterConfig keepingSteps).bind fun s =>
      runFrom (Window.next reference quarterConfig) ⟨s, false, .idle, .start⟩
        (List.replicate 4 (.gc 7 none) ++ List.replicate 4 (.prepare none) ++
          List.replicate 2 (.gc 7 none))).map (fun w =>
        (w.gcPaused,
          (w.backup.files?.bind fun files => files.read? (.seg 1)).map List.length,
          (w.engine.disk.fs.read? (.seg 1)).map List.length,
          (Engine.backupSegments reference w.engine).result.toOption.map fun artifacts =>
            artifacts.map SegmentArtifact.segmentId)) =
      some (true, some 152, some 51, some [1]) := by
  decide +kernel

end Bichon.Blob
