import Bichon.MemDb.Recovery

/-!
# One snapshot worker, and several calls of `snapshot`

With a single worker the temporary file is its own and no other call can have
renamed a newer one, so what `Ordered` asks for holds on its own, and every crash
leaves a directory from which a prefix of the commits is recovered. With several
calls it has to be asked for: all of them share one temporary file, and the check
before the log is emptied knows nothing of a rename that another call has yet to do.
-/

namespace Bichon.MemDb

open ByteFile Lines Transition Journal Option

variable {V ι : Type} {json : Json V}

/-- Whichever `Durability` the directory is opened with, `open` recovers a prefix of
the commits, and every entry that was written to the log is part of it. -/
def RecoversPrefix (json : Json V) (s : Db V ι) : Prop :=
  ∃ n ≤ s.ghost.history.length, (∀ q ∈ s.ghost.written, q ≤ n) ∧
    ∀ d, openWith json s.files s.wal d = .ok ⟨n, dataAt s.ghost.history n, d, []⟩

theorem Sound.recoversPrefix {s : Db V ι} (hs : Sound json s) : RecoversPrefix json s := by
  obtain ⟨S, w, E, hcov, -⟩ := hs
  exact ⟨max S w, Nat.max_le.mpr ⟨hcov.snapshot_le, hcov.le_length⟩,
    fun q hq => (hcov.written_le q hq).trans (Nat.le_max_right S w), hcov.openWith⟩

def Alone (json : Json V) (files : FileSystem SnapName) : SnapCall → Prop
  | .serialized _ n => ∀ snapshot ∈ (readSnapshot json files).toOption, snapshot.lastSeq ≤ n
  | .created _ n inode => (files.inode? .tmp = some inode ∧ files.data inode = []) ∧
      ∀ snapshot ∈ (readSnapshot json files).toOption, snapshot.lastSeq ≤ n
  | .saved bytes n => files.read? .tmp = some bytes ∧
      ∀ snapshot ∈ (readSnapshot json files).toOption, snapshot.lastSeq ≤ n
  | .idle | .flushing | .flushed | .renamed _ => True

def AllAlone (json : Json V) (s : Db V ι) : Prop :=
  ∀ p ∈ s.proc, ∀ i, Alone json s.files (p.calls i)

namespace Db

variable {s t : Db V ι} {p : Proc V ι}

theorem AllAlone.ordered (h : AllAlone json s) (l : DbStep V ι) : Ordered json s l := by
  cases l with
  | writeTmp i =>
    intro p hp
    have := h p hp i
    revert this
    cases p.calls i with
    | created bytes n inode => exact fun h => h.1.1
    | _ => exact fun _ => trivial
  | rename i =>
    intro p hp
    have := h p hp i
    revert this
    cases p.calls i with
    | saved bytes n => exact fun h => h
    | _ => exact fun _ => trivial
  | _ => trivial

variable [DecidableEq ι]

theorem allAlone_setCall [Subsingleton ι] {files : FileSystem SnapName} {wal : Bytes} {i : ι}
    {pc : SnapCall} (h : Alone json files pc) :
    AllAlone json (⟨files, wal, setCall p i pc, s.ghost⟩ : Db V ι) := by
  rintro _ ⟨⟩ j
  change Alone json files (Function.update p.calls i pc j)
  rw [Subsingleton.elim j i, Function.update_self]
  exact h

theorem allAlone_next [Subsingleton ι] {l : DbStep V ι} (hs : Sound json s)
    (halone : AllAlone json s) (hassumed : Assumed json s l) (h : s.next json l = some t) :
    AllAlone json t := by
  cases hproc : s.proc with
  | none =>
    cases l with
    | openWith d =>
      simp only [next, hproc, some.injEq] at h
      subst h
      obtain ⟨S, w, E, hcov, -⟩ := hs
      rw [reopen, hcov.openWith, hcov.replayed]
      rintro _ ⟨⟩ i
      trivial
    | _ => simp [next, hproc] at h
  | some p =>
    have hp := halone p hproc
    have hcall : ∀ {i pc}, p.calls i = pc → Alone json s.files pc := fun hi => hi ▸ hp _
    simp only [next, hproc] at h
    cases l with
    | openWith d => cases h
    | crash =>
      cases h
      rintro _ ⟨⟩
    | write r =>
      dsimp only [write] at h
      split at h
      · cases h
      · split at h <;> cases h
        · exact halone
        · exact halone
        · rintro _ ⟨⟩
          exact hp
    | flush =>
      dsimp only [flush] at h
      split at h
      · cases h
      · split at h <;> cases h
        · exact halone
        · rintro _ ⟨⟩
          exact hp
    | appendLine =>
      dsimp only [appendLine] at h
      split at h <;> cases h
      rintro _ ⟨⟩
      exact hp
    | cutLine | syncFail => exact hassumed.elim
    | unlock =>
      dsimp only [unlock] at h
      split at h <;> cases h
      rintro _ ⟨⟩
      exact forall_resumeCall hp trivial
    | snapshot i =>
      dsimp only [snapshot] at h
      split at h
      · cases h
      · split at h <;> cases h
        · exact allAlone_setCall trivial
        · rintro _ ⟨⟩
          exact forall_update hp trivial
    | serialize i =>
      dsimp only [serialize] at h
      split at h <;> cases h
      obtain ⟨S, w, E, hcov, hsound⟩ := hs
      refine allAlone_setCall ?_
      rw [Alone, hcov.snapshot, (hsound p hproc).lastSeq]
      rintro _ ⟨⟩
      exact hcov.snapshot_le
    | createTmp i =>
      dsimp only [createTmp] at h
      split at h <;> cases h
      next bytes n inode hi hinode =>
        have hread := FileSystem.read?_eq_some hinode
        rw [FileSystem.read?_create_self, some.injEq] at hread
        refine allAlone_setCall ⟨⟨hinode, hread.symm⟩, ?_⟩
        rw [readSnapshot_congr (s.files.read?_create_ne SnapName.noConfusion)]
        exact hcall hi
    | writeTmp i =>
      dsimp only [writeTmp] at h
      split at h <;> cases h
      next bytes n inode hi =>
        obtain ⟨⟨hinode, hempty⟩, hseq⟩ := hcall hi
        refine allAlone_setCall ⟨?_, ?_⟩
        · rw [FileSystem.read?_write_self hinode, hempty, List.drop_nil, List.append_nil]
        · rw [readSnapshot_congr (FileSystem.read?_write_ne hinode _ SnapName.noConfusion)]
          exact hseq
    | rename i =>
      dsimp only [rename] at h
      split at h
      · split at h <;> cases h
        · exact allAlone_setCall trivial
        · exact allAlone_setCall trivial
      · cases h
    | truncate i =>
      dsimp only [truncate] at h
      split at h
      · cases h
      · split at h <;> cases h
        exact allAlone_setCall trivial
    | snapshotError i =>
      dsimp only [snapshotError] at h
      split at h <;> cases h
      exact allAlone_setCall trivial

end Db

/-! ### Texts of two commits that set one record -/

def sampleOps (v : Nat) : List (WalOp Nat) := [.upsert "c" "k" v]

def sampleLine (v : Nat) : String :=
  "\x7b\"seq\":" ++ v.repr ++ ",\"ops\":[\x7b\"op\":\"Upsert\",\"collection\":\"c\"," ++
    "\"key\":\"k\",\"value\":" ++ v.repr ++ "\x7d]\x7d"

def sampleSnapshot (v : Nat) : String :=
  "\x7b\n  \"last_seq\": " ++ v.repr ++ ",\n  \"data\": \x7b\n    \"c\": \x7b\n" ++
    "      \"k\": " ++ v.repr ++ "\n    \x7d\n  \x7d\n\x7d"

def toBytes (s : String) : Bytes := s.toUTF8.data.toList

/-- What `serde_json` does on these texts; the other functions are those for texts of
plain ASCII characters. -/
def sampleJson : Json Nat where
  entryToString e :=
    if e = ⟨1, sampleOps 1⟩ then toBytes (sampleLine 1)
    else if e = ⟨2, sampleOps 2⟩ then toBytes (sampleLine 2) else []
  entryFromStr bs :=
    if bs = toBytes (sampleLine 1) then some ⟨1, sampleOps 1⟩
    else if bs = toBytes (sampleLine 2) then some ⟨2, sampleOps 2⟩ else none
  snapshotToVec s :=
    if s = ⟨1, applyOps ∅ (sampleOps 1)⟩ then toBytes (sampleSnapshot 1)
    else if s = ⟨2, applyOps ∅ (sampleOps 2)⟩ then toBytes (sampleSnapshot 2) else []
  snapshotFromSlice bs :=
    if bs = toBytes (sampleSnapshot 1) then some ⟨1, applyOps ∅ (sampleOps 1)⟩
    else if bs = toBytes (sampleSnapshot 2) then some ⟨2, applyOps ∅ (sampleOps 2)⟩ else none
  utf8 bs := bs.all (· < 128)
  trim bs := (bs.dropWhile (· ≤ 32)).reverse.dropWhile (· ≤ 32) |>.reverse

/-- The commit of `v` in full. -/
def sampleCommit (v : Nat) : List (DbStep Nat ι) :=
  [.write (.upsert "c" "k" v), .appendLine, .unlock]

/-! ### Every crash under one worker, and every order of several calls -/

namespace Db

variable [DecidableEq ι] {s : Db V ι}

/-- One snapshot worker, and writers and flushes in any number: in every state,
whatever the worker is doing, a crash leaves a directory from which a prefix of the
commits is recovered that has everything that was written to the log. -/
theorem single_worker_recovers_prefix [Subsingleton ι] {ls : List (DbStep V ι)}
    (hassumed : Along (next json) (Assumed json) new ls)
    (hrun : runFrom (next json) new ls = some s) : RecoversPrefix json s := by
  have hinv : Sound json s ∧ AllAlone json s := by
    refine Along.invariant (I := fun s => Sound json s ∧ AllAlone json s) ?_
      ⟨sound_new, fun _ h => (by cases h)⟩ hassumed hrun
    rintro s l t ⟨hs, halone⟩ hl hnext
    exact ⟨sound_next hs hl (AllAlone.ordered halone l) hnext, allAlone_next hs halone hl hnext⟩
  exact hinv.1.recoversPrefix

/-- A second commit comes between the serialization and the rename, so the log stays. -/
def sampleWorkerRun : List (DbStep Nat Unit) :=
  .openWith .full :: (sampleCommit 1 ++ [.snapshot (), .serialize (), .createTmp ()] ++
    sampleCommit 2 ++ [.writeTmp (), .rename (), .truncate (), .crash])

/-- Both commits are recovered although the snapshot has the first only. -/
theorem single_worker_recovers_prefix_sample :
    ∃ s, runFrom (next sampleJson) new sampleWorkerRun = some s ∧ s.ghost.written = [1, 2] ∧
      RecoversPrefix sampleJson s := by
  obtain ⟨s, hrun, hwritten⟩ : ∃ s ∈ runFrom (next sampleJson) new sampleWorkerRun,
      s.ghost.written = [1, 2] := by decide +kernel
  exact ⟨s, hrun, hwritten, single_worker_recovers_prefix (by decide +kernel) hrun⟩

/-- Any number of calls of `snapshot`: as long as each renames its own bytes, and over
an older snapshot only, nothing that was written to the log is lost. -/
theorem ordered_snapshots_recover_prefix {ls : List (DbStep V ι)}
    (hsteps : Along (next json) (fun s l => Assumed json s l ∧ Ordered json s l) new ls)
    (hrun : runFrom (next json) new ls = some s) : RecoversPrefix json s := by
  have hs : Sound json s := Along.invariant
    (fun hs hl hnext => sound_next hs hl.1 hl.2 hnext) sound_new hsteps hrun
  exact hs.recoversPrefix

/-- Two calls that overlap and rename in the order in which they have serialized. -/
def sampleOrderedRun : List (DbStep Nat Bool) :=
  .openWith .full :: (sampleCommit 1 ++ [.snapshot false, .serialize false] ++ sampleCommit 2 ++
    [.snapshot true, .serialize true, .createTmp false, .writeTmp false, .rename false,
      .createTmp true, .writeTmp true, .truncate false, .rename true, .truncate true])

theorem ordered_snapshots_recover_prefix_sample :
    ∃ s, runFrom (next sampleJson) new sampleOrderedRun = some s ∧ s.wal = [] ∧
      RecoversPrefix sampleJson s := by
  obtain ⟨s, hrun, hwal⟩ : ∃ s ∈ runFrom (next sampleJson) new sampleOrderedRun, s.wal = [] := by
    decide +kernel
  exact ⟨s, hrun, hwal, ordered_snapshots_recover_prefix (by decide +kernel) hrun⟩

/-- The first call is overtaken by a second one, which empties the log. -/
def sampleRaceRun : List (DbStep Nat Bool) :=
  .openWith .full :: (sampleCommit 1 ++ [.snapshot false, .serialize false] ++ sampleCommit 2 ++
    [.snapshot true, .serialize true, .createTmp true, .writeTmp true, .rename true, .truncate true,
      .createTmp false, .writeTmp false, .rename false, .truncate false])

/-- All calls have returned, both commits were acknowledged and written, and the
directory holds the first one only. -/
theorem overtaken_snapshot_loses_commit :
    ∃ s, runFrom (next sampleJson) new sampleRaceRun = some s ∧
      Along (next sampleJson) (Assumed sampleJson) new sampleRaceRun ∧
      (∀ p ∈ s.proc, p.calls false = .idle ∧ p.calls true = .idle) ∧ s.ghost.written = [1, 2] ∧
      (openWith sampleJson s.files s.wal .full).toOption.map Inner.lastSeq = some 1 ∧
      ¬ RecoversPrefix sampleJson s := by
  obtain ⟨s, hrun, hcalls, hwritten, hopen⟩ : ∃ s ∈ runFrom (next sampleJson) new sampleRaceRun,
      (∀ p ∈ s.proc, p.calls false = .idle ∧ p.calls true = .idle) ∧ s.ghost.written = [1, 2] ∧
      (openWith sampleJson s.files s.wal .full).toOption.map Inner.lastSeq = some 1 := by
    decide +kernel
  refine ⟨s, hrun, by decide +kernel, hcalls, hwritten, hopen, ?_⟩
  rintro ⟨n, -, hle, hn⟩
  rw [hn, Except.toOption, map_some, some.injEq] at hopen
  change n = 1 at hopen
  have := hle 2 (by rw [hwritten]; simp)
  omega

end Db

end Bichon.MemDb
