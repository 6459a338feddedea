import Bichon.Lib.FileSystem
import Bichon.Lib.Transition
import Bichon.MemDb.Wal

/-!
# The in-memory database

The directory of the database and the process that has it open, as a transition
system. A writer holds the lock from the change of the memory to the last line it
writes, so the lines of one commit or of one flush are separate steps under one
lock. A call of `snapshot` takes the lock three times, for its flush, to serialize
the memory and to truncate the log, and works on the files in between without it.
Any number of threads call `snapshot`; `ι` names them. A crash is possible in every
state, and afterwards the directory is opened again.

The log is only appended to and emptied, so it is a list of bytes here. The two
names of the snapshot are in a directory with inodes, because `fs::write` keeps a
handle on the temporary file which another call can rename under it.

`DbGhost` is what happened and is read by no step: the operations of the commits in
their order, the numbers of the entries that were written, the entries that were
acknowledged by a `Full` commit or by a flush that returned, and the entries the
last `open` replayed.
-/

namespace Bichon.MemDb

open ByteFile Lines Transition

/-- When the log is synced to disk. -/
inductive Durability
  | full
  | batch (maxOps : Nat)
  | off
  deriving DecidableEq, Repr

variable {V ι : Type}

def Data.get (data : Data V) (collection key : String) : Option V :=
  (data.lookup collection).bind (·.lookup key)

def applyOp (data : Data V) : WalOp V → Data V
  | .insert collection key value | .upsert collection key value =>
    data.insert collection (((data.lookup collection).getD ∅).insert key value)
  | .delete collection key =>
    match data.lookup collection with
    | some col => data.insert collection (col.erase key)
    | none => data

def applyOps (data : Data V) (ops : List (WalOp V)) : Data V := ops.foldl applyOp data

/-- The calls of `Collection` and `Transaction` that write. -/
inductive Request (V : Type)
  | insert (collection key : String) (value : V)
  | upsert (collection key : String) (value : V)
  | update (collection key : String) (f : V → V)
  | delete (collection key : String)
  | transaction (ops : List (WalOp V))

/-- The operations a call commits, read off the memory under the lock. -/
def Request.ops (data : Data V) : Request V → Except DbError (List (WalOp V))
  | .insert collection key value =>
    if (data.get collection key).isSome then .error (.duplicateKey collection key)
    else .ok [.insert collection key value]
  | .upsert collection key value => .ok [.upsert collection key value]
  | .update collection key f =>
    match data.get collection key with
    | some old => .ok [.upsert collection key (f old)]
    | none => .error (.notFound collection key)
  | .delete collection key =>
    .ok (if (data.get collection key).isSome then [.delete collection key] else [])
  | .transaction ops => .ok ops

/-- The runtime state behind the lock. -/
structure Inner (V : Type) where
  lastSeq : Nat
  data : Data V
  durability : Durability
  pending : List (WalEntry V)

/-- What the holder of the lock writes to the log. -/
structure Writing (V ι : Type) where
  /-- all entries it writes -/
  entries : List (WalEntry V)
  /-- those that are still to be written -/
  rest : List (WalEntry V)
  /-- it is a flush, which clears `pending` at its end -/
  clears : Bool
  /-- the call of `snapshot` that waits for it -/
  call : Option ι

/-- `Inner::commit` up to the lines it writes to the log. -/
def Inner.commit (inner : Inner V) (ops : List (WalOp V)) : Inner V × Option (Writing V ι) :=
  let entry : WalEntry V := ⟨inner.lastSeq + 1, ops⟩
  match inner.durability with
  | .full | .off =>
    (⟨entry.seq, applyOps inner.data ops, inner.durability, inner.pending⟩,
      some ⟨[entry], [entry], false, none⟩)
  | .batch maxOps =>
    (⟨entry.seq, applyOps inner.data ops, inner.durability, inner.pending ++ [entry]⟩,
      if maxOps ≤ (inner.pending ++ [entry]).length then
        some ⟨inner.pending ++ [entry], inner.pending ++ [entry], true, none⟩
      else none)

/-- Where a thread stands in `snapshot`. -/
inductive SnapCall
  | idle
  /-- its own flush holds the lock -/
  | flushing
  | flushed
  | serialized (bytes : Bytes) (lastSeq : Nat)
  /-- `fs::write` has created or emptied the temporary file -/
  | created (bytes : Bytes) (lastSeq inode : Nat)
  /-- `fs::write` has returned -/
  | saved (bytes : Bytes) (lastSeq : Nat)
  | renamed (lastSeq : Nat)
  deriving DecidableEq

inductive SnapName
  | snapshot
  | tmp
  deriving DecidableEq

structure Proc (V ι : Type) where
  inner : Inner V
  writing : Option (Writing V ι)
  calls : ι → SnapCall

structure DbGhost (V : Type) where
  history : List (List (WalOp V))
  written : List Nat
  acked : List (WalEntry V)
  recovered : List (WalEntry V)

structure Db (V ι : Type) where
  files : FileSystem SnapName
  wal : Bytes
  proc : Option (Proc V ι)
  ghost : DbGhost V

inductive DbStep (V ι : Type)
  | openWith (durability : Durability)
  | crash
  /-- a writer's call, up to the lines it writes -/
  | write (r : Request V)
  /-- `flush`, up to the lines it writes -/
  | flush
  /-- `write_entry` by the holder of the lock -/
  | appendLine
  /-- `write_entry` fails after some bytes -/
  | cutLine (n : Nat)
  /-- `sync_wal` fails -/
  | syncFail
  /-- the holder of the lock returns -/
  | unlock
  /-- a thread calls `snapshot`, up to the lines its flush writes -/
  | snapshot (i : ι)
  | serialize (i : ι)
  | createTmp (i : ι)
  | writeTmp (i : ι)
  | rename (i : ι)
  | truncate (i : ι)
  /-- one of the file operations of `snapshot` fails -/
  | snapshotError (i : ι)

section

variable (json : Json V)

/-- The snapshot an `open` starts from. -/
def readSnapshot (files : FileSystem SnapName) : Except DbError (Snapshot V) :=
  match files.read? .snapshot with
  | some bytes =>
    match json.snapshotFromSlice bytes with
    | some snapshot => .ok snapshot
    | none => .error .serde
  | none => .ok ⟨0, ∅⟩

/-- The entries an `open` replays. -/
def replayed (files : FileSystem SnapName) (wal : Bytes) : Except DbError (List (WalEntry V)) :=
  (readSnapshot json files).bind fun snapshot => readAfter json snapshot.lastSeq (lines wal)

def replayEntry (snapshot : Snapshot V) (e : WalEntry V) : Snapshot V :=
  ⟨max snapshot.lastSeq e.seq, applyOps snapshot.data e.ops⟩

/-- `MemDb::open_with`: the runtime state it starts with. -/
def openWith (files : FileSystem SnapName) (wal : Bytes) (durability : Durability) :
    Except DbError (Inner V) :=
  (readSnapshot json files).bind fun snapshot =>
    (replayed json files wal).map fun entries =>
      let recovered := entries.foldl replayEntry snapshot
      ⟨recovered.lastSeq, recovered.data, durability, []⟩

end

namespace Db

def new : Db V ι := ⟨.empty, [], none, ⟨[], [], [], []⟩⟩

section

variable (json : Json V) (s : Db V ι) (p : Proc V ι)

/-- The process opens the directory; it stays closed when that fails. -/
def reopen (durability : Durability) : Db V ι :=
  match openWith json s.files s.wal durability, replayed json s.files s.wal with
  | .ok inner, .ok entries =>
    ⟨s.files, s.wal, some ⟨inner, none, fun _ => .idle⟩,
      { s.ghost with history := s.ghost.history.take inner.lastSeq, recovered := entries }⟩
  | _, _ => s

def write (r : Request V) : Option (Db V ι) :=
  if p.writing.isSome then none
  else
    match r.ops p.inner.data with
    | .error _ | .ok [] => some s
    | .ok (op :: ops) =>
      some ⟨s.files, s.wal,
        some ⟨(p.inner.commit (ι := ι) (op :: ops)).1, (p.inner.commit (op :: ops)).2, p.calls⟩,
        { s.ghost with history := s.ghost.history ++ [op :: ops] }⟩

/-- The lock is taken for a flush; there is nothing to do when nothing is pending. -/
def flush : Option (Db V ι) :=
  if p.writing.isSome then none
  else if p.inner.pending = [] then some s
  else
    some ⟨s.files, s.wal,
      some ⟨p.inner, some ⟨p.inner.pending, p.inner.pending, true, none⟩, p.calls⟩, s.ghost⟩

def appendLine : Option (Db V ι) :=
  match p.writing with
  | some ⟨entries, e :: rest, clears, call⟩ =>
    some ⟨s.files, s.wal ++ json.line e,
      some ⟨p.inner, some ⟨entries, rest, clears, call⟩, p.calls⟩,
      { s.ghost with written := s.ghost.written ++ [e.seq] }⟩
  | _ => none

variable [DecidableEq ι]

/-- Where the waiting call of `snapshot`, if any, goes on. -/
def resumeCall (call : Option ι) (pc : SnapCall) : ι → SnapCall :=
  match call with
  | some i => Function.update p.calls i pc
  | none => p.calls

/-- The holder of the lock returns an error and leaves `pending` as it is. -/
def cutLine (n : Nat) : Option (Db V ι) :=
  match p.writing with
  | some ⟨_, e :: _, _, call⟩ =>
    some ⟨s.files, s.wal ++ (json.line e).take n,
      some ⟨p.inner, none, resumeCall p call .idle⟩, s.ghost⟩
  | _ => none

def syncFail : Option (Db V ι) :=
  match p.writing with
  | some ⟨_, [], _, call⟩ =>
    if p.inner.durability = .off then none
    else some ⟨s.files, s.wal, some ⟨p.inner, none, resumeCall p call .idle⟩, s.ghost⟩
  | _ => none

def unlock : Option (Db V ι) :=
  match p.writing with
  | some ⟨entries, [], clears, call⟩ =>
    some ⟨s.files, s.wal,
      some ⟨{ p.inner with pending := if clears then [] else p.inner.pending }, none,
        resumeCall p call .flushed⟩,
      { s.ghost with
        acked := if p.inner.durability = .off then s.ghost.acked else s.ghost.acked ++ entries }⟩
  | _ => none

section

variable (i : ι)

/-- The call of `snapshot` of the thread `i` goes on at `pc`. -/
def setCall (pc : SnapCall) : Option (Proc V ι) :=
  some ⟨p.inner, p.writing, Function.update p.calls i pc⟩

def snapshot : Option (Db V ι) :=
  if p.writing.isSome ∨ p.calls i ≠ .idle then none
  else if p.inner.pending = [] then
    some ⟨s.files, s.wal, setCall p i .flushed, s.ghost⟩
  else
    some ⟨s.files, s.wal,
      some ⟨p.inner, some ⟨p.inner.pending, p.inner.pending, true, some i⟩,
        Function.update p.calls i .flushing⟩, s.ghost⟩

def serialize : Option (Db V ι) :=
  if p.writing.isSome ∨ p.calls i ≠ .flushed then none
  else
    some ⟨s.files, s.wal,
      setCall p i
        (.serialized (json.snapshotToVec ⟨p.inner.lastSeq, p.inner.data⟩) p.inner.lastSeq),
      s.ghost⟩

/-- `fs::write`, first half: the file is created or emptied. -/
def createTmp : Option (Db V ι) :=
  match p.calls i, (s.files.create .tmp).inode? .tmp with
  | .serialized bytes lastSeq, some inode =>
    some ⟨s.files.create .tmp, s.wal, setCall p i (.created bytes lastSeq inode), s.ghost⟩
  | _, _ => none

/-- `fs::write`, second half: the bytes go to the start of the file that was opened. -/
def writeTmp : Option (Db V ι) :=
  match p.calls i with
  | .created bytes lastSeq inode =>
    some ⟨s.files.write inode (bytes ++ (s.files.data inode).drop bytes.length), s.wal,
      setCall p i (.saved bytes lastSeq), s.ghost⟩
  | _ => none

def rename : Option (Db V ι) :=
  match p.calls i with
  | .saved _ lastSeq =>
    match s.files.inode? .tmp with
    | some _ =>
      some ⟨s.files.rename .tmp .snapshot, s.wal, setCall p i (.renamed lastSeq), s.ghost⟩
    | none => some ⟨s.files, s.wal, setCall p i .idle, s.ghost⟩
  | _ => none

/-- The log is emptied when nothing was committed since the memory was serialized. -/
def truncate : Option (Db V ι) :=
  if p.writing.isSome then none
  else
    match p.calls i with
    | .renamed lastSeq =>
      some ⟨s.files, if p.inner.lastSeq = lastSeq then [] else s.wal, setCall p i .idle, s.ghost⟩
    | _ => none

def snapshotError : Option (Db V ι) :=
  if p.calls i = .idle ∨ p.calls i = .flushing then none
  else some ⟨s.files, s.wal, setCall p i .idle, s.ghost⟩

end

end

variable [DecidableEq ι]

def next (json : Json V) (s : Db V ι) (l : DbStep V ι) : Option (Db V ι) :=
  match s.proc with
  | none =>
    match l with
    | .openWith durability => some (s.reopen json durability)
    | _ => none
  | some p =>
    match l with
    | .openWith _ => none
    | .crash => some ⟨s.files, s.wal, none, s.ghost⟩
    | .write r => s.write p r
    | .flush => s.flush p
    | .appendLine => s.appendLine json p
    | .cutLine n => s.cutLine json p n
    | .syncFail => s.syncFail p
    | .unlock => s.unlock p
    | .snapshot i => s.snapshot p i
    | .serialize i => s.serialize json p i
    | .createTmp i => s.createTmp p i
    | .writeTmp i => s.writeTmp p i
    | .rename i => s.rename p i
    | .truncate i => s.truncate p i
    | .snapshotError i => s.snapshotError p i

end Db

end Bichon.MemDb
