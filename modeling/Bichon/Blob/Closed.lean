import Bichon.Blob.Gc

/-!
# What the operations keep when their steps do

The operations are made of a few kinds of steps: a save of the metadata, a change of
the index, of the pool or of the statistics of a segment, an append, and a seal.
`Engine.Closed X I J K` says that each kind keeps `I`, that a failing operation may
fall back to `J`, and that every state on disk on the way has `K`; the operations then
do the same, with any faults.
-/

namespace Bichon.Blob

open ByteFile LastWrite Durable Keeps

/-- The statistics keep the id, whether the segment is sealed, and the hash. -/
def Neutral (f : SegmentStats → SegmentStats) : Prop :=
  ∀ st, (f st).segmentId = st.segmentId ∧ (f st).sealed = st.sealed ∧ (f st).sha256 = st.sha256

structure Engine.Closed (X : Extern) (I J K : Engine → Prop) : Prop where
  fails : ∀ {s}, I s → J s
  save : ∀ {s}, I s → I { s with disk := { s.disk with metaBin := some s.globalMeta } } ∧
    K { s with disk := { s.disk with metaBin := some s.globalMeta } }
  index : ∀ {s} (index : IndexStore), I s →
    I { s with disk := { s.disk with index := index } } ∧
      K { s with disk := { s.disk with index := index } }
  pool : ∀ {s} (pool : FilePool), I s → I { s with filePool := pool }
  modify : ∀ {s} (id : Nat) {f : SegmentStats → SegmentStats}, Neutral f → I s →
    I { s with globalMeta := s.globalMeta.modify id f }
  upsert : ∀ {s} (id : Nat) {f : SegmentStats → SegmentStats}, Neutral f → I s →
    I { s with globalMeta := s.globalMeta.upsert id f }
  append : ∀ (entry : Entry), Keeps I J K (Engine.writeActive X entry)
  sealing : ∀ (fault : Option SealFault), Keeps I J K (Engine.sealActive X fault)

section

variable {X : Extern} {I J K : Engine → Prop}

theorem neutral_accountEntry (X : Extern) (entry : Entry) (flags : UInt8) :
    Neutral (Engine.accountEntry X entry flags) := by
  intro st
  unfold Engine.accountEntry
  split <;> simp

namespace Engine.Closed

section

variable (h : Closed X I J K)

include h

theorem keeps_save : Keeps I J K Engine.save := Keeps.durable h.save

theorem keeps_insertRecord (record : IndexRecord) :
    Keeps I J K (Engine.insertRecord record) := Keeps.durable fun hs => h.index _ hs

theorem keeps_insertBatch (records : List IndexRecord) :
    Keeps I J K (Engine.insertBatch records) := by
  rw [Engine.insertBatch]
  split
  · exact pure ()
  · exact durable fun hs => h.index _ hs

theorem keeps_markIndexed (segmentId offset : Nat) :
    Keeps I J K (Engine.markIndexed segmentId offset) := by
  refine Keeps.bind (Keeps.modify fun hs => h.modify segmentId (fun st => ?_) hs)
    fun _ => h.keeps_save
  split <;> exact ⟨rfl, rfl, rfl⟩

theorem keeps_markAll (ends : List (Nat × Nat)) : Keeps I J K (Engine.markAll ends) := by
  induction ends with
  | nil => exact pure ()
  | cons p ends ih => exact bind (h.keeps_markIndexed p.1 p.2) fun _ => ih

theorem keeps_appendEntry (fault : Option SealFault) (key : Key)
    (data : Bytes) (rawSize : UInt32) (flags : UInt8) (codec : Codec) :
    Keeps I J K (Engine.appendEntry X fault key data rawSize flags codec) := by
  refine bind (bind state fun s => ?_) fun _ => ?_
  · split
    · exact h.sealing fault
    · exact Keeps.pure ()
  · exact Keeps.bind Keeps.state fun s => Keeps.bind (h.append _) fun _ =>
      Keeps.bind (Keeps.modify fun hs => h.upsert _ (neutral_accountEntry X _ flags) hs)
        fun _ => pure _

theorem keeps_accountDelete (key : Key) : Keeps I J K (Engine.accountDelete X key) := by
  refine bind state fun s => ?_
  split
  · exact pure ()
  · split
    · exact Keeps.pure ()
    · exact Keeps.modify fun hs => h.modify _ (fun st => ⟨by simp, by simp, by simp⟩) hs

theorem keeps_put (config : Config) (fault : Option SealFault) (key : Key)
    (value : Bytes) (codec : Codec) : Keeps I J K (Engine.put X config fault key value codec) := by
  rw [Engine.put]
  split
  · exact fail h.fails _
  · exact bind (h.keeps_appendEntry fault key _ _ _ _) fun at_ =>
      bind (h.keeps_insertRecord _) fun _ => h.keeps_markIndexed _ _

theorem keeps_delete (fault : Option SealFault) (key : Key) :
    Keeps I J K (Engine.delete X fault key) :=
  bind (h.keeps_accountDelete key) fun _ =>
    bind (h.keeps_appendEntry fault key _ _ _ _) fun _ =>
      bind (h.keeps_insertRecord _) fun _ => h.keeps_markIndexed _ _

theorem keeps_putBatchLoop (config : Config) (faults : Nat → Option SealFault)
    (entries : List (Key × Bytes × Codec)) (batch : Engine.Batch) :
    Keeps I J K (Engine.putBatchLoop X config faults entries batch) := by
  induction entries generalizing batch with
  | nil => exact pure batch
  | cons entry entries ih =>
    rw [Engine.putBatchLoop]
    split
    · exact fail h.fails _
    · exact bind (h.keeps_appendEntry _ _ _ _ _ _) fun at_ => ih _

theorem keeps_deleteBatchLoop (faults : Nat → Option SealFault)
    (keys : List Key) (batch : Engine.Batch) :
    Keeps I J K (Engine.deleteBatchLoop X faults keys batch) := by
  induction keys generalizing batch with
  | nil => exact pure batch
  | cons key keys ih =>
    exact bind (h.keeps_accountDelete key) fun _ =>
      bind (h.keeps_appendEntry _ _ _ _ _ _) fun at_ => ih _

theorem keeps_putBatch (config : Config)
    (faults : Nat → Option SealFault) (entries : List (Key × Bytes × Codec)) :
    Keeps I J K (Engine.putBatch X config faults entries) := by
  rw [Engine.putBatch]
  split
  · exact pure ()
  · exact bind (h.keeps_putBatchLoop config faults entries _) fun batch =>
      bind h.keeps_save fun _ =>
        bind (h.keeps_insertBatch _) fun _ => h.keeps_markAll _

theorem keeps_deleteBatch (faults : Nat → Option SealFault)
    (keys : List Key) : Keeps I J K (Engine.deleteBatch X faults keys) := by
  rw [Engine.deleteBatch]
  split
  · exact pure ()
  · exact bind (h.keeps_deleteBatchLoop faults keys _) fun batch =>
      bind h.keeps_save fun _ =>
        bind (h.keeps_insertBatch _) fun _ => h.keeps_markAll _

theorem keeps_get (key : Key) : Keeps I J K (Engine.get X key) := by
  refine bind state fun s => ?_
  split
  · exact pure none
  · split
    · exact Keeps.fail h.fails _
    · exact Keeps.bind (Keeps.modify fun hs => h.pool _ hs) fun _ =>
        Keeps.bind (Keeps.lift h.fails _) fun _ =>
          bind (lift h.fails _) fun _ => pure _

end

end Engine.Closed

end

end Bichon.Blob
