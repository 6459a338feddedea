import Bichon.Archive.Ingest

/-!
# The import of a batch

`ImportEmls::do_import` takes the items of a batch from the end of the list and counts them
from zero. `import_positions_iff` says for which batches the positions it reports are those
of the items that have failed.

The decoder and the parser are parameters, and so is what the archive makes of a message. It
takes every message: its errors, and the wait for the write gate, are left out, and so are the
checks of the account and the mailbox of the batch, which come before the loop.
-/

namespace Bichon.Import

open ByteFile List Texts

open Archive (ExtractOutcome)

def maxSingleEmlBytes : Nat := 100 * 1024 * 1024

/-- `δ` are the errors of the decoder, `ε` those of the parser, `σ` the archives. -/
structure Importer (δ ε σ : Type) where
  decode : Text → Except δ Bytes
  unparseable : Bytes → Option ε
  store : Bytes → σ → ExtractOutcome × σ

/-- What the message of a failed item is made of, apart from the index. -/
inductive ItemError (δ ε : Type)
  | undecodable (e : δ)
  | oversized (size : Nat)
  | unparseable (e : ε)
  deriving DecidableEq

structure FailedItemDetail (δ ε : Type) where
  index : Nat
  error : ItemError δ ε
  deriving DecidableEq

structure BatchEmlResult (δ ε : Type) where
  total : Nat
  success : Nat
  duplicates : Nat
  failed : Nat
  failedDetails : List (FailedItemDetail δ ε)
  deriving DecidableEq

namespace Importer

variable {δ ε σ : Type} (I : Importer δ ε σ)

/-- The checks of one item. Each failure is recorded and counted in the same way. -/
def check (eml : Text) : Except (ItemError δ ε) Bytes :=
  match I.decode eml with
  | .error e => .error (.undecodable e)
  | .ok decoded =>
    if maxSingleEmlBytes < decoded.length then .error (.oversized decoded.length)
    else
      match I.unparseable decoded with
      | some e => .error (.unparseable e)
      | none => .ok decoded

/-- The loop over the items, in the order in which they are popped. -/
def importLoop (total : Nat) : List Text → (index success duplicates : Nat) →
    List (FailedItemDetail δ ε) → σ → BatchEmlResult δ ε × σ
  | [], _, success, duplicates, details, s =>
    (⟨total, success, duplicates, details.length, details⟩, s)
  | eml :: emls, index, success, duplicates, details, s =>
    match I.check eml with
    | .error e => importLoop total emls (index + 1) success duplicates (details ++ [⟨index, e⟩]) s
    | .ok decoded =>
      match I.store decoded s with
      | (.imported, s) => importLoop total emls (index + 1) (success + 1) duplicates details s
      | (.duplicate, s) => importLoop total emls (index + 1) success (duplicates + 1) details s

def doImport (emls : List Text) (s : σ) : BatchEmlResult δ ε × σ :=
  I.importLoop emls.length emls.reverse 0 0 0 [] s

def failure (eml : Text) : Option (ItemError δ ε) :=
  match I.check eml with
  | .error e => some e
  | .ok _ => none

def Fails (eml : Text) : Prop := (I.failure eml).isSome = true

/-- The failures of the items, counted from `index`. -/
def failures (emls : List Text) (index : Nat) : List (FailedItemDetail δ ε) :=
  (emls.zipIdx index).filterMap fun item => (I.failure item.1).map (⟨item.2, ·⟩)

theorem importLoop_spec (total : Nat) (emls : List Text) (index success duplicates : Nat)
    (details : List (FailedItemDetail δ ε)) (s : σ) :
    ∃ r s', I.importLoop total emls index success duplicates details s = (r, s') ∧
      r.total = total ∧ r.failedDetails = details ++ I.failures emls index ∧
        r.success + r.duplicates + r.failed =
          success + duplicates + details.length + emls.length := by
  induction emls generalizing index success duplicates details s with
  | nil => exact ⟨_, _, rfl, rfl, by simp [failures], rfl⟩
  | cons eml emls ih =>
    rw [importLoop]
    cases hcheck : I.check eml with
    | error e =>
      obtain ⟨r, s', hloop, htotal, hdetails, hsum⟩ :=
        ih (index + 1) success duplicates (details ++ [⟨index, e⟩]) s
      refine ⟨r, s', hloop, htotal, by simp [hdetails, failures, failure, hcheck], ?_⟩
      rw [hsum, length_append, length_singleton, length_cons]
      omega
    | ok decoded =>
      have hnone : I.failures (eml :: emls) index = I.failures emls (index + 1) := by
        simp [failures, failure, hcheck]
      rw [hnone, length_cons]
      dsimp only
      rcases I.store decoded s with ⟨_ | _, s₁⟩
      · obtain ⟨r, s', hloop, htotal, hdetails, hsum⟩ :=
          ih (index + 1) (success + 1) duplicates details s₁
        exact ⟨r, s', hloop, htotal, hdetails, by omega⟩
      · obtain ⟨r, s', hloop, htotal, hdetails, hsum⟩ :=
          ih (index + 1) success (duplicates + 1) details s₁
        exact ⟨r, s', hloop, htotal, hdetails, by omega⟩

theorem mem_index_failures {emls : List Text} {i : Nat} :
    i ∈ (I.failures emls 0).map (·.index) ↔ ∃ eml, emls[i]? = some eml ∧ I.Fails eml := by
  simp [failures, Fails, Option.isSome_iff_exists, mem_zipIdx_iff_getElem?]

/-- All items are counted. The positions reported are those of the items that have failed
just when items at the same distance from the two ends fail together. -/
theorem import_positions_iff (emls : List Text) (s : σ) :
    (I.doImport emls s).1.total = (I.doImport emls s).1.success +
        (I.doImport emls s).1.duplicates + (I.doImport emls s).1.failed ∧
      ((∀ i, i ∈ (I.doImport emls s).1.failedDetails.map (·.index) ↔
          ∃ eml, emls[i]? = some eml ∧ I.Fails eml) ↔
        ∀ (i : Nat) (eml eml' : Text), emls[i]? = some eml → emls.reverse[i]? = some eml' →
          (I.Fails eml ↔ I.Fails eml')) := by
  obtain ⟨r, s', hloop, htotal, hdetails, hsum⟩ :=
    I.importLoop_spec emls.length emls.reverse 0 0 0 [] s
  rw [doImport, hloop]
  refine ⟨by simpa [htotal] using hsum.symm, ?_⟩
  rw [hdetails, nil_append]
  simp only [mem_index_failures]
  constructor
  · intro h i eml eml' hi hi'
    simpa [hi, hi', iff_comm] using h i
  · intro h i
    by_cases hi : i < emls.length
    · have hi' : i < emls.reverse.length := by rwa [length_reverse]
      have hsame := h i _ _ (getElem?_eq_getElem hi) (getElem?_eq_getElem hi')
      simp [getElem?_eq_getElem hi, getElem?_eq_getElem hi', hsame]
    · have hi' : ¬ i < emls.reverse.length := by rwa [length_reverse]
      rw [getElem?_eq_none (not_lt.mp hi), getElem?_eq_none (not_lt.mp hi')]

end Importer

/-- Nothing but the letter a in base64 decodes, and everything is new. -/
def onlyA : Importer Unit Unit Unit where
  decode eml := if eml = "YQ==".toList then .ok [97] else .error ()
  unparseable _ := none
  store _ s := (.imported, s)

/-- The first item of two fails, and the second one is reported. -/
theorem first_failure_reported_last :
    onlyA.Fails "!".toList ∧ ¬ onlyA.Fails "YQ==".toList ∧
      (onlyA.doImport ["!".toList, "YQ==".toList] ()).1.failedDetails =
        [⟨1, .undecodable ()⟩] :=
  ⟨rfl, nofun, rfl⟩

end Bichon.Import
