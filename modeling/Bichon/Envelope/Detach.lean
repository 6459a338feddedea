import Bichon.Lib.Bytes
import Bichon.Lib.Splice
import Bichon.Types
import Mathlib.Data.List.Sort

/-!
# Detaching and reattaching attachment bodies

The archive stores a message without the bodies of its attachments.
`stripAttachmentBodies` cuts the encoded body of every attachment out of the raw
message, leaves a placeholder with its hash, and returns the bodies as blobs
together with the metadata of the attachments. `reattachParts` searches the
stripped message for the placeholders of its attachments and puts the blobs back.

The MIME parser, the hash function and the text extractor are external: a
message is given by what the parser reports of its attachments, and `Extern`
holds the functions. A slice or a splice outside of a buffer panics in the source;
here it is `none`, or the failure `panic`.
-/

namespace Bichon.Envelope

open ByteFile (Bytes)

open Splice (splice)

/-- How a call can fail: a panic, or an error that it returns. -/
inductive Failure
  | panic
  | error (e : BichonError)
  deriving DecidableEq, Repr

def asBytes (s : String) : Bytes := s.toUTF8.data.toList

@[simp] theorem asBytes_append (s t : String) : asBytes (s ++ t) = asBytes s ++ asBytes t := by
  simp [asBytes, String.toUTF8, String.toByteArray_append, ByteArray.data_append]

theorem asBytes_inj {s t : String} : asBytes s = asBytes t ↔ s = t := by
  rw [asBytes, asBytes, Array.toList_inj, ← String.toByteArray_inj, ByteArray.ext_iff]
  rfl

/-- A byte of a lower-case hexadecimal number. -/
def isHexByte (b : UInt8) : Bool := (48 ≤ b && b ≤ 57) || (97 ≤ b && b ≤ 102)

/-- What `blake3::Hash::to_hex` returns: 64 lower-case hexadecimal digits. -/
def IsDigest (hash : String) : Prop :=
  (asBytes hash).length = 64 ∧ ∀ b ∈ asBytes hash, isHexByte b = true

instance (hash : String) : Decidable (IsDigest hash) := inferInstanceAs (Decidable (_ ∧ _))

structure ExtractedText where
  text : String
  pageCount : Option Nat
  isOcr : Bool
  deriving DecidableEq, Repr

/-- The external functions. `blake3` is the plain hash, `blake3DeriveKey` the one
for a context string; `regexMatches` is false when the pattern is not a regular
expression. -/
structure Extern where
  blake3 : Bytes → String
  blake3DeriveKey : String → Bytes → String
  isDigest_blake3 : ∀ content, IsDigest (blake3 content)
  isDigest_blake3DeriveKey : ∀ context content, IsDigest (blake3DeriveKey context content)
  regexMatches : String → String → Bool
  /-- `Path::new(name).extension()`, when it is valid text -/
  extension : String → Option String
  maxExtractBytes : Nat
  extractText : String → String → Bytes → Option ExtractedText

variable (X : Extern)

def computeContentHash (content : Bytes) : String := X.blake3 content

/-- The hash of an encoded body has a domain of its own. -/
def computeRawAttachmentHash (content : Bytes) : String :=
  X.blake3DeriveKey "bichon.raw-mime-attachment.v1" content

/-- `text_extractor::should_try_extract`. -/
def shouldTryExtract (contentType ext : String) : Bool :=
  ["pdf", "doc", "docx", "xls", "xlsx", "ppt", "pptx", "txt", "rtf", "odt", "ods",
    "odp"].contains ext || contentType.startsWith "text/"

structure ExtractionFilter where
  rules : Option ExtractionRules
  mailboxName : Option String
  sender : Option String
  deriving DecidableEq, Repr

/-- What the parser reports of an attachment. The disposition is kept as whether
it is `inline`, the content type as type and subtype. -/
structure MessagePart where
  rawBodyOffset : Nat
  rawEndOffset : Nat
  contents : Bytes
  contentDisposition : Option Bool := none
  contentId : Option String := none
  contentType : Option (String × Option String) := none
  attachmentName : Option String := none
  isMessage : Bool := false
  deriving DecidableEq, Repr

structure AttachmentInfo where
  fileType : String
  inline : Bool
  filename : Option String
  size : Nat
  contentId : Option String
  contentHash : String
  rawContentHash : Option String
  isMessage : Bool
  extractedText : Option String
  extractedPageCount : Option Nat
  extractedIsOcr : Bool
  deriving DecidableEq, Repr

def AttachmentInfo.storageHash (info : AttachmentInfo) : String :=
  info.rawContentHash.getD info.contentHash

structure TextCandidate where
  contentHash : String
  fileType : String
  ext : String
  bytes : Bytes
  deriving DecidableEq, Repr

structure DetachedBody where
  strippedEml : Bytes
  blobs : List (String × Bytes)
  infos : List AttachmentInfo
  textCandidates : List TextCandidate
  deriving DecidableEq, Repr

def detachPlaceholderPrefix : String := "<<BICHON_DETACH_HASH:"

def placeholder (hash : String) : Bytes := asBytes (detachPlaceholderPrefix ++ hash ++ ">>")

namespace MessagePart

variable (att : MessagePart) (originalBody : Bytes)

/-- The offsets, clamped to the body. -/
def rawStart : Nat := min att.rawBodyOffset originalBody.length

def rawEnd : Nat := min att.rawEndOffset originalBody.length

def RangeValid : Prop := att.rawStart originalBody < att.rawEnd originalBody

instance : Decidable (att.RangeValid originalBody) := inferInstanceAs (Decidable (_ < _))

def isInline : Bool := att.contentDisposition.getD att.contentId.isSome

def fileType : String := att.contentType.elim "application/octet-stream" fun (type, subtype) =>
    type ++ "/" ++ subtype.getD ""

def ext : String := ((att.attachmentName.bind X.extension).map toAsciiLowercase).getD ""

/-- The encoded body that is stored for the attachment; an invalid range has an
empty one. -/
def rawBody : Bytes :=
  if att.RangeValid originalBody then
    (originalBody.take (att.rawEnd originalBody)).drop (att.rawStart originalBody)
  else
    []

def info : AttachmentInfo where
  fileType := att.fileType
  inline := att.isInline
  filename := att.attachmentName
  size := att.contents.length
  contentId := att.contentId
  contentHash := computeContentHash X att.contents
  rawContentHash := some (computeRawAttachmentHash X (att.rawBody originalBody))
  isMessage := att.isMessage
  extractedText := none
  extractedPageCount := none
  extractedIsOcr := false

/-- Whether the contents are collected for text extraction. -/
def wantsText (filter : ExtractionFilter) : Bool :=
  let shouldExtract := filter.rules.elim true fun r =>
    r.shouldExtract X.regexMatches (att.ext X) filter.mailboxName att.attachmentName filter.sender
  (!att.isInline || !att.contentId.isSome) && shouldExtract &&
    decide (att.contents.length ≤ X.maxExtractBytes) && shouldTryExtract att.fileType (att.ext X)

def textCandidates (filter : Option ExtractionFilter) : List TextCandidate :=
  match filter with
  | none => []
  | some filter =>
    if att.wantsText X filter then
      [{ contentHash := computeContentHash X att.contents, fileType := att.fileType,
         ext := att.ext X, bytes := att.contents }]
    else
      []

end MessagePart

/-- One turn of the loop of `strip_attachment_bodies`. Only a valid range is
replaced; the blob and the metadata are recorded either way. -/
def stripPart (originalBody : Bytes) (filter : Option ExtractionFilter) (d : DetachedBody)
    (att : MessagePart) : Option DetachedBody :=
  let rawHash := computeRawAttachmentHash X (att.rawBody originalBody)
  let stripped :=
    if att.RangeValid originalBody then
      splice (att.rawStart originalBody) (att.rawEnd originalBody) (placeholder rawHash)
        d.strippedEml
    else
      some d.strippedEml
  stripped.map fun strippedEml =>
    { strippedEml
      blobs := d.blobs ++ [(rawHash, att.rawBody originalBody)]
      infos := d.infos ++ [att.info X originalBody]
      textCandidates := d.textCandidates ++ att.textCandidates X filter }

/-- The attachments in the order of the splices, the last one of the message
first. The sort is stable. -/
def inReverse (attachments : List MessagePart) : List MessagePart :=
  attachments.insertionSort fun a b => b.rawBodyOffset ≤ a.rawBodyOffset

def stripAttachmentBodies (originalBody : Bytes) (attachments : List MessagePart)
    (filter : Option ExtractionFilter) : Option DetachedBody :=
  (inReverse attachments).foldlM (stripPart X originalBody filter) ⟨originalBody, [], [], []⟩

/-- A scheduled replacement, with a second key to try when the first one has no
blob. -/
structure Task where
  start : Nat
  stop : Nat
  hash : String
  alt : Option String
  deriving DecidableEq, Repr

/-- The first window that is equal to the pattern. -/
def windowPosition (pattern : Bytes) : Bytes → Option Nat
  | [] => none
  | b :: bs =>
    if pattern <+: b :: bs then some 0 else (windowPosition pattern bs).map (· + 1)

/-- The loop of `schedule_placeholder`: the search goes on behind each occurrence.
It ends before the fuel does, since every turn moves the cursor. -/
def occurrencesFrom (pattern eml : Bytes) : Nat → Nat → List Nat
  | 0, _ => []
  | fuel + 1, cursor =>
    match windowPosition pattern (eml.drop cursor) with
    | none => []
    | some pos => (cursor + pos) ::
        occurrencesFrom pattern eml fuel (cursor + pos + pattern.length)

/-- The tasks for the placeholders of `hash`, from left to right. -/
def placeholderTasks (eml : Bytes) (hash : String) (alt : Option String) : List Task :=
  (occurrencesFrom (placeholder hash) eml (eml.length + 1) 0).map fun start =>
    { start, stop := start + (placeholder hash).length, hash, alt }

def schedulePlaceholder (tasks : List Task) (eml : Bytes) (hash : String) (alt : Option String) :
    List Task × Nat :=
  let found := placeholderTasks eml hash alt
  (tasks ++ found, found.length)

/-- One turn of the first loop of `reattach_parts`. A record of the current format
whose placeholder is not found is searched under the hash of its contents. -/
def scheduleAttachment (eml : Bytes) (tasks : List Task) (detail : AttachmentInfo) : List Task :=
  let (tasks, found) := schedulePlaceholder tasks eml detail.storageHash none
  if found = 0 ∧ detail.rawContentHash.isSome then
    (schedulePlaceholder tasks eml detail.contentHash (some detail.storageHash)).1
  else
    tasks

/-- The tasks of all attachments from right to left, without the repeated ones. -/
def reattachTasks (eml : Bytes) (attachments : List AttachmentInfo) : List Task :=
  ((attachments.foldl (scheduleAttachment eml) []).insertionSort
    fun a b => b.start ≤ a.start).destutter fun a b => ¬ (b.start = a.start ∧ b.stop = a.stop)

/-- The blob of a task, under its hash or else under the second key. -/
def Task.data (load : String → Except BichonError (Option Bytes)) (task : Task) :
    Except BichonError (Option Bytes) := do
  match ← load task.hash with
  | some data => pure (some data)
  | none =>
    match task.alt with
    | some alt => load alt
    | none => pure none

/-- One turn of the second loop of `reattach_parts`. A missing blob is logged and
its placeholder stays. -/
def runTask (load : String → Except BichonError (Option Bytes)) (eml : Bytes) (task : Task) :
    Except Failure Bytes :=
  match task.data load with
  | .error e => .error (.error e)
  | .ok none => .ok eml
  | .ok (some data) =>
    match splice task.start task.stop data eml with
    | none => .error .panic
    | some eml => .ok eml

def reattachParts (restoredEml : Bytes) (attachments : List AttachmentInfo)
    (load : String → Except BichonError (Option Bytes)) : Except Failure Bytes :=
  (reattachTasks restoredEml attachments).foldlM (runTask load) restoredEml

end Bichon.Envelope
