import Bichon.Envelope.Search

/-!
# The round trip of a message

A message whose attachment bodies were cut out and put back is compared with the
original. Reattaching searches the whole text, so a placeholder that the sender
wrote is filled as well when its hash is one that is searched for. That is the
only way in which the round trip can fail: `reattach_strip_iff`.
-/

namespace Bichon.Envelope

open ByteFile (Bytes)

open Splice List

variable (X : Extern)

/-- The key of the blob of an attachment. -/
abbrev MessagePart.rawHash (att : MessagePart) (body : Bytes) : String :=
  computeRawAttachmentHash X (att.rawBody body)

def cuts (body : Bytes) (atts : List MessagePart) : List (Cut String) :=
  ((inReverse atts).filter fun att => att.RangeValid body).map fun att =>
    ⟨att.rawStart body, att.rawEnd body, att.rawHash X body⟩

/-- The bodies of the two attachments do not overlap, or one of them is invalid. -/
def Apart (body : Bytes) (a b : MessagePart) : Prop :=
  ¬ a.RangeValid body ∨ ¬ b.RangeValid body ∨
    a.rawEnd body ≤ b.rawStart body ∨ b.rawEnd body ≤ a.rawStart body

instance (body : Bytes) : DecidableRel (Apart body) :=
  fun _ _ => inferInstanceAs (Decidable (_ ∨ _))

variable {body : Bytes}

theorem Apart.symm {a b : MessagePart} (h : Apart body a b) : Apart body b a := by
  unfold Apart MessagePart.RangeValid at *
  omega

variable {atts : List MessagePart}

theorem mem_inReverse {att : MessagePart} :
    att ∈ inReverse atts ↔ att ∈ atts :=
  (perm_insertionSort _ atts).mem_iff

theorem descends_cuts (h : atts.Pairwise (Apart body)) :
    Descends body.length ((cuts X body atts).map (cutEdit placeholder)) := by
  have hsorted : ((inReverse atts).filter fun att => att.RangeValid body).Pairwise
      fun a b => b.rawEnd body ≤ a.rawStart body := by
    have hapart : (inReverse atts).Pairwise (Apart body) :=
      ((perm_insertionSort _ atts).pairwise_iff Apart.symm).mpr h
    rw [pairwise_filter]
    refine ((pairwise_insertionSort_desc MessagePart.rawBodyOffset atts).and
      hapart).imp fun {a b} hab ha hb => ?_
    have ha' : a.RangeValid body := of_decide_eq_true ha
    have hb' : b.RangeValid body := of_decide_eq_true hb
    simp only [Apart, MessagePart.RangeValid, MessagePart.rawStart, MessagePart.rawEnd]
      at hab ha' hb' ⊢
    omega
  rw [cuts, map_map]
  refine descends_of_pairwise (pairwise_map.mpr hsorted) (forall_mem_map.mpr fun a ha => ?_)
  have hvalid : a.RangeValid body := of_decide_eq_true (mem_filter.mp ha).2
  exact ⟨Nat.le_of_lt hvalid, Nat.min_le_right _ _⟩

theorem foldlM_stripPart (body : Bytes) (filter : Option ExtractionFilter)
    (atts : List MessagePart) (d : DetachedBody) :
    atts.foldlM (stripPart X body filter) d =
      ((((atts.filter fun att => att.RangeValid body).map fun att =>
        (⟨att.rawStart body, att.rawEnd body,
          att.rawHash X body⟩ : Cut String)).map (cutEdit placeholder)).foldlM
            (fun t e => splice e.start e.stop e.new t) d.strippedEml).map fun strippedEml =>
        { strippedEml
          blobs := d.blobs ++ atts.map fun att =>
            (att.rawHash X body, att.rawBody body)
          infos := d.infos ++ atts.map fun att => att.info X body
          textCandidates := d.textCandidates ++ atts.flatMap fun att =>
            att.textCandidates X filter } := by
  induction atts generalizing d with
  | nil => simp
  | cons att atts ih =>
    rw [foldlM_cons, stripPart]
    by_cases hvalid : att.RangeValid body
    · simp only [hvalid, if_true, decide_true, filter_cons_of_pos, map_cons,
        foldlM_cons, cutEdit]
      cases splice (att.rawStart body) (att.rawEnd body)
          (placeholder (att.rawHash X body)) d.strippedEml with
      | none => rfl
      | some eml =>
        simp only [Option.map_some, Option.bind_eq_bind, Option.bind_some, ih]
        simp
    · simp [hvalid, ih]

theorem stripAttachmentBodies_eq
    (filter : Option ExtractionFilter) (h : atts.Pairwise (Apart body)) :
    stripAttachmentBodies X body atts filter = some
      { strippedEml := rewrite ((cuts X body atts).map (cutEdit placeholder))
          body
        blobs := (inReverse atts).map fun att =>
          (att.rawHash X body, att.rawBody body)
        infos := (inReverse atts).map fun att => att.info X body
        textCandidates := (inReverse atts).flatMap fun att =>
          att.textCandidates X filter } := by
  rw [stripAttachmentBodies, foldlM_stripPart]
  change Option.map _ (((cuts X body atts).map (cutEdit placeholder)).foldlM _ _) = _
  rw [foldlM_splice (descends_cuts X h)]
  simp

/-- The inputs of the hash function for the attachments: the encoded body in the
domain of raw bodies, the contents in the plain one. -/
def hashed (body : Bytes) (atts : List MessagePart) : List (Option String × Bytes) :=
  atts.flatMap fun att =>
    [(some "bichon.raw-mime-attachment.v1", att.rawBody body), (none, att.contents)]

def Extern.digest : Option String × Bytes → String
  | (none, content) => X.blake3 content
  | (some context, content) => X.blake3DeriveKey context content

/-- No two different inputs have the same hash. -/
def CollisionFree (body : Bytes) (atts : List MessagePart) : Prop :=
  ∀ x ∈ hashed body atts, ∀ y ∈ hashed body atts,
    X.digest x = X.digest y → x = y

instance (body : Bytes) (atts : List MessagePart) :
    Decidable (CollisionFree X body atts) :=
  inferInstanceAs (Decidable (∀ x ∈ _, ∀ y ∈ _, _))

def loadFrom (blobs : List (String × Bytes)) (hash : String) : Except BichonError (Option Bytes) :=
  .ok (blobs.lookup hash)

/-- What stripping and reattaching makes of a message, unless one of them fails. -/
def reattached (body : Bytes) (atts : List MessagePart)
    (filter : Option ExtractionFilter) : Option Bytes := do
  let d ← stripAttachmentBodies X body atts filter
  (reattachParts d.strippedEml d.infos (loadFrom d.blobs)).toOption

/-- Reattaching what was stripped returns the original message. -/
def RoundTrips (body : Bytes) (atts : List MessagePart)
    (filter : Option ExtractionFilter) : Prop :=
  reattached X body atts filter = some body

instance (body : Bytes) (atts : List MessagePart)
    (filter : Option ExtractionFilter) :
    Decidable (RoundTrips X body atts filter) :=
  inferInstanceAs (Decidable (_ = _))

section

variable (body : Bytes) (atts : List MessagePart)

/-- A hash that the search may look for: that of an encoded body, or that of the
contents of an attachment without a valid range. -/
def SearchedHash (hash : String) : Prop :=
  ∃ att ∈ atts, hash = att.rawHash X body ∨
    (¬ att.RangeValid body ∧ hash = computeContentHash X att.contents)

/-- A placeholder of the message itself, outside of the bodies of its attachments. -/
def WrittenAt (i : Nat) (hash : String) :
    Prop :=
  placeholder hash <+: body.drop i ∧ ∀ att ∈ atts, att.RangeValid body →
    i + (placeholder hash).length ≤ att.rawStart body ∨ att.rawEnd body ≤ i

/-- The message has no placeholder of its own for a hash that is searched for. -/
def NoneWritten : Prop :=
  ∀ i hash, SearchedHash X body atts hash → ¬ WrittenAt body atts i hash

/-- No encoded body contains its own hash as a placeholder. -/
def NoSelfReference : Prop := ∀ att ∈ atts, ¬ placeholder (att.rawHash X body) <:+: att.rawBody body

end

section RoundTrip

variable {X} {body : Bytes} {atts : List MessagePart}

variable {hash : String}

theorem literal_cuts {i : Nat} :
    Literal placeholder (cuts X body atts) body i hash ↔ WrittenAt body atts i hash := by
  simp only [Literal, WrittenAt, cuts, forall_mem_map, mem_filter, mem_inReverse,
    decide_eq_true_eq, and_imp]

variable {c : Cut String}

theorem mem_cuts : c ∈ cuts X body atts ↔
    ∃ att ∈ atts, att.RangeValid body ∧
      (⟨att.rawStart body, att.rawEnd body, att.rawHash X body⟩ :
        Cut String) = c := by
  simp only [cuts, mem_map, mem_filter, mem_inReverse, decide_eq_true_eq, and_assoc]

variable {att : MessagePart}

theorem rawBody_ne_nil (h : att.RangeValid body) : att.rawBody body ≠ [] := by
  rw [MessagePart.rawBody, if_pos h, ← length_pos_iff, length_drop, length_take]
  have hle : att.rawEnd body ≤ body.length := Nat.min_le_right _ _
  have hlt : att.rawStart body < att.rawEnd body := h
  omega

theorem isDigest_rawHash (att : MessagePart) (body : Bytes) : IsDigest (att.rawHash X body) :=
  X.isDigest_blake3DeriveKey _ _

theorem isDigest_contentHash (content : Bytes) : IsDigest (computeContentHash X content) :=
  X.isDigest_blake3 content

/-- The text of the message after its attachment bodies were cut out. -/
abbrev strippedText (X : Extern) (body : Bytes) (atts : List MessagePart) : Bytes :=
  rewrite ((cuts X body atts).map (cutEdit placeholder)) body

theorem lt_of_mem_cuts (h : c ∈ cuts X body atts) : c.start < c.stop := by
  obtain ⟨att, -, hvalid, rfl⟩ := mem_cuts.mp h
  exact hvalid

theorem isDigest_of_mem_cuts (h : c ∈ cuts X body atts) : IsDigest c.key := by
  obtain ⟨att, -, -, rfl⟩ := mem_cuts.mp h
  exact isDigest_rawHash att body

/-- A placeholder of the stripped text stands for a body or was written by the
sender. -/
theorem occurs_strippedText (hap : atts.Pairwise (Apart body)) (h : IsDigest hash) :
    Occurs (strippedText X body atts) hash ↔
      (∃ att ∈ atts, att.RangeValid body ∧ att.rawHash X body = hash) ∨
        ∃ i, WrittenAt body atts i hash := by
  rw [Occurs, exists_isPrefix_rewrite_iff separated_placeholder
    ⟨descends_cuts X hap, fun _ => lt_of_mem_cuts, fun _ => isDigest_of_mem_cuts⟩ h]
  simp only [literal_cuts, mem_cuts]
  constructor
  · rintro (⟨c, ⟨att, hatt, hvalid, rfl⟩, hkey⟩ | hwritten)
    · exact .inl ⟨att, hatt, hvalid, hkey⟩
    · exact .inr hwritten
  · rintro (⟨att, hatt, hvalid, hkey⟩ | hwritten)
    · exact .inl ⟨_, ⟨att, hatt, hvalid, rfl⟩, hkey⟩
    · exact .inr hwritten

theorem rawBody_of_not_occurs (hap : atts.Pairwise (Apart body))
    (hatt : att ∈ atts)
    (h : ¬ Occurs (strippedText X body atts) (att.rawHash X body)) :
    ¬ att.RangeValid body ∧ att.rawBody body = [] := by
  have hinvalid : ¬ att.RangeValid body := fun hvalid =>
    h ((occurs_strippedText hap (isDigest_rawHash att body)).mpr (.inl ⟨att, hatt, hvalid, rfl⟩))
  exact ⟨hinvalid, if_neg hinvalid⟩

theorem searchedFor_info {eml : Bytes} {alt : Option String} :
    SearchedFor eml (att.info X body) hash alt ↔
      (hash = att.rawHash X body ∧ alt = none) ∨
        (¬ Occurs eml (att.rawHash X body) ∧ hash = computeContentHash X att.contents ∧
          alt = some (att.rawHash X body)) := by
  simp [SearchedFor, AttachmentInfo.storageHash, MessagePart.info]

/-- The metadata of the attachments, in the order of the splices. -/
abbrev detachedInfos (X : Extern) (body : Bytes) (atts : List MessagePart) :
    List AttachmentInfo :=
  (inReverse atts).map fun att => att.info X body

theorem digests_detachedInfos : Digests (detachedInfos X body atts) where
  storage := by
    rw [forall_mem_map]
    exact fun att _ => isDigest_rawHash att body
  content := by
    rw [forall_mem_map]
    exact fun att _ => isDigest_contentHash att.contents

/-- The hash is searched for in the stripped text. -/
abbrev Searched (X : Extern) (body : Bytes) (atts : List MessagePart) :
    String → Prop :=
  SearchedIn (strippedText X body atts) (detachedInfos X body atts)

theorem searched_iff : Searched X body atts hash ↔
    ∃ att ∈ atts, hash = att.rawHash X body ∨
      (¬ Occurs (strippedText X body atts) (att.rawHash X body) ∧
        hash = computeContentHash X att.contents) := by
  simp only [Searched, SearchedIn, mem_map, exists_exists_and_eq_and, searchedFor_info,
    mem_inReverse, exists_or, exists_and_left, exists_eq, and_true]

/-- The blobs under the hashes of their bodies. -/
abbrev rawBlobs (X : Extern) (body : Bytes) (atts : List MessagePart) :
    List (String × Bytes) :=
  atts.map fun att => (att.rawHash X body, att.rawBody body)

/-- What a placeholder is filled with. -/
def fillOf (blobs : List (String × Bytes)) (hash : String) : Bytes := (blobs.lookup hash).getD []

variable {load : String → Except BichonError (Option Bytes)} {t : Task}

theorem Task.data_of_some
    {data : Bytes} (h : load t.hash = .ok (some data)) : t.data load = .ok (some data) := by
  rw [Task.data, h]
  rfl

theorem Task.data_of_none {alt : String} (h : load t.hash = .ok none) (halt : t.alt = some alt) :
    t.data load = load alt := by
  rw [Task.data, h, halt]
  rfl

theorem foldlM_runTask {fill : String → Bytes} {tasks : List Task}
    (h : ∀ t ∈ tasks, t.data load = .ok (some (fill t.hash)) ∧
      t.stop = t.start + (placeholder t.hash).length)
    (eml : Bytes) :
    tasks.foldlM (runTask load) eml =
      match ((tasks.map fun t => (t.start, t.hash)).map (fillEdit placeholder fill)).foldlM
        (fun t e => splice e.start e.stop e.new t) eml with
      | none => .error .panic
      | some eml => .ok eml := by
  induction tasks generalizing eml with
  | nil => rfl
  | cons t tasks ih =>
    obtain ⟨hdata, hstop⟩ := h t (mem_cons_self ..)
    have htail := ih fun u hu => h u (mem_cons_of_mem t hu)
    simp only [foldlM_cons, map_cons, runTask, hdata, hstop, fillEdit]
    cases splice t.start (t.start + (placeholder t.hash).length) (fill t.hash) eml with
    | none => rfl
    | some eml' => exact htail eml'

variable (hcf : CollisionFree X body atts)

include hcf

theorem rawBody_eq {a b : MessagePart} (ha : a ∈ atts) (hb : b ∈ atts)
    (h : a.rawHash X body = b.rawHash X body) :
    a.rawBody body = b.rawBody body := by
  have := hcf (some "bichon.raw-mime-attachment.v1", a.rawBody body)
    (mem_flatMap.mpr ⟨a, ha, by simp⟩)
    (some "bichon.raw-mime-attachment.v1", b.rawBody body)
    (mem_flatMap.mpr ⟨b, hb, by simp⟩) h
  exact (Prod.mk.inj this).2

theorem contentHash_ne {a b : MessagePart} (ha : a ∈ atts) (hb : b ∈ atts) :
    computeContentHash X a.contents ≠ b.rawHash X body := by
  intro h
  have := hcf (none, a.contents) (mem_flatMap.mpr ⟨a, ha, by simp⟩)
    (some "bichon.raw-mime-attachment.v1", b.rawBody body)
    (mem_flatMap.mpr ⟨b, hb, by simp⟩) h
  exact absurd (Prod.mk.inj this).1 (Option.some_ne_none _).symm

theorem lookup_rawHash {l : List MessagePart} (hl : ∀ a ∈ l, a ∈ atts) (hatt : att ∈ l) :
    (rawBlobs X body l).lookup (att.rawHash X body) =
      some (att.rawBody body) := by
  induction l with
  | nil => cases hatt
  | cons a l ih =>
    rw [rawBlobs, map_cons, lookup_cons]
    by_cases heq : att.rawHash X body = a.rawHash X body
    · have hbody := rawBody_eq hcf (hl att hatt) (hl a (mem_cons_self ..)) heq
      rw [beq_iff_eq.mpr heq, hbody]
    · have htail : att ∈ l := by
        rcases mem_cons.mp hatt with rfl | htail
        · exact absurd rfl heq
        · exact htail
      rw [beq_eq_false_iff_ne.mpr heq]
      exact ih (fun b hb => hl b (mem_cons_of_mem a hb)) htail

theorem lookup_contentHash {l : List MessagePart} (hl : ∀ a ∈ l, a ∈ atts)
    (hatt : att ∈ atts) :
    (rawBlobs X body l).lookup (computeContentHash X att.contents) = none := by
  rw [lookup_eq_none_iff]
  intro p hp
  obtain ⟨a, ha, rfl⟩ := mem_map.mp hp
  exact bne_iff_ne.mpr (contentHash_ne hcf hatt (hl a ha))

theorem fillOf_cut (hc : c ∈ cuts X body atts) :
    fillOf (rawBlobs X body (inReverse atts)) c.key = (cutEdit placeholder c).old body := by
  obtain ⟨att, hatt, hvalid, rfl⟩ := mem_cuts.mp hc
  rw [fillOf, lookup_rawHash hcf (fun a => mem_inReverse.mp) (mem_inReverse.mpr hatt),
    Option.getD_some, MessagePart.rawBody, if_pos hvalid]
  rfl

theorem not_infix_fillOf (hself : NoSelfReference X body atts)
    (h : Searched X body atts hash) :
    ¬ placeholder hash <:+: fillOf (rawBlobs X body (inReverse atts)) hash := by
  obtain ⟨att, hatt, rfl | ⟨-, rfl⟩⟩ := searched_iff.mp h
  · rw [fillOf, lookup_rawHash hcf (fun a => mem_inReverse.mp) (mem_inReverse.mpr hatt),
      Option.getD_some]
    exact hself att hatt
  · rw [fillOf, lookup_contentHash hcf (fun a => mem_inReverse.mp) hatt, Option.getD_none,
      infix_nil]
    exact placeholder_ne_nil _

variable (hap : atts.Pairwise (Apart body))

include hap

theorem data_reattachTasks
    (ht : t ∈ reattachTasks (strippedText X body atts)
      (detachedInfos X body atts)) :
    t.data (loadFrom (rawBlobs X body (inReverse atts))) =
      .ok (some (fillOf (rawBlobs X body (inReverse atts)) t.hash)) ∧
    t.stop = t.start + (placeholder t.hash).length := by
  have hl : ∀ a ∈ inReverse atts, a ∈ atts := fun a => mem_inReverse.mp
  obtain ⟨⟨detail, hdetail, hs⟩, -, hstop⟩ :=
    (mem_flatMap_attachmentTasks digests_detachedInfos).mp (mem_of_mem_reattachTasks ht)
  obtain ⟨att, hatt, rfl⟩ := mem_map.mp hdetail
  refine ⟨?_, hstop⟩
  rcases searchedFor_info.mp hs with ⟨hhash, -⟩ | ⟨hnone, hhash, halt⟩
  · rw [fillOf, hhash, lookup_rawHash hcf hl hatt, Option.getD_some]
    exact Task.data_of_some (by rw [hhash, loadFrom, lookup_rawHash hcf hl hatt])
  · have hcontent := lookup_contentHash hcf hl (hl att hatt)
    rw [fillOf, hhash, hcontent, Task.data_of_none (by rw [hhash, loadFrom, hcontent]) halt,
      loadFrom, lookup_rawHash hcf hl hatt, (rawBody_of_not_occurs hap (hl att hatt) hnone).2]
    rfl

theorem reattachParts_strippedText :
    reattachParts (strippedText X body atts)
      (detachedInfos X body atts)
      (loadFrom (rawBlobs X body (inReverse atts))) =
    .ok (rewrite (((reattachTasks (strippedText X body atts)
      (detachedInfos X body atts)).map fun t => (t.start, t.hash)).map
        (fillEdit placeholder (fillOf (rawBlobs X body (inReverse atts)))))
      (strippedText X body atts)) := by
  rw [reattachParts, foldlM_runTask fun t ht => data_reattachTasks hcf hap ht,
    foldlM_splice ((marks_reattachTasks digests_detachedInfos _).descends
      (separated_searchedIn digests_detachedInfos) _)]

/-- It is enough to look at the hashes that are searched for in the stripped text:
the decoded ones only come in when no placeholder of the empty body was written. -/
theorem noneWritten_iff :
    NoneWritten X body atts ↔ ∀ i hash, Searched X body atts hash →
      ¬ Literal placeholder (cuts X body atts) body i hash := by
  simp only [searched_iff, literal_cuts]
  constructor
  · rintro hnone i hash ⟨att, hatt, hraw | ⟨hnot, hcontent⟩⟩
    · exact hnone i hash ⟨att, hatt, .inl hraw⟩
    · exact hnone i hash ⟨att, hatt,
        .inr ⟨(rawBody_of_not_occurs hap hatt hnot).1, hcontent⟩⟩
  · rintro hnone i hash ⟨att, hatt, hraw | ⟨hinvalid, hcontent⟩⟩
    · exact hnone i hash ⟨att, hatt, .inl hraw⟩
    · refine hnone i hash ⟨att, hatt, .inr ⟨fun hoccurs => ?_, hcontent⟩⟩
      rcases (occurs_strippedText hap (isDigest_rawHash att body)).mp hoccurs with
        ⟨b, hb, hvalid, heq⟩ | ⟨j, hj⟩
      · apply rawBody_ne_nil hvalid
        rw [rawBody_eq hcf hb hatt heq, MessagePart.rawBody, if_neg hinvalid]
      · exact hnone j _ ⟨att, hatt, .inl rfl⟩ hj

end RoundTrip

/-- The message comes back when it has no placeholder of its own for a hash that
is searched for, and only then, unless an encoded body contains its own hash. -/
theorem reattach_strip_iff {body : Bytes} {atts : List MessagePart}
    (filter : Option ExtractionFilter) (hcf : CollisionFree X body atts)
    (hap : atts.Pairwise (Apart body)) :
    (NoneWritten X body atts → RoundTrips X body atts filter) ∧
      (NoSelfReference X body atts →
        RoundTrips X body atts filter → NoneWritten X body atts) := by
  have hround : RoundTrips X body atts filter ↔ rewrite
      (((reattachTasks (strippedText X body atts)
        (detachedInfos X body atts)).map fun t => (t.start, t.hash)).map
          (fillEdit placeholder (fillOf (rawBlobs X body (inReverse atts)))))
        (strippedText X body atts) = body := by
    rw [RoundTrips, reattached, stripAttachmentBodies_eq X filter hap]
    simp only [Option.bind_eq_bind, Option.bind_some, reattachParts_strippedText hcf hap,
      Except.toOption, Option.some.injEq]
  obtain ⟨hback, honly⟩ := restore_eq (separated_searchedIn digests_detachedInfos)
    ⟨descends_cuts X hap, fun _ => lt_of_mem_cuts, fun c hc => by
      obtain ⟨att, hatt, -, rfl⟩ := mem_cuts.mp hc
      exact searched_iff.mpr ⟨att, hatt, .inl rfl⟩⟩
    (fun c hc => fillOf_cut hcf hc) (marks_reattachTasks digests_detachedInfos _)
  rw [hround, noneWritten_iff hcf hap]
  exact ⟨hback, fun hself => honly fun hash h => not_infix_fillOf hcf hself h⟩

/-- The hashes of the byte `A` and of the empty text, as the hash function returns
them; every other text is taken to be the empty one. -/
def sampleExtern : Extern where
  blake3 content :=
    if content = [65] then "32684bfa28c0c84d6f210511aace0efc5171c7889148ba89208d5aa29705fa98"
    else "af1349b9f5f9a1a6a0404dea36dcc9499bcb25c9adc112b7cc9a93cae41f3262"
  blake3DeriveKey _ content :=
    if content = [65] then "35341528e4d2dcabd916bf7209d5286c551b69fe2382bc942f87a47b515f811f"
    else "f0b81b9bceb58723091f4517944faf73e88415c19d75f0b4e6b22b963a759f51"
  isDigest_blake3 content := by split <;> decide +kernel
  isDigest_blake3DeriveKey _ content := by split <;> decide +kernel
  regexMatches _ _ := false
  extension _ := none
  maxExtractBytes := 0
  extractText _ _ _ := none

/-- Two attachments `A` with a byte between them, and one whose range is empty. -/
def sampleAttachments : List MessagePart :=
  [{ rawBodyOffset := 0, rawEndOffset := 1, contents := [65] },
    { rawBodyOffset := 2, rawEndOffset := 3, contents := [65] },
    { rawBodyOffset := 9, rawEndOffset := 4, contents := [] }]

theorem reattach_strip_iff_sample :
    NoneWritten sampleExtern [65, 66, 65] sampleAttachments ∧
      RoundTrips sampleExtern [65, 66, 65] sampleAttachments none := by
  have hnone : NoneWritten sampleExtern [65, 66, 65] sampleAttachments := by
    rintro i hash ⟨att, -, hhash⟩ ⟨hpat, -⟩
    have hdigest : IsDigest hash := by
      rcases hhash with rfl | ⟨-, rfl⟩
      · exact isDigest_rawHash att _
      · exact isDigest_contentHash _
    have hlen := isPrefix_drop_length (placeholder_ne_nil hash) hpat
    rw [length_placeholder hdigest] at hlen
    simp at hlen
  exact ⟨hnone, (reattach_strip_iff sampleExtern none (by decide +kernel)
    (by decide +kernel)).1 hnone⟩

/-- A message that starts with the placeholder of its own attachment `A`. -/
def writtenBody : Bytes :=
  placeholder "35341528e4d2dcabd916bf7209d5286c551b69fe2382bc942f87a47b515f811f" ++ [65]

def writtenAttachments : List MessagePart :=
  [{ rawBodyOffset := 87, rawEndOffset := 88, contents := [65] }]

/-- Both placeholders are filled: the message comes back as `AA`. -/
theorem reattach_fills_written_placeholder :
    CollisionFree sampleExtern writtenBody writtenAttachments ∧
      writtenAttachments.Pairwise (Apart writtenBody) ∧
      reattached sampleExtern writtenBody writtenAttachments none = some [65, 65] ∧
      ¬ RoundTrips sampleExtern writtenBody writtenAttachments none := by
  decide +kernel

end Bichon.Envelope
