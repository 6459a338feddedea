import Mathlib.Data.Finset.Max
import Mathlib.Data.Finset.Option
import Bichon.Lib.Reindex

/-!
# Changing the tags of documents

A tag update rebuilds the document from what the index returns of it, its stored fields. For
an envelope the other fields are made again from stored ones and from the message; for an
attachment they are not. The tags that are read are encoded facets, the tags of a request are
paths, and the tags that are added again are read as paths.

The facets, the tokenizers, the parsers and the stored messages are given from outside.
-/

namespace Bichon.Archive

open Reindex Option

inductive TagAction
  | add
  | remove
  | overwrite
  deriving DecidableEq

/-- The loop over the tags of a request. -/
def TagAction.apply (action : TagAction) (current tags : Finset String) : Finset String :=
  match action with
  | .add => current ∪ tags
  | .remove => current \ tags
  | .overwrite => tags

section

variable (fromText : String → Option String)

def facets (paths : Finset String) : Finset String :=
  paths.biUnion fun path => (fromText path).toFinset

/-- `add_facet` for each of them, which panics if one is no path. -/
def addFacets (paths : Finset String) : Option (Finset String) :=
  if ∀ path ∈ paths, (fromText path).isSome then some (facets fromText paths) else none

/-- The tags of the new document. What was stored is added as if it were a path. -/
def retag (action : TagAction) (stored tags : Finset String) : Option (Finset String) :=
  addFacets fromText (action.apply stored tags)

end

theorem addFacets_of_valid {fromText : String → Option String} {paths : Finset String}
    (h : ∀ path ∈ paths, (fromText path).isSome) :
    addFacets fromText paths = some (facets fromText paths) :=
  if_pos h

/-- A stored facet is displayed longer than what it is as a path, so the one with the longest
display is not among those that are added again. -/
theorem addFacets_display_ne {fromText : String → Option String} {display : String → String}
    (hshort : ∀ path facet, fromText path = some facet →
      (display facet).length < (display path).length)
    {stored : Finset String} (hne : stored.Nonempty) :
    (addFacets fromText stored).map (Finset.image display) ≠ some (stored.image display) := by
  intro h
  obtain ⟨added, hadded, himage⟩ := map_eq_some_iff.mp h
  have heq : added = facets fromText stored := by
    unfold addFacets at hadded
    split at hadded
    · exact (some.inj hadded).symm
    · cases hadded
  obtain ⟨longest, hlongest, hmax⟩ := stored.exists_max_image (fun facet => (display facet).length)
    hne
  have hmem := Finset.mem_image_of_mem display hlongest
  rw [← himage, heq, Finset.mem_image] at hmem
  obtain ⟨facet, hfacet, hsame⟩ := hmem
  obtain ⟨path, hpath, hread⟩ := Finset.mem_biUnion.mp hfacet
  have hlt := hshort path facet (by simpa using hread)
  rw [hsame] at hlt
  exact absurd (hmax path hpath) (Nat.not_le.mpr hlt)

/-- Every update leaves the tags that its action says, as they are read back, if and only if it
overwrites them or there were none. -/
theorem retag_exact_iff (fromText : String → Option String) (display : String → String)
    (hshort : ∀ path facet, fromText path = some facet →
      (display facet).length < (display path).length)
    (action : TagAction) (stored : Finset String) :
    (∀ tags : Finset String, (∀ path ∈ tags, (fromText path).isSome) →
        (retag fromText action stored tags).map (Finset.image display) =
          some ((action.apply stored (facets fromText tags)).image display)) ↔
      action = .overwrite ∨ stored = ∅ := by
  constructor
  · intro h
    by_contra hneg
    obtain ⟨haction, hstored⟩ := not_or.mp hneg
    have hsame : action.apply stored ∅ = stored := by
      cases action with
      | add => exact Finset.union_empty stored
      | remove => exact Finset.sdiff_empty
      | overwrite => exact (haction rfl).elim
    have hempty := h ∅ (by simp)
    rw [retag, show facets fromText ∅ = ∅ from Finset.biUnion_empty, hsame] at hempty
    exact addFacets_display_ne hshort (Finset.nonempty_iff_ne_empty.mpr hstored) hempty
  · rintro (rfl | rfl) tags htags
    · rw [retag, TagAction.apply, addFacets_of_valid htags, map_some, TagAction.apply]
    · cases action with
      | add | overwrite => simp [retag, TagAction.apply, addFacets_of_valid htags]
      | remove => simp [retag, TagAction.apply, addFacets, facets]

/-- Paths without escapes: the slashes are encoded as zero characters. -/
def plainFacet (path : String) : Option String :=
  match path.toList with
  | '/' :: rest => some (String.ofList (rest.map fun c => if c = '/' then '\x00' else c))
  | _ => none

def displayChar (c : Char) : List Char :=
  if c = '\x00' then ['/'] else if c = '/' ∨ c = '\\' then ['\\', '/'] else [c]

/-- A segment is written behind a slash, and both kinds of slashes in it are written the same. -/
def displayFacet (facet : String) : String :=
  String.ofList ('/' :: facet.toList.flatMap displayChar)

theorem length_display_encoded (path : List Char) :
    ((path.map fun c => if c = '/' then '\x00' else c).flatMap displayChar).length ≤
      (path.flatMap displayChar).length := by
  induction path with
  | nil => exact Nat.le_refl _
  | cons c path ih =>
    rw [List.map_cons, List.flatMap_cons, List.flatMap_cons, List.length_append, List.length_append]
    refine Nat.add_le_add ?_ ih
    by_cases hc : c = '/'
    · subst hc
      decide
    · rw [if_neg hc]

theorem length_plainFacet (path facet : String) (h : plainFacet path = some facet) :
    (displayFacet facet).length < (displayFacet path).length := by
  unfold plainFacet at h
  split at h
  next rest hpath =>
    have hle := length_display_encoded rest
    rw [← some.inj h, displayFacet, displayFacet, hpath, String.length_ofList, String.length_ofList,
      String.toList_ofList, List.flatMap_cons, List.length_cons, List.length_cons,
      List.length_append]
    exact Nat.succ_lt_succ (Nat.lt_of_le_of_lt hle (Nat.lt_add_of_pos_left (by decide)))
  next => cases h

theorem retag_exact_iff_untagged :
    (retag plainFacet .add ∅ {"/work/mail"}).map (Finset.image displayFacet) =
      some {"/work/mail"} :=
  ((retag_exact_iff plainFacet displayFacet length_plainFacet .add ∅).mpr (.inr rfl)
    {"/work/mail"} (by decide)).trans (by decide)

/-- A tag is added to an envelope that has one: adding that one again panics. -/
theorem retag_panics :
    (plainFacet "/work").isSome ∧ (plainFacet "/mail").isSome ∧
      retag plainFacet .add (facets plainFacet {"/work"}) {"/mail"} = none := by
  decide

/-! ## Documents -/

inductive Value
  | text (s : String)
  | number (n : Int)
  | flag (b : Bool)
  | facet (encoded : String)

def Value.asStr : Value → Option String
  | .text s => some s
  | _ => none

structure Doc (F : Type) where
  id : String
  accountId : Nat
  tags : Finset String
  values : F → List Value

/-- The fields of an index. `tokens` are the terms that a value has in a field. -/
structure Schema (F : Type) where
  stored : F → Bool
  indexed : F → Bool
  tokens : F → Value → List String

namespace Schema

variable {F : Type} (S : Schema F)

def terms (f : F) (values : List Value) : List String := values.flatMap (S.tokens f)

def returned (d : Doc F) (f : F) : List Value := if S.stored f then d.values f else []

/-- The terms are the same in every field but the tags. -/
def SameTerms (d d' : Doc F) : Prop :=
  d'.id = d.id ∧ d'.accountId = d.accountId ∧
    ∀ f, S.indexed f = true → ∀ t, t ∈ S.terms f (d'.values f) ↔ t ∈ S.terms f (d.values f)

/-- A tag update over the index: `remade` are the values of the fields that are not stored, and
`key` is the field in which a name is looked up. -/
def tagIndex (key : Doc F → Option String) (remade : (F → List Value) → F → List Value)
    (fromText : String → Option String) (action : TagAction) (tags : List String) :
    Index (Doc F) (Option String) (Nat × String) where
  id d := some d.id
  key := key
  owns u d := d.accountId == u.1
  target u := some u.2
  rebuild d := (retag fromText action d.tags tags.toFinset).map fun tags =>
    { d with tags, values := fun f => if S.stored f then d.values f else remade (S.returned d) f }
  id_rebuild h := by
    obtain ⟨_, -, rfl⟩ := Option.map_eq_some_iff.mp h
    rfl

end Schema

inductive EmailField
  | fMessageId | fMailboxId | fUid | fSubject | fBody | fPreview | fContentHash | fFrom | fTo | fCc
  | fBcc | fFromText | fToText | fCcText | fBccText | fDate | fInternalDate | fIngestAt | fSize
  | fThreadId | fAttachmentCount | fRegularAttachmentCount | fAttachmentNameText
  | fAttachmentNameExact | fAttachments | fAttachmentContentHash | fAttachmentExt
  | fAttachmentCategory | fAttachmentContentType | fShardId

inductive AttachmentField
  | fEnvelopeId | fMailboxId | fSubject | fContentHash | fFrom | fFromText | fDate | fIngestAt
  | fSize | fExt | fCategory | fContentType | fShardId | fText | fHasText | fIsOcr | fPageCount
  | fIsIndexed | fIsMessage | fNameText | fNameExact | fAutoTags

def emailSchema (tokens : EmailField → Value → List String) : Schema EmailField where
  stored
    | .fBody | .fFromText | .fToText | .fCcText | .fBccText | .fAttachmentNameText
    | .fAttachmentNameExact => false
    | _ => true
  indexed
    | .fPreview | .fAttachments => false
    | _ => true
  tokens := tokens

def attachmentSchema (tokens : AttachmentField → Value → List String) : Schema AttachmentField where
  stored
    | .fFromText | .fText | .fNameText => false
    | _ => true
  indexed _ := true
  tokens := tokens

/-- An entry of the stored JSON of attachments. -/
structure AttachmentEntry where
  inline : Bool
  contentId : String
  filename : Option String

/-- What an update of an envelope reads besides the index: the JSON of attachments, and the text
of a stored message with single spaces. -/
structure Sources where
  fromText : String → Option String
  parseAttachments : String → Option (List AttachmentEntry)
  bodyText : String → Option String

def firstText (values : List Value) : Option String := values.head?.bind Value.asStr

def texts (values : List Value) : List Value := (values.filterMap Value.asStr).map .text

def AttachmentEntry.name (entry : AttachmentEntry) : Option String :=
  if entry.inline && !entry.contentId.isEmpty then none
  else entry.filename.filter fun name => !name.isEmpty

def remadeEnvelope (E : Sources) (old : EmailField → List Value) : EmailField → List Value
  | .fFromText => texts (old .fFrom)
  | .fToText => texts (old .fTo)
  | .fCcText => texts (old .fCc)
  | .fBccText => texts (old .fBcc)
  | .fAttachmentNameText | .fAttachmentNameExact =>
    (((firstText (old .fAttachments)).bind E.parseAttachments).getD []).filterMap fun entry =>
      entry.name.map .text
  | .fBody =>
    let body := (firstText (old .fContentHash)).bind E.bodyText
    (body.filter fun text => !text.isEmpty).toList.map .text
  | _ => []

/-- The index of `update_envelope_tags`. -/
def envelopeTags (E : Sources) (tokens : EmailField → Value → List String) (action : TagAction)
    (tags : List String) : Index (Doc EmailField) (Option String) (Nat × String) :=
  (emailSchema tokens).tagIndex (fun d => some d.id) (remadeEnvelope E) E.fromText action tags

/-- The index of `update_attachment_tags`: the names are looked up as ids of envelopes. -/
def attachmentTags (E : Sources) (tokens : AttachmentField → Value → List String)
    (action : TagAction) (tags : List String) :
    Index (Doc AttachmentField) (Option String) (Nat × String) :=
  (attachmentSchema tokens).tagIndex (fun d => firstText (d.values .fEnvelopeId)) (fun _ _ => [])
    E.fromText action tags

/-! ## What a tag update leaves alone -/

namespace Schema

variable {F : Type} (S : Schema F)

/-- A document that is found can be replaced: it has the id that is deleted, no other document
has it, and the fields that are not stored are made again with their terms. -/
structure Replaceable (remade : (F → List Value) → F → List Value) (docs : List (Doc F))
    (u : Nat × String) (d : Doc F) : Prop where
  id : d.id = u.2
  alone : docs.countP (fun e => e.id = u.2) = 1
  remade : ∀ f, S.indexed f = true → S.stored f = false → ∀ t,
    t ∈ S.terms f (remade (S.returned d) f) ↔ t ∈ S.terms f (d.values f)

theorem clean_iff {key : Doc F → Option String} {remade : (F → List Value) → F → List Value}
    {fromText : String → Option String} {action : TagAction} {tags : List String}
    {docs : List (Doc F)} {u : Nat × String} {d d' : Doc F}
    (h : (S.tagIndex key remade fromText action tags).rebuild d = some d') :
    (S.tagIndex key remade fromText action tags).Clean S.SameTerms docs u d ↔
      S.Replaceable remade docs u d := by
  obtain ⟨tags', -, rfl⟩ := map_eq_some_iff.mp h
  have hcount : (S.tagIndex key remade fromText action tags).count (some u.2) docs =
      docs.countP fun e => e.id = u.2 := by
    simp [Index.count, tagIndex]
  constructor
  · rintro ⟨hid, halone, hsame⟩
    refine ⟨some.inj hid, hcount ▸ halone, fun f hindexed hstored => ?_⟩
    have hterms := (hsame _ h).2.2 f hindexed
    simpa [hstored] using hterms
  · rintro ⟨hid, halone, hremade⟩
    refine ⟨congrArg some hid, hcount.trans halone, fun d' hd' => ?_⟩
    obtain ⟨tags', -, rfl⟩ := map_eq_some_iff.mp hd'
    refine ⟨rfl, rfl, fun f hindexed => ?_⟩
    cases hstored : S.stored f with
    | true => simp [hstored]
    | false => simpa [hstored] using hremade f hindexed hstored

/-- On which contents every tag update is a frame. -/
theorem tags_frame_iff (key : Doc F → Option String) (remade : (F → List Value) → F → List Value)
    (fromText : String → Option String) (action : TagAction) (tags : List String)
    (docs : List (Doc F)) :
    let X := S.tagIndex key remade fromText action tags
    (∀ us result, X.update docs docs us = some result → X.Frame S.SameTerms us docs result) ↔
      ∀ u d, docs.find? (X.finds u) = some d → X.rebuild d ≠ none →
        S.Replaceable remade docs u d := by
  intro X
  rw [Index.frame_iff X (fun d => ⟨rfl, rfl, fun _ _ _ => Iff.rfl⟩) fun d d' h => congrArg some h.1]
  refine forall₂_congr fun u d => ?_
  rw [forall_comm]
  refine forall_congr' fun hfind => ?_
  rw [ne_none_iff_exists', forall_exists_index]
  exact forall₂_congr fun d' hd' => S.clean_iff hd'

end Schema

/-- The contents of the two indexes on which every tag update replaces the documents that it
names and no others, and changes nothing but their tags. -/
theorem tag_updates_frame_iff (E : Sources) (emailTokens : EmailField → Value → List String)
    (attachmentTokens : AttachmentField → Value → List String) (action : TagAction)
    (tags : List String) (envelopes : List (Doc EmailField))
    (attachments : List (Doc AttachmentField)) :
    (let X := envelopeTags E emailTokens action tags
    (∀ us result, X.update envelopes envelopes us = some result →
        X.Frame (emailSchema emailTokens).SameTerms us envelopes result) ↔
      ∀ u d, envelopes.find? (X.finds u) = some d → X.rebuild d ≠ none →
        (emailSchema emailTokens).Replaceable (remadeEnvelope E) envelopes u d) ∧
    (let X := attachmentTags E attachmentTokens action tags
    (∀ us result, X.update attachments attachments us = some result →
        X.Frame (attachmentSchema attachmentTokens).SameTerms us attachments result) ↔
      ∀ u d, attachments.find? (X.finds u) = some d → X.rebuild d ≠ none →
        (attachmentSchema attachmentTokens).Replaceable (fun _ _ => []) attachments u d) :=
  ⟨Schema.tags_frame_iff _ _ _ _ _ _ _, Schema.tags_frame_iff _ _ _ _ _ _ _⟩

/-- An attachment with a text that was extracted from it. -/
def readAttachment : Doc AttachmentField where
  id := "a1"
  accountId := 1
  tags := ∅
  values
    | .fEnvelopeId => [.text "e1"]
    | .fText => [.text "invoice"]
    | _ => []

/-- Named by its envelope it is in the index twice afterwards, and the copy has no text. -/
theorem attachment_tags_duplicate :
    let E : Sources := ⟨plainFacet, fun _ => none, fun _ => none⟩
    ∃ copy, (attachmentTags E (fun _ v => v.asStr.toList) .overwrite []).update [readAttachment]
        [readAttachment] [(1, "e1")] = some [readAttachment, copy] ∧
      copy.id = "a1" ∧ copy.values .fText = [] :=
  ⟨_, rfl, rfl, rfl⟩

end Bichon.Archive
