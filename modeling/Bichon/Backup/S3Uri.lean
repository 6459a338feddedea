import Bichon.Lib.Texts

/-!
# The address of an S3 backup

A restore takes the endpoint, the bucket and the prefix of the backup from a config file,
writes them into one URI and reads them from it again. The fields are joined with slashes
as they are, and the URI is split at the first slashes behind the scheme.

How a text is printed for debugging is given from outside.
-/

namespace Bichon.Backup

open Texts

inductive BackupTargetType
  | s3
  | folder

/-- The fields of the config file that name the target. -/
structure RestoreFileConfig where
  targetType : BackupTargetType := .s3
  s3Endpoint : Text
  s3Bucket : Text
  keyPrefix : Text
  localDir : Option Text := none

def slash : Char := '/'

def defaultPrefix : Text := "bichon-backup".toList

def trimSlashes (text : Text) : Text := text.rdropWhile (· == slash)

def splitOnce (text : Text) : Option (Text × Text) :=
  match text.dropWhile (· != slash) with
  | [] => none
  | _ :: rest => some (text.takeWhile (· != slash), rest)

namespace RestoreFileConfig

def checkTarget (isDir : Text → Bool) (path : String) (c : RestoreFileConfig) :
    Except String Unit :=
  match c.targetType with
  | .s3 =>
    if (trim c.s3Endpoint).isEmpty then
      .error ("restore: config file " ++ path ++ " is missing s3_endpoint")
    else if (trim c.s3Bucket).isEmpty then
      .error ("restore: config file " ++ path ++ " is missing s3_bucket")
    else .ok ()
  | .folder =>
    let dir := trim (c.localDir.getD [])
    if dir.isEmpty then
      .error ("restore: config file " ++ path ++ " is missing local_dir (required when " ++
        "target_type is \"local\")")
    else if !isDir dir then
      .error ("restore: local backup directory '" ++ String.ofList dir ++ "' does not exist or " ++
        "is not a directory — is the volume still mounted?")
    else .ok ()

def prefixOrDefault (c : RestoreFileConfig) : Text :=
  if (trim c.keyPrefix).isEmpty then defaultPrefix else trimSlashes (trim c.keyPrefix)

def s3Uri (c : RestoreFileConfig) : Text :=
  "s3://".toList ++ (trim c.s3Endpoint ++ slash :: (trim c.s3Bucket ++ slash :: c.prefixOrDefault))

end RestoreFileConfig

def http : Text := ['h', 't', 't', 'p', ':', '/', '/']

def https : Text := ['h', 't', 't', 'p', 's', ':', '/', '/']

/-- The scheme of an endpoint, and the rest of the text. -/
def splitScheme (text : Text) : Text × Text :=
  match text.dropPrefix? http, text.dropPrefix? https with
  | some rest, _ => (http, rest)
  | none, some rest => (https, rest)
  | none, none => ([], text)

/-- The URI of the second error is not filled in. -/
def parseS3Uri (debug : Text → String) (uri : Text) : Except String (Text × Text × Text) :=
  match uri.dropPrefix? "s3://".toList with
  | none => .error ("restore: " ++ debug uri ++
      " is not an s3:// URI (expected s3://<endpoint>/<bucket>/<prefix>)")
  | some rest =>
    let (scheme, rest) := splitScheme rest
    let (host, path) := (splitOnce rest).getD (rest, [])
    let (bucket, keys) := (splitOnce path).getD (path, [])
    if bucket.isEmpty then .error "restore: bucket is required in \x7buri:?\x7d"
    else .ok (scheme ++ host, bucket, if keys.isEmpty then defaultPrefix else trimSlashes keys)

/-! ## Splitting at slashes -/

theorem splitOnce_append {a : Text} (h : slash ∉ a) (b : Text) :
    splitOnce (a ++ slash :: b) = some (a, b) := by
  have ha : ∀ c ∈ a, (c != slash) = true := fun c hc => bne_iff_ne.mpr fun heq => h (heq ▸ hc)
  rw [splitOnce, List.dropWhile_append_of_pos ha, List.takeWhile_append_of_pos ha]
  simp

theorem notMem_splitOnce (text rest : Text) : slash ∉ ((splitOnce text).getD (text, rest)).1 := by
  unfold splitOnce
  split
  next h =>
    intro hmem
    simpa using List.dropWhile_eq_nil_iff.mp h _ hmem
  next => exact fun hmem => by simpa using List.mem_takeWhile_imp hmem

theorem eq_append_of_dropPrefix {p rest text : Text} (h : text.dropPrefix? p = some rest) :
    text = p ++ rest := by
  obtain ⟨p', rfl, hp⟩ := List.dropPrefix?_eq_some_iff.mp h
  rw [eq_of_beq hp]

theorem dropPrefix_append (p rest : Text) : (p ++ rest).dropPrefix? p = some rest :=
  List.dropPrefix?_append_of_beq rest (beq_self_eq_true p)

theorem splitScheme_http (rest : Text) : splitScheme (http ++ rest) = (http, rest) := by
  rw [splitScheme, dropPrefix_append]

theorem splitScheme_https (rest : Text) : splitScheme (https ++ rest) = (https, rest) := by
  rw [splitScheme, dropPrefix_append]
  rfl

theorem splitScheme_cases (text : Text) :
    (∃ rest, text = http ++ rest) ∨ (∃ rest, text = https ++ rest) ∨
      splitScheme text = ([], text) := by
  unfold splitScheme
  split
  next h => exact .inl ⟨_, eq_append_of_dropPrefix h⟩
  next h => exact .inr (.inl ⟨_, eq_append_of_dropPrefix h⟩)
  next => exact .inr (.inr rfl)

theorem splitScheme_join (text : Text) : (splitScheme text).1 ++ (splitScheme text).2 = text := by
  obtain ⟨rest, rfl⟩ | ⟨rest, rfl⟩ | h := splitScheme_cases text
  · rw [splitScheme_http]
  · rw [splitScheme_https]
  · rw [h, List.nil_append]

/-- In front of a slash that is not doubled a text without slashes is no scheme. -/
theorem splitScheme_append {a b : Text} (ha : slash ∉ (splitScheme a).2)
    (hb : b.head? ≠ some slash) :
    splitScheme (a ++ slash :: b) = ((splitScheme a).1, (splitScheme a).2 ++ slash :: b) := by
  obtain ⟨rest, rfl⟩ | ⟨rest, rfl⟩ | h := splitScheme_cases a
  · rw [List.append_assoc, splitScheme_http, splitScheme_http]
  · rw [List.append_assoc, splitScheme_https, splitScheme_https]
  · rw [h] at ha ⊢
    have hdoubled : ∀ p rest : Text, slash ∉ p → a ++ slash :: b ≠ p ++ slash :: slash :: rest := by
      intro p rest hp heq
      have hsplit := congrArg splitOnce heq
      rw [splitOnce_append ha, splitOnce_append hp] at hsplit
      obtain ⟨-, rfl⟩ := Prod.mk.inj (Option.some.inj hsplit)
      exact hb rfl
    obtain ⟨rest, heq⟩ | ⟨rest, heq⟩ | hscheme := splitScheme_cases (a ++ slash :: b)
    · exact (hdoubled ['h', 't', 't', 'p', ':'] rest (by decide) heq).elim
    · exact (hdoubled ['h', 't', 't', 'p', 's', ':'] rest (by decide) heq).elim
    · exact hscheme

theorem trimSlashes_eq_nil_iff {text : Text} : trimSlashes text = [] ↔ ∀ c ∈ text, c = slash := by
  simp [trimSlashes, List.rdropWhile_eq_nil_iff]

/-! ## Writing and reading the address -/

theorem parseS3Uri_join {debug : Text → String} {a b : Text} (ha : slash ∉ (splitScheme a).2)
    (hb : slash ∉ b) (hne : b ≠ []) (c : Text) :
    parseS3Uri debug ("s3://".toList ++ (a ++ slash :: (b ++ slash :: c))) =
      .ok (a, b, if c.isEmpty then defaultPrefix else trimSlashes c) := by
  have hhead : (b ++ slash :: c).head? ≠ some slash := by
    cases b with
    | nil => exact (hne rfl).elim
    | cons x b => exact fun h => hb (Option.some.inj h ▸ List.mem_cons_self)
  rw [parseS3Uri, dropPrefix_append]
  simp only [splitScheme_append ha hhead, splitOnce_append ha, splitOnce_append hb,
    splitScheme_join, Option.getD_some]
  simp [hne]

/-- What is read has no slash in its host and none in its bucket. -/
theorem notMem_parseS3Uri {debug : Text → String} {uri a b c : Text}
    (h : parseS3Uri debug uri = .ok (a, b, c)) : slash ∉ (splitScheme a).2 ∧ slash ∉ b := by
  unfold parseS3Uri at h
  split at h
  · cases h
  next rest _ =>
    simp only [] at h
    split at h
    · cases h
    · obtain ⟨rfl, rfl, -⟩ := Except.ok.inj h
      refine ⟨?_, notMem_splitOnce _ _⟩
      have hhost := notMem_splitOnce (splitScheme rest).2 []
      generalize ((splitOnce (splitScheme rest).2).getD ((splitScheme rest).2, [])).1 =
        host at hhost
      obtain ⟨text, rfl⟩ | ⟨text, rfl⟩ | hscheme := splitScheme_cases rest
      · rwa [splitScheme_http, splitScheme_http]
      · rwa [splitScheme_https, splitScheme_https]
      · rw [hscheme, List.nil_append]
        intro hmem
        refine hhost ?_
        rw [← splitScheme_join host]
        exact List.mem_append_right _ hmem

theorem trimSlashes_prefixOrDefault (c : RestoreFileConfig) :
    trimSlashes c.prefixOrDefault = c.prefixOrDefault := by
  unfold RestoreFileConfig.prefixOrDefault
  split
  · decide
  · exact List.rdropWhile_idempotent _ _

/-- The endpoint is a host behind its scheme, the bucket a single name, and a prefix that is
given names something. -/
structure Plain (c : RestoreFileConfig) : Prop where
  host : slash ∉ (splitScheme (trim c.s3Endpoint)).2
  bucket : slash ∉ trim c.s3Bucket
  named : (∀ x ∈ trim c.keyPrefix, x = slash) → trim c.keyPrefix = []

theorem prefixOrDefault_ne_nil_iff {c : RestoreFileConfig} :
    c.prefixOrDefault ≠ [] ↔ ((∀ x ∈ trim c.keyPrefix, x = slash) → trim c.keyPrefix = []) := by
  unfold RestoreFileConfig.prefixOrDefault
  split
  next h => exact ⟨fun _ _ => List.isEmpty_iff.mp h, fun _ => by decide⟩
  next h =>
    rw [Ne, trimSlashes_eq_nil_iff]
    exact ⟨fun hne hall => (hne hall).elim, fun himp hall => h (List.isEmpty_iff.mpr (himp hall))⟩

/-- The address of an S3 target that passes its check is read back as it was written exactly
when its fields are plain. -/
theorem parseS3Uri_s3Uri_iff (debug : Text → String) (isDir : Text → Bool) (path : String)
    (c : RestoreFileConfig) (htarget : c.targetType = .s3)
    (hcheck : c.checkTarget isDir path = .ok ()) :
    parseS3Uri debug c.s3Uri = .ok (trim c.s3Endpoint, trim c.s3Bucket, c.prefixOrDefault) ↔
      Plain c := by
  have hne : trim c.s3Bucket ≠ [] := by
    intro h
    simp only [RestoreFileConfig.checkTarget, htarget, h] at hcheck
    split at hcheck <;> cases hcheck
  constructor
  · intro h
    obtain ⟨hhost, hbucket⟩ := notMem_parseS3Uri h
    refine ⟨hhost, hbucket, prefixOrDefault_ne_nil_iff.mp fun hnil => ?_⟩
    rw [RestoreFileConfig.s3Uri, parseS3Uri_join hhost hbucket hne, hnil] at h
    exact absurd (Prod.mk.inj (Prod.mk.inj (Except.ok.inj h)).2).2 (by decide)
  · intro h
    have hnamed := prefixOrDefault_ne_nil_iff.mpr h.named
    rw [RestoreFileConfig.s3Uri, parseS3Uri_join h.host h.bucket hne,
      if_neg (mt List.isEmpty_iff.mp hnamed), trimSlashes_prefixOrDefault]

theorem parseS3Uri_s3Uri_iff_schemed :
    parseS3Uri (fun _ => "") "s3://https://h:9000/mail/bichon-backup".toList =
      .ok ("https://h:9000".toList, "mail".toList, "bichon-backup".toList) :=
  (parseS3Uri_s3Uri_iff (fun _ => "") (fun _ => true) "config.toml"
    { s3Endpoint := "https://h:9000 ".toList, s3Bucket := "mail".toList, keyPrefix := [] }
    rfl (by decide)).mpr ⟨by decide, by decide, fun _ => rfl⟩

/-- Behind an endpoint that ends in a slash no bucket is found. -/
theorem parseS3Uri_of_trailing_slash :
    let c : RestoreFileConfig :=
      { s3Endpoint := "h:9000/".toList, s3Bucket := "mail".toList, keyPrefix := [] }
    c.checkTarget (fun _ => true) "config.toml" = .ok () ∧
      parseS3Uri (fun _ => "") c.s3Uri = .error "restore: bucket is required in \x7buri:?\x7d" := by
  decide

end Bichon.Backup
