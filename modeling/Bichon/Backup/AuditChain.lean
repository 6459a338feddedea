import Bichon.Backup.Restore

/-!
# The audit chain

A run exports the audit log in full, or the rows behind the cursor of the latest restore point.
Its manifest copies what it builds on from the manifest before it, so that every restore point
names its own baseline and all deltas since. Along every sequence of such runs, with
collections and deletions in between, the deltas of each manifest follow one another without a
gap, from the cursor the baseline was taken at to the cursor of the manifest, and a restore
downloads just these (`audit_chain_restorable`).

Collections and deletions only remove (`Fewer`), and a manifest is never looked at again
through another one; so what holds of a manifest when it is committed holds for as long as it
is there.
-/

namespace Bichon.Backup

open Durable Remote Transition List Option Yields Manifest

/-! ### Chains -/

/-- The deltas cover the rows from `start` to `stop`, each from where the one before it ended. -/
def Contiguous (start : Int) : List AuditDelta → Int → Prop
  | [], stop => start = stop
  | d :: ds, stop => d.seqFrom = start ∧ d.seqFrom < d.seqTo ∧ Contiguous d.seqTo ds stop

variable {start stop : Int} {ds : List AuditDelta}

section

variable (h : Contiguous start ds stop)

include h

theorem Contiguous.append {es : List AuditDelta} {stop' : Int} (hes : Contiguous stop es stop') :
    Contiguous start (ds ++ es) stop' := by
  induction ds generalizing start with
  | nil => exact h.symm ▸ hes
  | cons e ds ih => exact ⟨h.1, h.2.1, ih h.2.2⟩

theorem Contiguous.le : start ≤ stop := by
  induction ds generalizing start with
  | nil => exact le_of_eq h
  | cons e ds ih =>
    have := ih h.2.2
    have := h.1
    have := h.2.1
    omega

theorem Contiguous.bounds : ∀ d ∈ ds, start ≤ d.seqFrom ∧ d.seqFrom < d.seqTo ∧ d.seqTo ≤ stop := by
  induction ds generalizing start with
  | nil => simp
  | cons e ds ih =>
    have hle := h.2.2.le
    rw [forall_mem_cons]
    refine ⟨⟨le_of_eq h.1.symm, h.2.1, hle⟩, fun d hd => ?_⟩
    have hd' := ih h.2.2 d hd
    have := h.1
    have := h.2.1
    exact ⟨by omega, hd'.2⟩

theorem Contiguous.pairwise : ds.Pairwise fun a b => a.seqFrom < b.seqFrom := by
  induction ds generalizing start with
  | nil => exact List.Pairwise.nil
  | cons e ds ih =>
    refine pairwise_cons.mpr ⟨fun d hd => ?_, ih h.2.2⟩
    have hd' := (h.2.2.bounds d hd).1
    have := h.2.1
    omega

end

/-! ### What is inherited -/

/-- Deltas that neither reach into the new ones nor start where one of them does are all
taken over. -/
theorem foldl_inheritDelta {firstNew : Option Int} {deltas earlier : List AuditDelta}
    (hkeep : ∀ d ∈ earlier, ∀ f, firstNew = some f → d.seqTo ≤ f)
    (hnew : ∀ d ∈ earlier, ∀ e ∈ deltas, e.seqFrom ≠ d.seqFrom)
    (hdistinct : earlier.Pairwise fun a b => a.seqFrom < b.seqFrom) :
    earlier.foldl (Manifest.inheritDelta firstNew) deltas = deltas ++ earlier := by
  induction earlier generalizing deltas with
  | nil => rw [foldl_nil, append_nil]
  | cons d earlier ih =>
    rw [forall_mem_cons] at hkeep hnew
    rw [pairwise_cons] at hdistinct
    have hd : inheritDelta firstNew deltas d = deltas ++ [d] := by
      have hkept : (firstNew.elim true fun f => decide (d.seqTo ≤ f)) = true := by
        cases firstNew with
        | none => rfl
        | some f => exact decide_eq_true (hkeep.1 f rfl)
      have hany : deltas.any (fun e => decide (e.seqFrom = d.seqFrom)) = false := by
        simpa using hnew.1
      rw [inheritDelta, hkept, hany]
      rfl
    rw [foldl_cons, hd, ih hkeep.2 ?_ hdistinct.2, append_assoc, singleton_append]
    intro d' hd' e he
    rcases mem_append.mp he with he | he
    · exact hnew.2 d' hd' e he
    · rw [mem_singleton.mp he]
      exact ne_of_lt (hdistinct.1 d' hd')

theorem mergeSort_eq_of_perm {es : List AuditDelta} (hperm : es.Perm ds)
    (hds : ds.Pairwise fun a b => a.seqFrom < b.seqFrom) :
    es.mergeSort (fun a b => decide (a.seqFrom ≤ b.seqFrom)) = ds := by
  have hnodup : (ds.map AuditDelta.seqFrom).Nodup :=
    pairwise_map.mpr (hds.imp fun hlt => ne_of_lt hlt)
  have hsorted := mergeSort_perm es fun a b => decide (a.seqFrom ≤ b.seqFrom)
  have hle : ds.Pairwise fun a b => a.seqFrom ≤ b.seqFrom := hds.imp fun hlt => le_of_lt hlt
  refine List.Perm.eq_of_pairwise ?_ ?_ hle (hsorted.trans hperm)
  · intro a b ha hb hab hba
    exact inj_on_of_nodup_map hnodup ((hsorted.trans hperm).mem_iff.mp ha) hb (le_antisymm hab hba)
  · have hpair : (es.mergeSort fun a b => decide (a.seqFrom ≤ b.seqFrom)).Pairwise
        fun a b => decide (a.seqFrom ≤ b.seqFrom) = true :=
      pairwise_mergeSort (by simp; omega) (by simp; omega) es
    simpa using hpair

variable {audit pa : AuditObjects}

/-- Deltas that go on where the earlier ones end are put behind them. -/
theorem inheritDeltas_eq (h : Contiguous start pa.deltas pa.cursor)
    (hnew : Contiguous pa.cursor audit.deltas stop) :
    Manifest.inheritDeltas audit pa.deltas = pa.deltas ++ audit.deltas := by
  have hearlier := h.bounds
  have hlater := hnew.bounds
  have hfold : pa.deltas.foldl (inheritDelta (audit.deltas.map AuditDelta.seqFrom).min?)
      audit.deltas = audit.deltas ++ pa.deltas := by
    refine foldl_inheritDelta (fun d hd f hf => ?_) (fun d hd e he => ?_) h.pairwise
    · obtain ⟨e, he, rfl⟩ := mem_map.mp (min?_mem hf)
      exact (hearlier d hd).2.2.trans (hlater e he).1
    · have := hearlier d hd
      have := hlater e he
      omega
  rw [inheritDeltas, hfold]
  exact mergeSort_eq_of_perm perm_append_comm (h.append hnew).pairwise

/-! ### The manifest of a run -/

def UploadArgs.auditArtifacts (args : UploadArgs) : List Artifact :=
  args.artifacts.filter fun art => isAudit art.logical

theorem objectKey_ne_empty (hash : String) : Manifest.objectKey hash ≠ "" := by
  intro h
  have hlen := congrArg String.length h
  rw [objectKey, String.length_append] at hlen
  have hfront : "obj/sha256/".length = 11 := by decide +kernel
  have hempty : "".length = 0 := rfl
  omega

/-- What an artifact does to the chain of the manifest. -/
def addAudit (audit : Option AuditObjects) (art : Artifact) : Option AuditObjects :=
  match art.logical with
  | .auditBase => some { audit.getD {} with base := art.ref }
  | .auditDelta seqFrom seqTo =>
    some { audit.getD {} with
      deltas := (audit.getD {}).deltas ++ [⟨seqFrom, seqTo, art.ref⟩] }
  | _ => audit

theorem audit_addArtifact (m : Manifest) (art : Artifact) :
    (m.addArtifact art).objects.audit = addAudit m.objects.audit art := by
  unfold addArtifact addAudit
  cases art.logical <;> rfl

theorem audit_foldl_addArtifact (arts : List Artifact) (m : Manifest) :
    (arts.foldl Manifest.addArtifact m).objects.audit =
      (arts.filter fun art => isAudit art.logical).foldl addAudit m.objects.audit := by
  induction arts generalizing m with
  | nil => rfl
  | cons art arts ih =>
    rw [foldl_cons, ih, audit_addArtifact, filter_cons]
    split
    · rfl
    · rename_i hnot
      have hsame : addAudit m.objects.audit art = m.objects.audit := by
        unfold addAudit
        cases hlog : art.logical with
        | auditBase | auditDelta => simp [hlog, isAudit] at hnot
        | _ => rfl
      rw [hsame]

theorem audit_stampAudit (m : Manifest) {stamp : Manifest.AuditStamp} {cursor : Int}
    (h : stamp.cursor = some cursor) :
    ∃ sum, (m.stampAudit stamp).objects.audit =
      some { m.objects.audit.getD {} with cursor := cursor, cumulativeDeltaBytes := sum } := by
  unfold stampAudit
  rw [h]
  cases hsum : stamp.cumulativeDeltaBytes with
  | none => exact ⟨(m.objects.audit.getD {}).cumulativeDeltaBytes, rfl⟩
  | some sum => exact ⟨sum, rfl⟩

theorem audit_inheritAudit_of_base {m : Manifest} {previous : Option Manifest}
    (h : m.objects.audit = some audit) (hbase : audit.base.key ≠ "") :
    (m.inheritAudit previous).objects.audit = some audit := by
  unfold inheritAudit
  split
  next audit' pa haudit _ =>
    rw [h, some.injEq] at haudit
    subst haudit
    rw [if_neg hbase, h]
  next => exact h

theorem audit_inheritAudit_of_previous {m p : Manifest} (h : m.objects.audit = some audit)
    (hbase : audit.base.key = "") (hpa : p.objects.audit = some pa) :
    (m.inheritAudit (some p)).objects.audit = some { audit with
      base := pa.base, deltas := Manifest.inheritDeltas audit pa.deltas } := by
  unfold inheritAudit
  rw [h, bind_some, hpa]
  simp [hbase]

/-! ### The exports -/

def auditCursor (m : Manifest) : Option Int := m.objects.audit.map AuditObjects.cursor

/-- The run exports the baseline, or the rows behind the cursor of the latest restore point;
nothing when there are none. It reports the cursor that it has come to. -/
def exportsAudit (latest : Option Manifest) (args : UploadArgs) : Bool :=
  match args.auditArtifacts, args.audit.cursor with
  | [], some cursor => latest.bind auditCursor = some cursor
  | [art], some cursor =>
    match art.logical with
    | .auditBase => true
    | .auditDelta seqFrom seqTo =>
      latest.bind auditCursor = some seqFrom && seqFrom < seqTo && seqTo = cursor
    | _ => false
  | _, _ => false

/-- The baseline was exported by one of the runs, at the cursor. -/
def BaseFrom (steps : List BackupStep) (base : ObjectRef) (cursor : Int) : Prop :=
  ∃ step ∈ steps, ∃ args art, step.op = .upload args ∧ args.audit.cursor = some cursor ∧
    art ∈ args.artifacts ∧ art.logical = .auditBase ∧ base = art.ref

/-- The delta was exported by one of the runs. -/
def DeltaFrom (steps : List BackupStep) (d : AuditDelta) : Prop :=
  ∃ step ∈ steps, ∃ args art, step.op = .upload args ∧ art ∈ args.artifacts ∧
    art.logical = .auditDelta d.seqFrom d.seqTo ∧ d.obj = art.ref

/-- A baseline and the deltas since, without a gap up to the cursor. -/
structure ChainOf (steps : List BackupStep) (audit : AuditObjects) (start : Int) : Prop where
  base : BaseFrom steps audit.base start
  deltas : ∀ d ∈ audit.deltas, DeltaFrom steps d
  contiguous : Contiguous start audit.deltas audit.cursor

def Chained (steps : List BackupStep) (m : Manifest) : Prop :=
  ∃ audit start, m.objects.audit = some audit ∧ ChainOf steps audit start

/-- The chain of a run that builds on an earlier one. -/
theorem ChainOf.extend {steps : List BackupStep} (h : ChainOf steps pa start)
    (hdeltas : ∀ d ∈ audit.deltas, DeltaFrom steps d)
    (hnew : Contiguous pa.cursor audit.deltas audit.cursor) :
    ChainOf steps { audit with
      base := pa.base, deltas := Manifest.inheritDeltas audit pa.deltas } start := by
  rw [inheritDeltas_eq h.contiguous hnew]
  exact ⟨h.base, forall_mem_append.mpr ⟨h.deltas, hdeltas⟩, h.contiguous.append hnew⟩

theorem BaseFrom.key_ne {steps : List BackupStep} {base : ObjectRef} {cursor : Int}
    (h : BaseFrom steps base cursor) : base.key ≠ "" := by
  obtain ⟨_, _, _, art, _, _, _, _, rfl⟩ := h
  exact objectKey_ne_empty art.sha256

theorem chained_restorePoint {steps : List BackupStep} {step : BackupStep} {args : UploadArgs}
    {latest : Option Manifest} (hstep : step ∈ steps) (hop : step.op = .upload args)
    (hexports : exportsAudit latest args = true)
    (hlatest : ∀ p, latest = some p → Chained steps p) :
    Chained steps (restorePoint args latest) := by
  have hfold := audit_foldl_addArtifact args.artifacts
    (Manifest.new args.id args.created args.trigger (latest.map Manifest.id))
  have hmem : ∀ art ∈ args.auditArtifacts, art ∈ args.artifacts := fun art hart =>
    mem_of_mem_filter hart
  change _ = args.auditArtifacts.foldl addAudit none at hfold
  -- The chain that the latest restore point has, with the cursor the run starts from.
  have hprevious : ∀ cursor, latest.bind auditCursor = some cursor →
      ∃ p pa start, latest = some p ∧ p.objects.audit = some pa ∧ ChainOf steps pa start ∧
        pa.cursor = cursor := by
    intro cursor hcursor
    obtain ⟨p, hp, hcursor⟩ := bind_eq_some_iff.mp hcursor
    obtain ⟨pa, start, hpa, hchain⟩ := hlatest p hp
    rw [auditCursor, hpa] at hcursor
    exact ⟨p, pa, start, hp, hpa, hchain, some.inj hcursor⟩
  unfold exportsAudit at hexports
  split at hexports
  next cursor harts hcursor =>
    obtain ⟨p, pa, start, rfl, hpa, hchain, hpc⟩ := hprevious cursor (by simpa using hexports)
    rw [harts] at hfold
    obtain ⟨sum, hstamp⟩ := audit_stampAudit _ hcursor
    rw [hfold] at hstamp
    exact ⟨_, start, audit_inheritAudit_of_previous hstamp rfl hpa,
      hchain.extend (forall_mem_nil _) hpc⟩
  next art cursor harts hcursor =>
    have hart : art ∈ args.artifacts := hmem art (by rw [harts]; exact mem_singleton_self art)
    rw [harts] at hfold
    obtain ⟨sum, hstamp⟩ := audit_stampAudit _ hcursor
    rw [hfold] at hstamp
    split at hexports
    next hlog =>
      have hadd : [art].foldl addAudit none = some { base := art.ref } := by
        rw [foldl_cons, foldl_nil, addAudit, hlog]
        rfl
      rw [hadd] at hstamp
      refine ⟨_, cursor, audit_inheritAudit_of_base hstamp (objectKey_ne_empty _),
        ⟨step, hstep, args, art, hop, hcursor, hart, hlog, rfl⟩, by simp, rfl⟩
    next seqFrom seqTo hlog =>
      simp only [Bool.and_eq_true, decide_eq_true_eq] at hexports
      obtain ⟨⟨hfrom, hlt⟩, rfl⟩ := hexports
      obtain ⟨p, pa, start, rfl, hpa, hchain, hpc⟩ := hprevious seqFrom hfrom
      have hadd : [art].foldl addAudit none = some { deltas := [⟨seqFrom, seqTo, art.ref⟩] } := by
        rw [foldl_cons, foldl_nil, addAudit, hlog]
        rfl
      rw [hadd] at hstamp
      have hdelta : DeltaFrom steps ⟨seqFrom, seqTo, art.ref⟩ :=
        ⟨step, hstep, args, art, hop, hart, hlog, rfl⟩
      exact ⟨_, start, audit_inheritAudit_of_previous hstamp rfl hpa,
        hchain.extend (forall_mem_singleton.mpr hdelta) ⟨hpc.symm, hlt, rfl⟩⟩
    next => cases hexports
  next => cases hexports

/-! ### What the operations do to the store -/

/-- Nothing was added: no manifest, and no object. -/
structure Fewer (s t : Store) : Prop where
  holds : ∀ name m, t.Holds name m → s.Holds name m
  objects : ∀ path n, t.objects.lookup path = some n → s.objects.lookup path = some n

section

variable {X : Extern} {faults : Faults} {s t u : Store}

theorem Fewer.refl (s : Store) : Fewer s s := ⟨fun _ _ h => h, fun _ _ h => h⟩

theorem Fewer.trans (h : Fewer s t) (h' : Fewer t u) : Fewer s u :=
  ⟨fun name m hm => h.holds name m (h'.holds name m hm),
    fun path n hn => h.objects path n (h'.objects path n hn)⟩

theorem Fewer.of_pruning {keepIds : List String} (h : Pruning keepIds s t) : Fewer s t where
  holds name m hm := by
    rcases h.2 name with heq | ⟨hnone, -⟩
    · exact heq.symm.trans hm
    · cases hnone.symm.trans hm
  objects path n hn := by rwa [← h.1]

theorem Fewer.of_sweeping (h : Sweeping X faults s t) : Fewer s t where
  holds name m hm := by rwa [Store.Holds, ← h.1]
  objects path n hn := by
    rcases h.2 path with heq | ⟨hnone, -⟩
    · exact heq.symm.trans hn
    · cases hnone.symm.trans hn

theorem Fewer.of_gcState {policy : RetentionPolicy} (h : GcState X faults policy s t) :
    Fewer s t := by
  rcases h with rfl | ⟨keepIds, -, ht | ⟨pruned, hpruned, ht⟩⟩
  · exact .refl _
  · exact .of_pruning ht
  · exact (Fewer.of_pruning hpruned.pruning).trans (.of_sweeping ht)

theorem Fewer.eraseMeta (s : Store) (name : MetaName) : Fewer s (s.eraseMeta name) where
  holds name' m hm := by
    rw [Store.Holds, lookup_eraseMeta] at hm
    split at hm
    · cases hm
    · exact hm
  objects _ _ hn := hn

theorem Fewer.setLatest (s : Store) (id : String) : Fewer s (s.setLatest id) where
  holds name m hm := by
    by_cases hname : name = .latest
    · subst hname
      cases hm
    · rwa [Store.Holds, Store.setLatest, AList.lookup_insert_ne hname] at hm
  objects _ _ hn := hn

theorem Fewer.of_deleteState {id : String} (h : DeleteState X faults id s t) : Fewer s t := by
  rcases h with rfl | ⟨m, u, -, hu, ht⟩
  · exact .refl _
  have herased := Fewer.eraseMeta s (.manifest m.id)
  refine Fewer.trans ?_ (.of_sweeping ht)
  rcases hu with rfl | ⟨m', -, rfl⟩ | rfl
  · exact herased
  · exact herased.trans (.setLatest _ _)
  · exact herased.trans (.eraseMeta _ _)

variable {id : String} {args : UploadArgs}

/-! ### Along a run -/

/-- Objects are named by their content: the hash determines the size, and different hashes
have different paths. -/
structure ContentAddressed (X : Extern) where
  size : String → Nat
  path_inj : ∀ {hash hash' path : String}, X.objPath (Manifest.objectKey hash) = some path →
    X.objPath (Manifest.objectKey hash') = some path → hash = hash'

/-- The reference names an object by its content. -/
def ContentAddressed.Names (C : ContentAddressed X) (obj : ObjectRef) : Prop :=
  obj.key = Manifest.objectKey obj.sha256 ∧ obj.bytes = C.size obj.sha256

/-- The artifacts of the run have the sizes that their hashes stand for. -/
def Hashed (C : ContentAddressed X) (step : BackupStep) : Prop :=
  ∀ args, step.op = .upload args → ∀ art ∈ args.artifacts, art.bytes = C.size art.sha256

structure ChainStore (C : ContentAddressed X) (steps : List BackupStep) (s : Store) : Prop where
  sound : Sound X s
  manifests : ∀ name m, s.Holds name m → Chained steps m ∧ AllRefs C.Names m
  sized : ∀ hash path n, X.objPath (Manifest.objectKey hash) = some path →
    s.objects.lookup path = some n → n = C.size hash

variable {C : ContentAddressed X} {steps : List BackupStep}

theorem chainStore_empty : ChainStore C steps .empty where
  sound := sound_empty X
  manifests name m hm := by cases hm
  sized hash path n _ hn := by cases hn

theorem ChainStore.of_fewer (h : ChainStore C steps s) (hsound : Sound X t) (hfewer : Fewer s t) :
    ChainStore C steps t where
  sound := hsound
  manifests name m hm := h.manifests name m (hfewer.holds name m hm)
  sized hash path n hpath hn := h.sized hash path n hpath (hfewer.objects path n hn)

theorem holds_putManifest {m m' : Manifest} {name : MetaName}
    (h : ((s.putManifest m).setLatest id).Holds name m') : m' = m ∨ s.Holds name m' := by
  have hput := (Fewer.setLatest _ _).holds name m' h
  by_cases hname : name = .manifest m.id
  · subst hname
    rw [Store.Holds, Store.putManifest, AList.lookup_insert] at hput
    cases hput
    exact .inl rfl
  · rw [Store.Holds, Store.putManifest, AList.lookup_insert_ne hname] at hput
    exact .inr hput

def Store.latest (s : Store) : Option Manifest :=
  match s.metadata.lookup .latest with
  | some (.pointer (some name)) =>
    match s.metadata.lookup name with
    | some (.manifest m) => some m
    | _ => none
  | _ => none

theorem Store.LatestIs.latest_eq {m? : Option Manifest} (h : s.LatestIs m?) : s.latest = m? := by
  cases m? with
  | none =>
    rw [Store.latest, show s.metadata.lookup .latest = none from h]
  | some m =>
    obtain ⟨name, hlatest, hm⟩ := h
    rw [Store.latest, hlatest]
    simp only
    rw [show s.metadata.lookup name = some (.manifest m) from hm]

/-- The steps of the runs: every upload succeeds and exports what it should. Collections and
deletions may fail or crash. -/
def AuditStep (X : Extern) (s : Store) (step : BackupStep) : Prop :=
  match step.op with
  | .upload args => step.crash = none ∧ (upload X step.faults args s).error? = none ∧
      exportsAudit s.latest args = true
  | _ => True

instance AuditStep.decidable (X : Extern) (s : Store) :
    (step : BackupStep) → Decidable (AuditStep X s step)
  | ⟨.upload _, _, _⟩ => inferInstanceAs (Decidable (_ = _ ∧ _ = _ ∧ _ = _))
  | ⟨.gc _, _, _⟩ => isTrue trivial
  | ⟨.deleteRestorePoint _, _, _⟩ => isTrue trivial

theorem ChainStore.upload {step : BackupStep} (h : ChainStore C steps s)
    (hstep : step ∈ steps) (hop : step.op = .upload args) (hhashed : Hashed C step)
    (hok : (upload X step.faults args s).error? = none)
    (hexports : exportsAudit s.latest args = true)
    (hsound : Sound X (upload X step.faults args s).state) :
    ChainStore C steps (upload X step.faults args s).state := by
  obtain ⟨summary, hresult⟩ : 
      ∃ summary, (Backup.upload X step.faults args s).result = .ok summary := by
    rw [Outcome.error?] at hok
    split at hok
    · cases hok
    · exact ⟨_, ‹_›⟩
  obtain ⟨previous, u, hlatest, hgrown, hgc⟩ := yields_upload.1 summary hresult
  have hfewer := Fewer.of_gcState hgc
  have hholds : ∀ {name m}, u.Holds name m → s.Holds name m := by
    intro name m hm
    rwa [Store.Holds, ← hgrown.metadata]
  have hprevious : ∀ p, previous = some p → Chained steps p ∧ AllRefs C.Names p := by
    rintro p rfl
    obtain ⟨name, hp⟩ := stored_of_latestIs hlatest
    exact h.manifests name p hp
  rw [hlatest.latest_eq] at hexports
  refine ⟨hsound, fun name m hm => ?_, fun hash path n hpath hn => ?_⟩
  · rcases holds_putManifest (hfewer.holds name m hm) with rfl | hold
    · exact ⟨chained_restorePoint hstep hop hexports fun p hp => (hprevious p hp).1,
        allRefs_restorePoint (fun art hart => ⟨rfl, hhashed args hop art hart⟩)
          fun p hp => (hprevious p hp).2⟩
    · exact h.manifests name m (hholds hold)
  · rcases hgrown.objects path n (hfewer.objects path n hn) with hold | ⟨art, hart, hpath', rfl⟩
    · exact h.sized hash path n hpath hold
    · rw [hhashed args hop art hart, C.path_inj hpath hpath']

theorem ChainStore.next {step : BackupStep} (h : ChainStore C steps s) (hstep : step ∈ steps)
    (hreads : ReadsSucceed step.faults) (hhashed : Hashed C step) (hguard : AuditStep X s step)
    (hnext : s.next X step = some t) : ChainStore C steps t := by
  have hsound := h.sound.next hreads hnext
  have hstates := next_states hnext
  cases hop : step.op with
  | upload args =>
    obtain ⟨hcrash, hok, hexports⟩ : _ ∧ _ ∧ _ := by simpa only [AuditStep, hop] using hguard
    rw [Store.next, hop, hcrash] at hnext
    cases hnext
    exact h.upload hstep hop hhashed hok hexports hsound
  | gc policy => exact h.of_fewer hsound (.of_gcState (hop ▸ hstates))
  | deleteRestorePoint id =>
    exact h.of_fewer hsound (.of_deleteState (hop ▸ hstates))

theorem ChainStore.intact (h : ChainStore C steps s) {m : Manifest}
    (hm : s.Holds (.manifest id) m) : ∀ slot ∈ restoreSlots m, s.Intact X slot.2 := by
  intro slot hslot
  have hnames := (h.manifests _ m hm).2.restoreSlots slot hslot
  have hne : slot.2.key ≠ "" := by
    rw [hnames.1]
    exact objectKey_ne_empty _
  obtain ⟨path, hpath, hin⟩ :=
    (forall_mem_objectKeys.mp (h.sound.complete id m hm)).restoreSlots slot hslot hne
  obtain ⟨n, hn⟩ := isSome_iff_exists.mp (AList.lookup_isSome.mpr hin)
  refine ⟨path, hpath, ?_⟩
  rw [hnames.1] at hpath
  rw [hn, hnames.2, h.sized _ path n hpath hn]

end

/-- Every restore point has one baseline and deltas that lead from it to its cursor without a
gap, all of them exported by the runs; and a restore of it downloads the baseline and then the
deltas, in their order, and nothing else of the audit log. -/
theorem audit_chain_restorable (X : Extern) (C : ContentAddressed X) (steps : List BackupStep)
    (s : Store) (hreads : ∀ step ∈ steps, ReadsSucceed step.faults)
    (hhashed : ∀ step ∈ steps, Hashed C step)
    (hsteps : Along (Store.next X) (AuditStep X) .empty steps)
    (hrun : runFrom (Store.next X) .empty steps = some s) (id : String) (m : Manifest)
    (hm : s.Holds (.manifest id) m) :
    ∃ audit start, m.objects.audit = some audit ∧ BaseFrom steps audit.base start ∧
      (∀ d ∈ audit.deltas, DeltaFrom steps d) ∧ Contiguous start audit.deltas audit.cursor ∧
      ∃ downloads, (restore X .ok (fun _ => .ok) id s).result = .ok downloads ∧
        downloads.filter (fun slot => isAudit slot.1) = (.auditBase, audit.base) ::
          audit.deltas.map fun d => (.auditDelta d.seqFrom d.seqTo, d.obj) := by
  have hstore : ChainStore C steps s :=
    Along.invariant (I := ChainStore C steps) (fun hs hguard hnext =>
        hs.next hguard.2 (hreads _ hguard.2) (hhashed _ hguard.2) hguard.1 hnext)
      chainStore_empty (hsteps.and_forall fun _ hl => hl) hrun
  obtain ⟨audit, start, haudit, hchain⟩ := (hstore.manifests _ m hm).1
  refine ⟨audit, start, haudit, hchain.base, hchain.deltas, hchain.contiguous, restoreSlots m,
    restore_result hm (hstore.intact hm), ?_⟩
  rw [filter_isAudit_restoreSlots, haudit, elim_some, AuditObjects.slots,
    if_neg hchain.base.key_ne, singleton_append]

/-- A run that exports one part of the audit log, of one byte. -/
def auditUpload (id created hash : String) (logical : ArtifactKey) (cursor : Int) : UploadArgs where
  artifacts := [{ onDisk := some 1, logical, sha256 := hash, bytes := 1 }]
  trigger := "manual"
  retention := keepTwo
  audit := { cursor := some cursor }
  id := id
  created := created

/-- A baseline, a delta, and the deletion of the older restore point. -/
def auditRun : List BackupStep :=
  [{ op := .upload (auditUpload "1" "2026-09-20T02:00:00.000Z" "aa" .auditBase 10),
     faults := noFaults, crash := none },
   { op := .upload (auditUpload "2" "2026-09-21T02:00:00.000Z" "bb" (.auditDelta 10 15) 15),
     faults := noFaults, crash := none },
   { op := .deleteRestorePoint "1", faults := noFaults, crash := none }]

def sampleContent : ContentAddressed sampleExtern where
  size _ := 1
  path_inj := by
    intro hash hash' path h h'
    have heq : Manifest.objectKey hash = Manifest.objectKey hash' :=
      Option.some.inj (h.trans h'.symm)
    have hlist := congrArg String.toList heq
    simp only [Manifest.objectKey, String.toList_append, List.append_cancel_left_eq] at hlist
    exact String.toList_inj.mp hlist

/-- The second restore point. -/
def auditManifest : Manifest :=
  restorePoint (auditUpload "2" "2026-09-21T02:00:00.000Z" "bb" (.auditDelta 10 15) 15)
    (some (restorePoint (auditUpload "1" "2026-09-20T02:00:00.000Z" "aa" .auditBase 10) none))

theorem audit_chain_restorable_sample :
    ∃ s, runFrom (Store.next sampleExtern) .empty auditRun = some s ∧
      s.metadata.keys = [.latest, .manifest "2"] ∧
      ∃ audit start, auditManifest.objects.audit = some audit ∧
        Contiguous start audit.deltas audit.cursor ∧
        ∃ downloads, (restore sampleExtern .ok (fun _ => .ok) "2" s).result = .ok downloads ∧
          downloads.filter (fun slot => isAudit slot.1) = (.auditBase, audit.base) ::
            audit.deltas.map fun d => (.auditDelta d.seqFrom d.seqTo, d.obj) := by
  obtain ⟨s, hrun, hkeys, hlookup⟩ : ∃ s ∈ runFrom (Store.next sampleExtern) .empty auditRun,
      s.metadata.keys = [.latest, .manifest "2"] ∧
      s.metadata.lookup (.manifest "2") = some (.manifest auditManifest) := by decide +kernel
  have hreads : ∀ step ∈ auditRun, ReadsSucceed step.faults := by
    simp [auditRun, ReadsSucceed, noFaults]
  have hhashed : ∀ step ∈ auditRun, Hashed sampleContent step := by
    intro step hstep args hop art hart
    simp only [auditRun, mem_cons, not_mem_nil, or_false] at hstep
    rcases hstep with rfl | rfl | rfl
    · cases hop
      rw [mem_singleton.mp hart]
      rfl
    · cases hop
      rw [mem_singleton.mp hart]
      rfl
    · cases hop
  obtain ⟨audit, start, haudit, -, -, hcontiguous, hrestore⟩ :=
    audit_chain_restorable sampleExtern sampleContent auditRun s hreads hhashed
      (by decide +kernel) hrun "2" auditManifest hlookup
  exact ⟨s, hrun, hkeys, audit, start, haudit, hcontiguous, hrestore⟩

end Bichon.Backup
