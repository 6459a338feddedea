import Bichon.Lib.Transition
import Bichon.Archive.Tags

/-!
# Tag updates beside deletions

A tag update opens its searcher before it waits for the writer, and adds the documents again as
the searcher has them. What commits while it waits is undone: a deleted envelope comes back, and
the tags of another update are lost. `tag_updates_serial` says that nothing of this happens as
long as the named envelopes are the same when the writer is obtained.

What one update does to a document is taken as it is.
-/

namespace Bichon.Archive

open Reindex Transition

/-- A request: a tag update, or a deletion of the documents that meet a query. -/
inductive Job
  | updateTags (action : TagAction) (tags : List String) (updates : List (Nat × String))
  | delete (hits : Doc EmailField → Bool)

structure TagState where
  docs : List (Doc EmailField)
  searchers : Nat → Option (List (Doc EmailField))
  writer : Option Nat := none
  completed : List Nat := []

inductive TagStep
  | openSearcher (client : Nat)
  | lock (client : Nat)
  | commit (client : Nat)

section

variable (E : Sources) (tokens : EmailField → Value → List String) (jobs : Nat → Job)

def Job.run (searcher docs : List (Doc EmailField)) : Job → List (Doc EmailField)
  | .updateTags action tags updates =>
    ((envelopeTags E tokens action tags).update searcher docs updates).getD docs
  | .delete hits => docs.filter fun d => !hits d

def TagState.next (s : TagState) : TagStep → Option TagState
  | .openSearcher c =>
    if s.searchers c = none ∧ c ∉ s.completed then
      some { s with searchers := fun c' => if c' = c then some s.docs else s.searchers c' }
    else none
  | .lock c =>
    if s.writer = none ∧ (s.searchers c).isSome ∧ c ∉ s.completed then
      some { s with writer := some c }
    else none
  | .commit c =>
    if s.writer = some c then
      (s.searchers c).map fun searcher =>
        { s with
          docs := (jobs c).run E tokens searcher s.docs
          writer := none
          completed := s.completed ++ [c] }
    else none

/-- The envelopes that an update names are in the index as its searcher has them. -/
def UpToDate (s : TagState) : TagStep → Prop
  | .commit c => ∀ action tags updates searcher, jobs c = .updateTags action tags updates →
      s.searchers c = some searcher → ∀ u ∈ updates,
        searcher.find? ((envelopeTags E tokens action tags).finds u) =
          s.docs.find? ((envelopeTags E tokens action tags).finds u)
  | _ => True

def serial (docs : List (Doc EmailField)) (clients : List Nat) : List (Doc EmailField) :=
  clients.foldl (fun docs c => (jobs c).run E tokens docs docs) docs

variable {E tokens jobs} {s s' : TagState} {l : TagStep}

/-- A step leaves the documents alone or completes one more request on them. -/
theorem docs_next (hguard : UpToDate E tokens jobs s l) (h : s.next E tokens jobs l = some s') :
    s'.docs = s.docs ∧ s'.completed = s.completed ∨
      ∃ c, s'.docs = (jobs c).run E tokens s.docs s.docs ∧ s'.completed = s.completed ++ [c] := by
  cases l with
  | openSearcher c | lock c =>
    simp only [TagState.next] at h
    split at h
    · cases h
      exact .inl ⟨rfl, rfl⟩
    · cases h
  | commit c =>
    simp only [TagState.next] at h
    split at h
    · obtain ⟨searcher, hsearcher, rfl⟩ := Option.map_eq_some_iff.mp h
      refine .inr ⟨c, ?_, rfl⟩
      cases hjob : jobs c with
      | delete hits => rfl
      | updateTags action tags updates =>
        exact congrArg (·.getD s.docs)
          (Index.update_congr (hguard action tags updates searcher hjob hsearcher))
    · cases h

theorem mem_run {docs : List (Doc EmailField)} {job : Job} {d : Doc EmailField}
    (h : d ∈ job.run E tokens docs docs) : ∃ e ∈ docs, d.id = e.id := by
  cases job with
  | delete hits => exact ⟨d, (List.mem_filter.mp h).1, rfl⟩
  | updateTags action tags updates =>
    simp only [Job.run] at h
    cases hupdate : (envelopeTags E tokens action tags).update docs docs updates with
    | none =>
      rw [hupdate] at h
      exact ⟨d, h, rfl⟩
    | some result =>
      rw [hupdate] at h
      rcases Index.exists_of_mem_update hupdate h with hd | ⟨e, he, hid⟩
      · exact ⟨d, hd, rfl⟩
      · exact ⟨e, he, Option.some.inj hid⟩

end

def TagState.start (docs : List (Doc EmailField)) : TagState where
  docs := docs
  searchers _ := none

/-- In a run in which every update finds its envelopes as its searcher has them, the documents
are at any time what the completed requests make of the first ones, one after the other, and an
id that is gone does not come back. -/
theorem tag_updates_serial (E : Sources) (tokens : EmailField → Value → List String)
    (jobs : Nat → Job) (docs : List (Doc EmailField)) (before after : List TagStep) (s t : TagState)
    (hbefore : Along (TagState.next E tokens jobs) (UpToDate E tokens jobs) (.start docs) before)
    (hs : runFrom (TagState.next E tokens jobs) (.start docs) before = some s)
    (hafter : Along (TagState.next E tokens jobs) (UpToDate E tokens jobs) s after)
    (ht : runFrom (TagState.next E tokens jobs) s after = some t) :
    t.docs = serial E tokens jobs docs t.completed ∧
      ∀ i, (∀ d ∈ s.docs, d.id ≠ i) → ∀ d ∈ t.docs, d.id ≠ i := by
  constructor
  · have hstep : ∀ {s l s'}, s.docs = serial E tokens jobs docs s.completed →
        UpToDate E tokens jobs s l → TagState.next E tokens jobs s l = some s' →
          s'.docs = serial E tokens jobs docs s'.completed := by
      intro s l s' hserial hguard hnext
      rcases docs_next hguard hnext with ⟨hdocs, hcompleted⟩ | ⟨c, hdocs, hcompleted⟩
      · rw [hdocs, hcompleted, hserial]
      · rw [hdocs, hcompleted, hserial, serial, serial, List.foldl_append]
        rfl
    exact hafter.invariant hstep (hbefore.invariant hstep rfl hs) ht
  · intro i hgone
    refine hafter.invariant (I := fun s => ∀ d ∈ s.docs, d.id ≠ i) ?_ hgone ht
    intro s l s' hgone hguard hnext d hd
    rcases docs_next hguard hnext with ⟨hdocs, -⟩ | ⟨c, hdocs, -⟩
    · exact hgone d (hdocs ▸ hd)
    · obtain ⟨e, he, hid⟩ := mem_run (hdocs ▸ hd)
      exact hid ▸ hgone e he

def untagged : Doc EmailField where
  id := "e1"
  accountId := 1
  tags := ∅
  values _ := []

/-- The first request tags the envelope, all others delete it. -/
def tagAndDelete : Nat → Job
  | 0 => .updateTags .overwrite ["/work"] [(1, "e1")]
  | _ => .delete fun d => d.id == "e1"

def plainSources : Sources := ⟨plainFacet, fun _ => none, fun _ => none⟩

def alternating : List TagStep :=
  [.openSearcher 0, .lock 0, .commit 0, .openSearcher 1, .lock 1, .commit 1]

theorem tag_updates_serial_alternating :
    ∃ t, runFrom (TagState.next plainSources (fun _ _ => []) tagAndDelete) (.start [untagged])
        alternating = some t ∧
      t.docs = serial plainSources (fun _ _ => []) tagAndDelete [untagged] t.completed := by
  refine ⟨_, rfl, (tag_updates_serial plainSources (fun _ _ => []) tagAndDelete [untagged]
    alternating [] _ _ ?_ rfl trivial rfl).1⟩
  refine .cons trivial rfl (.cons trivial rfl (.cons ?_ rfl ?_))
  · rintro _ _ _ _ ⟨⟩ ⟨⟩ _ _
    rfl
  · refine .cons trivial rfl (.cons trivial rfl (.cons ?_ rfl trivial))
    rintro _ _ _ _ ⟨⟩

/-- The update has its searcher, the deletion commits, and the envelope is added again. -/
theorem deleted_envelope_reappears :
    ∃ s t, runFrom (TagState.next plainSources (fun _ _ => []) tagAndDelete) (.start [untagged])
        [.openSearcher 0, .openSearcher 1, .lock 1, .commit 1] = some s ∧ s.docs = [] ∧
      runFrom (TagState.next plainSources (fun _ _ => []) tagAndDelete) s [.lock 0, .commit 0] =
        some t ∧ t.docs.map Doc.id = ["e1"] :=
  ⟨_, _, rfl, rfl, rfl, rfl⟩

end Bichon.Archive
