import Bichon.Account.Access
import Bichon.Database.Update

/-!
# Updates of a view

Who adds a source to a view opens an account to its readers, and has to manage that
account. `Account::update` checks the sources of a request against those of the record it
has loaded, and `update_impl` reads the record again and writes it. Any number of updates
are interleaved, on records loaded at any time before.
-/

namespace Bichon.Account

open Database MemDb Transition

/-- A request: the sources of a view, and what it does to the other fields. -/
structure AccountUpdateRequest where
  view : Option ViewConfig
  validate : AccountModel → Except BichonError Unit := fun _ => .ok ()
  others : AccountModel → Except BichonError AccountModel := .ok

def applyUpdateFields (current : AccountModel) (request : AccountUpdateRequest) :
    Except BichonError AccountModel :=
  (request.others current).map fun new => { new with view := request.view <|> current.view }

def requireViewSourceManagementForUpdate (canManage : Nat → Bool)
    (oldSources newSources : List ViewSource) : Except BichonError Unit :=
  match newSources.find? fun s => !canManage s.accountId && !oldSources.contains s with
  | none => .ok ()
  | some s => .error ⟨"Access denied: changing account " ++ toString s.accountId ++
      " in this view requires account management permission on it", .forbidden⟩

/-- A call of `Account::update`: what the caller manages, the record it has loaded, and the
request. -/
structure ViewUpdate where
  canManage : Nat → Bool
  loaded : AccountModel
  request : AccountUpdateRequest

namespace ViewUpdate

def check (u : ViewUpdate) : Except BichonError Unit :=
  match u.request.view with
  | none => .ok ()
  | some view => requireViewSourceManagementForUpdate u.canManage u.loaded.sources view.sources

/-- The checks, and then the call of `update_impl`. -/
def call (u : ViewUpdate) : Except BichonError (Call AccountModel) := do
  u.request.validate u.loaded
  u.check
  return .update (toString u.loaded.id) fun current => applyUpdateFields current u.request

end ViewUpdate

def readSources : CallPc AccountModel → List ViewSource
  | .writing current _ => current.sources
  | _ => []

section

variable {ι : Type} (M : Model) (updates : ι → ViewUpdate)

def storedSources (data : Data AccountModel) (key : String) : List ViewSource :=
  ((data.get M.collection key).map (·.sources)).getD []

/-- Every source of the record the caller has loaded, and of the one `update_impl` has read,
is still stored. -/
def StillStored (s : Calls AccountModel ι) : CallStep ι → Prop
  | .start _ => True
  | .finish i => ∀ source ∈ (updates i).loaded.sources ++ readSources (s.pc i),
      source ∈ storedSources M s.data (toString (updates i).loaded.id)

instance (s : Calls AccountModel ι) : DecidablePred (StillStored M updates s)
  | .start _ => isTrue trivial
  | .finish _ => List.decidableBAll _ _

variable [DecidableEq ι] (calls : ι → Call AccountModel) (paused : ι → Bool)

/-- Whatever source the step adds to a view, its caller manages the account. -/
def AddsManaged (s : Calls AccountModel ι) (l : CallStep ι) : Prop :=
  ∀ t, s.next M calls paused l = some t → ∀ key, ∀ source ∈ storedSources M t.data key,
    source ∈ storedSources M s.data key ∨ (updates l.caller).canManage source.accountId = true

variable {M updates calls paused}

theorem checked_of_call {u : ViewUpdate} {call : Call AccountModel} (h : u.call = .ok call) :
    call = .update (toString u.loaded.id) (fun current => applyUpdateFields current u.request) ∧
      u.check = .ok () := by
  obtain ⟨_, -, h⟩ := ByteFile.bind_eq_ok h
  obtain ⟨_, hcheck, h⟩ := ByteFile.bind_eq_ok h
  exact ⟨(Except.ok.inj h).symm, hcheck⟩

/-- A source that is written is managed, or the caller has loaded it or read it. -/
theorem managed_of_mem {u : ViewUpdate} (hcheck : u.check = .ok ()) {current updated : AccountModel}
    (hf : applyUpdateFields current u.request = .ok updated) {source : ViewSource}
    (hsource : source ∈ updated.sources) :
    u.canManage source.accountId = true ∨ source ∈ u.loaded.sources ++ current.sources := by
  obtain ⟨new, hothers, hf⟩ := ByteFile.bind_eq_ok hf
  cases hf
  rw [ViewUpdate.check] at hcheck
  cases hview : u.request.view with
  | none =>
    rw [hview] at hsource
    exact .inr (List.mem_append_right _ hsource)
  | some view =>
    rw [hview] at hsource hcheck
    dsimp only at hcheck
    rw [requireViewSourceManagementForUpdate] at hcheck
    split at hcheck
    · rename_i hfind
      have hkept := List.find?_eq_none.mp hfind source hsource
      by_cases hmanage : u.canManage source.accountId = true
      · exact .inl hmanage
      · refine .inr (List.mem_append_left _ ?_)
        simpa [hmanage] using hkept
    · cases hcheck

theorem addsManaged_of_stillStored (hcalls : ∀ i, (updates i).call = .ok (calls i))
    {s : Calls AccountModel ι} {l : CallStep ι} (hread : Reading calls paused s)
    (hstill : StillStored M updates s l) : AddsManaged M updates calls paused s l := by
  intro t ht key source hsource
  rcases updates_next (fun i => (checked_of_call (hcalls i)).1) hread ht with
    ⟨i, pc, -, -, rfl⟩ | ⟨i, current, updated, rfl, hpc, hf, rfl⟩
  · exact .inl hsource
  · rw [storedSources, get_upsert] at hsource
    split_ifs at hsource with hkey
    · rcases managed_of_mem (checked_of_call (hcalls i)).2 hf hsource with hmanage | hkept
      · exact .inr hmanage
      · refine .inl (hkey ▸ hstill source ?_)
        rwa [hpc]
    · exact .inl hsource

/-- No update adds a source of an account its caller does not manage, in every interleaving
in which the sources each call has seen are still stored when it writes. -/
theorem views_never_widen {data : Data AccountModel} {ls : List (CallStep ι)}
    (hcalls : ∀ i, (updates i).call = .ok (calls i))
    (hsteps : Along (Calls.next M calls paused) (StillStored M updates) ⟨data, fun _ => .idle⟩ ls) :
    Along (Calls.next M calls paused) (AddsManaged M updates calls paused)
      ⟨data, fun _ => .idle⟩ ls :=
  hsteps.imp (fun hread h => hread.next h) (addsManaged_of_stillStored hcalls)
    (fun _ _ _ h => by cases h)

end

/-- The view 9 shows the account 1. One caller takes the source away; the other one, who
manages nothing, has loaded the view with it and saves it as it is. -/
def sampleView : AccountModel :=
  { id := 9, accountType := .view, view := some ⟨[⟨1, [], []⟩]⟩ }

def sampleUpdates (removes : Bool) : ViewUpdate where
  canManage _ := removes
  loaded := sampleView
  request := { view := some ⟨if removes then [] else [⟨1, [], []⟩]⟩ }

def sampleUpdateCalls (removes : Bool) : Call AccountModel :=
  .update (toString 9) fun current => applyUpdateFields current (sampleUpdates removes).request

def accountsModel : Model := ⟨"accounts", fun _ => ""⟩

def sampleTable : Data AccountModel := applyOps ∅ [.insert "accounts" "9" sampleView]

theorem views_never_widen_sample :
    Along (Calls.next accountsModel sampleUpdateCalls fun _ => false)
      (AddsManaged accountsModel sampleUpdates sampleUpdateCalls fun _ => false)
      ⟨sampleTable, fun _ => .idle⟩ [.start false, .finish false, .start true, .finish true] := by
  refine views_never_widen (fun i => ?_) (by decide +kernel)
  cases i <;> rfl

/-- The source comes back. -/
theorem stale_update_restores_source :
    (∀ i, (sampleUpdates i).call = .ok (sampleUpdateCalls i)) ∧
    (sampleUpdates false).canManage 1 = false ∧
    ∃ s t, runFrom (Calls.next accountsModel sampleUpdateCalls fun _ => false)
        ⟨sampleTable, fun _ => .idle⟩ [.start true, .finish true, .start false] = some s ∧
      s.next accountsModel sampleUpdateCalls (fun _ => false) (.finish false) = some t ∧
      storedSources accountsModel s.data "9" = [] ∧
      storedSources accountsModel t.data "9" = [⟨1, [], []⟩] := by
  refine ⟨fun i => ?_, rfl, _, _, rfl, rfl, by decide +kernel, by decide +kernel⟩
  cases i <;> rfl

end Bichon.Account
