import Bichon.Account.Model

/-!
# What a caller may read

`access.rs` expands the accounts a caller is granted into what they may search, export
and aggregate over. A view account stands for its sources. The scope of a search keeps
the filter of each source; an aggregate works with account ids alone, so a view gives it
the sources without a filter and nothing else.

A set of ids is a `Finset`. The account an id names is the first row with that id.
-/

namespace Bichon.Account

open Texts

/-- One `(account, filter)` pair a search may read. -/
structure ViewScopeGroup where
  accountId : Nat
  anyParticipant : List Text
  anyRecipient : List Text
  deriving DecidableEq

namespace ViewScopeGroup

def unbounded (accountId : Nat) : ViewScopeGroup := ⟨accountId, [], []⟩

def ofSource (s : ViewSource) : ViewScopeGroup := ⟨s.accountId, s.anyParticipant, s.anyRecipient⟩

def isUnfiltered (g : ViewScopeGroup) : Bool := g.anyParticipant.isEmpty && g.anyRecipient.isEmpty

end ViewScopeGroup

def findAccount (accounts : List AccountModel) (id : Nat) : Option AccountModel :=
  accounts.find? (·.id == id)

def AccountModel.sources (a : AccountModel) : List ViewSource :=
  match a.view with
  | some view => view.sources
  | none => []

def scopeGroupsFor (accounts : List AccountModel) (candidates : List Nat)
    (allowed : Nat → Bool) : List ViewScopeGroup :=
  candidates.flatMap fun id =>
    match findAccount accounts id with
    | none => []
    | some account =>
      if !allowed id then []
      else if account.isViewAccount then account.sources.map .ofSource
      else [.unbounded id]

def unfilteredSourceAccounts (scope : List ViewScopeGroup) : List Nat :=
  (scope.filter (·.isUnfiltered)).map (·.accountId)

def aggregateAccountIds (accounts : List AccountModel) (granted : List Nat)
    (canRead : Nat → Bool) : Finset Nat :=
  (granted.flatMap fun id =>
    match findAccount accounts id with
    | none => []
    | some account =>
      if account.isViewAccount then
        if !canRead id then []
        else (account.sources.filter (·.isUnfiltered)).map (·.accountId)
      -- the ordinary arm does not ask `can_read`
      else [id]).toFinset

section

variable (T : Tables) (user : UserModel)

def readableAccounts : List AccountModel :=
  if T.viewRoleEnabled then T.accounts else T.accounts.filter (!·.isViewAccount)

/-- `account_access_map.keys()`. -/
def grants : List Nat := user.accountAccessMap.map (·.1)

/-- `None` is no restriction. -/
def searchScope (requested : Option (List Nat)) : Option (List ViewScopeGroup) :=
  match requested, hasPermission T user none .dataReadAll with
  | none, true => none
  | none, false =>
    some (scopeGroupsFor (readableAccounts T) (grants user)
      fun id => hasPermission T user (some id) .dataRead)
  | some candidates, _ =>
    some (scopeGroupsFor (readableAccounts T) candidates
      fun id => hasPermission T user (some id) .dataRead)

/-- The two refusals of `export_scope_accounts`. -/
def exportRefused (groups : List ViewScopeGroup) : BichonError :=
  let reason :=
    if groups.isEmpty then "Missing permission 'data:export:batch'"
    else "a batch export cannot be scoped by a view's address filter, so it is refused " ++
      "rather than exporting the whole source account. Export the source account " ++
      "directly, or hold 'data:export:batch' on it."
  ⟨"Access Denied: " ++ reason, .forbidden⟩

def exportScopeAccounts : Except BichonError (Option (Finset Nat)) :=
  if hasPermission T user none .dataExportBatch then .ok none
  else
    let groups := scopeGroupsFor (readableAccounts T) (grants user)
      fun id => hasPermission T user (some id) .dataExportBatch
    let ids := (unfilteredSourceAccounts groups).toFinset
    if ids = ∅ then .error (exportRefused groups) else .ok (some ids)

def aggregateAccountsWith (unrestricted : Bool) (canRead : Nat → Bool) : Option (Finset Nat) :=
  if unrestricted then none
  else some (aggregateAccountIds (readableAccounts T) (grants user) canRead)

def aggregateAccounts : Option (Finset Nat) :=
  aggregateAccountsWith T user (hasPermission T user none .dataReadAll)
    fun id => hasPermission T user (some id) .dataRead

end

section

variable {accounts accounts' : List AccountModel} {granted : List Nat} {canRead : Nat → Bool}

section

variable (accounts : List AccountModel)

/-- The id names an account that stores mail of its own. -/
def IsOrdinary (id : Nat) : Prop := ∃ a ∈ findAccount accounts id, a.isViewAccount = false

/-- A granted view that the caller may read through has the account as a source without
any condition. -/
def Delegated (granted : List Nat) (canRead : Nat → Bool)
    (id : Nat) : Prop :=
  ∃ v ∈ granted, canRead v = true ∧ ∃ a ∈ findAccount accounts v, a.isViewAccount = true ∧
    ∃ s ∈ a.sources, s.isUnfiltered = true ∧ s.accountId = id

/-- Every aggregated id is a readable ordinary account, or delegated whole by a readable
view. -/
def ExposesOnlyReadable (granted : List Nat)
    (canRead : Nat → Bool) : Prop :=
  ∀ id ∈ aggregateAccountIds accounts granted canRead,
    (IsOrdinary accounts id ∧ canRead id = true) ∨ Delegated accounts granted canRead id

/-- Every grant on an ordinary account lets the caller read it, or a view they may read
through delegates the account anyway. -/
def GrantsRead (granted : List Nat) (canRead : Nat → Bool) :
    Prop :=
  ∀ id ∈ granted, IsOrdinary accounts id → canRead id = true ∨ Delegated accounts granted canRead id

end

/-- The two tables have the same row under every id the caller may read. -/
def SameReadable (canRead : Nat → Bool) (accounts accounts' : List AccountModel) : Prop :=
  ∀ id, canRead id = true → findAccount accounts id = findAccount accounts' id

theorem mem_aggregateAccountIds {id : Nat} :
    id ∈ aggregateAccountIds accounts granted canRead ↔
      (id ∈ granted ∧ IsOrdinary accounts id) ∨ Delegated accounts granted canRead id := by
  rw [aggregateAccountIds, List.mem_toFinset, List.mem_flatMap]
  constructor
  · rintro ⟨v, hv, h⟩
    cases hf : findAccount accounts v with
    | none => simp [hf] at h
    | some a =>
      cases ha : a.isViewAccount with
      | false =>
        obtain rfl : id = v := by simpa [hf, ha] using h
        exact .inl ⟨hv, a, hf, ha⟩
      | true =>
        cases hr : canRead v with
        | false => simp [hf, ha, hr] at h
        | true =>
          obtain ⟨s, ⟨hs, hu⟩, hid⟩ : ∃ s, (s ∈ a.sources ∧ s.isUnfiltered = true) ∧
              s.accountId = id := by
            simpa [hf, ha, hr] using h
          exact .inr ⟨v, hv, hr, a, hf, ha, s, hs, hu, hid⟩
  · rintro (⟨hg, a, hf, ha⟩ | ⟨v, hv, hr, a, hf, ha, s, hs, hu, hid⟩)
    · exact ⟨id, hg, by simp [Option.mem_def.mp hf, ha]⟩
    · refine ⟨v, hv, ?_⟩
      simp only [Option.mem_def.mp hf, ha, hr, if_true, Bool.not_true, Bool.false_eq_true,
        if_false, List.mem_map, List.mem_filter]
      exact ⟨s, ⟨hs, hu⟩, hid⟩

theorem mem_unfilteredSourceAccounts {id : Nat} :
    id ∈ unfilteredSourceAccounts (scopeGroupsFor accounts granted canRead) ↔
      (id ∈ granted ∧ IsOrdinary accounts id ∧ canRead id = true) ∨
        Delegated accounts granted canRead id := by
  simp only [unfilteredSourceAccounts, scopeGroupsFor, List.mem_map, List.mem_filter,
    List.mem_flatMap]
  constructor
  · rintro ⟨g, ⟨⟨v, hv, hg⟩, hu⟩, rfl⟩
    split at hg
    · cases hg
    next a hf =>
      split_ifs at hg with hr ha
      · cases hg
      · obtain ⟨s, hs, rfl⟩ := List.mem_map.mp hg
        exact .inr ⟨v, hv, by simpa using hr, a, hf, ha, s, hs, hu, rfl⟩
      · cases List.mem_singleton.mp hg
        exact .inl ⟨hv, ⟨a, hf, by simpa using ha⟩, show canRead v = _ by simpa using hr⟩
  · rintro (⟨hg, ⟨a, hf, ha⟩, hr⟩ | ⟨v, hv, hr, a, hf, ha, s, hs, hu, hid⟩)
    · exact ⟨.unbounded id, ⟨⟨id, hg, by simp [Option.mem_def.mp hf, ha, hr]⟩, rfl⟩, rfl⟩
    · refine ⟨.ofSource s, ⟨⟨v, hv, ?_⟩, hu⟩, hid⟩
      simpa [Option.mem_def.mp hf, ha, hr] using ⟨s, hs, rfl⟩

/-- The aggregates and the search agree on the accounts read whole exactly when every
grant on an ordinary account lets the caller read it. -/
theorem aggregateAccountIds_eq_scope_iff :
    aggregateAccountIds accounts granted canRead =
        (unfilteredSourceAccounts (scopeGroupsFor accounts granted canRead)).toFinset ↔
      GrantsRead accounts granted canRead := by
  simp only [Finset.ext_iff, List.mem_toFinset, mem_aggregateAccountIds,
    mem_unfilteredSourceAccounts]
  -- of one account both sides say the same about its grant
  exact forall_congr' fun id => by tauto

/-- Naming accounts widens a search only for a caller who may read them all. -/
theorem searchScope_request (T : Tables) (user : UserModel) (candidates : List Nat) :
    hasPermission T user none .dataRead = true ∨ ∃ own, searchScope T user none = some own ∧
      ∀ groups ∈ searchScope T user (some candidates), groups ⊆ own := by
  cases hnone : hasPermission T user none .dataRead with
  | true => exact .inl rfl
  | false =>
    simp only [hasPermission, permissionsAllow] at hnone
    split_ifs at hnone with hadmin hglobal
    have hall : hasPermission T user none .dataReadAll = false := by
      simp_all [hasPermission, permissionsAllow, checkGlobalLogic]
    refine .inr ⟨_, by simp only [searchScope, hall]; rfl, ?_⟩
    rintro _ ⟨⟩ g hg
    obtain ⟨id, -, hid⟩ := List.mem_flatMap.mp hg
    refine List.mem_flatMap.mpr ⟨id, ?_, hid⟩
    -- whoever may read this account holds a grant on it
    cases hlookup : user.accountAccessMap.lookup id with
    | none =>
      simp only [hasPermission, permissionsAllow, hadmin, hglobal, hlookup] at hid
      split at hid <;> simp at hid
    | some rid =>
      obtain ⟨before, after, hmap, -⟩ := List.lookup_eq_some_iff.mp hlookup
      simp [grants, hmap]

/-- A batch export covers the accounts of which the caller may export all mail, themselves or
through a view without a filter, and is refused when there are none. -/
theorem exportScopeAccounts_exact (T : Tables) (user : UserModel) :
    let may := fun id => hasPermission T user (some id) .dataExportBatch
    let whole := fun id =>
      (id ∈ grants user ∧ IsOrdinary (readableAccounts T) id ∧ may id = true) ∨
        Delegated (readableAccounts T) (grants user) may id
    match exportScopeAccounts T user with
    | .ok none => hasPermission T user none .dataExportBatch = true
    | .ok (some ids) => ids ≠ ∅ ∧ ∀ id, id ∈ ids ↔ whole id
    | .error _ => ∀ id, ¬ whole id := by
  intro may whole
  have hmem (id : Nat) : id ∈ (unfilteredSourceAccounts
      (scopeGroupsFor (readableAccounts T) (grants user) may)).toFinset ↔ whole id :=
    List.mem_toFinset.trans mem_unfilteredSourceAccounts
  rw [exportScopeAccounts]
  dsimp only
  split_ifs with hall hempty
  · exact hall
  · intro id hid
    rw [← hmem, hempty] at hid
    cases hid
  · exact ⟨hempty, hmem⟩

theorem exposesOnlyReadable_iff :
    ExposesOnlyReadable accounts granted canRead ↔ GrantsRead accounts granted canRead := by
  constructor
  · intro h id hg ho
    rcases h id (mem_aggregateAccountIds.mpr (.inl ⟨hg, ho⟩)) with ⟨-, hr⟩ | hd
    · exact .inl hr
    · exact .inr hd
  · intro h id hid
    rcases mem_aggregateAccountIds.mp hid with ⟨hg, ho⟩ | hd
    · exact (h id hg ho).imp (fun hr => ⟨ho, hr⟩) (fun hd => hd)
    · exact .inr hd

theorem Delegated.of_sameReadable {id : Nat} (hs : SameReadable canRead accounts accounts')
    (h : Delegated accounts granted canRead id) : Delegated accounts' granted canRead id := by
  obtain ⟨v, hv, hr, a, hf, h⟩ := h
  exact ⟨v, hv, hr, a, hs v hr ▸ hf, h⟩

theorem aggregateAccountIds_subset (hg : GrantsRead accounts granted canRead)
    (hs : SameReadable canRead accounts accounts') :
    aggregateAccountIds accounts granted canRead ⊆
      aggregateAccountIds accounts' granted canRead := by
  intro id hid
  rw [mem_aggregateAccountIds] at hid ⊢
  rcases hid with ⟨hid, ho⟩ | hd
  · rcases hg id hid ho with hr | hd
    · obtain ⟨a, hf, ha⟩ := ho
      exact .inl ⟨hid, a, hs id hr ▸ hf, ha⟩
    · exact .inr (hd.of_sameReadable hs)
  · exact .inr (hd.of_sameReadable hs)

/-- The aggregates show a caller only what they may read exactly when each of their
grants on an ordinary account lets them read it or a view delegates that account. Rows
that the caller may not read then make no difference to the set. -/
theorem aggregate_exposes_only_readable (accounts : List AccountModel) (granted : List Nat)
    (canRead : Nat → Bool) :
    (ExposesOnlyReadable accounts granted canRead ↔ GrantsRead accounts granted canRead) ∧
      ∀ accounts', GrantsRead accounts granted canRead → GrantsRead accounts' granted canRead →
        SameReadable canRead accounts accounts' →
          aggregateAccountIds accounts granted canRead =
            aggregateAccountIds accounts' granted canRead := by
  refine ⟨exposesOnlyReadable_iff, fun accounts' hg hg' hs => ?_⟩
  exact (aggregateAccountIds_subset hg hs).antisymm
    (aggregateAccountIds_subset hg' fun id hr => (hs id hr).symm)

end

/-- A caller granted the local account 3 and the view 9 over the accounts 1 and 2, the
first of the two sources with a filter. -/
def sampleAccounts : List AccountModel :=
  [{ id := 3, accountType := .noSync },
    { id := 9, accountType := .view, view := some ⟨[⟨1, [['a']], []⟩, ⟨2, [], []⟩]⟩ }]

/-- The caller may not read account 2 itself, whether there is a row for it or not. -/
theorem aggregate_exposes_only_readable_sample :
    let canRead := fun id => id == 3 || id == 9
    let wider := { id := 2, accountType := .noSync } :: sampleAccounts
    ExposesOnlyReadable wider [9, 3, 2] canRead ∧
      aggregateAccountIds wider [9, 3, 2] canRead = {2, 3} ∧
        aggregateAccountIds wider [9, 3, 2] canRead =
          aggregateAccountIds sampleAccounts [9, 3, 2] canRead := by
  intro canRead wider
  have hgrants : ∀ accounts ∈ [wider, sampleAccounts], GrantsRead accounts [9, 3, 2] canRead := by
    unfold GrantsRead IsOrdinary Delegated
    decide
  have hsame : SameReadable canRead wider sampleAccounts := by
    intro id hid
    have hid : id = 3 ∨ id = 9 := by simpa [canRead] using hid
    rcases hid with rfl | rfl <;> rfl
  obtain ⟨hiff, hsets⟩ := aggregate_exposes_only_readable wider [9, 3, 2] canRead
  exact ⟨hiff.mpr (hgrants _ (by simp)), by decide,
    hsets _ (hgrants _ (by simp)) (hgrants _ (by simp)) hsame⟩

/-- Mail of account 7 is granted by a role whose assignment ran out. -/
def expiredUser : UserModel where
  id := 1
  accountAccessMap := [(7, 1)]
  accountRoleExpiries := [(7, 100)]

def expiredTables (accounts : List AccountModel) : Tables where
  roles := [⟨1, [.dataRead]⟩]
  accounts := accounts
  viewRoleEnabled := true
  now := 200

/-- The permission on account 7 has expired, so nothing of it may be read. The aggregates
still cover it, and the caller can tell a table with the account from one without. -/
theorem expired_grant_is_aggregated :
    let seven : AccountModel := { id := 7, accountType := .noSync }
    let canRead (tables : Tables) := fun id => hasPermission tables expiredUser (some id) .dataRead
    canRead (expiredTables [seven]) 7 = false ∧ canRead (expiredTables []) 7 = false ∧
      aggregateAccounts (expiredTables [seven]) expiredUser = some {7} ∧
      aggregateAccounts (expiredTables []) expiredUser = some ∅ ∧
      ¬ ExposesOnlyReadable [seven] [7] (canRead (expiredTables [seven])) ∧
      SameReadable (canRead (expiredTables [seven])) [seven] [] := by
  refine ⟨by decide, by decide, by decide, by decide, ?_, ?_⟩
  · intro h
    rcases h 7 (by decide) with ⟨-, h⟩ | ⟨v, hv, hr, -⟩
    · exact absurd h (by decide)
    · obtain rfl := List.mem_singleton.mp hv
      exact absurd hr (by decide)
  · intro id hr
    by_cases hid : id = 7
    · subst hid
      exact absurd hr (by decide)
    · have hne : (7 == id) = false := beq_false_of_ne (Ne.symm hid)
      simp [findAccount, hne]

end Bichon.Account
