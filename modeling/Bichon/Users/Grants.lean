import Bichon.Lib.Lists
import Bichon.Users.RecoveryCodes

/-!
# Grants on accounts

A user holds one role per account, and an assignment can have a deadline. `UserModel::update`
replaces the whole map of the assignments, and it keeps the deadline of every account that is
still in the map, whatever its role is now.

`create_account` gives the creator a role on the new account. It makes the map it writes from
a record that it has loaded before. Any number of these calls and of updates of other fields
are interleaved, on records loaded at any time before.
-/

namespace Bichon.Users

open Account Database MemDb Transition Lists

/-- What a `UserUpdateRequest` says about grants. -/
structure GrantUpdate where
  globalRoles : Option (List Nat) := none
  accountAccessMap : Option (List (Nat × Nat)) := none

/-- The function for `update_impl`, on the fields that are about grants. -/
def updateGrants (current : UserModel) (r : GrantUpdate) : UserModel :=
  let updated :=
    match r.globalRoles with
    | some roles =>
      { current with
        globalRoles := roles
        globalRoleExpiries := current.globalRoleExpiries.filter fun e => roles.contains e.1 }
    | none => current
  match r.accountAccessMap with
  | some map =>
    { updated with
      accountAccessMap := map
      accountRoleExpiries := updated.accountRoleExpiries.filter fun e => (map.lookup e.1).isSome }
  | none => updated

/-! ## Deadlines -/

section

variable {v w : UserModel} {r : GrantUpdate} {map : List (Nat × Nat)}

theorem accountAccessMap_updateGrants (v : UserModel) (r : GrantUpdate) :
    (updateGrants v r).accountAccessMap = r.accountAccessMap.getD v.accountAccessMap := by
  rw [updateGrants]
  cases r.accountAccessMap <;> cases r.globalRoles <;> rfl

theorem accountRoleExpiries_updateGrants (h : r.accountAccessMap = some map) :
    (updateGrants v r).accountRoleExpiries =
      v.accountRoleExpiries.filter fun e => (map.lookup e.1).isSome := by
  rw [updateGrants, h]
  cases r.globalRoles <;> rfl

/-- The role has no deadline, and what it permits is permitted at any time. -/
def InEffect (w : UserModel) (account role : Nat) : Prop :=
  w.accountRoleExpiries.lookup account = none ∧
    ∀ T : Tables, ∀ found ∈ T.findRole role, ∀ perm ∈ found.permissions,
      permissionsAllow T w (some account) perm = true

theorem inEffect_iff {account role : Nat} (h : w.accountAccessMap.lookup account = some role) :
    InEffect w account role ↔ w.accountRoleExpiries.lookup account = none := by
  refine ⟨fun h => h.1, fun hnone => ⟨hnone, fun T found hfound perm hperm => ?_⟩⟩
  have hrole : (w.accountAccessMap.lookup account).bind T.findRole = some found := by
    rw [h]
    exact hfound
  simp [permissionsAllow, UserModel.accountRoleExpired, hnone, hrole, hperm]

end

/-- An update after any others puts every account's new role into effect exactly when none of
the accounts that it gives another role had a deadline before. -/
theorem regrant_in_effect_iff (user : UserModel) (before : List GrantUpdate) (r : GrantUpdate) :
    let v := before.foldl updateGrants user
    (∀ account role, (updateGrants v r).accountAccessMap.lookup account = some role →
        v.accountAccessMap.lookup account ≠ some role →
        InEffect (updateGrants v r) account role) ↔
      ∀ map ∈ r.accountAccessMap, ∀ account role, map.lookup account = some role →
        v.accountAccessMap.lookup account ≠ some role →
        v.accountRoleExpiries.lookup account = none := by
  intro v
  rw [accountAccessMap_updateGrants]
  cases hmap : r.accountAccessMap with
  | none => simp +contextual
  | some map =>
    have hkept : ∀ {account role}, map.lookup account = some role →
        (InEffect (updateGrants v r) account role ↔
          v.accountRoleExpiries.lookup account = none) := by
      intro account role hrole
      rw [inEffect_iff (by rwa [accountAccessMap_updateGrants, hmap]),
        accountRoleExpiries_updateGrants hmap, lookup_filter (fun k => (map.lookup k).isSome),
        hrole]
      rfl
    simp only [Option.mem_some_iff, forall_eq']
    refine forall₃_congr fun account role hrole => ?_
    rw [hkept hrole]

/-- The grant on account 7 has run out and is replaced by another role. The new role is dead
from the start. -/
theorem regrant_inherits_deadline :
    let expired : UserModel :=
      { id := 1, accountAccessMap := [(7, 1)], accountRoleExpiries := [(7, 100)] }
    let regranted := updateGrants expired { accountAccessMap := some [(7, 2)] }
    let tables : Tables :=
      { roles := [⟨2, [.dataRead]⟩], accounts := [], viewRoleEnabled := false, now := 200 }
    regranted.accountAccessMap.lookup 7 = some 2 ∧
      regranted.accountRoleExpiries.lookup 7 = some 100 ∧
      permissionsAllow tables regranted (some 7) .dataRead = false ∧
      ¬ InEffect regranted 7 2 :=
  ⟨rfl, rfl, by decide, fun h => by cases h.1⟩

/-! ## Creating accounts -/

def defaultAccountManagerRoleId : Nat := 200100000000000

def insertGrant (accountId : Nat) (map : List (Nat × Nat)) : List (Nat × Nat) :=
  (accountId, defaultAccountManagerRoleId) :: map.filter fun e => e.1 != accountId

/-- A call of `create_account`, with the record it has loaded, or of `UserModel::update` for
other fields. -/
inductive UserCall
  | create (accountId : Nat) (loaded : MfaUser)
  | update (globalRoles : Option (List Nat))

namespace UserCall

def request : UserCall → GrantUpdate
  | create accountId loaded =>
    { accountAccessMap := some (insertGrant accountId loaded.accountAccessMap) }
  | update globalRoles => { globalRoles := globalRoles }

def call (key : String) (c : UserCall) : Call MfaUser := .update key fun current =>
    .ok { current with toUserModel := updateGrants current.toUserModel c.request }

/-- The map that was stored when the call made its own from it. -/
def found (pc : CallPc MfaUser) : UserCall → Option (List (Nat × Nat))
  | create _ loaded => some loaded.accountAccessMap
  | update _ =>
    match pc with
    | .writing current _ => some current.accountAccessMap
    | _ => none

end UserCall

section

variable {ι : Type} (M : Model) (key : String) (requests : ι → UserCall)

/-- A call that writes the record finds the stored map as it was. -/
def AsFound (s : Calls MfaUser ι) : CallStep ι → Prop
  | .start _ => True
  | .finish i =>
    (s.data.get M.collection key).map (·.accountAccessMap) = (requests i).found (s.pc i)

instance (s : Calls MfaUser ι) : DecidablePred (AsFound M key requests s)
  | .start _ => isTrue trivial
  | .finish _ => decEq (α := Option (List (Nat × Nat))) _ _

/-- The user has a role on every account whose creation has returned. -/
def KeepsGrants (s : Calls MfaUser ι) : Prop :=
  ∀ i accountId loaded, requests i = .create accountId loaded → Accepted s i →
    ∃ row ∈ s.data.get M.collection key, (row.accountAccessMap.lookup accountId).isSome = true

variable {M key requests} [DecidableEq ι] {s : Calls MfaUser ι}

theorem KeepsGrants.finish (h : KeepsGrants M key requests s) {i : ι} {current updated : MfaUser}
    (hpc : s.pc i = .writing current updated)
    (hupdated : updated = { current with
      toUserModel := updateGrants current.toUserModel (requests i).request })
    (hfound : AsFound M key requests s (.finish i)) :
    KeepsGrants M key requests ⟨applyOps s.data [.upsert M.collection key updated],
      Function.update s.pc i (.returned (.ok (some updated)))⟩ := by
  rw [AsFound, hpc] at hfound
  have hmap := accountAccessMap_updateGrants current.toUserModel (requests i).request
  -- what the stored map has is in the new one, and so is the account that is created
  have hkeeps : ∀ row ∈ s.data.get M.collection key, ∀ k,
      (row.accountAccessMap.lookup k).isSome = true →
      (updated.accountAccessMap.lookup k).isSome = true := by
    intro row hrow k hk
    rw [hrow, Option.map_some] at hfound
    rw [hupdated, hmap]
    cases hi : requests i with
    | create accountId loaded =>
      rw [hi] at hfound
      rw [Option.some.inj hfound] at hk
      by_cases hid : k = accountId
      · simp [UserCall.request, insertGrant, hid]
      · simp [UserCall.request, insertGrant, List.lookup_cons, beq_false_of_ne hid,
          lookup_filter (· != accountId), hid, hk]
    | update globalRoles =>
      rw [hi] at hfound
      rw [Option.some.inj hfound] at hk
      exact hk
  intro j accountId loaded hj haccepted
  refine ⟨updated, by rw [Option.mem_def, get_upsert, if_pos rfl], ?_⟩
  rcases accepted_update haccepted with ⟨rfl, -⟩ | ⟨-, haccepted⟩
  · rw [hupdated, hmap, hj]
    simp [UserCall.request, insertGrant]
  · obtain ⟨row, hrow, hk⟩ := h j accountId loaded hj haccepted
    exact hkeeps row hrow accountId hk

/-- No grant is lost in any interleaving in which every call that writes the record finds the
stored map as it was when the call made its own from it. -/
theorem grants_survive_creation {paused : ι → Bool} {data : Data MfaUser}
    {ls : List (CallStep ι)}
    (hsteps : Along (Calls.next M (fun i => (requests i).call key) paused) (AsFound M key requests)
      ⟨data, fun _ => .idle⟩ ls)
    (hrun : runFrom (Calls.next M (fun i => (requests i).call key) paused)
      ⟨data, fun _ => .idle⟩ ls =
      some s) : KeepsGrants M key requests s := by
  refine (Along.invariant (I := fun s => KeepsGrants M key requests s ∧
    Reading (fun i => (requests i).call key) paused s) (fun {s l t} hs hl h => ⟨?_, hs.2.next h⟩)
    ⟨?_, ?_⟩ hsteps hrun).1
  · rcases updates_next (fun _ => rfl) hs.2 h with
      ⟨i, pc, -, hpc, rfl⟩ | ⟨i, current, updated, rfl, hpc, hf, rfl⟩
    · intro j accountId loaded hj haccepted
      rcases accepted_update haccepted with ⟨-, row, hrow⟩ | ⟨-, haccepted⟩
      · exact absurd hrow (hpc row)
      · exact hs.1 j accountId loaded hj haccepted
    · exact hs.1.finish hpc (Except.ok.inj hf).symm hl
  · rintro i accountId loaded - ⟨row, ⟨⟩⟩
  · rintro i current updated ⟨⟩

end

/-- A user without any grant, and two calls that create accounts 1 and 2. -/
def noGrants : MfaUser := { id := 1, accountAccessMap := [], totpRecoveryCodes := [] }

def oneGrant : MfaUser := { noGrants with accountAccessMap := insertGrant 1 [] }

def creations (second : MfaUser) : Bool → UserCall
  | true => .create 1 noGrants
  | false => .create 2 second

def storedUser : Data MfaUser := applyOps ∅ [.insert "users" "1" noGrants]

/-- The second call has loaded the record with the first grant. -/
theorem grants_survive_creation_sample :
    ∃ s, runFrom (Calls.next usersModel (fun i => (creations oneGrant i).call "1") fun _ => false)
        ⟨storedUser, fun _ => .idle⟩ [.start true, .finish true, .start false, .finish false] =
          some s ∧
      Accepted s true ∧ Accepted s false ∧ KeepsGrants usersModel "1" (creations oneGrant) s :=
  have hsteps : Along (Calls.next usersModel (fun i => (creations oneGrant i).call "1")
      fun _ => false) (AsFound usersModel "1" (creations oneGrant)) ⟨storedUser, fun _ => .idle⟩
      [.start true, .finish true, .start false, .finish false] := by
    decide +kernel
  ⟨_, rfl, ⟨_, rfl⟩, ⟨_, rfl⟩, grants_survive_creation hsteps rfl⟩

/-- Both calls have loaded the record before the first of them writes, and the first grant is
lost. -/
theorem interleaved_creations_lose_grant :
    ∃ s, runFrom (Calls.next usersModel (fun i => (creations noGrants i).call "1") fun _ => false)
        ⟨storedUser, fun _ => .idle⟩ [.start true, .finish true, .start false, .finish false] =
          some s ∧
      Accepted s true ∧ Accepted s false ∧
      (s.data.get "users" "1").map (·.accountAccessMap) =
        some [(2, defaultAccountManagerRoleId)] ∧
      ¬ KeepsGrants usersModel "1" (creations noGrants) s := by
  refine ⟨_, rfl, ⟨_, rfl⟩, ⟨_, rfl⟩, by decide +kernel, fun h => ?_⟩
  obtain ⟨row, hrow, hsome⟩ := h true 1 noGrants rfl ⟨_, rfl⟩
  cases hrow
  exact absurd hsome (by decide)

end Bichon.Users
