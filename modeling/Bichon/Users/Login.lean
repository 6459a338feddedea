import Bichon.Database.Update

/-!
# The names to log in with

`authenticate_user` looks for a user with the given username and, when there is none, for
one with the given email address. A request checks a username against the usernames and
an address against the addresses, but never one against the other: a user whose name is
the address of somebody else is found in their place.

The requests come one after the other. The hash of a password, and the checks of what is
neither a name nor a password, are given from outside.
-/

namespace Bichon.Users

open Database Transition ByteFile List

/-- A record of the users, with what a login looks for in it. -/
structure LoginUser where
  id : Nat
  username : String
  email : String
  password : Option String
  deriving DecidableEq

structure UserCreateRequest where
  username : String
  email : String
  password : String

structure UserUpdateRequest where
  username : Option String := none
  email : Option String := none
  password : Option String := none

structure UserChecks where
  hashLoginPassword : String → Except BichonError String
  create : UserCreateRequest → Except BichonError Unit
  update : Nat → UserUpdateRequest → Except BichonError Unit

/-- The record whose password `authenticate_user` compares with. No two users have the same
username, or the same address, so it does not matter which of them would be first. -/
def selectUser (users : List LoginUser) (name : String) : Option LoginUser :=
  (users.find? (·.username == name)).or (users.find? (·.email == name))

section

variable (E : UserChecks) (M : Model) (users : List LoginUser)

def UserCreateRequest.validate (r : UserCreateRequest) : Except BichonError Unit :=
  if r.username.utf8ByteSize < 3 then
    .error ⟨"Username must be at least 3 characters long.", .invalidParameter⟩
  else if 32 < r.username.utf8ByteSize then
    .error ⟨"Username cannot exceed 32 characters.", .invalidParameter⟩
  else if r.password.utf8ByteSize < 8 then
    .error ⟨"Password must be at least 8 characters long.", .invalidParameter⟩
  else if 256 < r.password.utf8ByteSize then
    .error ⟨"Password cannot exceed 256 characters.", .invalidParameter⟩
  else E.create r

def UserUpdateRequest.validate (id : Nat) (r : UserUpdateRequest) : Except BichonError Unit :=
  if r.username.any fun name => name.utf8ByteSize < 3 || 32 < name.utf8ByteSize then
    .error ⟨"Username must be 3-32 characters.", .invalidParameter⟩
  else if r.password.any fun p => p.utf8ByteSize < 8 || 256 < p.utf8ByteSize then
    .error ⟨"Password must be 8-256 characters.", .invalidParameter⟩
  else E.update id r

/-- Nobody but the user with this id is found. -/
def checkConflict (own : Option Nat) (e : BichonError) (found : Option LoginUser) :
    Except BichonError Unit :=
  if found.all (some ·.id == own) then .ok () else .error e

def checkUsernameConflict (own : Option Nat) (username : String) : Except BichonError Unit :=
  checkConflict own ⟨"Username '" ++ username ++ "' is already taken.", .alreadyExists⟩
    (users.find? (·.username == username))

def checkEmailConflict (own : Option Nat) (email : String) : Except BichonError Unit :=
  checkConflict own ⟨"Email '" ++ email ++ "' is already registered.", .alreadyExists⟩
    (users.find? (·.email == email))

def create (id : Nat) (r : UserCreateRequest) : Except BichonError (List LoginUser) := do
  r.validate E
  checkUsernameConflict users none r.username
  checkEmailConflict users none r.email
  let password ← E.hashLoginPassword r.password
  if users.any (·.id == id) then .error (M.raise (.duplicateKey M.collection (toString id)))
  else return users ++ [⟨id, r.username, r.email, some password⟩]

def update (id : Nat) (r : UserUpdateRequest) : Except BichonError (List LoginUser) := do
  r.validate E id
  let _ ← r.username.mapM (checkUsernameConflict users (some id))
  let _ ← r.email.mapM (checkEmailConflict users (some id))
  match users.find? (·.id == id) with
  | none => .error (M.raise (.notFound M.collection (toString id)))
  | some current =>
    let password ← r.password.mapM E.hashLoginPassword
    let updated : LoginUser := ⟨id, r.username.getD current.username, r.email.getD current.email,
      password.or current.password⟩
    return users.map fun user => if user.id = id then updated else user

/-- A request; a new user gets a random id. -/
inductive UserRequest
  | create (id : Nat) (r : UserCreateRequest)
  | update (id : Nat) (r : UserUpdateRequest)

def UserRequest.perform : UserRequest → Except BichonError (List LoginUser)
  | .create id r => Users.create E M users id r
  | .update id r => Users.update E M users id r

def UserRequest.next (r : UserRequest) : Option (List LoginUser) := (r.perform E M users).toOption

end

def defaultUsers (password : String) : List LoginUser :=
  [⟨100000000000000, "admin", "placeholder@example.com", some password⟩]

/-- A new username is not the address of another user, nor a new address a username. -/
def KeepsApart (users : List LoginUser) : UserRequest → Prop
  | .create _ r => ∀ v ∈ users, v.email ≠ r.username ∧ v.username ≠ r.email
  | .update id r => ∀ v ∈ users, v.id ≠ id → some v.email ≠ r.username ∧ some v.username ≠ r.email

instance (users : List LoginUser) : DecidablePred (KeepsApart users)
  | .create _ _ => inferInstanceAs (Decidable (∀ _ ∈ _, _ ≠ _ ∧ _ ≠ _))
  | .update _ _ => inferInstanceAs (Decidable (∀ _ ∈ _, _ ≠ _ → _ ≠ _ ∧ _ ≠ _))

/-- Every name belongs to one user. -/
structure Owned (owner : String → Nat) (users : List LoginUser) : Prop where
  ids : ∀ u ∈ users, ∀ v ∈ users, u.id = v.id → u = v
  username : ∀ u ∈ users, owner u.username = u.id
  email : ∀ u ∈ users, owner u.email = u.id

section

variable {E : UserChecks} {M : Model} {users users' : List LoginUser} {owner : String → Nat}
  {id : Nat} {u v : LoginUser}

section

variable (h : Owned owner users)

include h

theorem Owned.find?_eq {f : LoginUser → String} (hf : ∀ u ∈ users, owner (f u) = u.id)
    (hu : u ∈ users) : users.find? (f · == f u) = some u := by
  cases hfind : users.find? (f · == f u) with
  | none => exact absurd (beq_self_eq_true _) (find?_eq_none.mp hfind u hu)
  | some w =>
    have hw : f w = f u := by simpa using find?_some hfind
    have hmem := mem_of_find?_eq_some hfind
    rw [h.ids w hmem u hu (by rw [← hf w hmem, hw, hf u hu])]

theorem Owned.eq_of_username (hv : v ∈ users) (hu : u ∈ users)
    (heq : v.username = u.email) : v = u :=
  h.ids v hv u hu (by rw [← h.username v hv, heq, h.email u hu])

theorem Owned.selectUser_email (hu : u ∈ users) : selectUser users u.email = some u := by
  rw [selectUser, h.find?_eq h.email hu]
  cases hfind : users.find? (·.username == u.email) with
  | none => rfl
  | some w =>
    rw [h.eq_of_username (mem_of_find?_eq_some hfind) hu (by simpa using find?_some hfind)]
    rfl

theorem Owned.own_of_checkConflict {own : Option Nat} {e : BichonError}
    {f : LoginUser → String} (hf : ∀ u ∈ users, owner (f u) = u.id) (hv : v ∈ users)
    (hcheck : checkConflict own e (users.find? (f · == f v)) = .ok ()) : own = some v.id := by
  rw [h.find?_eq hf hv, checkConflict] at hcheck
  split at hcheck
  next hown => exact (beq_iff_eq.mp hown).symm
  next => cases hcheck

/-- One record is new, and its names are not those of another user. -/
theorem Owned.replace (new : LoginUser)
    (hmem : ∀ u ∈ users', u = new ∨ (u ∈ users ∧ u.id ≠ new.id))
    (hfree : ∀ v ∈ users, v.id ≠ new.id → v.username ≠ new.username ∧ v.username ≠ new.email ∧
      v.email ≠ new.username ∧ v.email ≠ new.email) :
    Owned (fun name => if name = new.username ∨ name = new.email then new.id else owner name)
      users' where
  ids u hu v hv heq := by grind [h.ids]
  username u hu := by grind [h.username]
  email u hu := by grind [h.email]

theorem Owned.create {r : UserCreateRequest}
    (hapart : KeepsApart users (.create id r)) (hstep : Users.create E M users id r = .ok users') :
    ∃ owner', Owned owner' users' := by
  obtain ⟨_, -, hstep⟩ := bind_eq_ok hstep
  obtain ⟨_, husername, hstep⟩ := bind_eq_ok hstep
  obtain ⟨_, hemail, hstep⟩ := bind_eq_ok hstep
  obtain ⟨password, -, hstep⟩ := bind_eq_ok hstep
  split at hstep
  next => cases hstep
  next hnew =>
    cases hstep
    refine ⟨_, h.replace ⟨id, r.username, r.email, some password⟩ (fun u hu => ?_) fun v hv _ => ?_⟩
    · refine (mem_append.mp hu).symm.imp mem_singleton.mp fun hu => ⟨hu, fun heq => ?_⟩
      exact hnew (any_eq_true.mpr ⟨u, hu, beq_iff_eq.mpr heq⟩)
    · refine ⟨fun heq : v.username = r.username => ?_, (hapart v hv).2, (hapart v hv).1,
        fun heq : v.email = r.email => ?_⟩
      · cases h.own_of_checkConflict h.username hv (heq ▸ husername)
      · cases h.own_of_checkConflict h.email hv (heq ▸ hemail)

theorem Owned.update {r : UserUpdateRequest}
    (hapart : KeepsApart users (.update id r)) (hstep : Users.update E M users id r = .ok users') :
    ∃ owner', Owned owner' users' := by
  obtain ⟨_, -, hstep⟩ := bind_eq_ok hstep
  obtain ⟨_, husername, hstep⟩ := bind_eq_ok hstep
  obtain ⟨_, hemail, hstep⟩ := bind_eq_ok hstep
  split at hstep
  next => cases hstep
  next current hfind =>
    obtain ⟨password, -, hstep⟩ := bind_eq_ok hstep
    cases hstep
    have hcurrent : current.id = id := by simpa using find?_some hfind
    have hmem := mem_of_find?_eq_some hfind
    refine ⟨_, h.replace ⟨id, r.username.getD current.username, r.email.getD current.email,
      password.or current.password⟩ (fun u hu => ?_) fun v hv hne => ?_⟩
    · obtain ⟨w, hw, rfl⟩ := mem_map.mp hu
      split
      next => exact .inl rfl
      next hne => exact .inr ⟨hw, hne⟩
    · have husername' : some v.username ≠ r.username := by
        intro heq
        rw [← heq] at husername
        obtain ⟨_, hcheck, -⟩ := bind_eq_ok husername
        exact hne (Option.some.inj (h.own_of_checkConflict h.username hv hcheck)).symm
      have hemail' : some v.email ≠ r.email := by
        intro heq
        rw [← heq] at hemail
        obtain ⟨_, hcheck, -⟩ := bind_eq_ok hemail
        exact hne (Option.some.inj (h.own_of_checkConflict h.email hv hcheck)).symm
      have hother : ∀ {name old : String} {o : Option String}, owner name = v.id →
          owner old = current.id → some name ≠ o → name ≠ o.getD old := by
        rintro name old (_ | new) hname hold hnew rfl
        · exact hne (hname.symm.trans (hold.trans hcurrent))
        · exact hnew rfl
      exact ⟨hother (h.username v hv) (h.username current hmem) husername',
        hother (h.username v hv) (h.email current hmem) (hapart v hv hne).2,
        hother (h.email v hv) (h.username current hmem) (hapart v hv hne).1,
        hother (h.email v hv) (h.email current hmem) hemail'⟩

end

/-- In every run of accepted requests none of which takes the address of another user for
a username, or a username for an address, both names of a user lead to their record. -/
theorem names_lead_to_user {password : String} {requests : List UserRequest}
    (hapart : Along (UserRequest.next E M) KeepsApart (defaultUsers password) requests)
    (hrun : runFrom (UserRequest.next E M) (defaultUsers password) requests = some users) :
    ∀ u ∈ users, u.password.isSome = true →
      selectUser users u.username = some u ∧ selectUser users u.email = some u ∧
        ∀ v ∈ users, v.username = u.email → v = u := by
  obtain ⟨owner, howned⟩ : ∃ owner, Owned owner users := by
    refine Along.invariant (I := fun users => ∃ owner, Owned owner users) ?_
      ⟨fun _ => 100000000000000, ?_, ?_, ?_⟩ hapart hrun
    · rintro users r users' ⟨owner, h⟩ hl hstep
      rw [UserRequest.next] at hstep
      cases hperform : r.perform E M users with
      | error e =>
        rw [hperform] at hstep
        cases hstep
      | ok after =>
        rw [hperform] at hstep
        cases hstep
        cases r with
        | create id r => exact h.create hl hperform
        | update id r => exact h.update hl hperform
    · simp [defaultUsers]
    · simp [defaultUsers]
    · simp [defaultUsers]
  exact fun u hu _ => ⟨by rw [selectUser, howned.find?_eq howned.username hu]; rfl,
    howned.selectUser_email hu, fun v hv => howned.eq_of_username hv hu⟩

/-- Hashes that are the passwords, and no other checks. -/
def noChecks : UserChecks := ⟨.ok, fun _ => .ok (), fun _ _ => .ok ()⟩

def usersTable : Model := ⟨"users", fun _ => ""⟩

/-- A user who takes their own address for a username. -/
def ownAddress : List UserRequest :=
  [.create 1 ⟨"alice", "a@b.example", "password"⟩, .update 1 { username := some "a@b.example" }]

theorem names_lead_to_user_renamed :
    selectUser (defaultUsers "" ++ [⟨1, "a@b.example", "a@b.example", some "password"⟩])
      "a@b.example" = some ⟨1, "a@b.example", "a@b.example", some "password"⟩ := by
  have hapart : Along (UserRequest.next noChecks usersTable) KeepsApart (defaultUsers "")
      ownAddress := by decide +kernel
  have hrun : runFrom (UserRequest.next noChecks usersTable) (defaultUsers "") ownAddress =
      some (defaultUsers "" ++ [⟨1, "a@b.example", "a@b.example", some "password"⟩]) := by
    decide +kernel
  exact (names_lead_to_user hapart hrun _ (mem_append_right _ mem_cons_self) rfl).1

/-- The second user is created with the address of the first one for a username, and is
found where the first one is looked for. -/
theorem username_captures_email :
    (runFrom (UserRequest.next noChecks usersTable) (defaultUsers "")
      [.create 1 ⟨"alice", "a@b.example", "password"⟩,
       .create 2 ⟨"a@b.example", "c@b.example", "password"⟩]).map (fun users =>
        (users.map (·.email), (selectUser users "a@b.example").map (·.id))) =
      some (["placeholder@example.com", "a@b.example", "c@b.example"], some 2) := by
  decide +kernel

end

end Bichon.Users
