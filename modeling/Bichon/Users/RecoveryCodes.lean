import Bichon.Account.Model
import Bichon.Database.Update

/-!
# Recovery codes

A recovery code stands in for the second factor of a login, once. `verify_recovery_code`
works on the record of the user as the caller has loaded it: it looks for the code there,
and writes the rest of that list over the one that is stored. Any number of calls are
interleaved, on records loaded at any time before.

The comparison of a code with a stored hash is given from outside.
-/

namespace Bichon.Users

open Account Database MemDb Transition

/-- A record of the users, with what the second factor needs of it. -/
structure MfaUser extends UserModel where
  totpRecoveryCodes : List String
  updatedAt : Int := 0
  deriving DecidableEq

def normalizeRecoveryCode (code : String) : String :=
  String.ofList ((code.toList.filter Char.isAlphanum).map Char.toUpper)

/-- A call of `verify_recovery_code`, and the time of its write. -/
structure Attempt where
  loaded : MfaUser
  code : String
  now : Int := 0

namespace Attempt

def key (a : Attempt) : String := toString a.loaded.id

/-- The function for `update_impl`. -/
def consume (a : Attempt) (consumed : String) (current : MfaUser) : Except BichonError MfaUser :=
  .ok { current with
    totpRecoveryCodes := a.loaded.totpRecoveryCodes.filter (· != consumed)
    updatedAt := a.now }

end Attempt

variable (verifyHashedCode : String → String → Except BichonError Bool)

def matchingCode (normalized : String) : List String → Except BichonError (Option String)
  | [] => .ok none
  | stored :: codes => do
    if ← verifyHashedCode stored normalized then return some stored
    else matchingCode normalized codes

/-- The stored code that is consumed, and the call of `update_impl` with which the code is
accepted. A call that finds none does not touch the database. -/
def verifyRecoveryCode (a : Attempt) : Except BichonError (Option (String × Call MfaUser)) :=
  let normalized := normalizeRecoveryCode a.code
  if normalized.isEmpty then .ok none
  else do
    let found ← matchingCode verifyHashedCode normalized a.loaded.totpRecoveryCodes
    return found.map fun consumed => (consumed, .update a.key (a.consume consumed))

section

variable {ι : Type}

/-- The list in the database is the one the caller has loaded. -/
def AsLoaded (M : Model) (attempts : ι → Attempt) (s : Calls MfaUser ι) : CallStep ι → Prop
  | .start _ => True
  | .finish i =>
    (s.data.get M.collection (attempts i).key).map (·.totpRecoveryCodes) =
      some (attempts i).loaded.totpRecoveryCodes

instance (M : Model) (attempts : ι → Attempt) (s : Calls MfaUser ι) :
    DecidablePred (AsLoaded M attempts s)
  | .start _ => isTrue trivial
  | .finish _ => decEq (α := Option (List String)) _ _

def Accepted (s : Calls MfaUser ι) (i : ι) : Prop := ∃ row, s.pc i = .returned (.ok row)

/-- A code that was accepted is not in the list any more, and no other call has consumed
it. -/
def SingleUse (M : Model) (attempts : ι → Attempt) (consumed : ι → String)
    (s : Calls MfaUser ι) : Prop :=
  (∀ i, Accepted s i → ∀ row ∈ s.data.get M.collection (attempts i).key,
    consumed i ∉ row.totpRecoveryCodes) ∧
  ∀ i j, Accepted s i → Accepted s j → (attempts i).key = (attempts j).key →
    consumed i = consumed j → i = j

end

variable {verifyHashedCode}

theorem mem_of_matchingCode {normalized consumed : String} {codes : List String}
    (h : matchingCode verifyHashedCode normalized codes = .ok (some consumed)) :
    consumed ∈ codes := by
  induction codes with
  | nil => cases h
  | cons stored codes ih =>
    obtain ⟨found, -, h⟩ := ByteFile.bind_eq_ok h
    cases found with
    | true =>
      cases h
      exact List.mem_cons_self
    | false => exact List.mem_cons_of_mem _ (ih h)

theorem verifyRecoveryCode_some {a : Attempt} {consumed : String} {call : Call MfaUser}
    (h : verifyRecoveryCode verifyHashedCode a = .ok (some (consumed, call))) :
    consumed ∈ a.loaded.totpRecoveryCodes ∧ call = .update a.key (a.consume consumed) := by
  simp only [verifyRecoveryCode] at h
  split_ifs at h
  · cases h
  · obtain ⟨found, hm, h⟩ := ByteFile.bind_eq_ok h
    cases found with
    | none => cases h
    | some found =>
      cases h
      exact ⟨mem_of_matchingCode hm, rfl⟩

section

variable {ι : Type} [DecidableEq ι] {M : Model} {paused : ι → Bool} {attempts : ι → Attempt}
  {consumed : ι → String} {s : Calls MfaUser ι}

theorem accepted_update {i j : ι} {data : Data MfaUser} {pc : CallPc MfaUser}
    (h : Accepted ⟨data, Function.update s.pc i pc⟩ j) :
    (j = i ∧ ∃ row, pc = .returned (.ok row)) ∨ (j ≠ i ∧ Accepted s j) := by
  obtain ⟨row, hrow⟩ := h
  by_cases hji : j = i
  · subst hji
    exact .inl ⟨rfl, row, by simpa using hrow⟩
  · exact .inr ⟨hji, row, by simpa [hji] using hrow⟩

theorem SingleUse.start (h : SingleUse M attempts consumed s) {i : ι} {pc : CallPc MfaUser}
    (hpc : ∀ v, pc ≠ .returned (.ok v)) :
    SingleUse M attempts consumed ⟨s.data, Function.update s.pc i pc⟩ := by
  have hold : ∀ {j}, Accepted ⟨s.data, Function.update s.pc i pc⟩ j → Accepted s j := by
    intro j hj
    rcases accepted_update hj with ⟨-, row, hrow⟩ | ⟨-, hj⟩
    · exact absurd hrow (hpc row)
    · exact hj
  exact ⟨fun j hj => h.1 j (hold hj), fun j k hj hk => h.2 j k (hold hj) (hold hk)⟩

theorem SingleUse.finish (h : SingleUse M attempts consumed s) {i : ι} {updated current : MfaUser}
    (hmem : consumed i ∈ (attempts i).loaded.totpRecoveryCodes)
    (hf : (attempts i).consume (consumed i) current = .ok updated)
    (hloaded : AsLoaded M attempts s (.finish i)) :
    SingleUse M attempts consumed
      ⟨applyOps s.data [.upsert M.collection (attempts i).key updated],
        Function.update s.pc i (.returned (.ok (some updated)))⟩ := by
  obtain ⟨stored, hstored, hcodes⟩ := Option.map_eq_some_iff.mp hloaded
  have hremaining : updated.totpRecoveryCodes =
      (attempts i).loaded.totpRecoveryCodes.filter (· != consumed i) := by
    cases hf
    rfl
  -- a code of the same user that was accepted before is not in the loaded list
  have hother : ∀ j, Accepted s j → (attempts j).key = (attempts i).key →
      consumed j ∉ (attempts i).loaded.totpRecoveryCodes := by
    intro j hj hkey
    rw [← hcodes]
    exact h.1 j hj stored (hkey ▸ hstored)
  refine ⟨fun j hj row hrow => ?_, fun j k hj hk hkey hsame => ?_⟩
  · rw [get_upsert] at hrow
    split_ifs at hrow with hkey
    · obtain rfl := Option.some.inj hrow
      rw [hremaining, List.mem_filter]
      rintro ⟨hin, hne⟩
      rcases accepted_update hj with ⟨rfl, -⟩ | ⟨-, hj⟩
      · simp at hne
      · exact hother j hj hkey hin
    · rcases accepted_update hj with ⟨rfl, -⟩ | ⟨-, hj⟩
      · exact absurd rfl hkey
      · exact h.1 j hj row hrow
  · rcases accepted_update hj with ⟨hji, -⟩ | ⟨-, hj⟩ <;>
      rcases accepted_update hk with ⟨hki, -⟩ | ⟨-, hk⟩
    · rw [hji, hki]
    · rw [hji] at hkey hsame
      exact absurd (hsame ▸ hmem) (hother k hk hkey.symm)
    · rw [hki] at hkey hsame
      exact absurd (hsame ▸ hmem) (hother j hj hkey)
    · exact h.2 j k hj hk hkey hsame

/-- Every code is accepted once at most and does not come back, in every interleaving in
which each call finds the stored list as it has loaded it when it writes. -/
theorem recovery_codes_single_use {calls : ι → Call MfaUser} {data : Data MfaUser}
    {ls : List (CallStep ι)}
    (hcalls : ∀ i, verifyRecoveryCode verifyHashedCode (attempts i) =
      .ok (some (consumed i, calls i)))
    (hsteps : Along (Calls.next M calls paused) (AsLoaded M attempts) ⟨data, fun _ => .idle⟩ ls)
    (hrun : runFrom (Calls.next M calls paused) ⟨data, fun _ => .idle⟩ ls = some s) :
    SingleUse M attempts consumed s := by
  have hupdates : ∀ i, calls i = .update (attempts i).key ((attempts i).consume (consumed i)) :=
    fun i => (verifyRecoveryCode_some (hcalls i)).2
  refine (Along.invariant (I := fun s => SingleUse M attempts consumed s ∧ Reading calls paused s)
    (fun {s l t} hs hl h => ⟨?_, hs.2.next h⟩) ⟨⟨?_, ?_⟩, ?_⟩ hsteps hrun).1
  · rcases updates_next hupdates hs.2 h with
      ⟨i, pc, -, hpc, rfl⟩ | ⟨i, current, updated, rfl, -, hf, rfl⟩
    · exact hs.1.start hpc
    · exact hs.1.finish (verifyRecoveryCode_some (hcalls i)).1 hf hl
  · rintro i ⟨row, hrow⟩
    cases hrow
  · rintro i j ⟨row, hrow⟩
    cases hrow
  · intro i current updated h
    cases h

end

/-- The user has one code, and a hash is the code itself. -/
def oneCode : MfaUser := { id := 1, accountAccessMap := [], totpRecoveryCodes := ["A"] }

def sampleUsers : Data MfaUser := applyOps ∅ [.insert "users" "1" oneCode]

def usersModel : Model := ⟨"users", fun _ => ""⟩

/-- Every login presents the code, with the record as it was at first. -/
def sampleAttempt : Attempt := ⟨oneCode, "a", 0⟩

def sampleLogin : Call MfaUser := .update sampleAttempt.key (sampleAttempt.consume "A")

theorem verifyRecoveryCode_sample :
    verifyRecoveryCode (fun stored code => .ok (stored == code)) sampleAttempt =
      .ok (some ("A", sampleLogin)) := by
  have hnormalized : normalizeRecoveryCode "a" = "A" := by decide +kernel
  rw [verifyRecoveryCode, sampleAttempt, hnormalized]
  rfl

/-- The second login does not get further than its read. -/
theorem recovery_codes_single_use_sample :
    ∃ s, runFrom (Calls.next usersModel (fun _ : Bool => sampleLogin) fun _ => false)
        ⟨sampleUsers, fun _ => .idle⟩ [.start true, .start false, .finish true] = some s ∧
      Accepted s true ∧ SingleUse usersModel (fun _ => sampleAttempt) (fun _ => "A") s := by
  have hsteps : Along (Calls.next usersModel (fun _ : Bool => sampleLogin) fun _ => false)
      (AsLoaded usersModel fun _ => sampleAttempt) ⟨sampleUsers, fun _ => .idle⟩
      [.start true, .start false, .finish true] := by decide +kernel
  exact ⟨_, rfl, ⟨_, rfl⟩,
    recovery_codes_single_use (fun _ => verifyRecoveryCode_sample) hsteps rfl⟩

/-- Both logins have loaded the record before the first of them writes, and the code is
accepted twice. -/
theorem interleaved_logins_share_code :
    ∃ s, runFrom (Calls.next usersModel (fun _ : Bool => sampleLogin) fun _ => false)
        ⟨sampleUsers, fun _ => .idle⟩ [.start true, .finish true, .start false, .finish false] =
          some s ∧
      Accepted s true ∧ Accepted s false ∧
      ¬ SingleUse usersModel (fun _ => sampleAttempt) (fun _ => "A") s :=
  ⟨_, rfl, ⟨_, rfl⟩, ⟨_, rfl⟩, fun h =>
    Bool.noConfusion (h.2 true false ⟨_, rfl⟩ ⟨_, rfl⟩ rfl rfl)⟩

end Bichon.Users
