import Mathlib.Data.Finset.Basic
import Bichon.Lib.Texts
import Bichon.Types

/-!
# Accounts, users and roles

The rows the authorization code reads. A text is its list of characters, an id a natural
number, a time a count of milliseconds. A permission is one of the names the code
compares with, or any other.
-/

namespace Bichon.Account

open Texts

inductive AccountType
  | imap
  | noSync
  | view
  deriving DecidableEq

inductive AccountKindRole
  | journal
  deriving DecidableEq

/-- A view's restriction on one source account. -/
structure ViewSource where
  accountId : Nat
  anyParticipant : List Text
  anyRecipient : List Text
  deriving DecidableEq

def ViewSource.isUnfiltered (s : ViewSource) : Bool :=
  s.anyParticipant.isEmpty && s.anyRecipient.isEmpty

structure ViewConfig where
  sources : List ViewSource
  deriving DecidableEq

/-- `Unit`, of a relative date. -/
inductive DateUnit
  | days
  | months
  | years
  deriving DecidableEq

structure RelativeDate where
  unit : DateUnit
  value : Nat
  deriving DecidableEq

structure DateSince where
  fixed : Option String
  relative : Option RelativeDate
  deriving DecidableEq

structure AccountModel where
  id : Nat
  accountType : AccountType
  email : String := ""
  enabled : Bool := true
  deleting : Bool := false
  legalHold : Bool := false
  retentionDays : Option Nat := none
  archiveRules : Option ArchiveRules := none
  extractionRules : Option ExtractionRules := none
  kind : Option AccountKindRole := none
  view : Option ViewConfig := none
  dateSince : Option DateSince := none
  dateBefore : Option RelativeDate := none
  downloadBatchSize : Option Nat := none
  maxEmailSizeBytes : Option Nat := none
  deriving DecidableEq

namespace AccountModel

section

variable (a : AccountModel)

def isViewAccount : Bool := a.accountType == .view

def isJournalAccount : Bool := a.kind == some .journal

def isOnHold : Bool := a.legalHold

def retentionDaysEffective : Nat := a.retentionDays.getD 0

end

end AccountModel

inductive Permission
  | root
  | accountManageAll
  | dataReadAll
  | dataRawDownloadAll
  | dataDeleteAll
  | dataExportBatchAll
  | accountManage
  | accountReadDetails
  | dataRead
  | dataRawDownload
  | dataDelete
  | dataExportBatch
  | other (name : Text)
  deriving DecidableEq

structure UserRole where
  id : Nat
  permissions : List Permission

structure UserModel where
  id : Nat
  globalRoles : List Nat := []
  globalRoleExpiries : List (Nat × Int) := []
  accountAccessMap : List (Nat × Nat)
  accountRoleExpiries : List (Nat × Int) := []
  deriving DecidableEq

/-- The tables a permission is resolved against: the roles, the accounts, whether view
accounts grant reads, and the time. -/
structure Tables where
  roles : List UserRole
  accounts : List AccountModel
  viewRoleEnabled : Bool
  now : Int

section

variable (T : Tables) (user : UserModel)

def Tables.findRole (rid : Nat) : Option UserRole := T.roles.find? (·.id == rid)

def UserModel.globalRoleExpired (rid : Nat) (now : Int) : Bool :=
  (user.globalRoleExpiries.lookup rid).any (· ≤ now)

def UserModel.accountRoleExpired (aid : Nat) (now : Int) : Bool :=
  (user.accountRoleExpiries.lookup aid).any (· ≤ now)

def UserModel.effectiveGlobalRoles : List Nat :=
  user.globalRoles.filter fun rid => !user.globalRoleExpired rid T.now

/-- `get_all_permissions`, and the set `permissions_allow` collects. -/
def UserModel.getAllPermissions : List Permission :=
  (user.effectiveGlobalRoles T).flatMap fun rid =>
    match T.findRole rid with
    | some role => role.permissions
    | none => []

def UserModel.isAdmin : Bool := (user.getAllPermissions T).contains .root

def checkGlobalLogic (granted : List Permission) (perm : Permission) : Bool :=
  granted.contains perm ||
    match perm with
    | .dataRead => granted.contains .dataReadAll
    | .dataDelete => granted.contains .dataDeleteAll
    | .dataRawDownload => granted.contains .dataRawDownloadAll
    | .dataExportBatch => granted.contains .dataExportBatchAll
    | .accountManage | .accountReadDetails => granted.contains .accountManageAll
    | _ => false

def checkAccountLogic (scopedPerms : List Permission) (perm : Permission) : Bool :=
  scopedPerms.contains perm ||
    match perm with
    | .dataRead | .accountReadDetails => scopedPerms.contains .accountManage
    | _ => false

def permissionsAllow (accountId : Option Nat) (perm : Permission) : Bool :=
  if checkGlobalLogic (user.getAllPermissions T) perm then true
  else
    match accountId with
    | none => false
    | some aid =>
      if user.accountRoleExpired aid T.now then false
      else
        match (user.accountAccessMap.lookup aid).bind T.findRole with
        | none => false
        | some role => role.permissions.contains perm || checkAccountLogic role.permissions perm

def hasPermission (accountId : Option Nat) (perm : Permission) : Bool :=
  if user.isAdmin T then true else permissionsAllow T user accountId perm

end

end Bichon.Account
