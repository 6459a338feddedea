import Mathlib.Logic.Basic

/-!
# Errors and filter rules

What several components share: the errors a call returns, and the rules of an account on
what is archived and from which attachments a text is taken. The regular expressions are given
from outside; a pattern that is not one matches nothing.
-/

namespace Bichon

inductive ErrorCode
  | internalError
  | resourceNotFound
  | emailParseError
  | tooManyRequest
  | forbidden
  | networkError
  | imapCommandFailed
  | invalidParameter
  | alreadyExists
  deriving DecidableEq, Repr

structure BichonError where
  message : String
  code : ErrorCode
  deriving DecidableEq, Repr

def toAsciiLowercase (s : String) : String := s.map Char.toLower

structure FilterRule where
  includes : List String := []
  excludes : List String := []
  deriving DecidableEq, Repr

variable (regexMatches : String → String → Bool)

namespace FilterRule

def isEmpty (r : FilterRule) : Bool := r.includes.isEmpty && r.excludes.isEmpty

/-- The two checks of a rule, for the way in which patterns are matched. -/
def passes (matchesAny : List String → Bool) (r : FilterRule) : Bool :=
  if !r.includes.isEmpty && !matchesAny r.includes then false
  else if !r.excludes.isEmpty && matchesAny r.excludes then false
  else true

def matchesExact (r : FilterRule) (value : String) : Bool :=
  r.passes fun patterns => patterns.any fun e => toAsciiLowercase e == toAsciiLowercase value

def matchesRegex (r : FilterRule) (value : String) : Bool :=
  r.passes fun patterns => patterns.any fun p => regexMatches p value

/-- A rule that only counts when it is set and there is a value to check. -/
def admits (r : FilterRule) (value : Option String) : Bool :=
  if r.isEmpty then true else value.elim true (r.matchesRegex regexMatches)

end FilterRule

structure ExtractionRules where
  enabled : Bool := false
  extensions : FilterRule := {}
  folders : FilterRule := {}
  attachmentNames : FilterRule := {}
  senders : FilterRule := {}
  deriving DecidableEq, Repr

def ExtractionRules.shouldExtract (r : ExtractionRules) (ext : String)
    (folder attachmentName sender : Option String) : Bool :=
  if !r.enabled then false
  else if !r.extensions.matchesExact ext then false
  else r.folders.admits regexMatches folder &&
    r.attachmentNames.admits regexMatches attachmentName && r.senders.admits regexMatches sender

/-- The rules that decide whether a message is archived. -/
structure ArchiveRules where
  enabled : Bool := false
  senders : FilterRule := {}
  subjects : FilterRule := {}
  skipLargerThan : Option Nat := none
  spamHeaders : List String := []
  deriving DecidableEq

def ArchiveRules.shouldArchive (r : ArchiveRules) (sender subject : Option String) (size : Nat)
    (isSpam : Bool) : Bool :=
  if !r.enabled then true
  else if !r.senders.admits regexMatches sender then false
  else if !r.subjects.admits regexMatches subject then false
  else if r.skipLargerThan.any (· < size) then false
  else if !r.spamHeaders.isEmpty && isSpam then false
  else true

end Bichon
