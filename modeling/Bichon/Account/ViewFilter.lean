import Bichon.Account.Access

/-!
# The filter of a view, in the search and at the read check

A view is kept to some addresses of its source twice. `ViewScopeGroup::matches` compares
the addresses of one envelope after lower-casing both sides. The scope of a search
compiles every address into an escaped pattern with the flag `(?i)` and matches it with
the whole stored value under simple case folding.

The tables of Unicode are given from outside. Of the regular expressions only what the
code builds is read: the flag and a sequence of literals. The limits of the index on the
length of a value and on the size of an automaton are left out.
-/

namespace Bichon.Account

open Texts

/-- The properties of characters the standard library and the regex crate use. -/
structure Unicode where
  /-- `char::to_lowercase`, the full mapping without a context -/
  toLowercase : Char → List Char
  cased : Char → Bool
  caseIgnorable : Char → Bool
  /-- the representative of a character's class under simple case folding -/
  simpleFold : Char → Char

/-- The addresses of a message, as the index stores them and as they are read back. -/
structure EnvelopeAddresses where
  accountId : Nat
  fromAddr : Text
  toAddrs : List Text
  ccAddrs : List Text
  bccAddrs : List Text

namespace EnvelopeAddresses

/-- From, if `includeSender`, and the three lists of recipients. -/
def stored (e : EnvelopeAddresses) (includeSender : Bool) : List Text :=
  (if includeSender then [e.fromAddr] else []) ++ e.toAddrs ++ e.ccAddrs ++ e.bccAddrs

end EnvelopeAddresses

section

variable (U : Unicode)

/-- The first character that is not ignorable is cased. -/
def startsCased (s : Text) : Bool := ((s.dropWhile U.caseIgnorable).head?.map U.cased).getD false

/-- Lower-casing the rest of a text, with what came before in reverse. The capital sigma
is the one character whose image depends on its neighbours. -/
def lowercaseFrom (before : Text) : Text → Text
  | [] => []
  | c :: cs =>
    (if c = 'Σ' then [if startsCased U before && !startsCased U cs then 'ς' else 'σ']
      else U.toLowercase c) ++ lowercaseFrom (c :: before) cs

def strToLowercase (s : Text) : Text := lowercaseFrom U [] s

def isAscii (s : Text) : Bool := s.all (·.val < 128)

def eqIgnoreAsciiCase (s t : Text) : Bool := s.map Char.toLower == t.map Char.toLower

def addressesEqual (left right : Text) : Bool :=
  if isAscii left && isAscii right then eqIgnoreAsciiCase left right
  else strToLowercase U left == strToLowercase U right

def participantMatches (e : EnvelopeAddresses) (address : Text) (includeSender : Bool) : Bool :=
  if (trim address).isEmpty then false
  else (e.stored includeSender).any fun value => addressesEqual U value (trim address)

def ViewScopeGroup.matches (g : ViewScopeGroup) (e : EnvelopeAddresses) : Bool :=
  (g.anyParticipant.isEmpty || g.anyParticipant.any (participantMatches U e · true)) &&
    (g.anyRecipient.isEmpty || g.anyRecipient.any (participantMatches U e · false))

/-- The characters a backslash may stand before, to mean the character itself. -/
def isEscapeable (c : Char) : Bool := c.val < 128 && !c.isAlphanum && c != '<' && c != '>'

/-- `RegexQuery::from_pattern` reads the text behind the flag `(?i)` as literals. A
character that has a meaning of its own must be escaped. -/
def literals : Text → Option Text
  | [] => some []
  | '\\' :: c :: cs => if isEscapeable c then (literals cs).map (c :: ·) else none
  | c :: cs =>
    if c ∈ ['\\', '.', '+', '*', '?', '(', ')', '|', '[', ']', '\x7b', '\x7d', '^', '$'] then none
    else (literals cs).map (c :: ·)

/-- Whether a pattern matches a whole term, if it can be compiled. -/
def compilePattern : Text → Option (Text → Bool)
  | '(' :: '?' :: 'i' :: ')' :: rest =>
    (literals rest).map fun cs term => cs.map U.simpleFold == term.map U.simpleFold
  | _ => none

def regexEscape (text : Text) : Text := text.flatMap fun c =>
    if c ∈ ['\\', '.', '^', '$', '*', '+', '?', '(', ')', '[', ']', '\x7b', '\x7d', '|', '/']
    then ['\\', c] else [c]

/-- A query by the documents it matches. -/
abbrev Query := EnvelopeAddresses → Bool

inductive Occur
  | should
  | must
  deriving DecidableEq

/-- All clauses that must match do; without such a clause one of the others does. -/
def booleanQuery (clauses : List (Occur × Query)) : Query := fun e =>
  if clauses.any (·.1 = .must) then clauses.all fun q => q.1 = .should || q.2 e
  else clauses.any (·.2 e)

def accountQuery (accountId : Nat) : Query := fun e => e.accountId == accountId

def u64Max : Nat := 18446744073709551615

def matchNothing : Query := accountQuery u64Max

inductive AddressField
  | fFrom
  | fTo
  | fCc
  | fBcc

def AddressField.values (e : EnvelopeAddresses) : AddressField → List Text
  | .fFrom => [e.fromAddr]
  | .fTo => e.toAddrs
  | .fCc => e.ccAddrs
  | .fBcc => e.bccAddrs

/-- A document matches if one of the terms of the field does. -/
def regexQuery (pattern : Text) (field : AddressField) : Option Query :=
  (compilePattern U pattern).map fun run e => (field.values e).any run

def addressFields (includeSender : Bool) : List AddressField :=
  if includeSender then [.fFrom, .fTo, .fCc, .fBcc] else [.fTo, .fCc, .fBcc]

def addressQuery (address : Text) (includeSender : Bool) : Option Query := do
  let fieldQueries ← (addressFields includeSender).mapM
    (regexQuery U (['(', '?', 'i', ')'] ++ regexEscape (trim address)))
  return booleanQuery (fieldQueries.map (.should, ·))

/-- The result is `none` where compiling a pattern fails. -/
def participantExactQuery (addresses : List Text) (includeSender : Bool) : Option Query :=
  let addresses := addresses.filter fun address => !(trim address).isEmpty
  if addresses.isEmpty then some matchNothing
  else do
    let addressQueries ← addresses.mapM (addressQuery U · includeSender)
    return booleanQuery (addressQueries.map (.should, ·))

/-- The clause of a filter, which is absent for an empty list. -/
def filterClause (addresses : List Text) (includeSender : Bool) :
    Option (List (Occur × Query)) :=
  if addresses.isEmpty then some []
  else (participantExactQuery U addresses includeSender).map fun q => [(.must, q)]

def groupQuery (g : ViewScopeGroup) : Option Query := do
  let participant ← filterClause U g.anyParticipant true
  let recipient ← filterClause U g.anyRecipient false
  return booleanQuery ((.must, accountQuery g.accountId) :: (participant ++ recipient))

/-- The scope part of `filter_query`. -/
def scopeQuery (groups : List ViewScopeGroup) : Option Query :=
  if groups.isEmpty then some matchNothing
  else do
    let groupQueries ← groups.mapM (groupQuery U)
    return booleanQuery (groupQueries.map (.should, ·))

/-- One of the groups is about the account of the message and lets it be read. -/
def mayOpen (groups : List ViewScopeGroup) (e : EnvelopeAddresses) : Prop :=
  ∃ g ∈ groups, e.accountId = g.accountId ∧ g.matches U e = true

end

section

variable {U : Unicode}

theorem literals_regexEscape (text : Text) : literals (regexEscape text) = some text := by
  induction text with
  | nil => rfl
  | cons c cs ih =>
    rw [regexEscape, List.flatMap_cons, ← regexEscape]
    split
    next h =>
      have hc : isEscapeable c = true := List.all_eq_true.mp (by decide) c h
      simp [literals, hc, ih]
    next h =>
      rw [List.singleton_append, literals]
      · simp_all
      · simp_all

theorem compilePattern_regexEscape (text : Text) :
    compilePattern U (['(', '?', 'i', ')'] ++ regexEscape text) =
      some fun term => text.map U.simpleFold == term.map U.simpleFold := by
  simp [compilePattern, literals_regexEscape]

theorem booleanQuery_should (qs : List Query) (e : EnvelopeAddresses) :
    booleanQuery (qs.map (.should, ·)) e = qs.any (· e) := by
  simp [booleanQuery, Function.comp_def]

theorem booleanQuery_must (q : Query) (clauses : List (Occur × Query)) (e : EnvelopeAddresses) :
    booleanQuery ((.must, q) :: clauses) e =
      (q e && clauses.all fun q => q.1 = .should || q.2 e) := by
  simp [booleanQuery]

private theorem mapM_some {α β : Type} (g : α → β) (l : List α) :
    l.mapM (fun a => some (g a)) = some (l.map g) := List.mapM_pure

theorem addressQuery_eq (address : Text) (includeSender : Bool) :
    addressQuery U address includeSender = some fun e =>
      (e.stored includeSender).any fun value =>
        (trim address).map U.simpleFold == value.map U.simpleFold := by
  have hfields : regexQuery U (['(', '?', 'i', ')'] ++ regexEscape (trim address)) =
      fun field => some fun e => (field.values e).any fun value =>
        (trim address).map U.simpleFold == value.map U.simpleFold := by
    funext field
    rw [regexQuery, compilePattern_regexEscape, Option.map_some]
  rw [addressQuery, hfields, mapM_some]
  refine congrArg some (funext fun e => ?_)
  rw [booleanQuery_should]
  cases includeSender <;> simp [addressFields, AddressField.values, EnvelopeAddresses.stored]

variable (U) in
/-- What the pattern of an address finds. A blank address has no pattern. -/
def patternMatches (e : EnvelopeAddresses) (address : Text) (includeSender : Bool) : Bool :=
  !(trim address).isEmpty && (e.stored includeSender).any fun value =>
    (trim address).map U.simpleFold == value.map U.simpleFold

theorem participantExactQuery_spec (addresses : List Text) (includeSender : Bool) :
    ∃ q, participantExactQuery U addresses includeSender = some q ∧
      ∀ e, e.accountId ≠ u64Max → q e = addresses.any (patternMatches U e · includeSender) := by
  have hany : ∀ e, (addresses.filter fun a => !(trim a).isEmpty).any (fun a =>
      (e.stored includeSender).any fun value =>
        (trim a).map U.simpleFold == value.map U.simpleFold) =
      addresses.any (patternMatches U e · includeSender) := by
    intro e
    simp only [List.any_filter, patternMatches]
  rw [participantExactQuery]
  split
  next h =>
    refine ⟨_, rfl, fun e he => ?_⟩
    rw [← hany, List.isEmpty_iff.mp h]
    exact beq_false_of_ne he
  next h =>
    refine ⟨_, by simp only [addressQuery_eq, mapM_some]; rfl, fun e _ => ?_⟩
    rw [booleanQuery_should, List.any_map, ← hany]
    rfl

variable (U) in
def ViewScopeGroup.patternsMatch (g : ViewScopeGroup) (e : EnvelopeAddresses) : Bool :=
  (g.anyParticipant.isEmpty || g.anyParticipant.any (patternMatches U e · true)) &&
    (g.anyRecipient.isEmpty || g.anyRecipient.any (patternMatches U e · false))

theorem filterClause_spec (addresses : List Text) (includeSender : Bool) :
    ∃ clauses, filterClause U addresses includeSender = some clauses ∧
      ∀ e, e.accountId ≠ u64Max → (clauses.all fun q => q.1 = .should || q.2 e) =
        (addresses.isEmpty || addresses.any (patternMatches U e · includeSender)) := by
  rw [filterClause]
  split
  next h => exact ⟨[], rfl, fun e _ => by simp [h]⟩
  next h =>
    obtain ⟨q, hq, hspec⟩ := participantExactQuery_spec (U := U) addresses includeSender
    refine ⟨_, by rw [hq]; rfl, fun e he => ?_⟩
    simp [h, hspec e he]

theorem groupQuery_spec (g : ViewScopeGroup) :
    ∃ q, groupQuery U g = some q ∧ ∀ e, e.accountId ≠ u64Max →
      q e = (e.accountId == g.accountId && g.patternsMatch U e) := by
  obtain ⟨ps, hps, hp⟩ := filterClause_spec (U := U) g.anyParticipant true
  obtain ⟨rs, hrs, hr⟩ := filterClause_spec (U := U) g.anyRecipient false
  refine ⟨_, by rw [groupQuery, hps, hrs]; rfl, fun e he => ?_⟩
  rw [booleanQuery_must, List.all_append, hp e he, hr e he]
  rfl

/-- The scope of a search compiles, and finds the messages that the patterns of one of
the groups match. -/
theorem scopeQuery_spec (groups : List ViewScopeGroup) :
    ∃ q, scopeQuery U groups = some q ∧ ∀ e, e.accountId ≠ u64Max →
      (q e = true ↔ ∃ g ∈ groups, e.accountId = g.accountId ∧ g.patternsMatch U e = true) := by
  choose query hquery hspec using groupQuery_spec (U := U)
  rw [scopeQuery]
  split
  next h =>
    refine ⟨_, rfl, fun e he => ?_⟩
    simp [List.isEmpty_iff.mp h, matchNothing, accountQuery, he]
  next h =>
    have hquery : groupQuery U = fun g => some (query g) := funext hquery
    refine ⟨_, by rw [hquery, mapM_some]; rfl, fun e he => ?_⟩
    rw [booleanQuery_should, List.any_map, List.any_eq_true]
    simp [hspec _ e he]

end

section

variable {U : Unicode}

/-- What is used of the tables: on ASCII both mappings are the lower case of a letter,
and a white space has no case. -/
structure Unicode.Lawful (U : Unicode) : Prop where
  ascii_lower : ∀ c : Char, c.val < 128 → U.toLowercase c = [c.toLower]
  ascii_fold : ∀ c : Char, c.val < 128 → U.simpleFold c = c.toLower
  space_lower : ∀ c, isWhitespace c = true → U.toLowercase c = [c]
  space_fold : ∀ c, isWhitespace c = true → U.simpleFold c = c

/-- Each character of the alphabet has one lower case of one character. -/
def Unicode.OneToOne (U : Unicode) (C : Set Char) : Prop :=
  ∀ c ∈ C, c ≠ 'Σ' ∧ ∃ d, U.toLowercase c = [d]

/-- On the alphabet, two characters are folded together when they have the same lower
case, and only then. -/
def Unicode.FoldsAsLowercase (U : Unicode) (C : Set Char) : Prop :=
  ∀ c ∈ C, ∀ d ∈ C, U.simpleFold c = U.simpleFold d ↔ U.toLowercase c = U.toLowercase d

def ViewScopeGroup.WrittenIn (C : Set Char) (g : ViewScopeGroup) : Prop :=
  ∀ a ∈ g.anyParticipant ++ g.anyRecipient, ∀ c ∈ a, c ∈ C

def EnvelopeAddresses.WrittenIn (C : Set Char) (e : EnvelopeAddresses) : Prop :=
  ∀ a ∈ e.stored true, ∀ c ∈ a, c ∈ C

variable {C : Set Char}

theorem lowercaseFrom_of_oneToOne (hC : U.OneToOne C) (s : Text) (hs : ∀ c ∈ s, c ∈ C)
    (before : Text) : lowercaseFrom U before s = s.flatMap U.toLowercase := by
  induction s generalizing before with
  | nil => rfl
  | cons c cs ih =>
    rw [List.forall_mem_cons] at hs
    rw [lowercaseFrom, if_neg (hC c hs.1).1, ih hs.2, List.flatMap_cons]

theorem map_fold_eq_iff (hC : U.OneToOne C) (hF : U.FoldsAsLowercase C) (s t : Text)
    (hs : ∀ c ∈ s, c ∈ C) (ht : ∀ c ∈ t, c ∈ C) :
    s.map U.simpleFold = t.map U.simpleFold ↔ strToLowercase U s = strToLowercase U t := by
  rw [strToLowercase, strToLowercase, lowercaseFrom_of_oneToOne hC s hs,
    lowercaseFrom_of_oneToOne hC t ht]
  induction s generalizing t with
  | nil =>
    cases t with
    | nil => simp
    | cons d ds =>
      obtain ⟨-, y, hy⟩ := hC d (ht d List.mem_cons_self)
      simp [hy]
  | cons c cs ih =>
    rw [List.forall_mem_cons] at hs
    obtain ⟨-, x, hx⟩ := hC c hs.1
    cases t with
    | nil => simp [hx]
    | cons d ds =>
      rw [List.forall_mem_cons] at ht
      obtain ⟨-, y, hy⟩ := hC d ht.1
      have hhead := hF c hs.1 d ht.1
      rw [hx, hy, List.singleton_inj] at hhead
      rw [List.map_cons, List.map_cons, List.cons.injEq, ih ds hs.2 ht.2, hhead,
        List.flatMap_cons, List.flatMap_cons, hx, hy, List.singleton_append,
        List.singleton_append, List.cons.injEq]

theorem map_fold_of_isAscii (hU : U.Lawful) {s : Text} (hs : isAscii s = true) :
    s.map U.simpleFold = s.map Char.toLower := by
  refine List.map_congr_left fun c hc => hU.ascii_fold c ?_
  simpa using List.all_eq_true.mp hs c hc

theorem addressesEqual_eq (hU : U.Lawful) (hC : U.OneToOne C) (hF : U.FoldsAsLowercase C)
    (s t : Text) (hs : ∀ c ∈ s, c ∈ C) (ht : ∀ c ∈ t, c ∈ C) :
    addressesEqual U s t = (t.map U.simpleFold == s.map U.simpleFold) := by
  rw [Bool.eq_iff_iff, beq_iff_eq, addressesEqual]
  split
  next h =>
    rw [Bool.and_eq_true] at h
    rw [eqIgnoreAsciiCase, beq_iff_eq, map_fold_of_isAscii hU h.1, map_fold_of_isAscii hU h.2]
    exact eq_comm
  next =>
    rw [beq_iff_eq, map_fold_eq_iff hC hF t s ht hs]
    exact eq_comm

theorem EnvelopeAddresses.stored_subset (e : EnvelopeAddresses) (includeSender : Bool) :
    e.stored includeSender ⊆ e.stored true := by
  cases includeSender <;> simp [stored]

private theorem any_congr_mem {α : Type} {l : List α} {p q : α → Bool}
    (h : ∀ a ∈ l, p a = q a) : l.any p = l.any q := by
  rw [Bool.eq_iff_iff, List.any_eq_true, List.any_eq_true]
  exact exists_congr fun a => and_congr_right fun ha => by rw [h a ha]

theorem patternMatches_eq (hU : U.Lawful) (hC : U.OneToOne C) (hF : U.FoldsAsLowercase C)
    {e : EnvelopeAddresses} (he : e.WrittenIn C) {address : Text} (ha : ∀ c ∈ address, c ∈ C)
    (includeSender : Bool) :
    patternMatches U e address includeSender = participantMatches U e address includeSender := by
  rw [patternMatches, participantMatches]
  split
  next h => rw [h, Bool.not_true, Bool.false_and]
  next h =>
    rw [Bool.eq_false_of_not_eq_true h, Bool.not_false, Bool.true_and]
    refine any_congr_mem fun value hvalue => ?_
    rw [addressesEqual_eq hU hC hF value _ (he value (e.stored_subset _ hvalue))
      fun c hc => ha c (mem_of_mem_trim hc)]

theorem patternsMatch_eq (hU : U.Lawful) (hC : U.OneToOne C) (hF : U.FoldsAsLowercase C)
    {e : EnvelopeAddresses} (he : e.WrittenIn C) {g : ViewScopeGroup} (hg : g.WrittenIn C) :
    g.patternsMatch U e = g.matches U e := by
  have hp : ∀ a ∈ g.anyParticipant, patternMatches U e a true = participantMatches U e a true :=
    fun a ha => patternMatches_eq hU hC hF he (hg a (List.mem_append_left _ ha)) true
  have hr : ∀ a ∈ g.anyRecipient, patternMatches U e a false = participantMatches U e a false :=
    fun a ha => patternMatches_eq hU hC hF he (hg a (List.mem_append_right _ ha)) false
  rw [ViewScopeGroup.patternsMatch, ViewScopeGroup.matches, any_congr_mem hp, any_congr_mem hr]

variable (U) in
/-- For every filter and every message written in the alphabet, the search returns the
message exactly when the viewer may open it. -/
def ScopeAgrees (C : Set Char) : Prop :=
  ∀ (groups : List ViewScopeGroup) (e : EnvelopeAddresses), (∀ g ∈ groups, g.WrittenIn C) →
    e.WrittenIn C → e.accountId ≠ u64Max →
      ∃ q, scopeQuery U groups = some q ∧ (q e = true ↔ mayOpen U groups e)

theorem isAscii_singleton {c : Char} : isAscii [c] = true ↔ c.val < 128 := by
  rw [isAscii, List.all_cons, List.all_nil, Bool.and_true, decide_eq_true_iff]

theorem participantMatches_singleton (hU : U.Lawful) (hC : U.OneToOne C) {c d : Char}
    (hc : c ∈ C) (hd : d ∈ C) (hspace : isWhitespace c = false) :
    participantMatches U ⟨0, [d], [], [], []⟩ [c] true = true ↔
      U.toLowercase d = U.toLowercase c := by
  have hlower : ∀ x ∈ C, strToLowercase U [x] = U.toLowercase x := fun x hx => by
    rw [strToLowercase, lowercaseFrom_of_oneToOne hC [x] (by simpa using hx)]
    simp
  rw [participantMatches, trim_singleton hspace]
  simp only [List.isEmpty_cons, Bool.false_eq_true, if_false, EnvelopeAddresses.stored, if_true,
    List.append_nil, List.any_cons, List.any_nil, Bool.or_false, addressesEqual]
  split
  next h =>
    rw [Bool.and_eq_true, isAscii_singleton, isAscii_singleton] at h
    simp [eqIgnoreAsciiCase, hU.ascii_lower d h.1, hU.ascii_lower c h.2]
  next => rw [beq_iff_eq, hlower d hd, hlower c hc]

theorem patternMatches_singleton {c d : Char} (hspace : isWhitespace c = false) :
    patternMatches U ⟨0, [d], [], [], []⟩ [c] true = true ↔ U.simpleFold c = U.simpleFold d := by
  simp [patternMatches, trim_singleton hspace, EnvelopeAddresses.stored]

theorem ScopeAgrees.folds_of_not_space (hU : U.Lawful) (hC : U.OneToOne C) (h : ScopeAgrees U C)
    {c d : Char} (hc : c ∈ C) (hd : d ∈ C) (hspace : isWhitespace c = false) :
    U.simpleFold c = U.simpleFold d ↔ U.toLowercase c = U.toLowercase d := by
  let g : ViewScopeGroup := ⟨0, [[c]], []⟩
  let e : EnvelopeAddresses := ⟨0, [d], [], [], []⟩
  have hgroups : ∀ g' ∈ [g], g'.WrittenIn C := by simpa [g, ViewScopeGroup.WrittenIn] using hc
  have he : e.WrittenIn C := by
    simpa [e, EnvelopeAddresses.WrittenIn, EnvelopeAddresses.stored] using hd
  have hid : e.accountId ≠ u64Max := by simp [e, u64Max]
  obtain ⟨q, hq, hiff⟩ := h [g] e hgroups he hid
  obtain ⟨q', hq', hspec⟩ := scopeQuery_spec (U := U) [g]
  obtain rfl : q = q' := Option.some.inj (hq ▸ hq')
  have hpattern : g.patternsMatch U e = true ↔ g.matches U e = true := by
    simpa [mayOpen, g, e] using (hspec e hid).symm.trans hiff
  rw [← patternMatches_singleton (d := d) hspace,
    eq_comm (a := U.toLowercase c), ← participantMatches_singleton hU hC hc hd hspace]
  simpa [ViewScopeGroup.patternsMatch, ViewScopeGroup.matches, g, e] using hpattern

/-- Over an alphabet of characters with one lower case each, the scope of a search and
the read check agree on every filter and every message exactly when simple case folding
identifies the characters that have the same lower case. -/
theorem scope_agrees_iff (hU : U.Lawful) (C : Set Char) (hC : U.OneToOne C) :
    ScopeAgrees U C ↔ U.FoldsAsLowercase C := by
  constructor
  · intro h c hc d hd
    cases hsc : isWhitespace c with
    | false => exact h.folds_of_not_space hU hC hc hd hsc
    | true =>
      cases hsd : isWhitespace d with
      | false =>
        rw [eq_comm, h.folds_of_not_space hU hC hd hc hsd]
        exact eq_comm
      | true =>
        rw [hU.space_fold c hsc, hU.space_fold d hsd, hU.space_lower c hsc,
          hU.space_lower d hsd, List.singleton_inj]
  · intro hF groups e hgroups he hid
    obtain ⟨q, hq, hspec⟩ := scopeQuery_spec (U := U) groups
    refine ⟨q, hq, (hspec e hid).trans ?_⟩
    refine exists_congr fun g => and_congr_right fun hg => and_congr_right fun _ => ?_
    rw [patternsMatch_eq hU hC hF he (hgroups g hg)]

end

/-- The tables as far as the samples below need them. -/
def sampleUnicode : Unicode where
  toLowercase c :=
    if c.val < 128 then [c.toLower]
    else if c = 'Ü' then ['ü'] else if c = 'İ' then ['i', '\u0307'] else [c]
  cased c := c.isAlpha
  caseIgnorable c := c == '.'
  simpleFold c :=
    if c.val < 128 then c.toLower
    else if c = 'Ü' then 'ü' else if c = 'ſ' then 's' else c

theorem toLower_of_isWhitespace {c : Char} (h : isWhitespace c = true) : c.toLower = c := by
  refine dif_neg ?_
  rintro ⟨hA, hZ⟩
  have hA : 65 ≤ c.toNat := UInt32.le_iff_toNat_le.mp hA
  have hZ : c.toNat ≤ 90 := UInt32.le_iff_toNat_le.mp hZ
  simp only [isWhitespace, Bool.or_eq_true, Bool.and_eq_true, decide_eq_true_eq] at h
  omega

theorem sampleUnicode_lawful : sampleUnicode.Lawful where
  ascii_lower c h := if_pos h
  ascii_fold c h := if_pos h
  space_lower c h := by
    have hne : ∀ d, isWhitespace d = false → c ≠ d := fun d hd hcd => by simp [hcd, hd] at h
    simp [sampleUnicode, toLower_of_isWhitespace h, hne 'Ü' (by decide), hne 'İ' (by decide)]
  space_fold c h := by
    have hne : ∀ d, isWhitespace d = false → c ≠ d := fun d hd hcd => by simp [hcd, hd] at h
    simp [sampleUnicode, toLower_of_isWhitespace h, hne 'Ü' (by decide), hne 'ſ' (by decide)]

def sampleAlphabet : List Char := ['j', 'J', 'ü', 'Ü', 'r', 'R', '@', '.', ' ', '(', '/']

theorem scope_agrees_iff_sample :
    ScopeAgrees sampleUnicode {c | c ∈ sampleAlphabet} ∧
      (scopeQuery sampleUnicode [⟨1, [[' ', 'j', 'ü', 'r', '@', '.', ' ']], []⟩]).map
        (· ⟨1, ['J', 'Ü', 'R', '@', '.'], [], [], []⟩) = some true := by
  refine ⟨(scope_agrees_iff sampleUnicode_lawful _ ?_).mpr ?_, by decide⟩
  · have h : sampleAlphabet.all (fun c => decide (c ≠ 'Σ' ∧
        sampleUnicode.toLowercase c = [(sampleUnicode.toLowercase c).headD ' '])) = true := by
      decide
    intro c hc
    have hc := of_decide_eq_true (List.all_eq_true.mp h c hc)
    exact ⟨hc.1, _, hc.2⟩
  · have h : sampleAlphabet.all (fun c => sampleAlphabet.all fun d => decide
        (sampleUnicode.simpleFold c = sampleUnicode.simpleFold d ↔
          sampleUnicode.toLowercase c = sampleUnicode.toLowercase d)) = true := by
      decide
    intro c hc d hd
    exact of_decide_eq_true (List.all_eq_true.mp (List.all_eq_true.mp h c hc) d hd)

/-- The pattern of `s@x` finds the long s, which is a lower case of its own, so the search
returns a message the viewer may not open. The capital I with a dot is lower-cased to two
characters and folded to itself, so the viewer may open a message the search does not
return. -/
theorem scope_and_read_check_disagree :
    let long : EnvelopeAddresses := ⟨1, ['ſ', '@', 'x'], [], [], []⟩
    let dotted : EnvelopeAddresses := ⟨1, ['i', '\u0307', '@', 'x'], [], [], []⟩
    let s : ViewScopeGroup := ⟨1, [['s', '@', 'x']], []⟩
    let i : ViewScopeGroup := ⟨1, [['İ', '@', 'x']], []⟩
    (scopeQuery sampleUnicode [s]).map (· long) = some true ∧
      s.matches sampleUnicode long = false ∧
      (scopeQuery sampleUnicode [i]).map (· dotted) = some false ∧
      i.matches sampleUnicode dotted = true := by
  decide

end Bichon.Account
