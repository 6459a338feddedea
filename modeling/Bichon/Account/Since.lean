import Bichon.Account.Model
import Mathlib.Algebra.Group.Nat.Defs

/-!
# Relative dates

A relative date counts days, months or years back from today. The calendar is a
parameter. Its subtractions are partial: a date may be out of range, or not exist once in
the local time zone. A count is a `u32`, and a release build wraps the product that turns
years into months.
-/

namespace Bichon.Account

/-- What the code asks of `chrono`, for dates `D` with texts `T`. -/
structure Calendar (D T : Type) where
  year : D → Int
  subDays : D → Nat → Option D
  subMonths : D → Nat → Option D
  display : D → String
  /-- The format `%d-%b-%Y`. -/
  text : D → T
  /-- Dates a different number of months before one date have different texts. -/
  eq_of_text_eq : ∀ {t m n d e}, subMonths t m = some d → subMonths t n = some e →
    text d = text e → m = n

namespace RelativeDate

section

variable {D T : Type} (C : Calendar D T) (now : D) (r : RelativeDate)

/-- The date that the calendar is asked for. -/
def subtracted : Option D :=
  match r.unit with
  | .days => C.subDays now r.value
  | .months => C.subMonths now r.value
  | .years => C.subMonths now (r.value * 12 % 2 ^ 32)

def invalid (message : String) : Except BichonError D := .error ⟨message, .invalidParameter⟩

def computeDate : Except BichonError D :=
  if r.value = 0 then invalid "Value must be greater than 0"
  else match subtracted C now r with
    | none => invalid
        "Invalid date: the calculated date is earlier than 1970 or an overflow occurred."
    | some date =>
      if C.year date < 1970 then
        invalid ("Date cannot be earlier than 1970-01-01. Provided: '" ++ C.display date ++ "'")
      else .ok date

/-- The body of `computeDate`, without its result. -/
def validateDate : Except BichonError Unit := (computeDate C now r).map fun _ => ()

def calculateDate : Except BichonError T := (computeDate C now r).map C.text

/-- The date that is meant, with years of twelve months in exact arithmetic. -/
def exact : Option D :=
  match r.unit with
  | .days => C.subDays now r.value
  | .months => C.subMonths now r.value
  | .years => C.subMonths now (r.value * 12)

end

variable {D T : Type} {C : Calendar D T} {now : D} {r : RelativeDate}

theorem calculateDate_of_accepted (h : validateDate C now r = .ok ()) :
    ∃ d, subtracted C now r = some d ∧ calculateDate C now r = .ok (C.text d) := by
  unfold calculateDate
  unfold validateDate at h
  revert h
  fun_cases computeDate C now r with
  | case1 | case2 | case3 => exact fun h => nomatch h
  | case4 _ date hdate => exact fun _ => ⟨date, hdate, rfl⟩

/-- An accepted date has the text of the date that is meant exactly when a count of years
is so small that its product with twelve fits. -/
theorem calculateDate_exact_iff (h : validateDate C now r = .ok ()) :
    (∃ d, exact C now r = some d ∧ calculateDate C now r = .ok (C.text d)) ↔
      (r.unit = .years → r.value < 357913942) := by
  obtain ⟨d, hd, htext⟩ := calculateDate_of_accepted h
  obtain ⟨unit, value⟩ := r
  cases unit with
  | days | months => exact ⟨fun _ hu => (nomatch hu), fun _ => ⟨d, hd, htext⟩⟩
  | years =>
    constructor
    · rintro ⟨e, he, hdate⟩ -
      have hsame : C.text d = C.text e := Except.ok.inj (htext.symm.trans hdate)
      have hproduct := C.eq_of_text_eq hd he hsame
      simp only at hproduct ⊢
      omega
    · intro hsmall
      have hproduct : value * 12 % 2 ^ 32 = value * 12 :=
        Nat.mod_eq_of_lt (by have := hsmall rfl; simp only at this; omega)
      refine ⟨d, ?_, htext⟩
      rwa [subtracted, hproduct] at hd

/-- The eighteenth of each month, by the number of months since the year 0. -/
def eighteenths : Calendar Int Int where
  year t := t / 12
  subDays _ _ := none
  subMonths t m := if m < 2 ^ 31 then some (t - m) else none
  display := toString
  text := id
  eq_of_text_eq := by grind

/-- Three years before November 2026. -/
theorem three_years_exact :
    ∃ d, exact eighteenths (12 * 2026 + 10) ⟨.years, 3⟩ = some d ∧
      calculateDate eighteenths (12 * 2026 + 10) ⟨.years, 3⟩ = .ok d :=
  (calculateDate_exact_iff (C := eighteenths) (r := ⟨.years, 3⟩) rfl).2 fun _ => by decide

/-- In November 2026 a count of 357913942 years is accepted and gives March 2026. -/
theorem wrapped_years_accepted :
    validateDate eighteenths (12 * 2026 + 10) ⟨.years, 357913942⟩ = .ok () ∧
      calculateDate eighteenths (12 * 2026 + 10) ⟨.years, 357913942⟩ = .ok (12 * 2026 + 2) ∧
      exact eighteenths (12 * 2026 + 10) ⟨.years, 357913942⟩ = none :=
  ⟨rfl, rfl, rfl⟩

end RelativeDate

end Bichon.Account
