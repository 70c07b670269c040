import Mathlib.Order.Monotone.Basic

/-!
# The Gregorian calendar

Years are counted by their number, months from 0, days from 1. `dayNumber` counts the days since
the end of the year 0, so that the calendar is the order of the dates: two dates with the same
number are the same date.
-/

namespace CFunction
namespace Gregorian

def IsLeap (y : Int) : Prop := y % 4 = 0 ∧ (y % 100 ≠ 0 ∨ y % 400 = 0)

instance (y : Int) : Decidable (IsLeap y) := inferInstanceAs (Decidable (_ ∧ _))

def yearLength (y : Int) : Int := if IsLeap y then 366 else 365

def monthLength (y : Int) (m : Nat) : Int :=
  if m = 1 then (if IsLeap y then 29 else 28)
  else if m = 3 ∨ m = 5 ∨ m = 8 ∨ m = 10 then 30
  else 31

/-- The days of the years 1 to `y - 1`. -/
def daysBeforeYear (y : Int) : Int :=
  365 * (y - 1) + (y - 1) / 4 - (y - 1) / 100 + (y - 1) / 400

/-- The days of the year `y` in front of the month `m`. -/
def daysBeforeMonth (y : Int) : Nat → Int
  | 0 => 0
  | m + 1 => daysBeforeMonth y m + monthLength y m

def dayNumber (y : Int) (m : Nat) (d : Int) : Int := daysBeforeYear y + daysBeforeMonth y m + d

/-- A date of the calendar. -/
structure ValidDate (y : Int) (m : Nat) (d : Int) : Prop where
  month_lt : m < 12
  day_pos : 1 ≤ d
  day_le : d ≤ monthLength y m

instance (y : Int) (m : Nat) (d : Int) : Decidable (ValidDate y m d) :=
  decidable_of_iff (m < 12 ∧ 1 ≤ d ∧ d ≤ monthLength y m)
    ⟨fun ⟨hmonth, hpos, hle⟩ => ⟨hmonth, hpos, hle⟩, fun h => ⟨h.month_lt, h.day_pos, h.day_le⟩⟩

theorem monthLength_pos (y : Int) (m : Nat) : 28 ≤ monthLength y m := by
  unfold monthLength
  split
  · split <;> omega
  · split <;> omega

theorem monthLength_le (y : Int) (m : Nat) : monthLength y m ≤ 31 := by
  unfold monthLength
  split
  · split <;> omega
  · split <;> omega

theorem daysBeforeYear_succ (y : Int) :
    daysBeforeYear (y + 1) = daysBeforeYear y + yearLength y := by
  unfold daysBeforeYear yearLength
  by_cases h : IsLeap y
  · rw [if_pos h]
    unfold IsLeap at h
    omega
  · rw [if_neg h]
    unfold IsLeap at h
    omega

theorem daysBeforeYear_mono {y y' : Int} (h : y ≤ y') : daysBeforeYear y ≤ daysBeforeYear y' := by
  unfold daysBeforeYear
  omega

theorem daysBeforeMonth_mono (y : Int) {m n : Nat} (h : m ≤ n) :
    daysBeforeMonth y m ≤ daysBeforeMonth y n := by
  apply monotone_nat_of_le_succ _ h
  intro m
  have hpos := monthLength_pos y m
  rw [daysBeforeMonth]
  omega

theorem daysBeforeMonth_twelve (y : Int) : daysBeforeMonth y 12 = yearLength y := by
  unfold yearLength
  by_cases h : IsLeap y <;> simp [daysBeforeMonth, monthLength, h]

/-- The day behind the last one of a month. -/
theorem dayNumber_next_month (y : Int) (m : Nat) :
    dayNumber y (m + 1) 1 = dayNumber y m (monthLength y m) + 1 := by
  simp only [dayNumber, daysBeforeMonth]
  omega

/-- The day behind the last one of a year. -/
theorem dayNumber_next_year (y : Int) :
    dayNumber (y + 1) 0 1 = dayNumber y 11 (monthLength y 11) + 1 := by
  have htwelve := daysBeforeMonth_twelve y
  simp only [dayNumber, daysBeforeYear_succ, daysBeforeMonth] at htwelve ⊢
  omega

theorem ValidDate.dayNumber_bounds {y d : Int} {m : Nat} (h : ValidDate y m d) :
    daysBeforeYear y < dayNumber y m d ∧ dayNumber y m d ≤ daysBeforeYear (y + 1) := by
  have hpos := h.day_pos
  have hle := h.day_le
  have hfirst := daysBeforeMonth_mono y (Nat.zero_le m)
  have hlast := daysBeforeMonth_mono y (Nat.succ_le_of_lt h.month_lt)
  rw [daysBeforeMonth_twelve, daysBeforeMonth] at hlast
  rw [daysBeforeMonth] at hfirst
  rw [dayNumber, daysBeforeYear_succ]
  omega

/-- Two dates with the same number are the same. -/
theorem dayNumber_injective {y y' d d' : Int} {m m' : Nat} (h : ValidDate y m d)
    (h' : ValidDate y' m' d') (heq : dayNumber y m d = dayNumber y' m' d') :
    y = y' ∧ m = m' ∧ d = d' := by
  have hb := h.dayNumber_bounds
  have hb' := h'.dayNumber_bounds
  have hyear : y = y' := by
    rcases lt_trichotomy y y' with hlt | rfl | hlt
    · have hmono := daysBeforeYear_mono (show y + 1 ≤ y' by omega)
      omega
    · rfl
    · have hmono := daysBeforeYear_mono (show y' + 1 ≤ y by omega)
      omega
  subst hyear
  have hle := h.day_le
  have hpos := h.day_pos
  have hle' := h'.day_le
  have hpos' := h'.day_pos
  unfold dayNumber at heq
  have hmonth : m = m' := by
    rcases lt_trichotomy m m' with hlt | rfl | hlt
    · have hmono := daysBeforeMonth_mono y (Nat.succ_le_of_lt hlt)
      rw [daysBeforeMonth] at hmono
      omega
    · rfl
    · have hmono := daysBeforeMonth_mono y (Nat.succ_le_of_lt hlt)
      rw [daysBeforeMonth] at hmono
      omega
  subst hmonth
  exact ⟨rfl, rfl, by omega⟩

/-- The day behind `m`/`d` of the year `y`. -/
def nextDate (y : Int) (m : Nat) (d : Int) : Int × Nat × Int :=
  if d < monthLength y m then (y, m, d + 1)
  else if m < 11 then (y, m + 1, 1)
  else (y + 1, 0, 1)

theorem ValidDate.nextDate {y d : Int} {m : Nat} (h : ValidDate y m d) :
    ValidDate (nextDate y m d).1 (nextDate y m d).2.1 (nextDate y m d).2.2 ∧
      dayNumber (nextDate y m d).1 (nextDate y m d).2.1 (nextDate y m d).2.2 =
        dayNumber y m d + 1 := by
  have hpos := h.day_pos
  have hle := h.day_le
  have hlt := h.month_lt
  unfold Gregorian.nextDate
  split
  case isTrue hday =>
    dsimp only
    refine ⟨⟨hlt, by omega, by omega⟩, ?_⟩
    simp only [dayNumber]
    omega
  case isFalse hday =>
    obtain rfl : d = monthLength y m := by omega
    split
    case isTrue hmonth =>
      have hlen := monthLength_pos y (m + 1)
      dsimp only
      exact ⟨⟨by omega, le_refl 1, by omega⟩, dayNumber_next_month y m⟩
    case isFalse hmonth =>
      obtain rfl : m = 11 := by omega
      have hlen := monthLength_pos (y + 1) 0
      dsimp only
      exact ⟨⟨by omega, le_refl 1, by omega⟩, dayNumber_next_year y⟩

/-- The next number belongs to `nextDate` and to no other date. -/
theorem ValidDate.eq_nextDate_iff {y y' d d' : Int} {m m' : Nat} (h : ValidDate y m d) :
    ValidDate y' m' d' ∧ dayNumber y' m' d' = dayNumber y m d + 1 ↔
      (y', m', d') = Gregorian.nextDate y m d := by
  have hnext := h.nextDate
  constructor
  · intro h'
    obtain ⟨hy, hm, hd⟩ := dayNumber_injective h'.1 hnext.1 (h'.2.trans hnext.2.symm)
    rw [hy, hm, hd]
  · intro heq
    rw [← heq] at hnext
    exact hnext

end Gregorian
end CFunction
