import CFunction.Time.Utc2btc
import CFunction.Misc.Gregorian
import CFunction.Misc.Runs
import Mathlib.Data.List.Induction
import Mathlib.Tactic.IntervalCases

/-!
# Runs of `utc2btc`

The table starts with a February of 28 days, and the first call that carries a day in the
February of a leap year leaves 29 there for good. A call is judged against the calendar.
-/

namespace CFunction
namespace Utc2btc

open Gregorian

def Tm.year (t : Tm) : Int := t.tmYear + 1900

def Tm.month (t : Tm) : Nat := t.tmMon.toNat

def Tm.date (t : Tm) : Int × Nat × Int := (t.year, t.month, t.tmMday)

/-- The hours since the end of the year 0. -/
def Tm.hours (t : Tm) : Int := 24 * dayNumber t.year t.month t.tmMday + t.tmHour

structure IsDateTime (t : Tm) : Prop where
  mon_nonneg : 0 ≤ t.tmMon
  date : ValidDate t.year t.month t.tmMday
  hour_nonneg : 0 ≤ t.tmHour
  hour_lt : t.tmHour < 24

/-- An argument of the conversion: `tm_year` is an `int`, and the year is positive. -/
structure IsUtc (t : Tm) : Prop extends IsDateTime t where
  year_pos : 1 ≤ t.year
  year_int : InInt t.tmYear

instance (t : Tm) : Decidable (IsDateTime t) :=
  decidable_of_iff (0 ≤ t.tmMon ∧ ValidDate t.year t.month t.tmMday ∧ 0 ≤ t.tmHour ∧ t.tmHour < 24)
    ⟨fun ⟨hmon, hdate, hnonneg, hlt⟩ => ⟨hmon, hdate, hnonneg, hlt⟩,
      fun h => ⟨h.mon_nonneg, h.date, h.hour_nonneg, h.hour_lt⟩⟩

instance (t : Tm) : Decidable (IsUtc t) :=
  decidable_of_iff (IsDateTime t ∧ 1 ≤ t.year ∧ InInt t.tmYear)
    ⟨fun ⟨h, hpos, hint⟩ => ⟨h, hpos, hint⟩, fun h => ⟨h.toIsDateTime, h.year_pos, h.year_int⟩⟩

structure EightHoursLater (t r : Tm) : Prop where
  isDateTime : IsDateTime r
  hours_eq : r.hours = t.hours + 8
  min_eq : r.tmMin = t.tmMin
  sec_eq : r.tmSec = t.tmSec

theorem IsDateTime.hours_bounds {t : Tm} (h : IsDateTime t) :
    24 * dayNumber t.year t.month t.tmMday ≤ t.hours ∧
      t.hours < 24 * dayNumber t.year t.month t.tmMday + 24 := by
  have hnonneg := h.hour_nonneg
  have hlt := h.hour_lt
  rw [Tm.hours]
  omega

/-- There is only one time eight hours later. -/
theorem EightHoursLater.unique {t r r' : Tm} (h : EightHoursLater t r)
    (h' : EightHoursLater t r') : r = r' := by
  have heq : r.hours = r'.hours := h.hours_eq.trans h'.hours_eq.symm
  have hb := h.isDateTime.hours_bounds
  have hb' := h'.isDateTime.hours_bounds
  have hday : dayNumber r.year r.month r.tmMday = dayNumber r'.year r'.month r'.tmMday := by omega
  obtain ⟨hyear, hmonth, hmday⟩ := dayNumber_injective h.isDateTime.date h'.isDateTime.date hday
  have hmon := h.isDateTime.mon_nonneg
  have hmon' := h'.isDateTime.mon_nonneg
  have hsec := h.sec_eq.trans h'.sec_eq.symm
  have hmin := h.min_eq.trans h'.min_eq.symm
  rw [Tm.hours, Tm.hours, hday] at heq
  rw [Tm.year, Tm.year] at hyear
  rw [Tm.month, Tm.month] at hmonth
  cases r
  cases r'
  simp only [Tm.mk.injEq] at *
  omega

/-- Before 16 o'clock the date stays. -/
theorem eightHoursLater_early {t : Tm} (h : IsUtc t) (hearly : t.tmHour < 16) :
    EightHoursLater t { t with tmHour := t.tmHour + 8 } := by
  have hnonneg := h.hour_nonneg
  refine ⟨⟨h.mon_nonneg, h.date, ?_, ?_⟩, ?_, rfl, rfl⟩
  · dsimp only
    omega
  · dsimp only
    omega
  · simp only [Tm.hours, Tm.year, Tm.month]
    omega

/-- From 16 o'clock on it is the next day. -/
theorem eightHoursLater_late_iff {t r : Tm} (h : IsUtc t) (hlate : 16 ≤ t.tmHour)
    (hmon : 0 ≤ r.tmMon) (hhour : r.tmHour = t.tmHour - 16) (hmin : r.tmMin = t.tmMin)
    (hsec : r.tmSec = t.tmSec) :
    EightHoursLater t r ↔ r.date = nextDate t.year t.month t.tmMday := by
  have hlt := h.hour_lt
  rw [Tm.date, ← h.date.eq_nextDate_iff]
  constructor
  · intro hlater
    refine ⟨hlater.isDateTime.date, ?_⟩
    have heq := hlater.hours_eq
    rw [Tm.hours, Tm.hours] at heq
    omega
  · intro hnext
    refine ⟨⟨hmon, hnext.1, by omega, by omega⟩, ?_, hmin, hsec⟩
    rw [Tm.hours, Tm.hours, hnext.2]
    omega

/-- The table of the months, with the February of a leap year or of a common one. -/
def monthTable (leap : Bool) : List Int :=
  [31, if leap then 29 else 28, 31, 30, 31, 30, 31, 31, 30, 31, 30, 31]

/-- The entry of the table for the month of `t`. -/
def tableDays (leap : Bool) (t : Tm) : Int :=
  if t.tmMon = 1 then (if leap then 29 else 28) else monthLength t.year t.month

/-- A call that stores 29 for February. -/
def setsFebruary (t : Tm) : Bool := 16 ≤ t.tmHour ∧ t.tmMon = 1 ∧ leapTest t.tmYear

theorem IsDateTime.mon_lt {t : Tm} (h : IsDateTime t) : t.tmMon < 12 := by
  have hlt := h.date.month_lt
  rw [Tm.month] at hlt
  omega

theorem load_monthTable (leap : Bool) {t : Tm} (h : IsDateTime t) :
    load (monthTable leap) t.tmMon = some (tableDays leap t) := by
  have hnonneg := h.mon_nonneg
  have hlt := h.mon_lt
  rw [load, if_neg (by omega), tableDays, Tm.month]
  generalize t.tmMon = mon at *
  interval_cases mon <;> rfl

/-- The date of the argument with a day more, before the carry over the month. -/
def addDay (t : Tm) : Tm := { t with tmHour := t.tmHour - 16, tmMday := t.tmMday + 1 }

theorem utc2btc_early (table : List Int) {t : Tm} (h : IsUtc t) (hearly : t.tmHour < 16) :
    utc2btc table t = some (table, { t with tmHour := t.tmHour + 8 }) := by
  have hnonneg := h.hour_nonneg
  have hhour : toInt32 (t.tmHour + 8) = t.tmHour + 8 := toInt32_of_inInt ⟨by omega, by omega⟩
  simp only [utc2btc, hhour]
  rw [if_neg (by omega)]

theorem load_isSome {table : List Int} {i : Int} :
    (load table i).isSome ↔ 0 ≤ i ∧ i < table.length := by
  rw [load]
  split
  · simp
    omega
  · rw [isSome_getElem?]
    omega

/-- A call reads the table only where it carries a day over. -/
theorem utc2btc_isSome {table : List Int} {t : Tm} (hhour : InInt (t.tmHour + 8)) :
    (utc2btc table t).isSome ↔ (16 ≤ t.tmHour → 0 ≤ t.tmMon ∧ t.tmMon < table.length) := by
  simp only [utc2btc, toInt32_of_inInt hhour]
  by_cases hlate : t.tmHour + 8 ≥ 24
  · rw [if_pos hlate]
    set table' := if t.tmMon = 1 ∧ leapTest t.tmYear then table.set 1 29 else table with htable
    have hlength : table'.length = table.length := by
      rw [htable]
      split
      · rw [List.length_set]
      · rfl
    rw [← hlength, ← load_isSome]
    cases load table' t.tmMon with
    | none => exact iff_of_false (by simp) (fun h => absurd (h (by omega)) (by simp))
    | some days => exact iff_of_true rfl fun _ => rfl
  · rw [if_neg hlate]
    exact iff_of_true rfl fun h => absurd h (by omega)

theorem utc2btc_late (leap : Bool) {t : Tm} (h : IsUtc t) (hlate : 16 ≤ t.tmHour) :
    utc2btc (monthTable leap) t = some (monthTable (leap || setsFebruary t),
      carryMonth (tableDays (leap || setsFebruary t) t) (addDay t)) := by
  have hlt := h.hour_lt
  have hpos := h.date.day_pos
  have hle := h.date.day_le
  have hlen : monthLength t.year t.month ≤ 31 := monthLength_le _ _
  have hhour : toInt32 (t.tmHour + 8) = t.tmHour + 8 := toInt32_of_inInt ⟨by omega, by omega⟩
  have hhour' : toInt32 (t.tmHour + 8 - 24) = t.tmHour - 16 := by
    rw [toInt32_of_inInt ⟨by omega, by omega⟩]
    omega
  have hday : toInt32 (t.tmMday + 1) = t.tmMday + 1 := toInt32_of_inInt ⟨by omega, by omega⟩
  have htable : (if t.tmMon = 1 ∧ leapTest t.tmYear then (monthTable leap).set 1 29
      else monthTable leap) = monthTable (leap || setsFebruary t) := by
    by_cases hsets : t.tmMon = 1 ∧ leapTest t.tmYear
    · have htrue : setsFebruary t = true := decide_eq_true ⟨hlate, hsets⟩
      rw [if_pos hsets, htrue, Bool.or_true]
      rfl
    · have hfalse : setsFebruary t = false := decide_eq_false fun hs => hsets hs.2
      rw [if_neg hsets, hfalse, Bool.or_false]
  simp only [utc2btc, hhour, hhour', hday, htable]
  rw [if_pos (by omega), load_monthTable _ h.toIsDateTime]
  rfl

/-- The carry over the month leaves the time of the day alone. -/
theorem carryMonth_time (days : Int) (t : Tm) :
    (carryMonth days t).tmHour = t.tmHour ∧ (carryMonth days t).tmMin = t.tmMin ∧
      (carryMonth days t).tmSec = t.tmSec := by
  unfold carryMonth
  split
  · dsimp only
    split <;> exact ⟨rfl, rfl, rfl⟩
  · exact ⟨rfl, rfl, rfl⟩

theorem carryMonth_mon_nonneg (days : Int) {t : Tm} (h : IsUtc t) :
    0 ≤ (carryMonth days (addDay t)).tmMon := by
  have hnonneg := h.mon_nonneg
  have hlt := h.mon_lt
  have hmonth : toInt32 (t.tmMon + 1) = t.tmMon + 1 := toInt32_of_inInt ⟨by omega, by omega⟩
  unfold carryMonth
  split
  · simp only [addDay, hmonth]
    split
    · exact le_refl 0
    · dsimp only
      omega
  · exact hnonneg

/-- When the carry over the month is that of the calendar: on the last of February the entry of
the table is the real one, and the last day of December has a next year. -/
structure CarriesRight (leap : Bool) (t : Tm) : Prop where
  february : t.tmMon = 1 → t.tmMday = 28 → (leap = true ↔ IsLeap t.year)
  december : t.tmMon = 11 → t.tmMday = 31 → t.tmYear < 2147483647

theorem monthLength_december {y : Int} : monthLength y 11 = 31 := by
  simp [monthLength]

/-- With the real length of the month only the last year may fail. -/
theorem carryMonth_date_iff {t : Tm} (h : IsUtc t) :
    (carryMonth (monthLength t.year t.month) (addDay t)).date =
        nextDate t.year t.month t.tmMday ↔
      (t.tmMon = 11 → t.tmMday = 31 → t.tmYear < 2147483647) := by
  have hle := h.date.day_le
  have hnonneg := h.mon_nonneg
  have hlt := h.mon_lt
  have hmonth : toInt32 (t.tmMon + 1) = t.tmMon + 1 := toInt32_of_inInt ⟨by omega, by omega⟩
  unfold nextDate
  by_cases hday : t.tmMday < monthLength t.year t.month
  · have hcarry : carryMonth (monthLength t.year t.month) (addDay t) = addDay t :=
      if_neg (by dsimp only [addDay]; omega)
    rw [if_pos hday, hcarry]
    refine iff_of_true rfl ?_
    intro hmon hmday
    rw [Tm.month, hmon, show (11 : Int).toNat = 11 from rfl, monthLength_december] at hday
    omega
  · have hcarry : (addDay t).tmMday > monthLength t.year t.month := by
      dsimp only [addDay]
      omega
    rw [if_neg hday, carryMonth, if_pos hcarry]
    by_cases hlast : t.tmMon = 11
    · have heleven : t.month = 11 := by rw [Tm.month, hlast]; rfl
      have htwelve : toInt32 (11 + 1) = 12 := by decide
      have hyear := toInt32_succ_eq_iff h.year_int
      simp only [addDay, hlast, htwelve]
      rw [heleven, monthLength_december] at hday hle
      have hmday : t.tmMday = 31 := by omega
      rw [if_neg (show ¬ t.month < 11 by omega), if_pos (by decide)]
      simp only [Tm.date, Tm.year, Tm.month, Prod.mk.injEq, hmday, forall_const, ← hyear]
      constructor
      · intro hnext
        omega
      · intro hnext
        exact ⟨by omega, rfl, trivial⟩
    · simp only [addDay, hmonth]
      rw [if_neg (by omega), if_pos (by rw [Tm.month]; omega)]
      refine iff_of_true ?_ fun hmon => absurd hmon hlast
      simp only [Tm.date, Tm.year, Tm.month]
      rw [show (t.tmMon + 1).toNat = t.tmMon.toNat + 1 by omega]

/-- The last of February is decided by the entry of the table. -/
theorem carryMonth_february {t : Tm} (h : IsUtc t) (hmon : t.tmMon = 1) {days : Int}
    (hdays : days = 28 ∨ days = 29) (hne : days ≠ monthLength t.year t.month) :
    (carryMonth days (addDay t)).date = nextDate t.year t.month t.tmMday ↔ t.tmMday ≠ 28 := by
  have hmonth : t.month = 1 := by rw [Tm.month, hmon]; rfl
  have hlen : monthLength t.year 1 = 28 ∨ monthLength t.year 1 = 29 := by
    unfold monthLength
    by_cases hleap : IsLeap t.year <;> simp [hleap]
  have hle := h.date.day_le
  have htwo : toInt32 (1 + 1) = 2 := by decide
  rw [hmonth] at hne hle ⊢
  unfold nextDate
  rw [if_pos (show 1 < 11 by decide), carryMonth]
  simp only [addDay, hmon, htwo]
  by_cases hcarry : t.tmMday + 1 > days
  · rw [if_pos hcarry, if_neg (by decide)]
    by_cases hday : t.tmMday < monthLength t.year 1
    · rw [if_pos hday]
      refine iff_of_false ?_ (by omega)
      simp [Tm.date, Tm.year, Tm.month]
    · rw [if_neg hday]
      exact iff_of_true rfl (by omega)
  · rw [if_neg hcarry]
    by_cases hday : t.tmMday < monthLength t.year 1
    · rw [if_pos hday]
      exact iff_of_true (by simp [Tm.date, Tm.year, Tm.month]) (by omega)
    · rw [if_neg hday]
      refine iff_of_false ?_ (by omega)
      simp [Tm.date, Tm.year, Tm.month]

theorem carryMonth_tableDays {t : Tm} (h : IsUtc t) (leap : Bool) :
    (carryMonth (tableDays leap t) (addDay t)).date = nextDate t.year t.month t.tmMday ↔
      CarriesRight leap t := by
  by_cases hreal : tableDays leap t = monthLength t.year t.month
  · rw [hreal, carryMonth_date_iff h]
    refine ⟨fun hdec => ⟨?_, hdec⟩, CarriesRight.december⟩
    intro hmon _
    have hmonth : t.month = 1 := by rw [Tm.month, hmon]; rfl
    rw [tableDays, if_pos hmon, hmonth, monthLength, if_pos rfl] at hreal
    cases leap <;> by_cases hleap : IsLeap t.year <;> simp_all
  · have hmon : t.tmMon = 1 := by
      by_contra hne
      exact hreal (if_neg hne)
    have hmonth : t.month = 1 := by rw [Tm.month, hmon]; rfl
    have hdays : tableDays leap t = 28 ∨ tableDays leap t = 29 := by
      rw [tableDays, if_pos hmon]
      cases leap
      · exact Or.inl rfl
      · exact Or.inr rfl
    have hwrong : ¬ (leap = true ↔ IsLeap t.year) := by
      intro hiff
      refine hreal ?_
      rw [tableDays, if_pos hmon, hmonth, monthLength, if_pos rfl]
      simp only [hiff]
    rw [carryMonth_february h hmon hdays hreal]
    constructor
    · intro hday
      exact ⟨fun _ hday' => absurd hday' hday, fun hmon' => by omega⟩
    · intro hright hday
      exact hwrong (hright.february hmon hday)

/-- What one call does, from the table that earlier calls have left. -/
theorem utc2btc_spec (leap : Bool) {t : Tm} (h : IsUtc t) :
    ∃ r, utc2btc (monthTable leap) t = some (monthTable (leap || setsFebruary t), r) ∧
      (EightHoursLater t r ↔ (16 ≤ t.tmHour → CarriesRight (leap || setsFebruary t) t)) := by
  by_cases hlate : 16 ≤ t.tmHour
  · refine ⟨_, utc2btc_late leap h hlate, ?_⟩
    rw [← carryMonth_tableDays h, eightHoursLater_late_iff h hlate]
    · exact ⟨fun hdate _ => hdate, fun hdate => hdate hlate⟩
    · exact carryMonth_mon_nonneg _ h
    · exact (carryMonth_time _ _).1
    · exact (carryMonth_time _ _).2.1
    · exact (carryMonth_time _ _).2.2
  · have hno : setsFebruary t = false := decide_eq_false fun hsets => hlate hsets.1
    refine ⟨_, ?_, iff_of_true (eightHoursLater_early h (by omega)) fun hl => absurd hl hlate⟩
    rw [utc2btc_early _ h (by omega), hno, Bool.or_false]

/-- Every call of 16 o'clock or later carries right, with the table that it has left itself. -/
def CarryRight : List Tm → Prop :=
  Throughout fun past t => 16 ≤ t.tmHour → CarriesRight ((past ++ [t]).any setsFebruary) t

theorem run_table {calls : List Call} {table : List Int} (run : Run Step dateMday calls table) :
    (∀ call ∈ calls, IsUtc call.arg) →
      table = monthTable ((calls.map Call.arg).any setsFebruary) ∧
        ((∀ call ∈ calls, EightHoursLater call.arg call.result) ↔
          CarryRight (calls.map Call.arg)) := by
  refine run.invariant (P := fun calls table => (∀ call ∈ calls, IsUtc call.arg) →
    table = monthTable ((calls.map Call.arg).any setsFebruary) ∧
      ((∀ call ∈ calls, EightHoursLater call.arg call.result) ↔
        CarryRight (calls.map Call.arg))) ?_ ?_
  · intro _
    exact ⟨rfl, iff_of_true (by simp) throughout_nil⟩
  · intro calls table call table' ih hstep hvalid
    obtain ⟨htable, hiff⟩ := ih fun c hc => hvalid c (by simp [hc])
    obtain ⟨r, hresult, hlater⟩ := utc2btc_spec ((calls.map Call.arg).any setsFebruary)
      (hvalid call (by simp))
    have hany : ((calls ++ [call]).map Call.arg).any setsFebruary =
        ((calls.map Call.arg).any setsFebruary || setsFebruary call.arg) := by simp
    rw [Step, htable, hresult] at hstep
    obtain ⟨rfl, rfl⟩ := Prod.mk.inj (Option.some.inj hstep)
    refine ⟨by rw [hany], ?_⟩
    rw [List.map_append, List.map_singleton] at hany ⊢
    rw [CarryRight, throughout_concat_iff, hany, ← hlater]
    change _ ↔ CarryRight _ ∧ _
    rw [← hiff]
    simp [or_imp, forall_and]

/-- Every sequence of arguments can be converted. -/
theorem run_exists (args : List Tm) : (∀ t ∈ args, IsUtc t) →
    ∃ calls table, Run Step dateMday calls table ∧ calls.map Call.arg = args := by
  induction args using List.reverseRecOn with
  | nil => exact fun _ => ⟨[], _, .nil, rfl⟩
  | append_singleton args t ih =>
    intro hvalid
    obtain ⟨calls, table, run, rfl⟩ := ih fun u hu => hvalid u (by simp [hu])
    have hcalls : ∀ call ∈ calls, IsUtc call.arg := by
      intro call hcall
      exact hvalid call.arg (List.mem_append_left _ (List.mem_map_of_mem hcall))
    obtain ⟨r, hresult, -⟩ := utc2btc_spec ((calls.map Call.arg).any setsFebruary)
      (hvalid t (by simp))
    rw [← (run_table run hcalls).1] at hresult
    have hstep : Step table ⟨t, r⟩ _ := hresult
    exact ⟨_, _, run.snoc hstep, by simp⟩

/-- On every sequence of valid arguments all calls return, and they all leave the time eight hours
later exactly when every carry over a month is right. -/
theorem utc2btc_run_correct_iff {args : List Tm} (h : ∀ t ∈ args, IsUtc t) :
    (∃ calls table, Run Step dateMday calls table ∧ calls.map Call.arg = args) ∧
      ∀ calls table, Run Step dateMday calls table → calls.map Call.arg = args →
        ((∀ call ∈ calls, EightHoursLater call.arg call.result) ↔ CarryRight args) := by
  refine ⟨run_exists args h, ?_⟩
  rintro calls table run rfl
  exact (run_table run fun call hcall => h call.arg (List.mem_map_of_mem hcall)).2

/-- An early hour, the end of a February, the end of a leap year's February, and the end of the
year. -/
def sampleArgs : List Tm :=
  [⟨59, 59, 15, 31, 0, 119⟩, ⟨0, 0, 16, 28, 1, 119⟩, ⟨5, 10, 23, 28, 1, 120⟩,
    ⟨0, 30, 16, 31, 11, 120⟩]

theorem utc2btc_run_correct_iff_sample :
    (∃ calls table, Run Step dateMday calls table ∧ calls.map Call.arg = sampleArgs) ∧
      ∀ calls table, Run Step dateMday calls table → calls.map Call.arg = sampleArgs →
        ((∀ call ∈ calls, EightHoursLater call.arg call.result) ↔ CarryRight sampleArgs) :=
  utc2btc_run_correct_iff (by decide)

/-- February 28 at 20 o'clock, in 2020 and again in 2021. -/
theorem february_stays_leap :
    ¬ ∀ calls table, Run Step dateMday calls table → (∀ call ∈ calls, IsUtc call.arg) →
      ∀ call ∈ calls, EightHoursLater call.arg call.result := by
  intro h
  have hrun : Run Step dateMday
      [⟨⟨0, 0, 20, 28, 1, 120⟩, ⟨0, 0, 4, 29, 1, 120⟩⟩,
        ⟨⟨0, 0, 20, 28, 1, 121⟩, ⟨0, 0, 4, 29, 1, 121⟩⟩] (monthTable true) :=
    (Run.nil.snoc (t := monthTable true) rfl).snoc rfl
  have hvalid : ∀ call ∈ [(⟨⟨0, 0, 20, 28, 1, 120⟩, ⟨0, 0, 4, 29, 1, 120⟩⟩ : Call),
      ⟨⟨0, 0, 20, 28, 1, 121⟩, ⟨0, 0, 4, 29, 1, 121⟩⟩], IsUtc call.arg := by decide
  have hlater := h _ _ hrun hvalid _ (List.mem_cons_of_mem _ List.mem_cons_self)
  exact absurd hlater.isDateTime.date.day_le (by decide)

end Utc2btc
end CFunction
