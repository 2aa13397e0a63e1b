import Mathlib.Tactic.Common
import Mathlib.Tactic.IntervalCases

/-!
# The proleptic Gregorian calendar

Dates with months and days counted from 0. `dayNumber` counts the days from the first day of a base
year by adding up the lengths of years and months, and `ofDayNumber` is the date of a day. The closed
form of the days before a year is `daysToYear_eq`.
-/

namespace Calendar

def isLeap (y : Nat) : Bool := y % 4 == 0 && (y % 100 != 0 || y % 400 == 0)

def yearDays (y : Nat) : Nat := if isLeap y then 366 else 365

def monthDays (y : Nat) : Nat → Nat
  | 1 => if isLeap y then 29 else 28
  | 3 | 5 | 8 | 10 => 30
  | _ => 31

/-- The days of `n` years from `base` on. -/
def daysToYear (base : Nat) : Nat → Nat
  | 0 => 0
  | n + 1 => daysToYear base n + yearDays (base + n)

/-- The days of the first `m` months of a year. -/
def daysToMonth (y : Nat) : Nat → Nat
  | 0 => 0
  | m + 1 => daysToMonth y m + monthDays y m

structure Date where
  year : Nat
  month : Nat
  day : Nat
  deriving DecidableEq, Repr

structure Date.Valid (d : Date) : Prop where
  month : d.month < 12
  day : d.day < monthDays d.year d.month

/-- The days from the first day of the year `base` to a date. -/
def dayNumber (base : Nat) (d : Date) : Nat :=
  daysToYear base (d.year - base) + daysToMonth d.year d.month + d.day

/-! ## The date of a day -/

/-- The month in which day `n` lies, counted from the start of month `m`, and the day in it. -/
def splitMonth (y : Nat) : Nat → Nat → Nat → Nat × Nat
  | 0, m, n => (m, n)
  | fuel + 1, m, n =>
    if n < monthDays y m then (m, n) else splitMonth y fuel (m + 1) (n - monthDays y m)

/-- The year in which day `n` lies, counted from the start of year `y`, and the day in it. -/
def splitYear : Nat → Nat → Nat → Nat × Nat
  | 0, y, n => (y, n)
  | fuel + 1, y, n =>
    if n < yearDays y then (y, n) else splitYear fuel (y + 1) (n - yearDays y)

def ofDayNumber (base n : Nat) : Date :=
  let (year, rest) := splitYear n base n
  let (month, day) := splitMonth year 11 0 rest
  { year, month, day }

variable {y m n base fuel : Nat}

theorem yearDays_pos (y : Nat) : 0 < yearDays y := by
  rw [yearDays]
  split <;> omega

theorem monthDays_le (y m : Nat) : monthDays y m ≤ 31 := by
  unfold monthDays
  split
  · split <;> omega
  all_goals omega

theorem daysToMonth_twelve (y : Nat) : daysToMonth y 12 = yearDays y := by
  simp only [daysToMonth, monthDays, yearDays]
  split <;> omega

theorem splitYear_spec (h : n ≤ fuel + yearDays y - 1) (hy : base ≤ y) :
    base ≤ (splitYear fuel y n).1 ∧ (splitYear fuel y n).2 < yearDays (splitYear fuel y n).1 ∧
      daysToYear base ((splitYear fuel y n).1 - base) + (splitYear fuel y n).2 = daysToYear base (y - base) + n := by
  induction fuel generalizing y n with
  | zero =>
    have := yearDays_pos y
    exact ⟨hy, by simp only [splitYear]; omega, rfl⟩
  | succ fuel ih =>
    simp only [splitYear]
    split
    · next hlt => exact ⟨hy, hlt, rfl⟩
    · next hge =>
      have hpos := yearDays_pos y
      have hpos' := yearDays_pos (y + 1)
      obtain ⟨hbase, hlt, heq⟩ := ih (y := y + 1) (n := n - yearDays y) (by omega) (by omega)
      refine ⟨hbase, hlt, heq.trans ?_⟩
      have hsub : y + 1 - base = y - base + 1 := by omega
      have hadd : base + (y - base) = y := by omega
      rw [hsub, daysToYear, hadd]
      omega

theorem splitMonth_spec (hm : m + fuel = 11) (h : daysToMonth y m + n < yearDays y) : (splitMonth y fuel m n).1 < 12 ∧
      (splitMonth y fuel m n).2 < monthDays y (splitMonth y fuel m n).1 ∧
      daysToMonth y (splitMonth y fuel m n).1 + (splitMonth y fuel m n).2 = daysToMonth y m + n := by
  induction fuel generalizing m n with
  | zero =>
    obtain rfl : m = 11 := by omega
    have hyear : daysToMonth y 11 + monthDays y 11 = yearDays y := daysToMonth_twelve y
    exact ⟨by simp only [splitMonth]; omega, by simp only [splitMonth]; omega, rfl⟩
  | succ fuel ih =>
    simp only [splitMonth]
    split
    · next hlt => exact ⟨by omega, hlt, rfl⟩
    · next hge =>
      have hstep : daysToMonth y (m + 1) + (n - monthDays y m) = daysToMonth y m + n := by
        rw [daysToMonth]
        omega
      obtain ⟨hlt, hday, heq⟩ := ih (m := m + 1) (n := n - monthDays y m) (by omega) (by rw [hstep]; exact h)
      exact ⟨hlt, hday, heq.trans hstep⟩

theorem ofDayNumber_spec (base n : Nat) : (ofDayNumber base n).Valid ∧ base ≤ (ofDayNumber base n).year ∧
      dayNumber base (ofDayNumber base n) = n := by
  have hpos := yearDays_pos base
  obtain ⟨hbase, hlt, heq⟩ := @splitYear_spec base n base n (by omega) (Nat.le_refl base)
  rw [Nat.sub_self, daysToYear, Nat.zero_add] at heq
  obtain ⟨hm, hd, hmeq⟩ := @splitMonth_spec (splitYear n base n).1 0 (splitYear n base n).2 11 rfl
    (by rw [daysToMonth]; omega)
  rw [daysToMonth, Nat.zero_add] at hmeq
  refine ⟨⟨hm, hd⟩, hbase, ?_⟩
  simp only [dayNumber, ofDayNumber]
  omega

/-! ## Closed forms -/

/-- The leap years up to a year, from year 1 on. -/
def leapYears (y : Nat) : Nat := y / 4 - y / 100 + y / 400

theorem isLeap_iff : isLeap y = true ↔ 4 ∣ y ∧ (¬ 100 ∣ y ∨ 400 ∣ y) := by
  simp [isLeap, Nat.dvd_iff_mod_eq_zero]

theorem leapYears_succ (y : Nat) : leapYears (y + 1) = leapYears y + if isLeap (y + 1) then 1 else 0 := by
  have h4 : 100 ∣ y + 1 → 4 ∣ y + 1 := Nat.dvd_trans (by decide)
  have h100 : 400 ∣ y + 1 → 100 ∣ y + 1 := Nat.dvd_trans (by decide)
  have hle : y / 100 ≤ y / 4 := Nat.div_le_div_left (by decide) (by decide)
  simp only [leapYears, isLeap_iff, Nat.succ_div]
  generalize y / 4 = a at hle ⊢
  generalize y / 100 = b at hle ⊢
  by_cases hd400 : 400 ∣ y + 1
  · rw [if_pos (h4 (h100 hd400)), if_pos (h100 hd400), if_pos hd400, if_pos ⟨h4 (h100 hd400), Or.inr hd400⟩]
    omega
  by_cases hd100 : 100 ∣ y + 1
  · rw [if_pos (h4 hd100), if_pos hd100, if_neg hd400, if_neg fun h => h.2.elim (· hd100) hd400]
    omega
  by_cases hd4 : 4 ∣ y + 1
  · rw [if_pos hd4, if_neg hd100, if_neg hd400, if_pos ⟨hd4, Or.inl hd100⟩]
    omega
  · rw [if_neg hd4, if_neg hd100, if_neg hd400, if_neg fun h => hd4 h.1]
    omega

theorem daysToYear_eq (hb : 0 < base) (n : Nat) :
    daysToYear base n + leapYears (base - 1) = 365 * n + leapYears (base + n - 1) := by
  induction n with
  | zero => simp [daysToYear]
  | succ n ih =>
    have hstep := leapYears_succ (base + n - 1)
    have hsucc : base + n - 1 + 1 = base + n := by omega
    rw [hsucc] at hstep
    rw [daysToYear, yearDays, show base + (n + 1) - 1 = base + n by omega, hstep]
    split <;> omega

theorem daysToYear_le {k : Nat} (h : k ≤ n) : daysToYear base k ≤ daysToYear base n := by
  induction n with
  | zero =>
    obtain rfl := Nat.le_zero.1 h
    exact Nat.le_refl _
  | succ n ih =>
    rcases Nat.le_succ_iff.1 h with h | rfl
    · exact Nat.le_trans (ih h) (Nat.le_add_right _ _)
    · exact Nat.le_refl _

theorem daysToMonth_eq (hm : m < 12) : daysToMonth y m =
    [0, 31, 59, 90, 120, 151, 181, 212, 243, 273, 304, 334].getD m 0 +
      if isLeap y = true ∧ 2 ≤ m then 1 else 0 := by
  cases hl : isLeap y <;> interval_cases m <;> simp [daysToMonth, monthDays, hl]

end Calendar
