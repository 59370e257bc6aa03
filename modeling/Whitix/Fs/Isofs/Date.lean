import Whitix.Fs.Fat.Time
import Mathlib.Algebra.BigOperators.Intervals
import Mathlib.Tactic.IntervalCases

/-!
# Dates of ISO 9660

A record has the year since 1900, the month, the day, the hour, the minute and the second
of its date in one byte each.  `IsoConvertDate` reads the bytes as `char`, which is signed, so
that the years from 2028 on are negative.
-/

namespace Whitix.Isofs

open Fat Finset Option

/-! ## The code -/

def monLen : List ℕ := [31, 28, 31, 30, 31, 30, 31, 31, 30, 31, 30, 31]

/-- The loop over the months, after `n` of them; there is no result if it reads outside
`monLen`. -/
def addMonths (days : ℤ) : ℕ → Option ℤ
  | 0 => some days
  | n + 1 => (addMonths days n).bind fun days => monLen[n]?.map fun (len : ℕ) => days + len

/-- No value of the bytes makes the `int` arithmetic overflow. -/
def isoConvertDate (date : ℕ → UInt8) : Option ℕ :=
  let char i := (date i).toInt8.toInt
  let year := char 0 - 70
  let month := char 1
  if 0 ≤ year then
    let days := year * 365
    let days := if 2 < year then days + (year + 1) / 4 else days
    (addMonths days (month - 1).toNat).map fun days =>
      let days := if (year + 2) % 4 = 0 ∧ 2 < month then days + 1 else days
      let days := days + char 2 - 1
      ((((days * 24 + char 3) * 60 + char 4) * 60 + char 5) % 2 ^ 32).toNat
  else some 0

/-! ## The calendar -/

structure DateTime where
  year : ℕ
  month : ℕ
  day : ℕ
  hour : ℕ
  minute : ℕ
  second : ℕ
  year_mem : 1970 ≤ year ∧ year ≤ 2099
  month_mem : 1 ≤ month ∧ month ≤ 12
  day_mem : 1 ≤ day ∧ day ≤ monthLength year month
  hour_lt : hour < 24
  minute_lt : minute < 60
  second_lt : second < 60

def daysBeforeYear (year : ℕ) : ℕ := ∑ y ∈ Ico 1970 year, if leapYear y then 366 else 365

def daysBeforeMonth (year month : ℕ) : ℕ := ∑ m ∈ Ico 1 month, monthLength year m

namespace DateTime

variable (t : DateTime)

def seconds : ℕ :=
  (((daysBeforeYear t.year + daysBeforeMonth t.year t.month + (t.day - 1)) * 24 + t.hour) * 60 +
    t.minute) * 60 + t.second

def fields : List ℕ := [t.year - 1900, t.month, t.day, t.hour, t.minute, t.second]

def bytes (i : ℕ) : UInt8 := UInt8.ofNat (t.fields.getD i 0)

end DateTime

variable {year month : ℕ}

/-- The year 2000 is a leap year, so that every fourth year is one. -/
theorem leapYear_iff_mod (h : 1970 ≤ year ∧ year ≤ 2099) : leapYear year ↔ year % 4 = 0 := by
  unfold leapYear
  omega

theorem daysBeforeYear_eq (hfrom : 1970 ≤ year) (hto : year ≤ 2100) :
    daysBeforeYear year = 365 * (year - 1970) + (year - 1969) / 4 := by
  induction year, hfrom using Nat.le_induction with
  | base => rfl
  | succ year hfrom ih =>
    have hleap := @leapYear_iff_mod year ⟨hfrom, by omega⟩
    rw [daysBeforeYear, sum_Ico_succ_top hfrom, ← daysBeforeYear, ih (by omega)]
    simp only [hleap]
    split_ifs <;> omega

theorem getElem?_monLen (year : ℕ) {n : ℕ} (h : n < 12) : ∃ len ≤ 31, monLen[n]? = some len ∧
    monthLength year (n + 1) = len + if leapYear year ∧ n = 1 then 1 else 0 := by
  unfold monthLength
  interval_cases n <;> exact ⟨_, by decide, rfl, by split_ifs <;> simp_all⟩

theorem addMonths_eq (year : ℕ) {n : ℕ} (h : n ≤ 12) :
    ∃ k ≤ 31 * n, (∀ days, addMonths days n = some (days + k)) ∧
      daysBeforeMonth year (n + 1) = k + if leapYear year ∧ 2 ≤ n then 1 else 0 := by
  induction n with
  | zero => exact ⟨0, le_rfl, by simp [addMonths], by simp [daysBeforeMonth]⟩
  | succ n ih =>
    obtain ⟨k, hk, hloop, hdays⟩ := ih (by omega)
    obtain ⟨len, hle, hlen, hmonth⟩ := getElem?_monLen year h
    refine ⟨k + len, by omega, fun days => ?_, ?_⟩
    · rw [addMonths, hloop, bind_some, hlen]
      simp [add_assoc]
    · rw [daysBeforeMonth, sum_Ico_succ_top (by omega), ← daysBeforeMonth, hdays, hmonth]
      by_cases hleap : leapYear year
      · simp only [hleap, true_and]
        split_ifs <;> omega
      · simp only [hleap, false_and, if_false, add_zero]

variable (t : DateTime)

theorem DateTime.toInt_bytes {i n : ℕ} (hi : t.fields.getD i 0 = n) (h : n < 256) :
    (t.bytes i).toInt8.toInt = if n < 128 then (n : ℤ) else n - 256 := by
  refine Int8.toInt_ofNat.trans ?_
  rw [Int.bmod_def, show (Int8.size : ℤ) = 256 from rfl]
  split_ifs <;> omega

theorem toNat_emod_of_eq {x : ℤ} {n : ℕ} (hx : x = n) (h : n < 2 ^ 32) :
    (x % 2 ^ 32).toNat = n := by omega

/-- The conversion is right before 2028, and gives the beginning of 1970 from then on. -/
theorem iso_date_iff : isoConvertDate t.bytes = some (t.seconds % 2 ^ 32) ↔ t.year < 2028 := by
  have hyear := t.year_mem
  have hmonth := t.month_mem
  have hday := t.day_mem
  have hhour := t.hour_lt
  have hminute := t.minute_lt
  have hsecond := t.second_lt
  obtain ⟨len, hlen, -, hlength⟩ := @getElem?_monLen t.year (t.month - 1) (by omega)
  obtain ⟨k, hk, hloop, hdays⟩ := @addMonths_eq t.year (t.month - 1) (by omega)
  rw [Nat.sub_add_cancel hmonth.1] at hlength hdays
  have hshort : t.day ≤ 32 := by split_ifs at hlength <;> omega
  have hseconds : t.seconds < 2 ^ 32 ∧ (1970 < t.year → 0 < t.seconds) := by
    rw [DateTime.seconds, daysBeforeYear_eq hyear.1 (by omega)]
    split_ifs at hdays <;> omega
  have hyear0 := @t.toInt_bytes 0 (t.year - 1900) rfl (by omega)
  rw [Nat.mod_eq_of_lt hseconds.1, isoConvertDate]
  by_cases hearly : t.year < 2028
  · refine iff_of_true ?_ hearly
    have hmonth1 := @t.toInt_bytes 1 t.month rfl (by omega)
    have hday2 := @t.toInt_bytes 2 t.day rfl (by omega)
    have hhour3 := @t.toInt_bytes 3 t.hour rfl (by omega)
    have hminute4 := @t.toInt_bytes 4 t.minute rfl (by omega)
    have hsecond5 := @t.toInt_bytes 5 t.second rfl (by omega)
    rw [if_pos (by omega)] at hyear0 hmonth1 hday2 hhour3 hminute4 hsecond5
    have hindex : ((t.month : ℤ) - 1).toNat = t.month - 1 := by omega
    simp only [hyear0, hmonth1, hday2, hhour3, hminute4, hsecond5, hindex, hloop, map_some]
    rw [if_pos (by omega)]
    refine congrArg some (toNat_emod_of_eq ?_ hseconds.1)
    rw [DateTime.seconds, daysBeforeYear_eq hyear.1 (by omega), hdays]
    simp only [leapYear_iff_mod hyear]
    clear * - hyear hmonth hday
    split_ifs <;> omega
  · refine iff_of_false ?_ hearly
    rw [if_neg (by omega)] at hyear0
    simp only [hyear0]
    rw [if_neg (by omega)]
    exact fun heq => (hseconds.2 (by omega)).ne (some.inj heq)

def newYear2028 : DateTime :=
  ⟨2028, 1, 1, 0, 0, 0, by decide, by decide, by decide, by decide, by decide, by decide⟩

theorem iso_date_2028 :
    isoConvertDate newYear2028.bytes = some 0 ∧ newYear2028.seconds = 1830297600 := by
  decide +kernel

end Whitix.Isofs
