import Whitix.Support.Word

/-!
# FAT timestamps

A directory entry has a date of seven bits for the year since 1980, four for the month and
five for the day, and a time with a resolution of two seconds.  `FatUnixToDt` and
`FatDtToUnix` convert between these and seconds since 1970, with a leap year every four
years.
-/

namespace Whitix.Fat

open Support Nat Option

/-! ## The code -/

def dayTotal : List ℕ := [0, 31, 59, 90, 120, 151, 181, 212, 243, 273, 304, 334, 0, 0, 0, 0]

/-- `FatDtToUnix` in `int` arithmetic; there is no result if it reads outside `dayTotal`. -/
def fatDtToUnix (date time : ℕ) : Option ℕ :=
  let month := (((date >>> 5 : ℕ) - 1 : ℤ) % 16).toNat
  let year := date >>> 9
  dayTotal[month]?.map fun (total : ℕ) =>
    let leap : ℤ := if year % 4 = 0 ∧ month < 2 then 1 else 0
    let days : ℤ := (date % 32 : ℕ) - 1 + total + (year / 4 : ℕ) + year * 365 - leap + 3653
    let secs : ℤ := (time % 32 * 2 + 60 * (time >>> 5 % 64) + time >>> 11 * 3600 : ℕ) + 86400 * days
    (secs % 2 ^ 32).toNat

def fatFindMonth (nlDay month : ℕ) : ℕ → Option ℕ
  | 0 => some month
  | n + 1 => dayTotal[month]?.bind fun total =>
    if nlDay < total then some month else fatFindMonth nlDay (month + 1) n

/-- The date of a day of a year, if `month - 1` is an index of `dayTotal`. -/
def fatDate (nlDay month year : ℕ) : Option ℕ :=
  if month = 0 then none
  else dayTotal[month - 1]?.map fun total =>
    (nlDay - total + 1 + month <<< 5 + year <<< 9) % 2 ^ 16

/-- The year of a day since 1980, and the day in this year. -/
def fatYear (day : ℕ) : ℕ × ℕ :=
  let year := day / 365
  let year := if day < (year + 3) / 4 + 365 * year then year - 1 else year
  (year, day - ((year + 3) / 4 + 365 * year))

/-- `FatUnixToDt` with `fatDate` and `fatTime`.  None of the differences is negative. -/
def fatUnixToDt (unixTime : ℕ) : Option (ℕ × ℕ) :=
  let unixTime := if unixTime < 315532800 then 315532800 else unixTime
  let fatTime := (unixTime % 60 / 2 + (unixTime / 60 % 60) <<< 5 +
    (unixTime / 3600 % 24) <<< 11) % 2 ^ 16
  let (year, day) := fatYear (unixTime / 86400 - 3652)
  let date :=
    if day = 59 ∧ year % 4 = 0 then fatDate day 2 year
    else
      let nlDay := if year % 4 ≠ 0 ∨ day ≤ 59 then day else day - 1
      (fatFindMonth nlDay 0 12).bind fun month => fatDate nlDay month year
  date.map fun date => (date, fatTime)

/-! ## The calendar -/

def leapYear (year : ℕ) : Prop := year % 4 = 0 ∧ (year % 100 ≠ 0 ∨ year % 400 = 0)
  deriving Decidable

def monthLength (year month : ℕ) : ℕ :=
  if month = 2 then if leapYear year then 29 else 28
  else if month = 4 ∨ month = 6 ∨ month = 9 ∨ month = 11 then 30 else 31

/-! ## The fields of a date -/

variable {day month nlDay year : ℕ}

theorem fatYear_spec (h : day < 46080) :
    let year := (fatYear day).1
    year < 128 ∧ day = (year + 3) / 4 + 365 * year + (fatYear day).2 ∧
      (fatYear day).2 < 365 + if year % 4 = 0 then 1 else 0 := by
  have hcases : day / 365 % 4 = 0 ∨ day / 365 % 4 = 1 ∨ day / 365 % 4 = 2 ∨ day / 365 % 4 = 3 := by
    omega
  unfold fatYear
  dsimp only
  rcases hcases with hmod | hmod | hmod | hmod <;> split_ifs <;> omega

theorem getElem?_dayTotal : ∀ m < 16, dayTotal[m]? = some (dayTotal.getD m 0) := by decide

theorem fatFindMonth_spec {n : ℕ} (hn : month + n = 12)
    (hpast : month = 0 ∨ dayTotal.getD (month - 1) 0 ≤ nlDay) :
    ∃ m ≤ 12, fatFindMonth nlDay month n = some m ∧
      (m = 0 ∨ dayTotal.getD (m - 1) 0 ≤ nlDay) ∧ (m = 12 ∨ nlDay < dayTotal.getD m 0) := by
  induction n generalizing month with
  | zero => exact ⟨month, hn.le, rfl, hpast, .inl hn⟩
  | succ n ih =>
    rw [fatFindMonth, getElem?_dayTotal month (by omega), bind_some]
    split_ifs with hlt
    · exact ⟨month, by omega, rfl, hpast, .inr hlt⟩
    · exact ih (by omega) (.inr (not_lt.mp hlt))

theorem fatDate_spec (hmonth : 1 ≤ month ∧ month ≤ 12) (hyear : year < 128)
    (hday : dayTotal.getD (month - 1) 0 ≤ nlDay ∧ nlDay < dayTotal.getD (month - 1) 0 + 31) :
    ∃ date, fatDate nlDay month year = some date ∧ date >>> 9 = year ∧
      date >>> 5 % 16 = month ∧ date % 32 = nlDay - dayTotal.getD (month - 1) 0 + 1 := by
  rw [fatDate, if_neg (by omega), getElem?_dayTotal _ (by omega), map_some]
  refine ⟨_, rfl, ?_⟩
  omega

theorem fatDtToUnix_eq {date time total : ℕ} (hyear : date >>> 9 = year)
    (hmonth : date >>> 5 % 16 = month) (hpos : 1 ≤ month) (hday : date % 32 = day + 1)
    (htotal : dayTotal.getD (month - 1) 0 = total) :
    fatDtToUnix date time = some ((time % 32 * 2 + 60 * (time >>> 5 % 64) + time >>> 11 * 3600 +
      86400 * (day + total + year / 4 + year * 365 +
        if year % 4 = 0 ∧ month ≤ 2 then 3652 else 3653)) % 2 ^ 32) := by
  have hindex : (((date >>> 5 : ℕ) - 1 : ℤ) % 16).toNat = month - 1 := by omega
  rw [fatDtToUnix]
  simp only [hindex, hyear, hday]
  rw [getElem?_dayTotal _ (by omega), map_some]
  split_ifs <;> exact congrArg some (by omega)

theorem monthLength_common : ∀ m < 12, dayTotal.getD m 0 + monthLength 1981 (m + 1) =
    if m = 11 then 365 else dayTotal.getD (m + 1) 0 := by decide

theorem monthLength_bounds (year m : ℕ) :
    monthLength 1981 m ≤ monthLength year m ∧ monthLength 1981 m ≤ 31 := by
  have hcommon : ¬ leapYear 1981 := by decide
  unfold monthLength
  split_ifs <;> decide

/-- Where `FatUnixToDt` finds a day of a year.  In a leap year the table is one day behind
after February. -/
theorem exists_month (hday : day < 365 + if year % 4 = 0 then 1 else 0) :
    ∃ nlDay month, (1 ≤ month ∧ month ≤ 12) ∧ (if day = 59 ∧ year % 4 = 0 then fatDate day 2 year
        else
          let nlDay := if year % 4 ≠ 0 ∨ day ≤ 59 then day else day - 1
          (fatFindMonth nlDay 0 12).bind fun month => fatDate nlDay month year) =
        fatDate nlDay month year ∧
      dayTotal.getD (month - 1) 0 ≤ nlDay ∧
      (nlDay < dayTotal.getD (month - 1) 0 + monthLength 1981 month ∧ ¬ (day = 59 ∧ year % 4 = 0) ∨
        month = 2 ∧ day = 59 ∧ nlDay = 59 ∧ year % 4 = 0) ∧
      nlDay + (if year % 4 = 0 ∧ month ≤ 2 then 0 else 1) =
        day + if year % 4 = 0 then 0 else 1 := by
  by_cases hfeb : day = 59 ∧ year % 4 = 0
  · refine ⟨59, 2, by decide, ?_, by decide, .inr ⟨rfl, hfeb.1, rfl, hfeb.2⟩, ?_⟩
    · rw [if_pos hfeb, hfeb.1]
    · rw [if_pos ⟨hfeb.2, le_rfl⟩, if_pos hfeb.2, hfeb.1]
  rw [if_neg hfeb]
  dsimp only
  generalize hnl : (if year % 4 ≠ 0 ∨ day ≤ 59 then day else day - 1) = nlDay
  obtain ⟨m, hm, hfind, hfrom, hto⟩ := @fatFindMonth_spec 0 nlDay 12 rfl (.inl rfl)
  have hpos : m ≠ 0 := by
    rintro rfl
    exact not_lt_zero _ (hto.resolve_left (by decide))
  obtain ⟨m, rfl⟩ := exists_eq_add_one_of_ne_zero hpos
  have hlength := monthLength_common m (by omega)
  have hlate : ∀ m < 12, 2 ≤ m → 59 ≤ dayTotal.getD m 0 := by decide
  have hearly : ∀ m < 2, dayTotal.getD (m + 1) 0 ≤ 59 := by decide
  have hlate := hlate m (by omega)
  have hearly := hearly m
  have hstart := hfrom.resolve_left hpos
  rw [Nat.add_sub_cancel] at hstart
  refine ⟨nlDay, m + 1, by omega, by rw [hfind, bind_some], hstart, .inl ⟨?_, hfeb⟩, ?_⟩
  · rw [Nat.add_sub_cancel, hlength]
    split_ifs at hnl hday ⊢ <;> omega
  · split_ifs at hlength hnl hday ⊢ <;> omega

theorem fatTime_fields {seconds minutes hours : ℕ} (hseconds : seconds < 30)
    (hminutes : minutes < 60) (hhours : hours < 24) :
    let time := (seconds + minutes <<< 5 + hours <<< 11) % 2 ^ 16
    time % 32 = seconds ∧ time >>> 5 % 64 = minutes ∧ time >>> 11 = hours := by omega

theorem leapYear_iff (h : year < 128) (hmod : year % 4 = 0) :
    leapYear (1980 + year) ↔ year ≠ 120 := by
  unfold leapYear
  omega

/-- Every time since 1980 is converted and back, up to its last bit, and the date is one
of the calendar, unless it is the 29th of February 2100. -/
theorem fat_time_round_trip {t : ℕ} (hfrom : 315532800 ≤ t) (hto : t < 2 ^ 32) :
    ∃ date time, fatUnixToDt t = some (date, time) ∧ fatDtToUnix date time = some (t - t % 2) ∧
      (1 ≤ date >>> 5 % 16 ∧ date >>> 5 % 16 ≤ 12) ∧
      (1 ≤ date % 32 ∧ date % 32 ≤ monthLength (1980 + date >>> 9) (date >>> 5 % 16) ↔
        t / 86400 ≠ 47541) := by
  obtain ⟨hyear, hdays, hday⟩ := @fatYear_spec (t / 86400 - 3652) (by omega)
  rw [fatUnixToDt, if_neg hfrom.not_gt]
  dsimp only
  generalize (fatYear (t / 86400 - 3652)).1 = year at *
  generalize (fatYear (t / 86400 - 3652)).2 = day at *
  obtain ⟨nlDay, month, hmonth, hdate, hstart, hend, hcount⟩ := exists_month hday
  have hbounds := monthLength_bounds (1980 + year) month
  have hend' : nlDay < dayTotal.getD (month - 1) 0 + 31 := by
    rcases hend with ⟨hlt, -⟩ | ⟨rfl, -, rfl, -⟩
    · omega
    · decide
  obtain ⟨date, heq, hyear', hmonth', hday'⟩ := fatDate_spec hmonth hyear ⟨hstart, hend'⟩
  rw [hdate, heq]
  refine ⟨date, _, rfl, ?_, hmonth'.symm ▸ hmonth, ?_⟩
  · rw [fatDtToUnix_eq hyear' hmonth' hmonth.1 hday' rfl]
    have hdays' : nlDay - dayTotal.getD (month - 1) 0 + dayTotal.getD (month - 1) 0 + year / 4 +
        year * 365 + (if year % 4 = 0 ∧ month ≤ 2 then 3652 else 3653) = t / 86400 := by
      split_ifs at hcount ⊢ <;> omega
    obtain ⟨hseconds, hminutes, hhours⟩ := @fatTime_fields (t % 60 / 2) (t / 60 % 60)
      (t / 3600 % 24) (by omega) (mod_lt _ (by decide)) (mod_lt _ (by decide))
    have hhour : t / 60 / 60 = t / 3600 := Nat.div_div_eq_div_mul t 60 60
    have hwhole : t / 3600 / 24 = t / 86400 := Nat.div_div_eq_div_mul t 3600 24
    rw [hdays', hminutes, hhours]
    clear * - hto hhour hwhole
    exact congrArg some (by omega)
  · rw [hyear', hmonth', hday']
    rcases hend with ⟨hlt, hnot⟩ | ⟨rfl, hfeb, rfl, hmod⟩
    · have hday366 : day < 366 := hday.trans_le (by split_ifs <;> decide)
      refine iff_of_true (by omega) fun heq => ?_
      have hyear120 : year = 120 := by omega
      rw [hyear120] at hnot hdays
      exact hnot ⟨by omega, rfl⟩
    · have hlength : monthLength (1980 + year) 2 = if leapYear (1980 + year) then 29 else 28 := rfl
      have hleap := leapYear_iff hyear hmod
      have hvalid : 29 ≤ monthLength (1980 + year) 2 ↔ year ≠ 120 := by
        rw [hlength, ← hleap]
        split_ifs with hyes
        · exact iff_of_true le_rfl hyes
        · exact iff_of_false (by decide) hyes
      exact (and_iff_right (le_add_left 1 _)).trans (hvalid.trans (by omega))

theorem fat_time_leap_day :
    ∃ date time, fatUnixToDt 951827697 = some (date, time) ∧
      fatDtToUnix date time = some 951827696 ∧ 1 ≤ date % 32 := by
  obtain ⟨date, time, hdate, hback, -, hday⟩ :=
    @fat_time_round_trip 951827697 (by decide) (by decide)
  exact ⟨date, time, hdate, hback, (hday.mpr (by decide)).1⟩

/-- The 1st of March 2100 becomes the 29th of February, which this year does not have. -/
theorem fat_time_2100 : ∃ date time, fatUnixToDt 4107542400 = some (date, time) ∧
    ¬ date % 32 ≤ monthLength (1980 + date >>> 9) (date >>> 5 % 16) :=
  ⟨_, _, rfl, by decide⟩

end Whitix.Fat
