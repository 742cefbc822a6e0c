import Tsukasa.Base.Word
import Tsukasa.Lib.Gregorian

/-!
# Calendar time

`user/lib/time.c`. One direction sums the lengths of the years and months before a date, the other takes them off again; both agree with the Gregorian calendar on the lengths.
-/

namespace Tsukasa

namespace Time

open Finset (Ico)
open Lib (InSpan exists_inSpan)
open Lib.Gregorian (IsLeap yearLength monthLength daysSinceJanuary daysBefore weekday sum_monthLength sum_yearLength sum_yearLength_from)

/-- `struct tsukasa_time` -/
structure TsukasaTime where
  sec : UInt8
  min : UInt8
  hour : UInt8
  day : UInt8
  month : UInt8
  year : UInt16

/-- `struct tm` -/
structure Tm where
  sec : Int
  min : Int
  hour : Int
  mday : Int
  mon : Int
  year : Int
  wday : Int
  yday : Int
  isdst : Int

def isLeap (year : Int) : Bool := if year.tmod 4 ≠ 0 then false else if year.tmod 100 ≠ 0 then true else year.tmod 400 = 0

def daysInMonth (year month : Int) : Int :=
  if month = 2 then if isLeap year then 29 else 28
  else if month < 1 ∨ 12 < month then 30
  else [31, 28, 31, 30, 31, 30, 31, 31, 30, 31, 30, 31].getD (month - 1).toNat 0

/-- `diy` -/
def daysInYear (year : Int) : Int := if isLeap year then 366 else 365

/-- `rtc_to_epoch` of a time that is there. -/
def rtcToEpoch (rt : TsukasaTime) : Int :=
  let days := (List.range' 1970 (rt.year.toNat - 1970)).foldl (fun (days : Int) (y : Nat) => days + daysInYear y) 0
  let days := (List.range' 1 (rt.month.toNat - 1)).foldl (fun (days : Int) (m : Nat) => days + daysInMonth rt.year.toNat m) days
  let days := days + (rt.day.toNat - 1)
  days * 86400 + rt.hour.toNat * 3600 + rt.min.toNat * 60 + rt.sec.toNat

theorem daysInYear_pos (year : Int) : 0 < daysInYear year := by
  rw [daysInYear]
  split <;> decide

theorem daysInMonth_pos (year month : Int) : 0 < daysInMonth year month := by
  rw [daysInMonth]
  split
  · split <;> decide
  · split
    · decide
    · rename_i hrange
      have hpos : ∀ k < 12, 0 < [31, 28, 31, 30, 31, 30, 31, 31, 30, 31, 30, 31].getD k (0 : Int) := by decide
      exact hpos _ (by omega)

/-- The loop over the years: the days that are left, and the year. -/
def yearLoop (t year : Int) : Int × Int := if t < daysInYear year then (t, year) else yearLoop (t - daysInYear year) (int32 (year + 1))
termination_by t.toNat
decreasing_by
  have hpos := daysInYear_pos year
  omega

/-- The loop over the months. -/
def monthLoop (year t month : Int) : Int × Int :=
  if t < daysInMonth year month then (t, month) else monthLoop year (t - daysInMonth year month) (month + 1)
termination_by t.toNat
decreasing_by
  have hpos := daysInMonth_pos year month
  omega

/-- `gmtime_r` of a time that is there, into a result that is there. -/
def gmtimeR (timer : Int) : Tm :=
  let t := if timer < 0 then 0 else timer
  let y := yearLoop (t.tdiv 60 |>.tdiv 60 |>.tdiv 24) 1970
  let m := monthLoop y.2 y.1 1
  { sec := t.tmod 60
    min := (t.tdiv 60).tmod 60
    hour := (t.tdiv 60 |>.tdiv 60).tmod 24
    mday := m.1 + 1
    mon := m.2 - 1
    year := y.2 - 1900
    yday := y.1
    wday := (timer.tdiv 86400 + 4).tmod 7
    isdst := 0 }

/-- The fields of a `struct tm` as the clock has them. -/
def Tm.toTsukasaTime (tm : Tm) : TsukasaTime :=
  ⟨.ofInt tm.sec, .ofInt tm.min, .ofInt tm.hour, .ofInt tm.mday, .ofInt (tm.mon + 1), .ofInt (tm.year + 1900)⟩

/-- A date and a time of the day that exist, from 1970 on. -/
structure TsukasaTime.Valid (d : TsukasaTime) : Prop where
  year : 1970 ≤ d.year.toNat
  month : 1 ≤ d.month.toNat ∧ d.month.toNat ≤ 12
  day : 1 ≤ d.day.toNat ∧ d.day.toNat ≤ monthLength d.year.toNat d.month.toNat
  hour : d.hour.toNat < 24
  min : d.min.toNat < 60
  sec : d.sec.toNat < 60

variable {y m t r k : Nat} {d : TsukasaTime}

/-! ### Lengths -/

theorem isLeap_iff (y : Nat) : isLeap y = true ↔ IsLeap y := by
  have hfour : (y : Int).tmod 4 = (y % 4 : Nat) := rfl
  have hcentury : (y : Int).tmod 100 = (y % 100 : Nat) := rfl
  have hfourth : (y : Int).tmod 400 = (y % 400 : Nat) := rfl
  rw [isLeap, hfour, hcentury, hfourth, IsLeap]
  split
  · rename_i h
    exact ⟨fun h' => absurd h' Bool.false_ne_true, fun h' => by omega⟩
  · split
    · rename_i h h'
      exact ⟨fun _ => by omega, fun _ => rfl⟩
    · rename_i h h'
      rw [decide_eq_true_iff]
      omega

theorem daysInYear_eq (y : Nat) : daysInYear y = yearLength y := by
  rw [daysInYear, yearLength]
  by_cases hleap : IsLeap y
  · rw [if_pos ((isLeap_iff y).mpr hleap), if_pos hleap]
    rfl
  · rw [if_neg (mt (isLeap_iff y).mp hleap), if_neg hleap]
    rfl

theorem daysInMonth_eq (y : Nat) (hm : 1 ≤ m) (hm' : m ≤ 12) : daysInMonth y m = monthLength y m := by
  have hdays : ∀ k < 12, [31, 28, 31, 30, 31, 30, 31, 31, 30, 31, 30, 31].getD k (0 : Int) =
      ([31, 28, 31, 30, 31, 30, 31, 31, 30, 31, 30, 31].getD k 0 : Nat) := by decide
  have hindex : ((m : Int) - 1).toNat = m - 1 := by omega
  rw [daysInMonth, monthLength, hindex]
  by_cases hfebruary : m = 2
  · rw [hfebruary, if_pos (by decide)]
    by_cases hleap : IsLeap y
    · rw [if_pos ((isLeap_iff y).mpr hleap), if_pos ⟨rfl, hleap⟩]
      rfl
    · rw [if_neg (mt (isLeap_iff y).mp hleap), if_neg fun h => hleap h.2]
      rfl
  · rw [if_neg (by omega), if_neg (by omega), if_neg fun h => hfebruary h.1]
    exact hdays (m - 1) (by omega)

/-! ### The loops -/

theorem yearLoop_eq (h : InSpan yearLength k t y r) (hy : y < 2 ^ 31) : yearLoop t k = ((r : Int), (y : Int)) := by
  obtain ⟨n, hn⟩ := Nat.exists_eq_add_of_le h.le
  induction n generalizing k t with
  | zero =>
      rw [yearLoop, daysInYear_eq]
      rcases h.step with ⟨hlt, hyear, hrest⟩ | ⟨-, hlt, -⟩
      · rw [if_pos (by omega), hyear, hrest]
      · omega
  | succ n ih =>
      rw [yearLoop, daysInYear_eq]
      rcases h.step with ⟨-, hyear, -⟩ | ⟨hge, hlt, hnext⟩
      · omega
      · have hrest := ih hnext (by omega)
        rw [Int.natCast_sub hge, Int.natCast_succ] at hrest
        rw [if_neg (by omega), int32_eq_self (by omega) (by omega), hrest]

theorem monthLoop_eq (h : InSpan (monthLength y) k t m r) (hk : 1 ≤ k) (hm : m ≤ 12) : monthLoop y t k = ((r : Int), (m : Int)) := by
  obtain ⟨n, hn⟩ := Nat.exists_eq_add_of_le h.le
  induction n generalizing k t with
  | zero =>
      rw [monthLoop, daysInMonth_eq y hk (by omega)]
      rcases h.step with ⟨hlt, hmonth, hrest⟩ | ⟨-, hlt, -⟩
      · rw [if_pos (by omega), hmonth, hrest]
      · omega
  | succ n ih =>
      rw [monthLoop, daysInMonth_eq y hk (by omega)]
      rcases h.step with ⟨-, hmonth, -⟩ | ⟨hge, hlt, hnext⟩
      · omega
      · have hrest := ih hnext (by omega) (by omega)
        rw [Int.natCast_sub hge, Int.natCast_succ] at hrest
        rw [if_neg (by omega), hrest]

theorem foldl_days (len : Nat → Nat) (f : Nat → Int) (a n : Nat) (x : Int) (hf : ∀ i, a ≤ i → i < a + n → f i = len i) :
    (List.range' a n).foldl (fun days i => days + f i) x = x + (∑ i ∈ Ico a (a + n), len i : Nat) := by
  induction n generalizing a x with
  | zero =>
      rw [Nat.add_zero, Finset.Ico_self, Finset.sum_empty]
      exact (Int.add_zero x).symm
  | succ n ih =>
      rw [List.range'_succ, List.foldl_cons, ih (a + 1) _ fun i hlow hhigh => hf i (by omega) (by omega), hf a (Nat.le_refl a) (by omega),
        Finset.sum_eq_sum_Ico_succ_bot (show a < a + (n + 1) by omega), Int.natCast_add, Int.add_assoc, show a + 1 + n = a + (n + 1) by omega]

/-! ### Both directions -/

/-- The days from 1970 on. -/
def epochDays (y m d : Nat) : Nat := ∑ i ∈ Ico 1970 y, yearLength i + daysSinceJanuary y m d

theorem rtcToEpoch_eq (hyear : 1970 ≤ d.year.toNat) (hmonth : 1 ≤ d.month.toNat ∧ d.month.toNat ≤ 12) (hday : 1 ≤ d.day.toNat) :
    rtcToEpoch d = (epochDays d.year.toNat d.month.toNat d.day.toNat * 86400 + d.hour.toNat * 3600 + d.min.toNat * 60 + d.sec.toNat : Nat) := by
  have hyears := foldl_days yearLength (fun y => daysInYear y) 1970 (d.year.toNat - 1970) 0 fun i _ _ => daysInYear_eq i
  have hmonths := foldl_days (monthLength d.year.toNat) (fun m => daysInMonth d.year.toNat m) 1 (d.month.toNat - 1)
    (∑ i ∈ Ico 1970 d.year.toNat, yearLength i : Nat) fun i hlow hhigh => daysInMonth_eq d.year.toNat hlow (by omega)
  rw [Nat.add_sub_cancel' hyear, Int.zero_add] at hyears
  rw [Nat.add_sub_cancel' hmonth.1] at hmonths
  rw [rtcToEpoch, hyears, hmonths, epochDays, daysSinceJanuary]
  omega

/-- What is located in the calendar comes out of `gmtime_r`. -/
theorem gmtimeR_eq {yday : Nat} (hyear : InSpan yearLength 1970 (t / 86400) y yday) (hy : y < 2 ^ 31)
    (hmonth : InSpan (monthLength y) 1 yday m r) (hm : m ≤ 12) :
    gmtimeR t = ⟨(t % 60 : Nat), (t / 60 % 60 : Nat), (t / 3600 % 24 : Nat), r + 1, m - 1, y - 1900, ((t / 86400 + 4) % 7 : Nat), yday, 0⟩ := by
  have hhours : t / 60 / 60 = t / 3600 := Nat.div_div_eq_div_mul t 60 60
  have hdays : t / 3600 / 24 = t / 86400 := Nat.div_div_eq_div_mul t 3600 24
  have hloop : yearLoop ((t : Int).tdiv 60 |>.tdiv 60 |>.tdiv 24) 1970 = ((yday : Int), (y : Int)) := by
    change yearLoop (t / 60 / 60 / 24 : Nat) (1970 : Nat) = _
    rw [hhours, hdays]
    exact yearLoop_eq hyear hy
  have hmonths : monthLoop y yday 1 = ((r : Int), (m : Int)) := monthLoop_eq hmonth (Nat.le_refl 1) hm
  rw [gmtimeR, if_neg (by omega), hloop, hmonths, ← hhours]
  rfl

/-- A day of the year is in one of its months. -/
theorem exists_month {yday : Nat} (h : yday < yearLength y) : ∃ m r, InSpan (monthLength y) 1 yday m r ∧ m ≤ 12 := by
  rw [← sum_monthLength] at h
  obtain ⟨m, r, hmonth⟩ := exists_inSpan (by decide) h
  exact ⟨m, r, hmonth, Nat.le_of_lt_succ (hmonth.lt_of_lt h)⟩

theorem TsukasaTime.Valid.inSpan_month (h : d.Valid) :
    InSpan (monthLength d.year.toNat) 1 (daysSinceJanuary d.year.toNat d.month.toNat d.day.toNat) d.month.toNat (d.day.toNat - 1) := by
  have hday := h.day
  exact ⟨h.month.1, rfl, by omega⟩

theorem TsukasaTime.Valid.inSpan_year (h : d.Valid) : InSpan yearLength 1970 (epochDays d.year.toNat d.month.toNat d.day.toNat) d.year.toNat
    (daysSinceJanuary d.year.toNat d.month.toNat d.day.toNat) := by
  refine ⟨h.year, rfl, ?_⟩
  rw [← sum_monthLength]
  exact h.inSpan_month.end_le (Nat.lt_succ_of_le h.month.2)

/-- The first of January 1970 is a Thursday. -/
theorem weekday_eq {day : Nat} (hy : 1970 ≤ y) : weekday y m day = (epochDays y m day + 4) % 7 := by
  have hstart : ∑ i ∈ Ico 1 1970, yearLength i = 719162 := sum_yearLength 1969
  have hsplit := Finset.sum_Ico_consecutive yearLength (show 1 ≤ 1970 by decide) hy
  rw [weekday, daysBefore, epochDays]
  omega

/-- The broken-down time says the date and the time of the day, with the day of the year and the weekday. -/
structure Tm.Describes (tm : Tm) (d : TsukasaTime) : Prop where
  year : tm.year + 1900 = d.year.toNat
  mon : tm.mon + 1 = d.month.toNat
  mday : tm.mday = d.day.toNat
  hour : tm.hour = d.hour.toNat
  min : tm.min = d.min.toNat
  sec : tm.sec = d.sec.toNat
  yday : tm.yday = daysSinceJanuary d.year.toNat d.month.toNat d.day.toNat
  wday : tm.wday = weekday d.year.toNat d.month.toNat d.day.toNat

theorem toNat_ofInt8 {n : Nat} (h : n < 256) : (UInt8.ofInt n).toNat = n := by
  change n % 2 ^ 8 % 2 ^ 8 = n
  omega

theorem toNat_ofInt16 {n : Nat} (h : n < 65536) : (UInt16.ofInt n).toNat = n := by
  change n % 2 ^ 16 % 2 ^ 16 = n
  omega

theorem monthLength_le (y : Nat) (hm : 1 ≤ m) (hm' : m ≤ 12) : monthLength y m ≤ 31 := by
  have hdays : ∀ k < 12, [31, 28, 31, 30, 31, 30, 31, 31, 30, 31, 30, 31].getD k 0 ≤ 31 := by decide
  rw [monthLength]
  split
  · decide
  · exact hdays (m - 1) (by omega)

/-- The clock gets the time back that `gmtime_r` has taken apart. -/
theorem rtcToEpoch_located {yday : Nat} (hyear : InSpan yearLength 1970 (t / 86400) y yday) (hy : y < 65536)
    (hmonth : InSpan (monthLength y) 1 yday m r) (hm : m ≤ 12) : rtcToEpoch (gmtimeR t).toTsukasaTime = t := by
  have hlength := monthLength_le y hmonth.le hm
  have hday := hmonth.lt
  have hsec := toNat_ofInt8 (n := t % 60) (by omega)
  have hmin := toNat_ofInt8 (n := t / 60 % 60) (by omega)
  have hhour := toNat_ofInt8 (n := t / 3600 % 24) (by omega)
  have hmday := toNat_ofInt8 (n := r + 1) (by omega)
  have hmon := toNat_ofInt8 (n := m) (by omega)
  have hfull := toNat_ofInt16 (n := y) hy
  have hstart := hmonth.le
  have hfrom := hyear.le
  have hfields : (gmtimeR t).toTsukasaTime =
      ⟨.ofInt (t % 60 : Nat), .ofInt (t / 60 % 60 : Nat), .ofInt (t / 3600 % 24 : Nat), .ofInt (r + 1 : Nat), .ofInt (m : Int), .ofInt (y : Int)⟩ := by
    rw [gmtimeR_eq hyear (by omega) hmonth hm, Tm.toTsukasaTime]
    dsimp only
    rw [Int.sub_add_cancel, Int.sub_add_cancel, Int.natCast_succ]
  have hdays : epochDays y m (r + 1) = t / 86400 := by
    rw [hyear.split, hmonth.split, epochDays, daysSinceJanuary, Nat.add_sub_cancel]
  rw [hfields, rtcToEpoch_eq (by rw [hfull]; exact hfrom) (by rw [hmon]; exact ⟨hstart, hm⟩) (by rw [hmday]; omega)]
  dsimp only
  rw [hsec, hmin, hhour, hmday, hmon, hfull, hdays]
  omega

/-- The calendar conversions are inverse to each other, for the years 1970 to 65535. -/
theorem calendar_inverse :
    (∀ d : TsukasaTime, d.Valid → (gmtimeR (rtcToEpoch d)).Describes d) ∧
    ∀ t : Int, 0 ≤ t → t < 86400 * (∑ i ∈ Ico 1970 65536, yearLength i : Nat) → rtcToEpoch (gmtimeR t).toTsukasaTime = t := by
  constructor
  · intro d h
    have hhour := h.hour
    have hmin := h.min
    have hsec := h.sec
    have hday := h.day.1
    have hyear := h.inSpan_year
    have hmonth := h.inSpan_month
    have hyearlt := d.year.toNat_lt
    have hepoch := rtcToEpoch_eq h.year h.month h.day.1
    generalize ht : epochDays d.year.toNat d.month.toNat d.day.toNat * 86400 + d.hour.toNat * 3600 + d.min.toNat * 60 + d.sec.toNat = t at hepoch
    have hdays : t / 86400 = epochDays d.year.toNat d.month.toNat d.day.toNat := by omega
    rw [← hdays] at hyear
    rw [hepoch, gmtimeR_eq hyear (by omega) hmonth h.month.2]
    constructor
    · dsimp only
      omega
    · dsimp only
      omega
    · dsimp only
      omega
    · dsimp only
      omega
    · dsimp only
      omega
    · dsimp only
      omega
    · rfl
    · rw [weekday_eq h.year, ← hdays]
  · intro t hzero hlast
    obtain ⟨t, rfl⟩ := Int.eq_ofNat_of_zero_le hzero
    have hend : t / 86400 < ∑ i ∈ Ico 1970 65536, yearLength i := by omega
    obtain ⟨y, yday, hyear⟩ := exists_inSpan (by decide) hend
    have hy := hyear.lt_of_lt hend
    obtain ⟨m, r, hmonth, hm⟩ := exists_month hyear.lt
    exact rtcToEpoch_located hyear hy hmonth hm

/-- The last second before the leap day of 2000. -/
theorem calendar_inverse_2000 : (gmtimeR (rtcToEpoch ⟨59, 59, 23, 28, 2, 2000⟩)).Describes ⟨59, 59, 23, 28, 2, 2000⟩ ∧
    rtcToEpoch (gmtimeR 951782399).toTsukasaTime = 951782399 := by
  refine ⟨calendar_inverse.1 _ ⟨by decide, by decide, ⟨by decide, by decide⟩, by decide, by decide, by decide⟩, calendar_inverse.2 _ (by decide) ?_⟩
  have hdays := sum_yearLength_from (show 1 ≤ 1970 by decide) (show 1970 ≤ 65536 by decide)
  omega

end Time

end Tsukasa
