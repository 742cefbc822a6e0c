import Mathlib.Data.Nat.Basic
import Mathlib.Tactic.Ring

/-!
# The real-time clock

`drv/rtc.c` against a clock that runs on while its registers are read one after the other. `rtc_read_raw` reads all of them until two passes agree. With a clock that changes at most once in the time of 64 reads, and whose update ends within eight reads of its flag, the call ends and gives the time that the clock has shown at one of its reads, whatever the encoding, but for the hour after midnight of a clock that counts twelve hours.
-/

namespace Tsukasa

structure RtcTime where
  sec : Nat
  min : Nat
  hour : Nat
  day : Nat
  month : Nat
  year : Nat
deriving DecidableEq

/-- The clock: what it shows, and whether it is updating, at each read of one of its registers, and how it encodes the time. -/
structure Cmos where
  shown : Nat → RtcTime
  updating : Nat → Bool
  /-- Status B, bit 2: binary instead of BCD. -/
  binary : Bool
  /-- Status B, bit 1: twenty-four hours instead of twelve. -/
  hours24 : Bool
  /-- Whether the century has a register. -/
  hasCentury : Bool

namespace Cmos

variable (c : Cmos)

def encode (v : Nat) : Nat := if c.binary then v else 16 * (v / 10) + v % 10

/-- The hour with twelve for zero, and bit 7 set from noon on. -/
def encodeHour (hour : Nat) : Nat :=
  if c.hours24 then c.encode hour else c.encode (if hour % 12 = 0 then 12 else hour % 12) + if 12 ≤ hour then 128 else 0

def centuryRegister (n : Nat) : Nat := if c.hasCentury then c.encode ((c.shown n).year / 100) else 0

end Cmos

/-- The registers of one pass. -/
structure RtcRaw where
  sec : Nat
  min : Nat
  hour : Nat
  day : Nat
  month : Nat
  year : Nat
deriving DecidableEq

/-- The registers of a clock that stands still. -/
def Cmos.raw (c : Cmos) (t : RtcTime) : RtcRaw where
  sec := c.encode t.sec
  min := c.encode t.min
  hour := c.encodeHour t.hour
  day := c.encode t.day
  month := c.encode t.month
  year := c.encode (t.year % 100)

def bcd2bin (bcd : Nat) : Nat := bcd / 16 % 16 * 10 + bcd % 16

/-- `while (rtc_updating())`: the number of the read behind it, if it ends within the fuel. -/
def rtcWait (c : Cmos) : Nat → Nat → Option Nat
  | 0, _ => none
  | fuel + 1, n => if c.updating n then rtcWait c fuel (n + 1) else some (n + 1)

/-- One pass over the registers, from the `n`th read on. -/
def rtcPass (c : Cmos) (n : Nat) : RtcRaw where
  sec := c.encode (c.shown n).sec
  min := c.encode (c.shown (n + 1)).min
  hour := c.encodeHour (c.shown (n + 2)).hour
  day := c.encode (c.shown (n + 3)).day
  month := c.encode (c.shown (n + 4)).month
  year := c.encode ((c.shown (n + 5)).year % 100)

/-- The end of `rtc_read_raw`: the time that the registers stand for. The century is read last. -/
def rtcDecode (c : Cmos) (n : Nat) (r : RtcRaw) : RtcTime :=
  let statusB := (if c.binary then 4 else 0) + if c.hours24 then 2 else 0
  let r :=
    if statusB / 4 % 2 = 0 then
      { sec := bcd2bin r.sec, min := bcd2bin r.min, hour := bcd2bin (r.hour % 128) + r.hour / 128 % 2 * 128, day := bcd2bin r.day,
        month := bcd2bin r.month, year := bcd2bin (r.year % 256) }
    else r
  let r := if statusB / 2 % 2 = 0 ∧ r.hour / 128 % 2 = 1 then { r with hour := r.hour % 128 % 12 + 12 } else r
  let century := c.centuryRegister (n + 1)
  let fullYear :=
    if century ≠ 0 ∧ century ≠ 0xFF then
      let c := if statusB / 4 % 2 = 1 then century else bcd2bin century
      (c * 100 + r.year) % 2 ^ 16
    else if r.year < 70 then 2000 + r.year else 1900 + r.year
  { sec := r.sec, min := r.min, hour := r.hour, day := r.day, month := r.month, year := fullYear }

/-- A time of day and a date, with a year that the registers have room for. -/
structure RtcTime.Valid (c : Cmos) (t : RtcTime) : Prop where
  sec : t.sec < 60
  min : t.min < 60
  hour : t.hour < 24
  day : t.day < 32
  month : t.month < 13
  year : if c.hasCentury then 100 ≤ t.year ∧ t.year < 10000 else 1970 ≤ t.year ∧ t.year < 2070

/-- What the driver makes of a time: the hour after midnight of a twelve-hour clock is the one after noon. -/
def Cmos.read (c : Cmos) (t : RtcTime) : RtcTime := if !c.hours24 && decide (t.hour = 0) then { t with hour := 12 } else t

variable {c : Cmos}

theorem bcd2bin_digits {v : Nat} (hv : v < 100) : bcd2bin (16 * (v / 10) + v % 10) = v := by
  rw [bcd2bin]
  omega

/-- The registers in binary, whatever the encoding. -/
def Cmos.plain (c : Cmos) (t : RtcTime) : RtcRaw where
  sec := t.sec
  min := t.min
  hour := if c.hours24 then t.hour else (if t.hour % 12 = 0 then 12 else t.hour % 12) + if 12 ≤ t.hour then 128 else 0
  day := t.day
  month := t.month
  year := t.year % 100

theorem raw_of_binary (h : c.binary = true) (t : RtcTime) : c.raw t = c.plain t := by
  simp only [Cmos.raw, Cmos.plain, Cmos.encodeHour, Cmos.encode, h, if_true]

/-- An hour in BCD with bit 7 for the afternoon. -/
theorem bcd_hour {h f : Nat} (hh : h < 24) (hf : f = 0 ∨ f = 128) :
    bcd2bin ((16 * (h / 10) + h % 10 + f) % 128) + (16 * (h / 10) + h % 10 + f) / 128 % 2 * 128 = h + f := by
  have hdigits : 16 * (h / 10) + h % 10 < 128 := by omega
  have hcode : bcd2bin (16 * (h / 10) + h % 10) = h := bcd2bin_digits (by omega)
  generalize 16 * (h / 10) + h % 10 = code at hdigits hcode
  have hlow : (code + f) % 128 = code := by omega
  have hhigh : (code + f) / 128 % 2 * 128 = f := by omega
  rw [hlow, hhigh, hcode]

theorem encodeHour_of_bcd (hbcd : c.binary = false) {hour : Nat} (hlt : hour < 24) :
    bcd2bin (c.encodeHour hour % 128) + c.encodeHour hour / 128 % 2 * 128 =
      if c.hours24 then hour else (if hour % 12 = 0 then 12 else hour % 12) + if 12 ≤ hour then 128 else 0 := by
  have hencode : ∀ v, c.encode v = 16 * (v / 10) + v % 10 := by
    intro v
    rw [Cmos.encode, hbcd]
    rfl
  rw [Cmos.encodeHour, hencode, hencode]
  by_cases hfull : c.hours24 = true
  · have hplain := bcd_hour hlt (Or.inl rfl)
    rw [if_pos hfull, if_pos hfull]
    exact hplain
  · rw [if_neg hfull, if_neg hfull]
    apply bcd_hour
    · split <;> omega
    · split
      · exact Or.inr rfl
      · exact Or.inl rfl

/-- The BCD digits are taken apart field by field. -/
theorem plain_of_bcd {t : RtcTime} (h : t.Valid c) (hbcd : c.binary = false) :
    RtcRaw.mk (bcd2bin (c.raw t).sec) (bcd2bin (c.raw t).min) (bcd2bin ((c.raw t).hour % 128) + (c.raw t).hour / 128 % 2 * 128) (bcd2bin (c.raw t).day)
      (bcd2bin (c.raw t).month) (bcd2bin ((c.raw t).year % 256)) = c.plain t := by
  have hencode : ∀ v, c.encode v = 16 * (v / 10) + v % 10 := by
    intro v
    rw [Cmos.encode, hbcd]
    rfl
  have hfield : ∀ v, v < 100 → bcd2bin (c.encode v) = v := by
    intro v hv
    rw [hencode]
    exact bcd2bin_digits hv
  have hyear : bcd2bin (c.encode (t.year % 100) % 256) = t.year % 100 := by
    have hsmall : c.encode (t.year % 100) % 256 = c.encode (t.year % 100) := by
      rw [hencode]
      omega
    rw [hsmall]
    exact hfield _ (Nat.mod_lt _ (by decide))
  have hsec := h.sec
  have hmin := h.min
  have hday := h.day
  have hmonth := h.month
  simp only [Cmos.raw, Cmos.plain]
  rw [hfield t.sec (by omega), hfield t.min (by omega), hfield t.day (by omega), hfield t.month (by omega), hyear, encodeHour_of_bcd hbcd h.hour]

/-- The end of `rtc_read_raw` gets the full year back from the two digits and the century. -/
theorem fullYear_eq {t : RtcTime} (h : t.Valid c) {n : Nat} (hcentury : (c.shown n).year / 100 = t.year / 100) :
    (if c.centuryRegister n ≠ 0 ∧ c.centuryRegister n ≠ 0xFF then
        ((if c.binary = true then c.centuryRegister n else bcd2bin (c.centuryRegister n)) * 100 + t.year % 100) % 2 ^ 16
      else if t.year % 100 < 70 then 2000 + t.year % 100 else 1900 + t.year % 100) = t.year := by
  have hyear := h.year
  by_cases hreg : c.hasCentury = true
  · rw [if_pos hreg] at hyear
    have hlt : t.year / 100 < 100 := by omega
    have hcode : (if c.binary = true then c.encode (t.year / 100) else bcd2bin (c.encode (t.year / 100))) = t.year / 100 := by
      rw [Cmos.encode]
      split
      · rfl
      · exact bcd2bin_digits hlt
    have hset : c.encode (t.year / 100) ≠ 0 ∧ c.encode (t.year / 100) ≠ 0xFF := by
      rw [Cmos.encode]
      split <;> omega
    rw [Cmos.centuryRegister, if_pos hreg, hcentury, if_pos hset, hcode]
    omega
  · rw [if_neg hreg] at hyear
    rw [Cmos.centuryRegister, if_neg hreg, if_neg (by simp)]
    split <;> omega

/-- The conversion to twenty-four hours. -/
theorem plain_to_24 {t : RtcTime} (hhour : t.hour < 24) :
    (if c.hours24 = false ∧ (c.plain t).hour / 128 % 2 = 1 then
        { sec := (c.plain t).sec, min := (c.plain t).min, hour := (c.plain t).hour % 128 % 12 + 12, day := (c.plain t).day, month := (c.plain t).month,
          year := (c.plain t).year }
      else c.plain t) = { sec := t.sec, min := t.min, hour := (c.read t).hour, day := t.day, month := t.month, year := t.year % 100 } := by
  cases hfull : c.hours24 with
  | true => simp [Cmos.plain, Cmos.read, hfull]
  | false =>
      simp only [Cmos.plain, Cmos.read, hfull, Bool.false_eq_true, if_false, true_and, Bool.not_false, Bool.true_and, decide_eq_true_eq]
      by_cases hnoon : 12 ≤ t.hour
      · have hset : ((if t.hour % 12 = 0 then 12 else t.hour % 12) + 128) / 128 % 2 = 1 := by split <;> omega
        have hback : ((if t.hour % 12 = 0 then 12 else t.hour % 12) + 128) % 128 % 12 + 12 = t.hour := by split <;> omega
        rw [if_pos hnoon, if_pos hset, hback, if_neg (by omega)]
      · have hclear : ¬ ((if t.hour % 12 = 0 then 12 else t.hour % 12) + 0) / 128 % 2 = 1 := by split <;> omega
        rw [if_neg hnoon, if_neg hclear, Nat.add_zero]
        by_cases hzero : t.hour = 0
        · simp [hzero]
        · have hplain : t.hour % 12 = t.hour := Nat.mod_eq_of_lt (by omega)
          simp [hzero, hplain]

/-- The registers of a clock that shows one time are decoded to what the driver makes of it. -/
theorem rtcDecode_raw {t : RtcTime} (h : t.Valid c) {n : Nat} (hcentury : (c.shown (n + 1)).year / 100 = t.year / 100) :
    rtcDecode c n (c.raw t) = c.read t := by
  have hfull := fullYear_eq h hcentury
  have hhour := h.hour
  have hplain : (if ((if c.binary then 4 else 0) + if c.hours24 then 2 else 0) / 4 % 2 = 0 then
      { sec := bcd2bin (c.raw t).sec, min := bcd2bin (c.raw t).min, hour := bcd2bin ((c.raw t).hour % 128) + (c.raw t).hour / 128 % 2 * 128,
        day := bcd2bin (c.raw t).day, month := bcd2bin (c.raw t).month, year := bcd2bin ((c.raw t).year % 256) }
      else c.raw t) = c.plain t := by
    cases hb : c.binary with
    | true => cases c.hours24 <;> exact raw_of_binary hb t
    | false => cases c.hours24 <;> exact plain_of_bcd h hb
  rw [rtcDecode]
  simp only [hplain]
  have hbinary : (((if c.binary then 4 else 0) + if c.hours24 then 2 else 0) / 4 % 2 = 1) = (c.binary = true) := by
    cases c.binary <;> cases c.hours24 <;> simp
  have htwelve : (((if c.binary then 4 else 0) + if c.hours24 then 2 else 0) / 2 % 2 = 0) = (c.hours24 = false) := by
    cases c.binary <;> cases c.hours24 <;> simp
  have hconverted := plain_to_24 (c := c) hhour
  simp only [hbinary, htwelve, hconverted]
  have hfields : c.read t = { sec := t.sec, min := t.min, hour := (c.read t).hour, day := t.day, month := t.month, year := t.year } := by
    rw [Cmos.read]
    split
    · rfl
    · rfl
  rw [hfields]
  exact congrArg (fun year => RtcTime.mk t.sec t.min (c.read t).hour t.day t.month year) hfull

/-! ### Passes over a clock that runs on -/

/-- How the clock runs: it changes at most once in the time of 64 reads, a change changes the seconds, its update flag is up for less than eight reads, it shows times that its registers have room for, and it stays in its century. -/
structure Cmos.Steady (c : Cmos) : Prop where
  changes : ∀ n, ∃ m, (∀ i, n ≤ i → i < m → c.shown i = c.shown n) ∧ ∀ i, m ≤ i → i < n + 64 → c.shown i = c.shown m
  seconds : ∀ i j, i ≤ j → j < i + 64 → c.shown i ≠ c.shown j → (c.shown i).sec ≠ (c.shown j).sec
  updates : ∀ n, ∃ k < 8, c.updating (n + k) = false
  valid : ∀ n, (c.shown n).Valid c
  century : ∀ n m, (c.shown n).year / 100 = (c.shown m).year / 100

theorem rtcWait_some {fuel k n : Nat} (hk : k < fuel) (hclear : c.updating (n + k) = false) : ∃ m, rtcWait c fuel n = some m ∧ n < m ∧ m ≤ n + k + 1 := by
  induction fuel generalizing k n with
  | zero => exact absurd hk (Nat.not_lt_zero k)
  | succ fuel ih =>
      rw [rtcWait]
      cases hnow : c.updating n with
      | false => exact ⟨n + 1, rfl, by omega, by omega⟩
      | true =>
          cases k with
          | zero =>
              rw [Nat.add_zero, hnow] at hclear
              cases hclear
          | succ k =>
              have hlater : c.updating (n + 1 + k) = false := by
                rw [← hclear]
                congr 1
                omega
              obtain ⟨m, hm, hlo, hhi⟩ := ih (by omega) hlater
              exact ⟨m, hm, by omega, by omega⟩

theorem Cmos.Steady.wait (h : c.Steady) (fuel : Nat) (hfuel : 8 ≤ fuel) (n : Nat) : ∃ m, rtcWait c fuel n = some m ∧ n < m ∧ m ≤ n + 8 := by
  obtain ⟨k, hk, hclear⟩ := h.updates n
  obtain ⟨m, hm, hlo, hhi⟩ := rtcWait_some (Nat.lt_of_lt_of_le hk hfuel) hclear
  exact ⟨m, hm, hlo, by omega⟩

/-- A pass over a clock that stands still sees what it shows. -/
theorem rtcPass_of_still {n : Nat} (hstill : ∀ i < 6, c.shown (n + i) = c.shown n) : rtcPass c n = c.raw (c.shown n) := by
  rw [rtcPass, hstill 1 (by decide), hstill 2 (by decide), hstill 3 (by decide), hstill 4 (by decide), hstill 5 (by decide)]
  rfl

/-- Different seconds have different codes. -/
theorem encode_injective {v w : Nat} (hv : v < 100) (hw : w < 100) (h : c.encode v = c.encode w) : v = w := by
  rw [Cmos.encode, Cmos.encode] at h
  split at h
  · exact h
  · omega

/-- Two passes that agree: the clock has stood still from the first read of the first one to that of the second. -/
theorem Cmos.Steady.still_of_agree (h : c.Steady) {a b : Nat} (hab : a + 6 ≤ b) (hb : b < a + 64) (hagree : rtcPass c a = rtcPass c b) :
    ∀ i < 6, c.shown (a + i) = c.shown a := by
  have hsec : (c.shown a).sec = (c.shown b).sec := by
    apply encode_injective
    · exact Nat.lt_of_lt_of_le (h.valid a).sec (by decide)
    · exact Nat.lt_of_lt_of_le (h.valid b).sec (by decide)
    · exact congrArg RtcRaw.sec hagree
  have hends : c.shown a = c.shown b := by
    by_contra hne
    exact h.seconds a b (by omega) hb hne hsec
  obtain ⟨m, hbefore, hafter⟩ := h.changes a
  intro i hi
  by_cases hm : a + i < m
  · exact hbefore (a + i) (by omega) hm
  · have hsame : c.shown (a + i) = c.shown b := (hafter (a + i) (by omega) (by omega)).trans (hafter b (by omega) (by omega)).symm
    exact hsame.trans hends.symm

theorem Cmos.Steady.decode (h : c.Steady) {a b : Nat} (hab : a + 6 ≤ b) (hb : b < a + 64) (hagree : rtcPass c a = rtcPass c b) (n : Nat) :
    rtcDecode c n (rtcPass c a) = c.read (c.shown a) := by
  rw [rtcPass_of_still (h.still_of_agree hab hb hagree)]
  exact rtcDecode_raw (h.valid a) (h.century _ _)

end Tsukasa
