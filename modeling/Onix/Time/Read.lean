import Onix.Time.Cmos

open Calendar

namespace onix

section Conversions

theorem int_of_eq (b : u8) : int_of b = Int32.ofNat b.toNat :=
  congrArg UInt32.toInt32 (UInt32.ofNat_uInt8ToNat b).symm

theorem byte_of_ofNat (n : ℕ) : byte_of (Int32.ofNat n) = UInt8.ofNat n := UInt32.toUInt8_ofNat' n

theorem int_of_inj {a b : u8} : int_of a = int_of b ↔ a = b := by
  constructor
  · intro h
    have hbyte := congrArg byte_of h
    rwa [int_of_eq, int_of_eq, byte_of_ofNat, byte_of_ofNat, UInt8.ofNat_toNat, UInt8.ofNat_toNat] at hbyte
  · rintro rfl
    rfl

theorem bcd_to_bin_toNat (b : u8) : (bcd_to_bin b).toNat = Bcd.value b := by
  have hb := b.toNat_lt
  have hlow : (b &&& 0xf).toNat = b.toNat % 16 := Nat.and_two_pow_sub_one_eq_mod b.toNat 4
  have hhigh : (b >>> 4).toNat = b.toNat / 16 := Nat.shiftRight_eq_div_pow b.toNat 4
  have hten : (10 : u8).toNat = 10 := rfl
  unfold bcd_to_bin Bcd.value
  rw [UInt8.toNat_add, UInt8.toNat_mul, hlow, hhigh, hten]
  omega

theorem bin_to_bcd_ofNat {n : ℕ} (hn : n < 100) : bin_to_bcd (UInt8.ofNat n) = Bcd.encode n := by
  apply UInt8.toNat_inj.mp
  have hnat : (UInt8.ofNat n).toNat = n := UInt8.toNat_ofNat_of_lt' (show n < 2 ^ 8 by omega)
  have hten : (10 : u8).toNat = 10 := rfl
  have hsixteen : (0x10 : u8).toNat = 16 := rfl
  unfold bin_to_bcd
  rw [Bcd.encode_toNat hn, UInt8.toNat_add, UInt8.toNat_mul, UInt8.toNat_div, UInt8.toNat_mod, hnat, hten, hsixteen]
  omega

theorem decoded_int_of (b : u8) : decoded (int_of b) = Int32.ofNat (Bcd.value b) := by
  have hbyte : byte_of (int_of b) = b := by rw [int_of_eq, byte_of_ofNat, UInt8.ofNat_toNat]
  unfold decoded
  rw [hbyte, int_of_eq, bcd_to_bin_toNat]

end Conversions

section Reading

/-- What `time_read` makes of the bytes that it has read. -/
def struct_tm.binary (time : struct_tm) : struct_tm :=
  let fields : tm :=
    { tm_sec := decoded time.tm_sec
      tm_min := decoded time.tm_min
      tm_hour := decoded time.tm_hour
      tm_mday := decoded time.tm_mday
      tm_mon := decoded time.tm_mon
      tm_year := decoded time.tm_year }
  { fields with tm_wday := decoded time.tm_wday, tm_yday := get_yday fields, tm_isdst := -1 }

variable {time now : struct_tm} {c c' : Cmos} {fuel : ℕ}

namespace Cmos

/-- What one turn of the loop reads. -/
def snapshot (c : Cmos) (time : struct_tm) : struct_tm :=
  { time with
    tm_sec := int_of (c.clock c.reads CMOS_SECOND)
    tm_min := int_of (c.clock (c.reads + 1) CMOS_MINUTE)
    tm_hour := int_of (c.clock (c.reads + 2) CMOS_HOUR)
    tm_wday := int_of (c.clock (c.reads + 3) CMOS_WEEKDAY)
    tm_mday := int_of (c.clock (c.reads + 4) CMOS_DAY)
    tm_mon := int_of (c.clock (c.reads + 5) CMOS_MONTH)
    tm_year := int_of (c.clock (c.reads + 6) CMOS_YEAR) }

/-- The clock behind a turn of the loop. -/
def turn (c : Cmos) : Cmos :=
  { c with reads := c.reads + 9, index := CMOS_SECOND, century := int_of (c.clock (c.reads + 7) CMOS_CENTURY) }

/-- The next turn of the loop reads the same second at its begin and at its end. -/
def Steady (c : Cmos) : Prop := c.clock c.reads CMOS_SECOND = c.clock (c.reads + 8) CMOS_SECOND

/-- Some turn, of the first `fuel`, reads the same second at its begin and at its end. -/
def Settles (c : Cmos) (fuel : ℕ) : Prop :=
  ∃ k < fuel, c.clock (c.reads + 9 * k) CMOS_SECOND = c.clock (c.reads + 9 * k + 8) CMOS_SECOND

/-- The numbers that a turn of the loop reads. -/
def reading (c : Cmos) : tm where
  tm_sec := Int32.ofNat (Bcd.value (c.clock c.reads CMOS_SECOND))
  tm_min := Int32.ofNat (Bcd.value (c.clock (c.reads + 1) CMOS_MINUTE))
  tm_hour := Int32.ofNat (Bcd.value (c.clock (c.reads + 2) CMOS_HOUR))
  tm_mday := Int32.ofNat (Bcd.value (c.clock (c.reads + 4) CMOS_DAY))
  tm_mon := Int32.ofNat (Bcd.value (c.clock (c.reads + 5) CMOS_MONTH))
  tm_year := Int32.ofNat (Bcd.value (c.clock (c.reads + 6) CMOS_YEAR))

end Cmos

instance (c : Cmos) : Decidable c.Steady := inferInstanceAs (Decidable (_ = _))

theorem time_read_bcd_succ (time : struct_tm) (fuel : ℕ) (c : Cmos) :
    (time_read_bcd time (fuel + 1)).run c =
      if c.Steady then some (c.snapshot time, c.turn) else (time_read_bcd (c.snapshot time) fuel).run c.turn := by
  have hcond : int_of (c.clock c.reads CMOS_SECOND) ≠ int_of (c.clock (c.reads + 8) CMOS_SECOND) ↔ ¬c.Steady :=
    not_congr int_of_inj
  have hrun : (time_read_bcd time (fuel + 1)).run c =
      (if int_of (c.clock c.reads CMOS_SECOND) ≠ int_of (c.clock (c.reads + 8) CMOS_SECOND) then
        time_read_bcd (c.snapshot time) fuel else pure (c.snapshot time)).run c.turn := rfl
  rw [hrun]
  by_cases hsteady : c.Steady
  · rw [if_pos hsteady, if_neg (fun h => hcond.mp h hsteady)]
    rfl
  · rw [if_neg hsteady, if_pos (hcond.mpr hsteady)]

/-- Whatever the clock does meanwhile: what the loop returns is what one of its turns has read, and the second
was the same at the begin and at the end of this turn. -/
theorem time_read_bcd_some (h : (time_read_bcd time fuel).run c = some (now, c')) :
    ∃ d : Cmos, d.clock = c.clock ∧ d.written = c.written ∧ d.Steady ∧ now = d.snapshot time ∧ c' = d.turn := by
  induction fuel generalizing time c with
  | zero => cases h
  | succ fuel ih =>
    rw [time_read_bcd_succ] at h
    by_cases hsteady : c.Steady
    · rw [if_pos hsteady] at h
      cases h
      exact ⟨c, rfl, rfl, hsteady, rfl, rfl⟩
    · rw [if_neg hsteady] at h
      obtain ⟨d, hclock, hwritten, hd, hnow, hc'⟩ := ih h
      exact ⟨d, hclock, hwritten, hd, hnow, hc'⟩

theorem time_read_bcd_settles (time : struct_tm) (h : c.Settles fuel) :
    ∃ now c', (time_read_bcd time fuel).run c = some (now, c') := by
  induction fuel generalizing time c with
  | zero =>
    obtain ⟨k, hk, -⟩ := h
    exact absurd hk (Nat.not_lt_zero k)
  | succ fuel ih =>
    rw [time_read_bcd_succ]
    by_cases hsteady : c.Steady
    · rw [if_pos hsteady]
      exact ⟨_, _, rfl⟩
    · rw [if_neg hsteady]
      apply ih
      obtain ⟨k, hk, hsame⟩ := h
      cases k with
      | zero => exact absurd hsame hsteady
      | succ k =>
        have hreads : c.reads + 9 * (k + 1) = c.reads + 9 + 9 * k := by omega
        rw [hreads] at hsame
        exact ⟨k, by omega, hsame⟩

theorem time_read_run (h : (time_read_bcd time fuel).run c = some (now, c')) :
    (time_read time fuel).run c = some (now.binary, { c' with century := decoded c'.century }) := by
  unfold time_read
  rw [StateT.run_bind, h]
  rfl

/-- What `time_read` returns is what one turn has read, with the day of the year. -/
theorem time_read_some (h : (time_read time fuel).run c = some (now, c')) :
    ∃ d : Cmos, d.clock = c.clock ∧ d.Steady ∧ now.totm = d.reading ∧ now.tm_yday = get_yday d.reading ∧
      c'.written = c.written := by
  cases hread : (time_read_bcd time fuel).run c with
  | none =>
    unfold time_read at h
    rw [StateT.run_bind, hread] at h
    cases h
  | some result =>
    obtain ⟨bcd, c₁⟩ := result
    rw [time_read_run hread] at h
    obtain ⟨d, hclock, hwritten, hsteady, rfl, rfl⟩ := time_read_bcd_some hread
    cases h
    refine ⟨d, hclock, hsteady, ?_, ?_, hwritten⟩
    · simp only [struct_tm.binary, Cmos.snapshot, Cmos.reading, decoded_int_of]
    · simp only [struct_tm.binary, Cmos.snapshot, Cmos.reading, decoded_int_of]

theorem time_read_settles (time : struct_tm) (h : c.Settles fuel) :
    ∃ now c', (time_read time fuel).run c = some (now, c') := by
  obtain ⟨bcd, c₁, hread⟩ := time_read_bcd_settles time h
  exact ⟨_, _, time_read_run hread⟩

/-- A register holds a number of the range in BCD. -/
def HoldsBcd (registers : u8 → u8) (register : u8) (low high : ℕ) : Prop :=
  Bcd.Valid (registers register) ∧ low ≤ Bcd.value (registers register) ∧ Bcd.value (registers register) ≤ high

/-- The registers hold a time of day. -/
structure TimeContents (registers : u8 → u8) : Prop where
  second : HoldsBcd registers CMOS_SECOND 0 59
  minute : HoldsBcd registers CMOS_MINUTE 0 59
  hour : HoldsBcd registers CMOS_HOUR 0 23

/-- The registers hold a time of day, and a date each part of which is in its range. -/
structure Contents (registers : u8 → u8) : Prop extends TimeContents registers where
  day : HoldsBcd registers CMOS_DAY 1 31
  month : HoldsBcd registers CMOS_MONTH 1 12
  year : HoldsBcd registers CMOS_YEAR 0 99

/-- The fields are in the ranges of the registers. -/
structure tm.InRange (time : tm) : Prop where
  second : 0 ≤ time.tm_sec.toInt ∧ time.tm_sec.toInt ≤ 59
  minute : 0 ≤ time.tm_min.toInt ∧ time.tm_min.toInt ≤ 59
  hour : 0 ≤ time.tm_hour.toInt ∧ time.tm_hour.toInt ≤ 23
  day : 1 ≤ time.tm_mday.toInt ∧ time.tm_mday.toInt ≤ 31
  month : 1 ≤ time.tm_mon.toInt ∧ time.tm_mon.toInt ≤ 12
  year : 0 ≤ time.tm_year.toInt ∧ time.tm_year.toInt ≤ 99

theorem HoldsBcd.toInt {registers : u8 → u8} {register : u8} {low high : ℕ}
    (h : HoldsBcd registers register low high) :
    (low : ℤ) ≤ (Int32.ofNat (Bcd.value (registers register))).toInt ∧
      (Int32.ofNat (Bcd.value (registers register))).toInt ≤ high := by
  obtain ⟨hvalid, hlow, hhigh⟩ := h
  have hlt := hvalid.value_lt
  rw [Int32.toInt_ofNat_of_lt (by omega)]
  exact ⟨Int.ofNat_le.mpr hlow, Int.ofNat_le.mpr hhigh⟩

/-- Whenever the registers change: the fields that `time_read` delivers are in their ranges. -/
theorem time_read_inRange (hcontents : ∀ n, Contents (c.clock n)) (h : (time_read time fuel).run c = some (now, c')) :
    now.InRange := by
  obtain ⟨d, hclock, -, hfields, -⟩ := time_read_some h
  rw [hfields]
  rw [← hclock] at hcontents
  constructor
  · exact (hcontents _).second.toInt
  · exact (hcontents _).minute.toInt
  · exact (hcontents _).hour.toInt
  · exact (hcontents _).day.toInt
  · exact (hcontents _).month.toInt
  · exact (hcontents _).year.toInt

/-- What a clock shows at a time. -/
def registers (t : Time) (register : u8) : u8 :=
  if register = CMOS_SECOND then Bcd.encode t.second
  else if register = CMOS_MINUTE then Bcd.encode t.minute
  else if register = CMOS_HOUR then Bcd.encode t.hour
  else if register = CMOS_DAY then Bcd.encode t.day
  else if register = CMOS_MONTH then Bcd.encode t.month
  else if register = CMOS_YEAR then Bcd.encode (t.year % 100)
  else 0

/-- What a local variable may hold before it is read -/
def struct_tm.zero : struct_tm := ⟨⟨0, 0, 0, 0, 0, 0⟩, 0, 0, 0⟩

/-- A clock that stands still -/
def Cmos.stopped (t : Time) : Cmos where
  clock := fun _ => registers t
  reads := 0
  index := 0
  written := []
  century := 0

theorem stopped_settles (t : Time) (fuel : ℕ) : (Cmos.stopped t).Settles (fuel + 1) :=
  ⟨0, Nat.succ_pos fuel, rfl⟩

theorem reading_registers {t : Time} (h : c.clock = (Cmos.stopped t).clock) : c.reading = tm.of t := by
  have hday : t.day ≤ 31 := t.day_le.trans (days_in_month_le t.year t.month)
  have hmonth := t.month_le
  have hhour := t.hour_lt
  have hminute := t.minute_lt
  have hsecond := t.second_lt
  have hread : ∀ n register, c.clock n register = registers t register := fun n => congrFun (congrFun h n)
  have hsecond' : Bcd.value (registers t CMOS_SECOND) = t.second := Bcd.value_encode (by omega)
  have hminute' : Bcd.value (registers t CMOS_MINUTE) = t.minute := Bcd.value_encode (by omega)
  have hhour' : Bcd.value (registers t CMOS_HOUR) = t.hour := Bcd.value_encode (by omega)
  have hday' : Bcd.value (registers t CMOS_DAY) = t.day := Bcd.value_encode (by omega)
  have hmonth' : Bcd.value (registers t CMOS_MONTH) = t.month := Bcd.value_encode (by omega)
  have hyear' : Bcd.value (registers t CMOS_YEAR) = t.year % 100 := Bcd.value_encode (by omega)
  unfold Cmos.reading tm.of
  rw [hread, hread, hread, hread, hread, hread, hsecond', hminute', hhour', hday', hmonth', hyear']

theorem HoldsBcd.of_encode {registers : u8 → u8} {register : u8} {low high n : ℕ}
    (hregister : registers register = Bcd.encode n) (hlow : low ≤ n) (hhigh : n ≤ high) (hlt : n < 100) :
    HoldsBcd registers register low high := by
  unfold HoldsBcd
  rw [hregister, Bcd.value_encode hlt]
  exact ⟨Bcd.encode_valid hlt, hlow, hhigh⟩

theorem registers_contents (t : Time) : Contents (registers t) := by
  have hday := t.day_le.trans (days_in_month_le t.year t.month)
  have hday' := t.day_pos
  have hmonth := t.month_le
  have hmonth' := t.month_pos
  have hhour := t.hour_lt
  have hminute := t.minute_lt
  have hsecond := t.second_lt
  exact
    { second := HoldsBcd.of_encode (n := t.second) rfl (by omega) (by omega) (by omega)
      minute := HoldsBcd.of_encode (n := t.minute) rfl (by omega) (by omega) (by omega)
      hour := HoldsBcd.of_encode (n := t.hour) rfl (by omega) (by omega) (by omega)
      day := HoldsBcd.of_encode (n := t.day) rfl (by omega) (by omega) (by omega)
      month := HoldsBcd.of_encode (n := t.month) rfl (by omega) (by omega) (by omega)
      year := HoldsBcd.of_encode (n := t.year % 100) rfl (by omega) (by omega) (by omega) }

/-- `time_read` reads the time that a stopped clock shows. -/
theorem time_read_stopped (time : struct_tm) (fuel : ℕ) (t : Time) :
    ∃ now c', (time_read time (fuel + 1)).run (Cmos.stopped t) = some (now, c') ∧ now.totm = tm.of t := by
  obtain ⟨now, c', h⟩ := time_read_settles time (stopped_settles t fuel)
  obtain ⟨d, hclock, -, hfields, -⟩ := time_read_some h
  exact ⟨now, c', h, hfields.trans (reading_registers hclock)⟩

end Reading

end onix
