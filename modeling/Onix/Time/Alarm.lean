import Onix.Time.Read

open Calendar

namespace onix

section Fields

/-- A field that is taken modulo its radix where it has reached it. -/
theorem reduce_field {a r : ℕ} (ha : a < 2 ^ 31) (hr : r < 2 ^ 31) :
    (if Int32.ofNat a ≥ Int32.ofNat r then Int32.ofNat a % Int32.ofNat r else Int32.ofNat a) =
      Int32.ofNat (a % r) := by
  have hge : Int32.ofNat a ≥ Int32.ofNat r ↔ r ≤ a := Int32.ofNat_le_iff_le hr ha
  by_cases hcarry : r ≤ a
  · rw [if_pos (hge.mpr hcarry), Int32.ofNat_mod ha hr]
  · rw [if_neg (mt hge.mp hcarry), Nat.mod_eq_of_lt (by omega)]

/-- The carry into the next field. -/
theorem carry_field {a n r : ℕ} (ha : a < 2 * r) (hr : 2 * r ≤ 2 ^ 31) :
    (if Int32.ofNat a ≥ Int32.ofNat r then Int32.ofNat n + 1 else Int32.ofNat n) =
      Int32.ofNat (n + a / r) := by
  have hge : Int32.ofNat a ≥ Int32.ofNat r ↔ r ≤ a := Int32.ofNat_le_iff_le (by omega) (by omega)
  by_cases hcarry : r ≤ a
  · have hone : a / r = 1 := Nat.div_eq_of_lt_le (by omega) (by omega)
    rw [if_pos (hge.mpr hcarry), hone, Int32.ofNat_add]
    rfl
  · rw [if_neg (mt hge.mp hcarry), Nat.div_eq_of_lt (by omega), Nat.add_zero]

theorem int_of_rest (secs : u32) : int_of (secs % 60).toUInt8 = Int32.ofNat (secs.toNat % 60) := by
  have hrest : (secs % 60).toNat = secs.toNat % 60 := UInt32.toNat_mod secs 60
  have hlt := Nat.mod_lt secs.toNat (show 60 > 0 by decide)
  rw [int_of_eq, UInt32.toNat_toUInt8, hrest, Nat.mod_eq_of_lt (by omega)]

theorem add_hours (n : ℕ) (hour : u32) :
    ((Int32.ofNat n).toUInt32 + hour).toInt32 = Int32.ofNat (n + hour.toNat) := by
  have hsum : (Int32.ofNat n).toUInt32 + hour = UInt32.ofNat (n + hour.toNat) := by
    rw [UInt32.ofNat_add, UInt32.ofNat_toNat]
    rfl
  rw [hsum]
  rfl

end Fields

section Alarm

variable {time : struct_tm} {secs : u32} {hour minute second : ℕ}

/-- The three sums of `set_alarm`, each with the carry of the one before it, are reduced where it ends. -/
theorem alarm_time_fields {sec min hours : Int32} (hsec : sec = time.tm_sec + int_of (secs % 60).toUInt8)
    (hmin : min = (if sec ≥ 60 then time.tm_min + 1 else time.tm_min) + int_of (secs / 60 % 60).toUInt8)
    (hhours : hours = ((if min ≥ 60 then time.tm_hour + 1 else time.tm_hour).toUInt32 + secs / 60 / 60).toInt32) :
    (alarm_time time secs).tm_sec = (if sec ≥ 60 then sec % 60 else sec) ∧
      (alarm_time time secs).tm_min = (if min ≥ 60 then min % 60 else min) ∧
      (alarm_time time secs).tm_hour = (if hours ≥ 24 then hours % 24 else hours) := by
  subst hsec hmin hhours
  unfold alarm_time
  by_cases hsec : time.tm_sec + int_of (secs % 60).toUInt8 ≥ 60
  · simp only [if_pos hsec]
    by_cases hmin : time.tm_min + 1 + int_of (secs / 60 % 60).toUInt8 ≥ 60
    · simp only [if_pos hmin]
      split_ifs <;> exact ⟨rfl, rfl, rfl⟩
    · simp only [if_neg hmin]
      split_ifs <;> exact ⟨rfl, rfl, rfl⟩
  · simp only [if_neg hsec]
    by_cases hmin : time.tm_min + int_of (secs / 60 % 60).toUInt8 ≥ 60
    · simp only [if_pos hmin]
      split_ifs <;> exact ⟨rfl, rfl, rfl⟩
    · simp only [if_neg hmin]
      split_ifs <;> exact ⟨rfl, rfl, rfl⟩

/-- The time of the alarm, in numbers -/
theorem alarm_time_eq (secs : u32) (hhour : time.tm_hour = Int32.ofNat hour)
    (hminute : time.tm_min = Int32.ofNat minute) (hsecond : time.tm_sec = Int32.ofNat second) (hhour' : hour < 24)
    (hminute' : minute < 60) (hsecond' : second < 60) :
    (alarm_time time secs).tm_sec = Int32.ofNat ((second + secs.toNat % 60) % 60) ∧
      (alarm_time time secs).tm_min =
        Int32.ofNat ((minute + (second + secs.toNat % 60) / 60 + secs.toNat / 60 % 60) % 60) ∧
      (alarm_time time secs).tm_hour =
        Int32.ofNat ((hour + (minute + (second + secs.toNat % 60) / 60 + secs.toNat / 60 % 60) / 60 +
          secs.toNat / 60 / 60) % 24) := by
  have hlt := secs.toNat_lt
  have hdiv : (secs / 60).toNat = secs.toNat / 60 := UInt32.toNat_div secs 60
  have hdiv' : (secs / 60 / 60).toNat = secs.toNat / 60 / 60 := by rw [← hdiv]; exact UInt32.toNat_div (secs / 60) 60
  -- the sums in the order in which they are made
  have hsec : Int32.ofNat (second + secs.toNat % 60) = time.tm_sec + int_of (secs % 60).toUInt8 := by
    rw [hsecond, int_of_rest, Int32.ofNat_add]
  have hmin : Int32.ofNat (minute + (second + secs.toNat % 60) / 60 + secs.toNat / 60 % 60) =
      (if Int32.ofNat (second + secs.toNat % 60) ≥ 60 then time.tm_min + 1 else time.tm_min) +
        int_of (secs / 60 % 60).toUInt8 := by
    have hcarry := carry_field (a := second + secs.toNat % 60) (n := minute) (r := 60) (by omega) (by decide)
    rw [hminute, int_of_rest, hdiv, Int32.ofNat_add, ← hcarry]
    rfl
  have hhours : Int32.ofNat (hour + (minute + (second + secs.toNat % 60) / 60 + secs.toNat / 60 % 60) / 60 +
        secs.toNat / 60 / 60) =
      ((if Int32.ofNat (minute + (second + secs.toNat % 60) / 60 + secs.toNat / 60 % 60) ≥ 60 then time.tm_hour + 1
        else time.tm_hour).toUInt32 + secs / 60 / 60).toInt32 := by
    have hcarry := carry_field (a := minute + (second + secs.toNat % 60) / 60 + secs.toNat / 60 % 60) (n := hour)
      (r := 60) (by omega) (by decide)
    rw [hhour, ← hdiv', ← add_hours, ← hcarry]
    rfl
  obtain ⟨hsec', hmin', hhours'⟩ := alarm_time_fields hsec hmin hhours
  refine ⟨hsec'.trans ?_, hmin'.trans ?_, hhours'.trans ?_⟩
  · exact reduce_field (r := 60) (by omega) (by decide)
  · exact reduce_field (r := 60) (by omega) (by decide)
  · exact reduce_field (r := 24) (by omega) (by decide)

end Alarm

section Registers

variable {time now : struct_tm} {c c₁ : Cmos} {fuel : ℕ} {secs : u32} {hour minute second : ℕ}

/-- What was written to a register last -/
def Cmos.stored (c : Cmos) (register : u8) : Option u8 := c.written.lookup register

/-- The registers of the alarm hold a time of day in BCD. -/
structure Cmos.AlarmAt (c : Cmos) (hour minute second : u8) : Prop where
  stored_hour : c.stored rtc.CMOS_HOUR = some hour
  stored_minute : c.stored rtc.CMOS_MINUTE = some minute
  stored_second : c.stored rtc.CMOS_SECOND = some second
  hour_valid : Bcd.Valid hour ∧ Bcd.value hour < 24
  minute_valid : Bcd.Valid minute ∧ Bcd.value minute < 60
  second_valid : Bcd.Valid second ∧ Bcd.value second < 60

/-- The clock behind the writes of `set_alarm` -/
def Cmos.armed (c : Cmos) (alarm : struct_tm) : Cmos :=
  { c with
    written := (rtc.CMOS_B, 0b00100010) :: (rtc.CMOS_SECOND, bin_to_bcd (byte_of alarm.tm_sec)) ::
      (rtc.CMOS_MINUTE, bin_to_bcd (byte_of alarm.tm_min)) ::
      (rtc.CMOS_HOUR, bin_to_bcd (byte_of alarm.tm_hour)) :: c.written
    index := rtc.CMOS_C
    reads := c.reads + 1 }

theorem set_alarm_run (h : (time_read time fuel).run c = some (now, c₁)) :
    (set_alarm time fuel secs).run c = some ((), c₁.armed (alarm_time now secs)) := by
  unfold set_alarm
  rw [StateT.run_bind, h]
  rfl

theorem armed_alarmAt {alarm : struct_tm} (hhour : alarm.tm_hour = Int32.ofNat hour)
    (hminute : alarm.tm_min = Int32.ofNat minute) (hsecond : alarm.tm_sec = Int32.ofNat second) (hhour' : hour < 24)
    (hminute' : minute < 60) (hsecond' : second < 60) :
    (c.armed alarm).AlarmAt (Bcd.encode hour) (Bcd.encode minute) (Bcd.encode second) := by
  have hregisters : (c.armed alarm).stored rtc.CMOS_HOUR = some (bin_to_bcd (byte_of alarm.tm_hour)) ∧
      (c.armed alarm).stored rtc.CMOS_MINUTE = some (bin_to_bcd (byte_of alarm.tm_min)) ∧
      (c.armed alarm).stored rtc.CMOS_SECOND = some (bin_to_bcd (byte_of alarm.tm_sec)) := ⟨rfl, rfl, rfl⟩
  have hbcd : ∀ n < 60, bin_to_bcd (byte_of (Int32.ofNat n)) = Bcd.encode n := by
    intro n hn
    rw [byte_of_ofNat, bin_to_bcd_ofNat (by omega)]
  rw [hhour, hminute, hsecond, hbcd hour (by omega), hbcd minute hminute', hbcd second hsecond'] at hregisters
  obtain ⟨hreg, hreg', hreg''⟩ := hregisters
  have hvalid : ∀ {n limit}, limit ≤ 100 → n < limit →
      Bcd.Valid (Bcd.encode n) ∧ Bcd.value (Bcd.encode n) < limit := by
    intro n limit hlimit hn
    rw [Bcd.value_encode (by omega)]
    exact ⟨Bcd.encode_valid (by omega), hn⟩
  exact ⟨hreg, hreg', hreg'', hvalid (by decide) hhour', hvalid (by decide) hminute', hvalid (by decide) hsecond'⟩

/-- Once the clock is read, `set_alarm` returns, and the alarm is `secs` seconds behind any time of day that was
read, modulo a day. -/
theorem set_alarm_exact (time : struct_tm) (secs : u32) (h : c.Settles fuel) :
    ∃ now c₁ c', (time_read time fuel).run c = some (now, c₁) ∧ (set_alarm time fuel secs).run c = some ((), c') ∧
      ∀ hour < 24, ∀ minute < 60, ∀ second < 60, now.tm_hour = Int32.ofNat hour → now.tm_min = Int32.ofNat minute →
        now.tm_sec = Int32.ofNat second → ∃ alarm_hour alarm_minute alarm_second : u8,
          c'.AlarmAt alarm_hour alarm_minute alarm_second ∧
          3600 * Bcd.value alarm_hour + 60 * Bcd.value alarm_minute + Bcd.value alarm_second =
            (3600 * hour + 60 * minute + second + secs.toNat) % 86400 := by
  obtain ⟨now, c₁, hread⟩ := time_read_settles time h
  refine ⟨now, c₁, _, hread, set_alarm_run hread, ?_⟩
  intro hour hhour minute hminute second hsecond hnow hnow' hnow''
  obtain ⟨hsec, hmin, hhours⟩ := alarm_time_eq secs hnow hnow' hnow'' hhour hminute hsecond
  have hmod : ∀ n, n % 60 < 60 := fun n => Nat.mod_lt n (by decide)
  have hmod' : ∀ n, n % 24 < 24 := fun n => Nat.mod_lt n (by decide)
  refine ⟨_, _, _, armed_alarmAt hhours hmin hsec (hmod' _) (hmod _) (hmod _), ?_⟩
  rw [Bcd.value_encode ((hmod' _).trans (by decide)), Bcd.value_encode ((hmod _).trans (by decide)),
    Bcd.value_encode ((hmod _).trans (by decide))]
  exact add_seconds hour minute second secs.toNat

end Registers

/-- From noon on, with the largest number of seconds. -/
theorem set_alarm_exact_noon : ∃ c' hour minute second,
    (set_alarm struct_tm.zero 1 0xffffffff).run (Cmos.stopped leap_day) = some ((), c') ∧
      c'.AlarmAt hour minute second ∧ 3600 * Bcd.value hour + 60 * Bcd.value minute + Bcd.value second = 66495 := by
  obtain ⟨now, c₁, c', hread, hrun, halarm⟩ := set_alarm_exact struct_tm.zero 0xffffffff (stopped_settles leap_day 0)
  obtain ⟨now', c₁', hread', hfields⟩ := time_read_stopped struct_tm.zero 0 leap_day
  obtain ⟨rfl, rfl⟩ := Prod.mk.inj (Option.some.inj (hread.symm.trans hread'))
  obtain ⟨hour, minute, second, hset, htime⟩ := halarm 12 (by decide) 0 (by decide) 0 (by decide)
    (by rw [hfields]; rfl) (by rw [hfields]; rfl) (by rw [hfields]; rfl)
  exact ⟨c', hour, minute, second, hrun, hset, htime⟩

end onix
