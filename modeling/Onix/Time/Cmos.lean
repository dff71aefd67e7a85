import Onix.Console.Write
import Onix.Library.Bcd
import Onix.Time.Mktime

namespace onix

def CMOS_ADDR : u16 := 0x70
def CMOS_DATA : u16 := 0x71

def CMOS_SECOND : u8 := 0x00
def CMOS_MINUTE : u8 := 0x02
def CMOS_HOUR : u8 := 0x04
def CMOS_WEEKDAY : u8 := 0x06
def CMOS_DAY : u8 := 0x07
def CMOS_MONTH : u8 := 0x08
def CMOS_YEAR : u8 := 0x09
def CMOS_CENTURY : u8 := 0x32
def CMOS_NMI : u8 := 0x80

/-- rtc.c has its own names of the registers: those of the alarm. -/
def rtc.CMOS_SECOND : u8 := 0x01
def rtc.CMOS_MINUTE : u8 := 0x03
def rtc.CMOS_HOUR : u8 := 0x05
def rtc.CMOS_B : u8 := 0x0b
def rtc.CMOS_C : u8 := 0x0c

/-- The real-time clock behind its two ports, and the variable `century` of time.c. What the registers show
can differ from one read to the next; `clock` says it for each read. The writes are a history variable, the
last one first. -/
structure Cmos where
  clock : ℕ → u8 → u8
  reads : ℕ
  index : u8
  written : List (u8 × u8)
  century : Int32

/-- Without a result, a loop has not come to its end in the turns that it was given. -/
abbrev CmosM := StateT Cmos Option

/-- The top bit of what is written to the address port masks the NMI; it is no part of the index. -/
def outb (port : u16) (value : u8) : CmosM Unit := do
  let c ← get
  if port = CMOS_ADDR then set { c with index := value &&& 0x7f }
  else if port = CMOS_DATA then set { c with written := (c.index, value) :: c.written }

def inb (port : u16) : CmosM u8 := do
  let c ← get
  if port = CMOS_DATA then
    set { c with reads := c.reads + 1 }
    return c.clock c.reads c.index
  else return 0xff

def cmos_read (addr : u8) : CmosM u8 := do
  outb CMOS_ADDR (CMOS_NMI ||| addr)
  inb CMOS_DATA

def cmos_write (addr value : u8) : CmosM Unit := do
  outb CMOS_ADDR (CMOS_NMI ||| addr)
  outb CMOS_DATA value

def bcd_to_bin (value : u8) : u8 := (value &&& (0xf : u8)) + (value >>> 4) * 10

def bin_to_bcd (value : u8) : u8 := value / 10 * 0x10 + value % 10

/-- A byte as an `int`, and the low byte of an `int`. -/
def int_of (value : u8) : Int32 := value.toUInt32.toInt32
def byte_of (value : Int32) : u8 := value.toUInt32.toUInt8

/-- `bcd_to_bin` of an `int` variable, stored back to it -/
def decoded (value : Int32) : Int32 := int_of (bcd_to_bin (byte_of value))

/-- All fields of `tm`. -/
structure struct_tm extends tm where
  tm_wday : Int32
  tm_yday : Int32
  tm_isdst : Int32
  deriving DecidableEq, Repr

/-- The loop runs at most `fuel` turns. -/
def time_read_bcd (time : struct_tm) : ℕ → CmosM struct_tm
  | 0 => failure
  | fuel + 1 => do
    let time := { time with tm_sec := int_of (← cmos_read CMOS_SECOND) }
    let time := { time with tm_min := int_of (← cmos_read CMOS_MINUTE) }
    let time := { time with tm_hour := int_of (← cmos_read CMOS_HOUR) }
    let time := { time with tm_wday := int_of (← cmos_read CMOS_WEEKDAY) }
    let time := { time with tm_mday := int_of (← cmos_read CMOS_DAY) }
    let time := { time with tm_mon := int_of (← cmos_read CMOS_MONTH) }
    let time := { time with tm_year := int_of (← cmos_read CMOS_YEAR) }
    let century := int_of (← cmos_read CMOS_CENTURY)
    modify fun c => { c with century := century }
    if time.tm_sec ≠ int_of (← cmos_read CMOS_SECOND) then time_read_bcd time fuel
    else return time

def time_read (time : struct_tm) (fuel : ℕ) : CmosM struct_tm := do
  let time ← time_read_bcd time fuel
  let time := { time with tm_sec := decoded time.tm_sec }
  let time := { time with tm_min := decoded time.tm_min }
  let time := { time with tm_hour := decoded time.tm_hour }
  let time := { time with tm_wday := decoded time.tm_wday }
  let time := { time with tm_mday := decoded time.tm_mday }
  let time := { time with tm_mon := decoded time.tm_mon }
  let time := { time with tm_year := decoded time.tm_year }
  let time := { time with tm_yday := get_yday time.totm }
  let time := { time with tm_isdst := -1 }
  modify fun c => { c with century := decoded c.century }
  return time

/-- The time of the alarm that `set_alarm` computes from the current time. -/
def alarm_time (time : struct_tm) (secs : u32) : struct_tm :=
  let sec := (secs % 60).toUInt8
  let secs := secs / 60
  let min := (secs % 60).toUInt8
  let secs := secs / 60
  let hour := secs
  let time := { time with tm_sec := time.tm_sec + int_of sec }
  let time :=
    if time.tm_sec ≥ 60 then { time with tm_sec := time.tm_sec % 60, tm_min := time.tm_min + 1 } else time
  let time := { time with tm_min := time.tm_min + int_of min }
  let time :=
    if time.tm_min ≥ 60 then { time with tm_min := time.tm_min % 60, tm_hour := time.tm_hour + 1 } else time
  let time := { time with tm_hour := (time.tm_hour.toUInt32 + hour).toInt32 }
  if time.tm_hour ≥ 24 then { time with tm_hour := time.tm_hour % 24 } else time

/-- `time` is what the local variable holds before it is read. -/
def set_alarm (time : struct_tm) (fuel : ℕ) (secs : u32) : CmosM Unit := do
  let time ← time_read time fuel
  let time := alarm_time time secs
  cmos_write rtc.CMOS_HOUR (bin_to_bcd (byte_of time.tm_hour))
  cmos_write rtc.CMOS_MINUTE (bin_to_bcd (byte_of time.tm_min))
  cmos_write rtc.CMOS_SECOND (bin_to_bcd (byte_of time.tm_sec))
  cmos_write rtc.CMOS_B 0b00100010
  let _ ← cmos_read rtc.CMOS_C

end onix
