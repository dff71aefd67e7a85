import Onix.Memory.Stores

namespace onix

abbrev u16 := UInt16

def CRT_ADDR_REG : u16 := 0x3D4
def CRT_DATA_REG : u16 := 0x3D5

def CRT_START_ADDR_H : u8 := 0xC
def CRT_START_ADDR_L : u8 := 0xD
def CRT_CURSOR_H : u8 := 0xE
def CRT_CURSOR_L : u8 := 0xF

def MEM_BASE : u32 := 0xB8000
def MEM_SIZE : u32 := 0x4000
def MEM_END : u32 := MEM_BASE + MEM_SIZE
def WIDTH : u32 := 80
def HEIGHT : u32 := 25
def ROW_SIZE : u32 := WIDTH * 2
def SCR_SIZE : u32 := ROW_SIZE * HEIGHT

def NUL : u8 := 0x00
def ENQ : u8 := 0x05
def ESC : u8 := 0x1B
def BEL : u8 := 0x07
def BS : u8 := 0x08
def HT : u8 := 0x09
def LF : u8 := 0x0A
def VT : u8 := 0x0B
def FF : u8 := 0x0C
def CR : u8 := 0x0D
def DEL : u8 := 0x7F

/-- No code assigns `attr` and `erase`. -/
def attr : u8 := 7
def erase : u16 := 0x0720

/-- Observations of the console. The log is a history variable: no modelled function reads it. -/
inductive Access where
  | stored (addr : u32)
  | subtracted (a b : u32)
  deriving DecidableEq, Repr

/-- The static variables of console.c, memory, and the registers of the CRT controller behind its
index register. -/
structure Console where
  ram : u32 → u8
  crt_index : u8
  crt : u8 → u8
  screen : u32
  pos : u32
  x : u32
  y : u32
  log : List Access

namespace Console

def outb (port : u16) (value : u8) (c : Console) : Console :=
  if port = CRT_ADDR_REG then { c with crt_index := value }
  else if port = CRT_DATA_REG then { c with crt := Function.update c.crt c.crt_index value }
  else c

def store8 (addr : u32) (value : u8) (c : Console) : Console :=
  { c with ram := Function.update c.ram addr value, log := .stored addr :: c.log }

def store16 (addr : u32) (value : u16) (c : Console) : Console :=
  (c.store8 addr value.toUInt8).store8 (addr + 1) (value >>> 8).toUInt8

def store32 (addr : u32) (value : u32) (c : Console) : Console :=
  (c.store16 addr value.toUInt16).store16 (addr + 2) (value >>> 16).toUInt16

/-- `b` is subtracted from `a`. -/
def subtract (a b : u32) (c : Console) : Console := { c with log := .subtracted a b :: c.log }

/-- `pos -= n` -/
def sub_pos (n : u32) (c : Console) : Console := { c.subtract c.pos n with pos := c.pos - n }

/-- `x -= n` -/
def sub_x (n : u32) (c : Console) : Console := { c.subtract c.x n with x := c.x - n }

def memcpy (dest src : u32) : Nat → Console → Console
  | 0, c => c
  | count + 1, c => memcpy (dest + 1) (src + 1) count (c.store8 dest (c.ram src))

def set_screen (c : Console) : Console :=
  let c := c.outb CRT_ADDR_REG CRT_START_ADDR_H
  let c := c.subtract c.screen MEM_BASE
  let c := c.outb CRT_DATA_REG (((c.screen - MEM_BASE) >>> 9) &&& 0xff).toUInt8
  let c := c.outb CRT_ADDR_REG CRT_START_ADDR_L
  let c := c.subtract c.screen MEM_BASE
  c.outb CRT_DATA_REG (((c.screen - MEM_BASE) >>> 1) &&& 0xff).toUInt8

def set_cursor (c : Console) : Console :=
  let c := c.outb CRT_ADDR_REG CRT_CURSOR_H
  let c := c.subtract c.pos MEM_BASE
  let c := c.outb CRT_DATA_REG (((c.pos - MEM_BASE) >>> 9) &&& 0xff).toUInt8
  let c := c.outb CRT_ADDR_REG CRT_CURSOR_L
  let c := c.subtract c.pos MEM_BASE
  c.outb CRT_DATA_REG (((c.pos - MEM_BASE) >>> 1) &&& 0xff).toUInt8

/-- The loop of `scroll_up` for the turns that are left; `ptr` has the type `u32 *`. -/
def scroll_up_loop (ptr : u32) : Nat → Console → Console
  | 0, c => c
  | turns + 1, c => scroll_up_loop (ptr + 4) turns (c.store32 ptr erase.toUInt32)

/-- The branch of `scroll_up` at the end of video memory: the window is copied to its start. -/
def scroll_back (c : Console) : Console :=
  let c := c.memcpy MEM_BASE c.screen SCR_SIZE.toNat
  let c := c.subtract c.screen MEM_BASE
  let c := c.sub_pos (c.screen - MEM_BASE)
  { c with screen := MEM_BASE }

def scroll_up (c : Console) : Console :=
  let c := if c.screen + SCR_SIZE + ROW_SIZE ≥ MEM_END then c.scroll_back else c
  let c := c.scroll_up_loop (c.screen + SCR_SIZE) WIDTH.toNat
  let c := { c with screen := c.screen + ROW_SIZE }
  let c := { c with pos := c.pos + ROW_SIZE }
  c.set_screen

def command_lf (c : Console) : Console :=
  if c.y + 1 < HEIGHT then { c with y := c.y + 1, pos := c.pos + ROW_SIZE } else c.scroll_up

def command_cr (c : Console) : Console := { c.sub_pos (c.x <<< 1) with x := 0 }

def command_bs (c : Console) : Console :=
  if c.x ≠ 0 then
    let c := c.sub_x 1
    let c := c.sub_pos 2
    c.store16 c.pos erase
  else c

def command_del (c : Console) : Console := c.store16 c.pos erase

/-- The `default` case of `console_write`. -/
def put_char (ch : u8) (c : Console) : Console :=
  let c :=
    if c.x ≥ WIDTH then
      let c := c.sub_x WIDTH
      let c := c.sub_pos ROW_SIZE
      c.command_lf
    else c
  let c := c.store8 c.pos ch
  let c := { c with pos := c.pos + 1 }
  let c := c.store8 c.pos attr
  let c := { c with pos := c.pos + 1 }
  { c with x := c.x + 1 }

/-- The `switch` of `console_write`. What `start_beep` does is not seen on the console. -/
def write_char (c : Console) (ch : u8) : Console :=
  if ch = NUL then c
  else if ch = ENQ then c
  else if ch = ESC then c
  else if ch = BEL then c
  else if ch = BS then c.command_bs
  else if ch = HT then c
  else if ch = LF then c.command_lf.command_cr
  else if ch = VT then c
  else if ch = FF then c.command_lf
  else if ch = CR then c.command_cr
  else if ch = DEL then c.command_del
  else c.put_char ch

/-- The loop of `console_write` over the bytes that are left in `buf`. -/
def console_write_loop (buf : List u8) (c : Console) : Console := buf.foldl write_char c

def console_write (c : Console) (buf : List u8) : Console := (c.console_write_loop buf).set_cursor

/-- The loop of `console_clear`; `ptr` has the type `u16 *`. -/
def console_clear_loop (ptr : u32) (c : Console) : Console :=
  if ptr < MEM_END then console_clear_loop (ptr + 2) (c.store16 ptr erase) else c
termination_by MEM_END.toNat - ptr.toNat
decreasing_by
  rename_i hptr
  have hend : MEM_END.toNat = 0xBC000 := rfl
  rw [UInt32.lt_iff_toNat_lt] at hptr
  have hnext : (ptr + UInt32.ofNat 2).toNat = ptr.toNat + 2 := add_ofNat_toNat (by omega)
  change _ - (ptr + UInt32.ofNat 2).toNat < _
  omega

def console_clear (c : Console) : Console :=
  let c := { c with screen := MEM_BASE, pos := MEM_BASE, x := 0, y := 0 }
  let c := c.set_cursor
  let c := c.set_screen
  c.console_clear_loop MEM_BASE

def console_init (c : Console) : Console := c.console_clear

/-- The console before `console_init`, on any memory and any CRT controller. -/
def cold (ram : u32 → u8) (crt_index : u8) (crt : u8 → u8) : Console where
  ram := ram
  crt_index := crt_index
  crt := crt
  screen := 0
  pos := 0
  x := 0
  y := 0
  log := []

/-- The calls of `console_write` behind `console_init`. -/
def console_writes (calls : List (List u8)) (c : Console) : Console := calls.foldl console_write c.console_init

end Console

end onix
