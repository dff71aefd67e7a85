import Onix.Failure
import Onix.Library.Loops
import Onix.Kernel.State

namespace onix

abbrev u8 := UInt8
abbrev u64 := UInt64

def PAGE_SIZE : u32 := 0x1000
def MEMORY_BASE : u32 := 0x100000
def KERNEL_PAGE_DIR : u32 := 0x1000
def KERNEL_PAGE_TABLE : List u32 := [0x2000, 0x3000]

/-- `0x100000 * sizeof(KERNEL_PAGE_TABLE)` -/
def KERNEL_MEMORY_SIZE : u32 := 0x100000 * UInt32.ofNat (4 * KERNEL_PAGE_TABLE.length)

def KERNEL_MAP_BITS : u32 := 0x4000

/-- `EOF`, which is -1, as the word that an `int` is kept in -/
def EOF : u32 := 0xffffffff

def IDX (addr : u32) : u32 := addr >>> 12

def PAGE (idx : u32) : u32 := idx <<< 12

def DIDX (addr : u32) : u32 := (addr >>> 22) &&& 0x3ff

def TIDX (addr : u32) : u32 := (addr >>> 12) &&& 0x3ff

/-- `bitmap_t`; `bits` is the address of the buffer. -/
structure bitmap_t where
  bits : u32
  length : u32
  offset : u32
  deriving DecidableEq, Repr

/-- `ards_t` -/
structure ards_t where
  base : u64
  size : u64
  type : u32
  deriving DecidableEq, Repr

def ZONE_VALID : u32 := 1

/-- The bytes of the physical memory, the variables of memory.c, and the paging registers. -/
structure Memory where
  ram : u32 → u8
  memory_base : u32
  memory_size : u32
  total_pages : u32
  free_pages : u32
  start_page : u32
  /-- the address of the array -/
  memory_map : u32
  memory_map_pages : u32
  kernel_map : bitmap_t
  cr3 : u32
  /-- the highest bit of cr0 -/
  paging : Bool

abbrev MemoryM := EStateM Failure Memory

/-- The variables before `memory_init`; the boot loader has left anything in memory. -/
def Memory.cold (ram : u32 → u8) : Memory where
  ram := ram
  memory_base := 0
  memory_size := 0
  total_pages := 0
  free_pages := 0
  start_page := 0
  memory_map := 0
  memory_map_pages := 0
  kernel_map := { bits := 0, length := 0, offset := 0 }
  cr3 := 0
  paging := false

def Memory.store (s : Memory) (addr : u32) (value : u8) : Memory :=
  { s with ram := Function.update s.ram addr value }

def load8 (addr : u32) : MemoryM u8 := do return (← get).ram addr

def store8 (addr : u32) (value : u8) : MemoryM Unit := modify fun s => s.store addr value

def load32 (addr : u32) : MemoryM u32 := do
  let b0 ← load8 addr
  let b1 ← load8 (addr + 1)
  let b2 ← load8 (addr + 2)
  let b3 ← load8 (addr + 3)
  return b0.toUInt32 ||| b1.toUInt32 <<< 8 ||| b2.toUInt32 <<< 16 ||| b3.toUInt32 <<< 24

def load64 (addr : u32) : MemoryM u64 := do
  let low ← load32 addr
  let high ← load32 (addr + 4)
  return low.toUInt64 ||| high.toUInt64 <<< 32

def store32 (addr value : u32) : MemoryM Unit := do
  store8 addr value.toUInt8
  store8 (addr + 1) (value >>> 8).toUInt8
  store8 (addr + 2) (value >>> 16).toUInt8
  store8 (addr + 3) (value >>> 24).toUInt8

def memset (dest : u32) (ch : u8) (count : u32) : MemoryM Unit :=
  Loop.upFrom (fun ptr => store8 ptr ch) dest count.toNat

def div_round_up (num size : u32) : u32 := (num + size - 1) / size

/-- `ASSERT_PAGE` -/
def assert_page (a : Assertion) (addr : u32) : MemoryM Unit := assert a (addr &&& 0xfff = 0)

@[simp] theorem load8_run (addr : u32) (s : Memory) : (load8 addr).run s = .ok (s.ram addr) s := rfl

@[simp] theorem store8_run (addr : u32) (value : u8) (s : Memory) :
    (store8 addr value).run s = .ok () (s.store addr value) := rfl

end onix
