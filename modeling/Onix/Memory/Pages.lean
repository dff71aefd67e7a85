import Onix.Memory.Bitmap

namespace onix

section Init

/-- `*ptr` -/
def load_ards (ptr : u32) : MemoryM ards_t := do
  let base ← load64 ptr
  let size ← load64 (ptr + 8)
  let type ← load32 (ptr + 16)
  return { base, size, type }

/-- The loop of `memory_init`, for the entries that are left. -/
def memory_init_loop : Nat → u32 → MemoryM Unit
  | 0, _ => pure ()
  | count + 1, ptr => do
    let ards ← load_ards ptr
    if ards.type = ZONE_VALID ∧ ards.size > (← get).memory_size.toUInt64 then
      modify fun s => { s with memory_base := ards.base.toUInt32, memory_size := ards.size.toUInt32 }
    memory_init_loop count (ptr + 20)

def memory_init (magic addr : u32) : MemoryM Unit := do
  if magic = ONIX_MAGIC then
    let count ← load32 addr
    memory_init_loop count.toNat (addr + 4)
  else
    throw (.panic (.memory_magic magic))
  assert .memory_init_base ((← get).memory_base = MEMORY_BASE)
  assert .memory_init_align ((← get).memory_size &&& 0xfff = 0)
  modify fun s =>
    { s with total_pages := IDX s.memory_size + IDX MEMORY_BASE, free_pages := IDX s.memory_size }
  let memory_size := (← get).memory_size
  if memory_size < KERNEL_MEMORY_SIZE then
    throw (.panic (.memory_too_small (memory_size / MEMORY_BASE) (KERNEL_MEMORY_SIZE / MEMORY_BASE)))

def memory_map_init : MemoryM Unit := do
  modify fun s =>
    { s with
      memory_map := s.memory_base
      memory_map_pages := div_round_up s.total_pages PAGE_SIZE }
  modify fun s => { s with free_pages := s.free_pages - s.memory_map_pages }
  memset (← get).memory_map 0 ((← get).memory_map_pages * PAGE_SIZE)
  modify fun s => { s with start_page := IDX MEMORY_BASE + s.memory_map_pages }
  Loop.upTo (← get).start_page fun i => do
    store8 ((← get).memory_map + i) 1
  let length := (IDX KERNEL_MEMORY_SIZE - IDX MEMORY_BASE) / 8
  let map ← bitmap_init KERNEL_MAP_BITS length (IDX MEMORY_BASE)
  modify fun s => { s with kernel_map := map }
  let _ ← bitmap_scan (← get).kernel_map (← get).memory_map_pages

end Init

section PhysicalPages

/-- The loop of `get_page`, for the indices from `i` that are left. -/
def get_page_loop (i : u32) : Nat → MemoryM u32
  | 0 => throw (.panic .out_of_memory)
  | n + 1 => do
    let memory_map := (← get).memory_map
    if (← load8 (memory_map + i)) = 0 then
      store8 (memory_map + i) 1
      assert .get_page_free ((← get).free_pages > 0)
      modify fun s => { s with free_pages := s.free_pages - 1 }
      return PAGE i
    else
      get_page_loop (i + 1) n

def get_page : MemoryM u32 := do
  let s ← get
  get_page_loop s.start_page (s.total_pages.toNat - s.start_page.toNat)

def put_page (addr : u32) : MemoryM Unit := do
  assert_page .put_page_align addr
  let idx := IDX addr
  assert .put_page_range (idx ≥ (← get).start_page ∧ idx < (← get).total_pages)
  let memory_map := (← get).memory_map
  assert .put_page_used ((← load8 (memory_map + idx)) ≥ 1)
  store8 (memory_map + idx) ((← load8 (memory_map + idx)) - 1)
  if (← load8 (memory_map + idx)) = 0 then
    modify fun s => { s with free_pages := s.free_pages + 1 }
  assert .put_page_free ((← get).free_pages > 0 ∧ (← get).free_pages < (← get).total_pages)

end PhysicalPages

section Paging

def set_cr3 (pde : u32) : MemoryM Unit := do
  assert_page .set_cr3_align pde
  modify fun s => { s with cr3 := pde }

def enable_page : MemoryM Unit := modify fun s => { s with paging := true }

/-- Write a bit field of a `page_entry_t`: the `width` bits of the word at `entry` from `at` on. -/
def set_field (entry «at» width value : u32) : MemoryM Unit := do
  let mask := (((1 : u32) <<< width) - 1) <<< «at»
  store32 entry (((← load32 entry) &&& ~~~mask) ||| ((value <<< «at») &&& mask))

def entry_init (entry index : u32) : MemoryM Unit := do
  store32 entry 0
  set_field entry 0 1 1
  set_field entry 1 1 1
  set_field entry 2 1 1
  set_field entry 12 20 index

/-- A turn of the inner loop of `mapping_init`. -/
def map_entry (pte tidx index : u32) : MemoryM Unit := do
  if index ≠ 0 then
    entry_init (pte + 4 * tidx) index
    store8 ((← get).memory_map + index) 1

/-- A turn of the outer loop of `mapping_init`; `index` goes on from the turns of the inner loops before. -/
def map_table (pte didx index : u32) : MemoryM Unit := do
  memset pte 0 PAGE_SIZE
  entry_init (KERNEL_PAGE_DIR + 4 * didx) (IDX pte)
  Loop.upTo 1024 fun tidx => map_entry pte tidx (index + tidx)

/-- The outer loop of `mapping_init`, for the tables that are left. -/
def mapping_init_loop : List u32 → u32 → u32 → MemoryM Unit
  | [], _, _ => pure ()
  | pte :: tables, didx, index => do
    map_table pte didx index
    mapping_init_loop tables (didx + 1) (index + 1024)

def mapping_init : MemoryM Unit := do
  memset KERNEL_PAGE_DIR 0 PAGE_SIZE
  mapping_init_loop KERNEL_PAGE_TABLE 0 0
  entry_init (KERNEL_PAGE_DIR + 4 * 1023) (IDX KERNEL_PAGE_DIR)
  set_cr3 KERNEL_PAGE_DIR
  enable_page

def get_pde : u32 := 0xfffff000

def get_pte (vaddr : u32) : u32 := (0xffc00000 : u32) ||| (DIDX vaddr <<< (12 : u32))

end Paging

section KernelPages

def scan_page (map : bitmap_t) (count : u32) : MemoryM u32 := do
  assert .scan_page_count (count > 0)
  let index ← bitmap_scan map count
  if index = EOF then
    throw (.panic .scan_page_fail)
  return PAGE index

def reset_page (map : bitmap_t) (addr count : u32) : MemoryM Unit := do
  assert_page .reset_page_align addr
  assert .reset_page_count (count > 0)
  let index := IDX addr
  Loop.upTo count fun i => do
    assert .reset_page_test (← bitmap_test map (index + i))
    bitmap_set map (index + i) false

def alloc_kpage (count : u32) : MemoryM u32 := do
  assert .alloc_kpage_count (count > 0)
  scan_page (← get).kernel_map count

def free_kpage (vaddr count : u32) : MemoryM Unit := do
  assert_page .free_kpage_align vaddr
  assert .free_kpage_count (count > 0)
  reset_page (← get).kernel_map vaddr count

end KernelPages

/-- The part of `kernel_init` in memory.c. -/
def kernel_init : MemoryM Unit := do
  memory_map_init
  mapping_init

end onix
