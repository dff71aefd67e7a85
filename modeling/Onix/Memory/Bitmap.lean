import Onix.Memory.State

namespace onix

def bitmap_make (bits length offset : u32) : bitmap_t := { bits, length, offset }

/-- The bitmap that is left in `*map`. -/
def bitmap_init (bits length start : u32) : MemoryM bitmap_t := do
  memset bits 0 length
  return bitmap_make bits length start

def bitmap_test (map : bitmap_t) (index : u32) : MemoryM Bool := do
  assert .bitmap_test_index (index ≥ map.offset)
  let idx := index - map.offset
  let bytes := idx / 8
  let bits := (idx % 8).toUInt8
  assert .bitmap_test_bytes (bytes < map.length)
  return (← load8 (map.bits + bytes)) &&& (1 <<< bits) ≠ 0

def bitmap_set (map : bitmap_t) (index : u32) (value : Bool) : MemoryM Unit := do
  assert .bitmap_set_value (value = false ∨ value = true)
  assert .bitmap_set_index (index ≥ map.offset)
  let idx := index - map.offset
  let bytes := idx / 8
  let bits := (idx % 8).toUInt8
  let byte ← load8 (map.bits + bytes)
  if value then
    store8 (map.bits + bytes) (byte ||| (1 <<< bits))
  else
    store8 (map.bits + bytes) (byte &&& ~~~(1 <<< bits))

/-- The first loop of `bitmap_scan`, for the bits that are left: the value of `start` behind it. -/
def bitmap_scan_loop (map : bitmap_t) (count : u32) : Nat → u32 → u32 → MemoryM u32
  | 0, _, _ => return EOF
  | bits_left + 1, next_bit, counter => do
    let counter := if ← bitmap_test map (map.offset + next_bit) then 0 else counter + 1
    let next_bit := next_bit + 1
    if counter = count then
      return next_bit - count
    else
      bitmap_scan_loop map count bits_left next_bit counter

def bitmap_scan (map : bitmap_t) (count : u32) : MemoryM u32 := do
  let start ← bitmap_scan_loop map count (map.length * 8).toNat 0 0
  if start = EOF then
    return EOF
  Loop.upFrom (fun next_bit => bitmap_set map (map.offset + next_bit) true) start count.toNat
  return start + map.offset

end onix
