import Mathlib.Data.List.GetD
import Onix.Entry.Create
import Onix.Strings.Copy

namespace onix.Entry

open Words CString

/-- `task_create` on the page of `get_free_task`, with the name where it is in memory; `none` where the turns of
`strcpy` have not been enough. -/
def task_create_named (turns : ℕ) (task target task_name priority uid kernel_map : u32) (ram : Ram) : Option Ram := do
  let ram := fill ram task 0 0x1000
  let stack := task + 0x1000 - task_frame_size
  let ram := put ram (stack + 8) 0x11111111
  let ram := put ram (stack + 4) 0x22222222
  let ram := put ram stack 0x33333333
  let ram := put ram (stack + 12) 0x44444444
  let ram := put ram (stack + 16) target
  let (_, ram) ← strcpy turns (task + 28) task_name ram
  let ram := put ram task stack
  let ram := put ram (task + 16) priority
  let ram := put ram (task + 20) priority
  let ram := put ram (task + 24) 0
  let ram := put ram (task + 12) 2
  let ram := put ram (task + 44) uid
  let ram := put ram (task + 48) KERNEL_PAGE_DIR
  let ram := put ram (task + 52) kernel_map
  return put ram (task + 56) ONIX_MAGIC

/-- The page before the name is copied -/
def framed (task target : u32) (ram : Ram) : Ram :=
  let ram := fill ram task 0 0x1000
  let ram := put ram (task + 0xfec + 8) 0x11111111
  let ram := put ram (task + 0xfec + 4) 0x22222222
  let ram := put ram (task + 0xfec) 0x33333333
  let ram := put ram (task + 0xfec + 12) 0x44444444
  put ram (task + 0xfec + 16) target

/-- What is stored behind the name -/
def finished (task priority uid kernel_map : u32) (ram : Ram) : Ram :=
  let ram := put ram task (task + 0xfec)
  let ram := put ram (task + 16) priority
  let ram := put ram (task + 20) priority
  let ram := put ram (task + 24) 0
  let ram := put ram (task + 12) 2
  let ram := put ram (task + 44) uid
  let ram := put ram (task + 48) KERNEL_PAGE_DIR
  let ram := put ram (task + 52) kernel_map
  put ram (task + 56) ONIX_MAGIC

section Steps

variable (task target task_name priority uid kernel_map : u32) (ram : Ram)

theorem stack_eq : task + 0x1000 - task_frame_size = task + 0xfec := by
  unfold task_frame_size
  grind

theorem task_create_eq (s : List UInt8) : task_create task target s priority uid kernel_map ram =
    finished task priority uid kernel_map (copy (framed task target ram) (task + 28) (s ++ [0])) := by
  unfold task_create finished framed
  rw [stack_eq]

theorem task_create_named_eq (turns : ℕ) :
    task_create_named turns task target task_name priority uid kernel_map ram =
      (strcpy turns (task + 28) task_name (framed task target ram)).bind fun r =>
        some (finished task priority uid kernel_map r.2) := by
  unfold task_create_named finished framed
  rw [stack_eq]
  rfl

end Steps

/-- What `task_create` makes of the page of a task -/
structure Created (ram ram' : Ram) (task target : u32) (s : List UInt8) (priority uid kernel_map : u32) : Prop where
  stack : word ram' task = task + 0xfec
  frame : Words.Holds ram' (task + 0xfec) (first_frame target)
  node : word ram' (task + 4) = 0 ∧ word ram' (task + 8) = 0
  state : word ram' (task + 12) = 2
  priority_eq : word ram' (task + 16) = priority
  ticks : word ram' (task + 20) = priority
  jiffies : word ram' (task + 24) = 0
  name : ∀ i < TASK_NAME_LEN, ram' (task + 28 + UInt32.ofNat i) = s.getD i 0
  uid_eq : word ram' (task + 44) = uid
  pde : word ram' (task + 48) = KERNEL_PAGE_DIR
  vmap : word ram' (task + 52) = kernel_map
  magic : word ram' (task + 56) = ONIX_MAGIC
  outside : ∀ b, 4096 ≤ (b - task).toNat → ram' b = ram b

section Copy

variable {ram : Ram} {task : u32} {s : List UInt8} (hlen : s.length < 4048)
include hlen

theorem copy_word {i : u32} (hi : i.toNat + 4 ≤ 28 ∨ 0xfec ≤ i.toNat ∧ i.toNat ≤ 4092) :
    word (copy ram (task + 28) (s ++ [0])) (task + i) = word ram (task + i) := by
  have hall : (s ++ [0]).length = s.length + 1 := List.length_append
  apply word_congr
  intro k hk
  apply copy_apart (by omega)
  have hdist : (task + i + k - (task + 28)).toNat = (i.toNat + k.toNat + (2 ^ 32 - 28)) % 2 ^ 32 := by
    have hsplit : task + i + k - (task + 28) = i + k - 28 := by grind
    have htwenty : UInt32.toNat 28 = 28 := rfl
    rw [hsplit, UInt32.toNat_sub, UInt32.toNat_add, htwenty]
    omega
  rw [hdist]
  omega

theorem copy_outside {b : u32} (hb : 4096 ≤ (b - task).toNat) : copy ram (task + 28) (s ++ [0]) b = ram b := by
  have hall : (s ++ [0]).length = s.length + 1 := List.length_append
  have hfar : 4068 ≤ (b - (task + 28)).toNat := offset_apart hb (by decide)
  exact copy_apart (by omega) (by omega)

end Copy

section Fields

variable {ram : Ram} {task target priority uid kernel_map : u32} {s : List UInt8}

theorem fill_byte {i : u32} (hi : i.toNat < 4096) : fill ram task 0 0x1000 (task + i) = 0 := by
  have hdist : task + i - task = i := by grind
  unfold fill
  rw [hdist, if_pos hi]

theorem word_fill {i : u32} (hi : i.toNat + 4 ≤ 4096) : word (fill ram task 0 0x1000) (task + i) = 0 := by
  have hbyte : ∀ k : u32, k.toNat < 4 → fill ram task 0 0x1000 (task + i + k) = 0 := by
    intro k hk
    rw [UInt32.add_assoc]
    apply fill_byte
    rw [UInt32.toNat_add]
    omega
  have hzero := hbyte 0 (by decide)
  rw [UInt32.add_zero] at hzero
  unfold word
  rw [hzero, hbyte 1 (by decide), hbyte 2 (by decide), hbyte 3 (by decide)]
  rfl

theorem put_name {ram : Ram} {j value : u32} (hj : j.toNat + 4 ≤ 28 ∨ 44 ≤ j.toNat ∧ j.toNat ≤ 4092) {i : ℕ}
    (hi : i < TASK_NAME_LEN) :
    put ram (task + j) value (task + 28 + UInt32.ofNat i) = ram (task + 28 + UInt32.ofNat i) := by
  have hlen : TASK_NAME_LEN = 16 := rfl
  have hdist : (task + 28 + UInt32.ofNat i - (task + j)).toNat = (28 + i + (2 ^ 32 - j.toNat)) % 2 ^ 32 := by
    have hsplit : task + 28 + UInt32.ofNat i - (task + j) = 28 + UInt32.ofNat i - j := by grind
    have htwenty : UInt32.toNat 28 = 28 := rfl
    rw [hsplit, UInt32.toNat_sub, UInt32.toNat_add, htwenty, UInt32.toNat_ofNat']
    omega
  apply put_apart
  rw [hdist]
  omega

/-- Up to the first 16 bytes of a name, with zeros behind its end -/
theorem copy_name {ram : Ram} (hlen : s.length < 4048) {i : ℕ} (hi : i < TASK_NAME_LEN)
    (hzero : ram (task + 28 + UInt32.ofNat i) = 0) :
    copy ram (task + 28) (s ++ [0]) (task + 28 + UInt32.ofNat i) = s.getD i 0 := by
  have hall : (s ++ [0]).length = s.length + 1 := List.length_append
  have hsixteen : TASK_NAME_LEN = 16 := rfl
  by_cases hin : i < s.length + 1
  · rw [copy_get (by omega) (by omega)]
    by_cases hlast : i < s.length
    · rw [List.getElem_append_left hlast, List.getD_eq_getElem _ _ hlast]
    · rw [List.getElem_append_right (by omega), List.getD_eq_default _ _ (by omega)]
      have hsub : i - s.length = 0 := by omega
      simp only [hsub, List.getElem_cons_zero]
  · have hfar : (task + 28 + UInt32.ofNat i - (task + 28)).toNat = i := (eq_add_iff (by omega)).mp rfl
    rw [copy_apart (by omega) (by omega), hzero, List.getD_eq_default _ _ (by omega)]

/-- Any name leaves the task as it is meant to be, but for what of the name is beyond its 16 bytes, as long as
it does not reach the frame at the end of the page. -/
theorem task_create_created (hlen : s.length < 4048) :
    Created ram (task_create task target s priority uid kernel_map ram) task target s priority uid kernel_map := by
  have hplace : ∀ i, task + 0xfec + i = task + (0xfec + i) := fun i => UInt32.add_assoc task 0xfec i
  have hzero : ∀ r, word r task = word r (task + 0) := fun r => by rw [UInt32.add_zero]
  have hput : ∀ r v, put r task v = put r (task + 0) v := fun r v => by rw [UInt32.add_zero]
  have hnext : ∀ i, task + i + 4 = task + (i + 4) := fun i => UInt32.add_assoc task i 4
  rw [task_create_eq]
  unfold finished framed
  simp only [hplace, UInt32.reduceAdd]
  rw [hput _ (task + 0xfec)]
  refine ⟨?_, ?_, ⟨?_, ?_⟩, ?_, ?_, ?_, ?_, ?_, ?_, ?_, ?_, ?_, ?_⟩
  case refine_1 =>
    rw [hzero]
    simp (disch := decide) only [put_offset, word_put]
  case refine_2 =>
    unfold first_frame
    simp (disch := first | decide | exact hlen) only [Words.Holds, hnext, UInt32.reduceAdd, put_offset, copy_word,
      word_put, and_self]
  case refine_3 | refine_4 =>
    simp (disch := first | decide | exact hlen) only [put_offset, copy_word, word_fill]
  case refine_9 =>
    intro i hi
    have hfill : fill ram task 0 0x1000 (task + 28 + UInt32.ofNat i) = 0 := by
      rw [UInt32.add_assoc]
      apply fill_byte
      rw [UInt32.toNat_add, UInt32.toNat_ofNat']
      have hsixteen : TASK_NAME_LEN = 16 := rfl
      have htwenty : UInt32.toNat 28 = 28 := rfl
      omega
    simp (disch := first | decide | exact hi) only [put_name]
    apply copy_name hlen hi
    simp (disch := first | decide | exact hi) only [put_name, hfill]
  case refine_14 =>
    intro b hb
    have hfilled : fill ram task 0 0x1000 b = ram b := if_neg (by omega)
    simp (disch := first | decide | exact hlen) only [put_outside hb, copy_outside _ hb, hfilled]
  all_goals simp (disch := decide) only [put_offset, word_put]

end Fields

section Name

variable {ram : Ram} {task task_name : u32} {s : List UInt8}
  (hs : IsString ram task_name s) (hname : ∀ i ≤ s.length, 4096 ≤ (task_name + UInt32.ofNat i - task).toNat)
include hs hname

/-- The name is still there when `strcpy` comes to it. -/
theorem name_kept (target : u32) : IsString (framed task target ram) task_name s := by
  apply hs.congr
  intro i hi
  have hfar := hname i hi
  have hfilled : fill ram task 0 0x1000 (task_name + UInt32.ofNat i) = ram (task_name + UInt32.ofNat i) :=
    if_neg (by omega)
  have hplace : ∀ i, task + 0xfec + i = task + (0xfec + i) := fun i => UInt32.add_assoc task 0xfec i
  unfold framed
  simp (disch := decide) only [hplace, UInt32.reduceAdd, put_outside hfar, hfilled]

/-- `task_create` comes to its end with a name that does not lie in the page that it clears, and the task is
whole, whatever of the name has no place in it. -/
theorem task_create_named_iff (hlen : s.length < 4048) (target priority uid kernel_map : u32) (ram' : Ram) :
    ((∃ turns, task_create_named turns task target task_name priority uid kernel_map ram = some ram') ↔
      ram' = task_create task target s priority uid kernel_map ram) ∧
    Created ram (task_create task target s priority uid kernel_map ram) task target s priority uid kernel_map := by
  refine ⟨?_, task_create_created hlen⟩
  have hkept := name_kept hs hname target
  have hinside : ¬ Inside task_name s (task + 28) := by
    rintro ⟨-, hle⟩
    have hfar := hname _ hle
    rw [add_distance, UInt32.add_comm, UInt32.add_sub_cancel] at hfar
    exact absurd hfar (by decide)
  rw [task_create_eq]
  constructor
  · rintro ⟨turns, hturns⟩
    rw [task_create_named_eq] at hturns
    obtain ⟨r, hstrcpy, hr⟩ := Option.bind_eq_some_iff.mp hturns
    obtain ⟨t, ht, -, rfl⟩ := (strcpy_iff _ _ _ r).mp ⟨turns, hstrcpy⟩
    obtain rfl := ht.unique hkept
    exact (Option.some.inj hr).symm
  · rintro rfl
    obtain ⟨turns, hstrcpy⟩ := (strcpy_iff (task + 28) task_name (framed task target ram) _).mpr ⟨s, hkept, hinside, rfl⟩
    refine ⟨turns, ?_⟩
    rw [task_create_named_eq, hstrcpy]
    rfl

end Name

/-- A name of 20 bytes, of which the task has 16 -/
theorem task_create_named_iff_long : ∃ turns ram', task_create_named turns 0x200000 0x10000 0x30000 1 0 0x40000
      (copy (fun _ => 0xff) 0x30000 (List.replicate 20 97 ++ [0])) = some ram' ∧
    word ram' 0x20002c = 0 ∧ ram' 0x20002b = 97 := by
  have hs : IsString (copy (fun _ => 0xff) 0x30000 (List.replicate 20 97 ++ [0])) 0x30000 (List.replicate 20 97) :=
    copy_isString _ _ (by simp) (by decide)
  have hname : ∀ i ≤ (List.replicate 20 (97 : UInt8)).length,
      4096 ≤ ((0x30000 : u32) + UInt32.ofNat i - 0x200000).toNat := by decide
  obtain ⟨hcreate, hcreated⟩ := task_create_named_iff hs hname (by decide) 0x10000 1 0 0x40000 _
  obtain ⟨turns, hturns⟩ := hcreate.mpr rfl
  exact ⟨turns, _, hturns, hcreated.uid_eq, hcreated.name 15 (by decide)⟩

end onix.Entry
