import Onix.Entry.Switch
import Onix.Memory.State

namespace onix.Entry

open Words

def TASK_NAME_LEN : Nat := 16

/-- `sizeof(task_frame_t)` -/
def task_frame_size : u32 := 20

/-- `sizeof(task_t)` -/
def task_size : Nat := 60

/-- `task_create` on the page that `get_free_task` has got; the name is what comes before its end. -/
def task_create (task target : u32) (task_name : List UInt8) (priority uid kernel_map : u32) (ram : Ram) : Ram :=
  let ram := fill ram task 0 0x1000
  let stack := task + 0x1000 - task_frame_size
  let ram := put ram (stack + 8) 0x11111111 -- ebx
  let ram := put ram (stack + 4) 0x22222222 -- esi
  let ram := put ram stack 0x33333333 -- edi
  let ram := put ram (stack + 12) 0x44444444 -- ebp
  let ram := put ram (stack + 16) target -- eip
  let ram := copy ram (task + 28) (task_name ++ [0]) -- name
  let ram := put ram task stack -- stack
  let ram := put ram (task + 16) priority -- priority
  let ram := put ram (task + 20) priority -- ticks
  let ram := put ram (task + 24) 0 -- jiffies
  let ram := put ram (task + 12) 2 -- state, TASK_READY
  let ram := put ram (task + 44) uid -- uid
  let ram := put ram (task + 48) KERNEL_PAGE_DIR -- pde
  let ram := put ram (task + 52) kernel_map -- vmap
  put ram (task + 56) ONIX_MAGIC -- magic

variable {task target priority uid kernel_map : u32} {task_name : List UInt8} {ram : Ram}

theorem put_offset {ram : Ram} {i j value : u32} (h : 4 ≤ (i - j).toNat ∧ (i - j).toNat ≤ 2 ^ 32 - 4) :
    word (put ram (task + j) value) (task + i) = word ram (task + i) := by
  have hdist : task + i - (task + j) = i - j := by grind
  apply word_put_apart
  · rw [hdist]
    exact h.1
  · rw [hdist]
    exact h.2

theorem copy_offset {ram : Ram} {i : u32} (hname : task_name.length < TASK_NAME_LEN)
    (h : 16 ≤ (i - 28).toNat ∧ (i - 28).toNat ≤ 2 ^ 32 - 4) :
    word (copy ram (task + 28) (task_name ++ [0])) (task + i) = word ram (task + i) := by
  have hlen : (task_name ++ [0]).length ≤ 16 := by
    rw [List.length_append]
    exact hname
  apply word_congr
  intro k hk
  apply copy_apart (by omega)
  have hdist : task + i + k - (task + 28) = i + k - 28 := by grind
  rw [hdist, distance_add k (by omega)]
  omega

/-- The frame that `task_switch` pops when the task runs for the first time. -/
def first_frame (target : u32) : List u32 := [0x33333333, 0x22222222, 0x11111111, 0x44444444, target]

theorem task_create_frame (ram : Ram) (task target priority uid kernel_map : u32)
    (hname : task_name.length < TASK_NAME_LEN) :
    word (task_create task target task_name priority uid kernel_map ram) task = task + 0xfec ∧
      Holds (task_create task target task_name priority uid kernel_map ram) (task + 0xfec) (first_frame target) := by
  have hbase : task + 0x1000 - task_frame_size = task + 0xfec := by
    unfold task_frame_size
    grind
  have hplace : ∀ i, task + 0xfec + i = task + (0xfec + i) := fun i => UInt32.add_assoc task 0xfec i
  have hzero : ∀ r, word r task = word r (task + 0) := fun r => by rw [UInt32.add_zero]
  have hput : ∀ r v, put r task v = put r (task + 0) v := fun r v => by rw [UInt32.add_zero]
  have hnext : ∀ i, task + i + 4 = task + (i + 4) := fun i => UInt32.add_assoc task i 4
  unfold task_create first_frame
  simp only [Holds, hbase, hplace, hnext, UInt32.reduceAdd]
  rw [hput _ (task + 0xfec)]
  refine ⟨?_, ?_⟩
  · rw [hzero]
    simp (disch := decide) only [put_offset, word_put]
  · simp (disch := first | decide | exact hname) only [put_offset, copy_offset, word_put, and_self]

section Apart

variable {b : u32} (h : 4096 ≤ (b - task).toNat)
include h

theorem offset_apart {i : u32} {n : Nat} (hi : i.toNat + n ≤ 4096) : n ≤ (b - (task + i)).toNat := by
  have hsplit : b - (task + i) = b - task - i := by grind
  have hle : i ≤ b - task := by
    rw [UInt32.le_iff_toNat_le]
    omega
  rw [hsplit, UInt32.toNat_sub_of_le _ _ hle]
  omega

theorem put_outside {ram : Ram} {i value : u32} (hi : i.toNat + 4 ≤ 4096) :
    put ram (task + i) value b = ram b :=
  put_apart (offset_apart h hi)

/-- Nothing outside the page of the new task changes. -/
theorem task_create_apart (hname : task_name.length < TASK_NAME_LEN) :
    task_create task target task_name priority uid kernel_map ram b = ram b := by
  have hbase : task + 0x1000 - task_frame_size = task + 0xfec := by
    unfold task_frame_size
    grind
  have hplace : ∀ i, task + 0xfec + i = task + (0xfec + i) := fun i => UInt32.add_assoc task 0xfec i
  have hput : ∀ r v, put r task v = put r (task + 0) v := fun r v => by rw [UInt32.add_zero]
  have hcopied : ∀ r, copy r (task + 28) (task_name ++ [0]) b = r b := by
    intro r
    have hlen : (task_name ++ [0]).length ≤ 16 := by
      rw [List.length_append]
      exact hname
    have hfar : 16 ≤ (b - (task + 28)).toNat := offset_apart h (by decide)
    exact copy_apart (by omega) (by omega)
  have hfilled : fill ram task 0 0x1000 b = ram b := if_neg (by omega)
  unfold task_create
  simp only [hbase, hplace, UInt32.reduceAdd]
  rw [hput _ (task + 0xfec)]
  simp (disch := decide) only [put_outside h, hcopied, hfilled]

end Apart

end onix.Entry
