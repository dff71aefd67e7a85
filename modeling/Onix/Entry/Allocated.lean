import Onix.Entry.Transparent
import Onix.Memory.Extents

/-! The pages of the tasks, from the allocator that gives out the other pages of the kernel. -/

namespace onix.Entry

open I386 Outcome

def NR_TASKS : Nat := 64

/-- `get_free_task` from one slot of `task_table` on, where 0 is `NULL`: the page, and the slots with it. -/
def get_free_task : List u32 → MemoryM (u32 × List u32)
  | [] => throw (.panic .no_more_tasks)
  | slot :: slots =>
    if slot = 0 then do
      let page ← alloc_kpage 1
      return (page, page :: slots)
    else do
      let (page, slots) ← get_free_task slots
      return (page, slot :: slots)

/-- The tasks with the variables of memory.c, `task_table`, and the extents of kernel pages that are live and
are no tasks. -/
structure Tasking where
  system : System
  memory : Memory
  task_table : List u32
  live : List (u32 × u32)

namespace Tasking

def tasks (m : Tasking) : List u32 := m.task_table.filter (· ≠ 0)

/-- All the extents that are live. -/
def extents (m : Tasking) : List (u32 × u32) := m.live ++ m.tasks.map (·, 1)

inductive Event where
  | run (e : Entry.Event)
  | alloc_kpage (vaddr count : u32)
  | free_kpage (vaddr count : u32)
  | task_create (page target : u32)

/-- The code of a task computes but does not write into the kernel's map, and otherwise goes on with `c` when a
call of the allocator returns. -/
inductive Step (k : Image) (m : Tasking) : Event → Tasking → Prop where
  | run {e : Entry.Event} {t : System} (hstep : Entry.Step k m.system e t)
      (hrun : ∀ page target, e ≠ .create page target)
      (hmap : e = .compute → ∀ a ∈ m.memory.kernel_map.buffer, t.cpu.ram a = m.system.cpu.ram a) :
      Step k m (.run e) { m with system := t, memory := { m.memory with ram := t.cpu.ram } }
  | alloc_kpage {vaddr count : u32} {s' : Memory} {c : Cpu}
      (hrun : (onix.alloc_kpage count).run m.memory = .ok vaddr s') (hram : c.ram = s'.ram)
      (hesp : (c.esp - m.system.current).toNat ≤ bottom m.system.current (m.system.records m.system.current)) :
      Step k m (.alloc_kpage vaddr count)
        { m with system := { m.system with cpu := c }, memory := s', live := (vaddr, count) :: m.live }
  | free_kpage {vaddr count : u32} {s' : Memory} {c : Cpu} (hlive : (vaddr, count) ∈ m.live)
      (hrun : (onix.free_kpage vaddr count).run m.memory = .ok () s') (hram : c.ram = s'.ram)
      (hesp : (c.esp - m.system.current).toNat ≤ bottom m.system.current (m.system.records m.system.current)) :
      Step k m (.free_kpage vaddr count)
        { m with system := { m.system with cpu := c }, memory := s', live := m.live.erase (vaddr, count) }
  | task_create (page target priority uid kernel_map : u32) (task_name : List UInt8) {task_table : List u32}
      {s' : Memory} {c : Cpu} (hrun : (get_free_task m.task_table).run m.memory = .ok (page, task_table) s')
      (hram : c.ram = s'.ram)
      (hesp : (c.esp - m.system.current).toNat ≤ bottom m.system.current (m.system.records m.system.current))
      (hname : task_name.length < TASK_NAME_LEN) :
      Step k m (.task_create page target)
        { system := System.create { m.system with cpu := c } page target priority uid kernel_map task_name
          memory := { s' with ram := Entry.task_create page target task_name priority uid kernel_map s'.ram }
          task_table := task_table
          live := m.live }

/-- `task_init` begins on the page of the boot stack, with the memory that `mapping_init` has left. -/
structure Starts (first : u32) (s₁ : Memory) (m : Tasking) : Prop where
  boot : Boot m.system
  current : m.system.current = first
  ram : m.system.cpu.ram = s₁.ram
  memory : m.memory = s₁
  task_table : m.task_table = List.replicate NR_TASKS 0
  live : m.live = []

def Reachable (k : Image) (first : u32) (s₁ : Memory) : Tasking → Prop :=
  Runs.Reach (Starts first s₁) fun m m' => ∃ e, Step k m e m'

end Tasking

section FreeTask

variable {table pre post : List u32} {s s' : Memory} {page : u32}

theorem get_free_task_full (h : 0 ∉ table) (s : Memory) :
    (get_free_task table).run s = .error (.panic .no_more_tasks) s := by
  induction table with
  | nil => rfl
  | cons slot slots ih =>
    simp only [List.mem_cons, not_or] at h
    rw [get_free_task, if_neg (Ne.symm h.1)]
    exact bind_of_error (ih h.2) _

/-- The first slot that is `NULL` gets the page. -/
theorem get_free_task_ok (h : 0 ∉ pre) (hrun : (alloc_kpage 1).run s = .ok page s') :
    (get_free_task (pre ++ 0 :: post)).run s = .ok (page, pre ++ page :: post) s' := by
  induction pre with
  | nil =>
    rw [List.nil_append, get_free_task, if_pos rfl]
    exact bind_of_ok hrun _
  | cons slot slots ih =>
    simp only [List.mem_cons, not_or] at h
    rw [List.cons_append, get_free_task, if_neg (Ne.symm h.1)]
    exact bind_of_ok (ih h.2) _

theorem get_free_task_error {e : Failure} (h : 0 ∉ pre) (hrun : (alloc_kpage 1).run s = .error e s') :
    (get_free_task (pre ++ 0 :: post)).run s = .error e s' := by
  induction pre with
  | nil =>
    rw [List.nil_append, get_free_task, if_pos rfl]
    exact bind_of_error hrun _
  | cons slot slots ih =>
    simp only [List.mem_cons, not_or] at h
    rw [List.cons_append, get_free_task, if_neg (Ne.symm h.1)]
    exact bind_of_error (ih h.2) _

/-- Whatever comes of it is what comes of one page, for the first slot that is `NULL`. -/
theorem get_free_task_eq_ok {table' : List u32} (hrun : (get_free_task table).run s = .ok (page, table') s') :
    ∃ pre post, table = pre ++ 0 :: post ∧ 0 ∉ pre ∧ table' = pre ++ page :: post ∧
      (alloc_kpage 1).run s = .ok page s' := by
  by_cases hslot : 0 ∈ table
  · obtain ⟨pre, post, rfl, hpre⟩ := List.eq_append_cons_of_mem hslot
    cases halloc : (alloc_kpage 1).run s with
    | ok page' t =>
      rw [get_free_task_ok hpre halloc] at hrun
      cases hrun
      exact ⟨pre, post, rfl, hpre, rfl, rfl⟩
    | error e t =>
      rw [get_free_task_error hpre halloc] at hrun
      cases hrun
  · rw [get_free_task_full hslot] at hrun
    cases hrun

end FreeTask

section Outside

variable {k : Image} {s t : System} {e : Entry.Event} {b : u32}

/-- What interrupts, the return from them and `task_switch` write is in the page of the task that runs. -/
theorem Step.outside (h : Inv s) (hstep : Step k s e t) (hrun : ∀ page target, e ≠ .create page target)
    (hcompute : e ≠ .compute) (hb : 4096 ≤ (b - s.current).toNat) : t.cpu.ram b = s.cpu.ram b := by
  have hsize : task_size = 60 := rfl
  have hesp := h.esp
  have hbottom := (h.stacked _ h.current).bottom
  cases hstep with
  | compute => exact absurd rfl hcompute
  | create page target => exact absurd rfl (hrun page target)
  | interrupt vector hroom =>
    obtain ⟨-, hram⟩ := enter_stack (k := k) s.cpu vector
    have hlen : 4 * (k.addr_interrupt_exit :: vector :: handler_frame s.cpu vector).length = 76 := by
      simp [handler_frame, interrupt_frame]
    have hframe : 4 * (k.addr_interrupt_exit :: vector :: handler_frame s.cpu vector).length ≤
        (s.cpu.esp - s.current).toNat := by omega
    exact (congrFun hram b).trans (pushed_apart hframe (.inl (by omega)))
  | exit vector c rest hrecords hframe =>
    change (k.exit s.cpu).ram b = _
    rw [h.exit_eq hrecords hframe]
  | switch next hnext hargument hroom =>
    obtain ⟨-, -, -, -, -, hram, -⟩ := h.switch_eq hnext hargument hroom (k := k)
    exact (congrFun hram b).trans (h.saved_ram_apart hroom (by omega))

end Outside

namespace Tasking

section Bits

variable {s₁ : Memory} {o : Leasing} {arena : Arena kpage_cells}

/-- Bytes outside of the kernel's map do not matter to what is leased. -/
theorem leased_of_ram (h : Leased s₁ o arena) {ram : Words.Ram}
    (hram : ∀ a ∈ o.memory.kernel_map.buffer, ram a = o.memory.ram a) :
    Leased s₁ ⟨{ o.memory with ram }, o.live⟩ arena := by
  have hwrites : o.memory.Writes (o.memory.kernel_map.buffer)ᶜ { o.memory with ram } :=
    ⟨rfl, fun a ha => hram a (not_not.mp ha)⟩
  refine ⟨?_, h.layout.of_writes hwrites, h.reserved, h.size, h.live, h.aligned, ?_⟩
  · rw [h.vars]
  · intro j hj
    have hbit := hwrites.bit disjoint_compl_right (hj.trans_eq h.layout.map_size.symm)
    change Memory.bit _ o.memory.kernel_map j = true ↔ _
    rw [hbit]
    exact h.bits j hj

theorem buffer_range (h : o.memory.Layout) {a : u32} (ha : a ∈ o.memory.kernel_map.buffer) :
    0x4000 ≤ a.toNat ∧ a.toNat < 0x5000 := by
  rw [h.kernel_map] at ha
  have hspan : a ∈ span 0x4000 224 := ha
  have hin := (mem_span_iff (by decide)).mp hspan
  have hbase : UInt32.toNat 0x4000 = 0x4000 := rfl
  omega

theorem extent_range (h : Leased s₁ o arena) {e : u32 × u32} (he : e ∈ o.live) {a : u32} (ha : a ∈ extent e) :
    0x100000 ≤ a.toNat := by
  obtain ⟨halign, hlow, hend⟩ := h.range he
  obtain ⟨hfrom, -⟩ := (mem_extent_iff hend halign).mp ha
  omega

/-- The order of the extents does not matter. -/
theorem leased_of_perm (h : Leased s₁ o arena) {l : List (u32 × u32)} (hperm : o.live.Perm l) :
    ∃ arena', Leased s₁ ⟨o.memory, l⟩ arena' := by
  have hlive : arena.live.Perm l := by rwa [← h.live]
  refine ⟨arena.rearrange hlive, h.vars, h.layout, h.reserved, h.size, rfl, ?_, fun j hj => ?_⟩
  · exact fun e he => h.aligned e (hperm.mem_iff.mpr he)
  · rw [Arena.used_rearrange]
    exact h.bits j hj

end Bits

/-- The allocator and the tasks agree: the extents that are leased are those of the tasks and the others, and
the pages of the tasks are those of `task_table`, with the one of the boot stack. -/
structure Inv (k : Image) (first : u32) (s₁ : Memory) (m : Tasking) : Prop where
  reachable : Entry.Reachable k m.system
  ram : m.memory.ram = m.system.cpu.ram
  leased : ∃ arena, Leased s₁ ⟨m.memory, m.extents⟩ arena
  pages : ∀ page, page ∈ m.system.pages ↔ page = first ∨ page ∈ m.tasks
  slots : m.task_table.length = NR_TASKS

section Steps

variable {k : Image} {first : u32} {s₁ : Memory} {m m' : Tasking}

theorem Starts.inv (hboot : Unleased s₁) (h : m.Starts first s₁) : m.Inv k first s₁ := by
  have htasks : m.tasks = [] := by
    unfold tasks
    rw [h.task_table]
    decide
  have hextents : m.extents = [] := by
    unfold extents
    rw [h.live, htasks]
    rfl
  refine ⟨.init h.boot, by rw [h.memory, h.ram], ⟨_, by rw [h.memory, hextents]; exact hboot.leased⟩, ?_, ?_⟩
  · intro page
    rw [h.boot.pages, h.current, htasks]
    simp
  · rw [h.task_table, List.length_replicate]

theorem mem_extents {page : u32} (h : page ∈ m.tasks) : (page, 1) ∈ m.extents :=
  List.mem_append_right _ (List.mem_map_of_mem h)

/-- The pages of the tasks lie where the allocator has its pages. -/
theorem Inv.task_range (h : m.Inv k first s₁) {page : u32} (hpage : page ∈ m.tasks) :
    page.toNat % 4096 = 0 ∧ 0x100000 ≤ page.toNat ∧ page.toNat + 4096 ≤ 0x800000 := by
  obtain ⟨arena, hleased⟩ := h.leased
  obtain ⟨halign, hlow, hend⟩ := hleased.range (mem_extents hpage)
  change page.toNat / 4096 + 1 ≤ 2048 at hend
  change page.toNat % 4096 = 0 at halign
  change 256 + _ ≤ page.toNat / 4096 at hlow
  omega

theorem Inv.small (h : m.Inv k first s₁) : m.memory.kernel_map.Small := by
  obtain ⟨arena, hleased⟩ := h.leased
  exact hleased.layout.small

variable (hfirst : 0x5000 ≤ first.toNat ∧ first.toNat < 0x100000)
include hfirst

/-- The kernel's map lies below all the pages of tasks. -/
theorem Inv.map_below (h : m.Inv k first s₁) {page a : u32} (hpage : page ∈ m.system.pages)
    (ha : a ∈ m.memory.kernel_map.buffer) : 4096 ≤ (a - page).toNat := by
  obtain ⟨arena, hleased⟩ := h.leased
  have hbuffer := buffer_range hleased.layout ha
  have hrange : 0x5000 ≤ page.toNat ∧ page.toNat ≤ 0x800000 := by
    rcases (h.pages page).mp hpage with rfl | htask
    · omega
    · have hin := h.task_range htask
      omega
  rw [UInt32.toNat_sub]
  omega

/-- The allocator writes where no task has its page. -/
theorem Inv.allocator (h : m.Inv k first s₁) {s' : Memory} {c : Cpu}
    (hwrites : m.memory.Writes m.memory.kernel_map.buffer s') (hram : c.ram = s'.ram)
    (hesp : (c.esp - m.system.current).toNat ≤ bottom m.system.current (m.system.records m.system.current)) :
    Entry.Reachable k { m.system with cpu := c } := by
  refine .step h.reachable ⟨_, .compute c hesp fun a ha page hpage hin => ?_⟩
  by_contra
  apply ha
  rw [hram, hwrites.ram, h.ram]
  intro hbuffer
  have hfar := h.map_below hfirst hpage hbuffer
  omega

theorem Inv.run (h : m.Inv k first s₁) {e : Entry.Event} {t : System} (hstep : Entry.Step k m.system e t)
    (hrun : ∀ page target, e ≠ .create page target)
    (hmap : e = .compute → ∀ a ∈ m.memory.kernel_map.buffer, t.cpu.ram a = m.system.cpu.ram a) :
    Inv k first s₁ { m with system := t, memory := { m.memory with ram := t.cpu.ram } } := by
  have hinv := h.reachable.inv
  have hpages : t.pages = m.system.pages := by
    cases hstep with
    | create page target => exact absurd rfl (hrun page target)
    | compute | interrupt | exit | switch => rfl
  obtain ⟨arena, hleased⟩ := h.leased
  refine ⟨.step h.reachable ⟨e, hstep⟩, rfl, ⟨arena, leased_of_ram hleased fun a ha => ?_⟩, ?_, h.slots⟩
  · change t.cpu.ram a = m.memory.ram a
    rw [h.ram]
    by_cases hcompute : e = .compute
    · exact hmap hcompute a ha
    · exact hstep.outside hinv hrun hcompute (h.map_below hfirst hinv.current ha)
  · intro page
    change page ∈ t.pages ↔ _
    rw [hpages]
    exact h.pages page

theorem Inv.alloc (h : m.Inv k first s₁) {vaddr count : u32} {s' : Memory} {c : Cpu}
    (hrun : (onix.alloc_kpage count).run m.memory = .ok vaddr s') (hram : c.ram = s'.ram)
    (hesp : (c.esp - m.system.current).toNat ≤ bottom m.system.current (m.system.records m.system.current)) :
    Inv k first s₁
      { m with system := { m.system with cpu := c }, memory := s', live := (vaddr, count) :: m.live } := by
  obtain ⟨arena, hleased⟩ := h.leased
  obtain ⟨-, -, -, -, hwrites, -⟩ := alloc_kpage_ok h.small hrun
  exact ⟨h.allocator hfirst hwrites hram hesp, hram.symm, hleased.alloc hrun, h.pages, h.slots⟩

theorem Inv.free (h : m.Inv k first s₁) {vaddr count : u32} {s' : Memory} {c : Cpu}
    (hlive : (vaddr, count) ∈ m.live) (hrun : (onix.free_kpage vaddr count).run m.memory = .ok () s')
    (hram : c.ram = s'.ram)
    (hesp : (c.esp - m.system.current).toNat ≤ bottom m.system.current (m.system.records m.system.current)) :
    Inv k first s₁
      { m with system := { m.system with cpu := c }, memory := s', live := m.live.erase (vaddr, count) } := by
  obtain ⟨arena, hleased⟩ := h.leased
  obtain ⟨t, arena', hfree, hleased'⟩ := hleased.free (List.mem_append_left _ hlive)
  have hwrites := free_kpage_writes h.small vaddr count
  rw [final_of_ok hrun] at hwrites
  rw [hrun] at hfree
  cases hfree
  refine ⟨h.allocator hfirst hwrites hram hesp, hram.symm, ⟨arena', ?_⟩, h.pages, h.slots⟩
  have herase : m.extents.erase (vaddr, count) = m.live.erase (vaddr, count) ++ m.tasks.map (·, 1) :=
    List.erase_append_left _ hlive
  rwa [herase] at hleased'

/-- A page that the allocator gives out is no task's, and a task made on it does not come near the map. -/
theorem Inv.page (h : m.Inv k first s₁) {page : u32} {s' : Memory}
    (hrun : (onix.alloc_kpage 1).run m.memory = .ok page s') :
    page.toNat % 4096 = 0 ∧ 0x100000 ≤ page.toNat ∧ page.toNat < 0x800000 ∧ page ∉ m.system.pages := by
  obtain ⟨arena, hleased⟩ := h.leased
  obtain ⟨arena', hleased'⟩ := hleased.alloc hrun
  obtain ⟨halign, hlow, hend⟩ := hleased'.range List.mem_cons_self
  change page.toNat % 4096 = 0 at halign
  change 256 + _ ≤ page.toNat / 4096 at hlow
  change page.toNat / 4096 + 1 ≤ 2048 at hend
  refine ⟨halign, by omega, by omega, fun hpage => ?_⟩
  rcases (h.pages page).mp hpage with rfl | htask
  · omega
  · have hnodup := arena'.nodup
    rw [← hleased'.live] at hnodup
    exact (List.nodup_cons.mp hnodup).1 (mem_extents htask)

theorem Inv.create (h : m.Inv k first s₁) {page target priority uid kernel_map : u32} {task_name : List UInt8}
    {task_table : List u32} {s' : Memory} {c : Cpu}
    (hrun : (get_free_task m.task_table).run m.memory = .ok (page, task_table) s') (hram : c.ram = s'.ram)
    (hesp : (c.esp - m.system.current).toNat ≤ bottom m.system.current (m.system.records m.system.current))
    (hname : task_name.length < TASK_NAME_LEN) :
    Inv k first s₁
      { system := System.create { m.system with cpu := c } page target priority uid kernel_map task_name
        memory := { s' with ram := Entry.task_create page target task_name priority uid kernel_map s'.ram }
        task_table := task_table
        live := m.live } := by
  obtain ⟨pre, post, htable, -, rfl, halloc⟩ := get_free_task_eq_ok hrun
  obtain ⟨halign, hlow, hhigh, hnew⟩ := h.page hfirst halloc
  obtain ⟨arena, hleased⟩ := h.leased
  obtain ⟨-, -, -, -, hwrites, -⟩ := alloc_kpage_ok h.small halloc
  have hne : page ≠ 0 := by
    rintro rfl
    exact absurd hlow (by decide)
  have htasks : (pre ++ page :: post).filter (· ≠ 0) = pre.filter (· ≠ 0) ++ page :: post.filter (· ≠ 0) := by
    rw [List.filter_append, List.filter_cons_of_pos (by simpa using hne)]
  have hold : m.tasks = pre.filter (· ≠ 0) ++ post.filter (· ≠ 0) := by
    unfold tasks
    rw [htable, List.filter_append, List.filter_cons_of_neg (by simp)]
  have hperm : (page :: m.tasks).Perm ((pre ++ page :: post).filter (· ≠ 0)) := by
    rw [htasks, hold]
    exact List.perm_middle.symm
  refine ⟨?_, ?_, ?_, fun other => ?_, ?_⟩
  · refine .step (h.allocator hfirst hwrites hram hesp)
      ⟨_, .create page target priority uid kernel_map task_name ?_ hnew hname⟩
    exact (Words.and_fff page).mpr halign
  · change _ = Entry.task_create page target task_name priority uid kernel_map c.ram
    rw [hram]
  · obtain ⟨arena', hleased'⟩ := hleased.alloc halloc
    have hextents : ((page, 1) :: m.extents).Perm
        (m.live ++ ((pre ++ page :: post).filter (· ≠ 0)).map (·, 1)) :=
      List.perm_middle.symm.trans ((hperm.map fun page => (page, (1 : u32))).append_left m.live)
    obtain ⟨arena'', hleased''⟩ := leased_of_perm hleased' hextents
    refine ⟨arena'', leased_of_ram hleased'' fun a ha => task_create_apart ?_ hname⟩
    have hbuffer := buffer_range hleased''.layout ha
    rw [UInt32.toNat_sub]
    omega
  · change other ∈ insert page m.system.pages ↔ other = first ∨ other ∈ (pre ++ page :: post).filter (· ≠ 0)
    rw [Set.mem_insert_iff, h.pages other, ← hperm.mem_iff, List.mem_cons]
    exact or_left_comm
  · have hlen := h.slots
    rw [htable] at hlen
    simpa using hlen

theorem Step.inv {e : Event} (h : m.Inv k first s₁) (hstep : m.Step k e m') : m'.Inv k first s₁ := by
  cases hstep with
  | run hstep hrun hmap => exact h.run hfirst hstep hrun hmap
  | alloc_kpage hrun hram hesp => exact h.alloc hfirst hrun hram hesp
  | free_kpage hlive hrun hram hesp => exact h.free hfirst hlive hrun hram hesp
  | task_create page target priority uid kernel_map task_name hrun hram hesp hname =>
    exact h.create hfirst hrun hram hesp hname

theorem Reachable.inv (hboot : Unleased s₁) (hreach : Reachable k first s₁ m) : m.Inv k first s₁ := by
  induction hreach with
  | init hstart => exact hstart.inv hboot
  | step _ hnext ih =>
    obtain ⟨e, hstep⟩ := hnext
    exact hstep.inv hfirst ih

omit hfirst in
/-- A byte of a live extent is none of the kernel's map. -/
theorem Inv.not_map (h : m.Inv k first s₁) {x : u32 × u32} (hx : x ∈ m.extents) {a : u32} (ha : a ∈ extent x) :
    a ∉ m.memory.kernel_map.buffer := by
  obtain ⟨arena, hleased⟩ := h.leased
  intro hbuffer
  have hfrom := extent_range hleased hx ha
  have hto := buffer_range hleased.layout hbuffer
  omega

/-- Only the code of the tasks writes into the extents that are no tasks. -/
theorem Inv.keeps (hboot : Unleased s₁) (h : m.Inv k first s₁) {e : Event} (hstep : m.Step k e m')
    (hcompute : e ≠ .run .compute) {x : u32 × u32} (hx : x ∈ m.live) {a : u32} (ha : a ∈ extent x) :
    m'.system.cpu.ram a = m.system.cpu.ram a := by
  have hmem : x ∈ m.extents := List.mem_append_left _ hx
  have hmap := h.not_map hmem ha
  obtain ⟨arena, hleased⟩ := h.leased
  cases hstep with
  | run hstep hrun =>
    refine hstep.outside h.reachable.inv hrun (fun he => hcompute (congrArg _ he)) ?_
    have hfrom := extent_range hleased hmem ha
    by_contra hnear
    rcases (h.pages _).mp h.reachable.inv.current with hcurrent | htask
    · have haligned := (Words.and_fff _).mp (h.reachable.inv.aligned _ h.reachable.inv.current)
      have hlt := a.toNat_lt
      rw [hcurrent] at haligned
      rw [hcurrent, UInt32.toNat_sub] at hnear
      omega
    · have hapart := (List.pairwise_append.mp (hleased.sound hboot).apart).2.2 x hx _ (List.mem_map_of_mem htask)
      refine Set.disjoint_left.mp hapart ha ?_
      change (a - m.system.current).toNat < 1 * 4096
      omega
  | alloc_kpage hrun hram =>
    obtain ⟨-, -, -, -, hwrites, -⟩ := alloc_kpage_ok h.small hrun
    exact (congrFun hram a).trans ((hwrites.ram a hmap).trans (congrFun h.ram a))
  | @free_kpage vaddr count s' c hlive hrun hram =>
    have hwrites := free_kpage_writes h.small vaddr count
    rw [final_of_ok hrun] at hwrites
    exact (congrFun hram a).trans ((hwrites.ram a hmap).trans (congrFun h.ram a))
  | task_create page target priority uid kernel_map task_name hrun hram hesp hname =>
    obtain ⟨-, -, -, -, -, halloc⟩ := get_free_task_eq_ok hrun
    obtain ⟨-, -, -, -, hwrites, -⟩ := alloc_kpage_ok h.small halloc
    obtain ⟨arena', hleased'⟩ := hleased.alloc halloc
    have hapart := (List.pairwise_cons.mp (hleased'.sound hboot).apart).1 x hmem
    have hfar : 4096 ≤ (a - page).toNat := by
      by_contra hnear
      refine Set.disjoint_right.mp hapart ha ?_
      change (a - page).toNat < 1 * 4096
      omega
    refine (task_create_apart hfar hname).trans ?_
    exact (congrFun hram a).trans ((hwrites.ram a hmap).trans (congrFun h.ram a))

end Steps

section Sound

variable {k : Image} {first : u32} {s₁ : Memory} {m : Tasking}

/-- What the pages of the tasks are, and what `get_free_task` comes to. -/
structure Sound (k : Image) (first : u32) (s₁ : Memory) (m : Tasking) : Prop where
  reachable : Entry.Reachable k m.system
  pages : ∀ page, page ∈ m.system.pages ↔ page = first ∨ page ∈ m.tasks
  leasing : Leasing.Sound s₁ ⟨m.memory, m.extents⟩
  returns_iff : (∃ page task_table s', (get_free_task m.task_table).run m.memory = .ok (page, task_table) s') ↔
    m.tasks.length < NR_TASKS ∧ ∃ j < m.memory.kernel_map.size, m.memory.bit m.memory.kernel_map j = false
  panics : ∀ e s', (get_free_task m.task_table).run m.memory = .error e s' → s' = m.memory ∧
    e = if m.tasks.length = NR_TASKS then .panic .no_more_tasks else .panic .scan_page_fail
  keeps : ∀ e m', m.Step k e m' → e ≠ .run .compute → ∀ x ∈ m.live, ∀ a ∈ extent x,
    m'.system.cpu.ram a = m.system.cpu.ram a

/-- All slots are taken when as many are not `NULL`. -/
theorem Inv.full_iff (h : m.Inv k first s₁) : m.tasks.length = NR_TASKS ↔ 0 ∉ m.task_table := by
  unfold tasks
  rw [← h.slots, List.length_filter_eq_length_iff]
  simp only [decide_eq_true_eq]
  exact ⟨fun hall hzero => hall 0 hzero rfl, fun hzero page hpage h => hzero (h ▸ hpage)⟩

theorem Inv.tasks_le (h : m.Inv k first s₁) : m.tasks.length ≤ NR_TASKS := by
  rw [← h.slots]
  exact List.length_filter_le _ _

/-- No page is free. -/
def Exhausted (m : Tasking) : Prop :=
  ∀ j, ¬ FirstFit.Fits (m.memory.bit m.memory.kernel_map) m.memory.kernel_map.size 1 j

/-- `get_free_task` returns where a slot is `NULL` and a page is free, and otherwise panics for what is missing. -/
theorem Inv.get_free_task_cases (h : m.Inv k first s₁) :
    (m.tasks.length = NR_TASKS ∧
        (get_free_task m.task_table).run m.memory = .error (.panic .no_more_tasks) m.memory) ∨
      (m.tasks.length < NR_TASKS ∧ m.Exhausted ∧
        (get_free_task m.task_table).run m.memory = .error (.panic .scan_page_fail) m.memory) ∨
      m.tasks.length < NR_TASKS ∧ ¬ m.Exhausted ∧
        ∃ page task_table s', (get_free_task m.task_table).run m.memory = .ok (page, task_table) s' := by
  have hle := h.tasks_le
  by_cases hfull : m.tasks.length = NR_TASKS
  · exact .inl ⟨hfull, get_free_task_full (h.full_iff.mp hfull) m.memory⟩
  · have hslot : 0 ∈ m.task_table := by
      by_contra hnone
      exact hfull (h.full_iff.mpr hnone)
    obtain ⟨pre, post, htable, hpre⟩ := List.eq_append_cons_of_mem hslot
    rw [htable]
    have hone : 0 < (1 : u32).toNat := Nat.one_pos
    rcases alloc_kpage_run h.small hone with ⟨hnone, hrun⟩ | ⟨start, s', hstart, hrun, -⟩
    · exact .inr (.inl ⟨by omega, hnone, get_free_task_error hpre hrun⟩)
    · exact .inr (.inr ⟨by omega, fun hnone => hnone start hstart.fits, _, _, s', get_free_task_ok hpre hrun⟩)

theorem Inv.sound (hfirst : 0x5000 ≤ first.toNat ∧ first.toNat < 0x100000) (hboot : Unleased s₁)
    (h : m.Inv k first s₁) : m.Sound k first s₁ := by
  obtain ⟨arena, hleased⟩ := h.leased
  refine ⟨h.reachable, h.pages, hleased.sound hboot, ?_, fun e s' hrun => ?_, fun e m' hstep hcompute x hx a ha =>
    h.keeps hfirst hboot hstep hcompute hx ha⟩
  · rcases h.get_free_task_cases with
      ⟨hfull, hrun⟩ | ⟨hslot, hnone, hrun⟩ | ⟨hslot, hfree, page, table, s', hrun⟩
    · refine iff_of_false ?_ fun hfree => by omega
      rintro ⟨page, table, s', hrun'⟩
      rw [hrun] at hrun'
      cases hrun'
    · refine iff_of_false ?_ ?_
      · rintro ⟨page, table, s', hrun'⟩
        rw [hrun] at hrun'
        cases hrun'
      · rintro ⟨-, j, hj, hbit⟩
        exact hnone j (FirstFit.fits_one.mpr ⟨hj, hbit⟩)
    · obtain ⟨j, hfits⟩ := not_forall_not.mp hfree
      exact iff_of_true ⟨page, table, s', hrun⟩ ⟨hslot, j, FirstFit.fits_one.mp hfits⟩
  · rcases h.get_free_task_cases with ⟨hfull, hrun'⟩ | ⟨hslot, -, hrun'⟩ | ⟨-, -, page, table, t, hrun'⟩
    · rw [hrun'] at hrun
      cases hrun
      exact ⟨rfl, (if_pos hfull).symm⟩
    · rw [hrun'] at hrun
      cases hrun
      exact ⟨rfl, (if_neg (by omega)).symm⟩
    · rw [hrun'] at hrun
      cases hrun

end Sound

end Tasking

/-- A processor on the boot stack. -/
def boot_cpu (s : Memory) : Cpu := { caller 0 0 with esp := 0xfff0, ram := s.ram }

/-- `task_init` is about to make the first task. -/
def Tasking.boot (s : Memory) : Tasking where
  system := { cpu := boot_cpu s, current := 0xf000, pages := {0xf000}, records := fun _ => [] }
  memory := s
  task_table := List.replicate NR_TASKS 0
  live := []

end onix.Entry
