import Onix.Entry.Create
import Onix.Library.Runs

namespace onix.Entry

open I386

/-- Registers that the code of a task is to go on with. -/
inductive Record where
  /-- as `task_create` made them -/
  | created (page target : u32)
  /-- as they were when `task_switch` was called -/
  | switched (c : Cpu)
  /-- as they were when the interrupt came -/
  | interrupted (vector : u32) (c : Cpu)

namespace Record

/-- The lowest byte of what is stored of them. -/
def base : Record → u32
  | .created page _ => page + 0xfec
  | .switched c => c.esp - 20
  | .interrupted _ c => c.esp - 68

def words : Record → List u32
  | .created _ target => first_frame target
  | .switched c => switch_frame c
  | .interrupted vector c => handler_frame c vector

/-- It is `task_switch` that goes on with them. -/
def Suspended : Record → Prop
  | .interrupted _ _ => False
  | _ => True

/-- The registers are what the task is to go on with. -/
def Resumes : Record → Cpu → Prop
  | .created _ target, d => d.eip = target
  | .switched c, d =>
    d.esp = c.esp ∧ d.ebp = c.ebp ∧ d.ebx = c.ebx ∧ d.esi = c.esi ∧ d.edi = c.edi ∧ d.eip = c.eip
  | .interrupted _ c, d => d = { c with ram := d.ram }

end Record

/-- The processor and the tasks. -/
structure System where
  cpu : Cpu
  /-- the page of the task that runs -/
  current : u32
  pages : Set u32
  /-- what each task has not gone on with yet, the latest first -/
  records : u32 → List Record

/-- The byte of the page where the stack below the records ends. -/
def bottom (page : u32) : List Record → Nat
  | [] => 4096
  | r :: _ => (r.base - page).toNat

/-- The byte is one of those that are stored for the records. -/
def Kept (rs : List Record) (a : u32) : Prop := ∃ r ∈ rs, (a - r.base).toNat < 4 * r.words.length

namespace System

variable (k : Image) (s : System)

/-- The code of a task writes neither into the stack of another nor where the stack pointer of a task
is saved, and not over the registers that it is still to go on with. -/
def Writable (a : u32) : Prop :=
  ∀ page ∈ s.pages, (a - page).toNat < 4096 →
    4 ≤ (a - page).toNat ∧ (task_size ≤ (a - page).toNat → page = s.current ∧ ¬ Kept (s.records page) a)

/-- An interrupt, up to its handler. -/
def enter (vector : u32) : System :=
  { s with
    cpu := k.enter vector s.cpu
    records := Function.update s.records s.current (.interrupted vector s.cpu :: s.records s.current) }

/-- From the return of the handler on. -/
def exit : System :=
  { s with
    cpu := k.exit s.cpu
    records := Function.update s.records s.current (s.records s.current).tail }

/-- The records when `task_switch` has been called. -/
def suspend : u32 → List Record :=
  Function.update s.records s.current (.switched s.cpu :: s.records s.current)

def switch (next : u32) : System :=
  { s with
    cpu := k.switch s.cpu
    current := next
    records := Function.update s.suspend next (s.suspend next).tail }

def create (page target priority uid kernel_map : u32) (task_name : List UInt8) : System :=
  { s with
    cpu := { s.cpu with ram := task_create page target task_name priority uid kernel_map s.cpu.ram }
    pages := insert page s.pages
    records := Function.update s.records page [.created page target] }

end System

inductive Event where
  | compute
  | interrupt (vector : u32)
  | exit
  | switch (next : u32)
  | create (page target : u32)

/-- Tasks compute, are interrupted, return from their handlers, call `task_switch` and make tasks. -/
inductive Step (k : Image) (s : System) : Event → System → Prop where
  | compute (c : Cpu) (hesp : (c.esp - s.current).toNat ≤ bottom s.current (s.records s.current))
      (hram : ∀ a, c.ram a ≠ s.cpu.ram a → s.Writable a) : Step k s .compute { s with cpu := c }
  | interrupt (vector : u32) (hroom : task_size + 76 ≤ (s.cpu.esp - s.current).toNat) :
      Step k s (.interrupt vector) (s.enter k vector)
  /-- The handler keeps to the convention, which leaves its argument on top of the stack. -/
  | exit (vector : u32) (c : Cpu) (rest : List Record)
      (hrecords : s.records s.current = .interrupted vector c :: rest) (hesp : s.cpu.esp = c.esp - 72) :
      Step k s .exit (s.exit k)
  | switch (next : u32) (hnext : next ∈ s.pages) (hargument : Words.word s.cpu.ram s.cpu.esp = next)
      (hroom : task_size + 20 ≤ (s.cpu.esp - s.current).toNat) : Step k s (.switch next) (s.switch k next)
  /-- `get_free_task` finds a page that no task has. -/
  | create (page target priority uid kernel_map : u32) (task_name : List UInt8)
      (haligned : page &&& 0xfff = 0) (hfree : page ∉ s.pages) (hname : task_name.length < TASK_NAME_LEN) :
      Step k s (.create page target) (s.create page target priority uid kernel_map task_name)

/-- The kernel has booted, on the page that it takes for its first task. -/
structure Boot (s : System) : Prop where
  aligned : s.current &&& 0xfff = 0
  pages : s.pages = {s.current}
  records : s.records = fun _ => []
  esp : (s.cpu.esp - s.current).toNat ≤ 4096

/-- The states that the kernel gets into. -/
def Reachable (k : Image) : System → Prop := Runs.Reach Boot fun s s' => ∃ e, Step k s e s'

end onix.Entry
