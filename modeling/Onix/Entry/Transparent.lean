import Onix.Entry.Stacks
import Onix.Entry.Syscall

namespace onix.Entry

open I386

/-- The stacks of all tasks: what they are to go on with is stored where `task_switch` and
`interrupt_exit` look for it. -/
structure Inv (s : System) : Prop where
  aligned : ∀ page ∈ s.pages, page &&& 0xfff = 0
  current : s.current ∈ s.pages
  esp : (s.cpu.esp - s.current).toNat ≤ bottom s.current (s.records s.current)
  stacked : ∀ page ∈ s.pages, Stacked page (s.records page)
  holds : ∀ page ∈ s.pages, ∀ r ∈ s.records page, Words.Holds s.cpu.ram r.base r.words
  /-- the first word of the page of a task that does not run is its stack pointer -/
  suspended : ∀ page ∈ s.pages, page ≠ s.current →
    ∃ r rest, s.records page = r :: rest ∧ r.Suspended ∧ Words.word s.cpu.ram page = r.base

variable {k : Image} {s : System}

theorem Boot.inv (h : Boot s) : Inv s := by
  obtain ⟨haligned, hpages, hrecords, hesp⟩ := h
  have honly : ∀ page ∈ s.pages, page = s.current := fun page hpage => by rwa [hpages] at hpage
  constructor
  case aligned =>
    intro page hpage
    rwa [honly page hpage]
  case current =>
    rw [hpages]
    rfl
  case esp =>
    rw [hrecords]
    exact hesp
  case stacked =>
    intro page _
    rw [hrecords]
    trivial
  case holds =>
    intro page _ r hr
    rw [hrecords] at hr
    exact absurd hr List.not_mem_nil
  case suspended => exact fun page hpage hne => absurd (honly page hpage) hne

namespace Inv

/-- A byte of another task's page is not in the page of the task that runs. -/
theorem apart (h : Inv s) {page a : u32} (hpage : page ∈ s.pages) (hne : page ≠ s.current)
    (ha : (a - page).toNat < 4096) : 4096 ≤ (a - s.current).toNat :=
  page_apart (h.aligned page hpage) (h.aligned _ h.current) hne ha

/-- What is kept in a task's page stays held when its bytes do. -/
theorem holds_of_kept (h : Inv s) {ram : Words.Ram}
    (hsame : ∀ page ∈ s.pages, ∀ a, Kept (s.records page) a → ram a = s.cpu.ram a) :
    ∀ page ∈ s.pages, ∀ r ∈ s.records page, Words.Holds ram r.base r.words := by
  intro page hpage r hr
  apply holds_congr _ (h.holds page hpage r hr)
  intro a ha
  exact hsame page hpage a ⟨r, hr, ha⟩

/-- The stack pointers of the other tasks stay when the first bytes of their pages do. -/
theorem suspended_of_start (h : Inv s) {ram : Words.Ram}
    (hsame : ∀ page ∈ s.pages, page ≠ s.current → ∀ a, (a - page).toNat < 4 → ram a = s.cpu.ram a) :
    ∀ page ∈ s.pages, page ≠ s.current →
      ∃ r rest, s.records page = r :: rest ∧ r.Suspended ∧ Words.word ram page = r.base := by
  intro page hpage hne
  obtain ⟨r, rest, hrecords, hr, hword⟩ := h.suspended page hpage hne
  refine ⟨r, rest, hrecords, hr, ?_⟩
  rw [← hword]
  apply Words.word_congr
  intro i hi
  apply hsame page hpage hne
  have hsplit : page + i - page = i := by grind
  rwa [hsplit]

section Pushed

variable (h : Inv s) {ws : List u32} (hroom : 4 * ws.length ≤ (s.cpu.esp - s.current).toNat) {page a : u32}
include h hroom

/-- Pushing changes nothing in the pages of the other tasks. -/
theorem pushed_other (hpage : page ∈ s.pages) (hne : page ≠ s.current) (ha : (a - page).toNat < 4096) :
    (s.cpu.push_all ws).ram a = s.cpu.ram a := by
  have hfar := h.apart hpage hne ha
  have hesp := h.esp
  have hbottom := (h.stacked _ h.current).bottom
  exact pushed_apart hroom (.inl (by omega))

theorem pushed_kept (hpage : page ∈ s.pages) (ha : Kept (s.records page) a) :
    (s.cpu.push_all ws).ram a = s.cpu.ram a := by
  obtain ⟨hlow, hhigh⟩ := (h.stacked page hpage).kept ha
  by_cases hne : page = s.current
  · subst hne
    have hesp := h.esp
    exact pushed_apart hroom (.inl (by omega))
  · exact h.pushed_other hroom hpage hne hhigh

end Pushed

end Inv

theorem Inv.compute (h : Inv s) {c : Cpu}
    (hesp : (c.esp - s.current).toNat ≤ bottom s.current (s.records s.current))
    (hram : ∀ a, c.ram a ≠ s.cpu.ram a → s.Writable a) : Inv { s with cpu := c } := by
  have hsize : task_size = 60 := rfl
  constructor
  case aligned => exact h.aligned
  case current => exact h.current
  case esp => exact hesp
  case stacked => exact h.stacked
  case holds =>
    apply h.holds_of_kept
    intro page hpage a ha
    by_contra hchanged
    have hbottom := (h.stacked page hpage).bottom
    obtain ⟨hlow, hhigh⟩ := (h.stacked page hpage).kept ha
    obtain ⟨-, howned⟩ := hram a hchanged page hpage hhigh
    exact (howned (by omega)).2 ha
  case suspended =>
    apply h.suspended_of_start
    intro page hpage hne a ha
    by_contra hchanged
    obtain ⟨hfour, -⟩ := hram a hchanged page hpage (by omega)
    omega

section Push

variable (h : Inv s) {r : Record}
include h

/-- A record right below the stack pointer. -/
theorem Inv.stacked_push (hlow : task_size ≤ (r.base - s.current).toNat)
    (hhigh : (r.base - s.current).toNat + 4 * r.words.length = (s.cpu.esp - s.current).toNat) :
    ∀ page ∈ s.pages, Stacked page (Function.update s.records s.current (r :: s.records s.current) page) := by
  intro page hpage
  by_cases hcurrent : page = s.current
  · subst hcurrent
    have hesp := h.esp
    rw [Function.update_self]
    exact ⟨hlow, by omega, h.stacked _ hpage⟩
  · rw [Function.update_of_ne hcurrent]
    exact h.stacked page hpage

theorem Inv.holds_push {ram : Words.Ram} (hr : Words.Holds ram r.base r.words)
    (hsame : ∀ page ∈ s.pages, ∀ a, Kept (s.records page) a → ram a = s.cpu.ram a) :
    ∀ page ∈ s.pages, ∀ q ∈ Function.update s.records s.current (r :: s.records s.current) page,
      Words.Holds ram q.base q.words := by
  intro page hpage q hq
  by_cases hcurrent : page = s.current
  · subst hcurrent
    rw [Function.update_self, List.mem_cons] at hq
    obtain rfl | hq := hq
    · exact hr
    · exact h.holds_of_kept hsame _ hpage q hq
  · rw [Function.update_of_ne hcurrent] at hq
    exact h.holds_of_kept hsame page hpage q hq

end Push

theorem Inv.enter (h : Inv s) {vector : u32} (hroom : task_size + 76 ≤ (s.cpu.esp - s.current).toNat) :
    Inv (s.enter k vector) := by
  have hsize : task_size = 60 := rfl
  obtain ⟨hesp, hram⟩ := enter_stack (k := k) s.cpu vector
  have hframe : 4 * (handler_frame s.cpu vector).length = 68 := by simp [handler_frame, interrupt_frame]
  have hlen : 4 * (k.addr_interrupt_exit :: vector :: handler_frame s.cpu vector).length = 76 := by
    simp only [List.length_cons]
    omega
  have hdown := pushed_esp s.cpu (k.addr_interrupt_exit :: vector :: handler_frame s.cpu vector) s.current
    (by rw [hlen]; omega)
  have hbase : (s.cpu.esp - 68 - s.current).toNat = (s.cpu.esp - s.current).toNat - 68 := by
    apply offset_sub
    change 68 ≤ _
    omega
  have hother := fun page (hpage : page ∈ s.pages) (hne : page ≠ s.current) a (ha : (a - page).toNat < 4096) =>
    (congrFun hram a).trans (h.pushed_other (by rw [hlen]; omega) hpage hne ha)
  have hkept := fun page (hpage : page ∈ s.pages) a (ha : Kept (s.records page) a) =>
    (congrFun hram a).trans (h.pushed_kept (by rw [hlen]; omega) hpage ha)
  rw [hlen] at hdown
  constructor
  case aligned => exact h.aligned
  case current => exact h.current
  case esp =>
    change ((k.enter vector s.cpu).esp - s.current).toNat ≤
      bottom s.current (Function.update s.records s.current _ s.current)
    rw [Function.update_self, hesp, hdown]
    change _ ≤ (s.cpu.esp - 68 - s.current).toNat
    omega
  case stacked =>
    apply h.stacked_push
    · change task_size ≤ (s.cpu.esp - 68 - s.current).toNat
      omega
    · change (s.cpu.esp - 68 - s.current).toNat + 4 * (handler_frame s.cpu vector).length = _
      omega
  case holds => exact h.holds_push (enter_holds k s.cpu vector) hkept
  case suspended =>
    intro page hpage hne
    have hne' : page ≠ s.current := hne
    change ∃ r rest, Function.update s.records s.current _ page = _ ∧ _
    rw [Function.update_of_ne hne']
    exact h.suspended_of_start (fun page hpage hne a ha => hother page hpage hne a (by omega)) page hpage hne

section Exit

variable (h : Inv s) {vector : u32} {c : Cpu} {rest : List Record}
  (hrecords : s.records s.current = .interrupted vector c :: rest) (hesp : s.cpu.esp = c.esp - 72)
include h hrecords hesp

/-- `interrupt_exit` goes on with all registers of the code that was interrupted. -/
theorem Inv.exit_eq : k.exit s.cpu = { c with ram := s.cpu.ram } := by
  have hheld := h.holds _ h.current (.interrupted vector c) (by rw [hrecords]; exact List.mem_cons_self)
  have hplace : s.cpu.esp + 4 = c.esp - 68 := by
    rw [hesp]
    grind
  have hback : s.cpu.esp + 72 = c.esp := by
    rw [hesp]
    exact UInt32.sub_add_cancel c.esp 72
  have hframe : s.cpu.Holds (s.cpu.top :: handler_frame c vector) := by
    refine ⟨rfl, ?_⟩
    rw [hplace]
    exact hheld
  rw [Entry.exit_eq k hframe, hback]

theorem Inv.exit : Inv (s.exit k) := by
  have hregs := h.exit_eq hrecords hesp (k := k)
  have hstacked := h.stacked _ h.current
  rw [hrecords] at hstacked
  obtain ⟨hlow, hhigh, hrest⟩ := hstacked
  have htail : (s.exit k).records s.current = rest := by
    change Function.update s.records s.current _ s.current = rest
    rw [Function.update_self, hrecords]
    rfl
  have hother : ∀ page, page ≠ s.current → (s.exit k).records page = s.records page := fun page hne =>
    Function.update_of_ne hne _ _
  have hram : (s.exit k).cpu.ram = s.cpu.ram := by
    change (k.exit s.cpu).ram = s.cpu.ram
    rw [hregs]
  constructor
  case aligned => exact h.aligned
  case current => exact h.current
  case esp =>
    change ((k.exit s.cpu).esp - s.current).toNat ≤ bottom s.current ((s.exit k).records s.current)
    have hsplit : c.esp - s.current = c.esp - 68 + 68 - s.current := by grind
    have hwords : 4 * (Record.interrupted vector c).words.length = 68 := rfl
    have hsize : UInt32.toNat 68 = 68 := rfl
    have hbottom := hrest.bottom
    change (c.esp - 68 - s.current).toNat + _ ≤ _ at hhigh
    rw [htail, hregs]
    change (c.esp - s.current).toNat ≤ bottom s.current rest
    rw [hsplit, Words.distance_add _ (by omega)]
    omega
  case stacked =>
    intro page hpage
    by_cases hcurrent : page = s.current
    · rw [hcurrent, htail]
      exact hrest
    · rw [hother page hcurrent]
      exact h.stacked page hpage
  case holds =>
    intro page hpage r hr
    rw [hram]
    by_cases hcurrent : page = s.current
    · subst hcurrent
      rw [htail] at hr
      exact h.holds _ hpage r (by rw [hrecords]; exact List.mem_cons_of_mem _ hr)
    · rw [hother page hcurrent] at hr
      exact h.holds page hpage r hr
  case suspended =>
    intro page hpage hne
    have hne' : page ≠ s.current := hne
    rw [hram, hother page hne']
    exact h.suspended page hpage hne'

end Exit

section Suspend

variable (h : Inv s) (hroom : task_size + 20 ≤ (s.cpu.esp - s.current).toNat)
include h hroom

theorem Inv.saved_ram_eq : saved_ram s.cpu =
    Words.put (s.cpu.push_all (switch_frame s.cpu)).ram s.current (s.cpu.esp - 20) := by
  have hsize : task_size = 60 := rfl
  have hlen : 4 * (switch_frame s.cpu).length = 20 := rfl
  have hesp : (s.cpu.push_all (switch_frame s.cpu)).esp = s.cpu.esp - 20 := Cpu.push_all_esp _ _
  have hbottom := (h.stacked _ h.current).bottom
  have htop := h.esp
  have hdown := pushed_esp s.cpu (switch_frame s.cpu) s.current (by omega)
  unfold saved_ram
  rw [page_of_byte (h.aligned _ h.current) (by omega), hesp]

/-- Nothing changes behind the stack pointer in the page, nor in the pages of the other tasks. -/
theorem Inv.saved_ram_apart {a : u32} (ha : (s.cpu.esp - s.current).toNat ≤ (a - s.current).toNat) :
    saved_ram s.cpu a = s.cpu.ram a := by
  have hsize : task_size = 60 := rfl
  have hlen : 4 * (switch_frame s.cpu).length = 20 := rfl
  rw [h.saved_ram_eq hroom, Words.put_apart (by omega)]
  exact pushed_apart (by omega) (.inl ha)

theorem Inv.saved_ram_kept {page a : u32} (hpage : page ∈ s.pages) (ha : Kept (s.records page) a) :
    saved_ram s.cpu a = s.cpu.ram a := by
  obtain ⟨hlow, hhigh⟩ := (h.stacked page hpage).kept ha
  have hesp := h.esp
  have hbottom := (h.stacked _ h.current).bottom
  by_cases hcurrent : page = s.current
  · subst hcurrent
    exact h.saved_ram_apart hroom (by omega)
  · have hfar := h.apart hpage hcurrent hhigh
    exact h.saved_ram_apart hroom (by omega)

theorem Inv.saved_ram_holds : Words.Holds (saved_ram s.cpu) (s.cpu.esp - 20) (switch_frame s.cpu) := by
  have hsize : task_size = 60 := rfl
  have hesp : (s.cpu.push_all (switch_frame s.cpu)).esp = s.cpu.esp - 20 := Cpu.push_all_esp _ _
  have hpushed : (s.cpu.push_all (switch_frame s.cpu)).Holds (switch_frame s.cpu ++ []) :=
    Cpu.push_all_holds _ _ (by simp [switch_frame]) trivial
  have hbase : (s.cpu.esp - 20 - s.current).toNat = (s.cpu.esp - s.current).toNat - 20 := by
    apply offset_sub
    change 20 ≤ _
    omega
  unfold Cpu.Holds at hpushed
  rw [hesp, List.append_nil] at hpushed
  rw [h.saved_ram_eq hroom]
  apply hpushed.congr (by simp [switch_frame])
  intro a ha
  have hlen : 4 * (switch_frame s.cpu).length = 20 := rfl
  have hlt := (s.cpu.esp - s.current).toNat_lt
  have hsplit : a - s.current = s.cpu.esp - 20 + (a - (s.cpu.esp - 20)) - s.current := by grind
  apply Words.put_apart
  rw [hsplit, Words.distance_add _ (by omega)]
  omega

/-- Once the registers are saved all tasks wait alike, the one that called among them. -/
theorem Inv.suspend_waits {page : u32} (hpage : page ∈ s.pages) :
    ∃ r rest, s.suspend page = r :: rest ∧ r.Suspended ∧ Words.word (saved_ram s.cpu) page = r.base := by
  unfold System.suspend
  by_cases hcurrent : page = s.current
  · subst hcurrent
    rw [Function.update_self]
    refine ⟨_, _, rfl, trivial, ?_⟩
    rw [h.saved_ram_eq hroom, Words.word_put]
    rfl
  · have hesp := h.esp
    have hbottom := (h.stacked _ h.current).bottom
    rw [Function.update_of_ne hcurrent]
    apply h.suspended_of_start _ page hpage hcurrent
    intro page hpage hne a ha
    have hfar := h.apart (a := a) hpage hne (by omega)
    exact h.saved_ram_apart hroom (by omega)

theorem Inv.suspend_stacked : ∀ page ∈ s.pages, Stacked page (s.suspend page) := by
  have hsize : task_size = 60 := rfl
  have hbase : (s.cpu.esp - 20 - s.current).toNat = (s.cpu.esp - s.current).toNat - 20 := by
    apply offset_sub
    change 20 ≤ _
    omega
  apply h.stacked_push
  · change task_size ≤ (s.cpu.esp - 20 - s.current).toNat
    omega
  · change (s.cpu.esp - 20 - s.current).toNat + 20 = _
    omega

theorem Inv.suspend_holds :
    ∀ page ∈ s.pages, ∀ r ∈ s.suspend page, Words.Holds (saved_ram s.cpu) r.base r.words :=
  h.holds_push (h.saved_ram_holds hroom) fun _ hpage _ ha => h.saved_ram_kept hroom hpage ha

end Suspend

/-- The five registers that `task_switch` pops for a task that waits are the ones to go on with. -/
theorem Record.Suspended.words_eq {r : Record} (hr : r.Suspended) : ∃ edi esi ebx ebp eip,
    r.words = [edi, esi, ebx, ebp, eip] ∧ ∀ d : Cpu, d.esp = r.base + 20 → d.edi = edi → d.esi = esi →
      d.ebx = ebx → d.ebp = ebp → d.eip = eip → r.Resumes d := by
  cases r with
  | created page target => exact ⟨_, _, _, _, _, rfl, fun _ _ _ _ _ _ heip => heip⟩
  | switched c =>
    refine ⟨_, _, _, _, _, rfl, fun d hesp hedi hesi hebx hebp heip => ?_⟩
    have hback : d.esp = c.esp := hesp.trans (UInt32.sub_add_cancel c.esp 20)
    exact ⟨hback, hebp, hebx, hesi, hedi, heip⟩
  | interrupted vector c => exact hr.elim

section Switch

variable (h : Inv s) {next : u32} (hnext : next ∈ s.pages) (hargument : Words.word s.cpu.ram s.cpu.esp = next)
  (hroom : task_size + 20 ≤ (s.cpu.esp - s.current).toNat)
include h hnext hargument hroom

/-- `task_switch` goes on with the latest registers of the task it is given. -/
theorem Inv.switch_eq : ∃ r rest, s.suspend next = r :: rest ∧ r.Suspended ∧ r.Resumes (k.switch s.cpu) ∧
    (k.switch s.cpu).ram = saved_ram s.cpu ∧ (k.switch s.cpu).esp = r.base + 20 := by
  obtain ⟨r, rest, hrecords, hr, hstack⟩ := h.suspend_waits hroom hnext
  obtain ⟨edi, esi, ebx, ebp, eip, hwords, hresumes⟩ := hr.words_eq
  have hheld := h.suspend_holds hroom next hnext r (by rw [hrecords]; exact List.mem_cons_self)
  have hpassed : Words.word (saved_ram s.cpu) s.cpu.esp = next := by
    rw [← hargument]
    apply Words.word_congr
    intro i hi
    have hbottom := (h.stacked _ h.current).bottom
    have hesp := h.esp
    apply h.saved_ram_apart hroom
    rw [Words.distance_add i (by omega)]
    omega
  rw [hwords] at hheld
  obtain ⟨hram, hesp, hedi, hesi, hebx, hebp, heip⟩ := k.switch_eq hpassed hstack hheld
  exact ⟨r, rest, hrecords, hr, hresumes _ hesp hedi hesi hebx hebp heip, hram, hesp⟩

theorem Inv.switch : Inv (s.switch k next) := by
  obtain ⟨r, rest, hrecords, hr, -, hram, hesp⟩ := h.switch_eq hnext hargument hroom (k := k)
  have htail : (s.switch k next).records next = rest := by
    change Function.update s.suspend next _ next = rest
    rw [Function.update_self, hrecords]
    rfl
  have hother : ∀ page, page ≠ next → (s.switch k next).records page = s.suspend page := fun page hne =>
    Function.update_of_ne hne _ _
  have hram' : (s.switch k next).cpu.ram = saved_ram s.cpu := hram
  have hstacked := h.suspend_stacked hroom next hnext
  rw [hrecords] at hstacked
  obtain ⟨-, hhigh, hrest⟩ := hstacked
  constructor
  case aligned => exact h.aligned
  case current => exact hnext
  case esp =>
    have hsize : UInt32.toNat 20 = 20 := rfl
    have hbottom := hrest.bottom
    have hwords : 4 * r.words.length = 20 := by
      obtain ⟨_, _, _, _, _, hwords, -⟩ := hr.words_eq
      rw [hwords]
      rfl
    change ((k.switch s.cpu).esp - next).toNat ≤ bottom next ((s.switch k next).records next)
    rw [htail, hesp, Words.distance_add _ (by omega)]
    omega
  case stacked =>
    intro page hpage
    by_cases hcurrent : page = next
    · rw [hcurrent, htail]
      exact hrest
    · rw [hother page hcurrent]
      exact h.suspend_stacked hroom page hpage
  case holds =>
    intro page hpage q hq
    rw [hram']
    by_cases hcurrent : page = next
    · subst hcurrent
      rw [htail] at hq
      exact h.suspend_holds hroom _ hpage q (by rw [hrecords]; exact List.mem_cons_of_mem _ hq)
    · rw [hother page hcurrent] at hq
      exact h.suspend_holds hroom page hpage q hq
  case suspended =>
    intro page hpage hne
    have hne' : page ≠ next := hne
    rw [hram', hother page hne']
    exact h.suspend_waits hroom hpage

end Switch

theorem Inv.create (h : Inv s) {page target priority uid kernel_map : u32} {task_name : List UInt8}
    (haligned : page &&& 0xfff = 0) (hfree : page ∉ s.pages) (hname : task_name.length < TASK_NAME_LEN) :
    Inv (s.create page target priority uid kernel_map task_name) := by
  obtain ⟨hstack, hframe⟩ := task_create_frame s.cpu.ram page target priority uid kernel_map hname
  have hne : ∀ other ∈ s.pages, other ≠ page := by
    rintro other hother rfl
    exact hfree hother
  have hold : ∀ other ∈ s.pages, (s.create page target priority uid kernel_map task_name).records other =
      s.records other := fun other hother => Function.update_of_ne (hne other hother) _ _
  have hnew : (s.create page target priority uid kernel_map task_name).records page =
      [.created page target] := Function.update_self _ _ _
  have hsame : ∀ other ∈ s.pages, ∀ a, (a - other).toNat < 4096 →
      (s.create page target priority uid kernel_map task_name).cpu.ram a = s.cpu.ram a := by
    intro other hother a ha
    exact task_create_apart (page_apart (h.aligned other hother) haligned (hne other hother) ha) hname
  have hkept : ∀ other ∈ s.pages, ∀ a, Kept (s.records other) a →
      (s.create page target priority uid kernel_map task_name).cpu.ram a = s.cpu.ram a := by
    intro other hother a ha
    exact hsame other hother a ((h.stacked other hother).kept ha).2
  have hbase : (page + 0xfec - page).toNat = 4076 := by
    have hsplit : page + 0xfec - page = 0xfec := by grind
    rw [hsplit]
    rfl
  constructor
  case aligned =>
    rintro other (rfl | hother)
    · exact haligned
    · exact h.aligned other hother
  case current => exact Set.mem_insert_of_mem page h.current
  case esp =>
    have hcurrent := hold _ h.current
    change (s.cpu.esp - s.current).toNat ≤
      bottom s.current ((s.create page target priority uid kernel_map task_name).records s.current)
    rw [hcurrent]
    exact h.esp
  case stacked =>
    rintro other (rfl | hother)
    · rw [hnew]
      refine ⟨?_, ?_, trivial⟩
      · change task_size ≤ (other + 0xfec - other).toNat
        rw [hbase]
        decide
      · change (other + 0xfec - other).toNat + 20 ≤ 4096
        omega
    · rw [hold other hother]
      exact h.stacked other hother
  case holds =>
    rintro other (rfl | hother) r hr
    · rw [hnew, List.mem_singleton] at hr
      subst hr
      exact hframe
    · rw [hold other hother] at hr
      exact h.holds_of_kept hkept other hother r hr
  case suspended =>
    rintro other (rfl | hother) hcurrent
    · exact ⟨_, [], hnew, trivial, hstack⟩
    · rw [hold other hother]
      exact h.suspended_of_start (fun page hpage _ a ha => hsame page hpage a (by omega)) other hother hcurrent

theorem Step.inv {e : Event} {t : System} (hstep : Step k s e t) (h : Inv s) : Inv t := by
  cases hstep with
  | compute c hesp hram => exact h.compute hesp hram
  | interrupt vector hroom => exact h.enter hroom
  | exit vector c rest hrecords hesp => exact h.exit hrecords hesp
  | switch next hnext hargument hroom => exact h.switch hnext hargument hroom
  | create page target priority uid kernel_map task_name haligned hfree hname =>
    exact h.create haligned hfree hname

theorem Reachable.inv (h : Reachable k s) : Inv s := by
  induction h with
  | init hboot => exact hboot.inv
  | step _ hnext ih =>
    obtain ⟨e, hstep⟩ := hnext
    exact hstep.inv ih

/-- Whatever tasks there are and however they are switched and interrupted, a task that `task_switch`
or `interrupt_exit` comes back to goes on with the registers that it had, and a new one at its target. -/
theorem context_switch_transparent (k : Image) {s t : System} {e : Event} (hreach : Reachable k s)
    (hstep : Step k s e t) :
    (∀ next, e = .switch next → ∃ r ∈ (s.suspend next).head?, r.Suspended ∧ r.Resumes t.cpu) ∧
      (e = .exit → ∃ r ∈ (s.records s.current).head?, ¬ r.Suspended ∧ r.Resumes t.cpu) := by
  have h := hreach.inv
  constructor
  · rintro next rfl
    cases hstep with
    | switch _ hnext hargument hroom =>
      obtain ⟨r, rest, hrecords, hr, hresumes, -⟩ := h.switch_eq hnext hargument hroom (k := k)
      exact ⟨r, by rw [hrecords]; rfl, hr, hresumes⟩
  · rintro rfl
    cases hstep with
    | exit vector c rest hrecords hesp =>
      refine ⟨.interrupted vector c, by rw [hrecords]; rfl, id, ?_⟩
      have hregs := h.exit_eq hrecords hesp (k := k)
      change k.exit s.cpu = { c with ram := (k.exit s.cpu).ram }
      rw [hregs]

/-- A kernel about to call `task_switch` for the task of the next page. -/
def booted : System where
  cpu := { caller 0 0 with esp := 0xfff0, ram := Words.put (fun _ => 0) 0xfff0 0x10000 }
  current := 0xf000
  pages := {0xf000}
  records _ := []

theorem booted_create : Step Image.idle booted (.create 0x10000 0x20000)
    (booted.create 0x10000 0x20000 5 0 0x30000 []) := by
  apply Step.create
  · decide
  · change ¬ (0x10000 : u32) = 0xf000
    decide
  · decide

theorem booted_switch : Step Image.idle (booted.create 0x10000 0x20000 5 0 0x30000 []) (.switch 0x10000)
    ((booted.create 0x10000 0x20000 5 0 0x30000 []).switch Image.idle 0x10000) := by
  apply Step.switch
  · exact Set.mem_insert _ _
  · have hword : Words.word booted.cpu.ram 0xfff0 = 0x10000 := Words.word_put _ _ _
    rw [← hword]
    apply Words.word_congr
    intro i hi
    have hfar : UInt32.toNat (0xfff0 - 0x10000) = 2 ^ 32 - 16 := by decide
    apply task_create_apart
    · change 4096 ≤ UInt32.toNat (0xfff0 + i - 0x10000)
      rw [Words.distance_add i (by omega)]
      omega
    · decide
  · decide

theorem context_switch_transparent_first :
    (∀ next, Event.switch 0x10000 = .switch next →
      ∃ r ∈ ((booted.create 0x10000 0x20000 5 0 0x30000 []).suspend next).head?, r.Suspended ∧
        r.Resumes ((booted.create 0x10000 0x20000 5 0 0x30000 []).switch Image.idle 0x10000).cpu) ∧
      (Event.switch 0x10000 = .exit →
        ∃ r ∈ ((booted.create 0x10000 0x20000 5 0 0x30000 []).records 0xf000).head?, ¬ r.Suspended ∧
          r.Resumes ((booted.create 0x10000 0x20000 5 0 0x30000 []).switch Image.idle 0x10000).cpu) := by
  have hboot : Boot booted := ⟨by decide, rfl, rfl, by decide⟩
  exact context_switch_transparent Image.idle (.step (.init hboot) ⟨_, booted_create⟩) booted_switch

end onix.Entry
