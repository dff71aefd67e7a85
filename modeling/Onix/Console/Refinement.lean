import Onix.Console.Window

namespace onix

open Terminal

/-- The row of video memory that the window starts at after so many scrolls. -/
def window (scrolled : Nat) : Nat := if scrolled = 0 then 0 else (scrolled - 1) % 77 + 1

/-- A store to video memory, or a subtraction that does not wrap. -/
def Access.Fits : Access → Prop
  | .stored addr => MEM_BASE ≤ addr ∧ addr < MEM_END
  | .subtracted a b => b ≤ a

namespace Console

/-- What the CRT controller shows first, in characters from the start of video memory. -/
def start (c : Console) : Nat := 256 * (c.crt CRT_START_ADDR_H).toNat + (c.crt CRT_START_ADDR_L).toNat

/-- Where the CRT controller shows the cursor, in characters from the start of video memory. -/
def cursor (c : Console) : Nat := 256 * (c.crt CRT_CURSOR_H).toNat + (c.crt CRT_CURSOR_L).toNat

/-- The console shows the screen, and nothing but the fill at the last window row has missed video
memory. -/
structure Tracks (c : Console) (s : Screen Cell) : Prop where
  shows_screen : c.Shows s (window s.scrolled)
  start : c.start = 80 * window s.scrolled
  subtractions : ∀ a b, .subtracted a b ∈ c.log → b ≤ a
  stores : (∀ addr, .stored addr ∈ c.log → MEM_BASE ≤ addr ∧ addr < MEM_END) ↔ s.scrolled ≤ 76

/-- The start of the window stays, and what is logged fits. -/
structure Quiet (c c' : Console) : Prop where
  crt : c'.crt = c.crt
  mono : ∀ e ∈ c.log, e ∈ c'.log
  fits : ∀ e ∈ c'.log, e ∈ c.log ∨ e.Fits

variable {c c' c'' : Console} {s s' : Screen Cell} {row : Nat}

theorem Quiet.refl (c : Console) : c.Quiet c := ⟨rfl, fun _ h => h, fun _ h => .inl h⟩

theorem Quiet.trans (h : c.Quiet c') (h' : c'.Quiet c'') : c.Quiet c'' := by
  refine ⟨h'.crt.trans h.crt, fun e he => h'.mono e (h.mono e he), fun e he => ?_⟩
  obtain hold | hfits := h'.fits e he
  · exact h.fits e hold
  · exact .inr hfits

theorem Quiet.of_log {e : Access} (hcrt : c'.crt = c.crt) (hlog : c'.log = e :: c.log) (he : e.Fits) :
    c.Quiet c' := by
  refine ⟨hcrt, fun e' he' => ?_, fun e' he' => ?_⟩
  · rw [hlog]
    exact List.mem_cons_of_mem _ he'
  · rw [hlog, List.mem_cons] at he'
    obtain rfl | hold := he'
    · exact .inr he
    · exact .inl hold

theorem quiet_sub_x {n : u32} (hn : n.toNat ≤ c.x.toNat) : c.Quiet (c.sub_x n) :=
  Quiet.of_log (e := .subtracted c.x n) rfl rfl (UInt32.le_iff_toNat_le.mpr hn)

theorem quiet_sub_pos {n : u32} (hn : n.toNat ≤ c.pos.toNat) : c.Quiet (c.sub_pos n) :=
  Quiet.of_log (e := .subtracted c.pos n) rfl rfl (UInt32.le_iff_toNat_le.mpr hn)

theorem in_memory {addr : u32} {n : Nat} (haddr : addr.toNat = 0xB8000 + n) (hn : n < 0x4000) :
    MEM_BASE ≤ addr ∧ addr < MEM_END := by
  have hbase : MEM_BASE.toNat = 0xB8000 := rfl
  have hend : MEM_END.toNat = 0xBC000 := rfl
  rw [UInt32.le_iff_toNat_le, UInt32.lt_iff_toNat_lt]
  omega

theorem quiet_store8 {addr : u32} {n : Nat} (haddr : addr.toNat = 0xB8000 + n) (hn : n < 0x4000) (value : u8) :
    c.Quiet (c.store8 addr value) :=
  Quiet.of_log (e := .stored addr) rfl rfl (in_memory haddr hn)

theorem quiet_store16 {addr : u32} {n : Nat} (haddr : addr.toNat = 0xB8000 + n) (hn : n + 1 < 0x4000) (value : u16) :
    c.Quiet (c.store16 addr value) := by
  have hnext : (addr + UInt32.ofNat 1).toNat = addr.toNat + 1 := add_ofNat_toNat (by omega)
  apply (quiet_store8 haddr (by omega) value.toUInt8).trans
  exact quiet_store8 (hnext.trans (by omega)) hn _

theorem Quiet.subtractions (h : c.Quiet c') (hall : ∀ a b, .subtracted a b ∈ c.log → b ≤ a) :
    ∀ a b, .subtracted a b ∈ c'.log → b ≤ a := by
  intro a b hmem
  obtain hold | hfits := h.fits _ hmem
  · exact hall a b hold
  · exact hfits

theorem Quiet.stores (h : c.Quiet c') :
    (∀ addr, .stored addr ∈ c'.log → MEM_BASE ≤ addr ∧ addr < MEM_END) ↔
      ∀ addr, .stored addr ∈ c.log → MEM_BASE ≤ addr ∧ addr < MEM_END := by
  constructor
  · intro hall addr hmem
    exact hall addr (h.mono _ hmem)
  · intro hall addr hmem
    obtain hold | hfits := h.fits _ hmem
    · exact hall addr hold
    · exact hfits

theorem Tracks.quiet (h : c.Tracks s) (hquiet : c.Quiet c') (hscrolled : s'.scrolled = s.scrolled)
    (hshows : c'.Shows s' (window s.scrolled)) : c'.Tracks s' := by
  refine ⟨by rwa [hscrolled], ?_, hquiet.subtractions h.subtractions, by rw [hscrolled, hquiet.stores, h.stores]⟩
  rw [hscrolled, ← h.start, Console.start, hquiet.crt, ← Console.start]

theorem Shows.pos_succ (h : c.Shows s row) : (c.pos + 1).toNat = c.pos.toNat + 1 := by
  have hpos := h.pos
  have hrow := h.row_le
  have hx := h.inside.x
  have hy := h.inside.y
  exact add_ofNat_toNat (n := 1) (by omega)

theorem Shows.quiet_home (h : c.Shows s row) : c.Quiet c.command_cr := by
  have hx := h.x
  have hpos := h.pos
  have hle := h.inside.x
  have hquiet : c.Quiet (c.sub_pos (c.x <<< 1)) := quiet_sub_pos (by rw [double_toNat (by omega)]; omega)
  exact ⟨hquiet.crt, hquiet.mono, hquiet.fits⟩

theorem Shows.quiet_unwrap (h : c.Shows s row) (hfull : 80 ≤ s.x) :
    c.Quiet ((c.sub_x WIDTH).sub_pos ROW_SIZE) := by
  have hx := h.x
  have hpos := h.pos
  have hwidth : WIDTH.toNat = 80 := rfl
  have hsize : ROW_SIZE.toNat = 160 := rfl
  apply (quiet_sub_x (n := WIDTH) (by omega)).trans
  apply quiet_sub_pos
  change ROW_SIZE.toNat ≤ c.pos.toNat
  omega

theorem Shows.quiet_back (h : c.Shows s row) : c.Quiet c.command_bs := by
  have hx := h.x
  have hpos := h.pos
  have hrow := h.row_le
  have hle := h.inside.x
  have hy := h.inside.y
  unfold command_bs
  split_ifs with hstart
  · have hone : 1 ≤ c.x.toNat := by
      have hne := mt UInt32.toNat_inj.mp hstart
      change c.x.toNat ≠ 0 at hne
      omega
    have htwo : (2 : u32).toNat ≤ c.pos.toNat := by
      change 2 ≤ _
      omega
    have hp : (c.pos - 2).toNat = 0xB8000 + (160 * row + 2 * (80 * s.y + s.x) - 2) := by
      rw [toNat_sub_of_le htwo]
      change _ - 2 = _
      omega
    apply (quiet_sub_x (n := 1) hone).trans
    apply (quiet_sub_pos (c := c.sub_x 1) htwo).trans
    exact quiet_store16 hp (by omega) erase
  · exact Quiet.refl c

theorem Shows.quiet_delete (h : c.Shows s row) : c.Quiet c.command_del := by
  have hpos := h.pos
  have hrow := h.row_le
  have hle := h.inside.x
  have hy := h.inside.y
  exact quiet_store16 (n := 160 * row + 2 * (80 * s.y + s.x)) (by omega) (by omega) erase

/-- A character is stored at the cursor, and the cursor moves on. -/
def store_char (ch : u8) (c : Console) : Console :=
  let c := c.store8 c.pos ch
  let c := { c with pos := c.pos + 1 }
  let c := c.store8 c.pos attr
  let c := { c with pos := c.pos + 1 }
  { c with x := c.x + 1 }

theorem Shows.advance (h : c.Shows s row) (hx : s.x < 80) (ch : u8) :
    (c.store_char ch).Shows (s.advance (ch, attr)) row := by
  have hpos := h.pos
  have hrow := h.row_le
  have hy := h.inside.y
  have hsucc := h.pos_succ
  have hsucc' : (c.pos + 1 + 1).toNat = (c.pos + 1).toNat + 1 := add_ofNat_toNat (n := 1) (by omega)
  have hnext : (c.x + 1).toNat = c.x.toNat + 1 := add_ofNat_toNat (n := 1) (by rw [h.x]; omega)
  refine ⟨⟨hx, hy⟩, ?_, h.y, h.row_le, h.screen, ?_, fun l hl k hk => ?_⟩
  · exact hnext.trans (congrArg (· + 1) h.x)
  · change (c.pos + 1 + 1).toNat = 0xB8000 + 160 * row + 2 * (80 * s.y + (s.x + 1))
    omega
  · have hram : ∀ a, (c.store_char ch).ram a =
        if a = c.pos + 1 then (ch, attr).2 else if a = c.pos then (ch, attr).1 else c.ram a := fun a => by
      change ((c.store8 c.pos ch).store8 (c.pos + 1) attr).ram a = _
      rw [store8_ram, store8_ram]
    refine (h.cell_store (v := (ch, attr)) (by omega) hx hpos (by rfl) hram hl hk).trans ?_
    rw [h.cells l hl k hk]
    rfl

theorem Shows.quiet_advance (h : c.Shows s row) (hx : s.x < 80) (ch : u8) : c.Quiet (c.store_char ch) := by
  have hpos := h.pos
  have hrow := h.row_le
  have hy := h.inside.y
  have hsucc := h.pos_succ
  have hchar : c.Quiet (c.store8 c.pos ch) :=
    quiet_store8 (n := 160 * row + 2 * (80 * s.y + s.x)) (by omega) (by omega) ch
  have hattr : (c.store8 c.pos ch).Quiet ((c.store8 c.pos ch).store8 (c.pos + 1) attr) :=
    quiet_store8 (n := 160 * row + 2 * (80 * s.y + s.x) + 1) (by omega) (by omega) attr
  have hquiet := hchar.trans hattr
  exact ⟨hquiet.crt, hquiet.mono, hquiet.fits⟩

/-- Two registers of eight bits keep a word address of video memory. -/
theorem crt_word (addr : u32) (n : Nat) (haddr : addr.toNat = 0xB8000 + 2 * n) (hn : n < 2 ^ 16) :
    256 * ((((addr - MEM_BASE) >>> 9) &&& 0xff).toUInt8).toNat +
      ((((addr - MEM_BASE) >>> 1) &&& 0xff).toUInt8).toNat = n := by
  have hbase : MEM_BASE.toNat = 0xB8000 := rfl
  have hdelta : (addr - MEM_BASE).toNat = 2 * n := by
    rw [toNat_sub_of_le (by omega)]
    omega
  have hbyte : ∀ k : u32, ((k &&& 0xff).toUInt8).toNat = k.toNat % 256 := by
    intro k
    rw [UInt32.toNat_toUInt8, UInt32.toNat_and]
    change (k.toNat &&& 2 ^ 8 - 1) % 256 = _
    rw [Nat.and_two_pow_sub_one_eq_mod, Nat.mod_mod]
  have hhigh : ((addr - MEM_BASE) >>> 9).toNat = n / 256 := by
    rw [UInt32.toNat_shiftRight, hdelta]
    change (2 * n) >>> 9 = _
    rw [Nat.shiftRight_eq_div_pow]
    omega
  have hlow : ((addr - MEM_BASE) >>> 1).toNat = n := by
    rw [UInt32.toNat_shiftRight, hdelta]
    change (2 * n) >>> 1 = _
    rw [Nat.shiftRight_eq_div_pow]
    omega
  rw [hbyte, hbyte, hhigh, hlow]
  omega

theorem scroll_up_eq (c : Console) :
    c.scroll_up = (if c.screen + SCR_SIZE + ROW_SIZE ≥ MEM_END then c.scroll_back else c).scroll_on := rfl

theorem window_le (scrolled : Nat) : window scrolled ≤ 77 := by
  unfold window
  split_ifs <;> omega

theorem window_succ (scrolled : Nat) :
    window (scrolled + 1) = if window scrolled = 77 then 1 else window scrolled + 1 := by
  unfold window
  split_ifs <;> omega

/-- The window is copied back when it cannot move on. -/
theorem Shows.at_end_iff (h : c.Shows s row) : c.screen + SCR_SIZE + ROW_SIZE ≥ MEM_END ↔ row = 77 := by
  have hend : MEM_END.toNat = 0xBC000 := rfl
  have hrow := h.row_le
  have hfill : (c.screen + SCR_SIZE).toNat = 0xB8000 + 160 * row + 4000 := h.byte_toNat (n := 4000) (by omega)
  have hafter : (c.screen + SCR_SIZE + UInt32.ofNat 160).toNat = 0xB8000 + 160 * row + 4160 := by
    rw [add_ofNat_toNat (by omega), hfill]
  change MEM_END ≤ c.screen + SCR_SIZE + UInt32.ofNat 160 ↔ _
  rw [UInt32.le_iff_toNat_le, hafter, hend]
  omega

theorem Shows.quiet_scroll_back (h : c.Shows s 77) : c.Quiet c.scroll_back := by
  have hbase : MEM_BASE.toNat = 0xB8000 := rfl
  have hsize : SCR_SIZE.toNat = 4000 := rfl
  have hscreen := h.screen
  have hpos := h.pos
  have hdelta : (c.screen - MEM_BASE).toNat = 160 * 77 := by
    rw [toNat_sub_of_le (by omega)]
    omega
  have hlog : c.scroll_back.log = .subtracted c.pos (c.screen - MEM_BASE) :: .subtracted c.screen MEM_BASE ::
      (c.memcpy MEM_BASE c.screen SCR_SIZE.toNat).log := by rw [scroll_back_eq]
  refine ⟨by rw [scroll_back_eq], fun e he => ?_, fun e he => ?_⟩
  · rw [hlog, List.mem_cons, List.mem_cons, mem_memcpy_log]
    exact .inr (.inr (.inr he))
  · rw [hlog, List.mem_cons, List.mem_cons, mem_memcpy_log] at he
    obtain rfl | rfl | ⟨j, hj, rfl⟩ | he := he
    · exact .inr (UInt32.le_iff_toNat_le.mpr (by omega))
    · exact .inr (UInt32.le_iff_toNat_le.mpr (by omega))
    · rw [hsize] at hj
      exact .inr (in_memory (n := j) (by rw [add_ofNat_toNat (by omega), hbase]) (by omega))
    · exact .inl he

theorem mem_scroll_on_log (c : Console) (e : Access) :
    e ∈ c.scroll_on.log ↔ e = .subtracted (c.screen + ROW_SIZE) MEM_BASE ∨
      (∃ j < 320, e = .stored (c.screen + UInt32.ofNat (4000 + j))) ∨ e ∈ c.log := by
  have hlog : c.scroll_on.log = .subtracted (c.screen + ROW_SIZE) MEM_BASE ::
      .subtracted (c.screen + ROW_SIZE) MEM_BASE ::
        (c.scroll_up_loop (c.screen + SCR_SIZE) WIDTH.toNat).log := by rw [scroll_on_eq]
  have haddr : ∀ j, c.screen + SCR_SIZE + UInt32.ofNat j = c.screen + UInt32.ofNat (4000 + j) := by
    intro j
    rw [Nat.add_comm]
    exact Words.add_add_ofNat c.screen 4000 j
  have hwidth : 4 * WIDTH.toNat = 320 := rfl
  rw [hlog, List.mem_cons, List.mem_cons, mem_scroll_up_loop_log, hwidth]
  simp only [haddr, ← or_assoc, or_self]

/-- The fill leaves video memory when the window starts in the last row but one. -/
theorem Shows.scroll_on_stores (h : c.Shows s row) (hrow : row ≤ 76) :
    (∀ addr, .stored addr ∈ c.scroll_on.log → MEM_BASE ≤ addr ∧ addr < MEM_END) ↔
      (∀ addr, .stored addr ∈ c.log → MEM_BASE ≤ addr ∧ addr < MEM_END) ∧ row ≠ 76 := by
  have haddr : ∀ j < 320, (c.screen + UInt32.ofNat (4000 + j)).toNat = 0xB8000 + (160 * row + 4000 + j) := by
    intro j hj
    rw [h.byte_toNat (by omega)]
    omega
  constructor
  · intro hall
    refine ⟨fun addr hmem => hall addr ((mem_scroll_on_log c _).mpr (.inr (.inr hmem))), ?_⟩
    rintro rfl
    have hlast := hall _ ((mem_scroll_on_log c _).mpr (.inr (.inl ⟨319, by omega, rfl⟩)))
    have hend : MEM_END.toNat = 0xBC000 := rfl
    rw [UInt32.lt_iff_toNat_lt, haddr 319 (by omega)] at hlast
    omega
  · rintro ⟨hall, hne⟩ addr hmem
    obtain heq | ⟨j, hj, heq⟩ | hold := (mem_scroll_on_log c _).mp hmem
    · cases heq
    · cases heq
      exact in_memory (haddr j hj) (by omega)
    · exact hall addr hold

theorem Tracks.scroll_up (h : c.Tracks s) (hlast : s.y + 1 = 25) :
    c.scroll_up.Tracks (s.line_feed 25 striped) := by
  have hfeed : (s.line_feed 25 striped).scrolled = s.scrolled + 1 := by
    unfold Screen.line_feed
    rw [if_neg (by omega)]
  have hbase : MEM_BASE.toNat = 0xB8000 := rfl
  -- what moving on does, once the window has room for it
  have hon : ∀ {c : Console} {row : Nat}, c.Shows s row → row ≤ 76 → window (s.scrolled + 1) = row + 1 →
      (∀ a b, .subtracted a b ∈ c.log → b ≤ a) →
      ((∀ addr, .stored addr ∈ c.log → MEM_BASE ≤ addr ∧ addr < MEM_END) ↔ s.scrolled ≤ 76) →
      (s.scrolled ≤ 76 → row = s.scrolled) → c.scroll_on.Tracks (s.line_feed 25 striped) := by
    intro c row h hrow hwindow hsubtractions hstores h76
    have hshows := h.scroll_on hrow hlast
    have hscreen := hshows.screen
    rw [scroll_on_eq] at hscreen
    change (c.screen + ROW_SIZE).toNat = _ at hscreen
    refine ⟨by rwa [hfeed, hwindow], ?_, fun a b hmem => ?_, ?_⟩
    · have hword := crt_word (c.screen + ROW_SIZE) (80 * (row + 1)) (by omega) (by omega)
      rw [hfeed, hwindow, Console.start, scroll_on_eq]
      exact hword
    · obtain heq | ⟨j, hj, heq⟩ | hold := (mem_scroll_on_log c _).mp hmem
      · cases heq
        rw [UInt32.le_iff_toNat_le]
        omega
      · cases heq
      · exact hsubtractions a b hold
    · rw [h.scroll_on_stores hrow, hstores, hfeed]
      omega
  have hwindow := window_succ s.scrolled
  have hshows := h.shows_screen
  rw [scroll_up_eq]
  by_cases hback : window s.scrolled = 77
  · rw [hback] at hshows
    rw [if_pos (hshows.at_end_iff.mpr rfl)]
    rw [if_pos hback] at hwindow
    have hquiet := hshows.quiet_scroll_back
    refine hon hshows.scroll_back (by omega) hwindow (hquiet.subtractions h.subtractions)
      (hquiet.stores.trans h.stores) fun hfirst => ?_
    unfold window at hback
    split_ifs at hback
    omega
  · rw [if_neg (mt hshows.at_end_iff.mp hback)]
    rw [if_neg hback] at hwindow
    have hle := window_le s.scrolled
    refine hon hshows (by omega) hwindow h.subtractions h.stores fun hfirst => ?_
    unfold window
    split_ifs <;> omega

theorem Tracks.feed (h : c.Tracks s) : c.command_lf.Tracks (s.line_feed 25 striped) := by
  have hshows := h.shows_screen
  have hy := hshows.y
  have hlt := hshows.inside.y
  have hnext : (c.y + 1).toNat = c.y.toNat + 1 := add_ofNat_toNat (n := 1) (by omega)
  have hheight : HEIGHT.toNat = 25 := rfl
  unfold command_lf
  by_cases hlast : s.y + 1 < 25
  · have hfeed : s.line_feed 25 striped = { s with y := s.y + 1 } := if_pos hlast
    rw [if_pos (UInt32.lt_iff_toNat_lt.mpr (by omega)), hfeed]
    refine h.quiet ⟨rfl, fun _ he => he, fun _ he => .inl he⟩ rfl ?_
    refine ⟨⟨hshows.inside.x, hlast⟩, hshows.x, by rw [hnext, hy], hshows.row_le, hshows.screen, ?_, hshows.cells⟩
    change (c.pos + UInt32.ofNat 160).toNat = 0xB8000 + 160 * window s.scrolled + 2 * (80 * (s.y + 1) + s.x)
    have hrow := window_le s.scrolled
    have hle := hshows.inside.x
    have hpos := hshows.pos
    rw [add_ofNat_toNat (by omega)]
    omega
  · rw [if_neg (mt UInt32.lt_iff_toNat_lt.mp (by omega))]
    exact h.scroll_up (by omega)

theorem Tracks.home (h : c.Tracks s) : c.command_cr.Tracks { s with x := 0 } :=
  h.quiet h.shows_screen.quiet_home rfl h.shows_screen.home

theorem Tracks.wrap (h : c.Tracks s) :
    (if c.x ≥ WIDTH then ((c.sub_x WIDTH).sub_pos ROW_SIZE).command_lf else c).Tracks (s.wrap 80 25 striped) := by
  have hx := h.shows_screen.x
  have hwidth : WIDTH.toNat = 80 := rfl
  unfold Screen.wrap
  by_cases hfull : 80 ≤ s.x
  · rw [if_pos hfull, if_pos (UInt32.le_iff_toNat_le.mpr (by omega))]
    have hstart : ((c.sub_x WIDTH).sub_pos ROW_SIZE).Tracks { s with x := 0 } :=
      h.quiet (h.shows_screen.quiet_unwrap hfull) rfl (h.shows_screen.unwrap hfull)
    exact hstart.feed
  · rw [if_neg hfull, if_neg (mt UInt32.le_iff_toNat_le.mp (by omega))]
    exact h

theorem Tracks.put (h : c.Tracks s) (ch : u8) :
    (c.put_char ch).Tracks ((s.wrap 80 25 striped).advance (ch, attr)) := by
  have hwrap := h.wrap
  obtain ⟨-, hx⟩ := h.shows_screen.inside.wrap (b := striped) (by omega)
  exact hwrap.quiet (hwrap.shows_screen.quiet_advance hx ch) rfl (hwrap.shows_screen.advance hx ch)

theorem Tracks.back (h : c.Tracks s) : c.command_bs.Tracks (s.press 80 25 striped .back) := by
  refine h.quiet h.shows_screen.quiet_back ?_ h.shows_screen.back
  unfold Screen.press
  split_ifs <;> rfl

theorem Tracks.delete (h : c.Tracks s) : c.command_del.Tracks (s.press 80 25 striped .delete) :=
  h.quiet h.shows_screen.quiet_delete rfl h.shows_screen.delete

theorem Tracks.ite {p : Prop} [Decidable p] {k k' : Key Cell} (h : c.Tracks (s.press 80 25 striped k))
    (h' : c'.Tracks (s.press 80 25 striped k')) :
    (if p then c else c').Tracks (s.press 80 25 striped (if p then k else k')) := by
  split_ifs
  · exact h
  · exact h'

/-- Each byte does to the window what its key does to the screen. -/
theorem Tracks.write_char (h : c.Tracks s) (ch : u8) :
    (c.write_char ch).Tracks (s.press 80 25 striped (key ch)) := by
  unfold Console.write_char key
  apply Tracks.ite h
  apply Tracks.ite h
  apply Tracks.ite h
  apply Tracks.ite h
  apply Tracks.ite h.back
  apply Tracks.ite h
  apply Tracks.ite h.feed.home
  apply Tracks.ite h
  apply Tracks.ite h.feed
  apply Tracks.ite h.home
  apply Tracks.ite h.delete
  exact h.put ch

end Console

end onix
