import Onix.Console.Refinement

namespace onix

open Terminal

namespace Console

variable {c : Console} {s : Screen Cell}

/-- `console_clear` fills video memory from `ptr` on, a word at a time. -/
theorem console_clear_loop_ram (ptr : u32) (c : Console) (heven : ptr.toNat % 2 = 0) (a : u32) :
    (c.console_clear_loop ptr).ram a =
      if ptr.toNat ≤ a.toNat ∧ a.toNat < 0xBC000 then if a.toNat % 2 = 0 then 0x20 else 0x07 else c.ram a := by
  have hend : MEM_END.toNat = 0xBC000 := rfl
  induction ptr, c using console_clear_loop.induct with
  | case1 ptr c hptr ih =>
    rw [UInt32.lt_iff_toNat_lt, hend] at hptr
    have hnext : (ptr + UInt32.ofNat 2).toNat = ptr.toNat + 2 := add_ofNat_toNat (by omega)
    have hone : (ptr + UInt32.ofNat 1).toNat = ptr.toNat + 1 := add_ofNat_toNat (by omega)
    change (ptr + 2).toNat = _ at hnext
    change (ptr + 1).toNat = _ at hone
    have hat : a = ptr ↔ a.toNat = ptr.toNat := UInt32.toNat_inj.symm
    have hat' : a = ptr + 1 ↔ a.toNat = ptr.toNat + 1 := by rw [← UInt32.toNat_inj, hone]
    unfold console_clear_loop
    rw [if_pos (UInt32.lt_iff_toNat_lt.mpr (by omega)), ih (by omega), hnext, store16_ram]
    simp only [hat, hat']
    obtain hlt | heq | heq | hgt : a.toNat < ptr.toNat ∨ a.toNat = ptr.toNat ∨ a.toNat = ptr.toNat + 1 ∨
        ptr.toNat + 2 ≤ a.toNat := by omega
    · rw [if_neg (by omega), if_neg (by omega), if_neg (by omega), if_neg (by omega)]
    · rw [if_neg (by omega), if_neg (by omega), if_pos heq, if_pos (by omega), if_pos (by omega)]
      rfl
    · rw [if_neg (by omega), if_pos heq, if_pos (by omega), if_neg (by omega)]
      rfl
    · rw [if_neg (show ¬ a.toNat = ptr.toNat + 1 by omega), if_neg (show ¬ a.toNat = ptr.toNat by omega)]
      simp only [hgt, show ptr.toNat ≤ a.toNat by omega, true_and]
  | case2 ptr c hptr =>
    rw [UInt32.lt_iff_toNat_lt, hend] at hptr
    unfold console_clear_loop
    rw [if_neg (mt UInt32.lt_iff_toNat_lt.mp (by omega)), if_neg (by omega)]

theorem console_clear_loop_eq (ptr : u32) (c : Console) :
    c.console_clear_loop ptr =
      { c with ram := (c.console_clear_loop ptr).ram, log := (c.console_clear_loop ptr).log } := by
  induction ptr, c using console_clear_loop.induct with
  | case1 ptr c hptr ih =>
    unfold console_clear_loop
    rw [if_pos hptr, ih]
    rfl
  | case2 ptr c hptr =>
    unfold console_clear_loop
    rw [if_neg hptr]

theorem quiet_console_clear_loop (ptr : u32) (c : Console) (heven : ptr.toNat % 2 = 0)
    (hbase : 0xB8000 ≤ ptr.toNat) : c.Quiet (c.console_clear_loop ptr) := by
  have hend : MEM_END.toNat = 0xBC000 := rfl
  induction ptr, c using console_clear_loop.induct with
  | case1 ptr c hptr ih =>
    unfold console_clear_loop
    rw [if_pos hptr]
    rw [UInt32.lt_iff_toNat_lt, hend] at hptr
    have hnext : (ptr + UInt32.ofNat 2).toNat = ptr.toNat + 2 := add_ofNat_toNat (by omega)
    change (ptr + 2).toNat = _ at hnext
    have hstore : c.Quiet (c.store16 ptr erase) :=
      quiet_store16 (n := ptr.toNat - 0xB8000) (by omega) (by omega) erase
    exact hstore.trans (ih (by omega) (by omega))
  | case2 ptr c hptr =>
    unfold console_clear_loop
    rw [if_neg hptr]
    exact Quiet.refl c

theorem set_cursor_tracks (h : c.Tracks s) : c.set_cursor.Tracks s := by
  have hshows := h.shows_screen
  have hbase : MEM_BASE.toNat = 0xB8000 := rfl
  have hpos := hshows.pos
  have hstart : c.set_cursor.start = c.start := by
    unfold start
    rw [set_cursor_eq]
    rfl
  have hlog : ∀ e, e ∈ c.set_cursor.log ↔ e = .subtracted c.pos MEM_BASE ∨ e ∈ c.log := by
    intro e
    rw [set_cursor_eq, List.mem_cons, List.mem_cons]
    simp only [← or_assoc, or_self]
  refine ⟨?_, hstart.trans h.start, fun a b hmem => ?_, ?_⟩
  · rw [set_cursor_eq]
    exact ⟨hshows.inside, hshows.x, hshows.y, hshows.row_le, hshows.screen, hshows.pos, hshows.cells⟩
  · obtain heq | hold := (hlog _).mp hmem
    · cases heq
      rw [UInt32.le_iff_toNat_le]
      omega
    · exact h.subtractions a b hold
  · rw [← h.stores]
    refine forall_congr' fun addr => ?_
    rw [hlog]
    simp only [reduceCtorEq, false_or]

/-- The cursor registers name the cell the cursor is at. -/
theorem set_cursor_cursor (h : c.Tracks s) : c.set_cursor.cursor = 80 * window s.scrolled + (80 * s.y + s.x) := by
  have hrow := window_le s.scrolled
  have hx := h.shows_screen.inside.x
  have hy := h.shows_screen.inside.y
  have hpos := h.shows_screen.pos
  have hword := crt_word c.pos (80 * window s.scrolled + (80 * s.y + s.x)) (by omega) (by omega)
  rw [← hword, cursor, set_cursor_eq]
  rfl

/-- The variables and registers that `console_clear` sets before it fills video memory. -/
def reset (c : Console) : Console :=
  ({ c with screen := MEM_BASE, pos := MEM_BASE, x := 0, y := 0 } : Console).set_cursor.set_screen

theorem console_clear_eq (c : Console) : c.console_clear = c.reset.console_clear_loop MEM_BASE := by
  unfold console_clear reset
  rfl

theorem reset_eq (c : Console) : c.reset =
    { c with
      screen := MEM_BASE
      pos := MEM_BASE
      x := 0
      y := 0
      crt_index := CRT_START_ADDR_L
      crt := c.reset.crt
      log := List.replicate 4 (.subtracted MEM_BASE MEM_BASE) ++ c.log } := by
  unfold reset
  rw [set_screen_eq, set_cursor_eq]
  rfl

theorem reset_start (c : Console) : c.reset.start = 0 := by
  have hword := crt_word MEM_BASE 0 rfl (by decide)
  rw [← hword, reset, set_screen_eq]
  rfl

theorem reset_cursor (c : Console) : c.reset.cursor = 0 := by
  have hword := crt_word MEM_BASE 0 rfl (by decide)
  rw [← hword, reset, set_screen_eq, set_cursor_eq]
  rfl

theorem console_clear_shows (c : Console) : c.console_clear.Shows (Screen.blank blank) 0 := by
  have hbase : MEM_BASE.toNat = 0xB8000 := rfl
  have hbyte : ∀ n < 4000, (c.reset.console_clear_loop MEM_BASE).ram (MEM_BASE + UInt32.ofNat n) =
      if n % 2 = 0 then 0x20 else 0x07 := by
    intro n hn
    have haddr : (MEM_BASE + UInt32.ofNat n).toNat = 0xB8000 + n := add_ofNat_toNat (by omega)
    rw [console_clear_loop_ram _ _ (by decide), haddr, if_pos (by omega)]
    simp only [show (0xB8000 + n) % 2 = n % 2 by omega]
  have hscreen : c.console_clear.screen = MEM_BASE := by rw [console_clear_eq, console_clear_loop_eq, reset_eq]
  have hpos : c.console_clear.pos = MEM_BASE := by rw [console_clear_eq, console_clear_loop_eq, reset_eq]
  have hx : c.console_clear.x = 0 := by rw [console_clear_eq, console_clear_loop_eq, reset_eq]
  have hy : c.console_clear.y = 0 := by rw [console_clear_eq, console_clear_loop_eq, reset_eq]
  refine ⟨⟨Nat.zero_le _, by decide⟩, by rw [hx]; rfl, by rw [hy]; rfl, Nat.zero_le _, by rw [hscreen, hbase],
    by rw [hpos, hbase]; rfl, fun l hl k hk => ?_⟩
  unfold cell
  rw [hscreen, console_clear_eq, hbyte _ (by omega), hbyte _ (by omega), if_pos (by omega), if_neg (by omega)]
  rfl

theorem console_init_tracks (ram : u32 → u8) (crt_index : u8) (crt : u8 → u8) :
    (cold ram crt_index crt).console_init.Tracks (Screen.blank blank) := by
  have hquiet := quiet_console_clear_loop MEM_BASE (cold ram crt_index crt).reset (by decide) (by decide)
  have hlog : ∀ e ∈ (cold ram crt_index crt).reset.log, e = .subtracted MEM_BASE MEM_BASE := by
    intro e he
    rw [reset_eq, List.mem_append, List.mem_replicate] at he
    obtain ⟨-, rfl⟩ | hmem := he
    · rfl
    · cases hmem
  unfold console_init
  refine ⟨console_clear_shows _, ?_, ?_, ?_⟩
  · have hstart := reset_start (cold ram crt_index crt)
    unfold start at hstart ⊢
    rw [console_clear_eq, hquiet.crt, hstart]
    rfl
  · rw [console_clear_eq]
    refine hquiet.subtractions fun a b hmem => ?_
    cases hlog _ hmem
    exact UInt32.le_refl _
  · rw [console_clear_eq, hquiet.stores]
    refine iff_of_true (fun addr hmem => ?_) (Nat.zero_le _)
    cases hlog _ hmem

theorem console_write_loop_tracks (h : c.Tracks s) (buf : List u8) :
    (c.console_write_loop buf).Tracks (s.type 80 25 striped (buf.map key)) := by
  unfold console_write_loop Screen.type
  induction buf generalizing c s with
  | nil => exact h
  | cons ch buf ih => exact ih (h.write_char ch)

theorem console_writes_nil (c : Console) : console_writes [] c = c.console_init := by
  unfold console_writes
  rw [List.foldl_nil]

theorem console_writes_append (calls : List (List u8)) (buf : List u8) (c : Console) :
    console_writes (calls ++ [buf]) c = ((console_writes calls c).console_write_loop buf).set_cursor := by
  unfold console_writes
  rw [List.foldl_append]
  rfl

/-- The screen of a terminal behind these calls. -/
def screen_after (b : Blanks Cell) (calls : List (List u8)) : Screen Cell :=
  (Screen.blank blank).type 80 25 b (calls.flatten.map key)

theorem screen_after_nil (b : Blanks Cell) : screen_after b [] = Screen.blank blank := rfl

theorem screen_after_append (b : Blanks Cell) (calls : List (List u8)) (buf : List u8) :
    screen_after b (calls ++ [buf]) = (screen_after b calls).type 80 25 b (buf.map key) := by
  unfold screen_after Screen.type
  rw [List.flatten_append, List.map_append, List.foldl_append, List.flatten_singleton]

/-- The console shows what a terminal with striped bottom lines shows. -/
theorem console_writes_tracks (ram : u32 → u8) (crt_index : u8) (crt : u8 → u8) (calls : List (List u8)) :
    (console_writes calls (cold ram crt_index crt)).Tracks (screen_after striped calls) := by
  induction calls using List.reverseRecOn with
  | nil =>
    rw [console_writes_nil, screen_after_nil]
    exact console_init_tracks ram crt_index crt
  | append_singleton calls buf ih =>
    rw [console_writes_append, screen_after_append]
    exact set_cursor_tracks (console_write_loop_tracks ih buf)

/-- The cursor registers follow each call. -/
theorem console_writes_cursor (ram : u32 → u8) (crt_index : u8) (crt : u8 → u8) (calls : List (List u8)) :
    let c := console_writes calls (cold ram crt_index crt)
    c.cursor = (c.pos.toNat - MEM_BASE.toNat) / 2 := by
  intro c
  induction calls using List.reverseRecOn with
  | nil =>
    have hquiet := quiet_console_clear_loop MEM_BASE (cold ram crt_index crt).reset (by decide) (by decide)
    have hcursor := reset_cursor (cold ram crt_index crt)
    have hc : c = (cold ram crt_index crt).reset.console_clear_loop MEM_BASE := by
      rw [← console_clear_eq, ← console_init]
      exact console_writes_nil _
    have hpos : c.pos = MEM_BASE := by
      rw [hc, console_clear_loop_eq, reset_eq]
    rw [hpos, Nat.sub_self]
    unfold cursor at hcursor ⊢
    rw [hc, hquiet.crt, hcursor]
  | append_singleton calls buf _ =>
    have htracks := console_write_loop_tracks (console_writes_tracks ram crt_index crt calls) buf
    have hpos := (set_cursor_tracks htracks).shows_screen.pos
    have hbase : MEM_BASE.toNat = 0xB8000 := rfl
    have hcursor := set_cursor_cursor htracks
    rw [← console_writes_append] at hpos hcursor
    change c.pos.toNat = _ at hpos
    change c.cursor = _ at hcursor
    omega

/-- After each byte the variables of console.c agree with each other, no unsigned subtraction has
wrapped, and after each call the registers of the CRT controller agree with the variables. -/
theorem console_cursor (ram : u32 → u8) (crt_index : u8) (crt : u8 → u8) (calls : List (List u8)) (buf : List u8) :
    let written := console_writes calls (cold ram crt_index crt)
    let c := written.console_write_loop buf
    c.pos.toNat = c.screen.toNat + 2 * (80 * c.y.toNat + c.x.toNat) ∧ c.x.toNat ≤ 80 ∧ c.y.toNat < 25 ∧
      (∃ k, c.screen.toNat = MEM_BASE.toNat + 160 * k) ∧
      c.screen.toNat + SCR_SIZE.toNat ≤ MEM_END.toNat ∧
      (∀ a b, .subtracted a b ∈ c.log → b ≤ a) ∧
      written.start = (written.screen.toNat - MEM_BASE.toNat) / 2 ∧
      written.cursor = (written.pos.toNat - MEM_BASE.toNat) / 2 := by
  intro written c
  have hbase : MEM_BASE.toNat = 0xB8000 := rfl
  have hsize : SCR_SIZE.toNat = 4000 := rfl
  have hend : MEM_END.toNat = 0xBC000 := rfl
  have hwritten := console_writes_tracks ram crt_index crt calls
  have hc : c.Tracks _ := console_write_loop_tracks hwritten buf
  have hshows := hc.shows_screen
  have hx := hshows.x
  have hy := hshows.y
  have hpos := hshows.pos
  have hscreen := hshows.screen
  have hrow := hshows.row_le
  have hx_le := hshows.inside.x
  have hy_lt := hshows.inside.y
  refine ⟨by omega, by omega, by omega, ⟨_, hscreen⟩, by omega, hc.subtractions, ?_,
    console_writes_cursor ram crt_index crt calls⟩
  have hstart : written.start = _ := hwritten.start
  have hfirst : written.screen.toNat = _ := hwritten.shows_screen.screen
  omega

/-- The terminal that console.c is meant to be: a line that comes in at the bottom is blank. -/
def plain : Blanks Cell where
  erased := blank
  bottom _ := blank

/-- Lines that come in at the bottom without their odd cells. -/
def marked : Blanks (Option Cell) where
  erased := some blank
  bottom column := if column % 2 = 0 then some blank else none

/-- A screen that keeps the odd cells of a line scrolled in empty until they are stored. -/
def unwritten (calls : List (List u8)) : Screen (Option Cell) :=
  (Screen.blank (some blank)).type 80 25 marked (calls.flatten.map fun ch => (key ch).map some)

theorem key_map_some (k : Key Cell) (v : Cell) : (k.map some).map (fun o => o.getD v) = k := by
  cases k <;> rfl

/-- What is in the empty cells tells the terminals apart. -/
theorem screen_after_eq {b : Blanks Cell} {v : Cell} (hb : marked.map (fun o => o.getD v) = b)
    (calls : List (List u8)) : screen_after b calls = (unwritten calls).map fun o => o.getD v := by
  have hkeys : (calls.flatten.map fun ch => (key ch).map some).map (Key.map fun o => o.getD v) =
      calls.flatten.map key := by
    rw [List.map_map]
    exact List.map_congr_left fun ch _ => key_map_some (key ch) v
  unfold screen_after unwritten
  rw [Screen.type_map, hkeys, hb]
  rfl

theorem screen_after_striped (calls : List (List u8)) :
    screen_after striped calls = (unwritten calls).map fun o => o.getD (0, 0) := by
  apply screen_after_eq
  unfold Blanks.map marked striped
  simp only [apply_ite (fun o : Option Cell => o.getD (0, 0)), Option.getD_some, Option.getD_none]

theorem screen_after_plain (calls : List (List u8)) :
    screen_after plain calls = (unwritten calls).map fun o => o.getD blank := by
  apply screen_after_eq
  unfold Blanks.map marked plain
  simp only [apply_ite (fun o : Option Cell => o.getD blank), Option.getD_some, Option.getD_none, ite_self]

/-- The window and the terminal have the same in a cell unless it is empty. -/
theorem cell_eq_iff (ram : u32 → u8) (crt_index : u8) (crt : u8 → u8) (calls : List (List u8)) {l k : Nat}
    (hl : l < 25) (hk : k < 80) :
    (console_writes calls (cold ram crt_index crt)).cell l k = (screen_after plain calls).cell l k ↔
      (unwritten calls).cell l k ≠ none := by
  have hcell := (console_writes_tracks ram crt_index crt calls).shows_screen.cells l hl k hk
  rw [screen_after_striped] at hcell
  rw [hcell, screen_after_plain]
  change ((unwritten calls).cell l k).getD (0, 0) = ((unwritten calls).cell l k).getD blank ↔ _
  cases (unwritten calls).cell l k with
  | none => decide
  | some v => simp

/-- Video memory shows the terminal's grid exactly when no odd cell of a line that scrolling brought in
is still to be stored. -/
theorem console_shows_terminal_iff (ram : u32 → u8) (crt_index : u8) (crt : u8 → u8) (calls : List (List u8)) :
    (∀ line < 25, ∀ column < 80, (console_writes calls (cold ram crt_index crt)).cell line column =
        (screen_after plain calls).cell line column) ↔
      ∀ line < 25, ∀ column < 80, (unwritten calls).cell line column ≠ none := by
  constructor
  · intro h l hl k hk
    exact (cell_eq_iff ram crt_index crt calls hl hk).mp (h l hl k hk)
  · intro h l hl k hk
    exact (cell_eq_iff ram crt_index crt calls hl hk).mpr (h l hl k hk)

/-- Twenty-five line feeds leave cells of zero bytes in the last line. -/
theorem scrolled_line_striped :
    ¬ ∀ line < 25, ∀ column < 80,
      (console_writes [List.replicate 25 LF] (cold (fun _ => 0) 0 fun _ => 0)).cell line column =
        (screen_after plain [List.replicate 25 LF]).cell line column := by
  intro h
  have hempty : (unwritten [List.replicate 25 LF]).cell 24 1 = none := by decide +kernel
  exact (cell_eq_iff _ _ _ _ (by decide) (by decide)).mp (h 24 (by decide) 1 (by decide)) hempty

/-- Every store stays in video memory exactly when the terminal has scrolled at most 76 times. -/
theorem console_stores_iff (ram : u32 → u8) (crt_index : u8) (crt : u8 → u8) (calls : List (List u8)) :
    (∀ addr, .stored addr ∈ (console_writes calls (cold ram crt_index crt)).log →
        MEM_BASE ≤ addr ∧ addr < MEM_END) ↔
      (screen_after plain calls).scrolled ≤ 76 := by
  have hscrolled : (screen_after plain calls).scrolled = (screen_after striped calls).scrolled := by
    rw [screen_after_plain, screen_after_striped]
    rfl
  rw [hscrolled]
  exact (console_writes_tracks ram crt_index crt calls).stores

/-- The fill of the 77th scroll ends behind video memory. -/
theorem fill_leaves_video_memory :
    ¬ ∀ addr, .stored addr ∈ (console_writes [List.replicate 101 LF] (cold (fun _ => 0) 0 fun _ => 0)).log →
      MEM_BASE ≤ addr ∧ addr < MEM_END := by
  have hscrolled : (screen_after striped [List.replicate 101 LF]).scrolled = 77 := by decide +kernel
  rw [(console_writes_tracks _ _ _ _).stores, hscrolled]
  decide

end Console

end onix
