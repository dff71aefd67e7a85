import Onix.Library.Terminal
import Onix.Console.Stores

namespace onix

open Terminal

/-- A character and its attribute. -/
abbrev Cell := u8 × u8

/-- The cell that `erase` is. -/
def blank : Cell := (erase.toUInt8, (erase >>> 8).toUInt8)

/-- A line filled with `erase` as words of 32 bits: each second cell gets the upper half. -/
def striped : Blanks Cell where
  erased := blank
  bottom column := if column % 2 = 0 then blank else (0, 0)

/-- What a terminal is told by a byte. -/
def key (ch : u8) : Key Cell :=
  if ch = NUL then .ignore
  else if ch = ENQ then .ignore
  else if ch = ESC then .ignore
  else if ch = BEL then .ignore
  else if ch = BS then .back
  else if ch = HT then .ignore
  else if ch = LF then .newline
  else if ch = VT then .ignore
  else if ch = FF then .feed
  else if ch = CR then .home
  else if ch = DEL then .delete
  else .put (ch, attr)

namespace Console

theorem stripe_cell (column : Nat) : (stripe (2 * column), stripe (2 * column + 1)) = striped.bottom column := by
  unfold stripe striped
  by_cases heven : column % 2 = 0
  · rw [if_pos (by omega), if_neg (by omega), if_pos (by omega)]
    exact (if_pos heven).symm
  · rw [if_neg (by omega), if_neg (by omega), if_neg (by omega), if_neg (by omega)]
    exact (if_neg heven).symm

def cell (c : Console) (line column : Nat) : Cell :=
  (c.ram (c.screen + UInt32.ofNat (2 * (80 * line + column))),
    c.ram (c.screen + UInt32.ofNat (2 * (80 * line + column) + 1)))

/-- The window shows the grid of `s`, from this row of video memory on. -/
structure Shows (c : Console) (s : Screen Cell) (row : Nat) : Prop where
  inside : s.Inside 80 25
  x : c.x.toNat = s.x
  y : c.y.toNat = s.y
  row_le : row ≤ 77
  screen : c.screen.toNat = 0xB8000 + 160 * row
  pos : c.pos.toNat = 0xB8000 + 160 * row + 2 * (80 * s.y + s.x)
  cells : ∀ line < 25, ∀ column < 80, c.cell line column = s.cell line column

variable {c : Console} {s : Screen Cell} {row : Nat}

theorem toNat_sub_of_le {a b : u32} (h : b.toNat ≤ a.toNat) : (a - b).toNat = a.toNat - b.toNat :=
  UInt32.toNat_sub_of_le _ _ (UInt32.le_iff_toNat_le.mpr h)

theorem Shows.byte_toNat (h : c.Shows s row) {n : Nat} (hn : n < 2 ^ 20) :
    (c.screen + UInt32.ofNat n).toNat = 0xB8000 + 160 * row + n := by
  have hrow := h.row_le
  rw [add_ofNat_toNat (by rw [h.screen]; omega), h.screen]

/-- A cell of the window that is stored, and the others. -/
theorem Shows.cell_store (h : c.Shows s row) {line column : Nat} (hline : line ≤ 25) (hcolumn : column < 80)
    {p : u32} (hp : p.toNat = 0xB8000 + 160 * row + 2 * (80 * line + column)) {c' : Console}
    (hscreen : c'.screen = c.screen) {v : Cell}
    (hram : ∀ a, c'.ram a = if a = p + 1 then v.2 else if a = p then v.1 else c.ram a) {l k : Nat}
    (hl : l < 25) (hk : k < 80) :
    c'.cell l k = if l = line ∧ k = column then v else c.cell l k := by
  have hrow := h.row_le
  have hp' : (p + 1).toNat = p.toNat + 1 := add_ofNat_toNat (n := 1) (by omega)
  have hfirst := h.byte_toNat (n := 2 * (80 * l + k)) (by omega)
  have hsecond := h.byte_toNat (n := 2 * (80 * l + k) + 1) (by omega)
  have hne : ∀ {a b : u32}, a.toNat ≠ b.toNat → a ≠ b := fun hab heq => hab (congrArg UInt32.toNat heq)
  unfold cell
  rw [hscreen, hram, hram]
  by_cases hat : l = line ∧ k = column
  · obtain ⟨rfl, rfl⟩ := hat
    have hzero : c.screen + UInt32.ofNat (2 * (80 * l + k)) = p := UInt32.toNat_inj.mp (by omega)
    have hone : c.screen + UInt32.ofNat (2 * (80 * l + k) + 1) = p + 1 := UInt32.toNat_inj.mp (by omega)
    rw [hzero, hone, if_neg (hne (by omega)), if_pos rfl, if_pos rfl, if_pos ⟨rfl, rfl⟩]
  · rw [if_neg (hne (by omega)), if_neg (hne (by omega)), if_neg (hne (by omega)), if_neg (hne (by omega)),
      if_neg hat]

theorem double_toNat {a : u32} (h : a.toNat ≤ 80) : (a <<< 1).toNat = 2 * a.toNat := by
  rw [UInt32.toNat_shiftLeft]
  change (a.toNat <<< 1) % 2 ^ 32 = _
  rw [Nat.shiftLeft_eq]
  omega

theorem Shows.home (h : c.Shows s row) : c.command_cr.Shows { s with x := 0 } row := by
  have hx := h.x
  have hpos := h.pos
  have hle := h.inside.x
  have hdouble : (c.x <<< 1).toNat = 2 * c.x.toNat := double_toNat (by omega)
  refine ⟨⟨Nat.zero_le _, h.inside.y⟩, rfl, h.y, h.row_le, h.screen, ?_, h.cells⟩
  change (c.pos - c.x <<< 1).toNat = 0xB8000 + 160 * row + 2 * (80 * s.y + 0)
  rw [toNat_sub_of_le (by omega)]
  omega

/-- Behind a full line the window is that of the same screen with the cursor at the line's start. -/
theorem Shows.unwrap (h : c.Shows s row) (hfull : 80 ≤ s.x) :
    ((c.sub_x WIDTH).sub_pos ROW_SIZE).Shows { s with x := 0 } row := by
  have hx := h.x
  have hpos := h.pos
  have hle := h.inside.x
  have hwidth : WIDTH.toNat = 80 := rfl
  have hsize : ROW_SIZE.toNat = 160 := rfl
  refine ⟨⟨Nat.zero_le _, h.inside.y⟩, ?_, h.y, h.row_le, h.screen, ?_, h.cells⟩
  · change (c.x - WIDTH).toNat = 0
    rw [toNat_sub_of_le (by omega)]
    omega
  · change (c.pos - ROW_SIZE).toNat = 0xB8000 + 160 * row + 2 * (80 * s.y + 0)
    rw [toNat_sub_of_le (by omega)]
    omega

theorem Shows.back (h : c.Shows s row) :
    c.command_bs.Shows (if s.x = 0 then s else { s.set s.y (s.x - 1) blank with x := s.x - 1 }) row := by
  have hx := h.x
  have hpos := h.pos
  have hle := h.inside.x
  have hy := h.inside.y
  have hzero : c.x = 0 ↔ s.x = 0 := by
    rw [← UInt32.toNat_inj, hx]
    rfl
  unfold command_bs
  by_cases hstart : s.x = 0
  · rw [if_pos hstart, if_neg (not_not.mpr (hzero.mpr hstart))]
    exact h
  · have hp : (c.pos - 2).toNat = 0xB8000 + 160 * row + 2 * (80 * s.y + (s.x - 1)) := by
      rw [toNat_sub_of_le (b := 2) (by change 2 ≤ _; omega)]
      change _ - 2 = _
      omega
    rw [if_neg hstart, if_pos (mt hzero.mp hstart)]
    refine ⟨⟨by change s.x - 1 ≤ 80; omega, hy⟩, ?_, h.y, h.row_le, h.screen, hp, fun l hl k hk => ?_⟩
    · change (c.x - 1).toNat = s.x - 1
      rw [toNat_sub_of_le (b := 1) (by change 1 ≤ _; omega), hx]
      rfl
    · refine (h.cell_store (v := blank) (by omega) (by omega) hp (by rfl) (fun a => store16_ram _ _ _ a) hl hk).trans ?_
      rw [h.cells l hl k hk]
      rfl

theorem Shows.delete (h : c.Shows s row) :
    c.command_del.Shows (s.set (s.y + s.x / 80) (s.x % 80) blank) row := by
  have hpos := h.pos
  have hle := h.inside.x
  have hy := h.inside.y
  have hp : c.pos.toNat = 0xB8000 + 160 * row + 2 * (80 * (s.y + s.x / 80) + s.x % 80) := by omega
  refine ⟨⟨hle, hy⟩, h.x, h.y, h.row_le, h.screen, h.pos, fun l hl k hk => ?_⟩
  refine (h.cell_store (v := blank) (by omega) (by omega) hp (by rfl) (fun a => store16_ram _ _ _ a) hl hk).trans ?_
  rw [h.cells l hl k hk]
  rfl

theorem scroll_back_eq (c : Console) : c.scroll_back =
    { c with
      ram := (c.memcpy MEM_BASE c.screen SCR_SIZE.toNat).ram
      screen := MEM_BASE
      pos := c.pos - (c.screen - MEM_BASE)
      log := .subtracted c.pos (c.screen - MEM_BASE) :: .subtracted c.screen MEM_BASE ::
        (c.memcpy MEM_BASE c.screen SCR_SIZE.toNat).log } := by
  unfold scroll_back
  generalize SCR_SIZE.toNat = count
  rw [memcpy_eq]
  rfl

/-- The window is copied to the first row, from the last row it can start at. -/
theorem Shows.scroll_back (h : c.Shows s 77) : c.scroll_back.Shows s 0 := by
  have hbase : MEM_BASE.toNat = 0xB8000 := rfl
  have hsize : SCR_SIZE.toNat = 4000 := rfl
  have hscreen := h.screen
  have hpos := h.pos
  have hdelta : (c.screen - MEM_BASE).toNat = 160 * 77 := by
    rw [toNat_sub_of_le (by omega)]
    omega
  have hlow : ∀ n < 4000, (MEM_BASE + UInt32.ofNat n).toNat = 0xB8000 + n :=
    fun n hn => add_ofNat_toNat (by omega)
  have hapart : ∀ i < SCR_SIZE.toNat, ∀ j < SCR_SIZE.toNat,
      c.screen + UInt32.ofNat i ≠ MEM_BASE + UInt32.ofNat j := by
    intro i hi j hj heq
    rw [hsize] at hi hj
    have hnat := congrArg UInt32.toNat heq
    rw [h.byte_toNat (by omega), hlow j hj] at hnat
    omega
  have hbyte : ∀ n < 4000, (c.memcpy MEM_BASE c.screen SCR_SIZE.toNat).ram (MEM_BASE + UInt32.ofNat n) =
      c.ram (c.screen + UInt32.ofNat n) := by
    intro n hn
    have hdist : (MEM_BASE + UInt32.ofNat n - MEM_BASE).toNat < SCR_SIZE.toNat := by
      rw [sub_ofNat_add_toNat _ (by omega), hsize]
      exact hn
    rw [memcpy_ram (Nat.le_of_lt SCR_SIZE.toNat_lt) _ _ hapart, if_pos hdist, UInt32.add_comm MEM_BASE,
      UInt32.add_sub_cancel]
  rw [scroll_back_eq]
  refine ⟨h.inside, h.x, h.y, by omega, rfl, ?_, fun l hl k hk => ?_⟩
  · change (c.pos - (c.screen - MEM_BASE)).toNat = _
    rw [toNat_sub_of_le (by omega)]
    omega
  · have hfirst := hbyte (2 * (80 * l + k)) (by omega)
    have hsecond := hbyte (2 * (80 * l + k) + 1) (by omega)
    rw [← h.cells l hl k hk]
    unfold cell
    dsimp only
    rw [hfirst, hsecond]

/-- The line behind the window is filled, and the window moves down to it. -/
def scroll_on (c : Console) : Console :=
  let c := c.scroll_up_loop (c.screen + SCR_SIZE) WIDTH.toNat
  let c := { c with screen := c.screen + ROW_SIZE }
  let c := { c with pos := c.pos + ROW_SIZE }
  c.set_screen

theorem scroll_on_eq (c : Console) : c.scroll_on =
    { c with
      ram := (c.scroll_up_loop (c.screen + SCR_SIZE) WIDTH.toNat).ram
      screen := c.screen + ROW_SIZE
      pos := c.pos + ROW_SIZE
      crt_index := CRT_START_ADDR_L
      crt := Function.update
        (Function.update c.crt CRT_START_ADDR_H (((c.screen + ROW_SIZE - MEM_BASE) >>> 9) &&& 0xff).toUInt8)
        CRT_START_ADDR_L (((c.screen + ROW_SIZE - MEM_BASE) >>> 1) &&& 0xff).toUInt8
      log := .subtracted (c.screen + ROW_SIZE) MEM_BASE :: .subtracted (c.screen + ROW_SIZE) MEM_BASE ::
        (c.scroll_up_loop (c.screen + SCR_SIZE) WIDTH.toNat).log } := by
  unfold scroll_on
  generalize WIDTH.toNat = turns
  rw [scroll_up_loop_eq]
  rfl

theorem Shows.scroll_on (h : c.Shows s row) (hrow : row ≤ 76) (hlast : s.y + 1 = 25) :
    c.scroll_on.Shows (s.line_feed 25 striped) (row + 1) := by
  have hsize : ROW_SIZE.toNat = 160 := rfl
  have hscreen : (c.screen + ROW_SIZE).toNat = 0xB8000 + 160 * (row + 1) := by
    rw [show ROW_SIZE = UInt32.ofNat 160 from rfl, h.byte_toNat (by omega)]
    omega
  have hbyte : ∀ n, c.screen + ROW_SIZE + UInt32.ofNat n = c.screen + UInt32.ofNat (n + 160) :=
    Words.add_add_ofNat c.screen 160
  have hfill : (c.screen + SCR_SIZE).toNat = 0xB8000 + 160 * row + 4000 := h.byte_toNat (n := 4000) (by omega)
  have hram : ∀ n < 4000, (c.scroll_up_loop (c.screen + SCR_SIZE) WIDTH.toNat).ram
      (c.screen + ROW_SIZE + UInt32.ofNat n) =
        if n < 3840 then c.ram (c.screen + UInt32.ofNat (n + 160)) else stripe (n - 3840) := by
    intro n hn
    have haddr := h.byte_toNat (n := n + 160) (by omega)
    have hwidth : 4 * WIDTH.toNat = 320 := rfl
    rw [hbyte, scroll_up_loop_ram (by decide), hwidth]
    by_cases hold : n < 3840
    · have hfar : ¬ (c.screen + UInt32.ofNat (n + 160) - (c.screen + SCR_SIZE)).toNat < 320 := by
        rw [UInt32.toNat_sub]
        omega
      rw [if_pos hold, if_neg hfar]
    · have hdist : (c.screen + UInt32.ofNat (n + 160) - (c.screen + SCR_SIZE)).toNat = n - 3840 := by
        rw [toNat_sub_of_le (by omega)]
        omega
      rw [if_neg hold, hdist, if_pos (by omega)]
  have hfeed : s.line_feed 25 striped =
      { s with
        cell := fun line column => if line + 1 < 25 then s.cell (line + 1) column else striped.bottom column
        scrolled := s.scrolled + 1 } := if_neg (by omega)
  rw [hfeed, scroll_on_eq]
  refine ⟨⟨h.inside.x, h.inside.y⟩, h.x, h.y, by omega, hscreen, ?_, fun l hl k hk => ?_⟩
  · have hpos := h.pos
    have hle := h.inside.x
    change (c.pos + UInt32.ofNat 160).toNat = 0xB8000 + 160 * (row + 1) + 2 * (80 * s.y + s.x)
    rw [add_ofNat_toNat (by omega)]
    omega
  · have hfirst := hram (2 * (80 * l + k)) (by omega)
    have hsecond := hram (2 * (80 * l + k) + 1) (by omega)
    unfold cell
    dsimp only
    rw [hfirst, hsecond]
    by_cases hup : l + 1 < 25
    · rw [if_pos hup, if_pos (by omega), if_pos (by omega), ← h.cells (l + 1) hup k hk, cell,
        show 2 * (80 * l + k) + 160 = 2 * (80 * (l + 1) + k) by omega,
        show 2 * (80 * l + k) + 1 + 160 = 2 * (80 * (l + 1) + k) + 1 by omega]
    · rw [if_neg hup, if_neg (by omega), if_neg (by omega), show 2 * (80 * l + k) - 3840 = 2 * k by omega,
        show 2 * (80 * l + k) + 1 - 3840 = 2 * k + 1 by omega]
      exact stripe_cell k

end Console

end onix
