import Onix.Format.Compositional
import Onix.Format.Visible

namespace onix.Format

section Place

/-- Stores at offsets from the beginning of a buffer, in the order of the code -/
abbrev Stores := List (ℕ × u8)

/-- Characters that are stored one behind the other, from an offset on. -/
def place (offset : ℕ) : List u8 → Stores
  | [] => []
  | c :: text => (offset, c) :: place (offset + 1) text

/-- The memory from the buffer on after some stores -/
def store_all (memory : ℕ → u8) (stores : Stores) : ℕ → u8 :=
  stores.foldl (fun memory store => Function.update memory store.1 store.2) memory

/-- A text lies in memory. -/
def Holds (memory : ℕ → u8) (offset : ℕ) (text : List u8) : Prop :=
  ∀ i c, text[i]? = some c → memory (offset + i) = c

variable (memory : ℕ → u8) (offset : ℕ) (text : List u8)

theorem store_all_append (stores stores' : Stores) :
    store_all memory (stores ++ stores') = store_all (store_all memory stores) stores' :=
  List.foldl_append

theorem store_all_cons (store : ℕ × u8) (stores : Stores) :
    store_all memory (store :: stores) = store_all (Function.update memory store.1 store.2) stores :=
  rfl

theorem place_offset : ∀ store ∈ place offset text, offset ≤ store.1 ∧ store.1 < offset + text.length := by
  induction text generalizing offset with
  | nil =>
    intro store hstore
    exact absurd hstore List.not_mem_nil
  | cons c text ih =>
    intro store hstore
    rw [place, List.mem_cons] at hstore
    rw [List.length_cons]
    obtain rfl | hstore := hstore
    · exact ⟨le_refl _, by omega⟩
    · have hrest := ih (offset + 1) store hstore
      omega

/-- Stores leave the memory at other offsets alone. -/
theorem store_all_frame {stores : Stores} {j : ℕ} (hj : ∀ store ∈ stores, store.1 ≠ j) :
    store_all memory stores j = memory j := by
  induction stores generalizing memory with
  | nil => rfl
  | cons store stores ih =>
    rw [store_all_cons, ih _ fun s hs => hj s (List.mem_cons_of_mem store hs)]
    exact Function.update_of_ne (hj store List.mem_cons_self).symm _ _

theorem place_frame {j : ℕ} (hj : j < offset ∨ offset + text.length ≤ j) :
    store_all memory (place offset text) j = memory j := by
  apply store_all_frame
  intro store hstore
  have hoffset := place_offset offset text store hstore
  omega

theorem place_holds : Holds (store_all memory (place offset text)) offset text := by
  induction text generalizing memory offset with
  | nil =>
    intro i c hc
    rw [List.getElem?_nil] at hc
    cases hc
  | cons first text ih =>
    intro i c hc
    rw [place, store_all_cons]
    cases i with
    | zero =>
      rw [List.getElem?_cons_zero, Option.some_inj] at hc
      have hframe := place_frame (Function.update memory offset first) (offset + 1) text (.inl (Nat.lt_add_one offset))
      rw [← hc]
      exact hframe.trans (Function.update_self _ _ _)
    | succ i =>
      rw [List.getElem?_cons_succ] at hc
      rw [show offset + (i + 1) = offset + 1 + i by omega]
      exact ih _ (offset + 1) i c hc

end Place

section Stores

variable (env : Env)

/-- What `case 'm'` and `case 'r'` store behind the last byte, and step back over. -/
def last_separator (c : u8) : List u8 :=
  if c = 'm'.toUInt8 then [':'.toUInt8] else if c = 'r'.toUInt8 then ['.'.toUInt8] else []

/-- The stores of the loop over the format, from the offset of `str` on, and the zero byte behind it. -/
def store_loop : ℕ → List u8 → ℕ → ℕ → Stores
  | 0, _, _, offset => [(offset, 0)]
  | _ + 1, [], _, offset => [(offset, 0)]
  | turns + 1, c :: fmt, ap, offset =>
    if c ≠ '%'.toUInt8 then (offset, c) :: store_loop turns fmt ap (offset + 1)
    else
      let (text, fmt', ap') := directive env fmt ap
      place offset (text ++ last_separator (peek (scan_head env fmt ap).fmt)) ++
        store_loop turns fmt' ap' (offset + text.length)

/-- What `vsprintf` stores into the buffer it is given; the assertion comes behind all of it. The strings that
it reads are taken to be outside of the buffer, and what `case 'n'` stores through its pointer is left out. -/
def vsprintf_stores (fmt : List u8) : Stores := store_loop env fmt.length fmt 0 0

/-- None of the directives that the loop over the format comes to is `%n`. -/
def uncounted_loop : ℕ → List u8 → ℕ → Prop
  | 0, _, _ => True
  | _ + 1, [], _ => True
  | turns + 1, c :: fmt, ap =>
    if c ≠ '%'.toUInt8 then uncounted_loop turns fmt ap
    else
      let (_, fmt', ap') := directive env fmt ap
      peek (scan_head env fmt ap).fmt ≠ 'n'.toUInt8 ∧ uncounted_loop turns fmt' ap'

/-- `vsprintf` stores nothing besides. -/
def Uncounted (fmt : List u8) : Prop := uncounted_loop env fmt.length fmt 0

theorem uncounted_of_literal {fmt : List u8} (hfmt : '%'.toUInt8 ∉ fmt) : Uncounted env fmt := by
  have hloop : ∀ turns ap, uncounted_loop env turns fmt ap := by
    intro turns ap
    induction fmt generalizing turns with
    | nil => cases turns <;> trivial
    | cons c fmt ih =>
      rw [List.mem_cons, not_or] at hfmt
      cases turns with
      | zero => trivial
      | succ turns =>
        unfold uncounted_loop
        rw [if_pos (Ne.symm hfmt.1)]
        exact ih hfmt.2 turns
  exact hloop _ _

def InBuffer (stores : Stores) : Prop := ∀ store ∈ stores, store.1 < 1024

theorem last_separator_length (c : u8) : (last_separator c).length ≤ 1 := by
  unfold last_separator
  split_ifs <;> decide

/-- The zero byte is stored behind the text, and nothing is stored behind it. -/
theorem store_loop_offset (turns : ℕ) : ∀ fmt ap offset,
    (offset + (format_loop env turns fmt ap).length, 0) ∈ store_loop env turns fmt ap offset ∧
      ∀ store ∈ store_loop env turns fmt ap offset, offset ≤ store.1 ∧
        store.1 ≤ offset + (format_loop env turns fmt ap).length := by
  have hend : ∀ offset : ℕ, (offset + ([] : List u8).length, 0) ∈ [(offset, (0 : u8))] ∧
      ∀ store ∈ [(offset, (0 : u8))], offset ≤ store.1 ∧ store.1 ≤ offset + ([] : List u8).length := by
    intro offset
    refine ⟨List.mem_cons_self, ?_⟩
    intro store hstore
    rw [List.mem_singleton.mp hstore]
    exact ⟨le_refl _, le_refl _⟩
  induction turns with
  | zero =>
    intro fmt ap offset
    exact hend offset
  | succ turns ih =>
    intro fmt ap offset
    cases fmt with
    | nil => exact hend offset
    | cons c fmt =>
      unfold store_loop format_loop
      split_ifs with hc
      · obtain ⟨hlast, hall⟩ := ih fmt ap (offset + 1)
        rw [List.length_cons]
        refine ⟨List.mem_cons_of_mem _ ?_, ?_⟩
        · rwa [show offset + ((format_loop env turns fmt ap).length + 1) =
            offset + 1 + (format_loop env turns fmt ap).length by omega]
        · intro store hstore
          rw [List.mem_cons] at hstore
          obtain rfl | hstore := hstore
          · exact ⟨le_refl _, by dsimp only; omega⟩
          · have hrest := hall store hstore
            omega
      · obtain ⟨text, fmt', ap'⟩ := directive env fmt ap
        dsimp only
        obtain ⟨hlast, hall⟩ := ih fmt' ap' (offset + text.length)
        have hseparator := last_separator_length (peek (scan_head env fmt ap).fmt)
        rw [List.length_append, ← Nat.add_assoc]
        refine ⟨List.mem_append_right _ hlast, ?_⟩
        intro store hstore
        rw [List.mem_append] at hstore
        obtain hstore | hstore := hstore
        · have hplace := place_offset offset _ store hstore
          rw [List.length_append] at hplace
          omega
        · have hrest := hall store hstore
          omega

/-- All stores are in the buffer when the text is shorter than it. -/
theorem in_buffer_iff (fmt : List u8) : InBuffer (vsprintf_stores env fmt) ↔ (format env fmt).length < 1024 := by
  obtain ⟨hlast, hall⟩ := store_loop_offset env fmt.length fmt 0 0
  rw [Nat.zero_add] at hlast hall
  constructor
  · intro hin
    exact hin _ hlast
  · intro hlt store hstore
    exact lt_of_le_of_lt (hall store hstore).2 hlt

/-- The stores leave the text and the zero byte in memory. -/
theorem store_loop_holds (turns : ℕ) : ∀ fmt ap offset memory,
    Holds (store_all memory (store_loop env turns fmt ap offset)) offset (format_loop env turns fmt ap ++ [0]) := by
  have hend : ∀ offset (memory : ℕ → u8), Holds (store_all memory [(offset, 0)]) offset ([] ++ [0]) := by
    intro offset memory
    exact place_holds memory offset [0]
  induction turns with
  | zero =>
    intro fmt ap offset memory
    exact hend offset memory
  | succ turns ih =>
    intro fmt ap offset memory
    cases fmt with
    | nil => exact hend offset memory
    | cons c fmt =>
      unfold store_loop format_loop
      split_ifs with hc
      · intro i d hd
        rw [store_all_cons]
        cases i with
        | zero =>
          rw [List.cons_append, List.getElem?_cons_zero, Option.some_inj] at hd
          rw [Nat.add_zero, store_all_frame, ← hd]
          · exact Function.update_self _ _ _
          · intro store hstore
            have hoffset := (store_loop_offset env turns fmt ap (offset + 1)).2 store hstore
            omega
        | succ i =>
          rw [List.cons_append, List.getElem?_cons_succ] at hd
          rw [show offset + (i + 1) = offset + 1 + i by omega]
          exact ih fmt ap (offset + 1) _ i d hd
      · obtain ⟨text, fmt', ap'⟩ := directive env fmt ap
        dsimp only
        intro i d hd
        rw [List.append_assoc] at hd
        rw [store_all_append]
        by_cases hi : i < text.length
        · rw [List.getElem?_append_left hi] at hd
          rw [store_all_frame]
          · apply place_holds memory offset _ i d
            rwa [List.getElem?_append_left hi]
          · intro store hstore
            have hoffset := (store_loop_offset env turns fmt' ap' (offset + text.length)).2 store hstore
            omega
        · rw [List.getElem?_append_right (Nat.le_of_not_lt hi)] at hd
          have hrest := ih fmt' ap' (offset + text.length) (store_all memory (place offset (text ++
            last_separator (peek (scan_head env fmt ap).fmt)))) _ d hd
          rwa [show offset + text.length + (i - text.length) = offset + i by omega] at hrest

end Stores

section Debugk

/-- The format that `debugk` passes on. -/
def debugk_format : List u8 := "[file:%s line:%d] %s".toList.map Char.toUInt8

/-- The memory after stores into a buffer -/
def memory_after (byte : u32 → u8) (buf : u32) (stores : Stores) (a : u32) : u8 :=
  store_all (fun i => byte (buf + UInt32.ofNat i)) stores (a - buf).toNat

/-- `debugk` with its buffer at `buf`: its own message, and that of `printk`, which finds the first one in memory. -/
def DebugkInBuffer (env : Env) (buf file line : u32) (rest : ℕ → u32) (fmt : List u8) : Prop :=
  InBuffer (vsprintf_stores env fmt) ∧
    ∀ strings : Strings, strings.byte = memory_after env.strings.byte buf (vsprintf_stores env fmt) →
      InBuffer (vsprintf_stores ⟨strings, env.fpu, laid [file, line, buf] rest⟩ debugk_format)

variable {env : Env} {buf : u32} {fmt : List u8}

theorem memory_after_buffer (byte : u32 → u8) (stores : Stores) {i : ℕ} (hi : i < 2 ^ 32) :
    memory_after byte buf stores (buf + UInt32.ofNat i) = store_all (fun i => byte (buf + UInt32.ofNat i)) stores i := by
  unfold memory_after
  rw [UInt32.add_comm, UInt32.add_sub_cancel, UInt32.toNat_ofNat_of_lt' hi]

/-- Outside the buffer nothing changes. -/
theorem memory_after_outside (byte : u32 → u8) {stores : Stores} (hin : InBuffer stores) {a : u32}
    (ha : 1024 ≤ (a - buf).toNat) : memory_after byte buf stores a = byte a := by
  unfold memory_after
  rw [store_all_frame]
  · rw [UInt32.ofNat_toNat, UInt32.add_comm, UInt32.sub_add_cancel]
  · intro store hstore
    have hlt := hin store hstore
    omega

/-- The visible part of a text is in front of its first zero byte. -/
theorem visible_getElem (text : List u8) :
    (∀ i < (visible text).length, ∃ c, c ≠ 0 ∧ (text ++ [0])[i]? = some c) ∧
      (text ++ [0])[(visible text).length]? = some 0 := by
  have hsplit : text ++ [0] = visible text ++ (text.dropWhile (· != 0) ++ [0]) := by
    rw [← List.append_assoc]
    exact congrArg (· ++ [0]) List.takeWhile_append_dropWhile.symm
  rw [hsplit]
  constructor
  · intro i hi
    have hmem : (visible text)[i] ∈ visible text := List.getElem_mem hi
    refine ⟨(visible text)[i], ?_, ?_⟩
    · have hne := List.mem_takeWhile_imp hmem
      rwa [bne_iff_ne] at hne
    · rw [List.getElem?_append_left hi, List.getElem?_eq_getElem hi]
  · rw [List.getElem?_append_right (le_refl _), Nat.sub_self]
    cases hrest : text.dropWhile (· != 0) with
    | nil => rfl
    | cons c rest =>
      have hne : text.dropWhile (· != 0) ≠ [] := by
        rw [hrest]
        exact List.cons_ne_nil c rest
      have hhead := List.head_dropWhile_not (· != 0) hne
      simp only [hrest, List.head_cons, bne_eq_false_iff_eq] at hhead
      rw [hhead]
      rfl

variable {strings : Strings} (hstrings : strings.byte = memory_after env.strings.byte buf (vsprintf_stores env fmt))
include hstrings

/-- The text that `printk` finds in the buffer of `debugk` -/
theorem strlen_buffer (hlt : (format env fmt).length < 1024) : strlen strings buf = visible_size env fmt := by
  have hholds := store_loop_holds env fmt.length fmt 0 0 (fun i => env.strings.byte (buf + UInt32.ofNat i))
  obtain ⟨hbefore, hzero⟩ := visible_getElem (format env fmt)
  have hle : (visible (format env fmt)).length ≤ (format env fmt).length := (List.takeWhile_prefix _).length_le
  have hbyte : ∀ i c, i < 1024 → (format env fmt ++ [0])[i]? = some c → strings.byte (buf + UInt32.ofNat i) = c := by
    intro i c hi hc
    have htext := hholds i c hc
    rw [hstrings, memory_after_buffer _ _ (by omega)]
    rwa [Nat.zero_add] at htext
  rw [← visible_size_eq env fmt hlt]
  apply strlen_from_eq _ _ _ (by omega)
  · intro i hi
    obtain ⟨c, hc, hget⟩ := hbefore i hi
    rwa [hbyte i c (by omega) hget]
  · exact hbyte _ 0 (by omega) hzero

theorem strlen_outside {file : u32} (hin : InBuffer (vsprintf_stores env fmt))
    (hfile : ∀ i ≤ strlen env.strings file, 1024 ≤ (file + UInt32.ofNat i - buf).toNat) :
    strlen strings file = strlen env.strings file := by
  obtain ⟨hlt, hzero⟩ := strlen_spec env.strings file
  have hbyte : ∀ i ≤ strlen env.strings file,
      strings.byte (file + UInt32.ofNat i) = env.strings.byte (file + UInt32.ofNat i) := by
    intro i hi
    rw [hstrings, memory_after_outside _ hin (hfile i hi)]
  apply strlen_from_eq _ _ _ hlt
  · intro i hi
    rw [hbyte i hi.le]
    exact strlen_from_ne_zero (2 ^ 32) i hi
  · rwa [hbyte _ (le_refl _)]

end Debugk

section Again

variable (env : Env) (turns : ℕ) (fmt : List u8) (ap : ℕ)

theorem size_loop_text {c : u8} (hc : c ≠ '%'.toUInt8) :
    size_loop env (turns + 1) (c :: fmt) ap = 1 + size_loop env turns fmt ap :=
  if_pos hc

theorem size_loop_directive : size_loop env (turns + 1) ('%'.toUInt8 :: fmt) ap = (scan_head env fmt ap).size env +
    size_loop env turns (directive env fmt ap).2.1 (directive env fmt ap).2.2 :=
  if_neg fun h => h rfl

theorem size_loop_s : size_loop env (turns + 1) ('%'.toUInt8 :: 's'.toUInt8 :: fmt) ap =
    string_size 0 (-1) (-1) (strlen env.strings (env.args ap)) + size_loop env turns fmt (ap + 1) := by
  have hhead : scan_head env ('s'.toUInt8 :: fmt) ap = ⟨0, -1, -1, 's'.toUInt8 :: fmt, ap⟩ := rfl
  have hrest : (directive env ('s'.toUInt8 :: fmt) ap).2 = (fmt, ap + 1) := rfl
  have hsize : Head.size env ⟨0, -1, -1, 's'.toUInt8 :: fmt, ap⟩ =
      string_size 0 (-1) (-1) (strlen env.strings (env.args ap)) := rfl
  rw [size_loop_directive, hhead, hsize, hrest]

theorem size_loop_d : size_loop env (turns + 1) ('%'.toUInt8 :: 'd'.toUInt8 :: fmt) ap =
    integer_size (env.args ap) SIGN (-1) (-1) 10 + size_loop env turns fmt (ap + 1) := by
  have hhead : scan_head env ('d'.toUInt8 :: fmt) ap = ⟨0, -1, -1, 'd'.toUInt8 :: fmt, ap⟩ := rfl
  have hrest : (directive env ('d'.toUInt8 :: fmt) ap).2 = (fmt, ap + 1) := rfl
  have hsign : 0 ||| SIGN = SIGN := rfl
  have hsize : Head.size env ⟨0, -1, -1, 'd'.toUInt8 :: fmt, ap⟩ = integer_size (env.args ap) SIGN (-1) (-1) 10 := by
    change integer_size (env.args ap) (0 ||| SIGN) (-1) (-1) 10 = _
    rw [hsign]
  rw [size_loop_directive, hhead, hsize, hrest]

/-- The second message of `debugk`: fourteen characters besides the file, the line and the first message. -/
theorem text_size_debugk : text_size env debugk_format =
    14 + string_size 0 (-1) (-1) (strlen env.strings (env.args 0)) + integer_size (env.args 1) SIGN (-1) (-1) 10 +
      string_size 0 (-1) (-1) (strlen env.strings (env.args 2)) := by
  have hformat : debugk_format = ['['.toUInt8, 'f'.toUInt8, 'i'.toUInt8, 'l'.toUInt8, 'e'.toUInt8, ':'.toUInt8,
      '%'.toUInt8, 's'.toUInt8, ' '.toUInt8, 'l'.toUInt8, 'i'.toUInt8, 'n'.toUInt8, 'e'.toUInt8, ':'.toUInt8,
      '%'.toUInt8, 'd'.toUInt8, ']'.toUInt8, ' '.toUInt8, '%'.toUInt8, 's'.toUInt8] := by decide
  unfold text_size
  rw [hformat]
  simp only [List.length_cons, List.length_nil]
  iterate 6 rw [size_loop_text _ _ _ _ (by decide)]
  rw [size_loop_s]
  iterate 6 rw [size_loop_text _ _ _ _ (by decide)]
  rw [size_loop_d]
  iterate 2 rw [size_loop_text _ _ _ _ (by decide)]
  rw [size_loop_s]
  simp only [Nat.zero_add, Nat.reduceAdd]
  unfold size_loop
  omega

/-- A string without a width and a precision is stored as it is. -/
theorem string_size_plain {n : ℕ} (hn : n < 2 ^ 31) : string_size 0 (-1) (-1) n = n := by
  have hof : (Int32.ofNat n).toInt = n := Int32.toInt_ofNat_of_lt hn
  have hminus : (-1 : Int32).toInt = -1 := rfl
  have hsize := field_size_cases (-2 ^ 31 + 1) (-1) n
  have hprecision : ¬ (0 ≤ (-1 : Int32) ∧ (-1 : Int32) < Int32.ofNat n) := by
    intro h
    exact absurd h.1 (by decide)
  unfold string_size
  dsimp only
  rw [if_neg hprecision, hof, hminus, if_pos (by decide)]
  omega

end Again

section Bound

variable (env : Env) (buf file line : u32) (rest : ℕ → u32) (fmt : List u8)

theorem in_buffer_size_iff : InBuffer (vsprintf_stores env fmt) ↔ text_size env fmt < 1024 :=
  (in_buffer_iff env fmt).trans (text_size_alike env fmt).lt_iff

theorem debugk_in_buffer_iff
    (hfile : ∀ i ≤ strlen env.strings file, 1024 ≤ (file + UInt32.ofNat i - buf).toNat) :
    DebugkInBuffer env buf file line rest fmt ↔ text_size env fmt < 1024 ∧
      14 + string_size 0 (-1) (-1) (strlen env.strings file) + integer_size line SIGN (-1) (-1) 10 +
        visible_size env fmt < 1024 := by
  have hfirst := in_buffer_size_iff env fmt
  have hsecond : ∀ strings : Strings, strings.byte = memory_after env.strings.byte buf (vsprintf_stores env fmt) →
      InBuffer (vsprintf_stores env fmt) →
      (InBuffer (vsprintf_stores ⟨strings, env.fpu, laid [file, line, buf] rest⟩ debugk_format) ↔
        14 + string_size 0 (-1) (-1) (strlen env.strings file) + integer_size line SIGN (-1) (-1) 10 +
          visible_size env fmt < 1024) := by
    intro strings hstrings hin
    have hlt := (in_buffer_iff env fmt).mp hin
    have hvisible : visible_size env fmt < 2 ^ 31 := by
      have hle : (visible (format env fmt)).length ≤ (format env fmt).length := (List.takeWhile_prefix _).length_le
      have heq := visible_size_eq env fmt hlt
      omega
    rw [in_buffer_iff, (text_size_alike _ _).lt_iff, text_size_debugk]
    change 14 + string_size 0 (-1) (-1) (strlen strings file) + integer_size line SIGN (-1) (-1) 10 +
      string_size 0 (-1) (-1) (strlen strings buf) < 1024 ↔ _
    rw [strlen_outside hstrings hin hfile, strlen_buffer hstrings hlt, string_size_plain hvisible]
  constructor
  · intro h
    obtain ⟨hin, hagain⟩ := h
    have hlt := (in_buffer_iff env fmt).mp hin
    have hzero : memory_after env.strings.byte buf (vsprintf_stores env fmt)
        (buf + UInt32.ofNat (format env fmt).length) = 0 := by
      have hholds := store_loop_holds env fmt.length fmt 0 0 (fun i => env.strings.byte (buf + UInt32.ofNat i))
        (format env fmt).length 0 List.getElem?_concat_length
      rw [memory_after_buffer _ _ (by omega)]
      rwa [Nat.zero_add] at hholds
    exact ⟨hfirst.mp hin, (hsecond ⟨_, _, hzero⟩ rfl hin).mp (hagain ⟨_, _, hzero⟩ rfl)⟩
  · intro h
    obtain ⟨hsize, hlong⟩ := h
    have hin := hfirst.mpr hsize
    exact ⟨hin, fun strings hstrings => (hsecond strings hstrings hin).mpr hlong⟩

/-- The stores stay in the buffer exactly for the texts that are short enough, and in `debugk` only with the file and the
line in front of them. -/
theorem stores_in_buffer_iff (hfile : ∀ i ≤ strlen env.strings file, 1024 ≤ (file + UInt32.ofNat i - buf).toNat) :
    (InBuffer (vsprintf_stores env fmt) ↔ text_size env fmt < 1024) ∧
    (DebugkInBuffer env buf file line rest fmt ↔ text_size env fmt < 1024 ∧
      14 + string_size 0 (-1) (-1) (strlen env.strings file) + integer_size line SIGN (-1) (-1) 10 +
        visible_size env fmt < 1024) :=
  ⟨in_buffer_size_iff env fmt, debugk_in_buffer_iff env buf file line rest fmt hfile⟩

end Bound

section Letters

/-- A call with arguments that are all the letter `a`, in a memory of empty strings -/
def letters : Env := ⟨Strings.zero, Fpu.zero, fun _ => 97⟩

theorem strlen_letters (s : u32) : strlen letters.strings s = 0 := rfl

theorem stores_in_buffer_letters :
    (∀ i ≤ strlen letters.strings 0x2000, 1024 ≤ ((0x2000 : u32) + UInt32.ofNat i - 0x1000).toNat) ∧
    InBuffer (vsprintf_stores letters ("%+d%%".toList.map Char.toUInt8)) ∧
    DebugkInBuffer letters 0x1000 0x2000 7 (fun _ => 0) ("%+d%%".toList.map Char.toUInt8) := by
  have hfile : ∀ i ≤ strlen letters.strings 0x2000, 1024 ≤ ((0x2000 : u32) + UInt32.ofNat i - 0x1000).toNat := by
    intro i hi
    rw [strlen_letters, Nat.le_zero] at hi
    rw [hi]
    decide
  obtain ⟨hbuffer, hdebugk⟩ := stores_in_buffer_iff letters 0x1000 0x2000 7 (fun _ => 0)
    ("%+d%%".toList.map Char.toUInt8) hfile
  rw [strlen_letters] at hdebugk
  exact ⟨hfile, hbuffer.mpr (by decide), hdebugk.mpr (by decide)⟩

/-- A width of 1024 puts the zero byte behind the buffer; one of 1010 fits, but not with the file and the line. -/
theorem stores_leave_buffer : ¬ InBuffer (vsprintf_stores letters ("%1024c".toList.map Char.toUInt8)) ∧
    InBuffer (vsprintf_stores letters ("%1010c".toList.map Char.toUInt8)) ∧
    ¬ DebugkInBuffer letters 0x1000 0x2000 7 (fun _ => 0) ("%1010c".toList.map Char.toUInt8) := by
  have hfile : ∀ i ≤ strlen letters.strings 0x2000, 1024 ≤ ((0x2000 : u32) + UInt32.ofNat i - 0x1000).toNat := by
    intro i hi
    rw [strlen_letters, Nat.le_zero] at hi
    rw [hi]
    decide
  rw [in_buffer_size_iff, in_buffer_size_iff, debugk_in_buffer_iff _ _ _ _ _ _ hfile, strlen_letters]
  decide

end Letters

end onix.Format
