import Onix.Console.Runs
import Onix.Print.Parts

namespace onix.Print

open Format

section Strings

variable {strings strings' : Strings} {s : u32} {t : List u8}

theorem cstring_eq (hbytes : ∀ i c, t[i]? = some c → strings.byte (s + UInt32.ofNat i) = c ∧ c ≠ 0)
    (hzero : strings.byte (s + UInt32.ofNat t.length) = 0) (hlen : t.length < 2 ^ 32) : cstring strings s = t := by
  have hstrlen : strlen strings s = t.length := by
    apply strlen_from_eq _ hzero _ hlen
    intro i hi
    obtain ⟨hbyte, hne⟩ := hbytes i t[i] (List.getElem?_eq_getElem hi)
    rw [hbyte]
    exact hne
  unfold cstring bytes_at
  rw [hstrlen]
  apply List.ext_getElem?
  intro i
  rw [List.getElem?_map]
  by_cases hi : i < t.length
  · rw [List.getElem?_range hi, List.getElem?_eq_getElem hi, Option.map_some,
      (hbytes i t[i] (List.getElem?_eq_getElem hi)).1]
  · rw [List.getElem?_eq_none (by rw [List.length_range]; omega), List.getElem?_eq_none (by omega), Option.map_none]

/-- A string has its bytes where they are the same. -/
theorem cstring_congr
    (hsame : ∀ i ≤ strlen strings s, strings'.byte (s + UInt32.ofNat i) = strings.byte (s + UInt32.ofNat i)) :
    strlen strings' s = strlen strings s ∧ cstring strings' s = cstring strings s := by
  obtain ⟨hlt, hzero⟩ := strlen_spec strings s
  have hstrlen : strlen strings' s = strlen strings s := by
    apply strlen_from_eq _ _ _ hlt
    · intro i hi
      rw [hsame i hi.le]
      exact strlen_from_ne_zero (2 ^ 32) i hi
    · rwa [hsame _ le_rfl]
  refine ⟨hstrlen, ?_⟩
  unfold cstring bytes_at
  rw [hstrlen]
  apply List.map_congr_left
  intro i hi
  exact hsame i (List.mem_range.mp hi).le

end Strings

section Stored

variable (env : Env) (buf : u32) (fmt : List u8)

theorem stored_text (hlt : (format env fmt).length < 1024) {i : ℕ} {c : u8}
    (hc : (format env fmt ++ [0])[i]? = some c) :
    memory_after env.strings.byte buf (vsprintf_stores env fmt) (buf + UInt32.ofNat i) = c := by
  have hholds := store_loop_holds env fmt.length fmt 0 0 (fun i => env.strings.byte (buf + UInt32.ofNat i)) i c hc
  have hi : i < (format env fmt ++ [0]).length := (List.getElem?_eq_some_iff.mp hc).1
  rw [List.length_append, List.length_singleton] at hi
  rw [memory_after_buffer _ _ (by omega)]
  rwa [Nat.zero_add] at hholds

/-- The memory behind `vsprintf`, where the text fits the buffer -/
def stored (hlt : (format env fmt).length < 1024) : Strings where
  byte := memory_after env.strings.byte buf (vsprintf_stores env fmt)
  terminated := ⟨_, stored_text env buf fmt hlt List.getElem?_concat_length⟩

variable {env buf fmt} (hlt : (format env fmt).length < 1024)

theorem stored_outside {a : u32} (ha : 1024 ≤ (a - buf).toNat) : (stored env buf fmt hlt).byte a = env.strings.byte a :=
  memory_after_outside env.strings.byte ((in_buffer_iff env fmt).mpr hlt) ha

theorem bytes_at_stored : bytes_at (stored env buf fmt hlt).byte buf (format env fmt).length = format env fmt := by
  unfold bytes_at
  apply List.ext_getElem?
  intro i
  rw [List.getElem?_map]
  by_cases hi : i < (format env fmt).length
  · have hc : (format env fmt ++ [0])[i]? = some (format env fmt)[i] := by
      rw [List.getElem?_append_left hi, List.getElem?_eq_getElem hi]
    rw [List.getElem?_range hi, List.getElem?_eq_getElem hi, Option.map_some]
    exact congrArg some (stored_text env buf fmt hlt hc)
  · rw [List.getElem?_eq_none (by rw [List.length_range]; omega), List.getElem?_eq_none (by omega), Option.map_none]

/-- What `%s` finds in the buffer: the text up to its first zero. -/
theorem cstring_stored : cstring (stored env buf fmt hlt) buf = visible (format env fmt) := by
  obtain ⟨hbefore, hzero⟩ := visible_getElem (format env fmt)
  have hle : (visible (format env fmt)).length ≤ (format env fmt).length := (List.takeWhile_prefix _).length_le
  apply cstring_eq _ _ (by omega)
  · intro i c hc
    obtain ⟨hi, -⟩ := List.getElem?_eq_some_iff.mp hc
    obtain ⟨d, hd, hget⟩ := hbefore i hi
    have hsplit : visible (format env fmt) ++ (format env fmt).dropWhile (· != 0) = format env fmt :=
      List.takeWhile_append_dropWhile
    have hsame : d = c := by
      rw [List.getElem?_append_left (by omega), ← hsplit, List.getElem?_append_left hi, hc] at hget
      exact (Option.some.inj hget).symm
    rw [← hsame]
    exact ⟨stored_text env buf fmt hlt hget, hd⟩
  · exact stored_text env buf fmt hlt hzero

end Stored

/-- Where the buffers of printk.c, debug.c and assert.c are, and the names that are given to `spin` -/
structure Image where
  printk_buf : u32
  debugk_buf : u32
  panic_buf : u32
  assertion_name : u32
  panic_name : u32

/-- The memory but for that of the screen, and the console -/
structure Kernel where
  strings : Strings
  console : Console

/-- Not in one of the buffers, nor in the memory of the screen -/
def Image.Outside (im : Image) (a : u32) : Prop :=
  1024 ≤ (a - im.printk_buf).toNat ∧ 1024 ≤ (a - im.debugk_buf).toNat ∧ 1024 ≤ (a - im.panic_buf).toNat ∧
    0x8000 ≤ (a - 0xb8000).toNat

section Calls

variable (im : Image) (fpu : Fpu)

/-- `vsprintf` into a buffer of 1024 bytes; `none` where the text goes beyond it, which the assertion behind
the stores finds. What `%n` stores is left out, so that the memory is right for formats without it. -/
def vsprintf_into (buf : u32) (fmt : List u8) (args : ℕ → u32) (strings : Strings) : Option (Strings × Int32) :=
  if hlt : (format ⟨strings, fpu, args⟩ fmt).length < 1024 then
    some (stored ⟨strings, fpu, args⟩ buf fmt hlt, Int32.ofNat (format ⟨strings, fpu, args⟩ fmt).length)
  else none

def printk (fmt : List u8) (args : ℕ → u32) (k : Kernel) : Option (Kernel × Int32) := do
  let (strings, i) ← vsprintf_into fpu im.printk_buf fmt args k.strings
  return ({ strings, console := k.console.console_write (bytes_at strings.byte im.printk_buf i.toUInt32.toNat) }, i)

/-- `rest` are the words of the stack behind the arguments that are passed. -/
def debugk (file line : u32) (fmt : List u8) (args rest : ℕ → u32) (k : Kernel) : Option Kernel := do
  let (strings, _) ← vsprintf_into fpu im.debugk_buf fmt args k.strings
  let (k, _) ← printk im fpu debugk_format (laid [file, line, im.debugk_buf] rest) { k with strings }
  return k

def spin_format : List u8 := ascii "spinnig in %s ...\n"

/-- `spin`, up to the loop that it does not leave -/
def spin (name : u32) (rest : ℕ → u32) (k : Kernel) : Option Kernel := do
  let (k, _) ← printk im fpu spin_format (laid [name] rest) k
  return k

def assertion_format : List u8 :=
  ascii "\n--> assert(%s) failed!!!\n--> file: %s \n--> base: %s \n--> line: %d \n"

def assertion_failure (exp file base line : u32) (rest spin_rest : ℕ → u32) (k : Kernel) : Option Kernel := do
  let (k, _) ← printk im fpu assertion_format (laid [exp, file, base, line] rest) k
  spin im fpu im.assertion_name spin_rest k

def panic_format : List u8 := ascii "!!! panic !!!\n -->%s \n"

def panic (fmt : List u8) (args rest spin_rest : ℕ → u32) (k : Kernel) : Option Kernel := do
  let (strings, _) ← vsprintf_into fpu im.panic_buf fmt args k.strings
  let (k, _) ← printk im fpu panic_format (laid [im.panic_buf] rest) { k with strings }
  spin im fpu im.panic_name spin_rest k

end Calls

section Formats

def debugk_parts : List Part := [.text (ascii "[file:"), .s, .text (ascii " line:"), .d, .text (ascii "] "), .s]

def spin_parts : List Part := [.text (ascii "spinnig in "), .s, .text (ascii " ...\n")]

def assertion_parts : List Part := [.text (ascii "\n--> assert("), .s, .text (ascii ") failed!!!\n--> file: "), .s,
  .text (ascii " \n--> base: "), .s, .text (ascii " \n--> line: "), .d, .text (ascii " \n")]

def panic_parts : List Part := [.text (ascii "!!! panic !!!\n -->"), .s, .text (ascii " \n")]

theorem formats_eq : debugk_format = debugk_parts.flatMap Part.format ∧ spin_format = spin_parts.flatMap Part.format ∧
    assertion_format = assertion_parts.flatMap Part.format ∧ panic_format = panic_parts.flatMap Part.format := by
  decide

theorem parts_literal : (∀ part ∈ debugk_parts, part.Literal) ∧ (∀ part ∈ spin_parts, part.Literal) ∧
    (∀ part ∈ assertion_parts, part.Literal) ∧ ∀ part ∈ panic_parts, part.Literal := by
  decide

end Formats

section Printk

variable (im : Image) {fpu : Fpu} {fmt text : List u8} {args : ℕ → u32} {k : Kernel}

/-- `printk` writes the text to the console, and its buffer. -/
theorem printk_some (htext : format ⟨k.strings, fpu, args⟩ fmt = text) (hlt : text.length < 1024) :
    ∃ k', printk im fpu fmt args k = some (k', Int32.ofNat text.length) ∧ k'.console = k.console.console_write text ∧
      ∀ a, 1024 ≤ (a - im.printk_buf).toNat → k'.strings.byte a = k.strings.byte a := by
  subst htext
  have hcount : (Int32.ofNat (format ⟨k.strings, fpu, args⟩ fmt).length).toUInt32.toNat =
      (format ⟨k.strings, fpu, args⟩ fmt).length := UInt32.toNat_ofNat_of_lt' (hlt.trans (by decide))
  refine ⟨⟨stored ⟨k.strings, fpu, args⟩ im.printk_buf fmt hlt,
    k.console.console_write (format ⟨k.strings, fpu, args⟩ fmt)⟩, ?_, rfl, fun a ha => stored_outside hlt ha⟩
  unfold printk vsprintf_into
  rw [dif_pos hlt]
  change some (Kernel.mk _ (k.console.console_write (bytes_at _ _ (Int32.ofNat _).toUInt32.toNat)), _) = _
  rw [hcount, bytes_at_stored]

theorem printk_none (htext : format ⟨k.strings, fpu, args⟩ fmt = text) (hlt : ¬ text.length < 1024) :
    printk im fpu fmt args k = none := by
  subst htext
  unfold printk vsprintf_into
  rw [dif_neg hlt]
  rfl

end Printk

/-- A call that the kernel makes -/
inductive Call where
  | printk (fmt : List u8) (args : ℕ → u32)
  | debugk (file line : u32) (fmt : List u8) (args rest : ℕ → u32)
  | assertion_failure (exp file base line : u32) (rest spin_rest : ℕ → u32)
  | panic (fmt : List u8) (args rest spin_rest : ℕ → u32)

namespace Call

variable (im : Image) (fpu : Fpu)

def carry_out (k : Kernel) : Call → Option Kernel
  | .printk fmt args => (Print.printk im fpu fmt args k).map Prod.fst
  | .debugk file line fmt args rest => Print.debugk im fpu file line fmt args rest k
  | .assertion_failure exp file base line rest spin_rest =>
    Print.assertion_failure im fpu exp file base line rest spin_rest k
  | .panic fmt args rest spin_rest => Print.panic im fpu fmt args rest spin_rest k

/-- `spin` is not left. -/
def Last : Call → Prop
  | .assertion_failure .. | .panic .. => True
  | _ => False

instance : DecidablePred Last
  | .printk .. | .debugk .. => instDecidableFalse
  | .assertion_failure .. | .panic .. => instDecidableTrue

variable (strings : Strings)

/-- What a call says, one text for each call of `console_write` -/
def texts : Call → List (List u8)
  | .printk fmt args => [format ⟨strings, fpu, args⟩ fmt]
  | .debugk file line fmt args _ =>
    [ascii "[file:" ++ cstring strings file ++ ascii " line:" ++ decimal line.toInt32.toInt ++ ascii "] " ++
      visible (format ⟨strings, fpu, args⟩ fmt)]
  | .assertion_failure exp file base line _ _ =>
    [ascii "\n--> assert(" ++ cstring strings exp ++ ascii ") failed!!!\n--> file: " ++ cstring strings file ++
      ascii " \n--> base: " ++ cstring strings base ++ ascii " \n--> line: " ++ decimal line.toInt32.toInt ++ ascii " \n",
      ascii "spinnig in assertion_failue() ...\n"]
  | .panic fmt args _ _ =>
    [ascii "!!! panic !!!\n -->" ++ visible (format ⟨strings, fpu, args⟩ fmt) ++ ascii " \n",
      ascii "spinnig in panic !!!! ...\n"]

/-- The texts that `vsprintf` makes for a call -/
def buffered : Call → List (List u8)
  | .printk fmt args => [format ⟨strings, fpu, args⟩ fmt]
  | .debugk file line fmt args rest => format ⟨strings, fpu, args⟩ fmt :: (debugk file line fmt args rest).texts fpu strings
  | .panic fmt args rest spin_rest => format ⟨strings, fpu, args⟩ fmt :: (panic fmt args rest spin_rest).texts fpu strings
  | c => c.texts fpu strings

/-- Each text has a place in its buffer, with the zero behind it. -/
def Fits (c : Call) : Prop := ∀ text ∈ c.buffered fpu strings, text.length < 1024

end Call

section Apart

variable (im : Image) (fpu : Fpu) (strings strings' : Strings)

/-- The same memory, but for the buffers and the screen -/
def Agree : Prop := ∀ a, im.Outside a → strings'.byte a = strings.byte a

/-- A string that `int` can count, and that is neither in the buffers nor on the screen -/
def StringApart (s : u32) : Prop :=
  strlen strings s < 2 ^ 31 ∧ ∀ i ≤ strlen strings s, im.Outside (s + UInt32.ofNat i)

/-- A format without `%n`, for which what is printed does not depend on the buffers and the screen -/
structure FormatApart (fmt : List u8) (args : ℕ → u32) : Prop where
  uncounted : Uncounted ⟨strings, fpu, args⟩ fmt
  same : ∀ strings', Agree im strings strings' →
    format ⟨strings', fpu, args⟩ fmt = format ⟨strings, fpu, args⟩ fmt

def Call.Apart : Call → Prop
  | .printk fmt args => FormatApart im fpu strings fmt args
  | .debugk file _ fmt args _ => StringApart im strings file ∧ FormatApart im fpu strings fmt args
  | .assertion_failure exp file base _ _ _ =>
    StringApart im strings exp ∧ StringApart im strings file ∧ StringApart im strings base
  | .panic fmt args _ _ => FormatApart im fpu strings fmt args

/-- The names for `spin` are in memory. -/
structure Loaded : Prop where
  assertion_apart : StringApart im strings im.assertion_name
  assertion_eq : cstring strings im.assertion_name = ascii "assertion_failue()"
  panic_apart : StringApart im strings im.panic_name
  panic_eq : cstring strings im.panic_name = ascii "panic !!!!"

end Apart

end onix.Print
