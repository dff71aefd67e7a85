import Onix.Print.Printk

namespace onix.Print

open Format

section Apart

variable {im : Image} {fpu : Fpu} {strings strings' : Strings} {s : u32}

theorem StringApart.same (h : StringApart im strings s) (hagree : Agree im strings strings') :
    strlen strings' s < 2 ^ 31 ∧ cstring strings' s = cstring strings s := by
  have hsame : ∀ i ≤ strlen strings s, strings'.byte (s + UInt32.ofNat i) = strings.byte (s + UInt32.ofNat i) :=
    fun i hi => hagree _ (h.2 i hi)
  obtain ⟨hstrlen, hcstring⟩ := cstring_congr hsame
  rw [hstrlen]
  exact ⟨h.1, hcstring⟩

theorem FormatApart.of_literal {fmt : List u8} (hfmt : '%'.toUInt8 ∉ fmt) (args : ℕ → u32) :
    FormatApart im fpu strings fmt args := by
  refine ⟨uncounted_of_literal _ hfmt, fun strings' _ => ?_⟩
  rw [format_literal _ hfmt, format_literal _ hfmt]

theorem cstring_length (strings : Strings) (s : u32) : (cstring strings s).length = strlen strings s :=
  bytes_at_length _ _ _

/-- Where the kernel has got to with some texts -/
structure Spoken (im : Image) (strings : Strings) (k k' : Kernel) (texts : List (List u8)) : Prop where
  console : k'.console = texts.foldl Console.console_write k.console
  agree : Agree im strings k'.strings

theorem Spoken.append {k k₁ k₂ : Kernel} {texts texts' : List (List u8)} (h : Spoken im strings k k₁ texts)
    (h' : Spoken im strings k₁ k₂ texts') : Spoken im strings k k₂ (texts ++ texts') := by
  refine ⟨?_, h'.agree⟩
  rw [h'.console, h.console, List.foldl_append]

variable {k : Kernel} {fmt text : List u8} {args : ℕ → u32}

theorem printk_spoken (hagree : Agree im strings k.strings) (htext : format ⟨k.strings, fpu, args⟩ fmt = text)
    (hlt : text.length < 1024) :
    ∃ k', printk im fpu fmt args k = some (k', Int32.ofNat text.length) ∧ Spoken im strings k k' [text] := by
  obtain ⟨k', hk', hconsole, hsame⟩ := printk_some im htext hlt
  exact ⟨k', hk', hconsole, fun a ha => (hsame a ha.1).trans (hagree a ha)⟩

theorem spin_spoken (fpu : Fpu) (spin_rest : ℕ → u32) (hagree : Agree im strings k.strings) {name : u32}
    {text : List u8} (hname : StringApart im strings name)
    (htext : ascii "spinnig in " ++ cstring strings name ++ ascii " ...\n" = text) (hlt : text.length < 1024) :
    ∃ k', spin im fpu name spin_rest k = some k' ∧ Spoken im strings k k' [text] := by
  obtain ⟨hshort, hsame⟩ := hname.same hagree
  have hformat : format ⟨k.strings, fpu, laid [name] spin_rest⟩ spin_format = text := by
    have hparts := format_parts ⟨k.strings, fpu, laid [name] spin_rest⟩ 0 parts_literal.2.1 ⟨hshort, trivial⟩
    rw [← formats_eq.2.1] at hparts
    rw [← htext, ← hsame, List.append_assoc]
    exact hparts
  obtain ⟨k', hk', hspoken⟩ := printk_spoken hagree hformat hlt
  refine ⟨k', ?_, hspoken⟩
  unfold spin
  rw [hk']
  rfl

/-- The first half of `debugk` and of `panic`: the message in its own buffer -/
theorem message_stored {buf : u32} (hbuf : buf = im.debugk_buf ∨ buf = im.panic_buf) (hagree : Agree im strings k.strings)
    (hfmt : FormatApart im fpu strings fmt args) (hlt : (format ⟨strings, fpu, args⟩ fmt).length < 1024) :
    ∃ strings', vsprintf_into fpu buf fmt args k.strings =
        some (strings', Int32.ofNat (format ⟨strings, fpu, args⟩ fmt).length) ∧
      Agree im strings strings' ∧ strlen strings' buf < 2 ^ 31 ∧
      cstring strings' buf = visible (format ⟨strings, fpu, args⟩ fmt) := by
  have hsame := hfmt.same k.strings hagree
  have hlt' : (format ⟨k.strings, fpu, args⟩ fmt).length < 1024 := by rwa [hsame]
  have hcstring : cstring (stored ⟨k.strings, fpu, args⟩ buf fmt hlt') buf = visible (format ⟨k.strings, fpu, args⟩ fmt) :=
    cstring_stored hlt'
  rw [hsame] at hcstring
  refine ⟨stored ⟨k.strings, fpu, args⟩ buf fmt hlt', ?_, ?_, ?_, hcstring⟩
  · unfold vsprintf_into
    rw [dif_pos hlt', hsame]
  · intro a ha
    have hfar : 1024 ≤ (a - buf).toNat := by
      rcases hbuf with rfl | rfl
      · exact ha.2.1
      · exact ha.2.2.1
    exact (stored_outside hlt' hfar).trans (hagree a ha)
  · have hle : (visible (format ⟨strings, fpu, args⟩ fmt)).length ≤ (format ⟨strings, fpu, args⟩ fmt).length :=
      (List.takeWhile_prefix _).length_le
    rw [← cstring_length, hcstring]
    omega

theorem vsprintf_into_none {buf : u32} (hagree : Agree im strings k.strings) (hfmt : FormatApart im fpu strings fmt args)
    (hlt : ¬ (format ⟨strings, fpu, args⟩ fmt).length < 1024) : vsprintf_into fpu buf fmt args k.strings = none := by
  rw [← hfmt.same k.strings hagree] at hlt
  exact dif_neg hlt

/-- The text of `debugk`, whose message is in memory -/
theorem debugk_text (fpu : Fpu) {file : u32} (line : u32) (rest : ℕ → u32) (hfile : StringApart im strings file)
    (hagree : Agree im strings strings')
    (hbuf : strlen strings' im.debugk_buf < 2 ^ 31) :
    format ⟨strings', fpu, laid [file, line, im.debugk_buf] rest⟩ debugk_format =
      ascii "[file:" ++ cstring strings file ++ ascii " line:" ++ decimal line.toInt32.toInt ++ ascii "] " ++
        cstring strings' im.debugk_buf := by
  obtain ⟨hshort, hsame⟩ := hfile.same hagree
  have hparts := format_parts ⟨strings', fpu, laid [file, line, im.debugk_buf] rest⟩ 0 parts_literal.1
    ⟨hshort, hbuf, trivial⟩
  rw [← formats_eq.1] at hparts
  rw [← hsame]
  simp only [List.append_assoc]
  rw [← List.append_nil (cstring strings' im.debugk_buf)]
  exact hparts

theorem assertion_text (fpu : Fpu) {exp file base : u32} (line : u32) (rest : ℕ → u32)
    (hexp : StringApart im strings exp) (hfile : StringApart im strings file)
    (hbase : StringApart im strings base) (hagree : Agree im strings strings') :
    format ⟨strings', fpu, laid [exp, file, base, line] rest⟩ assertion_format =
      ascii "\n--> assert(" ++ cstring strings exp ++ ascii ") failed!!!\n--> file: " ++ cstring strings file ++
        ascii " \n--> base: " ++ cstring strings base ++ ascii " \n--> line: " ++ decimal line.toInt32.toInt ++
        ascii " \n" := by
  obtain ⟨hexp_short, hexp_same⟩ := hexp.same hagree
  obtain ⟨hfile_short, hfile_same⟩ := hfile.same hagree
  obtain ⟨hbase_short, hbase_same⟩ := hbase.same hagree
  have hparts := format_parts ⟨strings', fpu, laid [exp, file, base, line] rest⟩ 0 parts_literal.2.2.1
    ⟨hexp_short, hfile_short, hbase_short, trivial⟩
  rw [← formats_eq.2.2.1] at hparts
  rw [← hexp_same, ← hfile_same, ← hbase_same]
  simp only [List.append_assoc]
  rw [← List.append_nil (ascii " \n")]
  exact hparts

theorem panic_text (fpu : Fpu) (rest : ℕ → u32) (hbuf : strlen strings' im.panic_buf < 2 ^ 31) :
    format ⟨strings', fpu, laid [im.panic_buf] rest⟩ panic_format =
      ascii "!!! panic !!!\n -->" ++ cstring strings' im.panic_buf ++ ascii " \n" := by
  have hparts := format_parts ⟨strings', fpu, laid [im.panic_buf] rest⟩ 0 parts_literal.2.2.2 ⟨hbuf, trivial⟩
  rw [← formats_eq.2.2.2] at hparts
  rw [List.append_assoc, ← List.append_nil (ascii " \n")]
  exact hparts

end Apart

section Calls

variable {im : Image} {fpu : Fpu} {strings : Strings} {k : Kernel}

theorem debugk_spoken {file line : u32} {fmt : List u8} {args rest : ℕ → u32} (hagree : Agree im strings k.strings)
    (hapart : (Call.debugk file line fmt args rest).Apart im fpu strings)
    (hfits : (Call.debugk file line fmt args rest).Fits fpu strings) :
    ∃ k', debugk im fpu file line fmt args rest k = some k' ∧
      Spoken im strings k k' ((Call.debugk file line fmt args rest).texts fpu strings) := by
  obtain ⟨hfile, hfmt⟩ := hapart
  obtain ⟨hmessage, htext⟩ := List.forall_mem_cons.mp hfits
  have hlt := htext _ List.mem_cons_self
  obtain ⟨strings', hstored, hagree', hshort, hcstring⟩ := message_stored (Or.inl rfl) hagree hfmt hmessage
  have hformat := debugk_text fpu line rest hfile hagree' hshort
  rw [hcstring] at hformat
  obtain ⟨k', hk', hspoken⟩ := printk_spoken (k := { k with strings := strings' }) hagree' hformat hlt
  refine ⟨k', ?_, hspoken.console, hspoken.agree⟩
  unfold debugk
  rw [hstored]
  change Option.bind (printk im fpu debugk_format _ { k with strings := strings' }) _ = _
  rw [hk']
  rfl

theorem debugk_none {file line : u32} {fmt : List u8} {args rest : ℕ → u32} (hagree : Agree im strings k.strings)
    (hapart : (Call.debugk file line fmt args rest).Apart im fpu strings)
    (hfits : ¬ (Call.debugk file line fmt args rest).Fits fpu strings) :
    debugk im fpu file line fmt args rest k = none := by
  obtain ⟨hfile, hfmt⟩ := hapart
  unfold debugk
  by_cases hmessage : (format ⟨strings, fpu, args⟩ fmt).length < 1024
  · obtain ⟨strings', hstored, hagree', hshort, hcstring⟩ := message_stored (Or.inl rfl) hagree hfmt hmessage
    have hformat := debugk_text fpu line rest hfile hagree' hshort
    rw [hcstring] at hformat
    rw [hstored]
    change Option.bind (printk im fpu debugk_format _ { k with strings := strings' }) _ = _
    rw [printk_none im hformat]
    · rfl
    · intro hlt
      exact hfits (List.forall_mem_cons.mpr ⟨hmessage, List.forall_mem_singleton.mpr hlt⟩)
  · rw [vsprintf_into_none hagree hfmt hmessage]
    rfl

theorem spin_texts : ascii "spinnig in " ++ ascii "assertion_failue()" ++ ascii " ...\n" =
      ascii "spinnig in assertion_failue() ...\n" ∧
    ascii "spinnig in " ++ ascii "panic !!!!" ++ ascii " ...\n" = ascii "spinnig in panic !!!! ...\n" ∧
    (ascii "spinnig in assertion_failue() ...\n").length < 1024 ∧
    (ascii "spinnig in panic !!!! ...\n").length < 1024 := by
  decide

theorem assertion_failure_spoken {exp file base line : u32} {rest spin_rest : ℕ → u32} (hloaded : Loaded im strings)
    (hagree : Agree im strings k.strings)
    (hapart : (Call.assertion_failure exp file base line rest spin_rest).Apart im fpu strings)
    (hfits : (Call.assertion_failure exp file base line rest spin_rest).Fits fpu strings) :
    ∃ k', assertion_failure im fpu exp file base line rest spin_rest k = some k' ∧
      Spoken im strings k k' ((Call.assertion_failure exp file base line rest spin_rest).texts fpu strings) := by
  obtain ⟨hexp, hfile, hbase⟩ := hapart
  have hlt := hfits _ List.mem_cons_self
  have hformat := assertion_text fpu line rest hexp hfile hbase hagree
  obtain ⟨k₁, hk₁, hspoken₁⟩ := printk_spoken hagree hformat hlt
  have hspin := congrArg (ascii "spinnig in " ++ · ++ ascii " ...\n") hloaded.assertion_eq
  obtain ⟨k₂, hk₂, hspoken₂⟩ := spin_spoken fpu spin_rest hspoken₁.agree
    hloaded.assertion_apart (hspin.trans spin_texts.1) spin_texts.2.2.1
  refine ⟨k₂, ?_, hspoken₁.append hspoken₂⟩
  unfold assertion_failure
  rw [hk₁]
  exact hk₂

theorem assertion_failure_none {exp file base line : u32} {rest spin_rest : ℕ → u32} (hagree : Agree im strings k.strings)
    (hapart : (Call.assertion_failure exp file base line rest spin_rest).Apart im fpu strings)
    (hfits : ¬ (Call.assertion_failure exp file base line rest spin_rest).Fits fpu strings) :
    assertion_failure im fpu exp file base line rest spin_rest k = none := by
  obtain ⟨hexp, hfile, hbase⟩ := hapart
  have hformat := assertion_text fpu line rest hexp hfile hbase hagree
  unfold assertion_failure
  rw [printk_none im hformat]
  · rfl
  · intro hlt
    exact hfits (List.forall_mem_cons.mpr ⟨hlt, List.forall_mem_singleton.mpr spin_texts.2.2.1⟩)

theorem panic_spoken {fmt : List u8} {args rest spin_rest : ℕ → u32} (hloaded : Loaded im strings)
    (hagree : Agree im strings k.strings) (hapart : (Call.panic fmt args rest spin_rest).Apart im fpu strings)
    (hfits : (Call.panic fmt args rest spin_rest).Fits fpu strings) :
    ∃ k', panic im fpu fmt args rest spin_rest k = some k' ∧
      Spoken im strings k k' ((Call.panic fmt args rest spin_rest).texts fpu strings) := by
  obtain ⟨hmessage, htexts⟩ := List.forall_mem_cons.mp hfits
  have hlt := htexts _ List.mem_cons_self
  obtain ⟨strings', hstored, hagree', hshort, hcstring⟩ := message_stored (Or.inr rfl) hagree hapart hmessage
  have hformat := panic_text fpu rest hshort
  rw [hcstring] at hformat
  obtain ⟨k₁, hk₁, hspoken₁⟩ := printk_spoken (k := { k with strings := strings' }) hagree' hformat hlt
  have hspin := congrArg (ascii "spinnig in " ++ · ++ ascii " ...\n") hloaded.panic_eq
  obtain ⟨k₂, hk₂, hspoken₂⟩ := spin_spoken fpu spin_rest hspoken₁.agree
    hloaded.panic_apart (hspin.trans spin_texts.2.1) spin_texts.2.2.2
  have hboth := hspoken₁.append hspoken₂
  refine ⟨k₂, ?_, hboth.console, hboth.agree⟩
  unfold panic
  rw [hstored]
  change Option.bind (printk im fpu panic_format _ { k with strings := strings' }) _ = _
  rw [hk₁]
  exact hk₂

theorem panic_none {fmt : List u8} {args rest spin_rest : ℕ → u32} (hagree : Agree im strings k.strings)
    (hapart : (Call.panic fmt args rest spin_rest).Apart im fpu strings)
    (hfits : ¬ (Call.panic fmt args rest spin_rest).Fits fpu strings) :
    panic im fpu fmt args rest spin_rest k = none := by
  unfold panic
  by_cases hmessage : (format ⟨strings, fpu, args⟩ fmt).length < 1024
  · obtain ⟨strings', hstored, hagree', hshort, hcstring⟩ := message_stored (Or.inr rfl) hagree hapart hmessage
    have hformat := panic_text fpu rest hshort
    rw [hcstring] at hformat
    rw [hstored]
    change Option.bind (printk im fpu panic_format _ { k with strings := strings' }) _ = _
    rw [printk_none im hformat]
    · rfl
    · intro hlt
      exact hfits (List.forall_mem_cons.mpr ⟨hmessage, List.forall_mem_cons.mpr ⟨hlt, List.forall_mem_singleton.mpr
        spin_texts.2.2.2⟩⟩)
  · rw [vsprintf_into_none hagree hapart hmessage]
    rfl

/-- A call says its texts, where each of them fits, and does not return from `vsprintf` otherwise. -/
theorem carry_out_spoken (hloaded : Loaded im strings) (hagree : Agree im strings k.strings) {c : Call}
    (hapart : c.Apart im fpu strings) :
    (c.Fits fpu strings → ∃ k', c.carry_out im fpu k = some k' ∧ Spoken im strings k k' (c.texts fpu strings)) ∧
      (¬ c.Fits fpu strings → c.carry_out im fpu k = none) := by
  cases c with
  | printk fmt args =>
    have htext : format ⟨k.strings, fpu, args⟩ fmt = format ⟨strings, fpu, args⟩ fmt := hapart.same k.strings hagree
    constructor
    · intro hfits
      obtain ⟨k', hk', hspoken⟩ := printk_spoken hagree htext (hfits _ List.mem_cons_self)
      exact ⟨k', congrArg (Option.map Prod.fst) hk', hspoken⟩
    · intro hfits
      refine congrArg (Option.map Prod.fst) (printk_none im htext ?_)
      exact fun hlt => hfits (List.forall_mem_singleton.mpr hlt)
  | debugk file line fmt args rest => exact ⟨debugk_spoken hagree hapart, debugk_none hagree hapart⟩
  | assertion_failure exp file base line rest spin_rest =>
    exact ⟨assertion_failure_spoken hloaded hagree hapart, assertion_failure_none hagree hapart⟩
  | panic fmt args rest spin_rest => exact ⟨panic_spoken hloaded hagree hapart, panic_none hagree hapart⟩

end Calls

section Runs

variable (im : Image) (fpu : Fpu)

/-- The calls one after the other, up to one that does not come back -/
def run : List Call → Kernel → Option Kernel
  | [], k => some k
  | c :: calls, k => do
    let k ← c.carry_out im fpu k
    if c.Last then return k else run calls k

/-- The calls that are made -/
def made : List Call → List Call
  | [] => []
  | c :: calls => if c.Last then [c] else c :: made calls

variable {im fpu} {strings : Strings}

theorem run_spoken (hloaded : Loaded im strings) {calls : List Call} (hcalls : ∀ c ∈ calls, c.Apart im fpu strings)
    {k : Kernel}
    (hagree : Agree im strings k.strings) :
    ((∀ c ∈ made calls, c.Fits fpu strings) → ∃ k', run im fpu calls k = some k' ∧
      Spoken im strings k k' ((made calls).flatMap (Call.texts fpu strings))) ∧
    (¬ (∀ c ∈ made calls, c.Fits fpu strings) → run im fpu calls k = none) := by
  induction calls generalizing k with
  | nil => exact ⟨fun _ => ⟨k, rfl, rfl, hagree⟩, fun h => absurd (fun c hc => absurd hc List.not_mem_nil) h⟩
  | cons c calls ih =>
    obtain ⟨hc, hrest⟩ := List.forall_mem_cons.mp hcalls
    obtain ⟨hfits, hnone⟩ := carry_out_spoken hloaded hagree hc
    have hstop : ∀ {f : Kernel → Option Kernel}, ¬ c.Fits fpu strings → (c.carry_out im fpu k).bind f = none := by
      intro f hc
      rw [hnone hc]
      rfl
    unfold run made
    by_cases hlast : c.Last
    · rw [if_pos hlast, List.forall_mem_singleton]
      refine ⟨fun hc => ?_, hstop⟩
      obtain ⟨k', hk', hspoken⟩ := hfits hc
      refine ⟨k', ?_, ?_⟩
      · rw [hk']
        exact if_pos hlast
      · rw [List.flatMap_singleton]
        exact hspoken
    · rw [if_neg hlast, List.forall_mem_cons]
      constructor
      · rintro ⟨hc, hall⟩
        obtain ⟨k₁, hk₁, hspoken₁⟩ := hfits hc
        obtain ⟨k₂, hk₂, hspoken₂⟩ := (ih hrest hspoken₁.agree).1 hall
        refine ⟨k₂, ?_, ?_⟩
        · rw [hk₁]
          exact (if_neg hlast).trans hk₂
        · rw [List.flatMap_cons]
          exact hspoken₁.append hspoken₂
      · intro hnot
        by_cases hc : c.Fits fpu strings
        · obtain ⟨k₁, hk₁, hspoken₁⟩ := hfits hc
          have hall := (ih hrest hspoken₁.agree).2 fun hall => hnot ⟨hc, hall⟩
          rw [hk₁]
          exact (if_neg hlast).trans hall
        · exact hstop hc

/-- What the kernel says from `console_init` on: the calls get to their ends if and only if each of their texts
fits its buffer, the screen is that of a terminal which scrolls in striped lines and on which the texts are typed
one after the other, and nothing but the buffers and the screen has changed in the memory. -/
theorem printed_exact (hloaded : Loaded im strings) {calls : List Call} (hcalls : ∀ c ∈ calls, c.Apart im fpu strings)
    (ram : u32 → u8) (crt_index : u8) (crt : u8 → u8) :
    ((run im fpu calls ⟨strings, (Console.cold ram crt_index crt).console_init⟩).isSome ↔
      ∀ c ∈ made calls, c.Fits fpu strings) ∧
    ∀ k, run im fpu calls ⟨strings, (Console.cold ram crt_index crt).console_init⟩ = some k →
      k.console.Tracks (Console.screen_after striped ((made calls).flatMap (Call.texts fpu strings))) ∧
      ∀ a, im.Outside a → k.strings.byte a = strings.byte a := by
  obtain ⟨hsome, hnone⟩ := run_spoken hloaded hcalls (k := ⟨strings, (Console.cold ram crt_index crt).console_init⟩)
    fun _ _ => rfl
  by_cases hfits : ∀ c ∈ made calls, c.Fits fpu strings
  · obtain ⟨k', hk', hspoken⟩ := hsome hfits
    rw [hk']
    refine ⟨iff_of_true rfl hfits, ?_⟩
    rintro k ⟨⟩
    refine ⟨?_, hspoken.agree⟩
    rw [hspoken.console]
    exact Console.console_writes_tracks ram crt_index crt _
  · rw [hnone hfits]
    refine ⟨iff_of_false Bool.false_ne_true hfits, ?_⟩
    rintro k ⟨⟩

/-- Three buffers, and the names for `spin` behind them -/
def small : Image := ⟨0x1000, 0x2000, 0x3000, 0x9000, 0x9100⟩

def small_strings : Strings where
  byte a :=
    if 0x9000 ≤ a ∧ a < 0x9100 then (ascii "assertion_failue()").getD (a - 0x9000).toNat 0
    else (ascii "panic !!!!").getD (a - 0x9100).toNat 0
  terminated := ⟨0, by decide⟩

theorem small_loaded : Loaded small small_strings where
  assertion_apart := by
    unfold StringApart Image.Outside small
    decide
  assertion_eq := by decide
  panic_apart := by
    unfold StringApart Image.Outside small
    decide
  panic_eq := by decide

/-- A message of `debugk`, a panic, and a message that does not come any more -/
def small_calls : List Call := [.debugk 0x9100 7 (ascii "hi") (fun _ => 0) fun _ => 0,
  .panic (ascii "no") (fun _ => 0) (fun _ => 0) fun _ => 0, .printk (ascii "hi") fun _ => 0]

theorem printed_exact_small : (run small Fpu.zero small_calls
    ⟨small_strings, (Console.cold (fun _ => 0) 0 fun _ => 0).console_init⟩).isSome ∧
    (made small_calls).flatMap (Call.texts Fpu.zero small_strings) = [ascii "[file:panic !!!! line:7] hi",
      ascii "!!! panic !!!\n -->no \n", ascii "spinnig in panic !!!! ...\n"] := by
  have hcalls : ∀ c ∈ small_calls, c.Apart small Fpu.zero small_strings := by
    intro c hc
    rcases List.mem_cons.mp hc with rfl | hc
    · exact ⟨small_loaded.panic_apart, .of_literal (by decide) _⟩
    rcases List.mem_cons.mp hc with rfl | hc
    · exact FormatApart.of_literal (by decide) _
    rw [List.mem_singleton.mp hc]
    exact FormatApart.of_literal (by decide) _
  have hfits : ∀ c ∈ made small_calls, c.Fits Fpu.zero small_strings := by
    unfold Call.Fits
    decide
  exact ⟨(printed_exact small_loaded hcalls (fun _ => 0) 0 fun _ => 0).1.mpr hfits, by decide⟩

end Runs

end onix.Print
