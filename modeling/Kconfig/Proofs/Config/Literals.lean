import Kconfig.Proofs.Config.Writers
import Kconfig.Proofs.Text.Constant
/-!
What a C header says of numbers.

A header has the text of a number as it is, and a hexadecimal one with `0x` before it unless it
starts with that. This is a constant for the same number exactly if the text is spelled in a way that
C knows. Texts that are no such constants are numbers all the same: decimal ones with zeros before
them, which C takes for octal, hexadecimal ones with a sign, and those with underscores, blanks or
digits of other scripts. The limits of ranges are spelled in the right way, but for negative
hexadecimal ones.
-/
namespace Kconfig
open Text

/-- A text is spelled so that a header has a constant for its number. -/
def ValueType.SpelledForC : ValueType → List Char → Prop
  | .int => SpelledDecimal
  | .hex => SpelledHex
  | _ => fun _ => False

variable {sym : Symbol} {value : String} {n : Int}

theorem Symbol.headerValue_hex (htype : sym.type = .hex) (value : String) :
    (sym.headerValue value).toList = marked value.toList := by
  have hstarts : ∀ mark : String, mark.isPrefixOf value = true ↔ mark.toList <+: value.toList :=
    fun mark => String.startsWith_string_iff
  unfold Symbol.headerValue
  rw [htype]
  by_cases hmarked : ("0x".isPrefixOf value || "0X".isPrefixOf value) = true
  · dsimp only
    rw [if_pos hmarked]
    rw [Bool.or_eq_true, hstarts, hstarts] at hmarked
    rcases hmarked with ⟨s, hs⟩ | ⟨s, hs⟩
    · rw [← hs]
      rfl
    · rw [← hs]
      rfl
  · dsimp only
    rw [if_neg hmarked, String.toList_append]
    rw [Bool.or_eq_true, hstarts, hstarts, not_or] at hmarked
    rw [marked]
    · rfl
    · exact fun s hs => hmarked.1 ⟨s, hs.symm⟩
    · exact fun s hs => hmarked.2 ⟨s, hs.symm⟩

/-- The number of a header is that of the text exactly if the text is spelled for it. -/
theorem Symbol.cValue?_headerValue (htype : sym.type.isNumber = true)
    (h : readInt sym.type.radix value.toList = some n) :
    cValue? (sym.headerValue value).toList = some n ↔ sym.type.SpelledForC value.toList := by
  cases hsym : sym.type with
  | int =>
    rw [hsym] at h
    rw [Symbol.headerValue, hsym]
    exact cValue?_decimal h
  | hex =>
    rw [hsym] at h
    rw [Symbol.headerValue_hex hsym]
    exact cValue?_hex h
  | bool | string | unknown =>
    rw [hsym] at htype
    exact nomatch htype

/-- Limits of ranges are spelled for a header unless they are negative and hexadecimal. -/
theorem ValueType.spelledForC_write {type : ValueType} (htype : type.isNumber = true) (k : Int) :
    type.SpelledForC (type.write k).toList ↔ type = .int ∨ 0 ≤ k := by
  cases type with
  | int => exact iff_of_true (spelledDecimal_decimal k) (.inl rfl)
  | hex =>
    rw [or_iff_right (by decide)]
    exact spelledHex_hex k
  | _ => exact nomatch htype

/-- What a header says of the numbers that are written. -/
structure Configuration.Defines (c : Configuration) (m : Model) (v : Valuation) : Prop where
  header : ∀ header, Ends (Configuring.headerText header) c fun text _ =>
    text = header.getD c.settings.headerHeader ++ String.join
      (((m.written v).filter (!m.isOff v ·)).map (m.headerLine v { mark := c.settings.configPrefix }))
  /-- A number has a line. What C reads there is the number exactly if its text is spelled for it. -/
  number : ∀ s ∈ m.written v, (m.symbol s).type.isNumber = true →
    ∀ n, readInt (m.symbol s).type.radix (v (.text (.symbol s))).value.toList = some n →
      s ∈ (m.written v).filter (!m.isOff v ·) ∧
      (cValue? ((m.symbol s).headerValue (v (.text (.symbol s))).value).toList = some n ↔
        (m.symbol s).type.SpelledForC (v (.text (.symbol s))).value.toList)
  /-- For a number that was brought into its range this leaves out the negative hexadecimal ones. -/
  limit : ∀ s ∈ m.written v, (m.symbol s).type.isNumber = true →
    ∀ k, (v (.text (.symbol s))).value = (m.symbol s).type.write k →
      (cValue? ((m.symbol s).headerValue (v (.text (.symbol s))).value).toList = some k ↔
        (m.symbol s).type = .int ∨ 0 ≤ k)

/-- Whatever was done before, where reading comes to an end a header defines the numbers that are
spelled for it, and no others, as what they are. -/
theorem defines_after_acts {host : Host} {options : LoadOptions} {c : Configuration} {w : Workspace}
    (hload : Load.load host options = .ok c w) (acts : List Act)
    (hanswering : (c.after acts).Answering) :
    ∃ v, (c.after acts).Says v ∧ (c.after acts).Defines w.model v := by
  have hbacks := Load.backsDirect_after hload acts
  obtain ⟨v, hsaid, hv⟩ := hbacks.exists_saying hanswering
  have htexts : w.model.Texts v := Model.texts_of_rule fun i => hv _ (w.model.direct_text i)
  refine ⟨v, hsaid, Configuring.ends_headerText hsaid hbacks.model htexts,
    fun s hs htype n hn => ⟨?_, Symbol.cValue?_headerValue htype hn⟩, fun s hs htype k hk => ?_⟩
  · have hnotBool : (w.model.symbol s).type ≠ .bool := fun hbool => by
      rw [hbool] at htype
      exact nomatch htype
    exact List.mem_filter.mpr ⟨hs, by simp [Model.isOff, hnotBool]⟩
  · have hread := ValueType.readInt_write htype k
    rw [← hk] at hread
    rw [Symbol.cValue?_headerValue htype hread, hk, ValueType.spelledForC_write htype]

/-- A number with a zero before it, one that is brought into a negative range, and one as it should
be. -/
def oddNumbers : Host where
  files.entries := [(["work", "Kconfig"], .file (.text
    "config N\n\tint \"n\"\n\tdefault 010\nconfig H\n\thex \"h\"\n\trange -0x10 -0x2\nconfig P\n\tint \"p\"\n\tdefault 5\n"))]

theorem oddNumbers_defined : ∃ c w v, Load.load oddNumbers {} = .ok c w ∧
    let later := c.after [.setSymbol 7 (.text "6")]
    let read := fun s => cValue? ((w.model.symbol s).headerValue (v (.text (.symbol s))).value).toList
    later.Answering ∧ later.Says v ∧ later.Defines w.model v ∧
      (v (.text (.symbol 2))).value = "010" ∧ read 2 = some 8 ∧
      (v (.text (.symbol 4))).value = "-0x2" ∧ read 4 = none ∧
      (v (.text (.symbol 7))).value = "6" ∧ read 7 = some 6 := by
  have hchecked : passes (fun c w => decide (w.model.choices.size = 0 ∧
      (w.model.symbol 2).type = .int ∧ (w.model.symbol 4).type = .hex ∧
      (w.model.symbol 7).type = .int ∧
      let later := c.after [.setSymbol 7 (.text "6")]
      later.gives (Plan.text (.symbol 2)) "010" = true ∧
      later.gives (Plan.text (.symbol 4)) "-0x2" = true ∧
      later.gives (Plan.text (.symbol 7)) "6" = true)) (Load.load oddNumbers {}) = true := by
    decide +kernel
  obtain ⟨c, w, hload, hchecked⟩ := ok_of_passes hchecked
  obtain ⟨hno, hint, hhex, hint', htext, htext', htext''⟩ := of_decide_eq_true hchecked
  have hanswering := Load.answering_of_no_choices hload hno [.setSymbol 7 (.text "6")]
  obtain ⟨v, hsaid, hdefines⟩ := defines_after_acts hload _ hanswering
  have hvalue : (v (.text (.symbol 2))).value = "010" := hsaid.result_eq htext
  have hvalue' : (v (.text (.symbol 4))).value = "-0x2" := hsaid.result_eq htext'
  have hvalue'' : (v (.text (.symbol 7))).value = "6" := hsaid.result_eq htext''
  refine ⟨c, w, v, hload, hanswering, hsaid, hdefines, hvalue, ?_, hvalue', ?_, hvalue'', ?_⟩
  · dsimp only
    rw [hvalue, Symbol.headerValue, hint]
    decide
  · dsimp only
    rw [hvalue', Symbol.headerValue_hex hhex]
    decide
  · dsimp only
    rw [hvalue'', Symbol.headerValue, hint']
    decide

end Kconfig
