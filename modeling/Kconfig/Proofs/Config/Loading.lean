import Kconfig.Proofs.Config.Steps
import Kconfig.Proofs.Config.Page
import Kconfig.Proofs.Text.Literal
import Kconfig.Proofs.Values.Saved
/-!
Loading a configuration that was written gives back the values that it tells.

Line by line, the symbols whose lines were taken have been given their values, and no others; a
choice has been given its selection when the line of the selected symbol was taken. No symbol has
two lines, so nothing is assigned twice. In the end whatever was not assigned would be taken away,
but there is nothing.
-/
namespace Kconfig
open Plan Memory Text

/-- The symbol is what a choice selects under a valuation, and one of its bools. -/
def Model.Selects (m : Model) (v : Valuation) (ch : ChoiceId) (s : SymbolId) : Prop :=
  v (.selection ch) = some s ∧ (m.symbol s).choice = some ch ∧ (m.symbol s).type = .bool

/-- The values of some symbols have been loaded, and nothing else. -/
structure Configuration.Loaded (m : Model) (v : Valuation) (taken : List SymbolId)
    (c : Configuration) : Prop where
  fits : c.Fits m
  mark : c.settings.configPrefix = "CONFIG_"
  value : ∀ s, c.user.value s =
    if s ∈ taken then (m.symbol s).givenBack? (v (.text (.symbol s))) else none
  selection : ∀ ch s, c.user.selection ch = some s ↔ s ∈ taken ∧ m.Selects v ch s
  assigned : ∀ s, c.assigned.symbols[s]?.getD false = (c.user.value s).isSome
  chosen : ∀ ch, (c.user.selection ch).isSome → c.assigned.choices[ch]?.getD false = true

variable {m : Model} {u : UserValues} {v : Valuation} {taken : List SymbolId} {c : Configuration}

/-! ### Room -/

theorem Model.Sound.lt_of_defined (hm : m.Sound) {s : SymbolId} (hs : s ∈ m.defined) :
    s < m.symbols.size := by
  refine Nat.lt_of_not_le fun hle => (hm.defined s).mp hs ?_
  rw [Model.symbol_of_size_le hle]
  rfl

theorem Model.Sound.lt_of_member (hm : m.Sound) {s : SymbolId} {ch : ChoiceId}
    (hs : (m.symbol s).choice = some ch) : ch < m.choices.size := by
  refine Nat.lt_of_not_le fun hle => ?_
  have hmem := (hm.member s ch hs).1
  rw [Model.choice_of_size_le hle] at hmem
  exact absurd hmem List.not_mem_nil

theorem getD_setIfInBounds {flags : Array Bool} {i : Nat} (hi : i < flags.size) (b : Bool)
    (j : Nat) : (flags.setIfInBounds i b)[j]?.getD false =
      if j = i then b else flags[j]?.getD false := by
  rw [Array.getElem?_setIfInBounds]
  by_cases hij : i = j
  · subst hij
    simp [hi]
  · simp [hij, Ne.symm hij]

/-- A flag that is set stays set. -/
theorem getD_setIfInBounds_true {flags : Array Bool} {j : Nat} (h : flags[j]?.getD false = true)
    (i : Nat) : (flags.setIfInBounds i true)[j]?.getD false = true := by
  rw [Array.getElem?_setIfInBounds]
  split
  · split
    · rfl
    · next hij hi =>
      rw [Array.getElem?_eq_none (Nat.le_of_not_lt (hij ▸ hi))] at h
      exact nomatch h
  · exact h

/-- A flag that is clear stays clear. -/
theorem getD_setIfInBounds_false {flags : Array Bool} {j : Nat} (h : flags[j]?.getD false = false)
    (i : Nat) : (flags.setIfInBounds i false)[j]?.getD false = false := by
  rw [Array.getElem?_setIfInBounds]
  split
  · split <;> rfl
  · exact h

/-! ### Members of choices -/

theorem Model.Sound.not_level (hm : m.Sound) {s : SymbolId} (hs : s ∈ m.defined) :
    ¬ (s = noId ∨ s = yesId) := by
  rintro (rfl | rfl)
  · exact (hm.defined noId).mp hs hm.noFixed.1
  · exact (hm.defined yesId).mp hs hm.yesFixed.1

/-- The text of a bool is the word for its level. -/
theorem Model.Solves.text_of_bool (hv : m.Solves u v) {s : SymbolId}
    (htype : (m.symbol s).type = .bool) : v (.text (.symbol s)) =
      ⟨levelWord (v (.level (.symbol s))).value, (v (.level (.symbol s))).isWritten⟩ := by
  rw [hv.eq_result (.text (.symbol s))]
  simp [rule, textRule, htype]

/-- A member is on if its choice selects it, and written if it is visible. -/
theorem Model.Solves.level_of_member (hv : m.Solves u v) (hm : m.Sound) {s : SymbolId}
    {ch : ChoiceId} (hs : s ∈ m.defined) (htype : (m.symbol s).type = .bool)
    (hchoice : (m.symbol s).choice = some ch) : v (.level (.symbol s)) =
      (memberLevel s ch (v (.visible (.symbol s)))).result v := by
  rw [hv.eq_value (.level (.symbol s))]
  simp [valueRule, hm.not_level hs, htype, hchoice]

/-- A member whose value is written is `y` when the choice selects it. -/
theorem Model.Solves.text_of_member (hv : m.Solves u v) (hm : m.Sound) {s : SymbolId}
    {ch : ChoiceId} (hs : s ∈ m.defined) (htype : (m.symbol s).type = .bool)
    (hchoice : (m.symbol s).choice = some ch)
    (hwritten : (v (.text (.symbol s))).isWritten = true) :
    (v (.text (.symbol s))).value = levelWord (v (.selection ch) == some s) := by
  rw [hv.text_of_bool htype, hv.level_of_member hm hs htype hchoice] at hwritten ⊢
  cases hvisible : v (.visible (.symbol s)) with
  | true => simp [memberLevel]
  | false => simp [memberLevel, hvisible] at hwritten

/-- What is not defined has no value of its own to write. -/
theorem Model.Solves.defined_of_written (hv : m.Solves u v) (hm : m.Sound) {s : SymbolId}
    (hwritten : (v (.text (.symbol s))).isWritten = true) : s ∈ m.defined := by
  refine (hm.defined s).mpr fun hnil => ?_
  rw [hv.fixes (.text (.symbol s)) (hm.fixed s hnil)] at hwritten
  exact nomatch hwritten

/-- What a choice selects is written. -/
theorem Model.Solves.written_of_selects (hv : m.Solves u v) (hm : m.Sound) {s : SymbolId}
    {ch : ChoiceId} (h : m.Selects v ch s) :
    s ∈ m.defined ∧ (v (.text (.symbol s))).isWritten = true := by
  obtain ⟨hselection, hchoice, htype⟩ := h
  have hs := hm.memberDefined ch s (hm.member s ch hchoice).1
  have hvisible := hv.selected_visible hselection
  rw [hv.text_of_bool htype, hv.level_of_member hm hs htype hchoice, hvisible]
  exact ⟨hs, by simp [memberLevel]⟩

namespace Configuration.Loaded

/-- What is noted or remembered does not matter. -/
theorem congr {c' : Configuration} (h : c.Loaded m v taken) (hmodel : c'.model = c.model)
    (hsettings : c'.settings = c.settings) (huser : c'.user = c.user)
    (hassigned : c'.assigned = c.assigned) : c'.Loaded m v taken := by
  obtain ⟨hfits, hmark, hvalue, hselection, hflags, hchosen⟩ := h
  refine ⟨⟨hmodel.trans hfits.model, ?_, ?_, ?_, ?_⟩, ?_, ?_, ?_, ?_, ?_⟩
  · rw [huser]
    exact hfits.values
  · rw [huser]
    exact hfits.selections
  · rw [hassigned]
    exact hfits.symbols
  · rw [hassigned]
    exact hfits.choices
  · rw [hsettings]
    exact hmark
  · rw [huser]
    exact hvalue
  · rw [huser]
    exact hselection
  · rw [hassigned, huser]
    exact hflags
  · rw [hassigned, huser]
    exact hchosen

/-- The line of one more symbol is taken. -/
theorem cons {c' : Configuration} (h : c.Loaded m v taken) {s : SymbolId} (hfits : c'.Fits m)
    (hmark : c'.settings.configPrefix = "CONFIG_")
    (hvalue : ∀ t, c'.user.value t =
      if t = s then (m.symbol s).givenBack? (v (.text (.symbol s))) else c.user.value t)
    (hselection : ∀ ch t, c'.user.selection ch = some t ↔
      c.user.selection ch = some t ∨ t = s ∧ m.Selects v ch s)
    (hassigned : ∀ t, c'.assigned.symbols[t]?.getD false = (c'.user.value t).isSome)
    (hchosen : ∀ ch, (c'.user.selection ch).isSome → c'.assigned.choices[ch]?.getD false = true) :
    c'.Loaded m v (s :: taken) := by
  refine ⟨hfits, hmark, fun t => ?_, fun ch t => ?_, hassigned, hchosen⟩
  · rw [hvalue t, h.value t]
    by_cases hts : t = s
    · subst hts
      simp
    · simp [hts]
  · rw [hselection ch t, h.selection ch t]
    constructor
    · rintro (⟨ht, hselects⟩ | ⟨rfl, hselects⟩)
      · exact ⟨List.mem_cons_of_mem _ ht, hselects⟩
      · exact ⟨List.mem_cons_self .., hselects⟩
    · rintro ⟨ht, hselects⟩
      rcases List.mem_cons.mp ht with rfl | ht
      · exact .inr ⟨rfl, hselects⟩
      · exact .inl ⟨ht, hselects⟩

theorem markChoice (h : c.Loaded m v taken) (ch : ChoiceId) : Loaded m v taken
    { c with assigned.choices := c.assigned.choices.setIfInBounds ch true } := by
  have hfits := h.fits
  exact ⟨⟨hfits.model, hfits.values, hfits.selections, hfits.symbols,
    Array.size_setIfInBounds.trans hfits.choices⟩, h.mark, h.value, h.selection, h.assigned,
    fun d hd => getD_setIfInBounds_true (h.chosen d hd) ch⟩

theorem setMode (h : c.Loaded m v taken) (modes : Array (Option UserValue)) :
    Loaded m v taken { c with user.modes := modes } := by
  have hfits := h.fits
  exact ⟨⟨hfits.model, hfits.values, hfits.selections, hfits.symbols, hfits.choices⟩, h.mark,
    h.value, h.selection, h.assigned, h.chosen⟩

variable {s : SymbolId} {a : UserValue}

theorem value_given (h : c.Loaded m v taken) (hs : s < m.symbols.size) (t : SymbolId) :
    ({ c.user with values := c.user.values.setIfInBounds s (some a) } : UserValues).value t =
      if t = s then some a else c.user.value t :=
  c.user.value_set_of_lt (h.fits.values ▸ hs) (some a) t

theorem flags_given (h : c.Loaded m v taken) (hs : s < m.symbols.size) (t : SymbolId) :
    (c.assigned.symbols.setIfInBounds s true)[t]?.getD false =
      (({ c.user with values := c.user.values.setIfInBounds s (some a) } : UserValues).value
        t).isSome := by
  rw [h.value_given hs, getD_setIfInBounds (h.fits.symbols ▸ hs), h.assigned t]
  split <;> rfl

/-- A symbol that no choice selects is given its value. -/
theorem give (h : c.Loaded m v taken) (hs : s < m.symbols.size)
    (ha : (m.symbol s).givenBack? (v (.text (.symbol s))) = some a)
    (hnot : ∀ ch, ¬ m.Selects v ch s) : Loaded m v (s :: taken) { c with
      user.values := c.user.values.setIfInBounds s (some a)
      assigned.symbols := c.assigned.symbols.setIfInBounds s true } := by
  have hfits := h.fits
  refine h.cons ?_ h.mark (fun t => ?_) (fun ch t => ?_) (h.flags_given hs) h.chosen
  · exact ⟨hfits.model, Array.size_setIfInBounds.trans hfits.values, hfits.selections,
      Array.size_setIfInBounds.trans hfits.symbols, hfits.choices⟩
  · rw [ha]
    exact h.value_given hs t
  · exact ⟨.inl, fun ht => ht.resolve_right fun hts => hnot ch hts.2⟩

/-- A symbol that a choice selects is given its value, and the choice its selection. -/
theorem select (h : c.Loaded m v taken) (hs : s < m.symbols.size) {ch : ChoiceId}
    (hch : ch < m.choices.size)
    (ha : (m.symbol s).givenBack? (v (.text (.symbol s))) = some a)
    (hselected : m.Selects v ch s) : Loaded m v (s :: taken) { c with
      user.values := c.user.values.setIfInBounds s (some a)
      user.selections := c.user.selections.setIfInBounds ch (some s)
      assigned.symbols := c.assigned.symbols.setIfInBounds s true
      assigned.choices := c.assigned.choices.setIfInBounds ch true } := by
  have hfits := h.fits
  let u' : UserValues := { c.user with
    values := c.user.values.setIfInBounds s (some a)
    selections := c.user.selections.setIfInBounds ch (some s) }
  have hselection : ∀ d, u'.selection d = if d = ch then some s else c.user.selection d :=
    c.user.selection_set_of_lt (hfits.selections ▸ hch) (some s)
  refine h.cons ?_ h.mark (fun t => ?_) (fun d t => ?_) (h.flags_given hs) fun d hd => ?_
  · exact ⟨hfits.model, Array.size_setIfInBounds.trans hfits.values,
      Array.size_setIfInBounds.trans hfits.selections,
      Array.size_setIfInBounds.trans hfits.symbols,
      Array.size_setIfInBounds.trans hfits.choices⟩
  · rw [ha]
    exact h.value_given hs t
  · show u'.selection d = some t ↔ _
    rw [hselection d]
    constructor
    · split
      · next hd =>
        intro ht
        exact .inr ⟨(Option.some.inj ht).symm, hd ▸ hselected⟩
      · exact .inl
    · split
      · next hd =>
        rintro (ht | ⟨rfl, -⟩)
        · have hother := ((h.selection d t).mp ht).2.1
          rw [hd, hselected.1] at hother
          exact hother
        · rfl
      · next hd =>
        rintro (ht | ⟨-, ht⟩)
        · exact ht
        · exact absurd (Option.some.inj (ht.2.1.symm.trans hselected.2.1)) hd
  · change (u'.selection d).isSome at hd
    rw [hselection d] at hd
    show (c.assigned.choices.setIfInBounds ch true)[d]?.getD false = true
    rw [getD_setIfInBounds (hfits.choices ▸ hch)]
    split
    · rfl
    · next hne =>
      rw [if_neg hne] at hd
      exact h.chosen d hd

/-- A symbol whose value is refused is given nothing. -/
theorem refuse (h : c.Loaded m v taken) (hs : s ∉ taken)
    (ha : (m.symbol s).givenBack? (v (.text (.symbol s))) = none)
    (hnot : ∀ ch, ¬ m.Selects v ch s) : c.Loaded m v (s :: taken) := by
  refine h.cons h.fits h.mark (fun t => ?_) (fun ch t => ?_) h.assigned h.chosen
  · split
    · next hts => rw [hts, h.value s, if_neg hs, ha]
    · rfl
  · exact ⟨.inl, fun ht => ht.resolve_right fun hts => hnot ch hts.2⟩

end Configuration.Loaded

namespace Configuring
open Kconfig.Configuration

theorem ends_forgetPrompted (h : c.Loaded m v taken) (s : SymbolId) :
    Ends (forgetPrompted s) c fun _ => Loaded m v taken := by
  refine .bind_get ?_
  split
  · exact ⟨(), _, rfl, h.congr rfl rfl rfl rfl⟩
  · split
    · exact ⟨(), _, rfl, h.congr rfl rfl rfl rfl⟩
    · exact .pure h

/-- A text is not what the user gave who gave nothing. -/
theorem same_none (text : String) : (Given.text text).same none = false ∧
    (Given.text text).readLevel.same none = false := by
  refine ⟨rfl, ?_⟩
  unfold Given.readLevel
  split <;> rfl

/-- A symbol that a choice selects is given `y`. -/
theorem givenBack?_of_selects (hm : m.Sound) (hv : m.Solves u v) {s : SymbolId} {ch : ChoiceId}
    (hs : s ∈ m.defined) (hwritten : (v (.text (.symbol s))).isWritten = true)
    (h : m.Selects v ch s) :
    (m.symbol s).givenBack? (v (.text (.symbol s))) = some (.level true false) := by
  obtain ⟨hselection, hchoice, htype⟩ := h
  refine Model.givenBack?_bool htype true hwritten ?_
  rw [hv.text_of_member hm hs htype hchoice hwritten, hselection, beq_self_eq_true]

/-- A symbol is given the value that was written for it. -/
theorem ends_setSymbol (hm : m.Sound) (hv : m.Solves u v) (h : c.Loaded m v taken) {s : SymbolId}
    (hs : s ∈ m.defined) (hnot : s ∉ taken)
    (hwritten : (v (.text (.symbol s))).isWritten = true) :
    Ends (setSymbol s (.text (v (.text (.symbol s))).value)) c fun _ =>
      Loaded m v (s :: taken) := by
  have hnone : c.user.value s = none := by rw [h.value s, if_neg hnot]
  have hback : (m.symbol s).givenBack? (v (.text (.symbol s))) =
      (m.symbol s).type.accept? (if (m.symbol s).type = .bool
        then (Given.text (v (.text (.symbol s))).value).readLevel
        else .text (v (.text (.symbol s))).value) := if_pos hwritten
  have hsame : (if (m.symbol s).type = .bool
      then (Given.text (v (.text (.symbol s))).value).readLevel
      else .text (v (.text (.symbol s))).value).same none = false := by
    split
    · exact (same_none _).2
    · exact (same_none _).1
  have hselects : ∀ ch, m.Selects v ch s →
      (m.symbol s).givenBack? (v (.text (.symbol s))) = some (.level true false) :=
    fun ch => givenBack?_of_selects hm hv hs hwritten
  have hroom := hm.lt_of_defined hs
  obtain rfl := h.fits.model
  refine .bind_get ?_
  dsimp only
  rw [hnone, hsame, Bool.false_and, if_neg Bool.false_ne_true, ← hback]
  cases ha : (c.model.symbol s).givenBack? (v (.text (.symbol s))) with
  | none =>
    have hc := h.refuse hnot ha fun ch hselected => by
      rw [hselects ch hselected] at ha
      exact nomatch ha
    exact ⟨false, _, rfl, hc.congr rfl rfl rfl rfl⟩
  | some a =>
    have hplain : (∀ ch, ¬ c.model.Selects v ch s) → Ends (do
        setUserValue s (some a)
        markSymbol s true
        forgetPrompted s
        return true : Configuring Bool) c fun _ => Loaded c.model v (s :: taken) := fun hnot =>
      (ends_forgetPrompted (h.give hroom ha hnot) s).bind fun _ _ hc => .pure hc
    dsimp only
    cases hch : (c.model.symbol s).choice with
    | none =>
      refine hplain fun ch hselected => ?_
      have hmember := hselected.2.1
      rw [hch] at hmember
      exact nomatch hmember
    | some ch =>
      cases hyes : a.isYes with
      | false =>
        refine hplain fun d hselected => ?_
        have hsome := hselects d hselected
        rw [ha] at hsome
        rw [Option.some.inj hsome] at hyes
        exact nomatch hyes
      | true =>
        have hbool := ValueType.bool_of_accept? (hback.symm.trans ha) hyes
        have hselected : c.model.Selects v ch s := by
          refine ⟨?_, hch, hbool⟩
          have htext := hv.text_of_member hm hs hbool hch hwritten
          rw [Model.givenBack?_bool hbool _ hwritten htext] at ha
          rw [← Option.some.inj ha] at hyes
          exact eq_of_beq hyes
        have hc := h.select hroom (hm.lt_of_member hch) ha hselected
        exact ⟨true, _, rfl, hc.congr rfl rfl rfl rfl⟩

/-! ### Lines -/

/-- Giving a choice a mode does not matter. -/
theorem ends_setChoice (h : c.Loaded m v taken) (ch : ChoiceId) (g : Given) :
    Ends (setChoice ch g) c fun _ => Loaded m v taken := by
  refine .bind_get ?_
  dsimp only
  split
  · exact ⟨true, _, rfl, h.markChoice ch⟩
  · cases hlevel : g.readLevel.level? with
    | none =>
      cases (c.model.choice ch).type <;> exact ⟨false, _, rfl, h.congr rfl rfl rfl rfl⟩
    | some a =>
      cases (c.model.choice ch).type with
      | bool => exact ⟨true, _, rfl, ((h.setMode _).markChoice ch).congr rfl rfl rfl rfl⟩
      | _ => exact ⟨false, _, rfl, h.congr rfl rfl rfl rfl⟩

theorem ends_followMode (h : c.Loaded m v taken) (file : String) (line : Nat) (ch : ChoiceId)
    (value : String) : Ends (followMode file line ch value) c fun _ => Loaded m v taken := by
  have hset : ∀ c' : Configuration, c'.Loaded m v taken →
      Ends (do let _ ← setChoice ch (.text value) : Configuring Unit) c' fun _ => Loaded m v taken :=
    fun c' hc' => (ends_setChoice hc' ch _).bind fun _ _ hc => .pure hc
  refine .bind_get ?_
  cases c.user.mode ch with
  | none => exact hset c h
  | some mode =>
    dsimp only
    split
    · exact hset _ (h.congr rfl rfl rfl rfl)
    · exact hset c h

theorem ends_assign (hm : m.Sound) (hv : m.Solves u v) (h : c.Loaded m v taken) {s : SymbolId}
    (hs : s ∈ m.defined) (hnot : s ∉ taken)
    (hwritten : (v (.text (.symbol s))).isWritten = true) (file : String) (line : Nat) :
    Ends (assign file line s (v (.text (.symbol s))).value) c fun _ => Loaded m v (s :: taken) := by
  refine .bind_get ?_
  rw [h.assigned s, h.value s, if_neg hnot]
  exact (ends_setSymbol hm hv h hs hnot hwritten).bind fun _ _ hc => .pure hc

theorem definedSymbol?_eq (hl : m.Listed) (hm : m.Sound) {s : SymbolId} (hs : s ∈ m.defined) :
    definedSymbol? m (m.symbol s).name = some s := by
  have hnodes := (hm.defined s).mp hs
  simp [definedSymbol?, hl.named s hs, hnodes]

/-- The text of a line is the value that was written. -/
theorem ends_assignedText? (h : c.Loaded m v taken) {s : SymbolId} {name text value : String}
    (hline : (m.symbol s).assignment value = .assign name text)
    (hlevel : (m.symbol s).type = .bool → value = "n" ∨ value = "y")
    (hknown : (m.symbol s).type ≠ .unknown) (file : String) (number : Nat) :
    Ends (assignedText? file number s text) c fun given c' =>
      given = some value ∧ c'.Loaded m v taken := by
  obtain rfl := h.fits.model
  refine .bind_get ?_
  unfold Symbol.assignment at hline
  dsimp only
  cases htype : (c.model.symbol s).type with
  | bool =>
    rw [htype] at hline
    dsimp only at hline ⊢
    split at hline
    · exact nomatch hline
    · next hn =>
      obtain rfl := (hlevel htype).resolve_left hn
      obtain ⟨-, rfl⟩ := ConfigLine.assign.inj hline
      cases (c.model.symbol s).choice with
      | none => exact ⟨some "y", c, rfl, rfl, h⟩
      | some ch => exact (ends_followMode h file number ch "y").bind fun _ _ hc => .pure ⟨rfl, hc⟩
  | string =>
    rw [htype] at hline
    obtain ⟨-, rfl⟩ := ConfigLine.assign.inj hline
    dsimp only
    rw [← String.append_empty (s := _ ++ _), literal?_quoted]
    refine .pure ⟨?_, h⟩
    rw [unescape_escape, String.ofList_toList]
  | unknown => exact absurd htype hknown
  | _ =>
    rw [htype] at hline
    obtain ⟨-, rfl⟩ := ConfigLine.assign.inj hline
    exact .pure ⟨rfl, h⟩

/-- The line of a symbol gives the symbol its value. -/
theorem ends_takeLine_value (hl : m.Listed) (hm : m.Sound) (hv : m.Solves u v)
    (h : c.Loaded m v taken) {s : SymbolId} (hs : s ∈ m.defined) (hnot : s ∉ taken)
    (hwritten : (v (.text (.symbol s))).isWritten = true) {line : List Char}
    (hread : ConfigLine.read "CONFIG_" line =
      (m.symbol s).assignment (v (.text (.symbol s))).value) (file : String) (number : Nat) :
    Ends (takeLine file number line) c fun _ => Loaded m v (s :: taken) := by
  have hlevel : (m.symbol s).type = .bool → (v (.text (.symbol s))).value = "n" ∨
      (v (.text (.symbol s))).value = "y" := fun htype => hv.level_text htype
  have hknown : (m.symbol s).type ≠ .unknown := by
    intro htype
    rw [hv.unwritten_of_unknown htype] at hwritten
    exact nomatch hwritten
  have hdefined := definedSymbol?_eq hl hm hs
  obtain rfl := h.fits.model
  refine .bind_get ?_
  rw [h.mark, hread]
  rcases (c.model.symbol s).assignment_cases (v (.text (.symbol s))).value with
    ⟨hline, htype, hvalue⟩ | ⟨text, hline⟩
  · rw [hline]
    dsimp only
    rw [hdefined]
    dsimp only
    rw [if_pos htype, ← hvalue]
    exact ends_assign hm hv h hs hnot hwritten file number
  · rw [hline]
    dsimp only
    rw [hdefined]
    refine (ends_assignedText? h hline hlevel hknown file number).bind fun given c' hc => ?_
    obtain ⟨rfl, hc⟩ := hc
    exact ends_assign hm hv hc hs hnot hwritten file number

theorem ends_takeLine_remark (h : c.Loaded m v taken) {line : List Char}
    (hread : ConfigLine.read "CONFIG_" line = .ignored) (file : String) (number : Nat) :
    Ends (takeLine file number line) c fun _ => Loaded m v taken := by
  refine .bind_get ?_
  rw [h.mark, hread]
  exact .pure h

/-- Lines that tell different symbols give each of them its value. -/
theorem ends_takeLines (hl : m.Listed) (hm : m.Sound) (hv : m.Solves u v) (file : String) :
    ∀ (lines : List PageLine) {taken : List SymbolId} {c : Configuration} (number : Nat),
      c.Loaded m v taken → (∀ l ∈ lines, l.Tells m v) →
      (∀ s ∈ lines.filterMap (·.symbol),
        s ∈ m.defined ∧ (v (.text (.symbol s))).isWritten = true) →
      ((lines.filterMap (·.symbol)).reverse ++ taken).Nodup →
      Ends (takeLines file number (lines.map fun l => l.chars ++ ['\n'])) c fun _ =>
        Loaded m v ((lines.filterMap (·.symbol)).reverse ++ taken)
  | [], _, _, _, h, _, _, _ => .pure h
  | line :: lines, taken, c, number, h, htell, hwritten, hnodup => by
    have hline := htell line (List.mem_cons_self ..)
    have hrest : ∀ l ∈ lines, l.Tells m v := fun l hl => htell l (List.mem_cons_of_mem _ hl)
    cases hsymbol : line.symbol with
    | none =>
      have hread := hline.read
      rw [hsymbol] at hread
      rw [List.filterMap_cons_none hsymbol] at hwritten hnodup ⊢
      exact (ends_takeLine_remark h hread file number).bind fun _ _ hc =>
        ends_takeLines hl hm hv file lines (number + 1) hc hrest hwritten hnodup
    | some s =>
      have hread := hline.read
      rw [hsymbol] at hread
      rw [List.filterMap_cons_some hsymbol] at hwritten hnodup ⊢
      rw [List.reverse_cons, List.append_assoc, List.singleton_append] at hnodup ⊢
      obtain ⟨hs, hs'⟩ := hwritten s (List.mem_cons_self ..)
      have hnot : s ∉ taken := (List.nodup_cons.mp (List.nodup_append.mp hnodup).2.1).1
      exact (ends_takeLine_value hl hm hv h hs hnot hs' hread file number).bind fun _ _ hc =>
        ends_takeLines hl hm hv file lines (number + 1) hc hrest
          (fun t ht => hwritten t (List.mem_cons_of_mem _ ht)) hnodup

/-! ### Before and after the lines -/

theorem ends_markSymbol_false (h : c.Loaded m v []) (s : SymbolId) :
    Ends (markSymbol s false) c fun _ => Loaded m v [] := by
  have hfits := h.fits
  refine ⟨(), _, rfl, ⟨hfits.model, hfits.values, hfits.selections,
    Array.size_setIfInBounds.trans hfits.symbols, hfits.choices⟩, h.mark, h.value, h.selection,
    fun t => ?_, h.chosen⟩
  have hnone : (c.user.value t).isSome = false := by
    rw [h.value t]
    rfl
  have hflag : c.assigned.symbols[t]?.getD false = false := by rw [h.assigned t, hnone]
  exact (getD_setIfInBounds_false hflag s).trans hnone.symm

theorem ends_markChoice_false (h : c.Loaded m v []) (ch : ChoiceId) :
    Ends (markChoice ch false) c fun _ => Loaded m v [] := by
  have hfits := h.fits
  refine ⟨(), _, rfl, ⟨hfits.model, hfits.values, hfits.selections, hfits.symbols,
    Array.size_setIfInBounds.trans hfits.choices⟩, h.mark, h.value, h.selection, h.assigned,
    fun d hd => ?_⟩
  obtain ⟨s, hs⟩ := Option.isSome_iff_exists.mp hd
  exact absurd ((h.selection d s).mp hs).1 List.not_mem_nil

theorem ends_clearAssigned (h : c.Loaded m v []) :
    Ends clearAssigned c fun _ => Loaded m v [] := by
  refine .bind_get ?_
  have hmissing : Loaded m v [] { c with missing := [] } := h.congr rfl rfl rfl rfl
  refine (Ends.forM (fun s _ hc => ends_markSymbol_false hc s) c.model.defined hmissing).bind
    fun _ _ hc => ?_
  exact Ends.forM (fun ch _ hc => ends_markChoice_false hc ch) c.model.definedChoices hc

/-- What was not assigned has no value that could be taken away. -/
theorem ends_unsetSymbol (h : c.Loaded m v taken) {s : SymbolId} (hs : c.user.value s = none) :
    Ends (unsetSymbol s) c fun _ => Loaded m v taken := by
  refine .bind_get ?_
  rw [hs]
  exact .pure h

theorem ends_unsetChoice (h : c.Loaded m v taken) {ch : ChoiceId}
    (hch : c.user.selection ch = none) : Ends (unsetChoice ch) c fun _ => Loaded m v taken := by
  refine .bind_get ?_
  split
  · have hfits := h.fits
    have hselection : ∀ d, ({ c.user with
        modes := c.user.modes.setIfInBounds ch none
        selections := c.user.selections.setIfInBounds ch none } : UserValues).selection d =
          c.user.selection d := by
      intro d
      rcases c.user.selection_set ch d none with heq | ⟨rfl, heq⟩
      · exact heq
      · exact heq.trans hch.symm
    have hc : Loaded m v taken { c with
        user.modes := c.user.modes.setIfInBounds ch none
        user.selections := c.user.selections.setIfInBounds ch none } := by
      refine ⟨⟨hfits.model, hfits.values, Array.size_setIfInBounds.trans hfits.selections,
        hfits.symbols, hfits.choices⟩, h.mark, h.value, fun d t => ?_, h.assigned, fun d hd => ?_⟩
      · rw [hselection d]
        exact h.selection d t
      · rw [hselection d] at hd
        exact h.chosen d hd
    exact ⟨(), _, rfl, hc.congr rfl rfl rfl rfl⟩
  · exact .pure h

theorem ends_unsetOthers (h : c.Loaded m v taken) :
    Ends unsetOthers c fun _ => Loaded m v taken := by
  refine .bind_get ?_
  -- what is given hangs on the lines only, so it is the same all along
  have hvalue : ∀ (c' : Configuration), c'.Loaded m v taken → ∀ s,
      c'.user.value s = c.user.value s := fun c' hc' s => (hc'.value s).trans (h.value s).symm
  have hselection : ∀ (c' : Configuration), c'.Loaded m v taken → ∀ ch,
      c'.user.selection ch = c.user.selection ch := fun c' hc' ch =>
    Option.ext fun s => (hc'.selection ch s).trans (h.selection ch s).symm
  refine (Ends.forIn (fun s c' hc' => ?_) c.model.defined h).bind fun _ _ hc => ?_
  · cases hflag : c.assigned.symbols[s]?.getD false with
    | true => exact .pure ⟨rfl, hc'⟩
    | false =>
      have hnone : c'.user.value s = none := by
        rw [hvalue c' hc', ← Option.isNone_iff_eq_none, ← Option.not_isSome, ← h.assigned, hflag]
        rfl
      exact (ends_unsetSymbol hc' hnone).bind fun _ _ hc => .pure ⟨rfl, hc⟩
  · refine (Ends.forIn (fun ch c' hc' => ?_) c.model.definedChoices hc).bind fun _ _ hc => .pure hc
    cases hflag : c.assigned.choices[ch]?.getD false with
    | true => exact .pure ⟨rfl, hc'⟩
    | false =>
      have hnone : c'.user.selection ch = none := by
        rw [hselection c' hc']
        refine Option.eq_none_iff_forall_ne_some.mpr fun s hs => ?_
        have hchosen := h.chosen ch (by rw [hs]; rfl)
        rw [hflag] at hchosen
        exact nomatch hchosen
      exact (ends_unsetChoice hc' hnone).bind fun _ _ hc => .pure ⟨rfl, hc⟩

end Configuring

end Kconfig
