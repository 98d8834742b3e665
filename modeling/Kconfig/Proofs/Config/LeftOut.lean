import Kconfig.Config.Contents
import Kconfig.Proofs.Config.Loading
import Kconfig.Proofs.Model.Propagation
/-!
What a minimal configuration leaves out.

A minimal configuration has no line for a symbol whose value is its default, for what a choice
selects by itself, and for symbols that are hidden or selected. The first two have the same values
when the user gives none. A hidden symbol does not take the user's value, and a selected bool is `y`
whatever the user gave. But a selected symbol of another type does take it, and is what it was only
if it would have been the same without the user.
-/
namespace Kconfig
open Plan

variable {m : Model} {u u' : UserValues} {v : Valuation} {s : SymbolId} {c : ChoiceId}

/-- A minimal configuration has a line for the symbol. -/
def Model.hasLine (m : Model) (v : Valuation) (s : SymbolId) : Bool :=
  !(m.isFixed s).result v && (v (.text (.symbol s))).value != (m.defaultText s).result v &&
    !(m.isOwnSelection s).result v && (v (.text (.symbol s))).isWritten

/-- The user's values after loading a minimal configuration that was written under a valuation. -/
structure UserValues.Trimmed (m : Model) (v : Valuation) (u : UserValues) : Prop where
  value : ∀ s, u.value s =
    if m.hasLine v s then (m.symbol s).givenBack? (v (.text (.symbol s))) else none
  selection : ∀ c s, u.selection c = some s ↔ m.hasLine v s = true ∧ m.Selects v c s

/-- Whatever is selected although it is no bool has the text that it has without the user. -/
def Model.ForcedDefault (m : Model) (v : Valuation) : Prop :=
  ∀ s ∈ m.defined, (m.symbol s).type ≠ .bool → (m.symbol s).choice = none →
    (m.holds (m.symbol s).revDep).result v = true →
      (m.textRule {} (.symbol s)).result v = v (.text (.symbol s))

namespace UserValues.Trimmed

theorem back (h : UserValues.Trimmed m v u) (hline : m.hasLine v s = true) :
    u.value s = (m.symbol s).givenBack? (v (.text (.symbol s))) := by rw [h.value s, if_pos hline]

theorem none (h : UserValues.Trimmed m v u) (hline : m.hasLine v s = false) :
    u.value s = none := by rw [h.value s, hline, if_neg Bool.false_ne_true]

end UserValues.Trimmed

namespace Model

/-! ### Why a symbol is left out -/

theorem isFixed_result (hvisible : v (.visible (.symbol s)) = true) :
    (m.isFixed s).result v =
      ((m.symbol s).choice.isNone && (m.holds (m.symbol s).revDep).result v) := by
  cases hchoice : (m.symbol s).choice <;> simp [isFixed, hchoice, hvisible]

theorem isOwnSelection_result (h : (m.isOwnSelection s).result v = true) :
    ∃ c, (m.symbol s).choice = some c ∧ (m.ownSelection c).result v = some s ∧
      (m.symbol s).type = .bool := by
  cases hchoice : (m.symbol s).choice with
  | none => simp [isOwnSelection, hchoice] at h
  | some c =>
    by_cases hother : (m.ownSelection c).result v ≠ some s ∨ (m.symbol s).type ≠ .bool
    · simp [isOwnSelection, hchoice, hother] at h
    · rw [not_or, Decidable.not_not, Decidable.not_not] at hother
      exact ⟨c, rfl, hother.1, hother.2⟩

/-- A visible symbol whose value is written is left out for one of three reasons. -/
theorem left_out (hvisible : v (.visible (.symbol s)) = true)
    (hwritten : (v (.text (.symbol s))).isWritten = true) (h : m.hasLine v s = false) :
    ((m.symbol s).choice = none ∧ (m.holds (m.symbol s).revDep).result v = true) ∨
      (v (.text (.symbol s))).value = (m.defaultText s).result v ∨
      ∃ c, (m.symbol s).choice = some c ∧ (m.ownSelection c).result v = some s ∧
        (m.symbol s).type = .bool := by
  rw [hasLine, hwritten, isFixed_result hvisible, Bool.and_true] at h
  rcases Bool.and_eq_false_iff.mp h with h | hown
  · rcases Bool.and_eq_false_iff.mp h with hfixed | hdefault
    · rw [Bool.not_eq_false', Bool.and_eq_true, Option.isNone_iff_eq_none] at hfixed
      exact .inl hfixed
    · rw [bne_eq_false_iff_eq] at hdefault
      exact .inr (.inl hdefault)
  · rw [Bool.not_eq_false'] at hown
    exact .inr (.inr (isOwnSelection_result hown))

/-- A symbol that is selected outside choices has no line. -/
theorem hasLine_of_forced (hvisible : v (.visible (.symbol s)) = true)
    (hchoice : (m.symbol s).choice = none)
    (hforced : (m.holds (m.symbol s).revDep).result v = true) : m.hasLine v s = false := by
  rw [hasLine, isFixed_result hvisible, hchoice, hforced]
  rfl

/-! ### Values that are the default -/

/-- Without the user's value a symbol's text is as if nobody gave anything. -/
theorem textRule_of_none (hnone : u'.value s = none) :
    m.textRule u' (.symbol s) = m.textRule {} (.symbol s) := by
  have hempty : ({} : UserValues).value s = none := by simp [UserValues.value]
  simp only [textRule, stringText, numberText, hnone, hempty]

theorem defaultText_of_text (hbool : (m.symbol s).type ≠ .bool)
    (hknown : (m.symbol s).type ≠ .unknown) :
    (m.defaultText s).result v = ((m.activeDefault s).result v).getD "" := by
  cases htype : (m.symbol s).type with
  | bool => exact absurd htype hbool
  | unknown => exact absurd htype hknown
  | _ => simp [defaultText, htype]

/-- The default of a symbol outside choices that is not selected. -/
theorem defaultText_of_level (htype : (m.symbol s).type = .bool)
    (hchoice : (m.symbol s).choice = none)
    (hforced : (m.holds (m.symbol s).revDep).result v = false)
    (hdirect : (m.holds (m.symbol s).directDep).result v = true) (hnone : u'.value s = none) :
    (m.ownLevel u' s true).result v = ⟨(m.defaultText s).result v == "y", true⟩ := by
  cases hdefault : (m.firstActive (m.symbol s).defaults).result v with
  | none =>
    cases hweak : (m.holds (m.symbol s).weakRevDep).result v <;>
      simp [ownLevel, defaultText, hnone, htype, hchoice, hdefault, hweak, hdirect, hforced,
        levelWord]
  | some p =>
    cases hvalue : (m.holds p.value).result v <;>
    cases hweak : (m.holds (m.symbol s).weakRevDep).result v <;>
      simp [ownLevel, defaultText, hnone, htype, hchoice, hdefault, hvalue, hweak, hdirect,
        hforced, levelWord]

/-- A default that takes effect as the user's number lies in the range. -/
theorem defaultNumber_of_kept {t : String} (hkept : m.KeepsNumber v s t)
    (hdefault : (m.activeDefault s).result v = some t) :
    (m.defaultNumber s ((m.activeRange s).result v) true).result v = ⟨t, true⟩ := by
  have hkept := hkept.2
  cases hrange : (m.activeRange s).result v with
  | none => simp [defaultNumber, hdefault, clamp?]
  | some ends =>
    obtain ⟨low, high⟩ := ends
    rw [hrange] at hkept
    by_cases hin : low ≤ numberIn (m.symbol s).type t ∧ numberIn (m.symbol s).type t ≤ high
    · have hclamp : clamp? (some (low, high)) (numberIn (m.symbol s).type t) = none := by
        simp [clamp?, Int.not_lt.mpr hin.1, Int.not_lt.mpr hin.2]
      simp [defaultNumber, hdefault, hclamp]
    · simp [userNumber, hin] at hkept

section Visible
variable (hv : m.Solves u v) (hunwritten : m.isUnwritten s = false)
  (hvisible : v (.visible (.symbol s)) = true) (hnone : u'.value s = none)
include hv hvisible hnone

include hunwritten in
theorem Solves.string_of_default (htype : (m.symbol s).type = .string)
    (hdefault : (v (.text (.symbol s))).value = ((m.activeDefault s).result v).getD "") :
    m.Obeys u' v (.text (.symbol s)) := by
  have hwritten := hv.written_of_string hunwritten hvisible htype
  have htext : v (.text (.symbol s)) = ⟨((m.activeDefault s).result v).getD "", true⟩ := by
    rw [← hdefault, ← hwritten]
  rw [obeys_string hunwritten htype, htext]
  cases hactive : (m.activeDefault s).result v <;> simp [stringText, hvisible, hnone, hactive]

include hunwritten in
theorem Solves.number_of_default (htype : (m.symbol s).type.isNumber = true)
    (hdefault : (v (.text (.symbol s))).value = ((m.activeDefault s).result v).getD "") :
    m.Obeys u' v (.text (.symbol s)) := by
  have hold : v (.text (.symbol s)) = (m.numberText u s).result v :=
    (obeys_number hunwritten htype).mp (hv.eq_value _)
  have hempty : givenNumber u' s = "" := by simp [givenNumber, hnone]
  rw [obeys_number hunwritten htype, numberText_default hvisible fun hkept => hkept.1 hempty, hold]
  by_cases hkept : m.KeepsNumber v s (givenNumber u s)
  · -- the user gave the default
    rw [hold, numberText_kept hvisible hkept] at hdefault
    have hactive : (m.activeDefault s).result v = some (givenNumber u s) := by
      cases hactive : (m.activeDefault s).result v with
      | none =>
        rw [hactive] at hdefault
        exact absurd hdefault hkept.1
      | some t =>
        rw [hactive] at hdefault
        exact congrArg some hdefault.symm
    rw [numberText_kept hvisible hkept, defaultNumber_of_kept hkept hactive]
  · rw [numberText_default hvisible hkept]

/-- A bool whose value is its default has it without the user, and so does one that is selected. -/
theorem Solves.level_of_default (htype : (m.symbol s).type = .bool)
    (hchoice : (m.symbol s).choice = none) (hconst : ¬ (s = noId ∨ s = yesId))
    (hdirect : (m.holds (m.symbol s).directDep).result v = true)
    (hdefault : (m.holds (m.symbol s).revDep).result v = false →
      (v (.text (.symbol s))).value = (m.defaultText s).result v) :
    m.Obeys u' v (.level (.symbol s)) := by
  have hplain : v (.level (.symbol s)) = (m.plainLevel u s true).result v :=
    (obeys_level hvisible htype hchoice hconst).mp (hv.eq_value _)
  rw [obeys_level hvisible htype hchoice hconst]
  cases hforced : (m.holds (m.symbol s).revDep).result v with
  | true => rw [hplain, plainLevel_forced hforced, plainLevel_forced hforced]
  | false =>
    have hwritten := hv.written_of_level hvisible htype hchoice hconst
    have hvalue : (v (.level (.symbol s))).value = ((m.defaultText s).result v == "y") := by
      rw [← hdefault hforced, hv.text_of_bool htype]
      cases (v (.level (.symbol s))).value <;> rfl
    rw [plainLevel_unforced hforced,
      defaultText_of_level htype hchoice hforced hdirect hnone, ← hvalue, ← hwritten]

end Visible

/-! ### Selections -/

/-- What the user selected and is left out, the choice selects by itself. -/
theorem Solves.own_of_left_out (hv : m.Solves u v) (hm : m.Sound) (hselected : m.Selects v c s)
    (h : m.hasLine v s = false) : (m.ownSelection c).result v = some s := by
  obtain ⟨hselection, hchoice, htype⟩ := hselected
  have hvisible := hv.selected_visible hselection
  obtain ⟨hs, hwritten⟩ := hv.written_of_selects hm ⟨hselection, hchoice, htype⟩
  rcases left_out hvisible hwritten h with ⟨hnone, -⟩ | hdefault | ⟨d, hd, hown, -⟩
  · rw [hchoice] at hnone
    exact nomatch hnone
  · -- the default of a member is `n`
    have hyes := hv.text_of_member hm hs htype hchoice hwritten
    rw [hdefault, hselection, beq_self_eq_true] at hyes
    simp [defaultText, htype, hchoice, levelWord] at hyes
  · rw [hchoice] at hd
    rw [Option.some.inj hd]
    exact hown

theorem Solves.selection_of_trimmed (hv : m.Solves u v) (hm : m.Sound) (hu : m.Permits u)
    (htrimmed : UserValues.Trimmed m v u') : m.Obeys u' v (.selection c) := by
  have hold : v (.selection c) = (m.selectionRule u c).result v := hv.eq_result _
  show v (.selection c) = (m.selectionRule u' c).result v
  cases hlevel : (v (.level (.choice c))).value with
  | false =>
    rw [hold]
    simp [selectionRule, hlevel]
  | true =>
    rcases selectionRule_result u' hlevel with ⟨s, hs, -, hresult⟩ | ⟨hresult, hhidden⟩
    · rw [hresult, ((htrimmed.selection c s).mp hs).2.1]
    · rw [hresult]
      rcases selectionRule_result u hlevel with ⟨s, hs, hvisible, hresult⟩ | ⟨hresult, -⟩
      · obtain ⟨hchoice, htype⟩ := hu.selection c s hs
        have hselected : m.Selects v c s := ⟨hold.trans hresult, hchoice, htype⟩
        cases hline : m.hasLine v s with
        | false => rw [hold, hresult, hv.own_of_left_out hm hselected hline]
        | true =>
          have hback := hhidden s ((htrimmed.selection c s).mpr ⟨hline, hselected⟩)
          rw [hvisible] at hback
          cases hback
      · rw [hold, hresult]

/-! ### All questions -/

section Trimmed
variable (hv : m.Solves u v) (htrimmed : UserValues.Trimmed m v u')
include hv htrimmed

/-- A text or number that is left out is selected, or its value is its default. -/
theorem Solves.text_of_left_out (hm : m.Sound) (hvisible : v (.visible (.symbol s)) = true)
    (hbool : (m.symbol s).type ≠ .bool) (hwritten : (v (.text (.symbol s))).isWritten = true)
    (hforced : m.ForcedDefault v) (hline : m.hasLine v s = false)
    (hdefault : (v (.text (.symbol s))).value = ((m.activeDefault s).result v).getD "" →
      m.Obeys u' v (.text (.symbol s))) : m.Obeys u' v (.text (.symbol s)) := by
  have hknown : (m.symbol s).type ≠ .unknown := by
    intro htype
    rw [hv.unwritten_of_unknown htype] at hwritten
    exact nomatch hwritten
  rcases left_out hvisible hwritten hline with ⟨hchoice, hrev⟩ | htext | ⟨c, -, -, htype⟩
  · show v (.text (.symbol s)) = (m.textRule u' (.symbol s)).result v
    rw [textRule_of_none (htrimmed.none hline), hforced s (hv.defined_of_written hm hwritten) hbool
      hchoice hrev]
  · exact hdefault (htext.trans (defaultText_of_text hbool hknown))
  · exact absurd htype hbool

/-- With what a minimal configuration gives back every answer is as it was, if what is selected
although it is no bool is as it is without the user. -/
theorem Solves.obeys_of_trimmed (hm : m.Sound) (hu : m.Permits u)
    (hunwritten : ∀ s, m.isUnwritten s = true → v (.visible (.symbol s)) = false)
    (hdirect : ∀ s, v (.visible (.symbol s)) = true →
      (m.holds (m.symbol s).directDep).result v = true)
    (hforced : m.ForcedDefault v) (q : Query) : m.Obeys u' v q := by
  have hwrites : ∀ s, v (.visible (.symbol s)) = true → m.isUnwritten s = false := by
    intro s hvisible
    refine Bool.eq_false_iff.mpr fun h => ?_
    rw [hunwritten s h] at hvisible
    cases hvisible
  refine hv.obeys (fun s hvisible htype => ?_) (fun s hvisible htype => ?_)
    (fun s hvisible htype hchoice hconst => ?_) (fun c => hv.selection_of_trimmed hm hu htrimmed) q
  · have hwrite := hwrites s hvisible
    cases hline : m.hasLine v s with
    | true => exact hv.string_of_saved hwrite (htrimmed.back hline) hvisible htype
    | false =>
      have hbool : (m.symbol s).type ≠ .bool := fun h => by simp [h] at htype
      have hwritten := hv.written_of_string hwrite hvisible htype
      exact hv.text_of_left_out htrimmed hm hvisible hbool hwritten hforced hline
        (hv.string_of_default hwrite hvisible (htrimmed.none hline) htype)
  · have hwrite := hwrites s hvisible
    cases hline : m.hasLine v s with
    | true => exact hv.number_of_saved hwrite (htrimmed.back hline) hvisible hu htype
    | false =>
      have hbool : (m.symbol s).type ≠ .bool := fun h => by simp [h, ValueType.isNumber] at htype
      have hwritten : (v (.text (.symbol s))).isWritten = true := by
        rw [(obeys_number hwrite htype).mp (hv.eq_value _)]
        exact numberText_written hvisible
      exact hv.text_of_left_out htrimmed hm hvisible hbool hwritten hforced hline
        (hv.number_of_default hwrite hvisible (htrimmed.none hline) htype)
  · cases hline : m.hasLine v s with
    | true => exact hv.level_of_saved (htrimmed.back hline) hvisible htype hchoice hconst
    | false =>
      refine hv.level_of_default hvisible (htrimmed.none hline) htype hchoice hconst
        (hdirect s hvisible) fun hrev => ?_
      have hwritten : (v (.text (.symbol s))).isWritten = true := by
        rw [hv.text_of_bool htype]
        exact hv.written_of_level hvisible htype hchoice hconst
      rcases left_out hvisible hwritten hline with ⟨-, hyes⟩ | hdefault | ⟨c, hc, -⟩
      · rw [hrev] at hyes
        cases hyes
      · exact hdefault
      · rw [hchoice] at hc
        cases hc

/-- If every answer is as it was, what is selected although it is no bool is so without the user. -/
theorem Solves.forcedDefault_of_obeys (h : ∀ q, m.Obeys u' v q) : m.ForcedDefault v := by
  intro s _ _ hchoice hforced
  have htext : v (.text (.symbol s)) = (m.textRule u' (.symbol s)).result v := h (.text (.symbol s))
  cases hvisible : v (.visible (.symbol s)) with
  | false =>
    have hsame : m.SameValue u {} v (.text (.symbol s)) := .of_hidden rfl hvisible
    exact hsame.1.trans (hv.eq_value (.text (.symbol s))).symm
  | true =>
    have hline := hasLine_of_forced hvisible hchoice hforced
    rw [htext, textRule_of_none (htrimmed.none hline)]

end Trimmed

end Model
end Kconfig
