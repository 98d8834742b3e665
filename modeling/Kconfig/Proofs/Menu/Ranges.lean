import Kconfig.Menu.Item
import Kconfig.Proofs.Config.Defaults
/-!
The range that a menu shows is the range that is enforced, as long as its ends are numbers.

Which range holds is worked out twice. For the value of a number, an end that is no number counts as
zero: the user's number is refused beyond such a range and a default is moved into it. A menu shows
no range at all then. An end is no number when it is a symbol without a value, for example, so it
can be one in one state and none in the next.
-/
namespace Kconfig
open Plan

namespace Model
variable {m : Model} {u : UserValues} {v : Valuation} {s : SymbolId}

/-! ### The range that is shown -/

/-- The texts of the ends of the first range whose condition holds. -/
def heldEnds? (m : Model) (v : Valuation) (s : SymbolId) : Option (String × String) :=
  ((m.symbol s).ranges.find? fun p => (m.holds p.cond).result v).map fun p =>
    ((v (.text (.symbol p.value.low))).value, (v (.text (.symbol p.value.high))).value)

/-- A range holds, and one of its ends is no number. -/
def EndsUnread (m : Model) (v : Valuation) (s : SymbolId) : Prop :=
  ∃ low high, m.heldEnds? v s = some (low, high) ∧
    (Text.readInt (m.symbol s).type.radix low.toList = none ∨
      Text.readInt (m.symbol s).type.radix high.toList = none)

theorem heldRange?_eq : m.heldRange? v s = (m.heldEnds? v s).map fun ends =>
    (numberIn (m.symbol s).type ends.1, numberIn (m.symbol s).type ends.2) := by
  rw [heldRange?, heldEnds?, Option.map_map]
  rfl

theorem shownRange_eq : (m.shownRange s).result v = (m.heldEnds? v s).bind fun ends =>
    (Text.readInt (m.symbol s).type.radix ends.1.toList).bind fun low =>
      (Text.readInt (m.symbol s).type.radix ends.2.toList).map fun high => (low, high) := by
  simp only [shownRange, heldEnds?, result_bind, firstActive_eq_find?]
  cases (m.symbol s).ranges.find? fun p => (m.holds p.cond).result v with
  | none => rfl
  | some p =>
    simp only [result_bind, result_text, Option.map_some, Option.bind_some]
    cases Text.readInt (m.symbol s).type.radix (v (.text (.symbol p.value.low))).value.toList with
    | none => rfl
    | some low =>
      simp only [result_bind, result_text, Option.bind_some]
      cases Text.readInt (m.symbol s).type.radix (v (.text (.symbol p.value.high))).value.toList <;>
        rfl

/-- The range that is shown is the one that holds, unless an end of this is no number; then none is
shown. -/
theorem shownRange_eq_heldRange? :
    ((m.shownRange s).result v = m.heldRange? v s ↔ ¬ m.EndsUnread v s) ∧
      (m.EndsUnread v s → (m.shownRange s).result v = none) := by
  rw [shownRange_eq, heldRange?_eq, EndsUnread]
  cases m.heldEnds? v s with
  | none => simp
  | some ends =>
    obtain ⟨low, high⟩ := ends
    cases hlow : Text.readInt (m.symbol s).type.radix low.toList with
    | none => simp [hlow]
    | some low' =>
      cases hhigh : Text.readInt (m.symbol s).type.radix high.toList with
      | none => simp [hlow, hhigh]
      | some high' => simp [hlow, hhigh, numberIn]

/-! ### The range that is enforced -/

/-- A number is left as it is when it lies within the range, if there is one. -/
theorem clamp?_eq_none {range : Option (Int × Int)} {n : Int} :
    clamp? range n = none ↔ ∀ low high, range = some (low, high) → low ≤ n ∧ n ≤ high := by
  cases range with
  | none => exact ⟨fun _ => nofun, fun _ => rfl⟩
  | some ends =>
    obtain ⟨low, high⟩ := ends
    simp only [clamp?, Option.some.injEq, Prod.mk.injEq]
    constructor
    · rintro hclamp _ _ ⟨rfl, rfl⟩
      by_cases hlow : n < low
      · simp [hlow] at hclamp
      · by_cases hhigh : high < n
        · simp [hlow, hhigh] at hclamp
        · omega
    · intro hwithin
      obtain ⟨hlow, hhigh⟩ := hwithin low high ⟨rfl, rfl⟩
      rw [if_neg (by omega), if_neg (by omega)]

/-- The text of a number that a range makes of what the user gave and of the default. -/
def textWithin (m : Model) (u : UserValues) (v : Valuation) (s : SymbolId)
    (range : Option (Int × Int)) : String :=
  if v (.visible (.symbol s)) = true ∧ givenNumber u s ≠ "" ∧
      clamp? range (numberIn (m.symbol s).type (givenNumber u s)) = none then givenNumber u s
  else m.clampedDefault v s range

theorem keepsNumber_iff {given : String} : m.KeepsNumber v s given ↔
    given ≠ "" ∧ clamp? (m.heldRange? v s) (numberIn (m.symbol s).type given) = none := by
  rw [KeepsNumber, activeRange_eq, userNumber_eq, clamp?_eq_none]

/-- The text of a number is what the range that holds makes of it. -/
theorem numberText_text (htype : (m.symbol s).type.isNumber = true) :
    ((m.numberText u s).result v).value = m.textWithin u v s (m.heldRange? v s) := by
  rw [textWithin]
  cases hvisible : v (.visible (.symbol s)) with
  | false =>
    have hdefault : (m.numberText u s).result v =
        (m.defaultNumber s (m.heldRange? v s) false).result v := by
      simp [numberText, hvisible, activeRange_eq]
    rw [hdefault, defaultNumber_text htype]
    rfl
  | true =>
    by_cases hkept : m.KeepsNumber v s (givenNumber u s)
    · rw [numberText_kept hvisible hkept, if_pos ⟨rfl, keepsNumber_iff.mp hkept⟩]
    · rw [numberText_default hvisible hkept, activeRange_eq, defaultNumber_text htype,
        if_neg fun h => hkept (keepsNumber_iff.mpr h.2)]

end Model

/-- Whatever was done before, where reading comes to an end the text of a number is what the range
that holds makes of it, and this is the range that is shown unless one of its ends is no number. -/
theorem shownRange_after_acts {host : Host} {options : LoadOptions} {c : Configuration}
    {w : Workspace} (hload : Load.load host options = .ok c w) {s : SymbolId}
    (htype : (w.model.symbol s).type.isNumber = true) (acts : List Act)
    (hanswering : (c.after acts).Answering) :
    ∃ v, (c.after acts).Says v ∧
      (v (.text (.symbol s))).value =
        w.model.textWithin (c.after acts).user v s (w.model.heldRange? v s) ∧
      Ends (Configuring.follow (w.model.shownRange s)) (c.after acts) fun shown _ =>
        (shown = w.model.heldRange? v s ↔ ¬ w.model.EndsUnread v s) ∧
          (w.model.EndsUnread v s → shown = none) := by
  obtain ⟨v, hread, hv⟩ := (Load.backsDirect_after hload acts).exists_saying hanswering
  refine ⟨v, hread, ?_, ?_⟩
  · rw [hv _ (w.model.direct_text _), ← Model.valueRule_result, Model.textRule_number htype,
      result_bind]
    exact Model.numberText_text htype
  · refine (hread.ends_follow _).mono fun shown _ hshown => ?_
    rw [hshown]
    exact Model.shownRange_eq_heldRange?

/-- A number whose range begins at a number that has no value at first. -/
def unsetLimit : Host where
  files.entries := [(["work", "Kconfig"], .file (.text
    "config LIMIT\n\tint \"limit\"\n\nconfig N\n\tint \"n\"\n\trange LIMIT 10\n"))]

/-- At first the range from zero refuses what the user gives, and none is shown. When the limit has
a value, its range is shown, and the text is the limit. -/
theorem unsetLimit_shownRange : ∃ c w, Load.load unsetLimit {} = .ok c w ∧
    (∃ v, (c.after [.setSymbol 3 (.text "12")]).Says v ∧
      w.model.heldRange? v 3 = some (0, 10) ∧ (v (.text (.symbol 3))).value = "" ∧
      w.model.EndsUnread v 3 ∧ (w.model.shownRange 3).result v = none) ∧
    ∃ v, (c.after [.setSymbol 3 (.text "12"), .setSymbol 2 (.text "5")]).Says v ∧
      w.model.heldRange? v 3 = some (5, 10) ∧ (v (.text (.symbol 3))).value = "5" ∧
      ¬ w.model.EndsUnread v 3 ∧ (w.model.shownRange 3).result v = some (5, 10) := by
  have hchecked : passes (fun c w => decide (w.model.choices.size = 0 ∧
      (w.model.symbol 3).type.isNumber = true ∧
      let refused := c.after [.setSymbol 3 (.text "12")]
      let moved := c.after [.setSymbol 3 (.text "12"), .setSymbol 2 (.text "5")]
      (refused.gives (w.model.activeRange 3) (some (0, 10)) = true ∧
        refused.gives (text (.symbol 3)) "" = true ∧
        refused.gives (w.model.shownRange 3) none = true) ∧
      moved.gives (w.model.activeRange 3) (some (5, 10)) = true ∧
      moved.gives (text (.symbol 3)) "5" = true ∧
      moved.gives (w.model.shownRange 3) (some (5, 10)) = true))
      (Load.load unsetLimit {}) = true := by decide +kernel
  obtain ⟨c, w, hload, hchecked⟩ := ok_of_passes hchecked
  obtain ⟨hno, hnumber, ⟨hheld₁, htext₁, hshown₁⟩, hheld₂, htext₂, hshown₂⟩ :=
    of_decide_eq_true hchecked
  have hloop := Load.noLoop_of_load hload
  have hm := Load.sound_of_load hload
  have hr : w.model.Reliable :=
    ⟨hm, Model.tidy_of_no_choices hno, fun u _ => hm.terminates_of_no_choices hloop hno u⟩
  have hanswering : ∀ acts, (c.after acts).Answering := fun acts => by
    have hlater := (Load.coherent_of_load hload).after hr acts
    obtain ⟨u, hu⟩ := (hr.terminates _ hlater.permits).solution
    exact Configuration.answering_of_coherent hu hlater.model rfl (hlater.memory u hu)
  refine ⟨c, w, hload, ?_, ?_⟩
  · obtain ⟨v, hread, -, hends⟩ := shownRange_after_acts hload hnumber _ (hanswering _)
    have hheld := Model.activeRange_eq.symm.trans (hread.result_eq hheld₁)
    have hshown := hread.result_eq hshown₁
    obtain ⟨shown, d, hfollow, hiff, -⟩ := hends
    rw [Configuration.gives, hfollow] at hshown₁
    obtain rfl := eq_of_beq hshown₁
    have hunread : w.model.EndsUnread v 3 := Classical.not_not.mp fun hplain =>
      absurd ((hiff.mpr hplain).trans hheld).symm (Option.some_ne_none _)
    exact ⟨v, hread, hheld, hread.result_eq htext₁, hunread, hshown⟩
  · obtain ⟨v, hread, -, hends⟩ := shownRange_after_acts hload hnumber _ (hanswering _)
    have hheld := Model.activeRange_eq.symm.trans (hread.result_eq hheld₂)
    have hshown := hread.result_eq hshown₂
    obtain ⟨shown, d, hfollow, hiff, -⟩ := hends
    rw [Configuration.gives, hfollow] at hshown₂
    obtain rfl := eq_of_beq hshown₂
    exact ⟨v, hread, hheld, hread.result_eq htext₂, hiff.mp hheld.symm, hshown⟩

end Kconfig
