import Kconfig.Proofs.Config.Direct
import Kconfig.Proofs.Text.Numeral
import Kconfig.Proofs.Values.Saved
/-!
Numbers stay within their ranges.

The text of a number is the user's, a default, or the end of a range that the default lies beyond.
Each of them denotes a number within the range that holds, whatever the texts of the ends are: they
count as the numbers that they denote, and what is written for an end is read as that number again.
What the user gave is kept as it is when it lies in the range.
-/
namespace Kconfig
open Plan

namespace Model
variable {m : Model} {u : UserValues} {v : Valuation} {s : SymbolId} {low high : Int}

/-- The ends of the first range whose condition holds; an end that is no number counts as zero. -/
def heldRange? (m : Model) (v : Valuation) (s : SymbolId) : Option (Int × Int) :=
  ((m.symbol s).ranges.find? fun p => (m.holds p.cond).result v).map fun p =>
    (numberIn (m.symbol s).type (v (.text (.symbol p.value.low))).value,
      numberIn (m.symbol s).type (v (.text (.symbol p.value.high))).value)

/-- What ranges promise of a number: it lies in the range that holds, and it is what the user gave
if it can be. -/
structure Ranged (m : Model) (u : UserValues) (v : Valuation) (s : SymbolId) : Prop where
  bounded : ∀ low high, m.heldRange? v s = some (low, high) → low ≤ high →
    low ≤ numberIn (m.symbol s).type (v (.text (.symbol s))).value ∧
      numberIn (m.symbol s).type (v (.text (.symbol s))).value ≤ high
  kept : ∀ given, u.value s = some given → v (.visible (.symbol s)) = true →
    (∀ low high, m.heldRange? v s = some (low, high) →
      low ≤ numberIn (m.symbol s).type given.asText ∧
        numberIn (m.symbol s).type given.asText ≤ high) →
    (v (.text (.symbol s))).value = given.asText

/-! ### The range that holds -/

theorem firstActive_eq_find? {α : Type} (ps : List (Guarded α)) :
    (m.firstActive ps).result v = ps.find? fun p => (m.holds p.cond).result v := by
  induction ps with
  | nil => rfl
  | cons p ps ih =>
    rw [firstActive, result_bind, result_ite, List.find?_cons, ih]
    cases (m.holds p.cond).result v <;> rfl

theorem activeRange_eq : (m.activeRange s).result v = m.heldRange? v s := by
  simp only [activeRange, heldRange?, result_bind, firstActive_eq_find?]
  cases (m.symbol s).ranges.find? fun p => (m.holds p.cond).result v <;> rfl

/-! ### Numbers within it -/

theorem numberIn_write {type : ValueType} (htype : type.isNumber = true) (n : Int) :
    numberIn type (type.write n) = n := by
  rw [numberIn, ValueType.readInt_write htype]
  rfl

theorem numberIn_empty {type : ValueType} (htype : type.isNumber = true) : numberIn type "" = 0 := by
  cases type with
  | int | hex => rfl
  | _ => exact nomatch htype

/-- The end that a number lies beyond lies in the range itself. -/
theorem clamp?_bounds (hle : low ≤ high) (n : Int) :
    clamp? (some (low, high)) n = none ∧ low ≤ n ∧ n ≤ high ∨
      ∃ bound, clamp? (some (low, high)) n = some (bound, low, high) ∧ low ≤ bound ∧ bound ≤ high := by
  simp only [clamp?]
  split
  · exact .inr ⟨low, rfl, Int.le_refl low, hle⟩
  · split
    · exact .inr ⟨high, rfl, hle, Int.le_refl high⟩
    · refine .inl ⟨rfl, ?_, ?_⟩ <;> omega

/-- A default within the range, or an end of it. -/
theorem defaultNumber_bounded (htype : (m.symbol s).type.isNumber = true) (hle : low ≤ high)
    (isVisible : Bool) :
    low ≤ numberIn (m.symbol s).type
        ((m.defaultNumber s (some (low, high)) isVisible).result v).value ∧
      numberIn (m.symbol s).type
        ((m.defaultNumber s (some (low, high)) isVisible).result v).value ≤ high := by
  simp only [defaultNumber, result_bind]
  generalize (m.activeDefault s).result v = default
  rcases clamp?_bounds hle ((default.map (numberIn (m.symbol s).type)).getD 0) with
    ⟨hclamp, hlow, hhigh⟩ | ⟨bound, hclamp, hlow, hhigh⟩
  · rw [hclamp]
    cases default with
    | none =>
      change low ≤ numberIn _ "" ∧ numberIn _ "" ≤ high
      rw [numberIn_empty htype]
      exact ⟨hlow, hhigh⟩
    | some text => exact ⟨hlow, hhigh⟩
  · rw [hclamp]
    cases default <;>
    · simp only [Option.isSome_none, Option.isSome_some, Bool.false_eq_true, if_false, if_true,
        result_bind, result_pure]
      rw [numberIn_write htype]
      exact ⟨hlow, hhigh⟩

/-- The user's number is kept when it lies in the range, if there is one. -/
theorem userNumber_eq (given : String) :
    (m.userNumber s (m.heldRange? v s) given).result v = some given ↔
      ∀ low high, m.heldRange? v s = some (low, high) →
        low ≤ numberIn (m.symbol s).type given ∧ numberIn (m.symbol s).type given ≤ high := by
  unfold userNumber
  cases m.heldRange? v s with
  | none => simp
  | some range =>
    obtain ⟨low, high⟩ := range
    by_cases hwithin : low ≤ numberIn (m.symbol s).type given ∧
        numberIn (m.symbol s).type given ≤ high
    · simp only [if_pos hwithin, result_pure, Option.some.injEq, Prod.mk.injEq, true_iff]
      rintro _ _ ⟨rfl, rfl⟩
      exact hwithin
    · simp only [if_neg hwithin, result_bind, result_pure]
      refine ⟨nofun, fun h => absurd (h low high rfl) hwithin⟩

/-- A number is the user's, or a default. -/
theorem numberText_cases :
    (m.KeepsNumber v s (givenNumber u s) ∧
        (m.numberText u s).result v = ⟨givenNumber u s, true⟩) ∨
      (m.numberText u s).result v =
        (m.defaultNumber s (m.heldRange? v s) (v (.visible (.symbol s)))).result v := by
  cases hvisible : v (.visible (.symbol s)) with
  | false => exact .inr (by simp [numberText, hvisible, activeRange_eq])
  | true =>
    by_cases hkept : m.KeepsNumber v s (givenNumber u s)
    · exact .inl ⟨hkept, numberText_kept hvisible hkept⟩
    · exact .inr (by rw [numberText_default hvisible hkept, activeRange_eq])

theorem accept?_empty {type : ValueType} (htype : type.isNumber = true) :
    type.accept? (.text "") = none := by
  cases type with
  | int | hex => rfl
  | _ => exact nomatch htype

/-- Where the text of a number obeys its rule, it respects the ranges. -/
theorem ranged_of_rule (htype : (m.symbol s).type.isNumber = true)
    (hu : ∀ given, u.value s = some given → ∃ g, (m.symbol s).type.accept? g = some given)
    (hv : v (.text (.symbol s)) = (m.valueRule u (.text (.symbol s))).result v) :
    m.Ranged u v s := by
  have htext : (v (.text (.symbol s))).value = ((m.numberText u s).result v).value := by
    rw [hv, textRule_number htype, result_bind]
    rfl
  refine ⟨fun low high hrange hle => ?_, fun given hgiven hvisible hwithin => ?_⟩
  · rw [htext]
    rcases numberText_cases with ⟨hkept, heq⟩ | heq
    · have huser := hkept.2
      rw [activeRange_eq] at huser
      rw [heq]
      exact (userNumber_eq _).mp huser low high hrange
    · rw [heq, hrange]
      exact defaultNumber_bounded htype hle _
  · -- what a number accepts is a numeral, and so not empty
    obtain ⟨g, hg⟩ := hu given hgiven
    obtain ⟨t, rfl, haccepts⟩ := text_of_accept? htype hg
    have ht : t ≠ "" := by
      rintro rfl
      exact nomatch (accept?_empty htype).symm.trans haccepts
    have hnumber : givenNumber u s = t := by
      rw [givenNumber, hgiven]
      rfl
    have hkept : m.KeepsNumber v s (givenNumber u s) := by
      rw [KeepsNumber, hnumber, activeRange_eq]
      exact ⟨ht, (userNumber_eq t).mpr hwithin⟩
    rw [htext, numberText_kept hvisible hkept]
    exact hnumber

end Model

/-- Whatever was done before, where reading comes to an end a number respects its ranges. -/
theorem ranged_after_acts {host : Host} {options : LoadOptions} {c : Configuration} {w : Workspace}
    (hload : Load.load host options = .ok c w) {s : SymbolId}
    (htype : (w.model.symbol s).type.isNumber = true) (acts : List Act)
    (hanswering : (c.after acts).Answering) :
    ∃ v, (c.after acts).Says v ∧ w.model.Ranged (c.after acts).user v s := by
  have hbacks := Load.backsDirect_after hload acts
  obtain ⟨v, hsays, hv⟩ := hbacks.exists_saying hanswering
  refine ⟨v, hsays, Model.ranged_of_rule htype (hbacks.permits.value s) ?_⟩
  rw [Model.valueRule_result]
  exact hv _ (w.model.direct_text _)

/-- A number whose range ends at another number. -/
def movingLimit : Host where
  files.entries := [(["work", "Kconfig"], .file (.text
    "config N\n\tint \"n\"\n\tdefault 50\n\trange 1 LIMIT\nconfig LIMIT\n\tint \"limit\"\n\tdefault 10\n"))]

/-- The number is asked for, set beyond its range, and the range is moved. -/
def moveLimit : List Act :=
  [.ask (.text (.symbol 2)), .setSymbol 2 (.text "20"), .setSymbol 5 (.text "0x1e"),
    .setSymbol 5 (.text "30")]

theorem movingLimit_ranged : ∃ c w v, Load.load movingLimit {} = .ok c w ∧
    (w.model.symbol 2).type.isNumber = true ∧
    let later := c.after moveLimit
    later.user.value 2 = some (.text "20") ∧ later.Answering ∧ later.Says v ∧
      w.model.Ranged later.user v 2 := by
  have hchecked : passes (fun c w => decide (w.model.choices.size = 0 ∧
      (w.model.symbol 2).type.isNumber = true ∧
      (c.after moveLimit).user.value 2 = some (.text "20"))) (Load.load movingLimit {}) = true := by
    decide +kernel
  obtain ⟨c, w, hload, hchecked⟩ := ok_of_passes hchecked
  obtain ⟨hno, hnumber, hgiven⟩ := of_decide_eq_true hchecked
  have hloop := Load.noLoop_of_load hload
  have hm := Load.sound_of_load hload
  have hr : w.model.Reliable :=
    ⟨hm, Model.tidy_of_no_choices hno, fun u _ => hm.terminates_of_no_choices hloop hno u⟩
  have hlater : (c.after moveLimit).Coherent w.model :=
    (Load.coherent_of_load hload).after hr moveLimit
  obtain ⟨u, hu⟩ := (hr.terminates _ hlater.permits).solution
  have hanswering : (c.after moveLimit).Answering :=
    Configuration.answering_of_coherent hu hlater.model rfl (hlater.memory u hu)
  obtain ⟨v, hsays, hranged⟩ := ranged_after_acts hload hnumber moveLimit hanswering
  exact ⟨c, w, v, hload, hnumber, hgiven, hanswering, hsays, hranged⟩

end Kconfig
