import Kconfig.Config.Values
import Kconfig.Proofs.Config.Assignable
import Kconfig.Proofs.Config.LeftOut
import Kconfig.Proofs.Config.Ranges
/-!
The default text of a symbol is the text that it has without the user, but for two things.

Taking the user's value away is a change of one rule: that of the symbol's level or of its text.
What this rule asks for has the same answers before and after, so the text without the user can be
worked out from the values before. The default text is worked out from them too, but more shortly:
it takes an `imply` into account although the dependencies of the symbol do not hold, and it takes
no account of the range that holds.
-/
namespace Kconfig
open Plan

namespace Model
variable {m : Model} {u u' : UserValues} {v v' : Valuation} {s : SymbolId}

/-! ### What the default text leaves out -/

/-- The level of a bool by its defaults. -/
def defaultLevel (m : Model) (s : SymbolId) : Plan Bool := do
  match ← m.firstActive (m.symbol s).defaults with
  | none => return false
  | some p => m.holds p.value

/-- A bool is implied, its dependencies do not hold, and nothing else makes it `y`. -/
structure ImpliedInVain (m : Model) (v : Valuation) (s : SymbolId) : Prop where
  bool : (m.symbol s).type = .bool
  implied : (m.holds (m.symbol s).weakRevDep).result v = true
  unmet : (m.holds (m.symbol s).directDep).result v = false
  unforced : m.forcedUnder v s = false
  default : (m.defaultLevel s).result v = false

/-- The default of a number lies beyond the range that holds. -/
def BeyondRange (m : Model) (v : Valuation) (s : SymbolId) : Prop :=
  (m.symbol s).type.isNumber = true ∧ ∃ low high, m.heldRange? v s = some (low, high) ∧
    (numberIn (m.symbol s).type ((m.defaultText s).result v) < low ∨
      high < numberIn (m.symbol s).type ((m.defaultText s).result v))

/-- Something that the default text does not look at decides the value without the user. -/
def Overruled (m : Model) (v : Valuation) (s : SymbolId) : Prop :=
  m.ImpliedInVain v s ∨ m.BeyondRange v s

/-! ### The default text and the text without the user -/

theorem defaultText_of_bool (htype : (m.symbol s).type = .bool)
    (hchoice : (m.symbol s).choice = none) : (m.defaultText s).result v =
      levelWord (m.forcedUnder v s || (m.holds (m.symbol s).weakRevDep).result v ||
        (m.defaultLevel s).result v) := by
  cases hdefault : (m.firstActive (m.symbol s).defaults).result v <;>
    simp [defaultText, defaultLevel, forcedUnder, htype, hchoice, hdefault]

/-- Without the user a bool is what selects it, what implies it while its dependencies hold, or its
default. -/
theorem plainLevel_of_none (hnone : u.value s = none) (isVisible : Bool) :
    ((m.plainLevel u s isVisible).result v).value =
      (m.forcedUnder v s ||
        ((m.holds (m.symbol s).weakRevDep).result v && (m.holds (m.symbol s).directDep).result v) ||
        (m.defaultLevel s).result v) := by
  cases hrev : (m.holds (m.symbol s).revDep).result v with
  | true => simp [plainLevel_forced hrev, forcedUnder, hrev]
  | false =>
    rw [plainLevel_unforced hrev]
    cases hdefault : (m.firstActive (m.symbol s).defaults).result v <;>
      cases hweak : (m.holds (m.symbol s).weakRevDep).result v <;>
      cases hdirect : (m.holds (m.symbol s).directDep).result v <;>
      simp [ownLevel, defaultLevel, forcedUnder, hnone, hrev, hdefault, hweak, hdirect]

theorem stringText_of_none (hnone : u.value s = none) :
    ((m.stringText u s).result v).value = ((m.activeDefault s).result v).getD "" := by
  cases hdefault : (m.activeDefault s).result v <;>
    cases hvisible : v (.visible (.symbol s)) <;>
    simp [stringText, hnone, hdefault, hvisible]

/-- The default of a number, or the end of a range that it lies beyond. -/
def clampedDefault (m : Model) (v : Valuation) (s : SymbolId) (range : Option (Int × Int)) : String :=
  let default := ((m.activeDefault s).result v).getD ""
  let moved := clamp? range (numberIn (m.symbol s).type default)
  (moved.map fun ends => (m.symbol s).type.write ends.1).getD default

theorem defaultNumber_text (htype : (m.symbol s).type.isNumber = true) (range : Option (Int × Int))
    (isVisible : Bool) :
    ((m.defaultNumber s range isVisible).result v).value = m.clampedDefault v s range := by
  have hnumber : (((m.activeDefault s).result v).map (numberIn (m.symbol s).type)).getD 0 =
      numberIn (m.symbol s).type (((m.activeDefault s).result v).getD "") := by
    cases (m.activeDefault s).result v with
    | none => exact (numberIn_empty htype).symm
    | some default => rfl
  simp only [defaultNumber, clampedDefault, result_bind, hnumber]
  cases clamp? range (numberIn (m.symbol s).type (((m.activeDefault s).result v).getD "")) with
  | none => rfl
  | some ends =>
    obtain ⟨bound, low, high⟩ := ends
    cases (m.activeDefault s).result v <;> rfl

/-- Without the user a number is its default, or the end of the range that this lies beyond. -/
theorem numberText_of_none (htype : (m.symbol s).type.isNumber = true)
    (hnone : u.value s = none) :
    ((m.numberText u s).result v).value = m.clampedDefault v s (m.heldRange? v s) := by
  have hdefault : (m.numberText u s).result v =
      (m.defaultNumber s (m.heldRange? v s) (v (.visible (.symbol s)))).result v := by
    simp [numberText, hnone, activeRange_eq]
  rw [hdefault, defaultNumber_text htype]

/-- A number that lies beyond an end is moved. -/
theorem clamp?_some {low high n : Int} (hbeyond : n < low ∨ high < n) :
    ∃ bound, clamp? (some (low, high)) n = some (bound, low, high) ∧ bound ≠ n := by
  by_cases hlow : n < low
  · refine ⟨low, by simp only [clamp?, if_pos hlow], by omega⟩
  · have hhigh : high < n := hbeyond.resolve_left hlow
    refine ⟨high, by simp only [clamp?, if_neg hlow, if_pos hhigh], by omega⟩

/-- The text of a number without the user is the default text unless this lies beyond the range. -/
theorem defaultText_eq_numberText (htype : (m.symbol s).type.isNumber = true)
    (hnone : u.value s = none) :
    (m.defaultText s).result v = ((m.numberText u s).result v).value ↔ ¬ m.BeyondRange v s := by
  have hdefault : (m.defaultText s).result v = ((m.activeDefault s).result v).getD "" :=
    defaultText_of_text (fun h => by simp [h, ValueType.isNumber] at htype)
      (fun h => by simp [h, ValueType.isNumber] at htype)
  rw [numberText_of_none htype hnone, clampedDefault, BeyondRange, hdefault]
  generalize ((m.activeDefault s).result v).getD "" = default
  cases hrange : m.heldRange? v s with
  | none => simp [clamp?]
  | some ends =>
    obtain ⟨low, high⟩ := ends
    by_cases hbeyond : numberIn (m.symbol s).type default < low ∨
        high < numberIn (m.symbol s).type default
    · obtain ⟨bound, hclamp, hne⟩ := clamp?_some hbeyond
      have hmoved : default ≠ (m.symbol s).type.write bound := fun heq =>
        hne (by rw [heq, numberIn_write htype])
      simp [hclamp, hmoved, htype, hbeyond]
    · rw [not_or] at hbeyond
      have hclamp : clamp? (some (low, high)) (numberIn (m.symbol s).type default) = none := by
        simp only [clamp?, if_neg hbeyond.1, if_neg hbeyond.2]
      simp [hclamp, hbeyond.1, hbeyond.2]

/-- The level of a bool without the user is the default one unless it is implied in vain. -/
theorem defaultText_eq_plainLevel (htype : (m.symbol s).type = .bool)
    (hchoice : (m.symbol s).choice = none) (hnone : u.value s = none) (isVisible : Bool) :
    (m.defaultText s).result v = levelWord ((m.plainLevel u s isVisible).result v).value ↔
      ¬ m.ImpliedInVain v s := by
  have hvain : m.ImpliedInVain v s ↔ (m.holds (m.symbol s).weakRevDep).result v = true ∧
      (m.holds (m.symbol s).directDep).result v = false ∧ m.forcedUnder v s = false ∧
      (m.defaultLevel s).result v = false :=
    ⟨fun h => ⟨h.implied, h.unmet, h.unforced, h.default⟩, fun ⟨h₁, h₂, h₃, h₄⟩ =>
      ⟨htype, h₁, h₂, h₃, h₄⟩⟩
  rw [defaultText_of_bool htype hchoice, plainLevel_of_none hnone, hvain]
  cases m.forcedUnder v s <;> cases (m.holds (m.symbol s).weakRevDep).result v <;>
    cases (m.holds (m.symbol s).directDep).result v <;>
    cases (m.defaultLevel s).result v <;> decide

/-! ### Taking the user's value away -/

/-- A new value of a symbol that is no bool is seen by the rule of its text only. -/
theorem oneRule_of_text (htype : (m.symbol s).type ≠ .bool)
    (hvalue : ∀ t, t ≠ s → u'.value t = u.value t)
    (hselection : ∀ c, u'.selection c = u.selection c) : m.OneRule (.text (.symbol s)) u u' := by
  intro q hq
  by_cases hitem : q.item = .symbol s
  · rcases q with (t | c) | (t | c) | i | i | c
    · exact absurd (congrArg Query.text hitem) hq
    · cases hitem
    · obtain rfl : t = s := Item.symbol.inj hitem
      simp only [valueRule, if_pos htype]
    · cases hitem
    · rfl
    · rfl
    · cases hitem
  · exact valueRule_congr (fun t ht => hvalue t fun hts => hitem (hts ▸ ht)) fun c _ => hselection c

/-- The answer that a changed rule gives can be worked out from the answers before the change. -/
theorem OneRule.changed_eq {x : Query} (h : m.OneRule x u u') (hv : m.Solves u v)
    (hv' : m.Solves u' v') : v' x = (m.valueRule u' x).result v := by
  rw [hv'.eq_value x]
  exact (agree fun q hq => (h.asked_eq hv hv' hq)).1.symm

/-- The default text of a symbol outside choices is the text that it has once the user's value is
taken away, unless that is overruled. -/
theorem Solves.defaultText_eq_text (hv : m.Solves u v) (hv' : m.Solves u' v')
    (hvalue : ∀ t, u'.value t = if t = s then none else u.value t)
    (hselection : ∀ c, u'.selection c = u.selection c) (hconst : ¬ (s = noId ∨ s = yesId))
    (hchoice : (m.symbol s).choice = none) (hknown : (m.symbol s).type ≠ .unknown) :
    (m.defaultText s).result v = (v' (.text (.symbol s))).value ↔ ¬ m.Overruled v s := by
  have hnone : u'.value s = none := (hvalue s).trans (if_pos rfl)
  have hothers : ∀ t, t ≠ s → u'.value t = u.value t := fun t ht => (hvalue t).trans (if_neg ht)
  by_cases hbool : (m.symbol s).type = .bool
  · have hlevel : v' (.level (.symbol s)) =
        (m.plainLevel u' s (v (.visible (.symbol s)))).result v := by
      rw [(oneRule_of_value hbool hothers hselection).changed_eq hv hv',
        valueRule_of_free hbool hchoice hconst, result_bind, result_visible]
    have hwithin : ¬ m.BeyondRange v s := fun h => by
      rw [BeyondRange, hbool] at h
      exact nomatch h.1
    rw [hv'.text_of_bool hbool, hlevel, defaultText_eq_plainLevel hbool hchoice hnone, Overruled,
      or_iff_left hwithin]
  · have htext := (oneRule_of_text hbool hothers hselection).changed_eq hv hv'
    have hlevel : ¬ m.ImpliedInVain v s := fun h => hbool h.bool
    rw [htext, Overruled, or_iff_right hlevel]
    by_cases hnumber : (m.symbol s).type.isNumber = true
    · rw [textRule_number hnumber, result_bind]
      exact defaultText_eq_numberText hnumber hnone
    · have hstring : (m.symbol s).type = .string := by
        cases htype : (m.symbol s).type <;> simp_all [ValueType.isNumber]
      have hrule : ((m.valueRule u' (.text (.symbol s))).result v).value =
          ((m.stringText u' s).result v).value := by
        simp [valueRule, rule, textRule, hstring]
      rw [hrule, stringText_of_none hnone, defaultText_of_text hbool hknown]
      simp [BeyondRange, hnumber]

end Model

variable {m : Model} {u : UserValues} {v : Valuation} {c : Configuration} {s : SymbolId}

/-- With right answers in mind, what is read is what the valuation says. -/
theorem Configuration.Recalls.says (hc : c.Recalls m u v) (hv : m.Solves u v) : c.Says v := by
  intro qs q
  induction qs generalizing c with
  | nil =>
    obtain ⟨_, c', hask, rfl, -⟩ := Configuring.ends_follow hc hv (.ask q .done)
    exact ⟨c', hask⟩
  | cons q' qs ih =>
    obtain ⟨_, c', hask, -, hc'⟩ := Configuring.ends_follow hc hv (.ask q' .done)
    rw [after_ask hask]
    exact ih hc'

/-- A symbol has its default when the user gave it no value, or when its text is the default one. -/
theorem Configuring.ends_isDefault (hc : c.Recalls m u v) (hv : m.Solves u v) :
    Ends (isDefault s) c fun isDefault _ => (isDefault = true ↔
      u.value s = none ∨ (v (.text (.symbol s))).value = (m.defaultText s).result v) := by
  refine .bind_get ?_
  rw [hc.user, hc.model]
  cases hgiven : u.value s with
  | none => exact .pure (by simp)
  | some given =>
    refine (ends_follow hc hv (.text (.symbol s))).bind fun now c' ⟨hnow, hc'⟩ => ?_
    refine (ends_follow hc' hv (m.defaultText s)).bind fun default _ ⟨hdefault, _⟩ => .pure ?_
    rw [hnow, hdefault]
    simp

/-- Taking a value away leaves the user's other values and the selections. -/
theorem Configuration.user_after_unset (c : Configuration) (acts : List Act) (s : SymbolId) :
    (∀ t, (c.after (acts ++ [.unsetSymbol s])).user.value t =
        if t = s then none else (c.after acts).user.value t) ∧
      ∀ ch, (c.after (acts ++ [.unsetSymbol s])).user.selection ch =
        (c.after acts).user.selection ch := by
  obtain ⟨_, c', hunset, -, -, hselections, hvalue⟩ : Ends (Configuring.unsetSymbol s)
      (c.after acts) _ := (Configuring.sure_unsetSymbol s).ends (Configuring.yields_unsetSymbol s)
  have hafter : c.after (acts ++ [.unsetSymbol s]) = c' := by
    rw [after, List.foldl_append]
    change stateAfter (Configuring.unsetSymbol s (c.after acts)) = c'
    rw [hunset]
    rfl
  rw [hafter]
  exact ⟨hvalue, fun ch => congrArg (·[ch]?.join) hselections⟩

/-- Whatever was done before, the default text of a symbol outside choices is the text that it has
once its value is taken away, unless that is overruled; and then a symbol has its default exactly
if the user gave it no value or taking that away does not change its text. For that nothing that is
remembered may be out of date, which it never is in a tidy model. -/
theorem default_after_acts {host : Host} {options : LoadOptions} {w : Workspace}
    (hload : Load.load host options = .ok c w)
    (hterminates : ∀ u, w.model.Permits u → w.model.Terminates u) (hs : s ∈ w.model.defined)
    (hchoice : (w.model.symbol s).choice = none) (hknown : (w.model.symbol s).type ≠ .unknown)
    (acts : List Act) (hcurrent : w.model.Tidy ∨
      (c.after acts).UpToDate ∧ (c.after (acts ++ [.unsetSymbol s])).UpToDate) :
    ∃ v v' default, (c.after acts).Says v ∧ (c.after (acts ++ [.unsetSymbol s])).Says v' ∧
      Ends (Configuring.follow (w.model.defaultText s)) (c.after acts)
        (fun text _ => text = default) ∧
      (default = (v' (.text (.symbol s))).value ↔ ¬ w.model.Overruled v s) ∧
      Ends (Configuring.isDefault s) (c.after acts) fun isDefault _ =>
        (isDefault = true ↔ (c.after acts).user.value s = none ∨
          (v (.text (.symbol s))).value = default) ∧
        (¬ w.model.Overruled v s → (isDefault = true ↔ (c.after acts).user.value s = none ∨
          (v' (.text (.symbol s))).value = (v (.text (.symbol s))).value)) := by
  have hproper := (ready_after hload acts).proper
  have hproper' := (ready_after hload (acts ++ [.unsetSymbol s])).proper
  obtain ⟨v, hv⟩ := (hterminates _ hproper.permits).solution
  obtain ⟨v', hv'⟩ := (hterminates _ hproper'.permits).solution
  have hc : (c.after acts).Recalls w.model (c.after acts).user v :=
    ⟨hproper.model, rfl, right_after hload hterminates (hcurrent.imp id And.left) hv⟩
  have hc' : (c.after (acts ++ [.unsetSymbol s])).Recalls w.model _ v' :=
    ⟨hproper'.model, rfl, right_after hload hterminates (hcurrent.imp id And.right) hv'⟩
  obtain ⟨hvalue, hselection⟩ := c.user_after_unset acts s
  have hdefault := hv.defaultText_eq_text hv' hvalue hselection
    ((Load.sound_of_load hload).not_level hs) hchoice hknown
  refine ⟨v, v', _, hc.says hv, hc'.says hv', ?_, hdefault, ?_⟩
  · exact (Configuring.ends_follow hc hv _).mono fun _ _ h => h.1
  · refine (Configuring.ends_isDefault hc hv).mono fun isDefault _ hiff => ⟨hiff, fun hplain => ?_⟩
    rw [hiff, hdefault.mpr hplain]
    exact or_congr_right eq_comm

/-- Two numbers with the same range, of which one has a default. -/
def rangedNumbers : Host where
  files.entries := [(["work", "Kconfig"], .file (.text
    "config N\n\tint \"n\"\n\tdefault 7\n\trange 5 10\n\nconfig P\n\tint \"p\"\n\trange 5 10\n"))]

/-- Each of them is given the text that it has anyway. -/
def giveSameTexts : List Act := [.setSymbol 2 (.text "7"), .setSymbol 6 (.text "5")]

/-- The one has its default then. The other one has not, although taking its value away does not
change its text. -/
theorem rangedNumbers_default : ∃ c w, Load.load rangedNumbers {} = .ok c w ∧
    let later := c.after giveSameTexts
    (∃ v v', later.Says v ∧ (c.after (giveSameTexts ++ [.unsetSymbol 2])).Says v' ∧
      (v (.text (.symbol 2))).value = "7" ∧ (v' (.text (.symbol 2))).value = "7" ∧
      ¬ w.model.Overruled v 2 ∧ Ends (Configuring.isDefault 2) later fun isDefault _ =>
        isDefault = true) ∧
    ∃ v v', later.Says v ∧ (c.after (giveSameTexts ++ [.unsetSymbol 6])).Says v' ∧
      (v (.text (.symbol 6))).value = "5" ∧ (v' (.text (.symbol 6))).value = "5" ∧
      w.model.Overruled v 6 ∧ Ends (Configuring.isDefault 6) later fun isDefault _ =>
        isDefault = false := by
  have hchecked : passes (fun c w => decide (w.model.choices.size = 0 ∧
      (2 ∈ w.model.defined ∧ (w.model.symbol 2).choice = none ∧ (w.model.symbol 2).type = .int) ∧
      (6 ∈ w.model.defined ∧ (w.model.symbol 6).choice = none ∧ (w.model.symbol 6).type = .int) ∧
      let later := c.after giveSameTexts
      later.user.value 6 = some (.text "5") ∧
      (later.gives (text (.symbol 2)) "7" = true ∧ later.gives (text (.symbol 6)) "5" = true) ∧
      (later.gives (w.model.defaultText 2) "7" = true ∧
        later.gives (w.model.defaultText 6) "" = true) ∧
      (c.after (giveSameTexts ++ [.unsetSymbol 2])).gives (text (.symbol 2)) "7" = true ∧
      (c.after (giveSameTexts ++ [.unsetSymbol 6])).gives (text (.symbol 6)) "5" = true))
      (Load.load rangedNumbers {}) = true := by decide +kernel
  obtain ⟨c, w, hload, hchecked⟩ := ok_of_passes hchecked
  obtain ⟨hno, ⟨hdefined₂, hchoice₂, hint₂⟩, ⟨hdefined₆, hchoice₆, hint₆⟩, hgiven₆,
    ⟨hnow₂, hnow₆⟩, ⟨hdefault₂, hdefault₆⟩, hlater₂, hlater₆⟩ := of_decide_eq_true hchecked
  have hloop := Load.noLoop_of_load hload
  have hterminates : ∀ u, w.model.Permits u → w.model.Terminates u := fun u _ =>
    (Load.sound_of_load hload).terminates_of_no_choices hloop hno u
  have htidy := Model.tidy_of_no_choices hno
  refine ⟨c, w, hload, ?_, ?_⟩
  · obtain ⟨v, v', default, hread, hread', hfollow, hiff, hends⟩ := default_after_acts hload
      hterminates hdefined₂ hchoice₂ (by rw [hint₂]; decide) giveSameTexts (.inl htidy)
    obtain ⟨_, d, hfollow, rfl⟩ := hfollow
    rw [Configuration.gives, hfollow] at hdefault₂
    obtain rfl := eq_of_beq hdefault₂
    have hplain : ¬ w.model.Overruled v 2 := hiff.mp (hread'.result_eq hlater₂).symm
    refine ⟨v, v', hread, hread', hread.result_eq hnow₂, hread'.result_eq hlater₂, hplain, ?_⟩
    exact hends.mono fun _ _ h => h.1.mpr (.inr (hread.result_eq hnow₂))
  · obtain ⟨v, v', default, hread, hread', hfollow, hiff, hends⟩ := default_after_acts hload
      hterminates hdefined₆ hchoice₆ (by rw [hint₆]; decide) giveSameTexts (.inl htidy)
    obtain ⟨_, d, hfollow, rfl⟩ := hfollow
    rw [Configuration.gives, hfollow] at hdefault₆
    obtain rfl := eq_of_beq hdefault₆
    have hnow : (v (.text (.symbol 6))).value = "5" := hread.result_eq hnow₆
    have hlater : (v' (.text (.symbol 6))).value = "5" := hread'.result_eq hlater₆
    rw [hlater] at hiff
    have hoverruled : w.model.Overruled v 6 := Classical.not_not.mp fun hplain =>
      absurd (hiff.mpr hplain) (by decide)
    refine ⟨v, v', hread, hread', hnow, hlater, hoverruled, ?_⟩
    refine hends.mono fun isDefault _ h => Bool.eq_false_iff.mpr fun htrue => ?_
    rcases h.1.mp htrue with hnone | hsame
    · rw [hgiven₆] at hnone
      exact absurd hnone (Option.some_ne_none _)
    · rw [hnow] at hsame
      exact absurd hsame (by decide)

end Kconfig
