import Kconfig.Config.Assign
import Kconfig.Proofs.Values.Change
/-!
Values that were saved come back.

Loading a configuration that was written gives the user's values anew: every written value is now
the user's, and nothing else is. The values are the same all the same. A symbol that is not visible
does not take the user's value. One that is visible is written, and takes what was written: a value
that the user gave before is given again, a default becomes the user's, and a default that is no
proper value is refused and stays the default. The bool that a choice selects is written as `y` and
becomes the user's selection; a choice that selects anything else selects it by itself again.
-/
namespace Kconfig
open Plan

/-- The user's value that a symbol has after its line of a configuration is loaded. -/
def Symbol.givenBack? (sym : Symbol) (a : Written String) : Option UserValue :=
  if a.isWritten then
    sym.type.accept? (if sym.type = .bool then (Given.text a.value).readLevel else .text a.value)
  else none

/-- The user's values after loading a configuration that was written under a valuation. -/
structure UserValues.Saved (m : Model) (v : Valuation) (u : UserValues) : Prop where
  value : ∀ s, u.value s = (m.symbol s).givenBack? (v (.text (.symbol s)))
  selection : ∀ c s, u.selection c = some s ↔
    v (.selection c) = some s ∧ (m.symbol s).choice = some c ∧ (m.symbol s).type = .bool

namespace Model
variable {m : Model} {u u' : UserValues} {v v' : Valuation} {s : SymbolId} {c : ChoiceId}
  {q : Query}

/-! ### Visible symbols are written -/

theorem stringText_written (hvisible : v (.visible (.symbol s)) = true) :
    ((m.stringText u s).result v).isWritten = true := by
  simp only [stringText, result_bind, result_visible, hvisible]
  cases u.value s with
  | some given => rfl
  | none =>
    dsimp only
    rw [result_bind]
    cases (m.activeDefault s).result v <;> rfl

theorem ownLevel_written : ((m.ownLevel u s true).result v).isWritten = true := by
  unfold ownLevel
  dsimp only
  cases u.value s with
  | some given => rfl
  | none =>
    cases hweak : (m.holds (m.symbol s).weakRevDep).result v <;>
      cases hdirect : (m.holds (m.symbol s).directDep).result v <;>
      cases hdefault : (m.firstActive (m.symbol s).defaults).result v <;>
      simp [hweak, hdirect, hdefault]

theorem plainLevel_written : ((m.plainLevel u s true).result v).isWritten = true := by
  simp only [plainLevel, result_bind]
  split
  · rfl
  · exact ownLevel_written

theorem defaultNumber_written (range : Option (Int × Int)) :
    ((m.defaultNumber s range true).result v).isWritten = true := by
  simp only [defaultNumber, result_bind, Bool.true_or]
  cases clamp? range (((m.activeDefault s).result v).map (numberIn (m.symbol s).type) |>.getD 0) with
  | none => rfl
  | some bounds =>
    dsimp only
    split
    · simp
    · rfl

/-! ### Each kind of question -/

/-- The level that was written for a bool is given back. -/
theorem givenBack?_bool (htype : (m.symbol s).type = .bool) {a : Written String} (l : Bool)
    (hwritten : a.isWritten = true) (hvalue : a.value = levelWord l) :
    (m.symbol s).givenBack? a = some (.level l false) := by
  rw [Symbol.givenBack?, if_pos hwritten, if_pos htype, htype, hvalue]
  cases l <;> rfl

/-- A number's text is accepted as it is, or not at all. -/
theorem accept?_number {type : ValueType} (htype : type.isNumber = true) (t : String) :
    type.accept? (.text t) = none ∨ type.accept? (.text t) = some (.text t) := by
  cases type with
  | int =>
    simp only [ValueType.accept?]
    split
    · exact .inr rfl
    · exact .inl rfl
  | hex =>
    simp only [ValueType.accept?]
    split
    · split
      · exact .inr rfl
      · exact .inl rfl
    · exact .inl rfl
  | _ => exact nomatch htype

/-- What a number accepts is a text, and is accepted again. -/
theorem text_of_accept? {type : ValueType} (htype : type.isNumber = true) {g : Given}
    {a : UserValue} (h : type.accept? g = some a) :
    ∃ t, a = .text t ∧ type.accept? (.text t) = some (.text t) := by
  cases g with
  | text t =>
    rcases accept?_number htype t with hnone | hsome
    · rw [hnone] at h
      exact nomatch h
    · rw [hsome] at h
      exact ⟨t, (Option.some.inj h).symm, hsome⟩
  | _ => cases type <;> simp [ValueType.accept?, ValueType.isNumber] at h htype

theorem textRule_number (htype : (m.symbol s).type.isNumber = true) (u : UserValues) :
    m.valueRule u (.text (.symbol s)) = (do
      let a ← m.numberText u s
      return ⟨a.value, a.isWritten && !m.isUnwritten s⟩) := by
  cases h : (m.symbol s).type with
  | int => simp [valueRule, rule, textRule, h]
  | hex => simp [valueRule, rule, textRule, h]
  | _ => simp [h, ValueType.isNumber] at htype

/-- A number that the user gave is kept as it is, or not at all. -/
theorem userNumber_result (range : Option (Int × Int)) (given : String) :
    (m.userNumber s range given).result v = some given ∨
      (m.userNumber s range given).result v = none := by
  unfold userNumber
  cases range with
  | none => exact .inl rfl
  | some ends =>
    dsimp only
    split
    · exact .inl rfl
    · exact .inr rfl

/-- The text that the user gave for a number, empty without one. -/
def givenNumber (u : UserValues) (s : SymbolId) : String :=
  ((u.value s).map (·.asText)).getD ""

/-- A text takes effect as the user's number. -/
def KeepsNumber (m : Model) (v : Valuation) (s : SymbolId) (given : String) : Prop :=
  given ≠ "" ∧
    (m.userNumber s ((m.activeRange s).result v) given).result v = some given

theorem numberText_kept (hvisible : v (.visible (.symbol s)) = true)
    (h : m.KeepsNumber v s (givenNumber u s)) :
    (m.numberText u s).result v = ⟨givenNumber u s, true⟩ := by
  obtain ⟨hne, hkept⟩ := h
  change ((u.value s).map (·.asText)).getD "" ≠ "" at hne
  simp only [givenNumber] at hkept ⊢
  simp [numberText, hvisible, hne, hkept]

theorem numberText_default (hvisible : v (.visible (.symbol s)) = true)
    (h : ¬ m.KeepsNumber v s (givenNumber u s)) : (m.numberText u s).result v =
      (m.defaultNumber s ((m.activeRange s).result v) true).result v := by
  by_cases hempty : givenNumber u s = ""
  · have hempty : ((u.value s).map (·.asText)).getD "" = "" := hempty
    simp [numberText, hvisible, hempty]
  · have hnone : (m.userNumber s ((m.activeRange s).result v) (givenNumber u s)).result v = none :=
      (userNumber_result _ _).resolve_left fun hsome => h ⟨hempty, hsome⟩
    have hempty : ((u.value s).map (·.asText)).getD "" ≠ "" := hempty
    simp only [givenNumber] at hnone
    simp [numberText, hvisible, hempty, hnone]

theorem numberText_written (hvisible : v (.visible (.symbol s)) = true) :
    ((m.numberText u s).result v).isWritten = true := by
  by_cases hkept : m.KeepsNumber v s (givenNumber u s)
  · rw [numberText_kept hvisible hkept]
  · rw [numberText_default hvisible hkept]
    exact defaultNumber_written _

/-- The text of a visible string is that of the rule of strings. -/
theorem Solves.text_of_string (hv : m.Solves u v) (hunwritten : m.isUnwritten s = false)
    (hvisible : v (.visible (.symbol s)) = true) (htype : (m.symbol s).type = .string) :
    v (.text (.symbol s)) = (m.stringText u s).result v := by
  rw [hv.eq_value]
  have hwritten : ((m.stringText u s).result v).isWritten = true := stringText_written hvisible
  simp [valueRule, rule, textRule, htype, hunwritten]

theorem Solves.written_of_string (hv : m.Solves u v) (hunwritten : m.isUnwritten s = false)
    (hvisible : v (.visible (.symbol s)) = true) (htype : (m.symbol s).type = .string) :
    (v (.text (.symbol s))).isWritten = true := by
  rw [hv.text_of_string hunwritten hvisible htype]
  exact stringText_written hvisible

theorem obeys_string (hunwritten : m.isUnwritten s = false)
    (htype : (m.symbol s).type = .string) :
    m.Obeys u' v (.text (.symbol s)) ↔ v (.text (.symbol s)) = (m.stringText u' s).result v := by
  simp [Obeys, valueRule, rule, textRule, htype, hunwritten]

theorem obeys_number (hunwritten : m.isUnwritten s = false)
    (htype : (m.symbol s).type.isNumber = true) :
    m.Obeys u' v (.text (.symbol s)) ↔ v (.text (.symbol s)) = (m.numberText u' s).result v := by
  rw [Obeys, textRule_number htype]
  simp [hunwritten]

theorem valueRule_of_free (htype : (m.symbol s).type = .bool) (hchoice : (m.symbol s).choice = none)
    (hconst : ¬ (s = noId ∨ s = yesId)) : m.valueRule u (.level (.symbol s)) = (do
      let isVisible ← visible (.symbol s)
      m.plainLevel u s isVisible) := by
  simp [valueRule, hconst, htype, hchoice]

theorem obeys_level (hvisible : v (.visible (.symbol s)) = true)
    (htype : (m.symbol s).type = .bool) (hchoice : (m.symbol s).choice = none)
    (hconst : ¬ (s = noId ∨ s = yesId)) : m.Obeys u' v (.level (.symbol s)) ↔
      v (.level (.symbol s)) = (m.plainLevel u' s true).result v := by
  rw [Obeys, valueRule_of_free htype hchoice hconst, result_bind, result_visible, hvisible]

/-- The level of a visible bool outside choices is written. -/
theorem Solves.written_of_level (hv : m.Solves u v) (hvisible : v (.visible (.symbol s)) = true)
    (htype : (m.symbol s).type = .bool) (hchoice : (m.symbol s).choice = none)
    (hconst : ¬ (s = noId ∨ s = yesId)) : (v (.level (.symbol s))).isWritten = true := by
  rw [(obeys_level hvisible htype hchoice hconst).mp (hv.eq_value _)]
  exact plainLevel_written

theorem plainLevel_forced (hrev : (m.holds (m.symbol s).revDep).result v = true)
    {isVisible : Bool} : (m.plainLevel u s isVisible).result v = ⟨true, true⟩ := by
  simp [plainLevel, hrev]

theorem plainLevel_unforced (hrev : (m.holds (m.symbol s).revDep).result v = false)
    {isVisible : Bool} :
    (m.plainLevel u s isVisible).result v = (m.ownLevel u s isVisible).result v := by
  simp [plainLevel, hrev]

section Visible
variable (hv : m.Solves u v) (hunwritten : m.isUnwritten s = false)
  (hvalue : u'.value s = (m.symbol s).givenBack? (v (.text (.symbol s))))
  (hvisible : v (.visible (.symbol s)) = true)
include hv hvalue hvisible

include hunwritten in
theorem Solves.string_of_saved (htype : (m.symbol s).type = .string) :
    m.Obeys u' v (.text (.symbol s)) := by
  have hwritten := hv.written_of_string hunwritten hvisible htype
  have hgiven : u'.value s = some (.text (v (.text (.symbol s))).value) := by
    rw [hvalue]
    simp [Symbol.givenBack?, htype, hwritten, ValueType.accept?]
  rw [obeys_string hunwritten htype]
  simp only [stringText, result_bind, result_visible, hvisible, hgiven, result_pure,
    UserValue.asText]
  rw [← hwritten]

theorem Solves.level_of_saved (htype : (m.symbol s).type = .bool)
    (hchoice : (m.symbol s).choice = none) (hconst : ¬ (s = noId ∨ s = yesId)) :
    m.Obeys u' v (.level (.symbol s)) := by
  have hplain : v (.level (.symbol s)) = (m.plainLevel u s true).result v :=
    (obeys_level hvisible htype hchoice hconst).mp (hv.eq_value _)
  have hwritten := hv.written_of_level hvisible htype hchoice hconst
  have htext : v (.text (.symbol s)) = ⟨levelWord (v (.level (.symbol s))).value, true⟩ := by
    rw [hv.eq_value]
    simp [valueRule, rule, textRule, htype, hwritten]
  have hgiven : u'.value s = some (.level (v (.level (.symbol s))).value false) := by
    rw [hvalue]
    exact givenBack?_bool htype _ (by rw [htext]) (by rw [htext])
  rw [obeys_level hvisible htype hchoice hconst]
  -- forced or not, the level that was saved is the level
  cases hrev : (m.holds (m.symbol s).revDep).result v with
  | true => rw [hplain, plainLevel_forced hrev, plainLevel_forced hrev]
  | false =>
    rw [plainLevel_unforced hrev]
    simp only [ownLevel, hgiven, result_pure, UserValue.isYes]
    rw [← hwritten]

include hunwritten in
theorem Solves.number_of_saved (hu : m.Permits u) (htype : (m.symbol s).type.isNumber = true) :
    m.Obeys u' v (.text (.symbol s)) := by
  have hbool : (m.symbol s).type ≠ .bool := fun h => by simp [h, ValueType.isNumber] at htype
  have hold : v (.text (.symbol s)) = (m.numberText u s).result v :=
    (obeys_number hunwritten htype).mp (hv.eq_value _)
  have hwritten : (v (.text (.symbol s))).isWritten = true := by
    rw [hold]
    exact numberText_written hvisible
  have hback : u'.value s = (m.symbol s).type.accept? (.text (v (.text (.symbol s))).value) := by
    simp [hvalue, Symbol.givenBack?, hwritten, hbool]
  rw [obeys_number hunwritten htype]
  by_cases hkept : m.KeepsNumber v s (givenNumber u s)
  · -- the user's number is given again
    have htext := numberText_kept hvisible hkept
    cases hgiven : u.value s with
    | none => exact absurd (by simp [givenNumber, hgiven]) hkept.1
    | some a =>
      obtain ⟨g, hg⟩ := hu.value s a hgiven
      obtain ⟨t, rfl, ht⟩ := text_of_accept? htype hg
      have hnumber : givenNumber u s = t := by simp [givenNumber, hgiven, UserValue.asText]
      rw [hnumber] at htext hkept
      rw [hold, htext] at hback
      have hnumber' : givenNumber u' s = t := by simp [givenNumber, hback, ht, UserValue.asText]
      rw [hold, htext, numberText_kept hvisible (by rwa [hnumber']), hnumber']
  · -- a default is given, or nothing
    by_cases hkept' : m.KeepsNumber v s (givenNumber u' s)
    · rw [numberText_kept hvisible hkept']
      rcases accept?_number htype (v (.text (.symbol s))).value with hnone | hsome
      · exact absurd (by simp [givenNumber, hback, hnone]) hkept'.1
      · rw [← hwritten]
        simp [givenNumber, hback, hsome, UserValue.asText]
    · rw [hold, numberText_default hvisible hkept, numberText_default hvisible hkept']

end Visible

/-! ### Selections -/

theorem defaultSelection_visible : ∀ {ps : List (Guarded Expr)},
    (m.defaultSelection ps).result v = some s → v (.visible (.symbol s)) = true
  | [], h => nomatch h
  | p :: ps, h => by
    unfold defaultSelection at h
    split at h
    · next t _ =>
      cases hcond : (m.holds p.cond).result v with
      | false =>
        simp only [result_bind, hcond] at h
        exact defaultSelection_visible h
      | true =>
        cases ht : v (.visible (.symbol t)) with
        | true =>
          simp only [result_bind, hcond, if_true, result_visible, ht] at h
          obtain rfl := Option.some.inj h
          exact ht
        | false =>
          simp only [result_bind, hcond, if_true, result_visible, ht] at h
          exact defaultSelection_visible h
    · exact defaultSelection_visible h

theorem firstVisible_visible : ∀ {ss : List SymbolId},
    (firstVisible ss).result v = some s → v (.visible (.symbol s)) = true
  | [], h => nomatch h
  | t :: ss, h => by
    unfold firstVisible at h
    cases ht : v (.visible (.symbol t)) with
    | true =>
      simp only [result_bind, result_visible, ht] at h
      obtain rfl := Option.some.inj h
      exact ht
    | false =>
      simp only [result_bind, result_visible, ht] at h
      exact firstVisible_visible h

/-- What a choice selects by itself is visible. -/
theorem ownSelection_visible (h : (m.ownSelection c).result v = some s) :
    v (.visible (.symbol s)) = true := by
  unfold ownSelection at h
  rw [result_bind] at h
  cases hdefault : (m.defaultSelection (m.choice c).defaults).result v with
  | some t =>
    rw [hdefault] at h
    obtain rfl := Option.some.inj h
    exact defaultSelection_visible hdefault
  | none =>
    rw [hdefault] at h
    exact firstVisible_visible h

/-- A choice in use takes the user's selection if that is visible, or selects by itself. -/
theorem selectionRule_result (u : UserValues) (hlevel : (v (.level (.choice c))).value = true) :
    (∃ s, u.selection c = some s ∧ v (.visible (.symbol s)) = true ∧
        (m.selectionRule u c).result v = some s) ∨
      (m.selectionRule u c).result v = (m.ownSelection c).result v ∧
        ∀ s, u.selection c = some s → v (.visible (.symbol s)) = false := by
  cases hselection : u.selection c with
  | none => exact .inr (by simp [selectionRule, hlevel, hselection])
  | some t =>
    cases ht : v (.visible (.symbol t)) with
    | true => exact .inl ⟨t, rfl, ht, by simp [selectionRule, hlevel, hselection, ht]⟩
    | false => exact .inr (by simp +contextual [selectionRule, hlevel, hselection, ht])

/-- A selected symbol is visible. -/
theorem Solves.selected_visible (hv : m.Solves u v) (h : v (.selection c) = some s) :
    v (.visible (.symbol s)) = true := by
  rw [hv.eq_result] at h
  change (m.selectionRule u c).result v = some s at h
  cases hlevel : (v (.level (.choice c))).value with
  | false => simp [selectionRule, hlevel] at h
  | true =>
    rcases selectionRule_result u hlevel with ⟨t, -, ht, hresult⟩ | ⟨hresult, -⟩
    · obtain rfl := Option.some.inj (hresult.symm.trans h)
      exact ht
    · exact ownSelection_visible (hresult.symm.trans h)

theorem Solves.selection_of_saved (hv : m.Solves u v) (hu : m.Permits u)
    (hselection : ∀ s, u'.selection c = some s ↔
      v (.selection c) = some s ∧ (m.symbol s).choice = some c ∧ (m.symbol s).type = .bool) :
    m.Obeys u' v (.selection c) := by
  have hold : v (.selection c) = (m.selectionRule u c).result v := hv.eq_result _
  show v (.selection c) = (m.selectionRule u' c).result v
  cases hlevel : (v (.level (.choice c))).value with
  | false =>
    rw [hold]
    simp [selectionRule, hlevel]
  | true =>
    rcases selectionRule_result (m := m) u' hlevel with ⟨s, hs, -, hresult⟩ | ⟨hresult, hhidden⟩
    · rw [hresult, ((hselection s).mp hs).1]
    · rw [hresult]
      rcases selectionRule_result (m := m) u hlevel with ⟨s, hs, hvisible, hresult⟩ | ⟨hresult, -⟩
      · -- the user's selection would have been given back
        obtain ⟨hchoice, htype⟩ := hu.selection c s hs
        have hback := hhidden s ((hselection s).mpr ⟨hold.trans hresult, hchoice, htype⟩)
        rw [hvisible] at hback
        cases hback
      · rw [hold, hresult]

/-! ### All questions -/

/-- Only three kinds of questions take what the user gave, if they are about what is visible. -/
theorem Solves.obeys (hv : m.Solves u v)
    (hstring : ∀ s, v (.visible (.symbol s)) = true → (m.symbol s).type = .string →
      m.Obeys u' v (.text (.symbol s)))
    (hnumber : ∀ s, v (.visible (.symbol s)) = true → (m.symbol s).type.isNumber = true →
      m.Obeys u' v (.text (.symbol s)))
    (hlevel : ∀ s, v (.visible (.symbol s)) = true → (m.symbol s).type = .bool →
      (m.symbol s).choice = none → ¬ (s = noId ∨ s = yesId) → m.Obeys u' v (.level (.symbol s)))
    (hselection : ∀ c, m.Obeys u' v (.selection c)) (q : Query) : m.Obeys u' v q := by
  have hsame : m.SameValue u u' v q → m.Obeys u' v q := fun h => (hv.eq_value q).trans h.1.symm
  rcases q with (s | c) | (s | c) | i | i | c
  · cases hvisible : v (.visible (.symbol s)) with
    | false => exact hsame (.of_hidden rfl hvisible)
    | true =>
      cases htype : (m.symbol s).type with
      | bool => exact hsame (.of_eq (by simp [valueRule, rule, textRule, htype]))
      | unknown => exact hsame (.of_eq (by simp [valueRule, rule, textRule, htype]))
      | string => exact hstring s hvisible htype
      | _ => exact hnumber s hvisible (by rw [htype]; rfl)
  · exact hsame (.of_eq rfl)
  · cases hvisible : v (.visible (.symbol s)) with
    | false => exact hsame (.of_hidden rfl hvisible)
    | true =>
      by_cases hconst : s = noId ∨ s = yesId
      · exact hsame (.of_eq (by simp [valueRule, hconst]))
      · by_cases htype : (m.symbol s).type = .bool
        · cases hchoice : (m.symbol s).choice with
          | some c => exact hsame (.of_eq (valueRule_of_member rfl htype hchoice))
          | none => exact hlevel s hvisible htype hchoice hconst
        · exact hsame (.of_eq (by simp [valueRule, hconst, htype]))
  · exact hsame (.of_eq rfl)
  · exact hsame (.of_eq rfl)
  · exact hsame (.of_eq rfl)
  · exact hselection c

/-- With the values that were saved for all that is visible every answer is as it was. -/
theorem Solves.eq_of_given_back (hv : m.Solves u v) (hv' : m.Solves u' v') (hu : m.Permits u)
    (hvalue : ∀ s, v (.visible (.symbol s)) = true →
      u'.value s = (m.symbol s).givenBack? (v (.text (.symbol s))))
    (hselection : ∀ c s, u'.selection c = some s ↔
      v (.selection c) = some s ∧ (m.symbol s).choice = some c ∧ (m.symbol s).type = .bool)
    (hunwritten : ∀ s, m.isUnwritten s = true → v (.visible (.symbol s)) = false) : v' = v := by
  have hwritten : ∀ s, v (.visible (.symbol s)) = true → m.isUnwritten s = false := by
    intro s hvisible
    refine Bool.eq_false_iff.mpr fun h => ?_
    rw [hunwritten s h] at hvisible
    exact nomatch hvisible
  refine (hv'.eq_of_obeys <| hv.obeys (fun s hvisible htype => ?_) (fun s hvisible htype => ?_)
    (fun s hvisible htype hchoice hconst => ?_) fun c => ?_).symm
  · exact hv.string_of_saved (hwritten s hvisible) (hvalue s hvisible) hvisible htype
  · exact hv.number_of_saved (hwritten s hvisible) (hvalue s hvisible) hvisible hu htype
  · exact hv.level_of_saved (hvalue s hvisible) hvisible htype hchoice hconst
  · exact hv.selection_of_saved hu fun s => hselection c s

/-- So it is with all the values that were saved. -/
theorem Solves.eq_of_saved (hv : m.Solves u v) (hv' : m.Solves u' v') (hu : m.Permits u)
    (hsaved : UserValues.Saved m v u')
    (hunwritten : ∀ s, m.isUnwritten s = true → v (.visible (.symbol s)) = false) : v' = v :=
  hv.eq_of_given_back hv' hu (fun s _ => hsaved.value s) hsaved.selection hunwritten

end Model
end Kconfig
