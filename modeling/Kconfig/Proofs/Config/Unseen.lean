import Kconfig.Config.Save
import Kconfig.Proofs.Config.History
import Kconfig.Proofs.Values.Saved
/-!
What users give where they see nothing.

A rule takes what the user gave only after it has found the symbol visible. So when two users agree
wherever the first one sees something, the answers under the first one's values obey the rules of
the second one too, and there is only one way to obey them.
-/
namespace Kconfig
open Plan

namespace Model
variable {m : Model} {u u' : UserValues} {v v' : Valuation}

/-- A user agrees with another one as far as that one sees symbols: gives the visible symbols the
same values, and every choice the same selection if it is visible, else none that is. -/
structure Agrees (seen : SymbolId → Prop) (u u' : UserValues) : Prop where
  value : ∀ s, seen s → u'.value s = u.value s
  selected : ∀ c s, u.selection c = some s → seen s → u'.selection c = some s
  unselected : ∀ c, (∀ s, u.selection c = some s → ¬ seen s) →
    ∀ s, u'.selection c = some s → ¬ seen s

/-- Whether a symbol is visible with a user's values. -/
def Sees (m : Model) (u : UserValues) (s : SymbolId) : Prop :=
  recompute m u (.visible (.symbol s)) = some true

/-- A choice whose user selection is not seen selects what it does without the user. -/
theorem selectionRule_unseen {c : ChoiceId} (hlevel : (v (.level (.choice c))).value = true)
    (h : ∀ s, u.selection c = some s → ¬ v (.visible (.symbol s)) = true) :
    (m.selectionRule u c).result v = (m.ownSelection c).result v := by
  rcases selectionRule_result u hlevel with ⟨s, hs, hvisible, -⟩ | ⟨hresult, -⟩
  · exact absurd hvisible (h s hs)
  · exact hresult

/-- The rule of a selection does not tell users apart that agree as far as the first one sees. -/
theorem Agrees.selectionRule (h : Agrees (fun s => v (.visible (.symbol s)) = true) u u')
    (c : ChoiceId) : (m.selectionRule u' c).result v = (m.selectionRule u c).result v := by
  cases hlevel : (v (.level (.choice c))).value with
  | false => simp [Model.selectionRule, hlevel]
  | true =>
    by_cases hseen : ∃ s, u.selection c = some s ∧ v (.visible (.symbol s)) = true
    · obtain ⟨s, hs, hvisible⟩ := hseen
      have hs' := h.selected c s hs hvisible
      simp only [Model.selectionRule, hs, hs']
    · have hunseen : ∀ s, u.selection c = some s → ¬ v (.visible (.symbol s)) = true :=
        fun s hs hvisible => hseen ⟨s, hs, hvisible⟩
      rw [selectionRule_unseen hlevel hunseen,
        selectionRule_unseen hlevel (h.unselected c hunseen)]

/-- Under what the first user sees, no rule tells the two apart. -/
theorem Agrees.valueRule (h : Agrees (fun s => v (.visible (.symbol s)) = true) u u') (q : Query) :
    (m.valueRule u' q).result v = (m.valueRule u q).result v := by
  cases hitem : q.item with
  | symbol s =>
    cases hvisible : v (.visible (.symbol s)) with
    | false => exact (SameValue.of_hidden hitem hvisible).1
    | true =>
      refine (SameValue.of_eq <| valueRule_congr (fun t ht => ?_) fun c hc => ?_).1
      · obtain rfl : s = t := Item.symbol.inj (hitem.symm.trans ht)
        exact h.value s hvisible
      · exact nomatch hitem.symm.trans hc
  | choice c =>
    rcases q with i | i | i | i | d
    · obtain rfl : i = .choice c := hitem
      rfl
    · obtain rfl : i = .choice c := hitem
      rfl
    · rfl
    · rfl
    · exact h.selectionRule d

/-- Users who agree as far as the first one sees get the same answers. -/
theorem Solves.eq_of_agrees (hv : m.Solves u v) (hv' : m.Solves u' v')
    (h : Agrees (m.Sees u) u u') : v' = v := by
  have hsees : m.Sees u = fun s => v (.visible (.symbol s)) = true := by
    funext s
    rw [Sees, hv.recompute_eq, Option.some.injEq]
  rw [hsees] at h
  have hobeys : ∀ q, m.Obeys u' v q := fun q =>
    (hv.eq_value q).trans (h.valueRule q).symm
  exact (hv'.eq_of_obeys hobeys).symm

end Model

/-- What users give to symbols that are not visible, to symbols without a prompt and as modes of
choices makes no difference: with other such values the same questions have the same answers, and
the configuration has the same text. -/
theorem unseen_values {host : Host} {options : LoadOptions} {c : Configuration} {w : Workspace}
    (hload : Load.load host options = .ok c w) {u u' : UserValues}
    (hu : w.model.Terminates u) (hu' : w.model.Terminates u')
    (hagrees : Model.Agrees (w.model.Sees u) u u') :
    (∀ q, ∃ a c₁ c₂, recompute w.model u q = some a ∧ recompute w.model u' q = some a ∧
      Configuring.ask q { c with user := u } = .ok a c₁ ∧
      Configuring.ask q { c with user := u' } = .ok a c₂) ∧
    ∀ header, ∃ text c₁ c₂,
      Configuring.configText header { c with user := u } = .ok text c₁ ∧
      Configuring.configText header { c with user := u' } = .ok text c₂ := by
  obtain ⟨v, hv⟩ := hu.solution
  obtain ⟨v', hv'⟩ := hu'.solution
  obtain rfl : v' = v := hv.eq_of_agrees hv' hagrees
  obtain rfl := Load.eq_ofWorkspace_of_load hload
  have hfollow : ∀ {α : Type} (p : Plan α) {u : UserValues}, w.model.Solves u v' →
      ∃ c', Configuring.follow p { Configuration.ofWorkspace w with user := u } =
        .ok (p.result v') c' := by
    intro α p u hv
    obtain ⟨memory, journal, hfollow, -⟩ := Configuring.follow_of_memory
      (c := { Configuration.ofWorkspace w with user := u }) rfl Evaluating.coherent_empty hv p
    exact ⟨_, hfollow⟩
  constructor
  · intro q
    obtain ⟨c₁, h₁⟩ := hfollow (.ask q .done) hv
    obtain ⟨c₂, h₂⟩ := hfollow (.ask q .done) hv'
    exact ⟨v' q, c₁, c₂, hv.recompute_eq q, hv'.recompute_eq q, h₁, h₂⟩
  · intro header
    let style : FileStyle := ⟨w.settings.configPrefix, header.getD w.settings.configHeader⟩
    obtain ⟨c₁, h₁⟩ := hfollow (w.model.configText style) hv
    obtain ⟨c₂, h₂⟩ := hfollow (w.model.configText style) hv'
    exact ⟨_, c₁, c₂, h₁, h₂⟩

/-- Two symbols and a member of a choice that are only shown when another symbol is set. -/
def halfHidden : Host where
  files.entries := [(["work", "Kconfig"], .file (.text
    "config A\n\tbool \"a\"\nconfig B\n\tbool \"b\" if A\nconfig N\n\tint \"n\" if A\n\tdefault 3\nchoice\n\tprompt \"c\"\nconfig X\n\tbool \"x\"\nconfig Y\n\tbool \"y\" if A\nendchoice\n"))]

/-- Values for the two hidden symbols, the mode of the choice, and its hidden member selected. -/
def givenHidden (u : UserValues) : UserValues where
  values := (u.values.setIfInBounds 3 (some (.level true false))).setIfInBounds 4 (some (.text "7"))
  modes := u.modes.setIfInBounds 0 (some (.level false false))
  selections := u.selections.setIfInBounds 0 (some 7)

theorem halfHidden_unseen : ∃ c w, Load.load halfHidden {} = .ok c w ∧
    (givenHidden c.user).value 4 = some (.text "7") ∧
    (∀ q, ∃ a c₁ c₂, recompute w.model c.user q = some a ∧
      recompute w.model (givenHidden c.user) q = some a ∧
      Configuring.ask q { c with user := c.user } = .ok a c₁ ∧
      Configuring.ask q { c with user := givenHidden c.user } = .ok a c₂) ∧
    ∀ header, ∃ text c₁ c₂,
      Configuring.configText header { c with user := c.user } = .ok text c₁ ∧
      Configuring.configText header { c with user := givenHidden c.user } = .ok text c₂ := by
  have hchecked : passes (fun c w =>
      (w.model.queries.all fun q => (recompute w.model c.user q).isSome) &&
      (w.model.queries.all fun q => (recompute w.model (givenHidden c.user) q).isSome) &&
      ([3, 4, 7].all fun s => recompute w.model c.user (.visible (.symbol s)) == some false) &&
      (givenHidden c.user).value 4 == some (.text "7")) (Load.load halfHidden {}) = true := by
    decide +kernel
  obtain ⟨c, w, hload, hchecked⟩ := ok_of_passes hchecked
  simp only [Bool.and_eq_true, List.all_eq_true, beq_iff_eq] at hchecked
  obtain ⟨⟨⟨hanswers, hanswers'⟩, hhidden⟩, hgiven⟩ := hchecked
  have hunseen : ∀ s ∈ [3, 4, 7], ¬ w.model.Sees c.user s := by
    intro s hs hsees
    exact absurd (hsees.symm.trans (hhidden s hs)) nofun
  have hnone : ∀ ch, c.user.selection ch = none := by
    obtain rfl := Load.eq_ofWorkspace_of_load hload
    intro ch
    show (Array.replicate w.model.choices.size none)[ch]?.join = none
    rw [Array.getElem?_replicate]
    split <;> rfl
  refine ⟨c, w, hload, hgiven, unseen_values hload (.of_queries hanswers) (.of_queries hanswers') ?_⟩
  refine ⟨fun s hs => ?_, fun ch s hs => ?_, fun ch _ s hs => ?_⟩
  · have h3 : 3 ≠ s := fun h => hunseen s (h ▸ by decide) hs
    have h4 : 4 ≠ s := fun h => hunseen s (h ▸ by decide) hs
    simp [givenHidden, UserValues.value, h3, h4]
  · rw [hnone] at hs
    cases hs
  · rcases c.user.selection_set 0 ch (some 7) with heq | ⟨-, heq⟩
    · cases (hnone ch).symm.trans (heq.symm.trans hs)
    · obtain rfl : 7 = s := Option.some.inj (heq.symm.trans hs)
      exact hunseen 7 (by decide)

end Kconfig
