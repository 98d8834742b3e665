import Kconfig.Proofs.Values.Forgetting
/-!
Changing the user's values keeps the memory coherent.

What is left after forgetting is coherent: an answer that hangs on a forgotten one would be about a
dependent whose visibility is remembered. When the rules of the remembered questions do not see the
change, the remembered answers are right for the new values too, by induction along the questions
that they hang on.
-/
namespace Kconfig
open Plan Memory Model
variable {m : Model} {u u' : UserValues} {v v' : Valuation} {k k' : Memory} {i : Item}
  {q q' : Query}

/-! ### Forgetting -/

/-- A question that hangs on another item looks at the visibility of its own. -/
theorem Model.visible_asked (hq' : q' ∈ (m.valueRule u q).asked v) (hitem : q'.item ≠ q.item) :
    q = .visible q.item ∨ ∃ q'' ∈ (m.valueRule u q).asked v, q''.kept = .visible q.item := by
  cases q with
  | visible i => exact .inl rfl
  | selection c =>
    exact .inr ⟨.level (.choice c), by simp [valueRule, rule, selectionRule], rfl⟩
  | assignable i =>
    refine .inr ⟨.visible i, ?_, by cases i <;> rfl⟩
    cases i with
    | choice c => simp [valueRule, rule, assignableRule]
    | symbol s =>
      by_cases hbool : (m.symbol s).type = .bool
      · simp [valueRule, rule, assignableRule, hbool]
      · simp [valueRule, rule, assignableRule, hbool] at hq'
  | level i =>
    refine .inr ⟨.visible i, ?_, by cases i <;> rfl⟩
    cases i with
    | choice c => simp [valueRule, rule, levelRule]
    | symbol s =>
      rw [valueRule] at hq' ⊢
      split at hq'
      · exact absurd hq' List.not_mem_nil
      · next hn =>
        split at hq'
        · exact absurd hq' List.not_mem_nil
        · next hb =>
          rw [if_neg hn, if_neg hb, asked_bind]
          exact List.mem_append_left _ (List.mem_cons_self ..)
  | text i =>
    cases i with
    | choice c =>
      obtain rfl : q' = .level (.choice c) := by simpa [valueRule, rule, textRule] using hq'
      exact absurd rfl hitem
    | symbol s =>
      change q' ∈ (m.textRule u (.symbol s)).asked v at hq'
      show _ ∨ ∃ q'' ∈ (m.textRule u (.symbol s)).asked v, _
      cases ht : (m.symbol s).type with
      | bool =>
        obtain rfl : q' = .level (.symbol s) := by simpa [textRule, ht] using hq'
        exact absurd rfl hitem
      | unknown => simp [textRule, ht] at hq'
      | string => exact .inr ⟨.visible (.symbol s), by simp [textRule, ht, stringText], rfl⟩
      | int => exact .inr ⟨.visible (.symbol s), by simp [textRule, ht, numberText], rfl⟩
      | hex => exact .inr ⟨.visible (.symbol s), by simp [textRule, ht, numberText], rfl⟩

/-- The value of a question does not see a change of the user's values. -/
def Model.SameValue (m : Model) (u u' : UserValues) (v : Valuation) (q : Query) : Prop :=
  (m.valueRule u' q).result v = (m.valueRule u q).result v ∧
    (m.valueRule u' q).asked v = (m.valueRule u q).asked v

theorem Model.SameValue.of_eq (h : m.valueRule u' q = m.valueRule u q) : m.SameValue u u' v q := by
  rw [SameValue, h]
  exact ⟨rfl, rfl⟩

/-- An answer stays when its question does not see the change and the answers that it hangs on
stay. -/
theorem Model.SameValue.answer (h : m.SameValue u u' v q) (hv : m.Solves u v)
    (hv' : m.Solves u' v') (hasked : ∀ q' ∈ (m.valueRule u q).asked v, v' q' = v q') :
    v' q = v q := by
  have hagree : ∀ q' ∈ (m.valueRule u' q).asked v, v' q' = v q' := by
    rw [h.2]
    exact hasked
  rw [hv'.eq_value, (agree hagree).1, h.1, ← hv.eq_value]

/-- A question that hangs on another item looks at the visibility of its own, which is remembered
when what the question hangs on is settled. -/
theorem Memory.knows_of_asked (hv : m.Fixes v)
    (hsettled : ∀ q' ∈ (m.valueRule u q).asked v, k.Settled m q') (hq : (k.get? q).isSome)
    (hq' : q' ∈ (m.valueRule u q).asked v) (hitem : q'.item ≠ q.item) : k.knows q.item := by
  rcases Model.visible_asked hq' hitem with hvisible | ⟨q'', hq'', hvisible⟩
  · rw [hvisible] at hq
    exact hq
  · have hitem'' : q''.item = q.item := by
      rw [← Query.item_kept, hvisible]
      rfl
    rcases hsettled q'' hq'' with hfixed | hsome
    · rw [hitem''] at hfixed
      exact absurd (asked_of_fixed hv hfixed (valueRule_asked hq')).1 hitem
    · rw [hvisible] at hsome
      exact hsome

namespace Memory.Forgot
variable {d : Dependents}

/-- What is still remembered is as it was, and so is all else about its item. -/
theorem get? (h : Forgot d i k k') {a : q.Answer} (hq : k'.get? q = some a) :
    k.Same k' q.item ∧ k.get? q = some a := by
  rcases h.left.answers q.item with hsame | ⟨hgone, -⟩
  · have hi : q.item ≠ i := by
      intro hi
      rw [h.gone q hi] at hq
      exact nomatch hq
    have hsame' : k.Same k' q.item := fun q' hq' =>
      (hsame q' hq').trans (same_forget k hi q' hq')
    exact ⟨hsame', (hsame' q rfl).symm.trans hq⟩
  · rw [hgone q rfl] at hq
    exact nomatch hq

theorem fits (h : Forgot d i k k') (hk : k.Fits m) : k'.Fits m := by
  have hfits : (k.forget i).Fits m := hk.forget
  exact ⟨h.left.sizes.1.trans hfits.1, h.left.sizes.2.trans hfits.2⟩

/-- What a remembered answer hangs on is still settled, when the answer is about a dependent. -/
theorem settled (h : Forgot d i k k') (hq : (k'.get? q).isSome) (hq' : k.Settled m q')
    (hknows : q'.item ≠ q.item → k.knows q.item)
    (hdependent : q'.item = q.item ∨ m.Fixed q'.item ∨ q.item ∈ d.of q'.item) :
    k'.Settled m q' := by
  obtain ⟨a, ha⟩ := Option.isSome_iff_exists.mp hq
  obtain ⟨hsame, -⟩ := h.get? ha
  by_cases hfixed : m.Fixed q'.item
  · exact .inl hfixed
  have hsome := hq'.resolve_left hfixed
  refine .inr ?_
  by_cases hitem : q'.item = q.item
  · rw [hsame q'.kept (q'.item_kept.trans hitem)]
    exact hsome
  have hdependent := (hdependent.resolve_left hitem).resolve_left hfixed
  -- a forgotten answer would have made this one forgotten
  have hknows' : k'.knows q.item := by
    rw [Memory.knows, hsame (.visible q.item) rfl]
    exact hknows hitem
  have hcontra : k'.knows q.item = false → (k'.get? q'.kept).isSome := by
    intro hunknown
    rw [hunknown] at hknows'
    cases hknows'
  by_cases hi : q'.item = i
  · exact hcontra (h.dependents q.item (hi ▸ hdependent))
  · rcases h.left.answers q'.item with hsame' | ⟨hgone, hknown⟩
    · rw [hsame' q'.kept q'.item_kept, get?_forget, if_neg (q'.item_kept ▸ hi)]
      exact hsome
    · exact hcontra (h.left.closed q'.item hknown hgone.not_knows q.item hdependent)

end Memory.Forgot

namespace Memory.Coherent

/-- Forgetting from an item keeps a memory coherent. -/
theorem forget (hk : k.Coherent m u v) (hm : m.Sound) (ht : m.Tidy) (hu : m.Permits u)
    (hv : m.Solves u v) (h : Forgot m.dependents i k k') : k'.Coherent m u v := by
  refine ⟨h.fits hk.fits, fun q a hq => hk.right q a (h.get? hq).2, fun q hq q' hq' => ?_⟩
  obtain ⟨a, ha⟩ := Option.isSome_iff_exists.mp hq
  have hqk : (k.get? q).isSome := by
    rw [(h.get? ha).2]
    rfl
  exact h.settled hq (hk.backed q hqk q' hq')
    (fun hitem => knows_of_asked hv.fixes (hk.backed q hqk) hqk hq' hitem)
    (hm.dependent ht hu hv hq')

/-- What is settled hangs on settled answers. -/
theorem settled_of_asked (hk : k.Coherent m u v) (hq : (k.get? q.kept).isSome)
    (hq' : q' ∈ (m.valueRule u q).asked v) : k.Settled m q' := by
  rcases q.kept_eq with hkept | ⟨c, rfl | rfl⟩
  · rw [hkept] at hq
    exact hk.backed q hq q' hq'
  · obtain rfl : q' = .level (.choice c) := by simpa [valueRule, rule, textRule] using hq'
    exact .inr hq
  · obtain rfl : q' = .visible (.choice c) := by simpa [valueRule, rule, levelRule] using hq'
    exact .inr hq

/-- A memory stays coherent when no remembered question sees the change. -/
theorem change (hk : k.Coherent m u v) (hv : m.Solves u v) (hv' : m.Solves u' v')
    (h : ∀ q, (k.get? q.kept).isSome → m.SameValue u u' v q) : k.Coherent m u' v' := by
  have hsettled : ∀ q, k.Settled m q → v' q = v q := by
    refine hv.induct_value fun q ih hq => ?_
    rcases hq with hfixed | hsome
    · rw [hv.eq_of_fixed hfixed, hv'.eq_of_fixed hfixed]
    · exact (h q hsome).answer hv hv' fun q' hq' => ih q' hq' (hk.settled_of_asked hsome hq')
  have hkept : ∀ q, (k.get? q).isSome → (k.get? q.kept).isSome := by
    intro q hq
    rw [kept_of_get? hq]
    exact hq
  refine ⟨hk.fits, fun q a hq => ?_, fun q hq q' hq' => ?_⟩
  · have hsome : (k.get? q).isSome := by
      rw [hq]
      rfl
    rw [hsettled q (.inr (hkept q hsome))]
    exact hk.right q a hq
  · obtain ⟨-, hasked⟩ := h q (hkept q hq)
    have hagree : ∀ q' ∈ (m.valueRule u' q).asked v, v' q' = v q' := by
      intro q' hq'
      rw [hasked] at hq'
      exact hsettled q' (hk.backed q hq q' hq')
    rw [(agree hagree).2, hasked] at hq'
    exact hk.backed q hq q' hq'

end Memory.Coherent

/-! ### Changes that rules do not see -/

/-- The value of a symbol and the selection of a choice are all that rules take from the user. -/
theorem Model.valueRule_congr
    (hvalue : ∀ s, q.item = .symbol s → u'.value s = u.value s)
    (hselection : ∀ c, q.item = .choice c → u'.selection c = u.selection c) :
    m.valueRule u' q = m.valueRule u q := by
  rcases q with (s | c) | (s | c) | i | i | c
  · have hs := hvalue s rfl
    simp only [valueRule, rule, textRule, stringText, numberText, hs]
  · rfl
  · have hs := hvalue s rfl
    simp only [valueRule, plainLevel, ownLevel, hs]
  · rfl
  · rfl
  · rfl
  · have hc := hselection c rfl
    simp only [valueRule, rule, selectionRule, hc]

/-- A symbol that is not visible does not take the user's value. -/
theorem Model.SameValue.of_hidden {s : SymbolId} (hq : q.item = .symbol s)
    (hs : v (.visible (.symbol s)) = false) : m.SameValue u u' v q := by
  rcases q with (t | c) | (t | c) | i | i | c
  · obtain rfl : t = s := Item.symbol.inj hq
    simp only [Model.SameValue, valueRule, rule, textRule]
    cases (m.symbol t).type <;>
      simp [stringText, numberText, hs]
  · cases hq
  · obtain rfl : t = s := Item.symbol.inj hq
    simp only [Model.SameValue, valueRule]
    split
    · exact ⟨rfl, rfl⟩
    · split
      · exact ⟨rfl, rfl⟩
      · cases (m.symbol t).choice with
        | some c => exact ⟨rfl, rfl⟩
        | none => simp [plainLevel, ownLevel, hs]
  · cases hq
  · exact .of_eq rfl
  · exact .of_eq rfl
  · cases hq

/-- A bool that belongs to a choice does not take the user's value. -/
theorem Model.valueRule_of_member {s : SymbolId} {c : ChoiceId} (hq : q.item = .symbol s)
    (hs : (m.symbol s).type = .bool) (hc : (m.symbol s).choice = some c) :
    m.valueRule u' q = m.valueRule u q := by
  rcases q with (t | d) | (t | d) | i | i | d
  · obtain rfl : t = s := Item.symbol.inj hq
    simp only [valueRule, rule, textRule, hs]
  · cases hq
  · obtain rfl : t = s := Item.symbol.inj hq
    simp only [valueRule, hc]
  · cases hq
  · rfl
  · rfl
  · cases hq

end Kconfig
