import Kconfig.Proofs.Config.RoundTrip
import Mathlib.Logic.Relation
/-!
What a change of the user's values reaches.

A change is made at one item: at a symbol, or at a choice with the values of its members. An answer
that becomes another one is about an item that can be reached from there along dependents, by
induction along the questions that the answer hangs on. Two kinds of reading are not listed among
the dependents, and the model is told about when it has them: a choice looks whether a default that
is not its member is visible, and a member with a prompt outside its choice looks at the selection.
-/
namespace Kconfig

namespace Model
variable {m : Model} {u u' : UserValues} {v v' : Valuation} {i j : Item} {q q' : Query}

/-- The first item is read by the second one, which need not be listed as its dependent. -/
inductive Unlisted (m : Model) : Item → Item → Prop
  | default {c : ChoiceId} {p : Guarded Expr} {s : SymbolId} (hp : p ∈ (m.choice c).defaults)
      (hs : p.value = .symbol s) (hout : (m.symbol s).choice ≠ some c) :
      Unlisted m (.symbol s) (.choice c)
  | prompt {c : ChoiceId} {s : SymbolId} {n : NodeId} (hs : s ∈ (m.choice c).members)
      (hn : n ∈ (m.symbol s).nodes) (hprompt : (m.node n).prompt.isSome)
      (hout : ((m.linksOf n).parent.map fun n => (m.node n).entry) ≠ some (.choice c)) :
      Unlisted m (.choice c) (.symbol s)

theorem Tidy.listed (ht : m.Tidy) (h : m.Unlisted i j) : False := by
  cases h with
  | default hp hs hout => exact hout (ht.default _ _ hp _ hs)
  | prompt hs hn hprompt hout => exact hout (ht.prompt _ _ hs _ hn hprompt)

/-- An answer hangs on its own item, on items whose values never change, and on items that its own
item is a dependent of or reads without being listed. -/
theorem Sound.dependent_or_unlisted (hm : m.Sound) (hu : m.Permits u) (hv : m.Solves u v)
    (hq' : q' ∈ (m.valueRule u q).asked v) :
    q'.item = q.item ∨ m.Fixed q'.item ∨ q.item ∈ m.dependents.of q'.item ∨
      m.Unlisted q'.item q.item := by
  refine (hm.dependent_unless hv.fixes hq').imp_right fun h => h.imp_right fun h =>
    h.imp_right fun h => ?_
  rcases h with ⟨c, s, rfl, rfl, hs, hout⟩ | ⟨s, c, rfl, rfl, hc, hvisible, hunread⟩
  · have hno : (m.symbol s).choice ≠ some c := fun hc => hout (hm.member s c hc).1
    rcases hs with hs | ⟨p, hp, hs⟩ | hs
    · exact absurd (hu.selection c s hs).1 hno
    · exact .default hp hs hno
    · exact absurd hs hout
  · -- a member whose prompts all stand inside its choice would read it
    have hoff : ¬ ∀ n ∈ (m.symbol s).nodes, (m.node n).prompt.isSome →
        ((m.linksOf n).parent.map fun n => (m.node n).entry) = some (.choice c) := by
      intro hprompts
      rw [hv.eq_result] at hvisible
      exact hunread (hm.choice_mem_reads hv.fixes hprompts hvisible)
    obtain ⟨n, hn, hprompt, hout⟩ : ∃ n ∈ (m.symbol s).nodes, (m.node n).prompt.isSome ∧
        ((m.linksOf n).parent.map fun n => (m.node n).entry) ≠ some (.choice c) := by
      simpa using hoff
    exact .prompt (hm.member s c hc).1 hn hprompt hout

/-! ### Changes at one item -/

/-- The user's values differ at one item: in the value of a symbol, or in the selection of a choice
and the values of its members. Modes may differ anywhere. -/
structure ChangedAt (m : Model) (i : Item) (u u' : UserValues) : Prop where
  value : ∀ s, u'.value s ≠ u.value s → i = .symbol s ∨
    (m.symbol s).type = .bool ∧ ∃ c, (m.symbol s).choice = some c ∧ i = .choice c
  selection : ∀ c, u'.selection c ≠ u.selection c → i = .choice c

theorem ChangedAt.of_value (m : Model) (u : UserValues) (s : SymbolId) (g : Option UserValue) :
    m.ChangedAt (.symbol s) u { u with values := u.values.setIfInBounds s g } := by
  refine ⟨fun t ht => ?_, fun c hc => absurd rfl hc⟩
  rcases u.value_set s t g with heq | ⟨rfl, -⟩
  · exact absurd heq ht
  · exact .inl rfl

/-- The rules of questions about other items do not see the change. -/
theorem ChangedAt.valueRule_eq (h : m.ChangedAt i u u') (hq : q.item ≠ i) :
    m.valueRule u' q = m.valueRule u q := by
  by_cases hvalue : ∀ s, q.item = .symbol s → u'.value s = u.value s
  · refine valueRule_congr hvalue fun c hc => Classical.byContradiction fun hne => hq ?_
    rw [hc, h.selection c hne]
  · obtain ⟨s, hs, hne⟩ : ∃ s, q.item = .symbol s ∧ u'.value s ≠ u.value s := by
      simpa using hvalue
    rcases h.value s hne with rfl | ⟨hbool, c, hc, -⟩
    · exact absurd hs hq
    · exact valueRule_of_member hs hbool hc

/-- One item leads to another one: it has it as a dependent, or is read by it without that. -/
def Affects (m : Model) (i j : Item) : Prop := j ∈ m.dependents.of i ∨ m.Unlisted i j

/-- Answers about items that the change does not reach stay. -/
theorem ChangedAt.answer_eq (h : m.ChangedAt i u u') (hm : m.Sound) (hu : m.Permits u)
    (hv : m.Solves u v) (hv' : m.Solves u' v') :
    ∀ q, ¬ Relation.ReflTransGen m.Affects i q.item → v' q = v q := by
  refine hv.induct_value fun q ih hq => ?_
  have hne : q.item ≠ i := fun heq => hq (heq ▸ .refl)
  refine (SameValue.of_eq (h.valueRule_eq hne)).answer hv hv' fun q' hq' => ?_
  rcases hm.dependent_or_unlisted hu hv hq' with hitem | hfixed | haffects
  · exact ih q' hq' (hitem ▸ hq)
  · rw [hv.eq_of_fixed hfixed, hv'.eq_of_fixed hfixed]
  · exact ih q' hq' fun hreach => hq (hreach.tail haffects)

end Model

/-- Whatever the user gave, an answer that another value at one item changes is about an item that
is reached from there along the dependents that the configuration forgets along, and along what is
read without being listed there. In a tidy model the dependents alone lead there. -/
theorem reached_of_changed {host : Host} {options : LoadOptions} {c : Configuration} {w : Workspace}
    (hload : Load.load host options = .ok c w) {u u' : UserValues} (hu : w.model.Permits u)
    (hterminates : w.model.Terminates u) (hterminates' : w.model.Terminates u') {i : Item}
    (hi : w.model.ChangedAt i u u') {q : Query}
    (hq : recompute w.model u' q ≠ recompute w.model u q) :
    Relation.ReflTransGen (fun i j => j ∈ c.dependents.of i ∨ w.model.Unlisted i j) i q.item ∧
      (w.model.Tidy → Relation.ReflTransGen (fun i j => j ∈ c.dependents.of i) i q.item) := by
  have hdependents : c.dependents = w.model.dependents := (Load.coherent_of_load hload).dependents
  obtain ⟨v, hv⟩ := hterminates.solution
  obtain ⟨v', hv'⟩ := hterminates'.solution
  have hreach : Relation.ReflTransGen w.model.Affects i q.item := by
    refine Classical.byContradiction fun hno => hq ?_
    rw [hv.recompute_eq, hv'.recompute_eq,
      hi.answer_eq (Load.sound_of_load hload) hu hv hv' q hno]
  rw [hdependents]
  refine ⟨hreach, fun htidy => ?_⟩
  have hlisted : ∀ i j, w.model.Affects i j → j ∈ w.model.dependents.of i :=
    fun _ _ haffects => haffects.resolve_right htidy.listed
  exact Relation.ReflTransGen.mono hlisted _ _ hreach

/-- Hiding a default that is no member of its choice changes the selection, which is reached, but not
along dependents alone. -/
theorem outsideDefault_reached : ∃ c w, Load.load outsideDefault {} = .ok c w ∧
    let u' := { c.user with values := c.user.values.setIfInBounds 2 (some (.level false false)) }
    recompute w.model u' (.selection 0) ≠ recompute w.model c.user (.selection 0) ∧
      Relation.ReflTransGen (fun i j => j ∈ c.dependents.of i ∨ w.model.Unlisted i j)
        (.symbol 2) (.choice 0) ∧
      ¬ Relation.ReflTransGen (fun i j => j ∈ c.dependents.of i) (.symbol 2) (.choice 0) := by
  have hchecked : passes (fun (c : Configuration) (w : Workspace) =>
      let m := w.model
      let u' := { c.user with values := c.user.values.setIfInBounds 2 (some (.level false false)) }
      decide ((∀ q ∈ m.queries, (recompute m c.user q).isSome) ∧
        (∀ q ∈ m.queries, (recompute m u' q).isSome) ∧
        recompute m u' (.selection 0) ≠ recompute m c.user (.selection 0) ∧
        ∀ i ∈ [Item.symbol 2, .symbol 3], ∀ j ∈ c.dependents.of i, j ∈ [Item.symbol 2, .symbol 3]))
      (Load.load outsideDefault {}) = true := by decide +kernel
  obtain ⟨c, w, hload, hchecked⟩ := ok_of_passes hchecked
  obtain ⟨hanswers, hanswers', hne, hclosed⟩ := of_decide_eq_true hchecked
  refine ⟨c, w, hload, hne, (reached_of_changed hload (Load.coherent_of_load hload).permits
    (.of_queries hanswers) (.of_queries hanswers') (.of_value _ _ _ _) hne).1, fun hreach => ?_⟩
  have hstays : ∀ j, Relation.ReflTransGen (fun i j => j ∈ c.dependents.of i) (.symbol 2) j →
      j ∈ [Item.symbol 2, .symbol 3] := by
    intro j hj
    induction hj with
    | refl => exact List.mem_cons_self ..
    | tail _ hstep ih => exact hclosed _ ih _ hstep
  exact absurd (hstays _ hreach) (by decide)

end Kconfig
