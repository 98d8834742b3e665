import Kconfig.Proofs.Values.Backing
/-!
Reading comes to an end where no question may lead back to itself.

Which questions a rule asks hangs on the answers that it gets, and what is remembered may be out of
date. But where no question may be asked again for its own answer, whatever the answers are, each
question that is asked leads to fewer questions than the one before. There are fewer questions than
the depth that reading allows for, so reading never runs out of it, whatever is remembered.
-/
namespace Kconfig
open Plan

namespace Model
variable {m : Model} {u : UserValues} {v : Valuation} {q q' : Query}

/-- One question may be asked for the answer to another, whatever was answered before. -/
def MayAsk (m : Model) (u : UserValues) (q q' : Query) : Prop :=
  ∃ v, m.Fixes v ∧ q' ∈ (m.rule u q).asked v

/-- No question may be asked again for its own answer. -/
def Loopless (m : Model) (u : UserValues) : Prop := ∀ q, ¬ Relation.TransGen (m.MayAsk u) q q

/-- From an item that never changes no question leads away from it, or back. -/
theorem fixed_of_mayAsk (h : Relation.TransGen (m.MayAsk u) q q') (hq : m.Fixed q.item) :
    m.Fixed q'.item ∧ q'.rank < q.rank := by
  induction h with
  | single hasks =>
    obtain ⟨v, hv, hasked⟩ := hasks
    obtain ⟨hitem, hrank⟩ := asked_of_fixed hv hq hasked
    exact ⟨hitem ▸ hq, hrank⟩
  | tail _ hasks ih =>
    obtain ⟨v, hv, hasked⟩ := hasks
    obtain ⟨hitem, hrank⟩ := asked_of_fixed hv ih.1 hasked
    exact ⟨hitem ▸ ih.1, Nat.lt_trans hrank ih.2⟩

open Classical in
/-- How many questions a question may lead to. -/
noncomputable def reach (m : Model) (u : UserValues) (q : Query) : Nat :=
  m.queries.countP fun x => Relation.TransGen (m.MayAsk u) q x

theorem reach_le (m : Model) (u : UserValues) (q : Query) :
    m.reach u q ≤ 5 * (m.symbols.size + m.choices.size) :=
  Nat.le_trans List.countP_le_length m.length_queries_le

/-- A question that is asked leads to fewer questions, as it does not lead to itself. -/
theorem Loopless.reach_lt (h : m.Loopless u) (hasks : m.MayAsk u q q') (hq' : ¬ m.Fixed q'.item) :
    m.reach u q' < m.reach u q := by
  classical
  refine Lists.countP_lt (x := q') (fun x hx => ?_) ?_ ?_ _ (mem_queries_of_not_fixed hq')
  · exact decide_eq_true ((Relation.TransGen.single hasks).trans (of_decide_eq_true hx))
  · exact decide_eq_false (h q')
  · exact decide_eq_true (.single hasks)

end Model

namespace Evaluating
open Memory Model
variable {m : Model} {u : UserValues} {T : Query → Prop}

/-- Carrying a plan out succeeds when every question succeeds that the plan may come to ask. -/
theorem succeeds_run {α : Type} {ask : (q : Query) → Evaluating q.Answer}
    (hask : ∀ q, Reads m u T (ask q) (Told m q)) : ∀ (p : Plan α) (e : Evaluation),
      e.memory.Backed m u T →
      (∀ v, m.Fixes v → (∀ q, e.memory.Settled m q → v q = e.memory.said m q) → ∀ q ∈ p.asked v,
        ∀ e' : Evaluation, e'.memory.Backed m u T → succeeds (ask q e') = true) →
      succeeds (p.run ask warn e) = true
  | .done _, _, _, _ => rfl
  | .warn _ next, e, he, h => succeeds_run hask next _ he h
  | .ask q next, e, he, h => by
    have hq := h (e.memory.said m) he.constant.fixes (fun _ _ => rfl) q (List.mem_cons_self ..) e he
    obtain ⟨a, e₁, hends⟩ := ok_of_succeeds hq
    obtain ⟨hkeeps, hyields⟩ := hask q e he
    obtain ⟨hext, hsettled, rfl⟩ := hyields a e₁ hends
    rw [hends] at hkeeps
    show succeeds ((ask q >>= fun a => (next a).run ask warn) e) = true
    rw [bind_apply, hends]
    refine succeeds_run hask (next (e₁.memory.said m q)) e₁ hkeeps fun v hv hagree q' hq' => ?_
    -- what agrees with the grown memory asks the rest of the plan for what it said
    refine h v hv (fun q'' hq'' => ?_) q' (List.mem_cons_of_mem _ ?_)
    · rw [hagree q'' (hext.settled hq'')]
      exact said_of_extends hext he.constant hkeeps.constant hq''
    · rw [hagree q hsettled]
      exact hq'

/-- With enough depth for all that a question may lead to, reading succeeds. -/
theorem succeeds_readAt (hloopless : m.Loopless u) : ∀ (depth : Nat) (q : Query) (e : Evaluation),
    e.memory.Backed m u T → (m.Fixed q.item → q.rank < depth) →
    (¬ m.Fixed q.item → m.reach u q + 3 < depth) → succeeds (readAt m u depth q e) = true
  | 0, q, _, _, hfixed, hfree => by
    by_cases hq : m.Fixed q.item
    · exact absurd (hfixed hq) (Nat.not_lt_zero _)
    · exact absurd (hfree hq) (Nat.not_lt_zero _)
  | depth + 1, q, e, he, hfixed, hfree => by
    rw [readAt_succ]
    cases hget : e.memory.get? q with
    | some a => rfl
    | none =>
      have hrun : succeeds ((m.rule u q).run (readAt m u depth) warn e) = true := by
        refine succeeds_run (T := T) (reads_readAt depth) _ e he fun v hv _ q' hq' e' he' => ?_
        have hrank := q'.rank_le
        refine succeeds_readAt hloopless depth q' e' he' (fun hq'fixed => ?_) fun hq'free => ?_
        · by_cases hq : m.Fixed q.item
          · have hless := (asked_of_fixed hv hq hq').2
            have hdepth := hfixed hq
            omega
          · have hdepth := hfree hq
            omega
        · have hq : ¬ m.Fixed q.item := fun hq =>
            hq'free ((asked_of_fixed hv hq hq').1 ▸ hq)
          have hless := hloopless.reach_lt ⟨v, hv, hq'⟩ hq'free
          have hdepth := hfree hq
          omega
      obtain ⟨a, e₁, hends⟩ := ok_of_succeeds hrun
      rw [hends]
      rfl

/-- So does following a plan. -/
theorem succeeds_follow (hloopless : m.Loopless u) {α : Type} (p : Plan α) (e : Evaluation)
    (he : e.memory.Backed m u T) : succeeds (follow m u p e) = true := by
  refine succeeds_run (T := T) (reads_readAt _) p e he fun _ _ _ q _ e' he' => ?_
  have hrank := q.rank_le
  have hreach := m.reach_le u q
  exact succeeds_readAt hloopless _ q e' he' (fun _ => by unfold depthOfQueries; omega)
    fun _ => by unfold depthOfQueries; omega

end Evaluating
end Kconfig
