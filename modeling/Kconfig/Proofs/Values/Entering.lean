import Kconfig.Proofs.Values.Valuation
/-!
Questions that enter each other, and termination.

While a question is answered, its plan enters further questions, one after the other, until one of
them gets no answer. A question without an answer at any depth therefore enters another one without
an answer, and there are finitely many questions that may have none. So values terminate exactly
when no question, while it is answered, is entered again.
-/
namespace Kconfig

/-- From where all ways end, no way leads back. -/
theorem no_loop_of_acc {α : Type} {r : α → α → Prop} {x : α} (h : Acc (fun y x => r x y) x) :
    ¬ Relation.TransGen r x x := by
  have hback : ∀ y, Relation.TransGen r x y → Relation.TransGen (fun y x => r x y) y x := by
    intro y hy
    induction hy with
    | single h => exact .single h
    | tail _ h ih => exact .trans (.single h) ih
  have hirrefl : ∀ y, Acc (Relation.TransGen fun y x => r x y) y →
      ¬ Relation.TransGen (fun y x => r x y) y y := by
    intro y hy
    induction hy with
    | intro y _ ih => exact fun hyy => ih y hyy hyy
  exact fun hloop => hirrefl x h.transGen (hback x hloop)

namespace Plan
variable {α : Type} {ask ask' : (q : Query) → Option q.Answer} {p : Plan α} {q : Query}

/-- The questions that a plan enters when it is carried out with partial answers: up to the first
one without an answer. -/
def trail (ask : (q : Query) → Option q.Answer) : Plan α → List Query
  | .done _ => []
  | .ask q next => q :: match ask q with
    | some a => (next a).trail ask
    | none => []
  | .warn _ next => next.trail ask

theorem mem_trail_ask {q' : Query} {next : q'.Answer → Plan α} :
    q ∈ (Plan.ask q' next).trail ask ↔
      q = q' ∨ ∃ a, ask q' = some a ∧ q ∈ (next a).trail ask := by
  cases h : ask q' with
  | none => simp [trail, h]
  | some a => simp [trail, h]

/-- A plan enters only questions that it asks when a valuation gives the partial answers. -/
theorem asked_of_trail {v : Valuation} (hv : ∀ q a, ask q = some a → v q = a)
    (h : q ∈ p.trail ask) : q ∈ p.asked v := by
  induction p with
  | done a => exact h
  | ask q' next ih =>
    rcases mem_trail_ask.mp h with rfl | ⟨a, ha, h⟩
    · exact List.mem_cons_self ..
    · refine List.mem_cons_of_mem _ ?_
      rw [hv q' a ha]
      exact ih a h
  | warn w next ih => exact ih h

/-- With more answers a plan enters more questions. -/
theorem trail_mono (hle : ∀ q a, ask q = some a → ask' q = some a) (h : q ∈ p.trail ask) :
    q ∈ p.trail ask' := by
  induction p with
  | done a => exact h
  | ask q' next ih =>
    rcases mem_trail_ask.mp h with rfl | ⟨a, ha, h⟩
    · exact mem_trail_ask.mpr (.inl rfl)
    · exact mem_trail_ask.mpr (.inr ⟨a, hle q' a ha, ih a h⟩)
  | warn w next ih => exact ih h

/-- A plan that gives a result had answers to all questions that it entered, and with more answers it
enters no others. -/
theorem isSome_of_trail {a : α} (hle : ∀ q a, ask q = some a → ask' q = some a)
    (hrun : p.run ask (fun _ => some ()) = some a) (h : q ∈ p.trail ask') : (ask q).isSome := by
  induction p with
  | done b => exact absurd h List.not_mem_nil
  | ask q' next ih =>
    change ((ask q').bind fun b => (next b).run ask fun _ => some ()) = some a at hrun
    obtain ⟨b, hb, hrest⟩ := Option.bind_eq_some_iff.mp hrun
    rcases mem_trail_ask.mp h with rfl | ⟨b', hb', h⟩
    · rw [hb]
      rfl
    · obtain rfl : b = b' := Option.some.inj ((hle q' b hb).symm.trans hb')
      exact ih b hrest h
  | warn w next ih => exact ih hrun h

end Plan

namespace Model
variable {m : Model} {u : UserValues} {q q' : Query}

/-- While a question is answered from the user's values, another question is entered. -/
def Enters (m : Model) (u : UserValues) (q q' : Query) : Prop :=
  ∃ depth, q' ∈ (m.rule u q).trail (recomputeAt m u depth)

/-- The question has no answer at any depth. -/
def Stuck (m : Model) (u : UserValues) (q : Query) : Prop := ∀ depth, recomputeAt m u depth q = none

theorem terminates_iff_no_stuck : m.Terminates u ↔ ∀ q, ¬ m.Stuck u q := by
  constructor
  · intro h q hstuck
    obtain ⟨depth, hsome⟩ := h q
    rw [hstuck depth] at hsome
    exact nomatch hsome
  · intro h q
    refine Classical.byContradiction fun hno => h q fun depth => ?_
    exact Option.not_isSome_iff_eq_none.mp fun hsome => hno ⟨depth, hsome⟩

/-- A question with an answer enters questions that have theirs at a smaller depth. -/
theorem Enters.isSome (h : m.Enters u q q') {depth : Nat} {a : q.Answer}
    (ha : recomputeAt m u (depth + 1) q = some a) : (recomputeAt m u depth q').isSome := by
  obtain ⟨depth', hmem⟩ := h
  have hmem := Plan.trail_mono (fun _ _ => recomputeAt_le (Nat.le_max_right depth depth')) hmem
  exact Plan.isSome_of_trail (fun _ _ => recomputeAt_le (Nat.le_max_left depth depth')) ha hmem

/-- Whoever enters a question without an answer gets none. -/
theorem Stuck.of_enters (hstuck : m.Stuck u q') (h : m.Enters u q q') : m.Stuck u q := by
  intro depth
  cases ha : recomputeAt m u depth q with
  | none => rfl
  | some a =>
    have hsome := h.isSome (recomputeAt_succ ha)
    rw [hstuck] at hsome
    exact nomatch hsome

/-- A question that is entered again while it is answered has no answer. -/
theorem stuck_of_loop (h : Relation.TransGen (m.Enters u) q q) : m.Stuck u q := by
  have hacc : ∀ depth q, (recomputeAt m u depth q).isSome →
      Acc (fun q' q => m.Enters u q q') q := by
    intro depth
    induction depth with
    | zero => exact fun _ hsome => nomatch hsome
    | succ depth ih =>
      intro q hsome
      obtain ⟨a, ha⟩ := Option.isSome_iff_exists.mp hsome
      exact ⟨q, fun q' henters => ih q' (henters.isSome ha)⟩
  intro depth
  cases ha : recomputeAt m u depth q with
  | none => rfl
  | some a => exact absurd h (no_loop_of_acc (hacc depth q (ha ▸ rfl)))

/-- A plan that never gives a result enters a question without an answer. -/
theorem exists_stuck_of_run {α : Type} {p : Plan α}
    (h : ∀ depth, p.run (recomputeAt m u depth) (fun _ => some ()) = none) :
    ∃ q, m.Stuck u q ∧ ∃ depth, q ∈ p.trail (recomputeAt m u depth) := by
  induction p with
  | done a => exact absurd (h 0) nofun
  | ask q next ih =>
    by_cases hstuck : m.Stuck u q
    · exact ⟨q, hstuck, 0, Plan.mem_trail_ask.mpr (.inl rfl)⟩
    · -- the question has an answer from some depth on, and the rest of the plan goes wrong
      obtain ⟨depth, a, ha⟩ : ∃ depth a, recomputeAt m u depth q = some a := by
        refine Classical.byContradiction fun hno => hstuck fun depth => ?_
        cases ha : recomputeAt m u depth q with
        | none => rfl
        | some a => exact absurd ⟨depth, a, ha⟩ hno
      have hrest : ∀ depth', (next a).run (recomputeAt m u depth') (fun _ => some ()) = none := by
        intro depth'
        cases hrun : (next a).run (recomputeAt m u depth') (fun _ => some ()) with
        | none => rfl
        | some b =>
          have hmax := h (max depth depth')
          change ((recomputeAt m u (max depth depth') q).bind fun a =>
            (next a).run (recomputeAt m u (max depth depth')) fun _ => some ()) = none at hmax
          rw [recomputeAt_le (Nat.le_max_left depth depth') ha] at hmax
          have hmono := Plan.run_mono
            (fun _ _ => recomputeAt_le (Nat.le_max_right depth depth')) hrun
          exact absurd (hmax.symm.trans hmono) nofun
      obtain ⟨q', hstuck', depth', hmem⟩ := ih a hrest
      refine ⟨q', hstuck', max depth depth', Plan.mem_trail_ask.mpr (.inr ⟨a, ?_, ?_⟩)⟩
      · exact recomputeAt_le (Nat.le_max_left depth depth') ha
      · exact Plan.trail_mono (fun _ _ => recomputeAt_le (Nat.le_max_right depth depth')) hmem
  | warn w next ih => exact ih h

/-- A question without an answer enters another one. -/
theorem Stuck.next (h : m.Stuck u q) : ∃ q', m.Stuck u q' ∧ m.Enters u q q' :=
  exists_stuck_of_run fun depth => h (depth + 1)

/-- Only questions about items whose values can change may be without an answer. -/
theorem Stuck.not_fixed (h : m.Stuck u q) : ¬ m.Fixed q.item := by
  intro hfixed
  have hsome := recomputeAt_of_fixed (u := u) hfixed
  rw [h] at hsome
  exact nomatch hsome

/-- A question without an answer leads to one that, while it is answered, is entered again: each
question that is entered reaches less than the one before if it does not reach itself. -/
theorem Stuck.exists_loop (h : m.Stuck u q) :
    ∃ q', m.Stuck u q' ∧ Relation.TransGen (m.Enters u) q' q' := by
  classical
  refine Classical.byContradiction fun hno => ?_
  have hloop : ∀ q', m.Stuck u q' → ¬ Relation.TransGen (m.Enters u) q' q' := fun q' hq' hq'' =>
    hno ⟨q', hq', hq''⟩
  suffices hnone : ∀ n q, m.queries.countP (fun x => Relation.TransGen (m.Enters u) q x) ≤ n →
      ¬ m.Stuck u q from hnone _ q (Nat.le_refl _) h
  intro n
  induction n with
  | zero =>
    intro q hn hstuck
    obtain ⟨q', hstuck', henters⟩ := hstuck.next
    have hpos : 0 < m.queries.countP (fun x => Relation.TransGen (m.Enters u) q x) :=
      List.countP_pos_iff.mpr ⟨q', mem_queries_of_not_fixed hstuck'.not_fixed,
        decide_eq_true (.single henters)⟩
    exact Nat.not_le_of_lt hpos hn
  | succ n ih =>
    intro q hn hstuck
    obtain ⟨q', hstuck', henters⟩ := hstuck.next
    refine ih q' (Nat.le_of_lt_succ (Nat.lt_of_lt_of_le ?_ hn)) hstuck'
    refine Lists.countP_lt (x := q') (fun x hx => ?_) ?_ ?_ _
      (mem_queries_of_not_fixed hstuck'.not_fixed)
    · exact decide_eq_true ((Relation.TransGen.single henters).trans (of_decide_eq_true hx))
    · exact decide_eq_false (hloop q' hstuck')
    · exact decide_eq_true (Relation.TransGen.single henters)

/-- Values terminate exactly when no question is entered again while it is answered. -/
theorem terminates_iff_no_loop :
    m.Terminates u ↔ ∀ q, ¬ Relation.TransGen (m.Enters u) q q := by
  constructor
  · exact fun h q hloop => terminates_iff_no_stuck.mp h q (stuck_of_loop hloop)
  · refine fun h => terminates_iff_no_stuck.mpr fun q hstuck => ?_
    obtain ⟨q', -, hloop⟩ := hstuck.exists_loop
    exact h q' hloop

end Model
end Kconfig
