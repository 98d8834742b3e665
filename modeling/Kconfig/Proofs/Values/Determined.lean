import Kconfig.Proofs.Values.Loopless
/-!
Reading ends exactly where the memory determines an answer.

What is remembered answers some questions, the rules work out more from that, and what is left is
worked out from itself and has no answer. Reading a question with an answer comes to this answer: the
depth that reading allows for is never too small for it, whatever is remembered. So what a plan is
carried out to can be worked out from the answers alone, and two plans that come to the same with any
answers, also where some are missing, come to the same end in every evaluation.
-/
namespace Kconfig
open Plan Memory

/-- The answer to a question that a memory and the rules determine. -/
def recalled (m : Model) (u : UserValues) (k : Memory) (q : Query) : Option q.Answer :=
  recallAt m u k m.depthOfQueries q

namespace Memory
variable {m : Model} {u : UserValues} {k : Memory} {q : Query}

/-- A question about an item that never changes is answered at once. -/
theorem recallAt_of_fixed (hk : k.Constant m) : ∀ {depth : Nat} {q : Query}, m.Fixed q.item →
    q.rank < depth → recallAt m u k depth q = some (m.fixedAnswer q)
  | depth + 1, q, hq, hrank => by
    rw [recallAt]
    cases hget : k.get? q with
    | some a => rw [hk q a hget hq]
    | none =>
      rw [← hk.fixes.result hq]
      refine run_of_asked fun q' hq' => ?_
      obtain ⟨hitem, hless⟩ := Model.asked_of_fixed hk.fixes hq hq'
      have hq' : m.Fixed q'.item := hitem ▸ hq
      rw [recallAt_of_fixed hk hq' (Nat.lt_of_lt_of_le hless (Nat.le_of_lt_succ hrank)),
        hk.fixes q' hq']

theorem levels_recallAt (hk : k.Constant m) (u : UserValues) : m.Levels (recallAt m u k) where
  keeps _ _ _ := recallAt_succ
  next _ _ h := by
    funext q
    rw [recallAt, recallAt, h]
  fixed q hq := by
    rw [recallAt_of_fixed hk hq (Nat.lt_succ_of_le q.rank_le)]
    rfl

theorem recall_of_answers (hk : k.Constant m) {a : q.Answer} (h : Answers m u k q a) :
    recalled m u k q = some a := by
  obtain ⟨depth, ha⟩ := h
  exact (levels_recallAt hk u).bounded ha

theorem recall_of_fixed (hk : k.Constant m) (hq : m.Fixed q.item) :
    recalled m u k q = some (m.fixedAnswer q) :=
  recall_of_answers hk ⟨_, recallAt_of_fixed hk hq (Nat.lt_succ_self _)⟩

end Memory

namespace Evaluating
variable {m : Model} {u : UserValues} {k : Memory}

/-- Carrying a plan out comes to an end when the answers do that it is given. -/
theorem ends_run_of_recallAt {α : Type} {ask : (q : Query) → Evaluating q.Answer} {depth : Nat}
    (hask : ∀ q a (e : Evaluation), Grown m u k e.memory → recallAt m u k depth q = some a →
      Ends (ask q) e fun b e' => b = a ∧ Grown m u k e'.memory) :
    ∀ (p : Plan α) (a : α) (e : Evaluation), Grown m u k e.memory →
      p.run (recallAt m u k depth) (fun _ => some ()) = some a →
      Ends (p.run ask warn) e fun b e' => b = a ∧ Grown m u k e'.memory
  | .done _, _, _, he, h => .pure ⟨Option.some.inj h, he⟩
  | .warn _ next, a, _, he, h => ends_run_of_recallAt hask next a _ he h
  | .ask q next, a, e, he, h => by
    obtain ⟨b, hb, ha⟩ := Option.bind_eq_some_iff.mp h
    refine (hask q b e he hb).bind fun b' e₁ ⟨hb', he₁⟩ => ?_
    subst hb'
    exact ends_run_of_recallAt hask (next _) a e₁ he₁ ha

/-- Reading takes no more depth than the memory took to determine the answer. -/
theorem ends_readAt_of_recallAt : ∀ (depth : Nat) (q : Query) (a : q.Answer) (e : Evaluation),
    Grown m u k e.memory → recallAt m u k depth q = some a →
    Ends (readAt m u depth q) e fun b e' => b = a ∧ Grown m u k e'.memory
  | depth + 1, q, a, e, he, h => by
    have hanswers : Answers m u k q a := ⟨depth + 1, h⟩
    unfold Ends
    rw [readAt_succ]
    cases hq : e.memory.get? q with
    | some b => exact ⟨b, e, rfl, (he.answered q b hq).unique hanswers, he⟩
    | none =>
      have hnone : k.get? q = none := by
        cases hk : k.get? q with
        | none => rfl
        | some b => exact nomatch hq.symm.trans (he.extended q b hk)
      rw [recallAt, hnone] at h
      obtain ⟨b, e', hrun, rfl, he'⟩ :=
        ends_run_of_recallAt (ends_readAt_of_recallAt depth) (m.rule u q) a e he h
      rw [hrun]
      exact ⟨b, _, rfl, rfl, he'.set hanswers⟩

/-- A plan is followed to its end exactly if the memory determines what it comes to. -/
theorem follow_ends_iff {α : Type} {e : Evaluation} (he : e.memory.Constant m) (p : Plan α) (a : α) :
    (∃ e', follow m u p e = .ok a e') ↔ p.run (recalled m u e.memory) (fun _ => some ()) = some a := by
  constructor
  · rintro ⟨e', h⟩
    have hread : ∀ q (e₁ : Evaluation), Grown m u e.memory e₁.memory →
        Yields (read m u q) e₁ fun b e₂ => Grown m u e.memory e₂.memory ∧
          Answers m u e.memory q b := fun q e₁ => yields_readAt _ q e₁
    obtain ⟨-, depth, ha⟩ := yields_run hread p e (.refl _) a e' h
    exact run_mono (fun q b hb => recall_of_answers he ⟨depth, hb⟩) ha
  · intro h
    obtain ⟨_, e', hfollow, rfl, -⟩ :=
      ends_run_of_recallAt (ends_readAt_of_recallAt _) p a e (.refl _) h
    exact ⟨e', hfollow⟩

end Evaluating
end Kconfig
