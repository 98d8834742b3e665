import Kconfig.Proofs.Action
import Kconfig.Proofs.Values.Coherence
/-!
Reading with any memory.

Also a memory that holds wrong answers determines what is read: what is remembered is taken as it
is, and the rest is worked out from it by the rules. Reading adds nothing but answers that are
determined already, so what was asked for before makes no difference. With right answers in memory
what is read is right.
-/
namespace Kconfig
open Plan

/-- The answer to a question by what is remembered and otherwise by the rules, or nothing if it
takes more than `depth`. -/
def recallAt (m : Model) (u : UserValues) (k : Memory) : Nat → (q : Query) → Option q.Answer
  | 0, _ => none
  | depth + 1, q =>
    match k.get? q with
    | some a => some a
    | none => (m.rule u q).run (recallAt m u k depth) fun _ => some ()

namespace Memory
variable {m : Model} {u : UserValues} {k k' k'' : Memory}

/-- What is remembered, and the rules, answer the question. -/
def Answers (m : Model) (u : UserValues) (k : Memory) (q : Query) (a : q.Answer) : Prop :=
  ∃ depth, recallAt m u k depth q = some a

theorem recallAt_succ {depth : Nat} {q : Query} {a : q.Answer}
    (h : recallAt m u k depth q = some a) : recallAt m u k (depth + 1) q = some a := by
  induction depth generalizing q with
  | zero => exact nomatch h
  | succ depth ih =>
    rw [recallAt] at h ⊢
    cases hq : k.get? q with
    | some b =>
      rw [hq] at h
      exact h
    | none =>
      rw [hq] at h
      exact run_mono (fun _ _ => ih) h

theorem recallAt_le {depth depth' : Nat} (hle : depth ≤ depth') {q : Query} {a : q.Answer}
    (h : recallAt m u k depth q = some a) : recallAt m u k depth' q = some a := by
  induction hle with
  | refl => exact h
  | step _ ih => exact recallAt_succ ih

theorem Answers.unique {q : Query} {a b : q.Answer} (ha : Answers m u k q a)
    (hb : Answers m u k q b) : a = b := by
  obtain ⟨depth, ha⟩ := ha
  obtain ⟨depth', hb⟩ := hb
  have h₁ := recallAt_le (Nat.le_max_left depth depth') ha
  have h₂ := recallAt_le (Nat.le_max_right depth depth') hb
  exact Option.some.inj (h₁.symm.trans h₂)

theorem answers_of_get? {q : Query} {a : q.Answer} (h : k.get? q = some a) :
    Answers m u k q a := ⟨1, by rw [recallAt, h]⟩

/-- When every question is answered, the answers that are not remembered obey the rules. -/
theorem eq_result_of_answers {v : Valuation} (hv : ∀ q, Answers m u k q (v q)) {q : Query}
    (hq : k.get? q = none) : v q = (m.rule u q).result v := by
  obtain ⟨depth, h⟩ := hv q
  have h := recallAt_succ h
  rw [recallAt, hq] at h
  exact ((run_eq_some_iff fun q' a ha => Answers.unique ⟨_, ha⟩ (hv q')).mp h).2

/-- A memory that has grown out of another one by answers which that one determines. -/
structure Grown (m : Model) (u : UserValues) (k k' : Memory) : Prop where
  extended : k.Extends k'
  answered : ∀ q a, k'.get? q = some a → Answers m u k q a

theorem Grown.refl (k : Memory) : Grown m u k k := ⟨.refl k, fun _ _ => answers_of_get?⟩

theorem Grown.extends_set (h : Grown m u k k') {q : Query} {a : q.Answer}
    (ha : Answers m u k q a) : k'.Extends (k'.set q a) :=
  Memory.extends_set fun b hb => (h.answered q b hb).unique ha

theorem Grown.set (h : Grown m u k k') {q : Query} {a : q.Answer} (ha : Answers m u k q a) :
    Grown m u k (k'.set q a) := by
  refine ⟨h.extended.trans (h.extends_set ha), fun q' b hb => ?_⟩
  by_cases hq : q' = q
  · subst hq
    rcases get?_set k' q' a with hset | hset
    · obtain rfl := Option.some.inj (hset.symm.trans hb)
      exact ha
    · exact h.answered q' b (hset.symm.trans hb)
  · rw [get?_set_of_ne hq] at hb
    exact h.answered q' b hb

end Memory

namespace Evaluating
open Memory
variable {m : Model} {u : UserValues} {k : Memory}

/-- Carrying a plan out gives what it gives with the answers that the memory determines. -/
theorem yields_run {α : Type} {ask : (q : Query) → Evaluating q.Answer}
    (hask : ∀ q (e : Evaluation), Grown m u k e.memory →
      Yields (ask q) e fun a e' => Grown m u k e'.memory ∧ Answers m u k q a) :
    ∀ (p : Plan α) (e : Evaluation), Grown m u k e.memory →
      Yields (p.run ask warn) e fun a e' => Grown m u k e'.memory ∧
        ∃ depth, p.run (recallAt m u k depth) (fun _ => some ()) = some a
  | .done a, _, he => .pure ⟨he, 0, rfl⟩
  | .warn _ next, _, he => yields_run hask next _ he
  | .ask q next, e, he => by
    refine .bind (hask q e he) fun b e₁ ⟨he₁, depth, hb⟩ => ?_
    refine (yields_run hask (next b) e₁ he₁).mono fun a e₂ ⟨he₂, depth', ha⟩ => ⟨he₂, ?_⟩
    refine ⟨max depth depth', ?_⟩
    show ((recallAt m u k _ q).bind fun b => (next b).run (recallAt m u k _) _) = some a
    rw [recallAt_le (Nat.le_max_left ..) hb]
    exact run_mono (fun _ _ => recallAt_le (Nat.le_max_right ..)) ha

/-- Reading gives the answer that the memory determines. -/
theorem yields_readAt : ∀ (depth : Nat) (q : Query) (e : Evaluation), Grown m u k e.memory →
    Yields (readAt m u depth q) e fun a e' => Grown m u k e'.memory ∧ Answers m u k q a
  | 0, _, _, _ => .throw _
  | depth + 1, q, e, he => by
    intro a e' h
    rw [readAt_succ] at h
    cases hq : e.memory.get? q with
    | some b =>
      rw [hq] at h
      injection h with hb he'
      subst hb he'
      exact ⟨he, he.answered q b hq⟩
    | none =>
      rw [hq] at h
      cases hrun : (m.rule u q).run (readAt m u depth) warn e with
      | error f e₁ =>
        rw [hrun] at h
        exact nomatch h
      | ok b e₁ =>
        rw [hrun] at h
        injection h with hb he'
        subst hb he'
        obtain ⟨he₁, depth', hb⟩ := yields_run (yields_readAt depth) _ e he b e₁ hrun
        have hnone : k.get? q = none := by
          cases hk : k.get? q with
          | none => rfl
          | some a => rw [he.extended q a hk] at hq; exact nomatch hq
        have hanswers : Answers m u k q b := ⟨depth' + 1, by rw [recallAt, hnone]; exact hb⟩
        exact ⟨he₁.set hanswers, hanswers⟩

/-- Whatever asking keeps is kept by carrying a plan out, also when that fails. -/
theorem keeps_run {P : Evaluation → Prop} {α : Type} {ask : (q : Query) → Evaluating q.Answer}
    (hwarn : ∀ w, Keeps P (warn w)) (hask : ∀ q, Keeps P (ask q)) :
    ∀ p : Plan α, Keeps P (p.run ask warn)
  | .done a => .pure a
  | .warn w next => .bind (hwarn w) fun _ => keeps_run hwarn hask next
  | .ask q next => .bind (hask q) fun a => keeps_run hwarn hask (next a)

/-- Whatever warnings and new answers keep is kept by carrying a plan out, also when that fails. -/
theorem keeps_follow {P : Evaluation → Prop} {α : Type} (hwarn : ∀ w, Keeps P (warn w))
    (hset : ∀ e q a, P e → P { e with memory := e.memory.set q a }) (p : Plan α) :
    Keeps P (follow m u p) := by
  have hread : ∀ (depth : Nat) (q : Query), Keeps P (readAt m u depth q) := by
    intro depth
    induction depth with
    | zero => exact fun q => .throw _
    | succ depth ih =>
      refine fun q => .bind .get fun e => ?_
      split
      · exact .pure _
      · exact .bind (keeps_run hwarn ih _) fun a => .bind (.update fun e he => hset e q a he) fun _ =>
          .pure _
  exact keeps_run hwarn (hread m.depthOfQueries) p

/-! ### Journals -/

/-- With the same memory the action gives the same and leaves the same memory, whatever was told
before. -/
def Deaf {α : Type} (action : Evaluating α) : Prop :=
  ∀ e e' a e₁, e'.memory = e.memory → action e = .ok a e₁ →
    ∃ e₂, action e' = .ok a e₂ ∧ e₂.memory = e₁.memory

namespace Deaf
variable {α β : Type}

theorem pure (a : α) : Deaf (Pure.pure a) := by
  intro e e' b e₁ hmemory h
  injection h with hb he
  subst hb he
  exact ⟨e', rfl, hmemory⟩

theorem bind {action : Evaluating β} {next : β → Evaluating α} (h : Deaf action)
    (hnext : ∀ b, Deaf (next b)) : Deaf (action >>= next) := by
  intro e e' a e₂ hmemory ha
  obtain ⟨b, e₁, hb, ha⟩ := bind_ok ha
  obtain ⟨e₁', hb', hmemory'⟩ := h e e' b e₁ hmemory hb
  rw [bind_apply, hb']
  exact hnext b e₁ e₁' a e₂ hmemory' ha

end Deaf

theorem deaf_warn (w : Warning) : Deaf (warn w) := by
  intro e e' a e₁ hmemory h
  injection h with ha he
  subst ha he
  exact ⟨_, rfl, hmemory⟩

theorem deaf_run {α : Type} {ask : (q : Query) → Evaluating q.Answer} (hask : ∀ q, Deaf (ask q)) :
    ∀ p : Plan α, Deaf (p.run ask warn)
  | .done a => .pure a
  | .warn w next => .bind (deaf_warn w) fun _ => deaf_run hask next
  | .ask q next => .bind (hask q) fun a => deaf_run hask (next a)

theorem deaf_readAt : ∀ (depth : Nat) (q : Query), Deaf (readAt m u depth q)
  | 0, _ => fun _ _ _ _ _ h => nomatch h
  | depth + 1, q => by
    intro e e' a e₁ hmemory h
    rw [readAt_succ] at h ⊢
    rw [hmemory]
    cases hq : e.memory.get? q with
    | some b =>
      rw [hq] at h
      injection h with hb he
      subst hb he
      exact ⟨e', rfl, hmemory⟩
    | none =>
      rw [hq] at h
      cases hrun : (m.rule u q).run (readAt m u depth) warn e with
      | error f e₂ =>
        rw [hrun] at h
        exact nomatch h
      | ok b e₂ =>
        rw [hrun] at h
        injection h with hb he
        subst hb he
        obtain ⟨e₃, hrun', hmemory'⟩ := deaf_run (deaf_readAt depth) _ e e' b e₂ hmemory hrun
        dsimp only
        rw [hrun']
        exact ⟨_, rfl, congrArg (·.set q b) hmemory'⟩

/-! ### Failures -/

/-- Reading that fails has also remembered nothing but determined answers. -/
theorem keeps_readAt : ∀ (depth : Nat) (q : Query),
    Keeps (fun e : Evaluation => Grown m u k e.memory) (readAt m u depth q)
  | 0, _ => .throw _
  | depth + 1, q => by
    intro e he
    have hrun := keeps_run (fun w => .update fun _ h => h) (keeps_readAt depth) (m.rule u q) e he
    unfold KeepsAt at hrun ⊢
    cases hread : readAt m u (depth + 1) q e with
    | ok a e' => exact (yields_readAt (depth + 1) q e he a e' hread).1
    | error f e' =>
      rw [readAt_succ] at hread
      cases hq : e.memory.get? q with
      | some b =>
        rw [hq] at hread
        exact nomatch hread
      | none =>
        rw [hq] at hread
        cases haction : (m.rule u q).run (readAt m u depth) warn e with
        | ok b e₁ =>
          rw [haction] at hread
          exact nomatch hread
        | error f₁ e₁ =>
          rw [haction] at hread hrun
          injection hread with hf he'
          exact he' ▸ hrun

/-! ### Right answers -/

variable {v : Valuation}

/-- Carrying a plan out gives its result when asking its questions gives their answers. -/
theorem ends_run {α : Type} {ask : (q : Query) → Evaluating q.Answer} : ∀ (p : Plan α),
    (∀ q ∈ p.asked v, ∀ e : Evaluation, e.memory.Right v →
      Ends (ask q) e fun a e' => a = v q ∧ e'.memory.Right v) →
    ∀ e : Evaluation, e.memory.Right v →
      Ends (p.run ask warn) e fun a e' => a = p.result v ∧ e'.memory.Right v
  | .done a, _, _, he => .pure ⟨rfl, he⟩
  | .warn _ next, h, _, he => ends_run next h _ he
  | .ask q next, h, e, he => by
    refine (h q (List.mem_cons_self ..) e he).bind fun a e₁ ⟨ha, he₁⟩ => ?_
    subst ha
    exact ends_run (next (v q)) (fun q' hq' => h q' (List.mem_cons_of_mem _ hq')) e₁ he₁

/-- With right answers in mind, reading gives the right answer. -/
theorem ends_readAt (hv : m.Solves u v) : ∀ {depth : Nat} {q : Query},
    recomputeAt m u depth q = some (v q) → ∀ e : Evaluation, e.memory.Right v →
      Ends (readAt m u depth q) e fun a e' => a = v q ∧ e'.memory.Right v
  | 0, _, h, _, _ => nomatch h
  | depth + 1, q, h, e, he => by
    unfold Ends
    rw [readAt_succ]
    cases hq : e.memory.get? q with
    | some a => exact ⟨a, e, rfl, he q a hq, he⟩
    | none =>
      have hbelow := hv.recomputeAt_succ_iff.mp h
      obtain ⟨a, e', hrun, rfl, he'⟩ :=
        ends_run (m.rule u q) (fun q' hq' => ends_readAt hv (hbelow q' hq')) e he
      rw [hrun, ← hv.eq_result]
      exact ⟨v q, _, rfl, rfl, he'.set q⟩

/-- So does following a plan. -/
theorem ends_follow {α : Type} (hv : m.Solves u v) (p : Plan α) (e : Evaluation)
    (he : e.memory.Right v) :
    Ends (follow m u p) e fun a e' => a = p.result v ∧ e'.memory.Right v :=
  ends_run p (fun q _ => ends_readAt hv (hv.recompute_eq q)) e he

end Evaluating
end Kconfig
