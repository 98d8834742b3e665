import Kconfig.Proofs.Values.Change
import Kconfig.Proofs.Values.Recall
/-!
Answers that are backed, some of them.

In a model whose choices are not tidy a remembered answer may be out of date. Still, as long as
certain questions hang only on items that know their dependents, the answers to these agree with the
rules and with what else is remembered: whenever something that they hang on is forgotten, so are
they. This holds of each set of such questions on its own, whatever else the memory holds.
-/
namespace Kconfig
open Plan

namespace Model
variable {m : Model} {u : UserValues} {v : Valuation} {q : Query}

/-- Answers about items that never change are right when each is the right one or that of the
rules. -/
theorem Fixes.of_rules (h : ∀ q, m.Fixed q.item →
    v q = m.fixedAnswer q ∨ v q = (m.rule u q).result v) : m.Fixes v := by
  have hvisible : ∀ i, m.Fixed i → v (.visible i) = false := by
    intro i hi
    refine (h (.visible i) hi).elim id fun heq => heq.trans ?_
    show (m.visibility i).result v = false
    rw [visibility_of_fixed hi]
    rfl
  have hlevel : ∀ i, m.Fixed i → v (.level i) = m.fixedAnswer (.level i) := by
    intro i hi
    refine (h (.level i) hi).elim id fun heq => heq.trans ?_
    cases i with
    | choice c =>
      simp [rule, levelRule, hvisible _ hi, fixedAnswer]
    | symbol s =>
      show (m.levelRule u (.symbol s)).result v = _
      rw [levelRule_of_fixed hi]
      rfl
  exact fun q hq => (h q hq).elim id fun heq =>
    heq.trans (result_of_fixed hq (hvisible _ hq) (hlevel _ hq))

end Model

namespace Memory
open Model
variable {m : Model} {u u' : UserValues} {v : Valuation} {k k' : Memory} {q q' : Query}
  {T : Query → Prop} {i : Item}

/-! ### What a memory says -/

/-- What a memory says to every question; where it says nothing, what is said of an item that never
changes. -/
def said (m : Model) (k : Memory) : Valuation
  | .text (.choice c) => ⟨levelWord ((k.get? (.visible (.choice c))).getD false), false⟩
  | .level (.choice c) => ⟨(k.get? (.visible (.choice c))).getD false, false⟩
  | q => (k.get? q).getD (m.fixedAnswer q)

theorem said_of_kept (hq : q.kept = q) : k.said m q = (k.get? q).getD (m.fixedAnswer q) := by
  rcases q with (s | c) | (s | c) | (s | c) | (s | c) | c <;> first
    | rfl
    | exact nomatch hq

theorem said_of_get? {a : q.Answer} (h : k.get? q = some a) : k.said m q = a := by
  rw [said_of_kept (kept_of_get? (by rw [h]; rfl)), h]
  rfl

/-- Of items that never change nothing wrong is remembered. -/
def Constant (m : Model) (k : Memory) : Prop :=
  ∀ q a, k.get? q = some a → m.Fixed q.item → a = m.fixedAnswer q

theorem Constant.fixes (h : k.Constant m) : m.Fixes (k.said m) := by
  intro q hq
  have hvisible : ∀ c, m.Fixed (.choice c) → (k.get? (.visible (.choice c))).getD false = false := by
    intro c hc
    cases hget : k.get? (.visible (.choice c)) with
    | none => rfl
    | some a => exact h _ _ hget hc
  rcases q.kept_eq with hkept | ⟨c, rfl | rfl⟩
  · rw [said_of_kept hkept]
    cases hget : k.get? q with
    | none => rfl
    | some a => exact h q a hget hq
  · rw [said, hvisible c hq]
    rfl
  · rw [said, hvisible c hq]
    rfl

/-- A valuation that gives what is remembered agrees with the memory on what is settled. -/
theorem eq_said (hv : m.Fixes v) (hk : k.Constant m) (hget : ∀ q a, k.get? q = some a → v q = a)
    (hchoice : ∀ c, (k.get? (.visible (.choice c))).isSome →
      v (.level (.choice c)) = ⟨v (.visible (.choice c)), false⟩ ∧
      v (.text (.choice c)) = ⟨levelWord (v (.visible (.choice c))), false⟩)
    (hq : k.Settled m q) : v q = k.said m q := by
  rcases hq with hfixed | hsome
  · rw [hv q hfixed, hk.fixes q hfixed]
  rcases q.kept_eq with hkept | ⟨c, rfl | rfl⟩
  · rw [hkept] at hsome
    obtain ⟨a, ha⟩ := Option.isSome_iff_exists.mp hsome
    rw [hget q a ha, said_of_get? ha]
  · have hsome : (k.get? (.visible (.choice c))).isSome := hsome
    obtain ⟨a, ha⟩ := Option.isSome_iff_exists.mp hsome
    rw [(hchoice c hsome).2, hget _ a ha, said, ha]
    rfl
  · have hsome : (k.get? (.visible (.choice c))).isSome := hsome
    obtain ⟨a, ha⟩ := Option.isSome_iff_exists.mp hsome
    rw [(hchoice c hsome).1, hget _ a ha, said, ha]
    rfl

/-- A memory that has more answers says the same to what was settled. -/
theorem said_of_extends (hext : k.Extends k') (hk : k.Constant m) (hk' : k'.Constant m)
    (hq : k.Settled m q) : k'.said m q = k.said m q := by
  refine eq_said hk'.fixes hk (fun q a ha => said_of_get? (hext q a ha)) (fun c hc => ?_) hq
  rw [said_of_kept (q := .visible (.choice c)) rfl]
  exact ⟨rfl, rfl⟩

/-! ### Backed answers -/

/-- The remembered answers to certain questions are what the rules make of the rest of the memory,
and that rest is there. -/
structure Backed (m : Model) (u : UserValues) (T : Query → Prop) (k : Memory) : Prop where
  fits : k.Fits m
  constant : k.Constant m
  right : ∀ q a, T q → k.get? q = some a → a = (m.valueRule u q).result (k.said m)
  settled : ∀ q, T q → (k.get? q).isSome → ∀ q' ∈ (m.valueRule u q).asked (k.said m),
    k.Settled m q'

theorem backed_empty : (Memory.empty m).Backed m u T := by
  refine ⟨fits_empty m, fun q a h => ?_, fun q a _ h => ?_, fun q _ h => ?_⟩
  all_goals
    rw [get?_empty] at h
    exact nomatch h

/-- Questions whose values do not see a change of the user's values stay backed. -/
theorem Backed.change (hk : k.Backed m u T)
    (h : ∀ q, T q → (k.get? q).isSome → m.SameValue u u' (k.said m) q) : k.Backed m u' T := by
  refine ⟨hk.fits, hk.constant, fun q a hT hq => ?_, fun q hT hq => ?_⟩
  · rw [(h q hT (by rw [hq]; rfl)).1]
    exact hk.right q a hT hq
  · rw [(h q hT hq).2]
    exact hk.settled q hT hq

/-- So do questions whose rules do not see it. -/
theorem Backed.congr (hk : k.Backed m u T)
    (h : ∀ q, T q → (k.get? q).isSome → m.valueRule u' q = m.valueRule u q) :
    k.Backed m u' T :=
  hk.change fun q hT hq => .of_eq (h q hT hq)

/-- Forgetting from an item keeps questions backed that are about dependents of what they hang
on. -/
theorem Backed.forget (hk : k.Backed m u T) (h : Forgot m.dependents i k k')
    (hdependent : ∀ q, T q → (k.get? q).isSome → ∀ q' ∈ (m.valueRule u q).asked (k.said m),
      q'.item = q.item ∨ m.Fixed q'.item ∨ q.item ∈ m.dependents.of q'.item) :
    k'.Backed m u T := by
  have hext : k'.Extends k := fun q a hq => (h.get? hq).2
  have hconstant : k'.Constant m := fun q a hq => hk.constant q a (hext q a hq)
  have hsettled : ∀ q, T q → (k'.get? q).isSome →
      ∀ q' ∈ (m.valueRule u q).asked (k.said m), k'.Settled m q' := by
    intro q hT hq q' hq'
    have hqk := hext.isSome hq
    exact h.settled hq (hk.settled q hT hqk q' hq')
      (fun hitem => knows_of_asked hk.constant.fixes (hk.settled q hT hqk) hqk hq' hitem)
      (hdependent q hT hqk q' hq')
  have hagree : ∀ q, T q → (k'.get? q).isSome → ∀ q' ∈ (m.valueRule u q).asked (k.said m),
      k'.said m q' = k.said m q' := fun q hT hq q' hq' =>
    (said_of_extends hext hconstant hk.constant (hsettled q hT hq q' hq')).symm
  refine ⟨h.fits hk.fits, hconstant, fun q a hT hq => ?_, fun q hT hq => ?_⟩
  · rw [(agree (hagree q hT (by rw [hq]; rfl))).1]
    exact hk.right q a hT (hext q a hq)
  · rw [(agree (hagree q hT hq)).2]
    exact hsettled q hT hq

/-- Remembering what the rules make of settled answers keeps questions backed. -/
theorem Backed.set (hk : k.Backed m u T) {a : q.Answer} (hext : k.Extends (k.set q a))
    (hasked : ∀ q' ∈ (m.rule u q).asked (k.said m), k.Settled m q')
    (ha : a = (m.rule u q).result (k.said m)) : (k.set q a).Backed m u T := by
  have hconstant : (k.set q a).Constant m := by
    intro q' b hb hfixed
    by_cases hq : q' = q
    · subst hq
      rcases get?_set k q' a with hset | hset
      · obtain rfl := Option.some.inj (hset.symm.trans hb)
        exact ha.trans (hk.constant.fixes.result hfixed)
      · exact hk.constant q' b (hset.symm.trans hb) hfixed
    · rw [get?_set_of_ne hq] at hb
      exact hk.constant q' b hb hfixed
  have hagree : ∀ {α : Type} {p : Plan α}, (∀ q' ∈ p.asked (k.said m), k.Settled m q') →
      p.result ((k.set q a).said m) = p.result (k.said m) ∧
        p.asked ((k.set q a).said m) = p.asked (k.said m) := fun hp =>
    agree fun q' hq' => said_of_extends hext hk.constant hconstant (hp q' hq')
  have hself : ∀ q' ∈ (m.valueRule u q).asked (k.said m), k.Settled m q' := fun q' hq' =>
    hasked q' (valueRule_asked hq')
  refine ⟨hk.fits.set _, hconstant, fun q' b hT hb => ?_, fun q' hT hb q'' hq'' => ?_⟩
  · by_cases hq : q' = q
    · subst hq
      rcases get?_set k q' a with hset | hset
      · obtain rfl := Option.some.inj (hset.symm.trans hb)
        rw [(hagree hself).1, valueRule_result]
        exact ha
      · have hb := hset.symm.trans hb
        rw [(hagree (hk.settled q' hT (by rw [hb]; rfl))).1]
        exact hk.right q' b hT hb
    · rw [get?_set_of_ne hq] at hb
      rw [(hagree (hk.settled q' hT (by rw [hb]; rfl))).1]
      exact hk.right q' b hT hb
  · refine hext.settled ?_
    by_cases hq : q' = q
    · subst hq
      rw [(hagree hself).2] at hq''
      exact hself q'' hq''
    · rw [get?_set_of_ne hq] at hb
      have hsettled := hk.settled q' hT hb
      rw [(hagree hsettled).2] at hq''
      exact hsettled q'' hq''

/-- After that the question is settled, and the memory gives this answer. -/
theorem Backed.said_set (hk : k.Backed m u T) {a : q.Answer} (hext : k.Extends (k.set q a))
    (hasked : ∀ q' ∈ (m.rule u q).asked (k.said m), k.Settled m q')
    (ha : a = (m.rule u q).result (k.said m)) :
    (k.set q a).Settled m q ∧ a = (k.set q a).said m q := by
  have hset := hk.set hext hasked ha
  by_cases hfixed : m.Fixed q.item
  · refine ⟨.inl hfixed, ?_⟩
    rw [hset.constant.fixes q hfixed, ha, hk.constant.fixes.result hfixed]
  rcases q.kept_eq with hkept | ⟨c, rfl | rfl⟩
  · have hself := get?_set_self hk.fits hfixed hkept a
    refine ⟨.inr ?_, (said_of_get? hself).symm⟩
    rw [hkept, hself]
    rfl
  · have hlevel : k.Settled m (.level (.choice c)) :=
      hasked (.level (.choice c)) (by simp [rule, textRule])
    exact ⟨hext.settled hlevel, ha⟩
  · have hvisible : k.Settled m (.visible (.choice c)) :=
      hasked (.visible (.choice c)) (by simp [rule, levelRule])
    exact ⟨hext.settled hvisible, ha⟩

/-! ### What is read -/

/-- When all questions are answered, the answers to backed ones obey the rules. -/
theorem Backed.eq_result (hk : k.Backed m u T) (hv : ∀ q, Answers m u k q (v q)) (hq : T q) :
    v q = (m.rule u q).result v := by
  have hget : ∀ q a, k.get? q = some a → v q = a := fun q a ha =>
    (hv q).unique (answers_of_get? ha)
  have hfixes : m.Fixes v := by
    refine .of_rules (u := u) fun q hfixed => ?_
    cases hget' : k.get? q with
    | some a => exact .inl ((hget q a hget').trans (hk.constant q a hget' hfixed))
    | none => exact .inr (eq_result_of_answers hv hget')
  have hchoice : ∀ c, v (.level (.choice c)) = ⟨v (.visible (.choice c)), false⟩ :=
    fun c => eq_result_of_answers hv rfl
  have htext : ∀ c, v (.text (.choice c)) = ⟨levelWord (v (.visible (.choice c))), false⟩ := by
    intro c
    rw [eq_result_of_answers hv (q := .text (.choice c)) rfl]
    simp [rule, textRule, hchoice]
  cases hget' : k.get? q with
  | none => exact eq_result_of_answers hv hget'
  | some a =>
    have hagree : ∀ q' ∈ (m.valueRule u q).asked (k.said m), v q' = k.said m q' :=
      fun q' hq' => eq_said hfixes hk.constant hget (fun c _ => ⟨hchoice c, htext c⟩)
        (hk.settled q hq (by rw [hget']; rfl) q' hq')
    rw [hget q a hget', hk.right q a hq hget', ← valueRule_result, (agree hagree).1]

end Memory

namespace Evaluating
open Memory
variable {m : Model} {u : UserValues} {T : Query → Prop}

/-- An evaluation keeps questions backed, also when it fails; when it succeeds it loses no answer,
and its result fits the memory that it leaves. -/
def Reads {α : Type} (m : Model) (u : UserValues) (T : Query → Prop) (action : Evaluating α)
    (Q : α → Memory → Prop) : Prop :=
  ∀ e : Evaluation, e.memory.Backed m u T → (stateAfter (action e)).memory.Backed m u T ∧
    Yields action e fun a e' => e.memory.Extends e'.memory ∧ Q a e'.memory

/-- The result is the answer to the question, and the question is settled. -/
def Told (m : Model) (q : Query) (a : q.Answer) (k : Memory) : Prop :=
  k.Settled m q ∧ a = k.said m q

/-- Carrying a plan out asks what the plan asks under the memory, and gives its result. -/
theorem reads_run {α : Type} {ask : (q : Query) → Evaluating q.Answer}
    (hask : ∀ q, Reads m u T (ask q) (Told m q)) :
    ∀ p : Plan α, Reads m u T (p.run ask warn) fun a k =>
      (∀ q ∈ p.asked (k.said m), k.Settled m q) ∧ a = p.result (k.said m)
  | .done _, _, he => ⟨he, .pure ⟨.refl _, fun _ h => absurd h List.not_mem_nil, rfl⟩⟩
  | .warn _ next, _, he => reads_run hask next _ he
  | .ask q next, e, he => by
    obtain ⟨hkeeps, hyields⟩ := hask q e he
    show (stateAfter ((ask q >>= fun a => (next a).run ask warn) e)).memory.Backed m u T ∧
      Yields (ask q >>= fun a => (next a).run ask warn) e _
    rw [Yields, bind_apply]
    cases hq : ask q e with
    | error f e₁ =>
      rw [hq] at hkeeps
      exact ⟨hkeeps, fun _ _ h => nomatch h⟩
    | ok b e₁ =>
      rw [hq] at hkeeps
      obtain ⟨hext, hsettled, rfl⟩ := hyields b e₁ hq
      obtain ⟨hkeeps', hyields'⟩ := reads_run hask (next (e₁.memory.said m q)) e₁ hkeeps
      refine ⟨hkeeps', fun a e₂ h => ?_⟩
      obtain ⟨hext', hsettled', ha⟩ := hyields' a e₂ h
      dsimp only at h
      rw [h] at hkeeps'
      have hsame : e₂.memory.said m q = e₁.memory.said m q :=
        said_of_extends hext' hkeeps.constant hkeeps'.constant hsettled
      refine ⟨hext.trans hext', ?_⟩
      dsimp only
      rw [asked_ask, result_ask, hsame]
      exact ⟨List.forall_mem_cons.mpr ⟨hext'.settled hsettled, hsettled'⟩, ha⟩

theorem reads_readAt : ∀ (depth : Nat) (q : Query), Reads m u T (readAt m u depth q) (Told m q)
  | 0, _, _, he => ⟨he, .throw _⟩
  | depth + 1, q, e, he => by
    have hgrown := yields_readAt (m := m) (u := u) (depth + 1) q e (.refl _)
    rw [Yields, readAt_succ] at hgrown ⊢
    cases hq : e.memory.get? q with
    | some a =>
      refine ⟨he, fun b e' h => ?_⟩
      injection h with hb he'
      subst hb he'
      have hsome : (e.memory.get? q).isSome := by
        rw [hq]
        rfl
      refine ⟨.refl _, .inr ?_, (said_of_get? hq).symm⟩
      rw [kept_of_get? hsome]
      exact hsome
    | none =>
      rw [hq] at hgrown
      obtain ⟨hkeeps, hyields⟩ := reads_run (reads_readAt depth) (m.rule u q) e he
      cases hrun : (m.rule u q).run (readAt m u depth) warn e with
      | error f e₁ =>
        rw [hrun] at hkeeps
        exact ⟨hkeeps, fun _ _ h => nomatch h⟩
      | ok a e₁ =>
        rw [hrun] at hkeeps hgrown
        obtain ⟨hext, hsettled, ha⟩ := hyields a e₁ hrun
        obtain ⟨-, hanswers⟩ := hgrown a _ rfl
        have hextends : e₁.memory.Extends (e₁.memory.set q a) :=
          (yields_run (yields_readAt depth) _ e (.refl _) a e₁ hrun).1.extends_set hanswers
        refine ⟨hkeeps.set hextends hsettled ha, fun b e' h => ?_⟩
        injection h with hb he'
        subst hb he'
        exact ⟨hext.trans hextends, hkeeps.said_set hextends hsettled ha⟩

end Evaluating
end Kconfig
