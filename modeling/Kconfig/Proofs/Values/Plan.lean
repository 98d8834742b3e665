import Kconfig.Values.Memory
/-!
Plans under a valuation.

A valuation answers every question. Under it a plan has a result and a list of questions that it
asks, and both hang on nothing but the answers to these questions. Carrying a plan out with partial
answers succeeds exactly when all of its questions are answered.
-/
namespace Kconfig

/-- An answer to every question. -/
abbrev Valuation := (q : Query) → q.Answer

namespace Plan
variable {α β : Type}

/-- What a plan gives when a valuation answers its questions. -/
def result (v : Valuation) : Plan α → α
  | .done a => a
  | .ask q next => (next (v q)).result v
  | .warn _ next => next.result v

/-- The questions that a plan asks when a valuation answers them, in order. -/
def asked (v : Valuation) : Plan α → List Query
  | .done _ => []
  | .ask q next => q :: (next (v q)).asked v
  | .warn _ next => next.asked v

variable (v : Valuation)

@[simp] theorem result_done (a : α) : (Plan.done a).result v = a := rfl
@[simp] theorem asked_done (a : α) : (Plan.done a).asked v = [] := rfl
@[simp] theorem result_pure (a : α) : (pure a : Plan α).result v = a := rfl
@[simp] theorem asked_pure (a : α) : (pure a : Plan α).asked v = [] := rfl

@[simp] theorem result_ask (q : Query) (next : q.Answer → Plan α) :
    (Plan.ask q next).result v = (next (v q)).result v := rfl
@[simp] theorem asked_ask (q : Query) (next : q.Answer → Plan α) :
    (Plan.ask q next).asked v = q :: (next (v q)).asked v := rfl

@[simp] theorem result_bind (p : Plan α) (f : α → Plan β) :
    (p >>= f).result v = (f (p.result v)).result v := by
  show (p.bind f).result v = _
  induction p with
  | done a => rfl
  | ask q next ih => exact ih (v q)
  | warn w next ih => exact ih

@[simp] theorem asked_bind (p : Plan α) (f : α → Plan β) :
    (p >>= f).asked v = p.asked v ++ (f (p.result v)).asked v := by
  show (p.bind f).asked v = _
  induction p with
  | done a => rfl
  | ask q next ih => exact congrArg (q :: ·) (ih (v q))
  | warn w next ih => exact ih

@[simp] theorem result_ite (c : Prop) [Decidable c] (p p' : Plan α) :
    (if c then p else p').result v = if c then p.result v else p'.result v := by
  split <;> rfl

@[simp] theorem asked_ite (c : Prop) [Decidable c] (p p' : Plan α) :
    (if c then p else p').asked v = if c then p.asked v else p'.asked v := by
  split <;> rfl

@[simp] theorem result_text (i : Item) : (text i).result v = (v (.text i)).value := rfl
@[simp] theorem asked_text (i : Item) : (text i).asked v = [.text i] := rfl
@[simp] theorem result_level (i : Item) : (level i).result v = (v (.level i)).value := rfl
@[simp] theorem asked_level (i : Item) : (level i).asked v = [.level i] := rfl
@[simp] theorem result_visible (i : Item) : (visible i).result v = v (.visible i) := rfl
@[simp] theorem asked_visible (i : Item) : (visible i).asked v = [.visible i] := rfl
@[simp] theorem result_selection (c : ChoiceId) : (selection c).result v = v (.selection c) := rfl
@[simp] theorem asked_selection (c : ChoiceId) : (selection c).asked v = [.selection c] := rfl
@[simp] theorem result_tell (w : Warning) : (tell w).result v = () := rfl
@[simp] theorem asked_tell (w : Warning) : (tell w).asked v = [] := rfl

variable {v} {v' : Valuation}

/-- A plan hangs on the answers to its questions only: another valuation that gives the same
answers makes it ask the same questions and give the same result. -/
theorem agree {p : Plan α} (h : ∀ q ∈ p.asked v, v' q = v q) :
    p.result v' = p.result v ∧ p.asked v' = p.asked v := by
  induction p with
  | done a => exact ⟨rfl, rfl⟩
  | ask q next ih =>
    have hq : v' q = v q := h q (List.mem_cons_self ..)
    have hrest := ih (v q) fun q' hq' => h q' (List.mem_cons_of_mem _ hq')
    simp only [result_ask, asked_ask, hq]
    exact ⟨hrest.1, congrArg (q :: ·) hrest.2⟩
  | warn w next ih => exact ih h

/-- Carrying a plan out with partial answers that agree with a valuation succeeds exactly when all
its questions have answers, and then gives the plan's result. -/
theorem run_eq_some_iff {ask : (q : Query) → Option q.Answer}
    (h : ∀ q a, ask q = some a → a = v q) {p : Plan α} {a : α} :
    p.run ask (fun _ => some ()) = some a ↔
      (∀ q ∈ p.asked v, ask q = some (v q)) ∧ a = p.result v := by
  induction p with
  | done b =>
    constructor
    · intro hb
      exact ⟨fun _ hq => absurd hq List.not_mem_nil, (Option.some.inj hb).symm⟩
    · rintro ⟨-, rfl⟩
      rfl
  | ask q next ih =>
    show ((ask q).bind fun b => (next b).run ask fun _ => some ()) = some a ↔ _
    simp only [asked_ask, result_ask, List.forall_mem_cons]
    cases hq : ask q with
    | none => simp
    | some b =>
      obtain rfl := h q b hq
      simp [ih]
  | warn w next ih => exact ih

/-- Partial answers carry a plan out part by part. -/
theorem run_bind (p : Plan α) (f : α → Plan β) (ask : (q : Query) → Option q.Answer) :
    (p >>= f).run ask (fun _ => some ()) =
      (p.run ask fun _ => some ()).bind fun a => (f a).run ask fun _ => some () := by
  show (p.bind f).run ask _ = _
  induction p with
  | done a => rfl
  | ask q next ih =>
    show (ask q).bind (fun b => ((next b).bind f).run ask _) =
      ((ask q).bind fun b => (next b).run ask _).bind _
    rw [Option.bind_assoc]
    congr 1
    funext b
    exact ih b
  | warn w next ih => exact ih

/-- When a plan's questions have the answers of a valuation, carrying it out gives its result. -/
theorem run_of_asked {ask : (q : Query) → Option q.Answer} {p : Plan α}
    (h : ∀ q ∈ p.asked v, ask q = some (v q)) : p.run ask (fun _ => some ()) = some (p.result v) := by
  induction p with
  | done a => rfl
  | ask q next ih =>
    show ((ask q).bind fun b => (next b).run ask fun _ => some ()) = some _
    rw [h q (List.mem_cons_self ..)]
    exact ih (v q) fun q' hq' => h q' (List.mem_cons_of_mem _ hq')
  | warn w next ih => exact ih h

/-- More answers do not change what carrying a plan out gives. -/
theorem run_mono {ask ask' : (q : Query) → Option q.Answer}
    (h : ∀ q a, ask q = some a → ask' q = some a) {p : Plan α} {a : α}
    (ha : p.run ask (fun _ => some ()) = some a) : p.run ask' (fun _ => some ()) = some a := by
  induction p with
  | done b => exact ha
  | ask q next ih =>
    change ((ask q).bind fun b => (next b).run ask fun _ => some ()) = some a at ha
    show ((ask' q).bind fun b => (next b).run ask' fun _ => some ()) = some a
    obtain ⟨b, hb, hrest⟩ := Option.bind_eq_some_iff.mp ha
    rw [h q b hb]
    exact ih b hrest
  | warn w next ih => exact ih ha

end Plan
end Kconfig
