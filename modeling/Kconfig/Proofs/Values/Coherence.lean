import Kconfig.Proofs.Values.Dependents
/-!
The memory stays coherent.

A memory is coherent when the answers in it are those that recomputing gives, and when whatever
such an answer hangs on is settled: remembered itself, or about an item that never changes. Reading
keeps a memory coherent. So does forgetting from an item, because an answer that hangs on a
forgotten one is about a dependent, whose visibility is remembered; and a change of the user's
values does, once the item that it is about is forgotten.
-/
namespace Kconfig

/-- The question that is remembered for a question: that of a choice's text and level is its
visibility. -/
def Query.kept : Query → Query
  | .text (.choice c) | .level (.choice c) => .visible (.choice c)
  | q => q

theorem Query.item_kept (q : Query) : q.kept.item = q.item := by
  rcases q with (s | c) | (s | c) | i | i | c <;> rfl

theorem Query.kept_eq (q : Query) :
    q.kept = q ∨ ∃ c, q = .text (.choice c) ∨ q = .level (.choice c) := by
  rcases q with (s | c) | (s | c) | i | i | c
  · exact .inl rfl
  · exact .inr ⟨c, .inl rfl⟩
  · exact .inl rfl
  · exact .inr ⟨c, .inr rfl⟩
  all_goals exact .inl rfl

namespace Memory
variable {m : Model} {k k' : Memory} {q q' : Query} {i j : Item}

/-- A memory with room for the answers about a model. -/
def Fits (k : Memory) (m : Model) : Prop :=
  k.symbols.size = m.symbols.size ∧ k.choices.size = m.choices.size

theorem fits_empty (m : Model) : (Memory.empty m).Fits m := by
  simp [Fits, Memory.empty]

/-- A memory without answers has none. -/
theorem get?_empty (m : Model) (q : Query) : (Memory.empty m).get? q = none := by
  have hsymbol : ∀ s, (Memory.empty m).symbol s = {} := fun s => by
    simp only [Memory.symbol, Memory.empty, Array.getElem?_replicate]
    split <;> rfl
  have hchoice : ∀ c, (Memory.empty m).choice c = {} := fun c => by
    simp only [Memory.choice, Memory.empty, Array.getElem?_replicate]
    split <;> rfl
  rcases q with (s | c) | (s | c) | (s | c) | (s | c) | c <;> simp [get?, hsymbol, hchoice]

theorem Fits.set (h : k.Fits m) (a : q.Answer) : (k.set q a).Fits m := by
  rcases q with (s | c) | (s | c) | (s | c) | (s | c) | c <;>
    simpa [Memory.set, modifySymbol, modifyChoice, Fits] using h

theorem Fits.forget (h : k.Fits m) : (k.forget i).Fits m := by
  cases i <;> simpa [Memory.forget, modifySymbol, modifyChoice, Fits] using h

theorem symbol_modifySymbol (k : Memory) (s t : SymbolId) (f : SymbolMemory → SymbolMemory) :
    (k.modifySymbol s f).symbol t = if s = t ∧ t < k.symbols.size then f (k.symbol t)
      else k.symbol t := by
  rw [Memory.symbol, modifySymbol, Array.getElem?_modify]
  by_cases hst : s = t
  · by_cases ht : t < k.symbols.size
    · simp [hst, ht, Memory.symbol]
    · simp [hst, ht, Memory.symbol]
  · simp [hst, Memory.symbol]

theorem choice_modifyChoice (k : Memory) (c d : ChoiceId) (f : ChoiceMemory → ChoiceMemory) :
    (k.modifyChoice c f).choice d = if c = d ∧ d < k.choices.size then f (k.choice d)
      else k.choice d := by
  rw [Memory.choice, modifyChoice, Array.getElem?_modify]
  by_cases hcd : c = d
  · by_cases hd : d < k.choices.size
    · simp [hcd, hd, Memory.choice]
    · simp [hcd, hd, Memory.choice]
  · simp [hcd, Memory.choice]

/-- A new answer leaves the answers to other questions. -/
theorem get?_set_of_ne (h : q' ≠ q) (a : q.Answer) : (k.set q a).get? q' = k.get? q' := by
  rcases q with (s | c) | (s | c) | (s | c) | (s | c) | c <;>
    rcases q' with (s' | c') | (s' | c') | (s' | c') | (s' | c') | c' <;> first
    | rfl
    | simp only [Memory.set, get?, symbol_modifySymbol, choice_modifyChoice]
      split <;> simp_all

/-- Text and level of a choice are not remembered. -/
theorem kept_of_get? (h : (k.get? q).isSome) : q.kept = q := by
  rcases q with (s | c) | (s | c) | i | i | c <;> first | rfl | simp [get?] at h

theorem get?_set_self (hk : k.Fits m) (hq : ¬ m.Fixed q.item) (hkept : q.kept = q)
    (a : q.Answer) : (k.set q a).get? q = some a := by
  have hsymbol : ∀ s, ¬ m.Fixed (.symbol s) → s < k.symbols.size := fun s hs => by
    rw [hk.1]
    exact Nat.lt_of_not_le fun hle => hs (Model.fixed_of_size_le hle)
  have hchoice : ∀ c, ¬ m.Fixed (.choice c) → c < k.choices.size := fun c hc => by
    rw [hk.2]
    exact Nat.lt_of_not_le fun hle => hc (Model.fixed_choice_of_size_le hle)
  rcases q with (s | c) | (s | c) | (s | c) | (s | c) | c
  · simp [Memory.set, get?, symbol_modifySymbol, hsymbol s hq]
  · simp [Query.kept] at hkept
  · simp [Memory.set, get?, symbol_modifySymbol, hsymbol s hq]
  · simp [Query.kept] at hkept
  · simp [Memory.set, get?, symbol_modifySymbol, hsymbol s hq]
  · simp [Memory.set, get?, choice_modifyChoice, hchoice c hq]
  · simp [Memory.set, get?, symbol_modifySymbol, hsymbol s hq]
  · simp [Memory.set, get?, choice_modifyChoice, hchoice c hq]
  · simp [Memory.set, get?, choice_modifyChoice, hchoice c hq]

theorem get?_set (k : Memory) (q : Query) (a : q.Answer) :
    (k.set q a).get? q = some a ∨ (k.set q a).get? q = k.get? q := by
  rcases q with (s | c) | (s | c) | (s | c) | (s | c) | c <;> first
    | exact .inr rfl
    | simp only [Memory.set, get?, symbol_modifySymbol, choice_modifyChoice]
      split
      · exact .inl rfl
      · exact .inr rfl

/-- Forgetting an item leaves the answers about others. -/
theorem get?_forget (k : Memory) (i : Item) (q : Query) :
    (k.forget i).get? q = if q.item = i then none else k.get? q := by
  have hsymbol : ∀ s, (k.modifySymbol s fun _ => {}).symbol s = {} := by
    intro s
    rw [symbol_modifySymbol]
    split
    · rfl
    · next hs =>
      rw [Memory.symbol, Array.getElem?_eq_none (Nat.le_of_not_lt fun h => hs ⟨rfl, h⟩)]
      rfl
  have hchoice : ∀ c, (k.modifyChoice c fun _ => {}).choice c = {} := by
    intro c
    rw [choice_modifyChoice]
    split
    · rfl
    · next hc =>
      rw [Memory.choice, Array.getElem?_eq_none (Nat.le_of_not_lt fun h => hc ⟨rfl, h⟩)]
      rfl
  split
  · next hi =>
    subst hi
    rcases q with (s | c) | (s | c) | (s | c) | (s | c) | c <;>
      simp [Memory.forget, get?, Query.item, hsymbol, hchoice]
  · next hi =>
    cases i with
    | symbol t =>
      rcases q with (s | c) | (s | c) | (s | c) | (s | c) | c <;> first
        | rfl
        | simp [Memory.forget, get?, symbol_modifySymbol, show t ≠ s from fun h => hi (h ▸ rfl)]
    | choice t =>
      rcases q with (s | c) | (s | c) | (s | c) | (s | c) | c <;> first
        | rfl
        | simp [Memory.forget, get?, choice_modifyChoice, show t ≠ c from fun h => hi (h ▸ rfl)]

/-- Every answer of a memory is in another one. -/
def Extends (k k' : Memory) : Prop := ∀ q a, k.get? q = some a → k'.get? q = some a

theorem Extends.refl (k : Memory) : k.Extends k := fun _ _ h => h

theorem Extends.trans {k'' : Memory} (h : k.Extends k') (h' : k'.Extends k'') : k.Extends k'' :=
  fun q a hq => h' q a (h q a hq)

theorem Extends.isSome (h : k.Extends k') (hq : (k.get? q).isSome) : (k'.get? q).isSome := by
  obtain ⟨a, ha⟩ := Option.isSome_iff_exists.mp hq
  rw [h q a ha]
  rfl

/-- Remembering an answer again loses nothing. -/
theorem extends_set {a : q.Answer} (h : ∀ b, k.get? q = some b → b = a) :
    k.Extends (k.set q a) := by
  intro q' b hq'
  by_cases hq : q' = q
  · subst hq
    rcases get?_set k q' a with hset | hset
    · rw [hset, h b hq']
    · rw [hset, hq']
  · rw [get?_set_of_ne hq, hq']

/-- Whatever hangs on the question's answer can rely on it: it is remembered, or never changes. -/
def Settled (m : Model) (k : Memory) (q : Query) : Prop :=
  m.Fixed q.item ∨ (k.get? q.kept).isSome

theorem Extends.settled (h : k.Extends k') (hq : k.Settled m q) : k'.Settled m q :=
  hq.imp_right h.isSome

/-- What is remembered are answers of a valuation. -/
def Right (v : Valuation) (k : Memory) : Prop := ∀ q a, k.get? q = some a → a = v q

/-- One more answer of the valuation is remembered. -/
theorem Right.set {v : Valuation} (h : k.Right v) (q : Query) : (k.set q (v q)).Right v := by
  intro q' a ha
  by_cases hq : q' = q
  · subst hq
    rcases get?_set k q' (v q') with hset | hset
    · exact Option.some.inj (ha.symm.trans hset)
    · exact h q' a (hset.symm.trans ha)
  · rw [get?_set_of_ne hq] at ha
    exact h q' a ha

end Memory

/-- The memory holds the answers that the rules give, and with each one what it hangs on. -/
structure Memory.Coherent (k : Memory) (m : Model) (u : UserValues) (v : Valuation) : Prop where
  fits : k.Fits m
  right : ∀ q a, k.get? q = some a → a = v q
  backed : ∀ q, (k.get? q).isSome → ∀ q' ∈ (m.valueRule u q).asked v, k.Settled m q'

namespace Evaluating
open Plan Memory
variable {m : Model} {u : UserValues} {v : Valuation}

/-! ### Reading -/

theorem coherent_empty : (Memory.empty m).Coherent m u v := by
  refine ⟨fits_empty m, fun q a h => ?_, fun q h => ?_⟩
  · rw [get?_empty] at h
    exact nomatch h
  · rw [get?_empty] at h
    exact nomatch h

/-- Remembering the right answer to a question whose rule's questions are settled. -/
theorem coherent_set {k : Memory} (hk : k.Coherent m u v) {q : Query}
    (hasked : ∀ q' ∈ (m.valueRule u q).asked v, k.Settled m q') :
    (k.set q (v q)).Coherent m u v := by
  have hextends := extends_set (hk.right q)
  have hright : (k.set q (v q)).Right v := Right.set hk.right q
  refine ⟨hk.fits.set _, hright, fun q' h q'' hq'' => hextends.settled ?_⟩
  by_cases hq : q' = q
  · subst hq
    exact hasked q'' hq''
  · rw [get?_set_of_ne hq] at h
    exact hk.backed q' h q'' hq''

/-- A question whose rule's questions are settled is settled once its answer is remembered. -/
theorem settled_set {k : Memory} (hk : k.Coherent m u v) {q : Query}
    (hasked : ∀ q' ∈ (m.valueRule u q).asked v, k.Settled m q') :
    (k.set q (v q)).Settled m q := by
  by_cases hfixed : m.Fixed q.item
  · exact .inl hfixed
  have hextends := extends_set (hk.right q)
  rcases q.kept_eq with hkept | ⟨c, rfl | rfl⟩
  · refine .inr ?_
    rw [hkept, get?_set_self hk.fits hfixed hkept]
    rfl
  · exact hextends.settled <| hasked (.level (.choice c)) <| by
      simp [Model.valueRule, Model.rule, Model.textRule]
  · exact hextends.settled <| hasked (.visible (.choice c)) <| by
      simp [Model.valueRule, Model.rule, Model.levelRule]

/-- An evaluation gives a result, keeps its memory coherent, and leaves questions settled. -/
def Gives {α : Type} (m : Model) (u : UserValues) (v : Valuation) (action : Evaluating α) (a : α)
    (qs : List Query) : Prop :=
  ∀ e : Evaluation, e.memory.Coherent m u v → ∃ e', action e = .ok a e' ∧
    e'.memory.Coherent m u v ∧ e.memory.Extends e'.memory ∧ ∀ q ∈ qs, e'.memory.Settled m q

/-- Carrying a plan out gives its result when asking its questions gives their answers. -/
theorem gives_run {α : Type} {ask : (q : Query) → Evaluating q.Answer} : ∀ {p : Plan α},
    (∀ q ∈ p.asked v, Gives m u v (ask q) (v q) [q]) →
    Gives m u v (p.run ask warn) (p.result v) (p.asked v)
  | .done a, _, e, he => ⟨e, rfl, he, .refl _, fun _ h => absurd h List.not_mem_nil⟩
  | .warn w next, h, e, he => gives_run (p := next) h _ he
  | .ask q next, h, e, he => by
    obtain ⟨e₁, hrun₁, he₁, hextends₁, hsettled₁⟩ := h q (List.mem_cons_self ..) e he
    obtain ⟨e₂, hrun₂, he₂, hextends₂, hsettled₂⟩ := gives_run (p := next (v q))
      (fun q' hq' => h q' (List.mem_cons_of_mem _ hq')) e₁ he₁
    refine ⟨e₂, ?_, he₂, hextends₁.trans hextends₂, ?_⟩
    · show EStateM.bind (ask q) (fun a => (next a).run ask warn) e = _
      rw [EStateM.bind, hrun₁]
      exact hrun₂
    · rw [asked_ask, List.forall_mem_cons]
      exact ⟨hextends₂.settled (hsettled₁ q (List.mem_cons_self ..)), hsettled₂⟩

/-- A reading step: the remembered answer, or the answer of the rule, which is remembered. -/
theorem readAt_succ (depth : Nat) (q : Query) (e : Evaluation) :
    readAt m u (depth + 1) q e = match e.memory.get? q with
      | some a => .ok a e
      | none => match (m.rule u q).run (readAt m u depth) warn e with
        | .ok a e' => .ok a { e' with memory := e'.memory.set q a }
        | .error f e' => .error f e' := by
  rw [readAt]
  show (match e.memory.get? q with
    | some a => pure a
    | none => _ : Evaluating q.Answer) e = _
  cases e.memory.get? q with
  | some a => rfl
  | none =>
    show EStateM.bind _ _ e = _
    rw [EStateM.bind]
    cases (m.rule u q).run (readAt m u depth) warn e with
    | ok a e' => rfl
    | error f e' => rfl

/-- Reading gives the answer that the rules give, whatever is remembered. -/
theorem gives_readAt (hv : m.Solves u v) : ∀ {depth : Nat} {q : Query},
    recomputeAt m u depth q = some (v q) → Gives m u v (readAt m u depth q) (v q) [q]
  | 0, _, h => nomatch h
  | depth + 1, q, h => by
    intro e he
    rw [readAt_succ]
    simp only [List.mem_singleton, forall_eq]
    cases hq : e.memory.get? q with
    | some a =>
      have hsome : (e.memory.get? q).isSome := by
        rw [hq]
        rfl
      refine ⟨e, ?_, he, .refl _, .inr ?_⟩
      · rw [he.right q a hq]
      · rw [kept_of_get? hsome]
        exact hsome
    | none =>
      have hbelow := hv.recomputeAt_succ_iff.mp h
      obtain ⟨e', hrun, he', hextends, hsettled⟩ :=
        gives_run (fun q' hq' => gives_readAt hv (hbelow q' hq')) e he
      rw [hrun, ← hv.eq_result]
      have hasked : ∀ q' ∈ (m.valueRule u q).asked v, e'.memory.Settled m q' := fun q' h =>
        hsettled q' (Model.valueRule_asked h)
      exact ⟨_, rfl, coherent_set he' hasked, hextends.trans (extends_set (he'.right q)),
        settled_set he' hasked⟩

/-- Carrying a plan out with a coherent memory gives what it gives under the valuation, and leaves
the memory coherent. -/
theorem gives_follow {α : Type} (hv : m.Solves u v) (p : Plan α) :
    Gives m u v (follow m u p) (p.result v) (p.asked v) :=
  gives_run fun q _ => gives_readAt hv (hv.recompute_eq q)

end Evaluating
end Kconfig
