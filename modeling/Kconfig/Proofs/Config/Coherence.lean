import Kconfig.Proofs.Config.Steps
import Kconfig.Proofs.Values.Change
/-!
Configurations stay coherent.

Every act on a configuration keeps its memory coherent with what the user gave: giving a value and
taking it away, loading a file, and asking. So an answer that is asked for is always the one that
recomputing from the user's values alone gives.
-/
namespace Kconfig
open Plan Memory

/-- A configuration of a model whose memory holds what the user's values give. -/
structure Configuration.Coherent (m : Model) (c : Configuration) : Prop where
  model : c.model = m
  dependents : c.dependents = m.dependents
  permits : m.Permits c.user
  memory : ∀ v, m.Solves c.user v → c.memory.Coherent m c.user v

/-- A sound and tidy model whose values terminate for all values that users can give. -/
structure Model.Reliable (m : Model) : Prop where
  sound : m.Sound
  tidy : m.Tidy
  terminates : ∀ u, m.Permits u → m.Terminates u

variable {m : Model} {u u' : UserValues} {c c' : Configuration}

/-! ### Changes -/

namespace Configuration.Coherent

/-- A change of the user's values keeps a configuration coherent when the answers that see it are
forgotten. -/
theorem changed (hr : m.Reliable) (hc : c.Coherent m) (hmodel : c'.model = m)
    (hdependents : c'.dependents = m.dependents) (hpermits : m.Permits c'.user)
    (hmemory : c'.memory = c.memory ∨ ∃ i, c'.memory = c.memory.forgetFrom m.dependents i)
    (hsame : ∀ v, m.Solves c.user v → ∀ q, (c'.memory.get? q.kept).isSome →
      m.SameValue c.user c'.user v q) : c'.Coherent m := by
  refine ⟨hmodel, hdependents, hpermits, fun v' hv' => ?_⟩
  obtain ⟨v, hv⟩ := (hr.terminates c.user hc.permits).solution
  have hk := hc.memory v hv
  have hk' : c'.memory.Coherent m c.user v := by
    rcases hmemory with heq | ⟨i, heq⟩
    · rw [heq]
      exact hk
    · rw [heq]
      exact hk.forget hr.sound hr.tidy hc.permits hv (forgot_forgetFrom ..)
  exact hk'.change hv hv' (hsame v hv)

/-- What is remembered after forgetting from an item is not about it. -/
theorem not_about {i : Item} {k : Memory} {q : Query}
    (h : ((k.forgetFrom m.dependents i).get? q.kept).isSome) : q.item ≠ i := by
  intro hi
  rw [(forgot_forgetFrom m.dependents k i).gone q.kept (q.item_kept.trans hi)] at h
  exact nomatch h

/-- Changing a symbol's value keeps a configuration coherent once the symbol is forgotten, which it
need not be without a prompt. -/
theorem value_set (hr : m.Reliable) (hc : c.Coherent m) {s : SymbolId} {g : Option UserValue}
    (hg : ∀ a, g = some a → ∃ b, (c.model.symbol s).type.accept? b = some a) :
    Coherent m { c with
      user.values := c.user.values.setIfInBounds s g
      memory := c.remembered s } := by
  have hpermits := hc.permits.setValue (hc.model ▸ hg)
  have hother : ∀ v q, q.item ≠ .symbol s → m.SameValue c.user
      { c.user with values := c.user.values.setIfInBounds s g } v q := fun v q hq =>
    .of_eq <| Model.valueRule_congr
      (fun t ht => c.user.value_set_of_ne (fun hst : s = t => hq (hst ▸ ht)) g) fun _ _ => rfl
  by_cases hprompt : (c.model.symbol s).nodes.any fun n => (c.model.node n).prompt.isSome
  · have hmemory : c.remembered s = c.memory.forgetFrom m.dependents (.symbol s) := by
      rw [remembered, if_pos hprompt, hc.dependents]
    refine changed hr hc hc.model hc.dependents hpermits (.inr ⟨_, hmemory⟩) fun v hv q hq => ?_
    change ((c.remembered s).get? q.kept).isSome at hq
    rw [hmemory] at hq
    exact hother v q (not_about hq)
  · have hmemory : c.remembered s = c.memory := if_neg hprompt
    refine changed hr hc hc.model hc.dependents hpermits (.inl hmemory) fun v hv q _ => ?_
    by_cases hq : q.item = .symbol s
    · rw [hc.model, Bool.not_eq_true] at hprompt
      exact .of_hidden hq (hv.hidden_of_promptless hprompt)
    · exact hother v q hq

/-- No step makes a configuration incoherent. -/
theorem kept (hr : m.Reliable) : Kept (Coherent m) := by
  intro c c' hstep hc
  cases hstep with
  | note h =>
    refine ⟨h.model.trans hc.model, h.dependents.trans hc.dependents, ?_, ?_⟩
    · rw [h.user]
      exact hc.permits
    · rw [h.user, h.memory]
      exact hc.memory
  | value s g hg => exact value_set hr hc hg
  | select s ch a hchoice htype ha =>
    rw [hc.model] at hchoice htype ha
    have hpermits := hc.permits.select hchoice htype ha
    refine changed hr hc hc.model hc.dependents hpermits (.inr ⟨.choice ch, ?_⟩) fun v hv q hq => ?_
    · exact congrArg (c.memory.forgetFrom · _) hc.dependents
    · change ((c.memory.forgetFrom c.dependents (.choice ch)).get? q.kept).isSome at hq
      rw [hc.dependents] at hq
      by_cases hs : q.item = .symbol s
      · exact .of_eq (Model.valueRule_of_member hs htype hchoice)
      · refine .of_eq (Model.valueRule_congr (fun t ht => ?_) fun d hd => ?_)
        · exact c.user.value_set_of_ne
            (fun hst => hs (ht.trans (congrArg Item.symbol hst.symm))) _
        · exact c.user.selection_set_of_ne
            (fun hcd => not_about hq (hd.trans (congrArg Item.choice hcd.symm))) _
  | mode ch g =>
    refine changed hr hc hc.model hc.dependents ⟨hc.permits.value, hc.permits.selection⟩
      (.inr ⟨.choice ch, ?_⟩) fun v _ q _ => ?_
    · exact congrArg (c.memory.forgetFrom · _) hc.dependents
    · exact .of_eq (Model.valueRule_congr (fun _ _ => rfl) fun _ _ => rfl)
  | unselect ch =>
    refine changed hr hc hc.model hc.dependents (hc.permits.unselect ch _)
      (.inr ⟨.choice ch, ?_⟩) fun v _ q hq => ?_
    · exact congrArg (c.memory.forgetFrom · _) hc.dependents
    · change ((c.memory.forgetFrom c.dependents (.choice ch)).get? q.kept).isSome at hq
      rw [hc.dependents] at hq
      refine .of_eq (Model.valueRule_congr (fun t ht => rfl) fun d hd => ?_)
      exact c.user.selection_set_of_ne
        (fun hcd => not_about hq (hd.trans (congrArg Item.choice hcd.symm))) _

theorem keptByFiles : KeptByFiles (Coherent m) :=
  fun _ _ hc => ⟨hc.model, hc.dependents, hc.permits, hc.memory⟩

end Configuration.Coherent

namespace Configuration

/-- A configuration of a model that remembers nothing. -/
structure Forgetful (m : Model) (c : Configuration) : Prop where
  model : c.model = m
  fits : c.memory.Fits m
  none : ∀ q, c.memory.get? q = none

theorem Forgetful.coherent (h : c.Forgetful m) (u : UserValues) (v : Valuation) :
    c.memory.Coherent m u v := by
  refine ⟨h.fits, fun q a hq => ?_, fun q hq => ?_⟩
  · exact nomatch (h.none q).symm.trans hq
  · rw [h.none] at hq
    exact nomatch hq

/-- Steps bring nothing to mind. -/
theorem kept_forgetful (m : Model) : Kept (Forgetful m) := by
  intro c c' hstep hc
  have hforgets : ∀ d i, (c.memory.forgetFrom d i).Fits m ∧
      ∀ q, (c.memory.forgetFrom d i).get? q = none := by
    intro d i
    have hforgot := forgot_forgetFrom d c.memory i
    refine ⟨hforgot.fits hc.fits, fun q => ?_⟩
    cases hq : (c.memory.forgetFrom d i).get? q with
    | none => rfl
    | some a => exact nomatch (hc.none q).symm.trans (hforgot.get? hq).2
  cases hstep with
  | note h =>
    refine ⟨h.model.trans hc.model, ?_, ?_⟩
    · rw [h.memory]
      exact hc.fits
    · rw [h.memory]
      exact hc.none
  | value s g hg =>
    have hremembered : (c.remembered s).Fits m ∧ ∀ q, (c.remembered s).get? q = none := by
      unfold remembered
      split
      · exact hforgets _ _
      · exact ⟨hc.fits, hc.none⟩
    exact ⟨hc.model, hremembered.1, hremembered.2⟩
  | select s d a hchoice htype ha => exact ⟨hc.model, (hforgets _ _).1, (hforgets _ _).2⟩
  | mode d g => exact ⟨hc.model, (hforgets _ _).1, (hforgets _ _).2⟩
  | unselect d => exact ⟨hc.model, (hforgets _ _).1, (hforgets _ _).2⟩

end Configuration

namespace Configuring
open Kconfig.Configuration

/-! ### Reading and asking -/

theorem reading_apply {α : Type} (action : Reading α) (c : Configuration) :
    reading action c = match action c.toWorkspace with
      | .ok a w => .ok a { c with toWorkspace := w }
      | .error e w => .error e { c with toWorkspace := w } := by
  show (match action.run c.toWorkspace with
    | .ok a w => _
    | .error e w => _ : Configuring α) c = _
  rw [EStateM.run]
  cases action c.toWorkspace <;> rfl

theorem follow_apply {α : Type} (p : Plan α) (c : Configuration) :
    follow p c = match Evaluating.follow c.model c.user p ⟨c.memory, c.journal⟩ with
      | .ok a e => .ok a { c with memory := e.memory, journal := e.journal }
      | .error f e => .error f { c with memory := e.memory, journal := e.journal } := by
  show (match (Evaluating.follow c.model c.user p).run ⟨c.memory, c.journal⟩ with
    | .ok a e => _
    | .error f e => _ : Configuring α) c = _
  rw [EStateM.run]
  cases Evaluating.follow c.model c.user p ⟨c.memory, c.journal⟩ <;> rfl

/-- A plan is followed with what is remembered and told, and changes nothing else. -/
theorem follow_ok {α : Type} {p : Plan α} {a : α} {c c' : Configuration}
    (h : follow p c = .ok a c') : ∃ e,
      Evaluating.follow c.model c.user p ⟨c.memory, c.journal⟩ = .ok a e ∧
        c' = { c with memory := e.memory, journal := e.journal } := by
  rw [follow_apply] at h
  cases hfollow : Evaluating.follow c.model c.user p ⟨c.memory, c.journal⟩ with
  | error f e =>
    rw [hfollow] at h
    cases h
  | ok b e =>
    rw [hfollow] at h
    injection h with hb hc
    exact ⟨e, congrArg (EStateM.Result.ok · e) hb, hc.symm⟩

/-- So it is when the plan cannot be followed to its end. -/
theorem stateAfter_follow {α : Type} (p : Plan α) (c : Configuration) :
    let e := stateAfter (Evaluating.follow c.model c.user p ⟨c.memory, c.journal⟩)
    stateAfter (follow p c) = { c with memory := e.memory, journal := e.journal } := by
  rw [follow_apply]
  cases Evaluating.follow c.model c.user p ⟨c.memory, c.journal⟩ <;> rfl

/-- What is asked for is read. -/
theorem read_of_ask {q : Query} {a : q.Answer} {c c' : Configuration} (h : ask q c = .ok a c') :
    ∃ e, Evaluating.read c.model c.user q ⟨c.memory, c.journal⟩ = .ok a e ∧
      c' = { c with memory := e.memory, journal := e.journal } := by
  obtain ⟨e, hfollow, hc⟩ := follow_ok h
  have hread : Evaluating.follow c.model c.user (.ask q .done) =
      Evaluating.read c.model c.user q := bind_pure (Evaluating.read c.model c.user q)
  exact ⟨e, hread ▸ hfollow, hc⟩

/-- To follow a plan that asks a question first is to ask it and to follow the rest. -/
theorem follow_ask {α : Type} {q : Query} {a : q.Answer} {c c' : Configuration}
    (hask : ask q c = .ok a c') (next : q.Answer → Plan α) :
    follow (.ask q next) c = follow (next a) c' := by
  have hnext : Evaluating.follow c.model c.user (.ask q next) =
      (Evaluating.read c.model c.user q >>= fun a => Evaluating.follow c.model c.user (next a)) := rfl
  obtain ⟨e, hread, rfl⟩ := read_of_ask hask
  rw [follow_apply, hnext, bind_apply, hread, follow_apply (next a)]

/-- Following a plan with a coherent memory gives what it gives under the values of the user, and
changes nothing but the memory and the journal. -/
theorem follow_of_memory {α : Type} {v : Valuation} (hmodel : c.model = m)
    (hmemory : c.memory.Coherent m c.user v) (hv : m.Solves c.user v) (p : Plan α) :
    ∃ memory journal, follow p c = .ok (p.result v) { c with memory, journal } ∧
      memory.Coherent m c.user v := by
  obtain ⟨e, hfollow, he, -, -⟩ := Evaluating.gives_follow hv p ⟨c.memory, c.journal⟩ hmemory
  refine ⟨e.memory, e.journal, ?_, he⟩
  rw [follow_apply, hmodel, hfollow]

theorem follow_eq {α : Type} {v : Valuation} (hc : c.Coherent m) (hv : m.Solves c.user v)
    (p : Plan α) : ∃ memory journal, follow p c = .ok (p.result v) { c with memory, journal } ∧
      memory.Coherent m c.user v :=
  follow_of_memory hc.model (hc.memory v hv) hv p

theorem keeps_follow (hr : m.Reliable) {α : Type} (p : Plan α) : Keeps (Coherent m) (follow p) := by
  intro c hc
  obtain ⟨v, hv⟩ := (hr.terminates c.user hc.permits).solution
  obtain ⟨memory, journal, hfollow, hmemory⟩ := follow_eq hc hv p
  unfold KeepsAt
  rw [hfollow]
  refine ⟨hc.model, hc.dependents, hc.permits, fun v' hv' => ?_⟩
  rw [hv.unique hv']
  exact hmemory

/-- An answer that is asked for is the one that recomputing gives. -/
theorem ask_eq (hr : m.Reliable) (hc : c.Coherent m) (q : Query) :
    ∃ a c', ask q c = .ok a c' ∧ recompute m c.user q = some a := by
  obtain ⟨v, hv⟩ := (hr.terminates c.user hc.permits).solution
  obtain ⟨memory, journal, hfollow, -⟩ := follow_eq hc hv (.ask q .done)
  exact ⟨v q, _, hfollow, hv.recompute_eq q⟩

end Configuring
end Kconfig
