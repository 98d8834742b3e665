import Kconfig.Proofs.Config.Selected
/-!
Answers that no choice decides obey the rules after any history.

A choice may select something that is not its member, and then what it selected can stay remembered
when it should not, and so can the levels of its members. All other questions hang on items that
know their dependents. So whatever was done before, the answers to these are those that the rules
make of everything else that is read, also where other answers are out of date.
-/
namespace Kconfig
open Plan Memory

variable {m : Model} {u u' : UserValues} {c c' : Configuration} {q q' : Query} {k : Memory}

namespace Model

/-- A question about neither the selection of a choice nor the level of a member. -/
structure Direct (m : Model) (q : Query) : Prop where
  selection : ∀ ch, q ≠ .selection ch
  member : ∀ s ch, q = .level (.symbol s) → (m.symbol s).choice ≠ some ch

theorem direct_visible (m : Model) (i : Item) : m.Direct (.visible i) := ⟨nofun, nofun⟩

theorem direct_text (m : Model) (i : Item) : m.Direct (.text i) := ⟨nofun, nofun⟩

/-- A direct question hangs on items that know their dependents. -/
theorem Direct.dependent (hq : m.Direct q) (hm : m.Sound) {v : Valuation} (hv : m.Fixes v)
    (hq' : q' ∈ (m.valueRule u q).asked v) :
    q'.item = q.item ∨ m.Fixed q'.item ∨ q.item ∈ m.dependents.of q'.item :=
  hm.dependent_of hv (fun ch _ hselection => absurd hselection (hq.selection ch))
    (fun s ch hlevel hch => absurd hch (hq.member s ch hlevel)) hq'

/-- Of what the user gives, a direct question takes at most the value of its own symbol. -/
theorem Direct.valueRule_congr (hq : m.Direct q)
    (hvalue : ∀ s, q.item = .symbol s → u'.value s = u.value s) :
    m.valueRule u' q = m.valueRule u q := by
  have hselections : m.valueRule u' q = m.valueRule { u' with selections := u.selections } q := by
    rcases q with (s | ch) | (s | ch) | i | i | ch
    case selection => exact absurd rfl (hq.selection ch)
    all_goals rfl
  exact hselections.trans (Model.valueRule_congr hvalue fun _ _ => rfl)

end Model

/-- When its visibility is backed, a memory says of no symbol without a prompt that it is
visible. -/
theorem Memory.Backed.hidden_of_promptless {T : Query → Prop} (hk : k.Backed m u T)
    {s : SymbolId} (hT : T (.visible (.symbol s)))
    (h : ((m.symbol s).nodes.any fun n => (m.node n).prompt.isSome) = false) :
    k.said m (.visible (.symbol s)) = false := by
  rw [said_of_kept rfl]
  cases hget : k.get? (.visible (.symbol s)) with
  | none => rfl
  | some a => exact (hk.right _ a hT hget).trans (Model.visibility_of_promptless _ h)

/-- A configuration of a model in which the direct questions are backed. -/
structure Configuration.BacksDirect (m : Model) (c : Configuration) : Prop where
  model : c.model = m
  dependents : c.dependents = m.dependents
  permits : m.Permits c.user
  memory : c.memory.Backed m c.user m.Direct

namespace Configuration.BacksDirect

section Steps
variable (hm : m.Sound)
include hm

/-- A change of the user's values keeps direct questions backed when those that see it are
forgotten. -/
theorem changed (hc : c.BacksDirect m) (hmodel : c'.model = m)
    (hdependents : c'.dependents = m.dependents) (hpermits : m.Permits c'.user)
    (hmemory : c'.memory = c.memory ∨ ∃ i, c'.memory = c.memory.forgetFrom m.dependents i)
    (hsame : c'.memory.Backed m c.user m.Direct → ∀ q, m.Direct q → (c'.memory.get? q).isSome →
      m.SameValue c.user c'.user (c'.memory.said m) q) : c'.BacksDirect m := by
  have hk : c'.memory.Backed m c.user m.Direct := by
    rcases hmemory with heq | ⟨i, heq⟩
    · rw [heq]
      exact hc.memory
    · rw [heq]
      exact hc.memory.forget (forgot_forgetFrom ..) fun q hq _ q' hq' =>
        hq.dependent hm hc.memory.constant.fixes hq'
  exact ⟨hmodel, hdependents, hpermits, hk.change (hsame hk)⟩

/-- Changing a symbol's value keeps direct questions backed once the symbol is forgotten, which it
need not be without a prompt. -/
theorem value_set (hc : c.BacksDirect m) {s : SymbolId} {g : Option UserValue}
    (hg : ∀ a, g = some a → ∃ b, (c.model.symbol s).type.accept? b = some a) :
    BacksDirect m { c with
      user.values := c.user.values.setIfInBounds s g
      memory := c.remembered s } := by
  have hpermits := hc.permits.setValue (hc.model ▸ hg)
  have hother : ∀ v q, m.Direct q → q.item ≠ .symbol s → m.SameValue c.user
      { c.user with values := c.user.values.setIfInBounds s g } v q := fun v q hq hitem =>
    .of_eq <| hq.valueRule_congr fun t ht =>
      c.user.value_set_of_ne (fun hst : s = t => hitem (hst ▸ ht)) g
  by_cases hprompt : (c.model.symbol s).nodes.any fun n => (c.model.node n).prompt.isSome
  · have hmemory : c.remembered s = c.memory.forgetFrom m.dependents (.symbol s) := by
      rw [remembered, if_pos hprompt, hc.dependents]
    refine changed hm hc hc.model hc.dependents hpermits (.inr ⟨_, hmemory⟩) fun _ q hq hsome => ?_
    refine hother _ q hq fun hitem => ?_
    change ((c.remembered s).get? q).isSome at hsome
    rw [hmemory, (forgot_forgetFrom m.dependents c.memory (.symbol s)).gone q hitem] at hsome
    cases hsome
  · have hmemory : c.remembered s = c.memory := if_neg hprompt
    refine changed hm hc hc.model hc.dependents hpermits (.inl hmemory) fun hk q hq _ => ?_
    by_cases hitem : q.item = .symbol s
    · rw [hc.model, Bool.not_eq_true] at hprompt
      exact .of_hidden hitem (hk.hidden_of_promptless (m.direct_visible _) hprompt)
    · exact hother _ q hq hitem

/-- No step leaves a direct question unbacked. -/
theorem kept : Kept (BacksDirect m) := by
  intro c c' hstep hc
  have hforgets : ∀ d, c.memory.forgetFrom c.dependents (.choice d) =
      c.memory.forgetFrom m.dependents (.choice d) := fun d => by rw [hc.dependents]
  cases hstep with
  | note h =>
    refine ⟨h.model.trans hc.model, h.dependents.trans hc.dependents, ?_, ?_⟩
    · rw [h.user]
      exact hc.permits
    · rw [h.user, h.memory]
      exact hc.memory
  | value s g hg => exact value_set hm hc hg
  | select s d a hchoice htype ha =>
    rw [hc.model] at hchoice htype ha
    refine changed hm hc hc.model hc.dependents (hc.permits.select hchoice htype ha)
      (.inr ⟨.choice d, hforgets d⟩) fun _ q hq _ => .of_eq ?_
    by_cases hitem : q.item = .symbol s
    · exact Model.valueRule_of_member hitem htype hchoice
    · exact hq.valueRule_congr fun t ht => c.user.value_set_of_ne
        (fun hst => hitem (ht.trans (congrArg Item.symbol hst.symm))) _
  | mode d g =>
    exact changed hm hc hc.model hc.dependents ⟨hc.permits.value, hc.permits.selection⟩
      (.inr ⟨.choice d, hforgets d⟩) fun _ q hq _ => .of_eq (hq.valueRule_congr fun _ _ => rfl)
  | unselect d =>
    exact changed hm hc hc.model hc.dependents (hc.permits.unselect d _)
      (.inr ⟨.choice d, hforgets d⟩) fun _ q hq _ => .of_eq (hq.valueRule_congr fun _ _ => rfl)

end Steps

theorem keptByFiles : KeptByFiles (BacksDirect m) :=
  fun _ _ hc => ⟨hc.model, hc.dependents, hc.permits, hc.memory⟩

/-- Nor does asking. -/
theorem keeps_follow {α : Type} (p : Plan α) :
    Keeps (BacksDirect m) (Configuring.follow p) := by
  intro c hc
  obtain rfl := hc.model
  have hkeeps : (stateAfter (Evaluating.follow c.model c.user p ⟨c.memory, c.journal⟩)).memory.Backed
      c.model c.user c.model.Direct :=
    (Evaluating.reads_run (Evaluating.reads_readAt _) p ⟨c.memory, c.journal⟩ hc.memory).1
  unfold KeepsAt
  rw [Configuring.stateAfter_follow]
  exact ⟨rfl, hc.dependents, hc.permits, hkeeps⟩

end Configuration.BacksDirect

/-- After a model is loaded, no acts leave a direct question unbacked. -/
theorem Load.backsDirect_after {host : Host} {options : LoadOptions} {w : Workspace}
    (hload : Load.load host options = .ok c w) (acts : List Act) :
    (c.after acts).BacksDirect w.model := by
  have hstart := Load.coherent_of_load hload
  have hm := Load.sound_of_load hload
  obtain ⟨m, ⟨blocks, table, hread, hsettle, hlinked⟩, -, rfl⟩ := Load.load_ok hload
  exact Configuration.keeps_after (Configuration.BacksDirect.kept hm)
    Configuration.BacksDirect.keptByFiles Configuration.BacksDirect.keeps_follow
    ⟨rfl, hstart.dependents, hstart.permits, Memory.backed_empty⟩ acts

/-- Where reading comes to an end, the answers to direct questions obey the rules. -/
theorem Configuration.BacksDirect.exists_saying (hc : c.BacksDirect m) (hanswering : c.Answering) :
    ∃ v, c.Says v ∧ ∀ q, m.Direct q → v q = (m.rule c.user q).result v := by
  obtain ⟨v, hsays, hv⟩ := hanswering.exists_saying
  rw [hc.model] at hv
  exact ⟨v, hsays, fun q hq => hc.memory.eq_result hv hq⟩

/-- Without choices reading always comes to an end. -/
theorem Load.answering_of_no_choices {host : Host} {options : LoadOptions} {w : Workspace}
    (hload : Load.load host options = .ok c w) (hno : w.model.choices.size = 0) (acts : List Act) :
    (c.after acts).Answering := by
  have hloop := Load.noLoop_of_load hload
  have hm := Load.sound_of_load hload
  have hr : w.model.Reliable :=
    ⟨hm, Model.tidy_of_no_choices hno, fun u _ => hm.terminates_of_no_choices hloop hno u⟩
  have hlater := (Load.coherent_of_load hload).after hr acts
  obtain ⟨v, hv⟩ := (hr.terminates _ hlater.permits).solution
  exact Configuration.answering_of_coherent hv hlater.model rfl (hlater.memory v hv)

end Kconfig
