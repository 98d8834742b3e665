import Kconfig.Proofs.Load.Loops
/-!
Histories of a configuration.

A configuration is loaded once; then values are given and taken away, files are loaded, and answers
are asked for, in any order, while others write files. An act that fails leaves what it did before.
Whatever came before, an answer is the one that recomputing from the user's values gives.
-/
namespace Kconfig

/-- What can happen to a configuration after it is loaded. -/
inductive Act where
  | setSymbol (s : SymbolId) (g : Given)
  | unsetSymbol (s : SymbolId)
  | setChoice (ch : ChoiceId) (g : Given)
  | unsetChoice (ch : ChoiceId)
  | loadConfig (name : Option String) (replaces : Bool)
  | ask (q : Query)
  | changeFiles (files : Files.Store)

/-- Does what an act says. -/
def Act.perform : Act → Configuring Unit
  | .setSymbol s g => do discard <| Configuring.setSymbol s g
  | .unsetSymbol s => Configuring.unsetSymbol s
  | .setChoice ch g => do discard <| Configuring.setChoice ch g
  | .unsetChoice ch => Configuring.unsetChoice ch
  | .loadConfig name replaces => do discard <| Configuring.loadConfig name replaces
  | .ask q => do discard <| Configuring.ask q
  | .changeFiles files => modify fun c => { c with host.files := files }

/-- The configuration after acts, each of which may have failed. -/
def Configuration.after (c : Configuration) (acts : List Act) : Configuration :=
  acts.foldl (fun c act => stateAfter (act.perform c)) c

/-- The configuration with nothing remembered. -/
def Configuration.fresh (c : Configuration) : Configuration :=
  { c with memory := .empty c.model }

namespace Configuration
variable {P : Configuration → Prop} {m : Model} {c : Configuration}

section Acts
variable (hP : Kept P) (hfiles : KeptByFiles P)
  (hfollow : ∀ {α : Type} (p : Plan α), Keeps P (Configuring.follow p))
include hP hfiles hfollow

/-- What is kept by steps and by asking is kept by every act. -/
theorem keeps_perform (act : Act) : Keeps P act.perform := by
  cases act with
  | setSymbol s g => exact .bind (Configuring.keeps_setSymbol hP s g) fun _ => .pure _
  | unsetSymbol s => exact Configuring.keeps_unsetSymbol hP s
  | setChoice ch g => exact .bind (Configuring.keeps_setChoice hP ch g) fun _ => .pure _
  | unsetChoice ch => exact Configuring.keeps_unsetChoice hP ch
  | loadConfig name replaces =>
    exact .bind (Configuring.keeps_loadConfig hfollow hP name replaces) fun _ => .pure _
  | ask q => exact .bind (hfollow _) fun _ => .pure _
  | changeFiles files => exact .update fun _ hc => hfiles _ files hc

/-- So it is by any number of acts. -/
theorem keeps_after (hc : P c) (acts : List Act) : P (c.after acts) :=
  Lists.foldl_keeps P (fun c act hc => keeps_perform hP hfiles hfollow act c hc) acts hc

end Acts

namespace Coherent

/-- No acts make a configuration incoherent. -/
theorem after (hr : m.Reliable) (hc : c.Coherent m) (acts : List Act) :
    (c.after acts).Coherent m :=
  keeps_after (kept hr) keptByFiles (Configuring.keeps_follow hr) hc acts

theorem fresh (hc : c.Coherent m) : c.fresh.Coherent m :=
  ⟨hc.model, hc.dependents, hc.permits, fun _ _ => hc.model ▸ Evaluating.coherent_empty⟩

end Coherent
end Configuration

/-- Whatever was done before, in any order, an answer that is asked for is the one that is worked
out when nothing is remembered, and the one of the rules alone. -/
theorem ask_after_acts {host : Host} {options : LoadOptions} {c : Configuration} {w : Workspace}
    (hload : Load.load host options = .ok c w)
    (hterminates : ∀ u, w.model.Permits u → w.model.Terminates u) (htidy : w.model.Tidy)
    (acts : List Act) (q : Query) :
    ∃ a c₁ c₂, Configuring.ask q (c.after acts) = .ok a c₁ ∧
      Configuring.ask q (c.after acts).fresh = .ok a c₂ ∧
      recompute w.model (c.after acts).user q = some a := by
  have hr : w.model.Reliable := ⟨Load.sound_of_load hload, htidy, hterminates⟩
  have hc : (c.after acts).Coherent w.model := (Load.coherent_of_load hload).after hr acts
  obtain ⟨a, c₁, hask, ha⟩ := Configuring.ask_eq hr hc q
  obtain ⟨b, c₂, hfresh, hb⟩ := Configuring.ask_eq hr hc.fresh q
  obtain rfl : a = b := Option.some.inj (ha.symm.trans hb)
  exact ⟨a, c₁, c₂, hask, hfresh, ha⟩

/-- A prompt that hangs on another symbol. -/
def shownPrompt : Host where
  files.entries := [(["work", "Kconfig"], .file (.text
    "config A\n\tbool \"a\"\nconfig B\n\tbool \"b\" if A\n"))]

/-- The prompt is asked for, the symbol that it hangs on is set, and it is asked for again. -/
theorem shownPrompt_ask : ∃ c w a c₁ c₂, Load.load shownPrompt {} = .ok c w ∧
    let later := c.after [.ask (.visible (.symbol 3)), .setSymbol 2 (.number 2)]
    Configuring.ask (.visible (.symbol 3)) later = .ok a c₁ ∧
      Configuring.ask (.visible (.symbol 3)) later.fresh = .ok a c₂ ∧
      recompute w.model later.user (.visible (.symbol 3)) = some a := by
  have hchecked : passes (fun _ w => decide (w.model.choices.size = 0))
      (Load.load shownPrompt {}) = true := by decide +kernel
  obtain ⟨c, w, hload, hno⟩ := ok_of_passes hchecked
  have hno := of_decide_eq_true hno
  have hchoice : ∀ ch, w.model.choice ch = default := fun ch =>
    Model.choice_of_size_le (hno ▸ Nat.zero_le ch)
  have htidy : w.model.Tidy := by
    constructor
    · intro ch p hp
      rw [hchoice] at hp
      exact absurd hp List.not_mem_nil
    · intro ch s hs
      rw [hchoice] at hs
      exact absurd hs List.not_mem_nil
  have hloop := Load.noLoop_of_load hload
  obtain ⟨a, c₁, c₂, hask⟩ := ask_after_acts hload
    (fun u _ => (Load.sound_of_load hload).terminates_of_no_choices hloop hno u) htidy
    [.ask (.visible (.symbol 3)), .setSymbol 2 (.number 2)] (.visible (.symbol 3))
  exact ⟨c, w, a, c₁, c₂, hload, hask⟩

end Kconfig
