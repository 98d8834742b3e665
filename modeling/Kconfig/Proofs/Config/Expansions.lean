import Kconfig.Config.Evaluate
import Kconfig.Proofs.Config.Coherence
import Kconfig.Proofs.Load.Inclusion
import Kconfig.Proofs.Reading.Leftover
/-!
Expanding macros of a loaded model, again and again.

Macros are expanded and expressions are evaluated, some of them in vain. What succeeds leaves the
variables alone, and what fails leaves them their names and values; but the expansions that were
going on then stay counted. So a macro has the value that it has in a workspace where nothing
failed, or it is refused for a variable that was left behind; and a variable whose plain expansion
has failed once is refused from then on.
-/
namespace Kconfig

/-- The value of a macro of a loaded model, which may have arguments. -/
def Configuring.expand (name : String) (args : List String) : Configuring (List Char) :=
  reading (Macro.call ((name :: args).map String.toList))

/-- What can be tried with a loaded model. -/
inductive Trial where
  | expand (name : String) (args : List String)
  | evaluate (text : String)

/-- Does what a trial says. -/
def Trial.perform : Trial → Configuring Unit
  | .expand name args => do discard <| Configuring.expand name args
  | .evaluate text => do discard <| Configuring.evaluate text

/-- The configuration after trials, each of which may have failed. -/
def Configuration.tried (c : Configuration) (trials : List Trial) : Configuration :=
  trials.foldl (fun c trial => stateAfter (trial.perform c)) c

/-- A workspace with all that expansions look at: a host, a line, and variables. -/
def Workspace.bare (host : Host) (spot : Spot) (macros : Array Variable) : Workspace :=
  { host, place := { spot }, macros }

section
open Macro

/-! ### Trials -/

/-- What is read outside of files leaves the variables alone, or some of them begun. -/
theorem Configuring.meets_reading {α : Type} {action : Reading α}
    (h : ∀ scene M, Confined scene M action) (c : Configuration) :
    Meets (reading action) c (fun _ c' => c'.macros = c.macros)
      fun _ c' => Left c.macros c'.macros := by
  have hmeets := h c.scene (· = c.macros) c.toWorkspace (Workspace.holds_scene rfl)
  unfold Meets
  rw [reading_apply]
  cases hresult : action c.toWorkspace with
  | ok a w => exact (hmeets.of_ok hresult).macros
  | error failure w =>
    obtain ⟨_, rfl, hleft⟩ := (hmeets.of_error hresult).left
    exact hleft

theorem Trial.meets_perform (trial : Trial) (c : Configuration) :
    Meets trial.perform c (fun _ c' => c'.macros = c.macros)
      fun _ c' => Left c.macros c'.macros := by
  cases trial with
  | expand name args =>
    exact (Configuring.meets_reading (fun _ _ => (contained_call _).confined) c).bind
      fun _ _ h => .pure h
  | evaluate text =>
    have hholds : ∀ e, Keeps (fun c' : Configuration => c'.macros = c.macros)
        (Configuring.holds e) := by
      refine fun e => .bind_get fun c' hc' => ?_
      rw [KeepsAt, Configuring.stateAfter_follow]
      exact hc'
    have hevaluate : Meets (Configuring.evaluate text) c (fun _ c' => c'.macros = c.macros)
        fun _ c' => Left c.macros c'.macros := by
      refine (Meets.update (Q := fun _ c' => c'.macros = c.macros) rfl).bind fun _ c₁ hc₁ => ?_
      have hread := Configuring.meets_reading (fun _ _ => Reading.confined_expression text) c₁
      refine .bind (hread.mono (fun _ _ h => h.trans hc₁) fun _ _ h => hc₁ ▸ h) fun e c₂ hc₂ => ?_
      exact (Meets.of_keeps (hholds e) hc₂).mono (fun _ _ h => h) fun _ _ h => h ▸ .refl _
    exact hevaluate.bind fun _ _ h => .pure h

theorem Trial.left_stateAfter (trial : Trial) (c : Configuration) :
    Left c.macros (stateAfter (trial.perform c)).macros := by
  cases hresult : trial.perform c with
  | ok a c' =>
    have hmacros := (trial.meets_perform c).of_ok hresult
    exact hmacros ▸ .refl c.macros
  | error failure c' => exact (trial.meets_perform c).of_error hresult

/-- No trials change the names and the values of variables, or make counts lower. -/
theorem Configuration.left_tried (c : Configuration) (trials : List Trial) :
    Left c.macros (c.tried trials).macros :=
  Lists.foldl_keeps (fun c' : Configuration => Left c.macros c'.macros)
    (fun c' trial h => h.trans (trial.left_stateAfter c')) trials (.refl _)

/-! ### Expansions -/

theorem Configuring.outcome_reading {α : Type} (action : Reading α) (c : Configuration) :
    outcome (reading action c) = outcome (action c.toWorkspace) := by
  rw [reading_apply]
  cases action c.toWorkspace <;> rfl

theorem Configuring.fails_reading {α : Type} {action : Reading α} {c : Configuration}
    {failure : Failure} (h : Fails action c.toWorkspace failure) :
    Fails (reading action) c failure := by
  obtain ⟨w, h⟩ := h
  refine ⟨{ c with toWorkspace := w }, ?_⟩
  rw [reading_apply, h]

/-- The same variables are found, also where some of them were left counted. -/
theorem variableIndex?_of_left {w w' : Workspace} (h : Left w.macros w'.macros) (name : String) :
    variableIndex? w' name = variableIndex? w name := by
  obtain ⟨extra, h⟩ := h
  rw [variableIndex?, h, findIdx?_raise]
  rfl

theorem lt_size_of_variableIndex? {w : Workspace} {name : String} {index : Nat}
    (h : variableIndex? w name = some index) : index < w.macros.size :=
  (Array.findIdx?_eq_some_iff_getElem.mp h).1

/-- A variable is found under the name that a macro begins with. -/
theorem variableIndex?_headD {w : Workspace} {name : String} {index : Nat}
    (h : variableIndex? w name = some index) (args : List String) :
    variableIndex? w (String.ofList (((name :: args).map String.toList).headD [])) =
      some index :=
  (congrArg (variableIndex? w) String.ofList_toList).trans h

/-- Where no expansion goes on, what is counted was left behind. -/
theorem activeAt_raise_of_idle {macros : Array Variable} (h : Idle macros) {extra : Nat → Nat}
    {index : Nat} (hlt : index < macros.size) :
    activeAt (raise extra macros) index = extra index := by
  have hzero : activeAt macros index = 0 := by
    rw [activeAt, Array.getElem?_eq_getElem hlt]
    exact h _ (Array.getElem_mem hlt)
  rw [activeAt_raise hlt, hzero, Nat.zero_add]

namespace Configuring
variable {d d' : Configuration} {name : String} {args : List String} {index : Nat}

/-- What was left behind makes no difference, or the macro is refused for it. -/
theorem outcome_expand {extra : Nat → Nat} {macros : Array Variable}
    (h : d.macros = raise extra macros) (name : String) (args : List String) :
    outcome (expand name args d) =
        outcome (call ((name :: args).map String.toList) (.bare d.host d.place.spot macros)) ∨
      ∃ failure, Fails (expand name args) d failure ∧
        Refuses extra d.place.spot macros failure := by
  have htwin : Twin extra (.bare d.host d.place.spot macros) d.toWorkspace := ⟨rfl, rfl, h⟩
  rcases outcome_call_of_twin htwin ((name :: args).map String.toList) with
    hsame | ⟨failure, hfails, hrefuses⟩
  · exact .inl ((outcome_reading _ d).trans hsame)
  · exact .inr ⟨failure, fails_reading hfails, hrefuses⟩

theorem expand_of_refusal (hindex : variableIndex? d.toWorkspace name = some index) {p : Problem}
    (h : refusal? ((name :: args).map String.toList) (activeAt d.macros index) = some p) :
    expand name args d = .error (.fatal (.badLine d.place.spot p)) d := by
  rw [expand, reading_apply, call_of_refusal (variableIndex?_headD hindex args) h]

theorem activeAt_of_expand_error (hindex : variableIndex? d.toWorkspace name = some index)
    (h : refusal? ((name :: args).map String.toList) (activeAt d.macros index) = none)
    {failure : Failure} (hfails : expand name args d = .error failure d') :
    activeAt d.macros index < activeAt d'.macros index := by
  rw [expand, reading_apply] at hfails
  cases hcall : call ((name :: args).map String.toList) d.toWorkspace with
  | ok value w =>
    rw [hcall] at hfails
    cases hfails
  | error e w =>
    rw [hcall] at hfails
    cases hfails
    exact activeAt_of_call_error (variableIndex?_headD hindex args) h hcall

/-- However a plain expansion of a variable fails, the variable is counted then. -/
theorem activeAt_pos_of_expand_error (hindex : variableIndex? d.toWorkspace name = some index)
    {failure : Failure} (hfails : expand name [] d = .error failure d') :
    0 < activeAt d'.macros index := by
  cases hrefusal : refusal? ([name].map String.toList) (activeAt d.macros index) with
  | none => exact Nat.zero_lt_of_lt (activeAt_of_expand_error hindex hrefusal hfails)
  | some p =>
    rw [expand_of_refusal hindex hrefusal] at hfails
    cases hfails
    refine Nat.pos_of_ne_zero fun hzero => ?_
    rw [hzero] at hrefusal
    exact nomatch hrefusal

/-- A variable that is counted has no plain expansion, whatever is tried. -/
theorem expand_fails_after (hindex : variableIndex? d.toWorkspace name = some index)
    (hactive : 0 < activeAt d.macros index) (more : List Trial) :
    Fails (expand name []) (d.tried more)
      (.fatal (.badLine (d.tried more).place.spot (.selfReference name))) := by
  have hleft := d.left_tried more
  have hactive' := hleft.activeAt_le (lt_size_of_variableIndex? hindex)
  have hrefusal : refusal? ([name].map String.toList) (activeAt (d.tried more).macros index) =
      some (.selfReference name) := by
    have hname : String.ofList (([name].map String.toList).headD []) = name :=
      String.ofList_toList
    rw [refusal?, if_pos (show ([name].map String.toList).length = 1 from rfl), if_pos (by omega),
      hname]
  exact ⟨_, expand_of_refusal ((variableIndex?_of_left hleft name).trans hindex) hrefusal⟩

end Configuring

/-- What trials that failed have left behind: the variables with so much higher counts. -/
structure LeftBehind (macros : Array Variable) (extra : Nat → Nat) (d : Configuration) : Prop where
  idle : Idle macros
  /-- Only counts differ. -/
  counted : d.macros = raise extra macros
  /-- What succeeds leaves nothing more behind. -/
  succeeded : ∀ {trial : Trial} {d'}, trial.perform d = .ok () d' → d'.macros = d.macros
  /-- A macro gives what it gives where nothing has failed, or it is refused for what was left. -/
  same_or_refused : ∀ (name : String) (args : List String),
    outcome (Configuring.expand name args d) =
        outcome (call ((name :: args).map String.toList) (.bare d.host d.place.spot macros)) ∨
      ∃ failure, Fails (Configuring.expand name args) d failure ∧
        Refuses extra d.place.spot macros failure
  /-- A variable is refused exactly while its count is too high, and then nothing is done. -/
  refused : ∀ {name : String} {args : List String} {index : Nat} {p : Problem},
    variableIndex? d.toWorkspace name = some index →
    refusal? ((name :: args).map String.toList) (extra index) = some p →
    Configuring.expand name args d = .error (.fatal (.badLine d.place.spot p)) d
  /-- Any other failure makes the count higher. -/
  failed : ∀ {name : String} {args : List String} {index : Nat} {failure : Failure} {d'},
    variableIndex? d.toWorkspace name = some index →
    refusal? ((name :: args).map String.toList) (extra index) = none →
    Configuring.expand name args d = .error failure d' → extra index < activeAt d'.macros index
  /-- A variable whose plain expansion has failed is refused for ever. -/
  refused_after : ∀ {name : String} {index : Nat} {failure : Failure} {d'},
    variableIndex? d.toWorkspace name = some index →
    Configuring.expand name [] d = .error failure d' → ∀ more : List Trial,
      Fails (Configuring.expand name []) (d'.tried more)
        (.fatal (.badLine (d'.tried more).place.spot (.selfReference name)))

theorem leftBehind_of_raise {macros : Array Variable} {extra : Nat → Nat} {d : Configuration}
    (hidle : Idle macros) (hmacros : d.macros = raise extra macros) :
    LeftBehind macros extra d := by
  have hcount : ∀ {name index}, variableIndex? d.toWorkspace name = some index →
      activeAt d.macros index = extra index := by
    intro name index hindex
    have hlt := lt_size_of_variableIndex? hindex
    rw [hmacros] at hlt ⊢
    exact activeAt_raise_of_idle hidle (by rwa [raise, Array.size_mapIdx] at hlt)
  refine ⟨hidle, hmacros, fun {trial _} h => (trial.meets_perform d).of_ok h,
    Configuring.outcome_expand hmacros, fun hindex hrefusal => ?_, fun hindex hrefusal hfails => ?_,
    fun {name index failure d'} hindex hfails more => ?_⟩
  · exact Configuring.expand_of_refusal hindex (hcount hindex ▸ hrefusal)
  · have hlt := Configuring.activeAt_of_expand_error hindex (hcount hindex ▸ hrefusal) hfails
    exact hcount hindex ▸ hlt
  · have hleft := (Configuring.meets_reading (fun _ _ => (contained_call _).confined) d).of_error
      hfails
    exact Configuring.expand_fails_after ((variableIndex?_of_left hleft name).trans hindex)
      (Configuring.activeAt_pos_of_expand_error hindex hfails) more

/-- Whatever is tried with a loaded model, successful trials leave the variables as they are, and
the others leave some of them counted as if they were still being expanded, and nothing else. So a
macro has the value, or the error, that it has where nothing has failed, or it is refused for a
variable that was left counted; and once the plain expansion of a variable has failed, for whatever
reason, the variable is refused for ever, as if it mentioned itself. -/
theorem leftBehind_after_trials {host : Host} {options : LoadOptions} {c : Configuration}
    {w : Workspace} (hload : Load.load host options = .ok c w) (trials : List Trial) :
    ∃ extra : Nat → Nat, LeftBehind w.macros extra (c.tried trials) := by
  have hidle := Load.idle_of_load hload
  obtain rfl := Load.eq_ofWorkspace_of_load hload
  obtain ⟨extra, hmacros⟩ := (Configuration.ofWorkspace w).left_tried trials
  exact ⟨extra, leftBehind_of_raise hidle hmacros⟩

/-- A variable that stands for an error. -/
def statedError : Host where
  files.entries :=
    [(["work", "Kconfig"], .file (.text "F = $(error-if,y,no)\n\nconfig A\n\tbool \"a\"\n"))]

/-- Whether a plain expansion of a variable fails with a stated error. -/
def statesError (name message : String) (c : Configuration) : Bool :=
  match Configuring.expand name [] c with
  | .error (.fatal (.stated _ stated)) _ => stated == message
  | _ => false

theorem of_statesError {name message : String} {c : Configuration}
    (h : statesError name message c = true) : ∃ spot c',
    Configuring.expand name [] c = .error (.fatal (.stated spot message)) c' := by
  unfold statesError at h
  split at h
  · next spot stated c' hresult => exact ⟨spot, c', beq_iff_eq.mp h ▸ hresult⟩
  · exact nomatch h

/-- The error is stated once; from then on the variable is refused as if it mentioned itself. -/
theorem statedError_stated_once : ∃ c w spot c',
    Load.load statedError {} = .ok c w ∧
    Configuring.expand "F" [] c = .error (.fatal (.stated spot "no")) c' ∧
    ∀ more : List Trial, Fails (Configuring.expand "F" []) (c'.tried more)
      (.fatal (.badLine (c'.tried more).place.spot (.selfReference "F"))) := by
  have hchecked : passes (fun c _ =>
      statesError "F" "no" c && variableIndex? c.toWorkspace "F" == some 0)
      (Load.load statedError {}) = true := by decide +kernel
  obtain ⟨c, w, hload, hchecked⟩ := ok_of_passes hchecked
  obtain ⟨hstates, hindex⟩ := Bool.and_eq_true_iff.mp hchecked
  obtain ⟨spot, c', hfails⟩ := of_statesError hstates
  obtain ⟨extra, hleft⟩ := leftBehind_after_trials hload []
  exact ⟨c, w, spot, c', hload, hfails, hleft.refused_after (beq_iff_eq.mp hindex) hfails⟩

end
end Kconfig
