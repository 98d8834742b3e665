import Kconfig.Menu.Session
import Kconfig.Proofs.Config.Untouched
/-!
Unsaved changes.

The session's flag is set by hand. Loading decides it, saving clears it, and accepted changes set
it. Anything else that happens in between leaves the configuration untouched. Hence a session whose
text differs from what it was when the flag was decided last has the flag set.
-/
namespace Kconfig

namespace Configuring
open Kconfig.Configuration
variable {base : Configuration} {α : Type}

/-! ### Changes that are not accepted -/

/-- The action accepts something, or leaves a property as it was, also when it fails. -/
def Spares (P : Configuration → Prop) (action : Configuring Bool) : Prop :=
  ∀ c, P c → (∃ c', action c = .ok true c') ∨ KeepsAt P c action

namespace Spares
variable {P : Configuration → Prop}

theorem of_keeps {action : Configuring Bool} (h : Keeps P action) : Spares P action :=
  fun c hc => .inr (h c hc)

theorem bind {action : Configuring α} {next : α → Configuring Bool} (h : Keeps P action)
    (hnext : ∀ a, Spares P (next a)) : Spares P (action >>= next) := by
  intro c hc
  have hc' := h c hc
  unfold KeepsAt at hc' ⊢
  rw [bind_apply]
  cases haction : action c with
  | ok a c' =>
    rw [haction] at hc'
    exact hnext a c' hc'
  | error e c' =>
    rw [haction] at hc'
    exact .inr hc'

theorem ite {p : Prop} [Decidable p] {action action' : Configuring Bool} (h : Spares P action)
    (h' : Spares P action') : Spares P (if p then action else action') := by
  split
  · exact h
  · exact h'

end Spares

theorem accepts_forgetPrompted (s : SymbolId) (c : Configuration) :
    ∃ c', (forgetPrompted s >>= fun _ => pure true : Configuring Bool) c = .ok true c' := by
  have hends : ∃ c', forgetPrompted s c = .ok () c' := by
    show ∃ c', (if (c.model.symbol s).nodes.any fun n => (c.model.node n).prompt.isSome then
        forgetFrom (.symbol s)
      else if c.warnsPromptless then warn (.noPrompt (c.model.owner (.symbol s)))
      else pure () : Configuring Unit) c = .ok () c'
    split
    · exact ⟨_, rfl⟩
    · split <;> exact ⟨_, rfl⟩
  obtain ⟨c', hc'⟩ := hends
  exact ⟨c', by rw [bind_apply, hc']; rfl⟩

theorem spares_refuse (i : Item) (g : Given) : Spares base.Untouched (refuse i g) := by
  refine .of_keeps (.bind .get fun _ => .bind (keeps_untouched_note fun _ => ?_) fun _ => .pure _)
  exact ⟨rfl, rfl, rfl, rfl, rfl, rfl, rfl, Journal.output_warn .., rfl, rfl⟩

theorem spares_setSymbol (s : SymbolId) (g : Given) : Spares base.Untouched (setSymbol s g) := by
  refine .bind .get fun c => ?_
  dsimp only
  generalize (if (c.model.symbol s).type = .bool then g.readLevel else g) = g'
  refine .ite (fun c _ => .inl ⟨_, rfl⟩) ?_
  split
  · exact spares_refuse _ _
  · refine fun c _ => .inl ?_
    split
    · exact ⟨_, rfl⟩
    · exact accepts_forgetPrompted s _

theorem spares_setChoice (ch : ChoiceId) (g : Given) : Spares base.Untouched (setChoice ch g) := by
  refine .bind .get fun c => .ite (fun c _ => .inl ⟨_, rfl⟩) ?_
  split
  · exact fun c _ => .inl ⟨_, rfl⟩
  · exact spares_refuse _ _

end Configuring

namespace Session
open Configuring Kconfig.Configuration
variable {base : Configuration} {s : Session} {α : Type}

theorem spares_setItem (i : Item) (g : Given) : Spares base.Untouched (setItem i g) := by
  cases i with
  | symbol s => exact spares_setSymbol s g
  | choice ch => exact spares_setChoice ch g

theorem spares_changeItem (i : Item) (value : Json) :
    Spares base.Untouched (changeItem i value) := by
  refine .bind .get fun c => ?_
  dsimp only
  refine .ite (spares_setItem _ _) ?_
  split
  · exact spares_setItem _ _
  · exact spares_setItem _ _
  · refine .bind (keeps_untouched_follow _) fun levels => ?_
    split
    · exact .bind (.pure _) fun level => spares_setItem _ _
    · exact .bind (keeps_untouched_follow _) fun level => spares_setItem _ _

theorem keeps_isChangeable {P : Configuration → Prop}
    (hfollow : ∀ {α : Type} (p : Plan α), Keeps P (follow p)) (n : NodeId) :
    Keeps P (isChangeable n) := by
  refine .bind .get fun c => ?_
  dsimp only
  split
  · refine .bind (.bind .get fun _ => hfollow _) fun isShown => ?_
    refine .ite (.pure _) (.ite (.pure _) (.bind (hfollow _) fun levels =>
      .ite (.pure _) ?_))
    split
    · exact .ite (.bind (hfollow _) fun isVisible => .pure _) (.pure _)
    · exact .pure _
  · exact .pure _

theorem task_apply (action : Configuring α) (s : Session) :
    task action s = match action s.toConfiguration with
      | .ok a c => .ok a { s with toConfiguration := c }
      | .error e c => .error e { s with toConfiguration := c } := by
  show (match action.run s.toConfiguration with
    | .ok a c => _
    | .error e c => _ : Act α) s = _
  rw [EStateM.run]
  cases action s.toConfiguration <;> rfl

/-! ### Calls -/

/-- What can be asked of a session. -/
inductive Call where
  | menu
  | change (id : Int) (value : Json)
  | load
  | save

/-- Does what a call asks for. -/
def Call.perform : Call → Act Unit
  | .menu => discard Session.menu
  | .change id value => discard <| Session.change id value
  | .load => discard Session.loadConfig
  | .save => discard Session.saveConfig

/-- Whether a call decides the flag anew: every load, and a save that succeeds. -/
def Call.decides : Call → Session → Bool
  | .load, _ => true
  | .save, s => succeeds (Session.saveConfig s)
  | _, _ => false

/-- The session after calls, each of which may have failed. -/
def after (s : Session) (calls : List Call) : Session :=
  calls.foldl (fun s call => stateAfter (call.perform s)) s

/-- The session as it was when one of the calls decided the flag last, and else the first one. -/
def decided (first s : Session) : List Call → Session
  | [] => first
  | call :: more =>
    let s' := stateAfter (call.perform s)
    decided (if call.decides s then s' else first) s' more

/-- The flag is set, or the configuration is the one from before. -/
def Aware (base : Configuration) (s : Session) : Prop :=
  s.hasChanged = true ∨ base.Untouched s.toConfiguration

theorem Aware.refl (s : Session) : s.Aware s.toConfiguration := .inr (.refl _)

theorem keeps_task {action : Configuring α} (h : Keeps base.Untouched action) :
    Keeps (Aware base) (task action) := by
  intro s hs
  unfold KeepsAt
  have hstate : stateAfter (task action s) =
      { s with toConfiguration := stateAfter (action s.toConfiguration) } := by
    rw [task_apply]
    cases action s.toConfiguration <;> rfl
  rw [hstate]
  exact hs.imp id (h s.toConfiguration)

theorem keeps_menu : Keeps (Aware base) menu :=
  .bind .get fun _ => .bind (keeps_task (keeps_untouched_follow _)) fun _ =>
    .bind (.update fun _ h => h) fun _ => .pure _

/-- An accepted change sets the flag. -/
theorem keeps_change (number : Int) (value : Json) : Keeps (Aware base) (change number value) := by
  refine .bind .get fun s => .ite (.pure _) (.bind ?_ fun i => ?_)
  · exact keeps_task (keeps_isChangeable keeps_untouched_follow _)
  cases i with
  | none => exact .pure _
  | some i =>
    intro s hs
    have hchange : (∃ c, changeItem i value s.toConfiguration = .ok true c) ∨ Aware base
        { s with toConfiguration := stateAfter (changeItem i value s.toConfiguration) } :=
      hs.elim (fun h => .inr (.inl h)) fun h => (spares_changeItem i value _ h).imp id .inr
    unfold KeepsAt
    dsimp only
    rw [bind_apply, task_apply]
    cases haction : changeItem i value s.toConfiguration with
    | ok isAccepted c =>
      cases isAccepted with
      | true => exact .inl rfl
      | false =>
        rw [haction] at hchange
        exact hchange.resolve_left fun ⟨_, h⟩ => nomatch h
    | error e c =>
      rw [haction] at hchange
      exact hchange.resolve_left fun ⟨_, h⟩ => nomatch h

/-- A save that fails leaves the flag. -/
theorem aware_save (hs : s.Aware base) (hfails : succeeds (saveConfig s) = false) :
    (stateAfter (saveConfig s)).Aware base := by
  change succeeds ((orFail s.target.toSave >>= _ : Act String) s) = false at hfails
  show (stateAfter ((orFail s.target.toSave >>= _ : Act String) s)).Aware base
  cases hname : s.target.toSave with
  | error e => exact hs
  | ok name =>
    have htask := keeps_task
      (keeps_saveConfig Untouched.keptByFiles keeps_untouched_follow name none true) s hs
    unfold KeepsAt at htask
    rw [hname] at hfails
    change succeeds ((task (Configuring.saveConfig name none true) >>= _ : Act String) s) =
      false at hfails
    show (stateAfter ((task (Configuring.saveConfig name none true) >>= _ : Act String) s)).Aware base
    rw [bind_apply] at hfails ⊢
    cases haction : task (Configuring.saveConfig name none true) s with
    | ok message s' =>
      rw [haction] at hfails
      exact nomatch hfails
    | error e s' =>
      rw [haction] at htask
      exact htask

/-- What is known when a call is made is known afterwards, unless the call decides the flag. -/
theorem aware_perform (call : Call) (hs : s.Aware base) (h : call.decides s = false) :
    (stateAfter (call.perform s)).Aware base := by
  cases call with
  | menu =>
    exact Keeps.bind keeps_menu (fun _ => .pure _) s hs
  | change id value => exact Keeps.bind (keeps_change id value) (fun _ => .pure _) s hs
  | load => exact nomatch h
  | save =>
    show (stateAfter ((saveConfig >>= fun _ => pure ()) s)).Aware base
    rw [stateAfter_bind_pure]
    exact aware_save hs h

/-- After any calls the flag is set, or nothing has changed since it was decided. -/
theorem aware_after : ∀ (calls : List Call) {first s : Session}, s.Aware first.toConfiguration →
    (s.after calls).Aware (decided first s calls).toConfiguration
  | [], _, _, hs => hs
  | call :: more, first, s, hs => by
    refine aware_after more ?_
    cases h : call.decides s with
    | true => exact .refl _
    | false => exact aware_perform call hs h

/-! ### Loads that fail -/

theorem tryLoad_apply (s : Session) :
    tryLoad s = match (orFail s.target.toLoad >>= fun name =>
        task (Configuring.loadConfig name true) : Act String) s with
      | .ok message s' => .ok (.ok message) s'
      | .error e s' => match e.message? with
        | some message => .ok (.error message) s'
        | none => .error e s' := by
  unfold tryLoad
  rw [bind_apply, tryCatch_apply]
  have hget : ∀ {β : Type} (next : Session → Act β), (get >>= next) s = next s s := fun _ => rfl
  rw [hget, bind_apply, bind_apply]
  cases orFail s.target.toLoad s with
  | error e s' =>
    dsimp only
    cases e.message? <;> rfl
  | ok name s' =>
    dsimp only
    rw [bind_apply]
    cases task (Configuring.loadConfig name true) s' with
    | ok message s'' => rfl
    | error e s'' =>
      dsimp only
      cases e.message? <;> rfl

/-- A session that knows what to load loads it. -/
theorem tryLoad_of_named {s : Session} {name : Option String} (hname : s.target.toLoad = .ok name) :
    tryLoad s = match Configuring.loadConfig name true s.toConfiguration with
      | .ok message c => .ok (.ok message) { s with toConfiguration := c }
      | .error e c => match e.message? with
        | some message => .ok (.error message) { s with toConfiguration := c }
        | none => .error e { s with toConfiguration := c } := by
  rw [tryLoad_apply, hname, bind_apply]
  dsimp only [orFail]
  rw [show (pure name : Act (Option String)) s = .ok name s from rfl]
  dsimp only
  rw [task_apply]
  cases Configuring.loadConfig name true s.toConfiguration <;> rfl

/-- A load that fails changes no text, unless it stops in the middle of a file. -/
theorem untouched_of_tryLoad_fails {s s' : Session} {message : String}
    (hdecodes : ∀ path content, s.toConfiguration.opened? path = some content →
      content.decoded.fault = none)
    (h : tryLoad s = .ok (.error message) s') :
    s.toConfiguration.Untouched s'.toConfiguration := by
  cases hname : s.target.toLoad with
  | error e =>
    rw [tryLoad_apply, hname] at h
    change (match e.message? with
      | some message => EStateM.Result.ok (Except.error message) s
      | none => .error e s) = EStateM.Result.ok (Except.error message) s' at h
    cases hwords : e.message? with
    | none =>
      rw [hwords] at h
      exact nomatch h
    | some words =>
      rw [hwords] at h
      injection h with _ hs
      exact hs ▸ .refl _
  | ok name =>
    rw [tryLoad_of_named hname] at h
    cases hload : Configuring.loadConfig name true s.toConfiguration with
    | ok message c =>
      rw [hload] at h
      exact nomatch h
    | error e c =>
      rw [hload] at h
      dsimp only at h
      cases hwords : e.message? with
      | none =>
        rw [hwords] at h
        exact nomatch h
      | some words =>
        rw [hwords] at h
        injection h with _ hs
        subst hs
        refine untouched_of_loadConfig_fails (.refl _) hdecodes hload ?_
        rw [hwords]
        exact nofun

/-- Whatever is asked of a session, its flag is set when the text of the configuration is another
one than when the flag was last decided, by a load or by a save that succeeded. A load that fails
leaves the user's values and the text as they were, unless it stops in the middle of a file. -/
theorem flag_set_of_text_changed (s : Session) (calls : List Call) :
    (∀ header text text' c c',
      configText header (decided s s calls).toConfiguration = .ok text c →
      configText header (s.after calls).toConfiguration = .ok text' c' → text' ≠ text →
      (s.after calls).hasChanged = true) ∧
    (∀ message s', tryLoad s = .ok (.error message) s' →
      (∀ path content, s.opened? path = some content → content.decoded.fault = none) →
      s'.user = s.user ∧ ∀ header text text' c c',
        configText header s.toConfiguration = .ok text c →
        configText header s'.toConfiguration = .ok text' c' → text' = text) := by
  constructor
  · intro header text text' c c' hfirst hnow hne
    refine (aware_after calls (.refl s)).resolve_right fun huntouched => hne ?_
    exact configText_of_untouched huntouched hfirst hnow
  · intro message s' hload hdecodes
    have huntouched := untouched_of_tryLoad_fails hdecodes hload
    exact ⟨huntouched.user, fun header text text' c c' hfirst hnow =>
      configText_of_untouched huntouched hfirst hnow⟩

end Session

/-- What is read from a file stands in the store. -/
theorem Files.Store.entry_of_read {store : Files.Store} {path : String} {content : Files.Content}
    (h : store.read path = .ok content) : ∃ p, (p, Files.Entry.file content) ∈ store.entries := by
  obtain ⟨p, -, hentry⟩ := read_eq_ok.mp h
  unfold at? at hentry
  split at hentry
  · cases hentry
  · obtain ⟨before, later, heq, -⟩ := List.lookup_eq_some_iff.mp hentry
    exact ⟨p, heq ▸ List.mem_append_right _ (List.mem_cons_self ..)⟩

namespace Session

/-- A symbol is changed, and a file that does not exist is loaded. -/
theorem shownPrompt_flag : ∃ s w, open? shownPrompt "Kconfig" (.path "missing") false none = .ok s w ∧
    (s.after [.menu, .change 1 (.bool true)]).hasChanged = true ∧
    ∃ message s', tryLoad s = .ok (.error message) s' ∧ s'.user = s.user := by
  have hchecked : (match open? shownPrompt "Kconfig" (.path "missing") false none with
      | .ok s _ =>
        let calls := [.menu, .change 1 (.bool true)]
        match Configuring.configText none (decided s s calls).toConfiguration,
          Configuring.configText none (s.after calls).toConfiguration, tryLoad s with
        | .ok text _, .ok text' _, .ok (.error _) _ =>
          text' != text && s.host.files.entries.all fun e => match e.2 with
            | .file content => content.decoded.fault.isNone
            | .directory => true
        | _, _, _ => false
      | .error .. => false) = true := by decide +kernel
  split at hchecked
  · next s w hopen =>
    dsimp only at hchecked
    split at hchecked
    · next text c text' c' message s' hfirst hnow hload =>
      rw [Bool.and_eq_true, List.all_eq_true] at hchecked
      obtain ⟨hne, hdecodes⟩ := hchecked
      have hflag := flag_set_of_text_changed s [.menu, .change 1 (.bool true)]
      refine ⟨s, w, hopen, hflag.1 none text text' c c' hfirst hnow (bne_iff_ne.mp hne), message, s',
        hload, (hflag.2 message s' hload fun path content hcontent => ?_).1⟩
      have hread : ∃ path', s.host.files.read path' = .ok content := by
        unfold Configuration.opened? at hcontent
        split at hcontent
        · next found hfound => exact ⟨path, Option.some.inj hcontent ▸ hfound⟩
        · cases hfound : s.host.files.read (Files.join s.settings.srctree path) with
          | error condition =>
            rw [hfound] at hcontent
            exact nomatch hcontent
          | ok found =>
            rw [hfound] at hcontent
            exact ⟨_, Option.some.inj hcontent ▸ hfound⟩
      obtain ⟨path', hread⟩ := hread
      obtain ⟨p, hentry⟩ := Files.Store.entry_of_read hread
      exact Option.isNone_iff_eq_none.mp (hdecodes _ hentry)
    · exact nomatch hchecked
  · exact nomatch hchecked

end Session
end Kconfig
