import Kconfig.Menu.Request
import Kconfig.Proofs.Config.Able
import Kconfig.Proofs.Menu.Calls
/-!
What the parts of a request can fail with.

What a session does for the menu and for items that are set comes down to following plans, and does
not fail where values come to an end. Loading and saving fail with words, which go into the
response, unless the file has no name, or cannot be looked for or compared.
-/
namespace Kconfig

namespace Session
open Configuring Kconfig.Configuration
variable {P : Configuration → Prop} {T : ConfigTarget → Prop} {α : Type}

/-! ### What does not fail -/

section Following
variable (hfollow : ∀ {α : Type} (p : Plan α), Safe P (follow p))
include hfollow

theorem safe_isUnsaved (s : SymbolId) : Safe P (isUnsaved s) := by
  refine .bind .get fun c => ?_
  split
  · exact .bind (hfollow _) fun _ => .pure _
  · exact .ite (.bind (hfollow _) fun _ => .pure _) (.bind (hfollow _) fun _ => .pure _)

theorem safe_anyUnsaved : ∀ symbols : List SymbolId, Safe P (anyUnsaved symbols)
  | [] => .pure _
  | s :: more => .bind (safe_isUnsaved hfollow s) fun _ => .ite (.pure _) (safe_anyUnsaved more)

theorem safe_differs : Safe P differs :=
  .bind .get fun _ => .ite (.pure _) (safe_anyUnsaved hfollow _)

theorem safe_isChangeable (n : NodeId) : Safe P (isChangeable n) := by
  refine .bind .get fun c => ?_
  dsimp only
  split
  · refine .bind (.bind .get fun _ => hfollow _) fun isShown => ?_
    refine .ite (.pure _) (.ite (.pure _) (.bind (hfollow _) fun levels =>
      .ite (.pure _) ?_))
    split
    · exact .ite (.bind (hfollow _) fun isVisible => .pure _) (.pure _)
    · exact .pure _
  · exact .pure _

variable (hP : Kept P)
include hP

omit hfollow in
theorem safe_setItem (i : Item) (g : Given) : Safe P (setItem i g) := by
  cases i with
  | symbol s => exact .of_sure (sure_setSymbol s g) (keeps_setSymbol hP s g)
  | choice ch => exact .of_sure (sure_setChoice ch g) (keeps_setChoice hP ch g)

theorem safe_changeItem (i : Item) (value : Json) : Safe P (changeItem i value) := by
  refine .bind .get fun c => ?_
  dsimp only
  refine .ite (safe_setItem hP _ _) ?_
  split
  · exact safe_setItem hP _ _
  · exact safe_setItem hP _ _
  · refine .bind (hfollow _) fun levels => ?_
    split
    · exact .bind (.pure _) fun level => safe_setItem hP _ _
    · exact .bind (hfollow _) fun level => safe_setItem hP _ _

end Following

theorem safe_task {action : Configuring α} (h : Safe P action) :
    Safe (Holds P T) (task action) := by
  intro s hs
  obtain ⟨a, c, haction, hc⟩ := h s.toConfiguration hs.1
  refine ⟨a, { s with toConfiguration := c }, ?_, hc, hs.2⟩
  rw [task_apply, haction]

section Requests
variable (hP : Kept P) (hfollow : ∀ {α : Type} (p : Plan α), Safe P (follow p))

include hfollow in
theorem safe_menu : Safe (Holds P T) menu :=
  .bind .get fun _ => .bind (safe_task (hfollow _)) fun _ => .bind (.update fun _ h => h) fun _ =>
    .pure _

include hP in
theorem safe_tell (line : String) : Safe (Holds P T) (tell line) :=
  .update fun _ h => ⟨hP.alike h.1 ⟨rfl, rfl, rfl, rfl, rfl, rfl, rfl, rfl, rfl, rfl⟩, h.2⟩

include hP hfollow

theorem safe_change (number : Int) (value : Json) : Safe (Holds P T) (change number value) := by
  refine .bind .get fun s => .ite (.pure _)
    (.bind (safe_task (safe_isChangeable hfollow _)) fun i => ?_)
  cases i with
  | none => exact .pure _
  | some i =>
    refine .bind (safe_task (safe_changeItem hfollow hP i value)) fun isAccepted => ?_
    exact .ite (.bind (.update fun _ h => h) fun _ => .pure _) (.pure _)

theorem safe_setItemOf (response : Response) (id : String) (value : Json) :
    Safe (Holds P T) (setItemOf response id value) := by
  unfold setItemOf
  split
  · exact .pure _
  · exact .bind (safe_change hP hfollow _ _) fun _ => .pure _

theorem safe_setItems (response : Response) (value : Json) :
    Safe (Holds P T) (setItems response value) := by
  cases value with
  | obj fields =>
    exact .foldlM (fun response (id, value) => safe_setItemOf hP hfollow response id value) fields _
  | _ => exact .pure _

end Requests

/-! ### Files -/

end Session

namespace ConfigTarget
open Configuring

/-- The file after another one was handed in; null is for the one at hand. -/
def taking (target : ConfigTarget) : Json → ConfigTarget
  | .null => target
  | value => .ofJson value

/-- The file can be loaded, or looked for in vain. -/
def Loadable (target : ConfigTarget) (c : Configuration) : Prop :=
  match target with
  | .standard => ∀ journal, succeeds (fileToLoad none { c with journal }) = true
  | .path name => Files.hasNull name = false
  | .other _ => False

/-- The file has a name, and what stands there can be compared with a text. -/
def Savable (target : ConfigTarget) (host : Host) : Prop :=
  ∃ name, target.toSave = .ok name ∧ host.files.Comparable (name.getD (standardName host))

/-- It does not matter what was told meanwhile. -/
theorem Loadable.journal {target : ConfigTarget} {c : Configuration} (h : target.Loadable c)
    (journal : Journal) : target.Loadable { c with journal } := by
  cases target with
  | standard => exact fun journal' => h journal'
  | path name => exact h
  | other value => exact h

theorem toLoad_of_loadable {target : ConfigTarget} {c : Configuration} (h : target.Loadable c) :
    ∃ name, target.toLoad = .ok name ∧ (∀ path, name = some path → Files.hasNull path = false) ∧
      (name = none → succeeds (fileToLoad none c) = true) := by
  cases target with
  | standard => exact ⟨none, rfl, nofun, fun _ => h c.journal⟩
  | path name => exact ⟨some name, rfl, fun _ hpath => Option.some.inj hpath ▸ h, nofun⟩
  | other value => exact h.elim

end ConfigTarget

namespace Session
open Configuring Kconfig.Configuration
variable {P : Configuration → Prop} {T : ConfigTarget → Prop} {α : Type}
variable {m : Model} {settings : Settings} {printed : String} {s : Session}

theorem ends_retarget (value : Json) (s : Session) :
    Ends (retarget value) s fun _ s' => s' = { s with target := s.target.taking value } := by
  cases value <;> exact ⟨_, _, rfl, rfl⟩

section Loading
variable (hm : m.Sound) (hready : ∀ c, P c → c.Ready m settings) (hP : Kept P)
  (hfollow : ∀ {α : Type} (p : Plan α), Safe P (follow p))
include hm hready hP hfollow

theorem ends_tryLoad (hs : Holds P T s) (h : s.target.Loadable s.toConfiguration) :
    Ends tryLoad s fun _ => Holds P T := by
  obtain ⟨name, hname, hpath, hfinds⟩ := ConfigTarget.toLoad_of_loadable h
  have hload := (meets_loadConfig hm (hready _ hs.1) hpath hfinds).keeping
    (keeps_loadConfig (fun p => (hfollow p).keeps) hP name true) hs.1
  unfold Ends
  rw [tryLoad_of_named hname]
  unfold Meets at hload
  cases haction : Configuring.loadConfig name true s.toConfiguration with
  | ok message c =>
    rw [haction] at hload
    exact ⟨_, _, rfl, hload.1, hs.2⟩
  | error e c =>
    rw [haction] at hload
    obtain ⟨message, hmessage⟩ := Option.isSome_iff_exists.mp hload.2
    dsimp only
    rw [hmessage]
    exact ⟨_, _, rfl, hload.1, hs.2⟩

theorem ends_loadConfig (hs : Holds P T s) (h : s.target.Loadable s.toConfiguration) :
    Ends loadConfig s fun _ => Holds P T := by
  refine (ends_tryLoad hm hready hP hfollow hs h).bind fun outcome s' hs' => ?_
  cases outcome with
  | ok message =>
    exact (safe_task (safe_differs hfollow) s' hs').bind fun _ s'' hs'' => ⟨_, _, rfl, hs''⟩
  | error message => exact ⟨_, _, rfl, hs'⟩

/-- A request to load fails only if the file cannot be loaded. -/
theorem meets_load (hs : Holds P T s) (response : Response) (value : Json) :
    Meets (load response value) s (fun _ => Holds P (· = s.target.taking value))
      fun _ _ => ¬ (s.target.taking value).Loadable s.toConfiguration := by
  refine .bind (.of_ends (ends_retarget value s)) fun _ s₁ h₁ => ?_
  subst h₁
  refine .bind_get (.bind (.of_ends ⟨⟨⟩, _, rfl, rfl⟩) (Q := fun _ s' => s' = { s with
    target := s.target.taking value
    journal := s.journal.printError
      (s!"Loading config from {targetWords (s.target.taking value)}..." ++ "\n") }) ?_)
  intro _ s₂ h₂
  have hs₂ : Holds P (· = s.target.taking value) s₂ := by
    rw [h₂]
    exact ⟨hP.alike hs.1 ⟨rfl, rfl, rfl, rfl, rfl, rfl, rfl, rfl, rfl, rfl⟩, rfl⟩
  have hload : Meets loadConfig s₂ (fun _ => Holds P (· = s.target.taking value))
      fun _ _ => ¬ (s.target.taking value).Loadable s.toConfiguration := by
    by_cases h : (s.target.taking value).Loadable s.toConfiguration
    · refine .of_ends (ends_loadConfig hm hready hP hfollow hs₂ ?_)
      rw [h₂]
      exact ConfigTarget.Loadable.journal h _
    · exact (Meets.of_keeps (holds_loadConfig hP (fun p => (hfollow p).keeps)) hs₂).mono
        (fun _ _ h => h) fun _ _ _ => h
  exact .bind hload fun _ s₃ hs₃ => .of_ends (.pure hs₃)

end Loading

theorem save_apply (response : Response) (value : Json) (s : Session) :
    save response value s = match saveConfig { s with target := s.target.taking value } with
      | .ok message s' => .ok { response with message := some message } s'
      | .error failure s' => match failure with
        | .file condition path => .ok { response with
            errors := response.errors ++
              [.notSaved ((Failure.file condition path).message?.getD "")] } s'
        | failure => .error failure s' := by
  obtain ⟨_, s₁, hretarget, rfl⟩ := ends_retarget value s
  unfold save
  rw [bind_apply, hretarget]
  show EStateM.bind (EStateM.tryCatch _ _) _ _ = _
  unfold EStateM.bind EStateM.tryCatch
  rw [bind_apply]
  cases saveConfig { s with target := s.target.taking value } with
  | ok message s' => rfl
  | error failure s' => cases failure <;> rfl

section Saving
variable (hloopless : ∀ u, m.Permits u → m.Loopless u)
include hloopless

theorem meets_saveConfig (hs : s.toConfiguration.Able m settings printed) :
    Meets saveConfig s (fun _ => Holds (Able m settings printed) fun _ => True) fun f s' =>
      Holds (Able m settings printed) (fun _ => True) s' ∧
        ((∃ condition path, f = .file condition path) ∨ ¬ s.target.Savable s.host) := by
  have hkeeps := Meets.of_keeps (holds_saveConfig (P := Able m settings printed)
    (T := fun _ => True) (fun p => keeps_able_follow p) (keptByFiles_able m settings printed))
    (s := s) ⟨hs, trivial⟩
  by_cases h : s.target.Savable s.host
  · obtain ⟨name, hname, hcomparable⟩ := h
    have hsave := Configuring.meets_saveConfig hloopless hs hcomparable
    have htask : Meets (task (Configuring.saveConfig name none true)) s (fun _ _ => True)
        fun f _ => ∃ condition path, f = .file condition path := by
      unfold Meets at hsave ⊢
      rw [task_apply]
      cases haction : Configuring.saveConfig name none true s.toConfiguration with
      | ok message c => trivial
      | error f c =>
        rw [haction] at hsave
        exact hsave
    have hends : Meets saveConfig s (fun _ _ => True)
        fun f _ => ∃ condition path, f = .file condition path := by
      refine .bind_get ?_
      rw [hname]
      refine .bind (Q := fun found s' => found = name ∧ s' = s) (.of_ends (.pure ⟨rfl, rfl⟩)) ?_
      intro found s' ⟨hfound, hsame⟩
      rw [hfound, hsame]
      exact .bind htask fun _ _ _ => .of_ends ⟨_, _, rfl, trivial⟩
    unfold Meets at hkeeps hends ⊢
    cases haction : saveConfig s with
    | ok message s' =>
      rw [haction] at hkeeps
      exact hkeeps
    | error f s' =>
      rw [haction] at hkeeps hends
      exact ⟨hkeeps, .inl hends⟩
  · exact hkeeps.mono (fun _ _ h => h) fun _ _ hs' => ⟨hs', .inr h⟩

/-- A request to save fails only if the file has no name or cannot be compared. -/
theorem meets_save (hs : s.toConfiguration.Able m settings printed) (response : Response)
    (value : Json) :
    Meets (save response value) s (fun _ => Holds (Able m settings printed) fun _ => True)
      fun _ _ => ¬ (s.target.taking value).Savable s.host := by
  have hsave := meets_saveConfig hloopless (s := { s with target := s.target.taking value }) hs
  unfold Meets at hsave ⊢
  rw [save_apply]
  cases haction : saveConfig { s with target := s.target.taking value } with
  | ok message s' =>
    rw [haction] at hsave
    exact hsave
  | error f s' =>
    rw [haction] at hsave
    obtain ⟨hs', ⟨condition, path, rfl⟩ | hsavable⟩ := hsave
    · exact hs'
    · cases f <;> first | exact hsavable | exact hs'

end Saving

end Session
end Kconfig
