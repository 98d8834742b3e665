import Kconfig.Proofs.Action
import Kconfig.Proofs.Reading.OnePass
/-!
What an action does not read does not matter.

An action is blind to a change of the workspace if it does the same after the change as before it,
and what it leaves differs by the same change. The end of an entry and the help text of a node are
blind to the number of the line that is read.
-/
namespace Kconfig
variable {α β : Type} {change : Workspace → Workspace}

/-- What the action does when it succeeds, it does after the change as well. -/
def Blind (change : Workspace → Workspace) (action : Reading α) : Prop :=
  ∀ w a w', action w = .ok a w' → action (change w) = .ok a (change w')

namespace Blind

theorem pure (a : α) : Blind change (Pure.pure a) := by
  intro w b w' h
  cases h
  rfl

theorem throw (e : Failure) : Blind change (MonadExcept.throw e : Reading α) :=
  fun _ _ _ h => nomatch h

theorem problem (p : Problem) : Blind change (Reading.problem p : Reading α) :=
  fun _ _ _ h => nomatch h

/-- What comes next may use what the action gave. -/
theorem bind_of {action : Reading α} {next : α → Reading β} (h : Blind change action)
    (hnext : ∀ w a w', action w = .ok a w' → Blind change (next a)) :
    Blind change (action >>= next) := by
  intro w b w' hb
  obtain ⟨a, w₁, ha, hb⟩ := bind_ok hb
  rw [bind_apply, h w a w₁ ha]
  exact hnext w a w₁ ha w₁ b w' hb

theorem bind {action : Reading α} {next : α → Reading β} (h : Blind change action)
    (hnext : ∀ a, Blind change (next a)) : Blind change (action >>= next) :=
  h.bind_of fun _ a _ _ => hnext a

theorem map (f : α → β) {action : Reading α} (h : Blind change action) :
    Blind change (f <$> action) := by
  rw [map_eq_pure_bind]
  exact h.bind fun a => .pure (f a)

/-- An action may use that its workspace is the one that was looked at. -/
theorem bind_get_apply {next : Workspace → Reading α}
    (h : ∀ w a w', next w w = .ok a w' → next (change w) (change w) = .ok a (change w')) :
    Blind change (get >>= next) := h

/-- What is looked up is not touched by the change. -/
theorem bind_get {next : Workspace → Reading α} (hnext : ∀ w, next (change w) = next w)
    (h : ∀ w, Blind change (next w)) : Blind change (get >>= next) := by
  refine bind_get_apply fun w a w' ha => ?_
  rw [hnext]
  exact h w w a w' ha

/-- What is looked up and put back changed, is changed beside the change. -/
theorem get_set {f : Workspace → Workspace} {next : Workspace → Reading α}
    (hf : ∀ w, f (change w) = change (f w)) (hnext : ∀ w, next (change w) = next w)
    (h : ∀ w, Blind change (next w)) : Blind change (do
      let w ← get
      set (f w)
      next w) := by
  intro w a w' ha
  show next (change w) (f (change w)) = _
  rw [hf, hnext]
  exact h w (f w) a w' ha

theorem update {f : Workspace → Workspace} (h : ∀ w, f (change w) = change (f w)) :
    Blind change (modify f : Reading PUnit) := by
  intro w a w' ha
  cases ha
  exact congrArg (EStateM.Result.ok _) (h w)

theorem ite {c : Prop} [Decidable c] {action action' : Reading α} (h : Blind change action)
    (h' : Blind change action') : Blind change (if c then action else action') := by
  split
  · exact h
  · exact h'

theorem forIn {f : α → β → Reading (ForInStep β)} (h : ∀ a b, Blind change (f a b)) :
    ∀ (xs : List α) (b : β), Blind change (ForIn.forIn xs b f)
  | [], b => .pure b
  | x :: xs, b => by
    rw [List.forIn_cons]
    refine .bind (h x b) fun step => ?_
    cases step with
    | done b => exact .pure b
    | yield b => exact forIn h xs b

end Blind

/-! ### Changes beside the model -/

/-- A change that touches neither the model nor the journal. -/
class Beside (change : Workspace → Workspace) : Prop where
  model : ∀ w, (change w).model = w.model
  modify : ∀ w (f : Model → Model),
    { change w with model := f (change w).model } = change { w with model := f w.model }
  journal : ∀ w (f : Journal → Journal),
    { change w with journal := f (change w).journal } = change { w with journal := f w.journal }

/-- The workspace with another line as the one that is read. -/
def Workspace.atLine (n : Nat) (w : Workspace) : Workspace := { w with place.spot.line := n }

/-- The workspace of another version of the notation. -/
def Workspace.asVersion (n : Int) (w : Workspace) : Workspace :=
  { w with settings.version := n }

instance (n : Nat) : Beside (Workspace.atLine n) :=
  ⟨fun _ => rfl, fun _ _ => rfl, fun _ _ => rfl⟩

instance (n : Int) : Beside (Workspace.asVersion n) :=
  ⟨fun _ => rfl, fun _ _ => rfl, fun _ _ => rfl⟩

namespace Blind
variable [Beside change]

theorem modifyModel (f : Model → Model) : Blind change (Reading.modifyModel f) :=
  .update fun w => Beside.modify w f

theorem warn (warning : Warning) : Blind change (Reading.warn warning) :=
  .update fun w => Beside.journal w (·.warn none warning)

end Blind

namespace Reading
variable {n : NodeId} [Beside change]

theorem blind_itemOf : Blind change (itemOf n) := by
  refine .bind_get (fun w => by simp only [Beside.model]) fun w => ?_
  split
  · exact .pure _
  · exact .throw _

theorem blind_warnOwner (warning : String → Warning) : Blind change (warnOwner n warning) :=
  .bind blind_itemOf fun _ => .bind_get (fun w => by rw [Beside.model]) fun _ => .warn _

theorem blind_setHelp (help : HelpText) : Blind change (setHelp n help) :=
  .ite (.bind (blind_warnOwner _) fun _ => .modifyModel _) (.modifyModel _)

theorem blind_warnPromptless : Blind change (warnPromptless n) := by
  refine .bind_get (fun w => by simp only [Beside.model]) fun w => ?_
  dsimp only
  split
  · exact .ite (blind_warnOwner _) (.pure _)
  · exact .pure _

theorem blind_closeEntry (layout : Layout) : Blind change (closeEntry layout) := by
  unfold closeEntry
  split
  · exact .bind blind_warnPromptless fun _ => .pure _
  · exact .pure _

end Reading
end Kconfig
