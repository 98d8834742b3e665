import Kconfig.Proofs.Config.Coherence
import Kconfig.Proofs.Menu.Unsaved
/-!
What the events of a session keep.

Whatever happens to a session comes down to steps of its configuration, to following plans, and to
working on files. So what these keep of a configuration is kept by every event, also by one that
fails, and holds after any events.
-/
namespace Kconfig

namespace Session
open Configuring Kconfig.Configuration
variable {P : Configuration → Prop} {α : Type}

section Following
variable (hfollow : ∀ {α : Type} (p : Plan α), Keeps P (follow p))
include hfollow

theorem keeps_isUnsaved (s : SymbolId) : Keeps P (isUnsaved s) := by
  refine .bind .get fun c => ?_
  split
  · exact .bind (hfollow _) fun _ => .pure _
  · exact .ite (.bind (hfollow _) fun _ => .pure _) (.bind (hfollow _) fun _ => .pure _)

theorem keeps_anyUnsaved : ∀ symbols : List SymbolId, Keeps P (anyUnsaved symbols)
  | [] => .pure _
  | s :: more => .bind (keeps_isUnsaved hfollow s) fun _ => .ite (.pure _) (keeps_anyUnsaved more)

theorem keeps_differs : Keeps P differs :=
  .bind .get fun _ => .ite (.pure _) (keeps_anyUnsaved hfollow _)

variable (hP : Kept P)
include hP

omit hfollow in
theorem keeps_setItem (i : Item) (g : Given) : Keeps P (setItem i g) := by
  cases i with
  | symbol s => exact keeps_setSymbol hP s g
  | choice ch => exact keeps_setChoice hP ch g

theorem keeps_changeItem (i : Item) (value : Json) : Keeps P (changeItem i value) := by
  refine .bind .get fun c => ?_
  dsimp only
  refine .ite (keeps_setItem hP _ _) ?_
  split
  · exact keeps_setItem hP _ _
  · exact keeps_setItem hP _ _
  · refine .bind (hfollow _) fun levels => ?_
    split
    · exact .bind (.pure _) fun level => keeps_setItem hP _ _
    · exact .bind (hfollow _) fun level => keeps_setItem hP _ _

end Following

/-! ### Sessions -/

/-- A session starts with a configuration that was loaded. -/
theorem load_of_open? {host : Host} {name : String} {target : ConfigTarget} {showsAll : Bool}
    {version : Option Int} {s : Session} {w : Workspace}
    (h : open? host name target showsAll version = .ok s w) :
    (∃ options, Load.load host options = .ok s.toConfiguration w) ∧ s.target = target := by
  unfold open? at h
  dsimp only at h
  split at h
  · next c w' hload =>
    injection h with hs hw
    subst hs hw
    exact ⟨⟨_, hload⟩, rfl⟩
  · exact nomatch h

/-- A session whose configuration has a property, and whose file has one. -/
def Holds (P : Configuration → Prop) (T : ConfigTarget → Prop) (s : Session) : Prop :=
  P s.toConfiguration ∧ T s.target

variable {T : ConfigTarget → Prop}

theorem holds_task {action : Configuring α} (h : Keeps P action) :
    Keeps (Holds P T) (task action) := by
  intro s hs
  have hs' := h s.toConfiguration hs.1
  unfold KeepsAt at hs' ⊢
  rw [task_apply]
  cases haction : action s.toConfiguration <;>
  · rw [haction] at hs'
    exact ⟨hs', hs.2⟩

theorem holds_orFail (r : Except Failure α) : Keeps (Holds P T) (orFail r) := by
  cases r with
  | ok a => exact .pure a
  | error e => exact .throw e

section Calls
variable (hP : Kept P) (hfollow : ∀ {α : Type} (p : Plan α), Keeps P (follow p))
include hfollow

theorem holds_menu : Keeps (Holds P T) menu :=
  .bind .get fun _ => .bind (holds_task (hfollow _)) fun _ => .bind (.update fun _ h => h) fun _ =>
    .pure _

include hP

theorem holds_change (number : Int) (value : Json) : Keeps (Holds P T) (change number value) := by
  refine .bind .get fun s => .ite (.pure _)
    (.bind (holds_task (keeps_isChangeable hfollow _)) fun i => ?_)
  cases i with
  | none => exact .pure _
  | some i =>
    refine .bind (holds_task (keeps_changeItem hfollow hP i value)) fun isAccepted => ?_
    exact .ite (.bind (.update fun _ h => h) fun _ => .pure _) (.pure _)

theorem holds_tryLoad : Keeps (Holds P T) tryLoad := by
  intro s hs
  have hload : KeepsAt (Holds P T) s (orFail s.target.toLoad >>= fun name =>
      task (Configuring.loadConfig name true)) :=
    Keeps.bind (holds_orFail _) (fun name => holds_task (keeps_loadConfig hfollow hP name true)) s hs
  unfold KeepsAt at hload ⊢
  rw [tryLoad_apply]
  cases haction : (orFail s.target.toLoad >>= fun name =>
      task (Configuring.loadConfig name true) : Act String) s with
  | ok message s' =>
    rw [haction] at hload
    exact hload
  | error e s' =>
    rw [haction] at hload
    dsimp only
    cases e.message? <;> exact hload

theorem holds_loadConfig : Keeps (Holds P T) loadConfig := by
  refine .bind (holds_tryLoad hP hfollow) fun outcome => ?_
  cases outcome with
  | ok message =>
    exact .bind (holds_task (keeps_differs hfollow)) fun _ => .bind (.update fun _ h => h) fun _ =>
      .pure _
  | error message => exact .bind (.update fun _ h => h) fun _ => .pure _

omit hP in
theorem holds_saveConfig (hfiles : KeptByFiles P) : Keeps (Holds P T) saveConfig :=
  .bind .get fun _ => .bind (holds_orFail _) fun name =>
    .bind (holds_task (keeps_saveConfig hfiles hfollow name none true)) fun _ =>
      .bind (.update fun _ h => h) fun _ => .pure _

end Calls

/-! ### Events -/

/-- What can happen to a session: a call, another file or another view of the menu, and files that
others write. -/
inductive Event where
  | call (call : Call)
  | retarget (target : ConfigTarget)
  | view (showsAll : Bool)
  | changeFiles (files : Files.Store)

/-- What an event does. -/
def Event.perform : Event → Act Unit
  | .call c => c.perform
  | .retarget target => modify ({ · with target })
  | .view showsAll => modify ({ · with showsAll })
  | .changeFiles files => modify fun s => { s with host.files := files }

/-- The session after events, each of which may have failed. -/
def afterEvents (s : Session) (events : List Event) : Session :=
  events.foldl (fun s event => stateAfter (event.perform s)) s

section Events
variable (hP : Kept P) (hfiles : KeptByFiles P)
  (hfollow : ∀ {α : Type} (p : Plan α), Keeps P (follow p))
include hP hfiles hfollow

theorem holds_event (event : Event) : Keeps (Holds P fun _ => True) event.perform := by
  cases event with
  | call c =>
    cases c with
    | menu => exact .bind (holds_menu hfollow) fun _ => .pure _
    | change id value => exact .bind (holds_change hP hfollow id value) fun _ => .pure _
    | load => exact .bind (holds_loadConfig hP hfollow) fun _ => .pure _
    | save => exact .bind (holds_saveConfig hfollow hfiles) fun _ => .pure _
  | retarget target => exact .update fun _ h => ⟨h.1, trivial⟩
  | view showsAll => exact .update fun _ h => h
  | changeFiles files => exact .update fun _ h => ⟨hfiles _ files h.1, h.2⟩

/-- What steps, following plans and other files keep holds after any events. -/
theorem holds_after {s : Session} (hs : P s.toConfiguration) (events : List Event) :
    P (s.afterEvents events).toConfiguration :=
  (Lists.foldl_keeps (Holds P fun _ => True)
    (fun s event hs => holds_event hP hfiles hfollow event s hs) events ⟨hs, trivial⟩).1

end Events

end Session
end Kconfig
