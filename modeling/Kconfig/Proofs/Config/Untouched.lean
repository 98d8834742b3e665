import Kconfig.Config.Save
import Kconfig.Proofs.Config.Repeated
import Kconfig.Proofs.Config.Selected
/-!
Configurations that are left as they were.

Asking, noting and working on files change none of the user's values, and remember nothing but
answers that are determined, so that the text of the configuration stays the same, also when what is
remembered is wrong. Saving does no more than that. A load that fails does no more than that unless
it stops in the middle of a file: nothing that it does with the lines can end in a failure that has
words.
-/
namespace Kconfig
open Memory

namespace Configuration

/-- Nothing was done to the configuration but asking, noting and working on files. -/
structure Untouched (c c' : Configuration) : Prop extends c.Asked c' where
  settings : c'.settings = c.settings

variable {base c c' : Configuration}

theorem Untouched.refl (c : Configuration) : c.Untouched c := ⟨.refl c, rfl⟩

theorem Untouched.keptByFiles : KeptByFiles base.Untouched :=
  fun _ _ h => ⟨⟨h.model, h.user, h.grown⟩, h.settings⟩

theorem Untouched.alike (h : base.Untouched c) (ha : c.Alike c') : base.Untouched c' :=
  ⟨⟨ha.model.trans h.model, ha.user.trans h.user, ha.memory ▸ h.grown⟩,
    ha.settings.trans h.settings⟩

end Configuration

namespace Configuring
open Kconfig.Configuration
variable {base c c' : Configuration} {α β : Type}

theorem keeps_untouched_follow (p : Plan α) : Keeps base.Untouched (follow p) := by
  intro c hc
  have hgrown := Evaluating.keeps_run (fun w => .update fun _ h => h)
    (Evaluating.keeps_readAt base.model.depthOfQueries) p ⟨c.memory, c.journal⟩ hc.grown
  unfold KeepsAt at hgrown ⊢
  rw [stateAfter_follow, hc.model, hc.user]
  exact ⟨⟨rfl, rfl, hgrown⟩, hc.settings⟩

/-- What a plan gives is determined by what was remembered at first. -/
theorem yields_untouched_follow (hc : base.Untouched c) (p : Plan α) :
    Yields (follow p) c fun a _ => ∃ depth,
      p.run (recallAt base.model base.user base.memory depth) (fun _ => some ()) = some a := by
  intro a c' ha
  obtain ⟨e, hfollow, -⟩ := follow_ok ha
  rw [hc.model, hc.user] at hfollow
  exact (Evaluating.yields_run (Evaluating.yields_readAt _) p _ hc.grown _ _ hfollow).2

/-- The text of an untouched configuration is the one from before. -/
theorem configText_of_untouched (h : base.Untouched c) {header : Option String} {text text' : String}
    {base' c' : Configuration} (hbase : configText header base = .ok text base')
    (hnow : configText header c = .ok text' c') : text' = text := by
  obtain ⟨depth, hrun⟩ := yields_untouched_follow (.refl base) _ _ _ hbase
  change follow (c.model.configText ⟨c.settings.configPrefix, header.getD c.settings.configHeader⟩) c
    = _ at hnow
  rw [h.model, h.settings] at hnow
  obtain ⟨depth', hrun'⟩ := yields_untouched_follow h _ _ _ hnow
  have h₁ := Plan.run_mono (fun _ _ => recallAt_le (Nat.le_max_left depth depth')) hrun
  have h₂ := Plan.run_mono (fun _ _ => recallAt_le (Nat.le_max_right depth depth')) hrun'
  exact Option.some.inj (h₂.symm.trans h₁)

theorem keeps_untouched_note {f : Configuration → Configuration} (h : ∀ c, Alike c (f c)) :
    Keeps base.Untouched (modify f : Configuring PUnit) := .update fun c hc => hc.alike (h c)

/-! ### Saving -/

section Saving
variable {P : Configuration → Prop}

theorem keeps_holdsText (path text : String) : Keeps P (holdsText path text) := by
  refine .bind .get fun c => ?_
  split
  · exact .bind (keeps_checkPath path) fun _ => .pure _
  · split
    · exact .pure _
    · exact .throw _

variable (hfiles : KeptByFiles P)
include hfiles

theorem keeps_onFiles (path : String)
    (action : Files.Store → Except Files.Condition (α × Files.Store)) :
    Keeps P (onFiles path action) := by
  refine Keeps.bind_get fun c hc => ?_
  split
  · exact hc
  · exact hfiles _ _ hc

/-- Saving works on files, whether it succeeds or not. -/
theorem keeps_saveConfig (hfollow : ∀ {α : Type} (p : Plan α), Keeps P (follow p))
    (name header : Option String) (keepsOld : Bool) : Keeps P (saveConfig name header keepsOld) := by
  refine .bind .get fun c => .bind (.bind .get fun c' => .bind (.bind .get fun _ => .pure _)
    fun style => hfollow _) fun text => .bind (keeps_holdsText _ _) fun isHeld =>
      .ite (.pure _) ?_
  refine .ite (.bind (.update fun _ h => hfiles _ _ h) fun _ => ?_) ?_
  all_goals exact .bind (keeps_onFiles hfiles _ _) fun _ => .pure _

end Saving

end Configuring

/-! ### Loads that fail -/

/-- A failure of the action is none that a session turns into a message. -/
abbrev Wordless {σ α : Type} (action : EStateM Failure σ α) : Prop :=
  Throws (fun e => e.message? = none) action

namespace Evaluating
variable {m : Model} {u : UserValues}

theorem wordless_run {α : Type} {ask : (q : Query) → Evaluating q.Answer}
    (hask : ∀ q, Wordless (ask q)) : ∀ p : Plan α, Wordless (p.run ask warn)
  | .done a => .pure a
  | .warn _ next => .bind (.update _) fun _ => wordless_run hask next
  | .ask q next => .bind (hask q) fun a => wordless_run hask (next a)

theorem wordless_readAt : ∀ (depth : Nat) (q : Query), Wordless (readAt m u depth q)
  | 0, _ => .throw rfl
  | depth + 1, q => by
    refine .bind .get fun e => ?_
    split
    · exact .pure _
    · exact .bind (wordless_run (wordless_readAt depth) _) fun _ => .bind (.update _) fun _ => .pure _

end Evaluating

namespace Configuring
open Kconfig.Configuration
variable {base c c' : Configuration} {α : Type}

theorem wordless_follow (p : Plan α) : Wordless (follow p) := by
  intro c e c' he
  rw [follow_apply] at he
  cases hfollow : Evaluating.follow c.model c.user p ⟨c.memory, c.journal⟩ with
  | ok a e₁ =>
    rw [hfollow] at he
    exact nomatch he
  | error f e₁ =>
    rw [hfollow] at he
    injection he with he
    exact he ▸ Evaluating.wordless_run (Evaluating.wordless_readAt _) p _ f e₁ hfollow

theorem wordless_of_sure {action : Configuring α} (h : Sure action) : Wordless action :=
  h.mono fun _ => False.elim

theorem wordless_takeLines (file : String) (number : Nat) (lines : List (List Char)) :
    Wordless (takeLines file number lines) :=
  (unnamed_takeLines file number lines).mono fun _ h => h ▸ rfl

theorem wordless_firstFile : ∀ ps : List (Guarded Expr), Wordless (firstFile ps)
  | [] => .pure _
  | p :: ps => by
    refine .bind (.bind .get fun _ => wordless_follow _) fun holds => .ite ?_ (wordless_firstFile ps)
    split
    · exact .bind (wordless_follow _) fun path => .bind .get fun _ => .bind .get fun _ =>
        .ite (.pure _) (.ite (.pure _) (.bind (.ite (.throw rfl) (.pure _)) fun _ =>
          wordless_firstFile ps))
    · exact .throw rfl

theorem wordless_fileToLoad (name : Option String) : Wordless (fileToLoad name) := by
  have hdefconfig : Wordless defconfigName := by
    refine .bind .get fun c => ?_
    dsimp only
    split
    · exact .pure _
    · exact wordless_firstFile _
    · exact wordless_firstFile _
    · exact .throw rfl
  unfold fileToLoad
  split
  · exact .pure _
  · refine .bind .get fun c => ?_
    dsimp only
    refine .ite (.pure _) (.bind hdefconfig fun found => ?_)
    cases found <;> exact .pure _

/-- A file that decodes is taken in full, so a failure comes before anything is assigned. -/
theorem untouched_of_takeFile_fails {path : String} {replaces : Bool} (hc : base.Untouched c)
    (hdecodes : ∀ content, c.opened? path = some content → content.decoded.fault = none)
    {e : Failure} (h : takeFile path replaces c = .error e c') (hwords : e.message? ≠ none) :
    base.Untouched c' := by
  have hopen := keeps_openConfig (P := base.Untouched) path c hc
  unfold KeepsAt at hopen
  unfold takeFile at h
  rw [bind_apply] at h
  cases haction : openConfig path c with
  | error f c₁ =>
    rw [haction] at h hopen
    injection h with _ hc'
    exact hc' ▸ hopen
  | ok found c₁ =>
    obtain ⟨-, hfound⟩ := yields_openConfig path found c₁ haction
    rw [haction] at h
    have htail : Wordless (takeContent path found.2 replaces) := by
      refine .bind (wordless_takeLines _ _ _) fun _ => ?_
      rw [hdecodes found.2 hfound]
      exact .ite (wordless_of_sure sure_unsetOthers) (.pure _)
    exact absurd ((Throws.ite (.bind (wordless_of_sure sure_clearAssigned) fun _ => htail)
      htail) c₁ e c' h) hwords

theorem untouched_of_loadConfig_fails {name : Option String} {replaces : Bool}
    (hc : base.Untouched c)
    (hdecodes : ∀ path content, c.opened? path = some content → content.decoded.fault = none)
    {e : Failure} (h : loadConfig name replaces c = .error e c') (hwords : e.message? ≠ none) :
    base.Untouched c' := by
  have hfile := keeps_fileToLoad (P := base.Untouched) keeps_untouched_follow name c hc
  unfold KeepsAt at hfile
  unfold loadConfig at h
  rw [bind_apply] at h
  cases haction : fileToLoad name c with
  | error f c₁ =>
    rw [haction] at h
    injection h with hf
    exact absurd (wordless_fileToLoad name c f c₁ haction) (hf ▸ hwords)
  | ok found c₁ =>
    have hnoted := noted_fileToLoad name c found c₁ haction
    rw [haction] at h hfile
    cases found with
    | error message => exact nomatch h
    | ok found =>
      dsimp only at h
      rw [bind_apply, quietly_apply] at h
      have hquiet : base.Untouched { c₁ with warnsPromptless := false } :=
        hfile.alike ⟨rfl, rfl, rfl, rfl, rfl, rfl, rfl, rfl, rfl, rfl⟩
      cases htake : takeFile found.1 replaces { c₁ with warnsPromptless := false } with
      | ok _ c₂ =>
        rw [htake] at h
        exact nomatch h
      | error f c₂ =>
        rw [htake] at h
        injection h with hf hc'
        subst hf hc'
        refine (untouched_of_takeFile_fails hquiet (fun content hcontent => ?_) htake hwords).alike
          ⟨rfl, rfl, rfl, rfl, rfl, rfl, rfl, rfl, rfl, rfl⟩
        refine hdecodes found.1 content (Eq.trans ?_ hcontent)
        simp only [opened?, hnoted.host, hnoted.settings]

end Configuring

end Kconfig
