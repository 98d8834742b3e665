import Kconfig.Config.Save
import Kconfig.Proofs.Config.Repeated
import Kconfig.Proofs.Values.Loopless
/-!
What can go wrong with a configuration whose values come to an end.

Where no question may be asked again for its own answer, following a plan succeeds whatever the user
gave and whatever is remembered. What is left are the files. A file that is loaded in place of the
configuration fails at most with words, because no line fails when nothing counts as assigned; a
path that no file can have is all that has none. Saving fails with words when the file cannot be
written, and without when what stands there cannot be compared.
-/
namespace Kconfig

namespace Configuration
variable {m : Model} {settings : Settings} {printed : String} {c : Configuration}

/-- A configuration of a model whose memory holds nothing wrong about items that never change, and
what was printed so far. -/
structure Able (m : Model) (settings : Settings) (printed : String) (c : Configuration) : Prop
    extends c.Ready m settings where
  memory : c.memory.Backed m c.user fun _ => False
  output : c.journal.output = printed

theorem kept_able (m : Model) (settings : Settings) (printed : String) :
    Kept (Able m settings printed) := by
  intro c c' hstep hc
  refine ⟨kept_ready m settings c c' hstep hc.toReady, ?_, ?_⟩
  · -- no question is among those that a change of the user's values could hang on
    have hgiven : ∀ (i : Item) (u : UserValues),
        (c.memory.forgetFrom c.dependents i).Backed m u fun _ => False := by
      intro i u
      rw [hc.proper.dependents]
      exact (hc.memory.forget (Memory.forgot_forgetFrom _ _ i) fun _ h => h.elim).congr
        fun _ h => h.elim
    cases hstep with
    | note h =>
      rw [h.memory, h.user]
      exact hc.memory
    | value s g hg =>
      show (c.remembered s).Backed _ _ _
      unfold remembered
      split
      · exact hgiven _ _
      · exact hc.memory.congr fun _ h => h.elim
    | select s ch a => exact hgiven _ _
    | mode ch g => exact hgiven _ _
    | unselect ch => exact hgiven _ _
  · cases hstep with
    | note h => exact h.output.trans hc.output
    | value => exact hc.output
    | select => exact hc.output
    | mode => exact hc.output
    | unselect => exact hc.output

theorem keptByFiles_able (m : Model) (settings : Settings) (printed : String) :
    KeptByFiles (Able m settings printed) := fun c files hc =>
  ⟨keptByFiles_ready m settings c files hc.toReady, hc.memory, hc.output⟩

/-- What is printed comes after what was printed before. -/
theorem Able.print (hc : c.Able m settings printed) (text : String) :
    Configuration.Able m settings (printed ++ text) { c with journal := c.journal.print text } :=
  ⟨⟨⟨hc.proper.model, hc.proper.settings, hc.proper.dependents, hc.proper.permits⟩,
    ⟨hc.fits.model, hc.fits.values, hc.fits.selections, hc.fits.symbols, hc.fits.choices⟩⟩,
    hc.memory, congrArg (· ++ text) hc.output⟩

/-- Nothing is remembered at first. -/
theorem able_of_load {host : Host} {options : LoadOptions} {w : Workspace}
    (hload : Load.load host options = .ok c w) : c.Able w.model w.settings w.journal.output := by
  refine ⟨ready_after hload [], ?_, ?_⟩
  · obtain rfl := Load.eq_ofWorkspace_of_load hload
    exact Memory.backed_empty
  · obtain rfl := Load.eq_ofWorkspace_of_load hload
    rfl

/-- Steps leave the machine as it is. -/
theorem kept_host {P : Configuration → Prop} (hP : Kept P) (host : Host) :
    Kept fun c => P c ∧ c.host = host := by
  intro c c' hstep hc
  refine ⟨hP c c' hstep hc.1, ?_⟩
  cases hstep with
  | note h => exact h.host.trans hc.2
  | value => exact hc.2
  | select => exact hc.2
  | mode => exact hc.2
  | unselect => exact hc.2

end Configuration

namespace Configuring
open Kconfig.Configuration
variable {m : Model} {settings : Settings} {printed : String} {c : Configuration} {α : Type}

/-! ### Following -/

theorem keeps_output_follow (p : Plan α) :
    Keeps (fun c => c.journal.output = printed) (follow p) := by
  intro c hc
  have hwarn : ∀ w, Keeps (fun e : Evaluation => e.journal.output = printed) (Evaluating.warn w) :=
    fun w => .update fun e he => (Journal.output_warn e.journal none w).trans he
  have hrun := Evaluating.keeps_follow (m := c.model) (u := c.user) hwarn (fun _ _ _ he => he) p
    ⟨c.memory, c.journal⟩ hc
  unfold KeepsAt at hrun ⊢
  rw [stateAfter_follow]
  exact hrun

theorem keeps_able_follow (p : Plan α) : Keeps (Able m settings printed) (follow p) := by
  intro c hc
  have hready := keeps_ready_follow p c hc.toReady
  have houtput := keeps_output_follow p c hc.output
  have hmemory := (Evaluating.reads_run (T := fun _ => False)
    (Evaluating.reads_readAt m.depthOfQueries) p ⟨c.memory, c.journal⟩ hc.memory).1
  unfold KeepsAt at hready houtput ⊢
  refine ⟨hready, ?_, houtput⟩
  rw [stateAfter_follow, hc.proper.model]
  exact hmemory

/-- An able configuration answers whatever it is asked, and stays able. -/
theorem safe_follow (hloopless : ∀ u, m.Permits u → m.Loopless u) (host : Host) (p : Plan α) :
    Safe (fun c => c.Able m settings printed ∧ c.host = host) (follow p) := by
  rintro c ⟨hc, rfl⟩
  have hsucceeds := Evaluating.succeeds_follow (hloopless c.user hc.proper.permits) p
    ⟨c.memory, c.journal⟩ hc.memory
  have hends : Ends (follow p) c fun _ _ => True := by
    obtain ⟨a, e, hfollow⟩ := ok_of_succeeds hsucceeds
    refine ⟨a, { c with memory := e.memory, journal := e.journal }, ?_, trivial⟩
    rw [follow_apply, hc.proper.model, hfollow]
  have hkeeps := hends.yielding ((noted_follow p).yields c)
  exact (hkeeps.keeping (keeps_able_follow p) hc).mono fun _ _ h => ⟨h.1, h.2.host⟩

/-! ### Loading -/

theorem meets_openConfig {path : String} (hname : Files.hasNull path = false) :
    Meets (openConfig path) c (fun _ c' => c' = c) fun f _ => f.message?.isSome := by
  refine .bind_get ?_
  split
  · exact .of_ends (.pure rfl)
  · refine .bind (.of_ends (ends_checkPath hname)) fun _ c' hsame => ?_
    subst hsame
    dsimp only
    split
    · exact .of_ends (.pure rfl)
    · exact .throw rfl

/-- A file that replaces the configuration fails at most because it cannot be opened or decoded. -/
theorem meets_takeFile (hm : m.Sound) (hc : c.Ready m settings) {path : String}
    (hname : Files.hasNull path = false) :
    Meets (takeFile path true) c (fun _ _ => True) fun f _ => f.message?.isSome := by
  refine .bind (meets_openConfig hname) fun (_, content) c₁ hsame => ?_
  subst hsame
  have hclear := (sure_clearAssigned.ends (yields_clearAssigned hc.fits)).keeping
    (keeps_clearAssigned (kept_ready m settings)) hc
  refine .bind (.of_ends hclear) fun _ c₂ ⟨hc₂, hclears⟩ => ?_
  have hlines := (failsIf_takeLines hm path content.decoded.lines 1 hc₂).ends
    (hclears.not_hollow hm _ _)
  have hunset : ∀ c', Meets (if true = true then unsetOthers else pure ()) c' (fun _ _ => True)
      fun f _ => f.message?.isSome := fun _ =>
    .of_ends (Sure.ends (.ite sure_unsetOthers (.pure _)) fun _ _ _ => trivial)
  refine .bind (.of_ends hlines) fun _ c₃ _ => ?_
  dsimp only
  cases content.decoded.fault with
  | some fault => exact .bind (Q := fun _ _ => True) (.throw rfl) fun _ c' _ => hunset c'
  | none => exact hunset c₃

/-- A default file that is found has a path that files can have. -/
theorem yields_firstFile : ∀ (defaults : List (Guarded Expr)) (c : Configuration),
    Yields (firstFile defaults) c fun found _ =>
      ∀ path, found = some path → Files.hasNull path = false
  | [], _ => .pure nofun
  | p :: more, c => by
    refine .bind (Q := fun _ _ => True) (fun _ _ _ => trivial) fun holds c₁ _ => ?_
    split
    · split
      · refine .bind (Q := fun _ _ => True) (fun _ _ _ => trivial) fun path c₂ _ => ?_
        refine .bind_get (.bind_get ?_)
        dsimp only
        have hread : ∀ {path : String}, (c₂.host.files.read path).isOk = true →
            Files.hasNull path = false := by
          intro path h
          cases hfile : c₂.host.files.read path with
          | ok content => exact Files.Store.hasNull_of_read hfile
          | error condition =>
            rw [hfile] at h
            exact nomatch h
        split
        · next h => exact .pure fun _ hpath => Option.some.inj hpath ▸ hread h
        · split
          · next h => exact .pure fun _ hpath => Option.some.inj hpath ▸ hread h
          · exact .bind (yields_checkPath path) fun _ c₃ _ => yields_firstFile more c₃
      · exact .throw _
    · exact yields_firstFile more c₁

/-- The file to load is the one that was named, or has a path that files can have. -/
theorem yields_fileToLoad (name : Option String) : Yields (fileToLoad name) c fun found _ =>
    ∀ path message, found = .ok (path, message) →
      name = some path ∨ Files.hasNull path = false := by
  cases name with
  | some name =>
    refine .pure fun path message h => .inl ?_
    exact congrArg (fun found => some found.1) (Except.ok.inj h)
  | none =>
    refine .bind_get ?_
    dsimp only
    split
    · next hexists =>
      refine .pure fun path message h => .inr ?_
      obtain rfl : standardName c.host = path := congrArg Prod.fst (Except.ok.inj h)
      rcases Bool.or_eq_true .. ▸ hexists with h | h
      · exact Files.Store.hasNull_of_exists h
      · exact Files.hasNull_of_join (Files.Store.hasNull_of_exists h)
    · have hdefault : Yields defconfigName c fun found _ =>
          ∀ path, found = some path → Files.hasNull path = false := by
        refine .bind_get ?_
        dsimp only
        split
        · exact .pure nofun
        · exact yields_firstFile _ c
        · exact yields_firstFile _ c
        · exact .throw _
      refine .bind hdefault fun found c₁ hfound => ?_
      cases found with
      | none => exact .pure nofun
      | some path =>
        refine .pure fun path' message h => .inr ?_
        obtain rfl : path = path' := congrArg Prod.fst (Except.ok.inj h)
        exact hfound path rfl

/-- Loading in place of the configuration fails at most with words, if the file can be looked
for. -/
theorem meets_loadConfig (hm : m.Sound) (hc : c.Ready m settings) {name : Option String}
    (hname : ∀ path, name = some path → Files.hasNull path = false)
    (hfinds : name = none → succeeds (fileToLoad none c) = true) :
    Meets (loadConfig name true) c (fun _ _ => True) fun f _ => f.message?.isSome := by
  have hfile : Ends (fileToLoad name) c fun _ _ => True := by
    cases name with
    | some path => exact .pure trivial
    | none =>
      obtain ⟨found, c₁, h⟩ := ok_of_succeeds (hfinds rfl)
      exact ⟨found, c₁, h, trivial⟩
  have hfound := (hfile.yielding (yields_fileToLoad name)).keeping
    (keeps_fileToLoad (fun p => keeps_ready_follow p) name) hc
  refine .bind (.of_ends hfound) fun found c₁ ⟨hc₁, hpath⟩ => ?_
  cases found with
  | error message => exact .of_ends (.pure trivial)
  | ok found =>
    obtain ⟨path, message⟩ := found
    have hvalid : Files.hasNull path = false := (hpath path message rfl).elim (hname path) id
    have htake := meets_takeFile hm (hc₁.warning false) hvalid
    have hquietly : Meets (quietly (takeFile path true)) c₁ (fun _ _ => True)
        fun f _ => f.message?.isSome := by
      unfold Meets at htake ⊢
      rw [quietly_apply]
      cases haction : takeFile path true { c₁ with warnsPromptless := false } with
      | ok a c₂ => trivial
      | error f c₂ =>
        rw [haction] at htake
        exact htake
    exact .bind hquietly fun _ _ _ => .of_ends (.pure trivial)

/-! ### Saving -/

theorem meets_writeFile (path text : String) : Meets (writeFile path text) c (fun _ _ => True)
    fun f _ => ∃ condition, f = .file condition path := by
  refine .bind_get ?_
  dsimp only
  split
  · exact .throw ⟨_, rfl⟩
  · exact .of_ends ⟨_, _, rfl, trivial⟩

theorem ends_holdsText {path : String} (h : c.host.files.Comparable path) (text : String) :
    Ends (holdsText path text) c fun _ c' => c' = c := by
  refine .bind_get ?_
  cases hfile : c.host.files.read path with
  | error condition =>
    exact (ends_checkPath h.1).bind fun _ c' hsame => .pure hsame
  | ok content =>
    dsimp only
    rw [Text.Decoded.read, h.2 content hfile]
    exact .pure rfl

/-- Saving fails at most because the file cannot be written, if what is there can be compared. -/
theorem meets_saveConfig (hloopless : ∀ u, m.Permits u → m.Loopless u)
    (hc : c.Able m settings printed) {name : Option String}
    (h : c.host.files.Comparable (name.getD (standardName c.host))) :
    Meets (saveConfig name none true) c (fun _ _ => True)
      fun f _ => ∃ condition path, f = .file condition path := by
  refine .bind_get ?_
  dsimp only
  have htext : Ends (configText none) c fun _ c₁ => c₁.host = c.host := by
    refine .bind_get (.bind (Q := fun _ c' => c' = c) (.bind_get (.pure rfl)) ?_)
    intro style c' hsame
    rw [hsame]
    exact (safe_follow hloopless _ _ c ⟨hc, rfl⟩).mono fun _ _ hc' => hc'.2
  refine .bind (.of_ends htext) fun text c₁ hhost => ?_
  have hfiles : c₁.host.files = c.host.files := congrArg Host.files hhost
  refine .bind (.of_ends (ends_holdsText (hfiles ▸ h) text)) fun holds c₂ _ => ?_
  have hwrite : ∀ c', Meets (writeFile (name.getD (standardName c.host)) text >>= fun _ =>
      pure s!"Configuration saved to '{name.getD (standardName c.host)}'") c' (fun _ _ => True)
      fun f _ => ∃ condition path, f = .file condition path := by
    intro c'
    refine .bind ((meets_writeFile _ text).mono (fun _ _ h => h) fun f _ ⟨condition, hf⟩ =>
      ⟨condition, _, hf⟩) fun _ _ _ => .of_ends (.pure trivial)
  split
  · exact .of_ends (.pure trivial)
  · exact .bind (Q := fun _ _ => True) (.of_ends ⟨_, _, rfl, trivial⟩) fun _ c' _ => hwrite c'

end Configuring
end Kconfig
