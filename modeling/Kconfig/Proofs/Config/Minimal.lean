import Kconfig.Config.Save
import Kconfig.Proofs.Config.LeftOut
import Kconfig.Proofs.Config.RoundTrip
/-!
A minimal configuration is the whole configuration, but for texts and numbers that are selected.

What is written tells the values of the symbols that are not left out, each of them once, and
loading it gives these and no others. Every answer is then the one that was saved as long as each
symbol that is selected although it is no bool would have its value without the user too. Otherwise
the user's value of such a symbol is lost: it is left out as if being selected decided its value.
-/
namespace Kconfig
open Plan Memory Text

variable {m : Model} {u : UserValues} {v : Valuation} {c : Configuration} {s : SymbolId}

/-! ### What is written -/

namespace Model

/-- The line of a symbol is the one in a configuration, if it has any. -/
theorem minimalLine_result : (m.minimalLine {} s).result v =
    if m.hasLine v s then assignmentLine {} (m.symbol s) (v (.text (.symbol s))).value else "" := by
  cases hfixed : (m.isFixed s).result v with
  | true => simp [minimalLine, hasLine, hfixed]
  | false =>
    by_cases hdefault : (v (.text (.symbol s))).value = (m.defaultText s).result v
    · simp [minimalLine, hasLine, hfixed, hdefault]
    · cases hown : (m.isOwnSelection s).result v <;>
        cases hwritten : (v (.text (.symbol s))).isWritten <;>
        simp [minimalLine, hasLine, configLine, hfixed, hdefault, hown, hwritten]

/-- A minimal configuration is lines that tell the values of the symbols that are not left out. -/
theorem minimalText_lines (hv : m.Solves u v) (h : ∀ s ∈ m.defined, IsWord (m.symbol s).name ∧
      (m.symbol s).FitsLine (v (.text (.symbol s))).value) :
    ∃ lines, ((m.minimalText {}).result v).toList = textOf lines ∧ (∀ l ∈ lines, l.Tells m v) ∧
      lines.filterMap (·.symbol) = m.defined.filter (m.hasLine v) := by
  have hline : ∀ s ∈ m.defined, m.Told v ((m.minimalLine {} s).result v)
      (Option.guard (m.hasLine v) s).toList := fun s hs => by
    rw [minimalLine_result]
    cases hline : m.hasLine v s with
    | true =>
      rw [Option.guard_eq_some_iff.mpr ⟨rfl, hline⟩]
      exact told_value hv (h s hs).1 (h s hs).2
    | false =>
      rw [Option.guard_eq_none_iff.mpr hline]
      exact .empty
  rw [minimalText, joinLines_result, String.empty_append, ← List.filterMap_eq_filter]
  exact Told.join m.defined hline

theorem written_of_hasLine (h : m.hasLine v s = true) :
    (v (.text (.symbol s))).isWritten = true := ((Bool.and_eq_true _ _).mp h).2

end Model

/-- With right answers in mind, what following a plan gives is what it gives under the valuation. -/
theorem Configuring.result_of_follow (hmodel : c.model = m) (hmemory : c.memory.Right v)
    (hv : m.Solves c.user v) {α : Type} {p : Plan α} {a : α} {d : Configuration}
    (h : follow p c = .ok a d) : a = p.result v := by
  obtain ⟨d', hresult⟩ := follow_of_right hmodel hmemory hv p
  rw [h] at hresult
  injection hresult

/-! ### What is loaded -/

/-- When the values of the symbols that are not left out are loaded, so is what was saved of them. -/
theorem Configuration.Loaded.trimmed {taken : List SymbolId} (h : c.Loaded m v taken)
    (htaken : ∀ s, s ∈ taken ↔ m.hasLine v s = true) : UserValues.Trimmed m v c.user := by
  refine ⟨fun s => (h.value s).trans ?_, fun ch s => (h.selection ch s).trans ?_⟩
  · simp only [htaken]
  · rw [htaken]

namespace Configuration

/-- Two configurations answer every question alike, and hold the same. -/
def Matches (c c' : Configuration) : Prop :=
  (∀ q, ∃ a d d', Configuring.ask q c = .ok a d ∧ Configuring.ask q c' = .ok a d') ∧
    ∃ text d d', Configuring.configText (some "") c = .ok text d ∧
      Configuring.configText (some "") c' = .ok text d'

/-- Whatever is selected outside choices although it is no bool has the text that it has without the
user. -/
def ForcedDefault (c : Configuration) : Prop :=
  ∀ s ∈ c.model.defined, (c.model.symbol s).type ≠ .bool → (c.model.symbol s).choice = none →
    ∀ d, Configuring.holds (c.model.symbol s).revDep c = .ok true d → ∃ a d d',
      Configuring.ask (.text (.symbol s)) c = .ok a d ∧
        Configuring.follow (c.model.textRule {} (.symbol s)) c = .ok a d'

/-- With right answers in mind it is the valuation that tells whether this is so. -/
theorem forcedDefault_iff (hmodel : c.model = m) (hmemory : c.memory.Right v)
    (hv : m.Solves c.user v) : c.ForcedDefault ↔ m.ForcedDefault v := by
  have hreads := @Configuring.follow_of_right _ _ _ hmodel hmemory hv
  have hread := @Configuring.result_of_follow _ _ _ hmodel hmemory hv
  subst hmodel
  constructor
  · intro h s hs htype hchoice hforced
    obtain ⟨d, hholds⟩ := hreads (c.model.holds (c.model.symbol s).revDep)
    rw [hforced] at hholds
    obtain ⟨a, _, _, hask, hrule⟩ := h s hs htype hchoice d hholds
    exact (hread hrule).symm.trans (hread hask)
  · intro h s hs htype hchoice d hholds
    have hsame := h s hs htype hchoice (hread hholds).symm
    obtain ⟨d₁, hask⟩ := hreads (.ask (.text (.symbol s)) .done)
    obtain ⟨d₂, hrule⟩ := hreads (c.model.textRule {} (.symbol s))
    rw [hsame] at hrule
    exact ⟨_, d₁, d₂, hask, hrule⟩

end Configuration

/-- The text of a minimal configuration without a header is a plan of the model. -/
theorem Configuring.minimalText_eq {settings : Settings} (hc : c.Proper m settings)
    (hmark : settings.configPrefix = "CONFIG_") :
    minimalText (some "") c = follow (m.minimalText {}) c := by
  show follow (c.model.minimalText ⟨c.settings.configPrefix, ""⟩) c = _
  rw [hc.model, hc.settings, hmark]

/-- Two configurations of a model with right answers in mind match when the answers are the same. -/
theorem Configuration.matches_iff {settings : Settings} {c' : Configuration} {v' : Valuation}
    (hmark : settings.configPrefix = "CONFIG_") (hc : c.Proper m settings)
    (hmemory : c.memory.Right v) (hv : m.Solves c.user v) (hc' : c'.Proper m settings)
    (hmemory' : c'.memory.Right v') (hv' : m.Solves c'.user v') : c.Matches c' ↔ v' = v := by
  constructor
  · rintro ⟨hsame, -⟩
    funext q
    obtain ⟨a, d, d', hask, hask'⟩ := hsame q
    have hresult := Configuring.result_of_follow hc.model hmemory hv hask
    have hresult' := Configuring.result_of_follow hc'.model hmemory' hv' hask'
    exact hresult'.symm.trans hresult
  · rintro rfl
    have hreads := @Configuring.follow_of_right _ _ _ hc.model hmemory hv
    have hreads' := @Configuring.follow_of_right _ _ _ hc'.model hmemory' hv'
    refine ⟨fun q => ?_, ?_⟩
    · obtain ⟨d, hask⟩ := hreads (.ask q .done)
      obtain ⟨d', hask'⟩ := hreads' (.ask q .done)
      exact ⟨v' q, d, d', hask, hask'⟩
    · obtain ⟨d, htext⟩ := hreads (m.configText {})
      obtain ⟨d', htext'⟩ := hreads' (m.configText {})
      exact ⟨_, d, d', (Configuring.configText_eq hc hmark).trans htext,
        (Configuring.configText_eq hc' hmark).trans htext'⟩

section Loading
variable {host : Host} {options : LoadOptions} {w : Workspace}
  (hload : Load.load host options = .ok c w)
include hload

/-- In a loaded model the direct dependencies of a visible symbol hold. -/
theorem directDep_of_visible (hv : w.model.Solves u v) (hvisible : v (.visible (.symbol s)) = true) :
    (w.model.holds (w.model.symbol s).directDep).result v = true := by
  have hplain := hv.constants_plain
  rw [hv.eq_result] at hvisible
  obtain ⟨m, ⟨blocks, table, hread, hmodel, hlinked⟩, -, -⟩ := Load.load_ok hload
  rw [hmodel] at hvisible ⊢
  exact hread.directDep_of_visible hplain hvisible

/-- A new configuration that loads what was written has the user's values that are not left out. -/
theorem loadConfig_trimmed (hmark : w.settings.configPrefix = "CONFIG_") (hv : w.model.Solves u v)
    (h : ∀ s ∈ w.model.defined, IsWord (w.model.symbol s).name ∧
      (w.model.symbol s).FitsLine (v (.text (.symbol s))).value)
    {files : Files.Store} {path : String}
    (hfile : files.read path = .ok (.text ((w.model.minimalText {}).result v))) :
    Ends (Configuring.loadConfig (some path) true) { c with host.files := files } fun _ c' =>
      c'.Forgetful w.model ∧ c'.Proper w.model w.settings ∧
        UserValues.Trimmed w.model v c'.user := by
  have hm := Load.sound_of_load hload
  obtain ⟨lines, htext, htell, hsymbols⟩ := Model.minimalText_lines hv h
  have hlines : ∀ s, s ∈ lines.filterMap (·.symbol) ↔ w.model.hasLine v s = true := fun s => by
    rw [hsymbols, List.mem_filter]
    refine ⟨And.right, fun hline => ⟨?_, hline⟩⟩
    exact hv.defined_of_written hm (Model.written_of_hasLine hline)
  have hnodup : (lines.filterMap (·.symbol)).Nodup := by
    rw [hsymbols]
    exact (Model.nodup_firstOccurrences _).filter _
  have hwritten : ∀ s ∈ lines.filterMap (·.symbol),
      s ∈ w.model.defined ∧ (v (.text (.symbol s))).isWritten = true := fun s hs => by
    have hwritten := Model.written_of_hasLine ((hlines s).mp hs)
    exact ⟨hv.defined_of_written hm hwritten, hwritten⟩
  obtain ⟨message, c', hloads, hforgetful, hproper, hloaded⟩ :=
    loadConfig_lines hload hmark hv hfile (decoded_textOf htext fun l hl => (htell l hl).oneLine)
      htell hwritten hnodup
  exact ⟨message, c', hloads, hforgetful, hproper,
    hloaded.trimmed fun s => List.mem_reverse.trans (hlines s)⟩

end Loading

/-- A minimal configuration, whatever was done before, gives the same configuration when a new one
loads it, exactly if all that is selected although it is no bool has its value without the user too.
For that nothing that is remembered may be out of date, which it never is in a tidy model. -/
theorem minimal_comes_back {host : Host} {options : LoadOptions} {c : Configuration} {w : Workspace}
    (hload : Load.load host options = .ok c w)
    (hterminates : ∀ u, w.model.Permits u → w.model.Terminates u)
    (hmark : w.settings.configPrefix = "CONFIG_")
    (hname : ∀ s ∈ w.model.defined, IsWord (w.model.symbol s).name)
    (hunwritten : ∀ s, w.model.isUnwritten s = true →
      ∀ n ∈ (w.model.symbol s).nodes, (w.model.node n).prompt = none)
    (acts : List Act) (hcurrent : w.model.Tidy ∨ (c.after acts).UpToDate)
    (hvalues : ∀ s ∈ w.model.defined, ∀ a c',
      Configuring.ask (.text (.symbol s)) (c.after acts) = .ok a c' →
        (w.model.symbol s).FitsLine a.value) :
    ∃ text c₁, Configuring.minimalText (some "") (c.after acts) = .ok text c₁ ∧
      ∀ files path, files.read path = .ok (.text text) → ∃ message c₂,
        Configuring.loadConfig (some path) true { c with host.files := files } =
          .ok message c₂ ∧ ((c.after acts).Matches c₂ ↔ (c.after acts).ForcedDefault) := by
  have hm := Load.sound_of_load hload
  have hproper := (ready_after hload acts).proper
  obtain ⟨v, hv⟩ := (hterminates _ hproper.permits).solution
  have hright := right_after hload hterminates hcurrent hv
  have hreads := @Configuring.follow_of_right _ _ _ hproper.model hright hv
  have hfits : ∀ s ∈ w.model.defined, IsWord (w.model.symbol s).name ∧
      (w.model.symbol s).FitsLine (v (.text (.symbol s))).value := fun s hs => by
    obtain ⟨c', hask⟩ := hreads (.ask (.text (.symbol s)) .done)
    exact ⟨hname s hs, hvalues s hs _ c' hask⟩
  obtain ⟨c₁, hwrite⟩ := hreads (w.model.minimalText {})
  refine ⟨_, c₁, (Configuring.minimalText_eq hproper hmark).trans hwrite,
    fun files path hfile => ?_⟩
  obtain ⟨message, c₂, hloads, hforgetful, hproper₂, htrimmed⟩ :=
    loadConfig_trimmed hload hmark hv hfits hfile
  obtain ⟨v', hv'⟩ := (hterminates _ hproper₂.permits).solution
  refine ⟨message, c₂, hloads, ?_⟩
  rw [Configuration.matches_iff hmark hproper hright hv hproper₂
    (hforgetful.coherent c₂.user v').right hv', Configuration.forcedDefault_iff hproper.model
    hright hv]
  constructor
  · rintro rfl
    exact hv.forcedDefault_of_obeys htrimmed hv'.eq_value
  · intro hforced
    refine (hv'.eq_of_obeys fun q => ?_).symm
    exact hv.obeys_of_trimmed htrimmed hm hproper.permits
      (fun s hs => hv.hidden_of_no_prompts (hunwritten s hs))
      (fun s => directDep_of_visible hload hv) hforced q

/-- What a minimal configuration holds of a menu with symbols of all types: the default of the
number at the end is left out. -/
def quotedMinimal : String := "# CONFIG_A is not set\nCONFIG_T=\"say \\\"hi\\\"\"\n"

/-- The working directory with it. -/
def minimalFiles : Files.Store where
  entries := [(["work", "minimal"], .file (.text quotedMinimal))]

theorem allTypes_minimal : ∃ c w c₁ message c₂, Load.load allTypes {} = .ok c w ∧
    Configuring.minimalText (some "") (c.after quoteAndHide) = .ok quotedMinimal c₁ ∧
    Configuring.loadConfig (some "minimal") true { c with host.files := minimalFiles } =
      .ok message c₂ ∧ (c.after quoteAndHide).Matches c₂ := by
  have hchecked : passes (fun c w =>
      let m := w.model
      let later := c.after quoteAndHide
      decide (m.choices.size = 0 ∧ w.settings.configPrefix = "CONFIG_" ∧ m.Writable) &&
      (m.defined.all fun s => passes (fun a _ => decide ((m.symbol s).FitsLine a.value))
        (Configuring.ask (.text (.symbol s)) later)) &&
      (later.model.defined.all fun s => !passes (fun isForced _ => isForced)
        (Configuring.holds (later.model.symbol s).revDep later)) &&
      passes (fun text _ => text == quotedMinimal) (Configuring.minimalText (some "") later))
      (Load.load allTypes {}) = true := by decide +kernel
  obtain ⟨c, w, hload, hchecked⟩ := ok_of_passes hchecked
  simp only [Bool.and_eq_true, List.all_eq_true] at hchecked
  obtain ⟨⟨⟨hmodel, hvalues⟩, hforced⟩, htext⟩ := hchecked
  obtain ⟨hsize, hmark, hwritable⟩ := of_decide_eq_true hmodel
  have hloop := Load.noLoop_of_load hload
  have hback := minimal_comes_back hload
    (fun u _ => (Load.sound_of_load hload).terminates_of_no_choices hloop hsize u) hmark
    hwritable.name hwritable.unwritten quoteAndHide (.inl (Model.tidy_of_no_choices hsize))
    fun s hs a c' hask => by
      have hvalue := hvalues s hs
      rw [hask] at hvalue
      exact of_decide_eq_true hvalue
  obtain ⟨text, c₁, hwrite, hback⟩ := hback
  rw [hwrite] at htext
  obtain rfl := eq_of_beq htext
  obtain ⟨message, c₂, hloads, hmatches⟩ := hback minimalFiles "minimal" (by decide +kernel)
  refine ⟨c, w, c₁, message, c₂, hload, hwrite, hloads, hmatches.mpr fun s hs _ _ d hholds => ?_⟩
  have hunforced := hforced s hs
  rw [hholds] at hunforced
  exact absurd hunforced Bool.false_ne_true

/-- A text that is selected. -/
def selectedText : Host where
  files.entries := [(["work", "Kconfig"], .file (.text
    "config A\n\tbool \"a\"\n\tdefault y\n\tselect S\n\nconfig S\n\tstring \"s\"\n"))]

/-- What the user gave for it is left out, and lost. -/
example : (match Load.load selectedText {} with
    | .ok c _ =>
      let later := c.after [.setSymbol 3 (.text "hello")]
      match Configuring.configText (some "") later, Configuring.minimalText (some "") later with
      | .ok whole _, .ok text _ =>
        let files : Files.Store := { entries := [(["work", "minimal"], .file (.text text))] }
        let reload : Configuring String := do
          discard <| Configuring.loadConfig (some "minimal") true
          Configuring.configText (some "")
        match reload { c with host.files := files } with
        | .ok whole' _ => some (whole, text, whole')
        | .error .. => none
      | _, _ => none
    | .error .. => none) = some
      ("CONFIG_A=y\nCONFIG_S=\"hello\"\n", "", "CONFIG_A=y\nCONFIG_S=\"\"\n") := by
  decide +kernel

end Kconfig
