import Kconfig.Proofs.Config.Able
import Kconfig.Proofs.Config.Untouched
import Kconfig.Tool.Write
/-!
What the command reports about files of defaults.

After each file the command reports what is noted as assigned without being defined. Files that are
merged add to what is noted, so that a file is also blamed for everything that was noted before it:
the report tells the assignments of each file alone only if nothing was noted at first, and no file
but the last one has any.
-/
namespace Kconfig
open Kconfig.Configuration

variable {m : Model} {settings : Settings} {host : Host} {c : Configuration}

/-! ### The report -/

/-- The assignments to names that are not defined in a configuration file, if it can be read. -/
def Configuration.unknowns? (c : Configuration) (path : String) : Option (List (String × String)) :=
  (c.linesOf? path).map (·.filterMap (c.model.undefined? c.settings.configPrefix))

namespace Tool

/-- The line that announces a file of defaults. -/
def announcement (name : Option String) : String :=
  s!"Loading defaults file {(Json.ofText? name).asText}...\n"

/-- The lines that report assignments under the name of a file. -/
def unknownLines (file : String) (unknowns : List (String × String)) : String :=
  String.join (unknowns.map fun (symbol, value) =>
    s!"warning: unknown kconfig symbol '{symbol}' assigned to '{value}' in {file}\n")

/-- What is printed about files with their unknown assignments, when others were noted before. -/
def reportFrom (noted : List (String × String)) :
    List (String × List (String × String)) → String
  | [] => ""
  | (file, unknowns) :: more =>
    announcement (some file) ++ unknownLines file (noted ++ unknowns) ++
      reportFrom (noted ++ unknowns) more

/-- What would be printed if every file were reported with its own assignments only. -/
def reportEach : List (String × List (String × String)) → String
  | [] => ""
  | (file, unknowns) :: more =>
    announcement (some file) ++ unknownLines file unknowns ++ reportEach more

theorem unknownLines_append (file : String) (unknowns more : List (String × String)) :
    unknownLines file (unknowns ++ more) =
      unknownLines file unknowns ++ unknownLines file more := by
  simp [unknownLines]

theorem unknownLines_eq_empty {file : String} {unknowns : List (String × String)} :
    unknownLines file unknowns = "" ↔ unknowns = [] := by
  cases unknowns with
  | nil => simp [unknownLines]
  | cons a more =>
    have hne : toString "warning: unknown kconfig symbol '" ≠ "" := by decide
    simp [unknownLines, hne]

/-- Both reports differ by exactly the lines under the wrong names. -/
theorem reportEach_length_le : ∀ (files : List (String × List (String × String)))
    (noted : List (String × String)),
    (reportEach files).length ≤ (reportFrom noted files).length
  | [], _ => Nat.le_refl _
  | (file, unknowns) :: more, noted => by
    have hmore := reportEach_length_le more (noted ++ unknowns)
    simp only [reportEach, reportFrom, unknownLines_append, String.length_append]
    omega

/-- Nothing is reported under a wrong name exactly if nothing was noted before any file. -/
theorem reportFrom_eq_reportEach : ∀ (files : List (String × List (String × String)))
    (noted : List (String × String)), reportFrom noted files = reportEach files ↔
      files = [] ∨ noted = [] ∧ ∀ file ∈ files.dropLast, file.2 = []
  | [], _ => by simp [reportFrom, reportEach]
  | (file, unknowns) :: more, noted => by
    have hmore := reportFrom_eq_reportEach more unknowns
    have hlast : (∀ f ∈ ((file, unknowns) :: more).dropLast, f.2 = []) ↔
        more = [] ∨ unknowns = [] ∧ ∀ f ∈ more.dropLast, f.2 = [] := by
      cases more with
      | nil => simp
      | cons f more => simp
    rw [hlast, ← hmore, or_iff_right (List.cons_ne_nil _ _)]
    constructor
    · intro h
      have hlength := congrArg String.length h
      have hle := reportEach_length_le more (noted ++ unknowns)
      simp only [reportEach, reportFrom, unknownLines_append, String.length_append] at hlength
      have hempty : unknownLines file noted = "" := by
        rw [← String.length_eq_zero_iff]
        omega
      have hnoted : noted = [] := unknownLines_eq_empty.mp hempty
      subst hnoted
      refine ⟨rfl, ?_⟩
      rw [reportFrom, reportEach, List.nil_append] at h
      exact (String.append_right_inj _).mp h
    · rintro ⟨rfl, h⟩
      rw [reportFrom, reportEach, List.nil_append, h]

end Tool

namespace Configuration

theorem unknowns?_congr {c c' : Configuration} (hhost : c'.host = c.host)
    (hmodel : c'.model = c.model) (hsettings : c'.settings = c.settings) (path : String) :
    c'.unknowns? path = c.unknowns? path := by
  rw [unknowns?, unknowns?, linesOf?, linesOf?, opened?, opened?, hhost, hmodel, hsettings]

/-- A file of defaults is there and can be read. -/
def Provides (c : Configuration) (name : Option String) : Prop :=
  ∃ path, name = some path ∧ c.host.files.exists? path = true ∧ (c.unknowns? path).isSome

/-- Printing leaves everything but the journal. -/
def printed (c : Configuration) (text : String) : Configuration :=
  { c with journal := c.journal.print text }

theorem Ready.printed (hc : c.Ready m settings) (text : String) :
    (c.printed text).Ready m settings :=
  ⟨⟨hc.proper.model, hc.proper.settings, hc.proper.dependents, hc.proper.permits⟩,
    ⟨hc.fits.model, hc.fits.values, hc.fits.selections, hc.fits.symbols, hc.fits.choices⟩⟩

theorem Filled.printed (hc : c.Filled m settings) (text : String) :
    (c.printed text).Filled m settings :=
  hc.of_hollow_iff (hc.toReady.printed text) fun _ => Hollow.congr rfl rfl

end Configuration

namespace Tool
open Configuring

/-! ### Loading the files -/

/-- How loading files of defaults goes: some are loaded and reported, and the run stops at the first
of the rest. -/
structure LoadsDefaults (m : Model) (settings : Settings) (c : Configuration)
    (files : List (String × List (String × String))) (rest : List (Option String))
    (r : EStateM.Result Failure Configuration (Option String)) : Prop where
  found : ∀ file ∈ files, c.host.files.exists? file.1 = true ∧ c.unknowns? file.1 = some file.2
  output : (stateAfter r).journal.output =
    c.journal.output ++ (reportFrom c.missing files ++ (rest.head?.map announcement).getD "")
  ending : outcome r = .ok none ↔ rest = []
  stopped : c.Filled m settings → ∀ name ∈ rest.head?, ¬ c.Provides name

theorem forIn_print {α : Type} (text : α → String) : ∀ (xs : List α) (c : Configuration),
    (forIn xs PUnit.unit fun a _ => do
      print (text a)
      pure (ForInStep.yield PUnit.unit)) c =
        .ok ⟨⟩ (c.printed (String.join (xs.map text)))
  | [], c => by
    show EStateM.Result.ok _ _ = _
    rw [printed, Journal.print, List.map_nil, String.join_nil, String.append_empty]
  | x :: xs, c => by
    rw [List.forIn_cons, List.map_cons, String.join_cons]
    refine (forIn_print text xs (c.printed (text x))).trans ?_
    rw [printed, printed, printed, Journal.print, Journal.print, Journal.print, String.append_assoc]

/-- What is noted is printed under the name of a file. -/
theorem ends_printUnknowns (name : String) (unknowns : List (String × String)) (c : Configuration) :
    Ends (do
      for (symbol, value) in unknowns do
        print s!"warning: unknown kconfig symbol '{symbol}' assigned to '{value}' in {name}\n"
      return none : Configuring (Option String)) c fun message c' =>
        message = none ∧ c' = c.printed (unknownLines name unknowns) := by
  refine .bind (Q := fun _ c' => c' = c.printed (unknownLines name unknowns))
    ⟨_, _, forIn_print _ unknowns c, rfl⟩ fun _ _ h => ?_
  exact .pure ⟨rfl, h⟩

/-- What is noted and printed when a file of defaults is loaded. -/
structure Reports (m : Model) (settings : Settings) (name : String) (c c' : Configuration) :
    Prop where
  host : c'.host = c.host
  ready : c'.Ready m settings
  filled : c.Filled m settings → c'.Filled m settings
  present : c.host.files.exists? name = true
  noted : ∃ unknowns, c.unknowns? name = some unknowns ∧ c'.missing = c.missing ++ unknowns ∧
    c'.journal.output = c.journal.output ++ unknownLines name (c.missing ++ unknowns)

/-- No step prints anything. -/
theorem kept_output (text : String) : Kept fun c => c.journal.output = text := by
  intro c c' hstep hc
  cases hstep with
  | note h => exact h.output.trans hc
  | value | select | mode | unselect => exact hc

/-- A file that is there is loaded and reported, or nothing is printed. -/
theorem meets_loadDefaults (hm : m.Sound) (hc : c.Ready m settings) (name : String) :
    Meets (loadDefaults name) c
      (fun message c' => (message = none ∧ Reports m settings name c c') ∨
        message ≠ none ∧ c.host.files.exists? name = false ∧ c'.journal.output = c.journal.output)
      fun _ c' => c'.journal.output = c.journal.output := by
  refine .bind_get ?_
  cases hexists : c.host.files.exists? name with
  | false => exact .pure (.inr ⟨nofun, rfl, rfl⟩)
  | true =>
    have hkept := kept_host ((kept_ready m settings).and (kept_output c.journal.output)) c.host
    have hfills : Yields (loadConfig (some name) false) c
        fun _ c' => c.Filled m settings → c'.Filled m settings := by
      intro a c' h hfilled
      have hfilled' := keeps_filled_loadConfig hm (some name) false c hfilled
      unfold KeepsAt at hfilled'
      rwa [h] at hfilled'
    have hload := ((Meets.of_keeps (keeps_loadNamed hkept name false) ⟨⟨hc, rfl⟩, rfl⟩).yielding
      (yields_loadConfig hm hc (some name) false)).yielding hfills
    refine .bind (hload.mono (fun _ _ h => h) fun _ _ h => h.1.2) fun _ c₁ h => .bind_get ?_
    obtain ⟨⟨⟨⟨hc₁, houtput⟩, hhost⟩, -, hfile⟩, hfilled⟩ := h
    obtain ⟨hno, -⟩ | ⟨path, lines, hpath, hlines, htakes⟩ := hfile
    · exact nomatch hno
    obtain rfl := hpath name rfl
    have hmissing := htakes.missing
    rw [if_neg nofun] at hmissing
    refine .of_ends ((ends_printUnknowns path c₁.missing c₁).mono ?_)
    rintro _ _ ⟨rfl, rfl⟩
    refine .inl ⟨rfl, hhost, hc₁.printed _, fun h => (hfilled h).printed _, hexists, _, ?_,
      hmissing, ?_⟩
    · rw [unknowns?, hlines, hc.proper.model, hc.proper.settings]
      rfl
    · rw [← hmissing, ← houtput]
      rfl

/-- A file of defaults that can be read is loaded when no symbol is hollow. -/
theorem ends_loadDefaults (hm : m.Sound) (hc : c.Filled m settings) {name : String}
    (h : c.Provides (some name)) : Ends (loadDefaults name) c fun message _ => message = none := by
  obtain ⟨_, ⟨⟩, hexists, hunknowns⟩ := h
  obtain ⟨unknowns, hunknowns⟩ := Option.isSome_iff_exists.mp hunknowns
  obtain ⟨lines, hlines, -⟩ := Option.map_eq_some_iff.mp hunknowns
  have hload := (failsIf_loadConfig hm hc.toReady hlines false).ends <| by
    rintro ⟨-, a, -, hhollow⟩
    exact hc.filled a.symbol hhollow
  refine .bind_get ?_
  rw [hexists]
  exact hload.bind fun _ c₁ _ => .bind_get ((ends_printUnknowns name _ c₁).mono fun _ _ h => h.1)

/-- A file that is not loaded ends the run. -/
theorem LoadsDefaults.stop {name : Option String} {more : List (Option String)}
    {r : EStateM.Result Failure Configuration (Option String)}
    (houtput : (stateAfter r).journal.output = c.journal.output ++ announcement name)
    (hending : outcome r ≠ .ok none) (hstop : c.Filled m settings → ¬ c.Provides name) :
    LoadsDefaults m settings c [] (name :: more) r := by
  refine ⟨nofun, ?_, iff_of_false hending (List.cons_ne_nil _ _), ?_⟩
  · rw [houtput, reportFrom, String.empty_append]
    rfl
  · rintro hfilled _ ⟨⟩
    exact hstop hfilled

/-- A file that is loaded is reported before the next ones. -/
theorem LoadsDefaults.cons {name : String} {unknowns : List (String × String)} {c' : Configuration}
    {files : List (String × List (String × String))} {rest : List (Option String)}
    {r : EStateM.Result Failure Configuration (Option String)} (hc : c.Ready m settings)
    (hreports : Reports m settings name (c.printed (announcement (some name))) c')
    (hunknowns : c.unknowns? name = some unknowns)
    (h : LoadsDefaults m settings c' files rest r) :
    LoadsDefaults m settings c ((name, unknowns) :: files) rest r := by
  obtain ⟨_, hsame, hmissing, houtput⟩ := hreports.noted
  obtain rfl := Option.some.inj (hunknowns.symm.trans hsame)
  have hlater : ∀ path, c'.unknowns? path = c.unknowns? path :=
    unknowns?_congr hreports.host (hreports.ready.proper.model.trans hc.proper.model.symm)
      (hreports.ready.proper.settings.trans hc.proper.settings.symm)
  constructor
  case found =>
    refine List.forall_mem_cons.mpr ⟨⟨hreports.present, hunknowns⟩, fun file hfile => ?_⟩
    have hfound := h.found file hfile
    rw [hreports.host, hlater] at hfound
    exact hfound
  case output =>
    rw [h.output, houtput, hmissing]
    simp [reportFrom, printed, Journal.print, String.append_assoc]
  case ending => exact h.ending
  case stopped =>
    intro hfilled name' hname' hprovides
    refine h.stopped (hreports.filled (hfilled.printed _)) name' hname' ?_
    obtain ⟨path, hpath, hexists, hsome⟩ := hprovides
    exact ⟨path, hpath, hreports.host.symm ▸ hexists, (hlater path).symm ▸ hsome⟩

/-- Files of defaults are loaded one after the other up to the first that cannot be loaded. -/
theorem loadsDefaults (hm : m.Sound) : ∀ (names : List (Option String)) {c : Configuration},
    c.Ready m settings → ∃ files rest, names = files.map (fun file => some file.1) ++ rest ∧
      LoadsDefaults m settings c files rest (loadAllDefaults names c)
  | [], c, hc => by
    refine ⟨[], [], rfl, ⟨nofun, ?_, ?_, nofun⟩⟩
    · show c.journal.output = _
      simp [reportFrom]
    · exact iff_of_true rfl rfl
  | none :: more, c, hc =>
    ⟨[], none :: more, rfl, .stop rfl nofun fun _ ⟨_, h, _⟩ => nomatch h⟩
  | some name :: more, c, hc => by
    have hload := meets_loadDefaults hm (hc.printed (announcement (some name))) name
    have hstop : (∀ c', loadDefaults name (c.printed (announcement (some name))) ≠ .ok none c') →
        c.Filled m settings → ¬ c.Provides (some name) := by
      intro hfails hfilled hprovides
      obtain ⟨_, c', hok, rfl⟩ := ends_loadDefaults hm (hfilled.printed _) hprovides
      exact hfails c' hok
    have hprint : print s!"Loading defaults file {(Json.ofText? (some name)).asText}...\n" c =
        .ok () (c.printed (announcement (some name))) := rfl
    rw [loadAllDefaults, bind_apply, hprint]
    dsimp only
    rw [bind_apply]
    cases hone : loadDefaults name (c.printed (announcement (some name))) with
    | error failure c' =>
      refine ⟨[], some name :: more, rfl, .stop (hload.of_error hone) nofun (hstop fun c' h => ?_)⟩
      exact nomatch hone.symm.trans h
    | ok message c' =>
      obtain ⟨rfl, hreports⟩ | ⟨hmessage, -, houtput⟩ := hload.of_ok hone
      · obtain ⟨files, rest, rfl, hmore⟩ := loadsDefaults hm more hreports.ready
        obtain ⟨unknowns, hunknowns, -⟩ := hreports.noted
        exact ⟨(name, unknowns) :: files, rest, rfl, .cons hc hreports hunknowns hmore⟩
      · obtain ⟨message, rfl⟩ := Option.ne_none_iff_exists'.mp hmessage
        refine ⟨[], some name :: more, rfl, .stop houtput nofun (hstop fun c' h => ?_)⟩
        exact nomatch hone.symm.trans h

/-! ### The rest of a run -/

section Output
variable (text : String)

theorem keeps_output_files {α : Type} (path : String)
    (action : Files.Store → Except Files.Condition (α × Files.Store)) :
    Keeps (fun c => c.journal.output = text) (onFiles path action) :=
  keeps_onFiles (fun _ _ hc => hc) path action

theorem keeps_output_jsonValue (sym : Symbol) (value : String) :
    Keeps (fun c => c.journal.output = text) (jsonValue sym value) := by
  refine .ite (.bind (.update fun _ hc => hc) fun _ => .pure _) ?_
  split
  · exact .pure _
  · split
    · exact .pure _
    · exact .throw _
  · split
    · exact .pure _
    · exact .throw _
  · exact .pure _

/-- The values are worked out without a word on the output. -/
theorem keeps_output_jsonValues : Keeps (fun c => c.journal.output = text) jsonValues := by
  refine .bind .get fun c => ?_
  split
  · exact .throw _
  · refine .bind (.foldlM (fun fields n => .bind .get fun c => ?_) _ _) fun _ => .pure _
    dsimp only
    split
    · exact .bind (keeps_output_follow _) fun answer =>
        .ite (.bind (keeps_output_jsonValue text _ _) fun _ => .pure _) (.pure _)
    · exact .pure _

theorem keeps_output_text : ∀ format : OutputFormat,
    Keeps (fun c => c.journal.output = text) (outputText format)
  | .config | .header => .bind .get fun _ => .bind (.bind .get fun _ => .pure _) fun _ =>
      keeps_output_follow _
  | .minimal => .bind .get fun _ => .bind (.bind .get fun _ => .bind (.bind .get fun _ => .pure _)
      fun _ => keeps_output_follow _) fun _ => .pure _
  | .values => .bind (keeps_output_jsonValues text) fun _ => .pure _
  | .menu => .bind .get fun _ => .bind (keeps_output_follow _) fun _ => .pure _

/-- So is an output file. -/
theorem keeps_output_writeOutput (format : OutputFormat) (path : String) :
    Keeps (fun c => c.journal.output = text) (writeOutput format path) := by
  have hwrite : ∀ text', Keeps (fun c => c.journal.output = text) (writeFile path text') :=
    fun text' => keeps_output_files text path _
  have hheld : ∀ text', Keeps (fun c => c.journal.output = text)
      (writeOutput.holdsAll path text') := fun text' => by
    refine .bind (keeps_output_files text path _) fun content => ?_
    dsimp only
    split
    · exact .bind (.throw _) fun _ => .pure _
    · exact .pure _
  refine .bind (keeps_output_text text format) fun text' => .bind .get fun c => ?_
  exact .ite (.bind (hheld _) fun isPresent => .ite (.pure _) (hwrite _))
    (.bind (.pure _) fun isPresent => .ite (.pure _) (hwrite _))

/-- Loading the configuration prints nothing. -/
theorem keeps_output_loadPresent (name : String) :
    Keeps (fun c => c.journal.output = text) (loadPresent name) := by
  refine .bind .get fun c => .ite (.pure _) ?_
  refine .bind (.tryCatch ?_ fun failure => ?_) fun result => ?_
  · exact .bind (keeps_loadNamed (kept_output text) name false) fun _ => .pure _
  · split
    · exact .pure _
    · exact .bind (.throw _) fun _ => .pure _
  · cases result <;> exact .pure _

end Output

/-- The configuration as it is when files of defaults are loaded. -/
def forgiving (c : Configuration) : Configuration :=
  { c with warnsRedundant := false, warnsOverride := false }

/-- Once the files of defaults are loaded nothing more is printed, and where one of them stops the
run, the rest is not done. -/
theorem output_write (options : WriteOptions) (outputs : List (OutputFormat × String))
    (c : Configuration) : (stateAfter (write options outputs c)).journal.output =
      (stateAfter (loadAllDefaults options.defaults (forgiving c))).journal.output := by
  generalize htext : (stateAfter (loadAllDefaults options.defaults (forgiving c))).journal.output =
    text
  have hwrite : KeepsAt (fun c => c.journal.output = text) c (write options outputs) := by
    refine .update_bind (.bind htext fun message c' hc' => ?_)
    cases message with
    | some message => exact hc'
    | none =>
      refine Keeps.bind (keeps_output_loadPresent text _) (fun message => ?_) c' hc'
      cases message with
      | some message => exact .pure _
      | none =>
        refine .bind (.forIn (fun _ _ => .bind (keeps_output_writeOutput text _ _) fun _ =>
          .pure _) _ _) fun _ => ?_
        dsimp only
        cases options.report with
        | some path =>
          exact .bind .get fun c => .bind (keeps_output_files text path _) fun _ => .pure _
        | none => exact .pure _
  exact hwrite

/-- Files of defaults that cannot be loaded end the run. -/
theorem write_fails (options : WriteOptions) (outputs : List (OutputFormat × String))
    {c : Configuration}
    (h : outcome (loadAllDefaults options.defaults (forgiving c)) ≠ .ok none) :
    outcome (write options outputs c) ≠ .ok none := by
  show outcome ((loadAllDefaults options.defaults >>= _) (forgiving c)) ≠ _
  rw [bind_apply]
  cases hload : loadAllDefaults options.defaults (forgiving c) with
  | error failure c' => exact nofun
  | ok message c' =>
    cases message with
    | some message => exact nofun
    | none =>
      rw [hload] at h
      exact absurd rfl h

/-- What is reported about files of defaults. Whatever was done before and whatever is noted, the
files are loaded up to the first that fails, which is one that is not there or cannot be read as
long as no symbol is hollow; after each file everything that is noted by then is reported under its
name. So each file is reported with its own assignments exactly if nothing was noted before and no
file but the last one assigns a name that is not defined. In a run of the command the report stands
between what loading the model printed and the words of the error that ends the run, if one does. -/
theorem defaults_reported {host : Host} {options : LoadOptions} {c : Configuration} {w : Workspace}
    (hload : Load.load host options = .ok c w) :
    (∀ (acts : List Act) (noted : List (String × String)) (names : List (Option String)),
      ∃ files rest, names = files.map (fun file => some file.1) ++ rest ∧
        LoadsDefaults w.model w.settings { c.after acts with missing := noted } files rest
          (loadAllDefaults names { c.after acts with missing := noted })) ∧
    (∀ noted files, reportFrom noted files = reportEach files ↔
      files = [] ∨ noted = [] ∧ ∀ file ∈ files.dropLast, file.2 = []) ∧
    ∀ (machine : Host) (args : List String) (request : WriteOptions)
      (outputs : List (OutputFormat × String)),
      prepareWrite machine args = .ok (host, request, outputs) →
      options = { name := request.kconfig } →
      ∃ files rest tail, request.defaults = files.map (fun file => some file.1) ++ rest ∧
        (∀ file ∈ files, c.host.files.exists? file.1 = true ∧ c.unknowns? file.1 = some file.2) ∧
        (∀ name ∈ rest.head?, ¬ c.Provides name) ∧
        (runWrite machine args).output = w.journal.output ++
          (reportFrom [] files ++ (rest.head?.map announcement).getD "") ++ tail ∧
        (tail = "" ∨ ∃ message, tail = fatalText message) ∧
        (rest ≠ [] → (runWrite machine args).ending ≠ .exit 0) := by
  have hm := Load.sound_of_load hload
  refine ⟨fun acts noted names => ?_, fun noted files => reportFrom_eq_reportEach files noted, ?_⟩
  · have hc := ready_after hload acts
    exact loadsDefaults hm names ((kept_ready w.model w.settings).alike hc
      ⟨rfl, rfl, rfl, rfl, rfl, rfl, rfl, rfl, rfl, rfl⟩)
  · rintro machine args request outputs hprepared rfl
    have hready : (forgiving c).Ready w.model w.settings :=
      (kept_ready w.model w.settings).alike (ready_after hload [])
        ⟨rfl, rfl, rfl, rfl, rfl, rfl, rfl, rfl, rfl, rfl⟩
    have hfilled : (forgiving c).Filled w.model w.settings :=
      (Load.filled_of_load hload).of_hollow_iff hready fun _ => Hollow.congr rfl rfl
    obtain ⟨files, rest, hnames, hloads⟩ := loadsDefaults hm request.defaults hready
    have hstart : (forgiving c).missing = [] ∧ (forgiving c).journal = w.journal := by
      obtain rfl := Load.eq_ofWorkspace_of_load hload
      exact ⟨rfl, rfl⟩
    have houtput := (output_write request outputs c).trans hloads.output
    rw [hstart.1, hstart.2] at houtput
    have hending : rest ≠ [] → outcome (write request outputs c) ≠ .ok none := fun h =>
      write_fails request outputs fun hnone => h (hloads.ending.mp hnone)
    rw [runWrite, hprepared]
    dsimp only
    rw [hload]
    dsimp only [EStateM.run]
    cases hwrite : write request outputs c with
    | error failure c' =>
      rw [hwrite] at houtput
      refine ⟨files, rest, "", hnames, hloads.found, hloads.stopped hfilled, ?_, .inl rfl, nofun⟩
      rw [String.append_empty]
      exact houtput
    | ok message c' =>
      rw [hwrite] at houtput hending
      cases message with
      | none =>
        refine ⟨files, rest, "", hnames, hloads.found, hloads.stopped hfilled, ?_, .inl rfl,
          fun h => absurd rfl (hending h)⟩
        rw [String.append_empty]
        exact houtput
      | some message =>
        refine ⟨files, rest, fatalText message, hnames, hloads.found, hloads.stopped hfilled, ?_,
          .inr ⟨message, rfl⟩, nofun⟩
        exact congrArg (· ++ fatalText message) houtput

/-- Two files of defaults, the first of which assigns a name that is not defined. -/
def blamedTwice : Host where
  files.entries := [
    (["work", "Kconfig"], .file (.text "config A\n\tbool \"a\"\n")),
    (["work", "d1"], .file (.text "CONFIG_X=y\n")),
    (["work", "d2"], .file (.text "CONFIG_A=y\n"))]

/-- Arguments that name both files. -/
def bothDefaults : List String :=
  ["--kconfig", "Kconfig", "--defaults", "d1", "--defaults", "d2"]

/-- The second file is blamed for what the first one assigns. -/
theorem blamedTwice_reported : ∃ host request outputs c w,
    prepareWrite blamedTwice bothDefaults = .ok (host, request, outputs) ∧
    Load.load host { name := request.kconfig } = .ok c w ∧
    (∃ files rest, [some "d2"] = files.map (fun file => some file.1) ++ rest ∧
      LoadsDefaults w.model w.settings
        { c.after [.loadConfig (some "d1") true] with missing := [("OLD", "1")] } files rest
        (loadAllDefaults [some "d2"]
          { c.after [.loadConfig (some "d1") true] with missing := [("OLD", "1")] })) ∧
    reportFrom [] [("d1", [("X", "y")]), ("d2", [])] ≠
      reportEach [("d1", [("X", "y")]), ("d2", [])] ∧
    ∃ files rest tail, request.defaults = files.map (fun file => some file.1) ++ rest ∧
      (∀ file ∈ files, c.host.files.exists? file.1 = true ∧ c.unknowns? file.1 = some file.2) ∧
      (∀ name ∈ rest.head?, ¬ c.Provides name) ∧
      (runWrite blamedTwice bothDefaults).output = w.journal.output ++
        (reportFrom [] files ++ (rest.head?.map announcement).getD "") ++ tail ∧
      (tail = "" ∨ ∃ message, tail = fatalText message) ∧
      (rest ≠ [] → (runWrite blamedTwice bothDefaults).ending ≠ .exit 0) := by
  have hchecked : (match prepareWrite blamedTwice bothDefaults with
      | .ok (host, request, _) => succeeds (Load.load host { name := request.kconfig })
      | .error _ => false) = true := by decide +kernel
  split at hchecked
  · next host request outputs hprepared =>
    obtain ⟨c, w, hload⟩ := ok_of_succeeds hchecked
    obtain ⟨hloads, hreport, hrun⟩ := defaults_reported hload
    refine ⟨host, request, outputs, c, w, hprepared, hload, hloads _ _ _, fun hsame => ?_,
      hrun _ _ _ _ hprepared rfl⟩
    obtain h | ⟨-, h⟩ := (hreport _ _).mp hsame
    · exact nomatch h
    · exact absurd (h ("d1", [("X", "y")]) List.mem_cons_self) (List.cons_ne_nil _ _)
  · exact absurd hchecked Bool.false_ne_true

/-- What the command prints there. -/
example : (runWrite blamedTwice bothDefaults).output =
  "Loading defaults file d1...\n" ++
  "warning: unknown kconfig symbol 'X' assigned to 'y' in d1\n" ++
  "Loading defaults file d2...\n" ++
  "warning: unknown kconfig symbol 'X' assigned to 'y' in d2\n" := by decide +kernel

end Tool
end Kconfig
