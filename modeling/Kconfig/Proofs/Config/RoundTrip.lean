import Mathlib.Data.List.Nodup
import Kconfig.Config.Save
import Kconfig.Proofs.Config.LoadedFiles
import Kconfig.Proofs.Values.Recall
/-!
A configuration that is saved and loaded is the same configuration.

What is written tells the value of every symbol that is written, each of them once. Loading it where
nothing was given yet gives exactly these values, so in the end every answer is the one that was
saved, and what is written is the same text again. All this holds of what is read, and so only as
long as nothing that is remembered is out of date.
-/
namespace Kconfig
open Plan Memory Text

variable {m : Model} {u : UserValues} {v : Valuation} {c : Configuration} {s : SymbolId}

/-! ### What is read -/

/-- Nothing that is remembered is out of date: what is read is what recomputing gives. -/
def Configuration.UpToDate (c : Configuration) : Prop :=
  ∀ q a c', Configuring.ask q c = .ok a c' → recompute c.model c.user q = some a

/-- In an up-to-date configuration all that is remembered is right. -/
theorem Configuration.UpToDate.right (h : c.UpToDate) (hmodel : c.model = m)
    (hv : m.Solves c.user v) : c.memory.Right v := by
  intro q a hq
  have hread : Evaluating.follow c.model c.user (.ask q .done) ⟨c.memory, c.journal⟩ =
      .ok a ⟨c.memory, c.journal⟩ := by
    show (Evaluating.readAt c.model c.user c.model.depthOfQueries q >>= pure) _ = _
    rw [bind_apply, Model.depthOfQueries, Evaluating.readAt_succ, hq]
    rfl
  have hask : Configuring.ask q c = .ok a c := by
    rw [Configuring.ask, Configuring.follow_apply, hread]
  have hanswer := h q a c hask
  rw [hmodel, hv.recompute_eq] at hanswer
  exact (Option.some.inj hanswer).symm

/-- A configuration in which all that is remembered is right under a valuation. -/
structure Configuration.Recalls (m : Model) (u : UserValues) (v : Valuation) (c : Configuration) :
    Prop where
  model : c.model = m
  user : c.user = u
  memory : c.memory.Right v

/-- With right answers in mind, following a plan gives what it gives under the valuation. -/
theorem Configuring.ends_follow (hc : c.Recalls m u v) (hv : m.Solves u v) {α : Type} (p : Plan α) :
    Ends (follow p) c fun a c' => a = p.result v ∧ c'.Recalls m u v := by
  obtain ⟨a, e, hfollow, ha, he⟩ := Evaluating.ends_follow hv p ⟨c.memory, c.journal⟩ hc.memory
  unfold Ends
  rw [follow_apply, hc.model, hc.user, hfollow]
  exact ⟨a, _, rfl, ha, rfl, rfl, he⟩

theorem Configuring.follow_of_right (hmodel : c.model = m) (hmemory : c.memory.Right v)
    (hv : m.Solves c.user v) {α : Type} (p : Plan α) :
    ∃ c', follow p c = .ok (p.result v) c' := by
  obtain ⟨a, c', hfollow, rfl, -⟩ := ends_follow ⟨hmodel, rfl, hmemory⟩ hv p
  exact ⟨c', hfollow⟩

/-! ### What is written -/

namespace Model

/-- The symbols with a line are the defined ones whose values are written. -/
theorem Listed.mem_written (hl : m.Listed) (hm : m.Sound) :
    s ∈ m.order.filterMap (m.writtenAt v) ↔
      s ∈ m.defined ∧ (v (.text (.symbol s))).isWritten = true := by
  rw [List.mem_filterMap]
  constructor
  · rintro ⟨n, -, hn⟩
    obtain ⟨-, hhead, hwritten⟩ := writtenAt_eq_some.mp hn
    refine ⟨(hm.defined s).mpr fun hnil => ?_, hwritten⟩
    rw [hnil] at hhead
    exact nomatch hhead
  · rintro ⟨hs, hwritten⟩
    obtain ⟨n, hn, hhead, hsymbol⟩ := hl.first s hs
    exact ⟨n, (List.mem_filter.mp hn).1, writtenAt_eq_some.mpr ⟨hsymbol, hhead, hwritten⟩⟩

/-- No symbol has two lines. -/
theorem Listed.nodup_written (hl : m.Listed) : (m.order.filterMap (m.writtenAt v)).Nodup := by
  have hsymbols : m.order.filterMap (m.writtenAt v) =
      (m.symbolNodes m.tree).filterMap (m.writtenAt v) := by
    rw [symbolNodes, List.filterMap_filter]
    refine congrArg (List.filterMap · m.order) (funext fun n => ?_)
    cases hsymbol : m.symbolOf? n <;> simp [writtenAt, hsymbol]
  rw [hsymbols]
  refine hl.nodup.filterMap fun n n' s hn hn' => ?_
  have hhead := (writtenAt_eq_some.mp hn).2.1
  exact Option.some.inj (hhead.symm.trans (writtenAt_eq_some.mp hn').2.1)

end Model

/-! ### What is loaded -/

theorem carriage_textOf {lines : List PageLine} (hlines : ∀ l ∈ lines, OneLine l.chars) :
    '\r' ∉ textOf lines := by
  intro hmem
  obtain ⟨l, hl, hmem⟩ := List.mem_flatMap.mp hmem
  rcases List.mem_append.mp hmem with hmem | hmem
  · exact (hlines l hl).carriage hmem
  · exact absurd hmem (by decide)

/-- A text that was put together from lines is read as it is. -/
theorem decoded_textOf {text : String} {lines : List PageLine} (htext : text.toList = textOf lines)
    (hlines : ∀ l ∈ lines, OneLine l.chars) :
    (Files.Content.text text).decoded = ⟨textOf lines, none⟩ := by
  show (⟨unifyLineEnds text.toList, none⟩ : Decoded) = _
  rw [htext, unifyLineEnds_eq_self (carriage_textOf hlines)]

/-- The lines of it are these lines. -/
theorem lines_textOf {lines : List PageLine} (hlines : ∀ l ∈ lines, OneLine l.chars) :
    (⟨textOf lines, none⟩ : Decoded).lines = lines.map fun l => l.chars ++ ['\n'] := by
  have hjoined : textOf lines = (lines.map (·.chars)).flatMap (· ++ ['\n']) := by
    rw [textOf, List.flatMap_map]
  show splitKeep (textOf lines) = _
  rw [hjoined, splitKeep_lines, List.map_map]
  · rfl
  · intro line hline
    obtain ⟨l, hl, rfl⟩ := List.mem_map.mp hline
    exact (hlines l hl).feed

namespace Configuration

/-- Nothing has been loaded when a configuration starts. -/
theorem loaded_start {w : Workspace} (hmark : w.settings.configPrefix = "CONFIG_") (host : Host) :
    Loaded w.model v [] { ofWorkspace w with host := host } := by
  refine ⟨⟨rfl, Array.size_replicate, Array.size_replicate, Array.size_replicate,
    Array.size_replicate⟩, hmark, Load.value_ofWorkspace w, fun ch s => ?_, fun s => ?_,
    fun ch hch => ?_⟩
  · change (ofWorkspace w).user.selection ch = some s ↔ _
    simp [Load.selection_ofWorkspace]
  · change (ofWorkspace w).assigned.symbols[s]?.getD false = ((ofWorkspace w).user.value s).isSome
    rw [Load.value_ofWorkspace, ofWorkspace, Array.getElem?_replicate]
    split <;> rfl
  · change ((ofWorkspace w).user.selection ch).isSome at hch
    rw [Load.selection_ofWorkspace] at hch
    cases hch

/-- When the values of all symbols that are written are loaded, all that was saved is. -/
theorem Loaded.saved {taken : List SymbolId} (h : c.Loaded m v taken) (hm : m.Sound)
    (hv : m.Solves u v) (htaken : ∀ s, s ∈ taken ↔
      s ∈ m.defined ∧ (v (.text (.symbol s))).isWritten = true) :
    UserValues.Saved m v c.user := by
  refine ⟨fun s => (h.value s).trans ?_, fun ch s => (h.selection ch s).trans ?_⟩
  · split
    · rfl
    · next hnot =>
      exact (if_neg fun hwritten =>
        hnot ((htaken s).mpr ⟨hv.defined_of_written hm hwritten, hwritten⟩)).symm
  · exact ⟨fun hs => hs.2, fun hs => ⟨(htaken s).mpr (hv.written_of_selects hm hs), hs⟩⟩

end Configuration

namespace Configuring
open Kconfig.Configuration

/-- A file of lines that tell different symbols gives each of them its value, when it is loaded
over nothing. -/
theorem ends_takeFile (hl : m.Listed) (hm : m.Sound) (hv : m.Solves u v) (h : c.Loaded m v [])
    {path : String} {content : Files.Content} {lines : List PageLine}
    (hfile : c.host.files.read path = .ok content) (hdecoded : content.decoded = ⟨textOf lines, none⟩)
    (htell : ∀ l ∈ lines, l.Tells m v)
    (hwritten : ∀ s ∈ lines.filterMap (·.symbol),
      s ∈ m.defined ∧ (v (.text (.symbol s))).isWritten = true)
    (hnodup : (lines.filterMap (·.symbol)).Nodup) :
    Ends (takeFile path true) c fun _ => Loaded m v (lines.filterMap (·.symbol)).reverse := by
  have hopen : Ends (openConfig path) c fun found c' =>
      found = (path, content) ∧ c'.Loaded m v [] := by
    refine .bind_get ?_
    rw [hfile]
    exact .pure ⟨rfl, h⟩
  refine hopen.bind fun found c₁ ⟨hfound, hc₁⟩ => ?_
  subst hfound
  refine (ends_clearAssigned hc₁).bind fun _ c₂ hc₂ => ?_
  have htaken := ends_takeLines hl hm hv path lines 1 hc₂ htell hwritten
    (by rwa [List.append_nil, List.nodup_reverse])
  rw [← lines_textOf fun l hl => (htell l hl).oneLine, List.append_nil] at htaken
  rw [hdecoded]
  exact htaken.bind fun _ _ hc₃ => ends_unsetOthers hc₃

/-- So it does when it is loaded as the configuration. -/
theorem ends_loadConfig (hl : m.Listed) (hm : m.Sound) (hv : m.Solves u v) (h : c.Loaded m v [])
    {path : String} {content : Files.Content} {lines : List PageLine}
    (hfile : c.host.files.read path = .ok content) (hdecoded : content.decoded = ⟨textOf lines, none⟩)
    (htell : ∀ l ∈ lines, l.Tells m v)
    (hwritten : ∀ s ∈ lines.filterMap (·.symbol),
      s ∈ m.defined ∧ (v (.text (.symbol s))).isWritten = true)
    (hnodup : (lines.filterMap (·.symbol)).Nodup) :
    Ends (loadConfig (some path) true) c fun _ =>
      Loaded m v (lines.filterMap (·.symbol)).reverse := by
  have hquiet : Loaded m v [] { c with warnsPromptless := false } := h.congr rfl rfl rfl rfl
  have htake := ends_takeFile hl hm hv hquiet hfile hdecoded htell hwritten hnodup
  show Ends (quietly (takeFile path true) >>= fun _ => pure _) c _
  refine (ends_quietly (htake.mono fun _ c' hc' => ?_)).bind fun _ _ hc' => .pure hc'
  exact hc'.congr rfl rfl rfl rfl

/-- The text of a configuration without a header is a plan of the model. -/
theorem configText_eq {settings : Settings} (hc : c.Proper m settings)
    (hmark : settings.configPrefix = "CONFIG_") :
    configText (some "") c = follow (m.configText {}) c := by
  show follow (c.model.configText ⟨c.settings.configPrefix, ""⟩) c = _
  rw [hc.model, hc.settings, hmark]

end Configuring

section Loading
variable {host : Host} {options : LoadOptions} {w : Workspace}
  (hload : Load.load host options = .ok c w)
include hload

/-- What is remembered after acts is right in a tidy model, or else if it is up to date. -/
theorem right_after (hterminates : ∀ u, w.model.Permits u → w.model.Terminates u) {acts : List Act}
    (hcurrent : w.model.Tidy ∨ (c.after acts).UpToDate) (hv : w.model.Solves (c.after acts).user v) :
    (c.after acts).memory.Right v := by
  rcases hcurrent with htidy | hcurrent
  · have hr : w.model.Reliable := ⟨Load.sound_of_load hload, htidy, hterminates⟩
    exact (((Load.coherent_of_load hload).after hr acts).memory v hv).right
  · exact hcurrent.right (ready_after hload acts).proper.model hv

/-- A new configuration that loads lines that tell different symbols has the values that they tell,
and remembers nothing. -/
theorem loadConfig_lines (hmark : w.settings.configPrefix = "CONFIG_") (hv : w.model.Solves u v)
    {files : Files.Store} {path : String} {content : Files.Content} {lines : List PageLine}
    (hfile : files.read path = .ok content) (hdecoded : content.decoded = ⟨textOf lines, none⟩)
    (htell : ∀ l ∈ lines, l.Tells w.model v) (hwritten : ∀ s ∈ lines.filterMap (·.symbol),
      s ∈ w.model.defined ∧ (v (.text (.symbol s))).isWritten = true)
    (hnodup : (lines.filterMap (·.symbol)).Nodup) :
    Ends (Configuring.loadConfig (some path) true) { c with host.files := files } fun _ c' =>
      c'.Forgetful w.model ∧ c'.Proper w.model w.settings ∧
        c'.Loaded w.model v (lines.filterMap (·.symbol)).reverse := by
  have hproper : ({ c with host.files := files } : Configuration).Proper w.model w.settings :=
    (ready_after hload [.changeFiles files]).proper
  have hl := Load.listed_of_load hload
  have hm := Load.sound_of_load hload
  obtain rfl := Load.eq_ofWorkspace_of_load hload
  have hforgetful : ({ Configuration.ofWorkspace w with host.files := files } :
      Configuration).Forgetful w.model := ⟨rfl, fits_empty _, get?_empty _⟩
  have hends := Configuring.ends_loadConfig hl hm hv
    (Configuration.loaded_start hmark { w.host with files }) hfile hdecoded htell hwritten hnodup
  have hends := hends.keeping
    (Configuring.keeps_loadNamed (Configuration.kept_proper _ _) path true) hproper
  exact hends.keeping
    (Configuring.keeps_loadNamed (Configuration.kept_forgetful _) path true) hforgetful

/-- When it loads what was written, it has the user's values that were saved. -/
theorem loadConfig_saved (hmark : w.settings.configPrefix = "CONFIG_") (h : w.model.Savable u v)
    {files : Files.Store} {path : String}
    (hfile : files.read path = .ok (.text ((w.model.configText {}).result v))) :
    Ends (Configuring.loadConfig (some path) true) { c with host.files := files } fun _ c' =>
      c'.Forgetful w.model ∧ c'.Proper w.model w.settings ∧ UserValues.Saved w.model v c'.user := by
  have hl := Load.listed_of_load hload
  obtain ⟨lines, htext, htell, hsymbols⟩ := Model.configText_lines h isRemarks_empty
  have hwritten : ∀ s, s ∈ lines.filterMap (·.symbol) ↔
      s ∈ w.model.defined ∧ (v (.text (.symbol s))).isWritten = true := fun s => by
    rw [hsymbols]
    exact hl.mem_written h.sound
  obtain ⟨message, c', hloads, hforgetful, hproper, hloaded⟩ := loadConfig_lines hload hmark h.solves
    hfile (decoded_textOf htext fun l hl => (htell l hl).oneLine) htell
    (fun s hs => (hwritten s).mp hs) (hsymbols ▸ hl.nodup_written)
  exact ⟨message, c', hloads, hforgetful, hproper,
    hloaded.saved h.sound h.solves fun s => List.mem_reverse.trans (hwritten s)⟩

end Loading

/-- What is written, whatever was done before, is a text that gives the same configuration when a
new one loads it: every question has the same answer, and what is written is the same text. For that
nothing that is remembered may be out of date, which it never is in a tidy model. -/
theorem saved_comes_back {host : Host} {options : LoadOptions} {c : Configuration} {w : Workspace}
    (hload : Load.load host options = .ok c w)
    (hterminates : ∀ u, w.model.Permits u → w.model.Terminates u)
    (hmark : w.settings.configPrefix = "CONFIG_") (hwritable : w.model.Writable) (acts : List Act)
    (hcurrent : w.model.Tidy ∨ (c.after acts).UpToDate)
    (hvalues : ∀ s ∈ w.model.defined, ∀ a c',
      Configuring.ask (.text (.symbol s)) (c.after acts) = .ok a c' →
        (w.model.symbol s).FitsLine a.value) :
    ∃ text c₁, Configuring.configText (some "") (c.after acts) = .ok text c₁ ∧
      ∀ files path, files.read path = .ok (.text text) → ∃ message c₂ c₃,
        Configuring.loadConfig (some path) true { c with host.files := files } =
          .ok message c₂ ∧
        (∀ q, ∃ a d d', Configuring.ask q (c.after acts) = .ok a d ∧
          Configuring.ask q c₂ = .ok a d') ∧
        Configuring.configText (some "") c₂ = .ok text c₃ := by
  have hproper := (ready_after hload acts).proper
  obtain ⟨v, hv⟩ := (hterminates _ hproper.permits).solution
  have hreads := @Configuring.follow_of_right _ _ _ hproper.model
    (right_after hload hterminates hcurrent hv) hv
  have hsavable : w.model.Savable (c.after acts).user v := by
    refine ⟨Load.sound_of_load hload, Load.walkable_of_load hload, hwritable, hv, fun s hs => ?_⟩
    obtain ⟨c', hask⟩ := hreads (.ask (.text (.symbol s)) .done)
    exact hvalues s hs _ c' hask
  obtain ⟨c₁, hwrite⟩ := hreads (w.model.configText {})
  refine ⟨_, c₁, (Configuring.configText_eq hproper hmark).trans hwrite, fun files path hfile => ?_⟩
  obtain ⟨message, c₂, hloads, hforgetful, hproper₂, hsaved⟩ :=
    loadConfig_saved hload hmark hsavable hfile
  -- the values that were loaded give the same answers
  obtain ⟨v', hv'⟩ := (hterminates _ hproper₂.permits).solution
  obtain rfl : v' = v := hv.eq_of_saved hv' hproper.permits hsaved (hv.hidden_of_unwritten hwritable)
  have hreads₂ := @Configuring.follow_of_right _ _ _ hproper₂.model
    (hforgetful.coherent c₂.user v').right hv'
  obtain ⟨c₃, hwrite₂⟩ := hreads₂ (w.model.configText {})
  refine ⟨message, c₂, c₃, hloads, fun q => ?_,
    (Configuring.configText_eq hproper₂ hmark).trans hwrite₂⟩
  obtain ⟨d, hask⟩ := hreads (.ask q .done)
  obtain ⟨d', hask'⟩ := hreads₂ (.ask q .done)
  exact ⟨v' q, d, d', hask, hask'⟩

/-- A menu with symbols of all types, of which one is only shown when another one is set. -/
def allTypes : Host where
  files.entries := [(["work", "Kconfig"], .file (.text
    "menu \"m\"\nconfig A\n\tbool \"a\"\n\tdefault y\nconfig T\n\tstring \"t\"\nconfig N\n\tint \"n\" if A\n\trange 3 9\nendmenu\ncomment \"c\"\nconfig H\n\thex \"h\"\n\tdefault 0x1F\n"))]

/-- A number is asked for, a text with quotes and a number are given, and the number is hidden. -/
def quoteAndHide : List Act :=
  [.ask (.text (.symbol 4)), .setSymbol 3 (.text "say \"hi\""), .setSymbol 4 (.text "7"),
    .setSymbol 2 (.number 0)]

/-- What is written then. -/
def quotedText : String :=
  "\n#\n# m\n#\n# CONFIG_A is not set\nCONFIG_T=\"say \\\"hi\\\"\"\n# end of m\n\n#\n# c\n#\nCONFIG_H=0x1F\n"

/-- The working directory with what was written. -/
def quotedFiles : Files.Store where
  entries := [(["work", "saved"], .file (.text quotedText))]

theorem allTypes_comes_back : ∃ c w c₁ message c₂ c₃, Load.load allTypes {} = .ok c w ∧
    Configuring.configText (some "") (c.after quoteAndHide) = .ok quotedText c₁ ∧
    Configuring.loadConfig (some "saved") true { c with host.files := quotedFiles } =
      .ok message c₂ ∧
    (∀ q, ∃ a d d', Configuring.ask q (c.after quoteAndHide) = .ok a d ∧
      Configuring.ask q c₂ = .ok a d') ∧
    Configuring.configText (some "") c₂ = .ok quotedText c₃ := by
  have hchecked : passes (fun c w =>
      let m := w.model
      let later := c.after quoteAndHide
      decide (m.choices.size = 0 ∧ w.settings.configPrefix = "CONFIG_" ∧ m.Writable) &&
      (m.defined.all fun s => passes (fun a _ => decide ((m.symbol s).FitsLine a.value))
        (Configuring.ask (.text (.symbol s)) later)) &&
      passes (fun text _ => text == quotedText) (Configuring.configText (some "") later))
      (Load.load allTypes {}) = true := by decide +kernel
  obtain ⟨c, w, hload, hchecked⟩ := ok_of_passes hchecked
  simp only [Bool.and_eq_true, List.all_eq_true] at hchecked
  obtain ⟨⟨hmodel, hvalues⟩, htext⟩ := hchecked
  obtain ⟨hsize, hmark, hwritable⟩ := of_decide_eq_true hmodel
  have hloop := Load.noLoop_of_load hload
  have hback := saved_comes_back hload
    (fun u _ => (Load.sound_of_load hload).terminates_of_no_choices hloop hsize u) hmark
    hwritable quoteAndHide (.inl (Model.tidy_of_no_choices hsize)) fun s hs a c' hask => by
      have hvalue := hvalues s hs
      rw [hask] at hvalue
      exact of_decide_eq_true hvalue
  obtain ⟨text, c₁, hwrite, hback⟩ := hback
  rw [hwrite] at htext
  obtain rfl := eq_of_beq htext
  obtain ⟨message, c₂, c₃, hback⟩ := hback quotedFiles "saved" (by decide +kernel)
  exact ⟨c, w, c₁, message, c₂, c₃, hload, hwrite, hback⟩

/-- A choice with a default that is no member of it. -/
def outsideDefault : Host where
  files.entries := [(["work", "Kconfig"], .file (.text
    "config P\n\tbool \"p\"\n\tdefault y\nconfig X\n\tbool \"x\" if P\nchoice C\n\tprompt \"c\"\n\tdefault X\nconfig A\n\tbool \"a\"\nconfig B\n\tbool \"b\"\nendchoice\n"))]

/-- The choice is asked for what it selects, and then the default is hidden. -/
def askAndHide : List Act := [.ask (.selection 0), .setSymbol 2 (.number 0)]

/-- What was remembered of such a default is out of date: what is written selects no member, but a
new configuration that loads it selects one. -/
example : (match Load.load outsideDefault {} with
    | .ok c _ =>
      match Configuring.configText (some "") (c.after askAndHide) with
      | .ok text _ =>
        let files : Files.Store := { entries := [(["work", "saved"], .file (.text text))] }
        let reload : Configuring String := do
          discard <| Configuring.loadConfig (some "saved") true
          Configuring.configText (some "")
        match reload { c with host.files := files } with
        | .ok text' _ => some (text, text')
        | .error .. => none
      | .error .. => none
    | .error .. => none) = some
      ("# CONFIG_P is not set\n# CONFIG_A is not set\n# CONFIG_B is not set\n",
        "# CONFIG_P is not set\nCONFIG_A=y\n# CONFIG_B is not set\n") := by decide +kernel

end Kconfig
