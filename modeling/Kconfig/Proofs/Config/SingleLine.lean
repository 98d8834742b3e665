import Kconfig.Proofs.Config.Malformed
import Kconfig.Proofs.Config.Repeated
import Kconfig.Proofs.Config.RoundTrip
/-!
Single lines of configurations load back, if the value fits into a line.

What a configuration holds for a symbol is put together from the name and the value. Where a file
holds nothing else, loading it assigns the value to the symbol and nothing to others, provided that
the value has no line end in it and, as a number, no blanks at its end. A symbol takes on other
values too: any text as a string, and a number with blanks and line ends around it. Then there is
more than one line, or the blanks at the end are lost.
-/
namespace Kconfig
open Plan Text

/-! ### The line of a value -/

/-- The line of a number is made of its name and its text. -/
theorem Symbol.numberLine_eq {sym : Symbol} (hnumber : sym.type.isNumber = true) (value : String) :
    (Model.assignmentLine {} sym value).toList =
      "CONFIG_".toList ++ sym.name.toList ++ '=' :: value.toList ++ ['\n'] := by
  have hline : ("CONFIG_" ++ sym.name ++ "=" ++ value ++ "\n").toList =
      "CONFIG_".toList ++ sym.name.toList ++ '=' :: value.toList ++ ['\n'] := by simp
  unfold Model.assignmentLine
  cases htype : sym.type with
  | int | hex => exact hline
  | bool | string | unknown => rw [htype] at hnumber; cases hnumber

/-- The text of an assignment ends a line, and all of the value is in it, unless it is a level. -/
theorem Symbol.assignmentLine_eq {sym : Symbol} (hbool : sym.type ≠ .bool) (value : String) :
    ∃ line, (Model.assignmentLine {} sym value).toList = line ++ ['\n'] ∧
      ∀ c ∈ value.toList, c ∈ line := by
  by_cases hnumber : sym.type.isNumber = true
  · exact ⟨_, numberLine_eq hnumber value,
      fun c hc => List.mem_append_right _ (List.mem_cons_of_mem _ hc)⟩
  have hquoted : ∃ line, ("CONFIG_" ++ sym.name ++ "=\"" ++ escaped value ++ "\"\n").toList =
      line ++ ['\n'] ∧ ∀ c ∈ value.toList, c ∈ line := by
    refine ⟨("CONFIG_" ++ sym.name ++ "=\"" ++ escaped value).toList ++ ['"'], ?_, fun c hc => ?_⟩
    · rw [String.toList_append, List.append_assoc]
      rfl
    · rw [String.toList_append, escaped, String.toList_ofList]
      exact List.mem_append_left _ (List.mem_append_right _ (mem_escape hc))
  unfold Model.assignmentLine
  cases htype : sym.type with
  | bool => exact absurd htype hbool
  | int | hex => exact absurd (congrArg ValueType.isNumber htype) hnumber
  | string | unknown => exact hquoted

/-! ### What the line assigns -/

/-- A value that a symbol accepts is a level of a bool, or a text. -/
theorem ValueType.accept?_cases {type : ValueType} {g : Given} {given : UserValue}
    (h : type.accept? g = some given) :
    (type = .bool ∧ ∃ l isTruth, given = .level l isTruth) ∨
      (type ≠ .bool ∧ type ≠ .unknown ∧ ∃ t, given = .text t ∧
        type.accept? (.text t) = some (.text t)) := by
  by_cases hbool : type = .bool
  · refine .inl ⟨hbool, ?_⟩
    subst hbool
    cases given with
    | level l isTruth => exact ⟨l, isTruth, rfl⟩
    | text t => exact absurd h (Configuring.level?_ne g t)
  · by_cases hnumber : type.isNumber = true
    · exact .inr ⟨hbool, fun h => (by rw [h] at hnumber; cases hnumber),
        Model.text_of_accept? hnumber h⟩
    · cases type with
      | bool => exact absurd rfl hbool
      | int | hex => exact absurd rfl hnumber
      | unknown => exact nomatch h
      | string =>
        cases g with
        | text t => exact .inr ⟨hbool, (by decide), t, (Option.some.inj h).symm, rfl⟩
        | number | truth | nothing => exact nomatch h

namespace Model
variable {m : Model} {s : SymbolId} {given : UserValue}

/-- The line of a value that a symbol accepted assigns it again. -/
theorem accepted?_assignment (hl : m.Listed) (hm : m.Sound) (hs : s ∈ m.defined)
    (hgiven : ∃ g, (m.symbol s).type.accept? g = some given) {line : List Char}
    (hread : ConfigLine.read "CONFIG_" line = (m.symbol s).assignment given.asText) :
    m.accepted? "CONFIG_" line = some ⟨s, given.plain⟩ ∧ m.undefined? "CONFIG_" line = none ∧
      ConfigLine.read "CONFIG_" line ≠ .malformed := by
  have hnamed := Configuring.definedSymbol?_eq hl hm hs
  obtain ⟨g, hg⟩ := hgiven
  rw [accepted?, undefined?, hread, Symbol.assignment]
  rcases ValueType.accept?_cases hg with ⟨hbool, l, isTruth, rfl⟩ | ⟨hbool, hknown, t, rfl, haccept⟩
  · rw [hbool]
    cases l with
    | false => simp [UserValue.asText, levelWord, hnamed, hbool, UserValue.plain]
    | true => simp [UserValue.asText, levelWord, hnamed, hbool, UserValue.plain, assigned?]
  · cases htype : (m.symbol s).type with
    | bool => exact absurd htype hbool
    | unknown => exact absurd htype hknown
    | int | hex =>
      rw [htype] at haccept
      simp [UserValue.asText, hnamed, UserValue.plain, assigned?, htype, haccept]
    | string =>
      have hassigned : m.assigned? s ("\"" ++ escaped t ++ "\"") = some (.text t) := by
        rw [← assigned?_literal htype t "", String.append_empty]
      simp only [UserValue.asText, hnamed, Option.bind_some, hassigned, UserValue.plain,
        Option.map_some, reduceCtorEq, if_false, ne_eq, not_false_eq_true, and_self]

/-- The line of a number assigns the number without the blanks at its end, if it assigns
anything. -/
theorem accepted?_numberLine (hl : m.Listed) (hm : m.Sound) (hs : s ∈ m.defined)
    (hname : IsWord (m.symbol s).name) (hnumber : (m.symbol s).type.isNumber = true) (t : String)
    {a : Assignment} (h : m.accepted? "CONFIG_" (assignmentLine {} (m.symbol s) t).toList = some a) :
    a = ⟨s, .text (String.ofList (trimRight t.toList))⟩ := by
  rw [Symbol.numberLine_eq hnumber, accepted?,
    ConfigLine.read_assign_trimmed ConfigLine.plain_config hname] at h
  dsimp only at h
  rw [Configuring.definedSymbol?_eq hl hm hs, Option.bind_some] at h
  obtain ⟨v, hv, rfl⟩ := Option.map_eq_some_iff.mp h
  have hassigned : ∀ text, m.assigned? s text = (m.symbol s).type.accept? (.text text) := by
    intro text
    unfold assigned?
    cases htype : (m.symbol s).type with
    | int | hex | unknown => rfl
    | bool | string => rw [htype] at hnumber; cases hnumber
  rw [hassigned] at hv
  rcases accept?_number hnumber (String.ofList (trimRight t.toList)) with hnone | hsome
  · rw [hnone] at hv
    exact absurd hv.symm (Option.some_ne_none _)
  · rw [hsome] at hv
    rw [Option.some.inj hv]

end Model

/-! ### Files of one line -/

section Files
variable {m : Model} {settings : Settings} {c c' : Configuration} {s : SymbolId}
  {given : UserValue} {path text : String} {line : List Char} {replaces : Bool}

/-- A file that holds one line. -/
theorem Configuration.linesOf?_line (hfile : c.host.files.read path = .ok (.text text))
    (htext : text.toList = line ++ ['\n']) (hline : OneLine line) :
    c.linesOf? path = some [line ++ ['\n']] := by
  have hlines : ∀ l ∈ [(⟨line, none⟩ : PageLine)], OneLine l.chars := fun l hl =>
    List.mem_singleton.mp hl ▸ hline
  have hopened : c.opened? path = some (.text text) := by rw [opened?, hfile]
  have hjoined : text.toList = textOf [⟨line, none⟩] := htext.trans (List.append_nil _).symm
  rw [linesOf?, hopened, Option.bind_some, decoded_textOf hjoined hlines, if_pos rfl,
    lines_textOf hlines]
  rfl

/-- Loading gave one symbol a value, and nothing else: the other symbols and the choices have what
they had, or nothing if the configuration was replaced, nothing was assigned to an undefined name,
and no line was told to be malformed. -/
structure Configuration.GivesOnly (m : Model) (s : SymbolId) (given : UserValue) (replaces : Bool)
    (c c' : Configuration) : Prop where
  value : (c'.user.value s).map UserValue.plain = some given.plain
  others : ∀ t ∈ m.defined, t ≠ s → c'.user.value t = if replaces then none else c.user.value t
  selections : ∀ ch ∈ m.definedChoices, (m.symbol s).choice ≠ some ch →
    c'.user.selection ch = if replaces then none else c.user.selection ch
  missing : c'.missing = if replaces then [] else c.missing
  wellFormed : WellFormed c c'

/-- A file with one assignment gives its symbol the value. -/
theorem Configuration.TakesFile.givesOnly (h : TakesFile m settings.configPrefix [line] replaces c c')
    (hs : s ∈ m.defined) (haccepted : m.accepted? settings.configPrefix line = some ⟨s, given.plain⟩)
    (hdefined : m.undefined? settings.configPrefix line = none) (hwell : WellFormed c c') :
    GivesOnly m s given replaces c c' := by
  have hassigned : [line].filterMap (m.accepted? settings.configPrefix) = [⟨s, given.plain⟩] :=
    List.filterMap_cons_some haccepted
  have hlost : [line].filterMap (m.undefined? settings.configPrefix) = [] :=
    List.filterMap_cons_none hdefined
  refine ⟨h.value s hs _ ?_, fun t ht hts => h.unassigned t ht ?_, fun ch hch hother => ?_, ?_, hwell⟩
  · rw [hassigned, lastValue?_single, if_pos rfl]
  · rw [hassigned, lastValue?_single, if_neg (Ne.symm hts)]
  · rw [h.selection ch hch, hassigned, m.lastSelected?_single, Model.selects?,
      if_neg fun h => hother h.1, Option.none_or]
  · rw [h.missing, hlost, List.append_nil]

/-- Loading a file of one line makes the assignment of that line. -/
theorem Configuring.yields_loadConfig_line (hm : m.Sound) (hc : c.Ready m settings)
    (hfile : c.host.files.read path = .ok (.text text)) (htext : text.toList = line ++ ['\n'])
    (hline : OneLine line) : Yields (loadConfig (some path) replaces) c fun _ c' =>
      Configuration.TakesFile m settings.configPrefix [line ++ ['\n']] replaces c c' :=
  yields_loadConfig_named hm hc (Configuration.linesOf?_line hfile htext hline) replaces

/-- A file of one line that assigns a symbol gives it the value, unless it is merged and the symbol
is hollow. -/
theorem Configuring.ends_loadConfig_line (hm : m.Sound) (hc : c.Ready m settings)
    (hs : s ∈ m.defined) (hfile : c.host.files.read path = .ok (.text text))
    (htext : text.toList = line ++ ['\n']) (hline : OneLine line)
    (haccepted : m.accepted? settings.configPrefix (line ++ ['\n']) = some ⟨s, given.plain⟩)
    (hdefined : m.undefined? settings.configPrefix (line ++ ['\n']) = none)
    (hread : ConfigLine.read settings.configPrefix (line ++ ['\n']) ≠ .malformed)
    (hfilled : replaces = true ∨ ¬ c.Hollow m s) :
    Ends (loadConfig (some path) replaces) c fun _ => c.GivesOnly m s given replaces := by
  have hlines := Configuration.linesOf?_line hfile htext hline
  have hends := (failsIf_loadConfig hm hc hlines replaces).ends <| by
    rintro ⟨rfl, a, ha, hhollow⟩
    rw [List.filterMap_cons_some haccepted] at ha
    obtain rfl := List.mem_singleton.mp ha
    exact (hfilled.resolve_left Bool.false_ne_true) hhollow
  have htold := wellFormed_loadConfig hc replaces fun lines h l hl => by
    rw [hlines] at h
    obtain rfl := Option.some.inj h
    exact List.mem_singleton.mp hl ▸ hread
  obtain ⟨message, c', hok, -⟩ := hends
  have htakes := yields_loadConfig_line hm hc hfile htext hline message c' hok
  exact ⟨message, c', hok, htakes.givesOnly hs haccepted hdefined (htold message c' hok)⟩

end Files

/-! ### Lines that load back -/

/-- The text is one line, and where a file holds just that text, loading the file gives the symbol
the value and nothing else, whatever was done before. A hollow symbol is the exception: the file
cannot be merged then. -/
structure Configuration.LoadsBack (c : Configuration) (w : Workspace) (s : SymbolId)
    (given : UserValue) (text : String) : Prop where
  oneLine : ∃ line, text.toList = line ++ ['\n'] ∧ OneLine line
  loads : ∀ acts path replaces, (c.after acts).host.files.read path = .ok (.text text) →
    replaces = true ∨ ¬ (c.after acts).Hollow w.model s →
      Ends (Configuring.loadConfig (some path) replaces) (c.after acts) fun _ =>
        (c.after acts).GivesOnly w.model s given replaces

section Loading
variable {host : Host} {options : LoadOptions} {c : Configuration} {w : Workspace} {s : SymbolId}
  {given : UserValue} (hload : Load.load host options = .ok c w)
  (hmark : w.settings.configPrefix = "CONFIG_") (hs : s ∈ w.model.defined)
  (hname : IsWord (w.model.symbol s).name)
  (hgiven : ∃ g, (w.model.symbol s).type.accept? g = some given)
include hload hmark hs hname hgiven

/-- The line of a value that fits into a line loads back. -/
theorem loadsBack_of_fitsLine (hfits : (w.model.symbol s).FitsLine given.asText) :
    c.LoadsBack w s given (Model.assignmentLine {} (w.model.symbol s) given.asText) := by
  have hm := Load.sound_of_load hload
  have hlevel : (w.model.symbol s).type = .bool → given.asText = "n" ∨ given.asText = "y" := by
    intro hbool
    obtain ⟨g, hg⟩ := hgiven
    obtain ⟨-, l, isTruth, rfl⟩ | ⟨hother, -⟩ := ValueType.accept?_cases hg
    · cases l
      · exact .inl rfl
      · exact .inr rfl
    · exact absurd hbool hother
  obtain ⟨line, htext, hline, hread⟩ := read_assignmentLine hname hfits hlevel
  obtain ⟨haccepted, hdefined, hwell⟩ :=
    Model.accepted?_assignment (Load.listed_of_load hload) hm hs hgiven hread
  refine ⟨⟨line, htext, hline⟩, fun acts path replaces hfile hfilled => ?_⟩
  rw [← hmark] at haccepted hdefined hwell
  exact Configuring.ends_loadConfig_line hm (ready_after hload acts) hs hfile htext hline haccepted
    hdefined hwell hfilled

/-- A number that loads back has no blanks at its end: they are lost when the line is read. -/
theorem trimRight_of_loadsBack (hnumber : (w.model.symbol s).type.isNumber = true)
    (hback : c.LoadsBack w s given (Model.assignmentLine {} (w.model.symbol s) given.asText)) :
    trimRight given.asText.toList = given.asText.toList := by
  obtain ⟨g, hg⟩ := hgiven
  obtain ⟨t, rfl, -⟩ := Model.text_of_accept? hnumber hg
  have hm := Load.sound_of_load hload
  dsimp only [UserValue.asText] at hback ⊢
  obtain ⟨line, htext, hline⟩ := hback.oneLine
  -- a file with the line is loaded where nothing was done before
  let files : Files.Store := { entries := [(["work", "saved"], .file (.text
    (Model.assignmentLine {} (w.model.symbol s) t)))] }
  obtain ⟨message, c', hok, honly⟩ := hback.loads [.changeFiles files] "saved" true rfl (.inl rfl)
  have htakes := Configuring.yields_loadConfig_line hm (ready_after hload [.changeFiles files])
    rfl htext hline message c' hok
  rw [hmark, ← htext] at htakes
  have hvalue := honly.value
  cases haccepted : w.model.accepted? "CONFIG_"
      (Model.assignmentLine {} (w.model.symbol s) t).toList with
  | none =>
    have hnone := htakes.unassigned s hs
    rw [List.filterMap_cons_none haccepted] at hnone
    rw [hnone rfl] at hvalue
    exact nomatch hvalue
  | some a =>
    obtain rfl := Model.accepted?_numberLine (Load.listed_of_load hload) hm hs hname hnumber t haccepted
    have hlast := htakes.value s hs
    rw [List.filterMap_cons_some haccepted] at hlast
    rw [hlast _ ((lastValue?_single ..).trans (if_pos rfl))] at hvalue
    injection hvalue with hvalue
    injection hvalue with hvalue
    exact String.toList_ofList.symm.trans (congrArg String.toList hvalue)

/-- The value of a line that loads back fits into a line. -/
theorem fitsLine_of_loadsBack
    (hback : c.LoadsBack w s given (Model.assignmentLine {} (w.model.symbol s) given.asText)) :
    (w.model.symbol s).FitsLine given.asText := by
  refine ⟨?_, fun hnumber => trimRight_of_loadsBack hload hmark hs hname hgiven hnumber hback⟩
  obtain ⟨g, hg⟩ := hgiven
  obtain ⟨-, l, isTruth, rfl⟩ | ⟨hother, -⟩ := ValueType.accept?_cases hg
  · have hword : OneLine (levelWord l).toList := by cases l <;> exact ⟨by decide, by decide⟩
    exact hword
  · obtain ⟨line, htext, hline⟩ := hback.oneLine
    obtain ⟨line', htext', hmem⟩ := Symbol.assignmentLine_eq hother given.asText
    obtain rfl : line = line' := List.append_cancel_right (htext.symm.trans htext')
    exact ⟨fun h => hline.feed (hmem _ h), fun h => hline.carriage (hmem _ h)⟩

end Loading

/-- Whatever was done before, what a configuration holds for a symbol that has the value that the
user gave it is nothing, or a line that loads back exactly if the value fits into a line: there must
be no line end in it, and no blank at the end of a number. -/
theorem configLine_loads_back {host : Host} {options : LoadOptions} {c : Configuration}
    {w : Workspace} (hload : Load.load host options = .ok c w)
    (hmark : w.settings.configPrefix = "CONFIG_") {s : SymbolId} (hs : s ∈ w.model.defined)
    (hname : IsWord (w.model.symbol s).name) (acts : List Act) {given : UserValue}
    (hgiven : (c.after acts).user.value s = some given) {a : Written String} {d : Configuration}
    (hask : Configuring.ask (.text (.symbol s)) (c.after acts) = .ok a d)
    (hvalue : a.value = given.asText) :
    Ends (Configuring.follow (w.model.configLine {} s)) (c.after acts) fun text _ => text = "" ∨
      (c.LoadsBack w s given text ↔ (w.model.symbol s).FitsLine given.asText) := by
  have haccepted := (ready_after hload acts).proper.permits.value s given hgiven
  refine ⟨_, d, Configuring.follow_ask hask _, ?_⟩
  cases hwritten : a.isWritten with
  | false => exact .inl (if_neg Bool.false_ne_true)
  | true =>
    rw [if_pos rfl, hvalue]
    exact .inr ⟨fitsLine_of_loadsBack hload hmark hs hname haccepted,
      loadsBack_of_fitsLine hload hmark hs hname haccepted⟩

/-- Two texts and a number. -/
def textsAndNumber : Host where
  files.entries := [(["work", "Kconfig"], .file (.text
    "config T\n\tstring \"t\"\n\nconfig U\n\tstring \"u\"\n\nconfig N\n\tint \"n\"\n"))]

/-- The first text has quotes in it, the second one a line end, and the number a blank at its
end. -/
def giveTextsAndNumber : List Act :=
  [.setSymbol 2 (.text "say \"hi\""), .setSymbol 3 (.text "a\nCONFIG_N=9"),
    .setSymbol 4 (.text "7 ")]

/-- Only the line of the first text loads back. -/
theorem textsAndNumber_load_back : ∃ c w, Load.load textsAndNumber {} = .ok c w ∧
    let later := c.after giveTextsAndNumber
    let line := fun s => Configuring.follow (w.model.configLine {} s)
    Ends (line 2) later (fun text _ => c.LoadsBack w 2 (.text "say \"hi\"") text) ∧
      Ends (line 3) later (fun text _ => ¬ c.LoadsBack w 3 (.text "a\nCONFIG_N=9") text) ∧
      Ends (line 4) later fun text _ => ¬ c.LoadsBack w 4 (.text "7 ") text := by
  let given : List (SymbolId × String) := [(2, "say \"hi\""), (3, "a\nCONFIG_N=9"), (4, "7 ")]
  have hchecked : passes (fun c w =>
      let later := c.after giveTextsAndNumber
      let fits := fun s t => decide ((w.model.symbol s).FitsLine t)
      (w.settings.configPrefix == "CONFIG_" && fits 2 "say \"hi\"" && !fits 3 "a\nCONFIG_N=9" &&
        !fits 4 "7 ") &&
      given.all fun x =>
        decide (x.1 ∈ w.model.defined ∧ IsWord (w.model.symbol x.1).name ∧
          later.user.value x.1 = some (.text x.2)) &&
        passes (fun a _ => a.value == x.2) (Configuring.ask (.text (.symbol x.1)) later) &&
        passes (fun text _ => text != "") (Configuring.follow (w.model.configLine {} x.1) later))
      (Load.load textsAndNumber {}) = true := by decide +kernel
  obtain ⟨c, w, hload, hchecked⟩ := ok_of_passes hchecked
  simp only [Bool.and_eq_true, List.all_eq_true, beq_iff_eq, Bool.not_eq_true',
    decide_eq_true_eq, decide_eq_false_iff_not] at hchecked
  obtain ⟨⟨⟨⟨hmark, hfits₂⟩, hfits₃⟩, hfits₄⟩, hgiven⟩ := hchecked
  have hline : ∀ x ∈ given, Ends (Configuring.follow (w.model.configLine {} x.1))
      (c.after giveTextsAndNumber) fun text _ =>
        c.LoadsBack w x.1 (.text x.2) text ↔ (w.model.symbol x.1).FitsLine x.2 := by
    intro x hx
    obtain ⟨⟨⟨hs, hname, hvalue⟩, hread⟩, htext⟩ := hgiven x hx
    obtain ⟨a, d, hask, ha⟩ := ok_of_passes hread
    obtain ⟨text, d', hfollow, hback⟩ := configLine_loads_back hload hmark hs hname
      giveTextsAndNumber hvalue hask (eq_of_beq ha)
    rw [hfollow] at htext
    exact ⟨text, d', hfollow, hback.resolve_left (bne_iff_ne.mp htext)⟩
  refine ⟨c, w, hload, ?_, ?_, ?_⟩
  · exact (hline (2, "say \"hi\"") (by simp [given])).mono fun _ _ h => h.mpr hfits₂
  · exact (hline (3, "a\nCONFIG_N=9") (by simp [given])).mono fun _ _ h hback =>
      hfits₃ (h.mp hback)
  · exact (hline (4, "7 ") (by simp [given])).mono fun _ _ h hback => hfits₄ (h.mp hback)

end Kconfig
