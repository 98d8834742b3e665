import Kconfig.Proofs.Config.Minimal
import Kconfig.Proofs.Config.Reload
import Kconfig.Proofs.Config.Repeated
import Kconfig.Proofs.Config.Writers
import Kconfig.Proofs.Menu.Reload
import Kconfig.Tool.Write
/-!
The minimal configuration that the command writes.

The command cuts the minimal configuration into lines, and writes `NAME=n` for a bool that is not
set. The file says the same as long as a line of it ends only where a line ends in the minimal
configuration, and as long as the name of no bool has an `=` in it. Cutting knows more ends of lines
than loading does, so that a text with one of these in it comes apart in the file.
-/
namespace Kconfig
open Text

variable {m : Model} {v : Valuation} {c c' d d' : Configuration} {s : SymbolId}
  {l : List Char} {lines : List (List Char)}

/-! ### Texts made of lines -/

namespace Text

/-- No character of the text ends a line where texts are cut. -/
def Unbroken (s : List Char) : Prop := ∀ ch ∈ s, endsLine ch = false

instance (s : List Char) : Decidable (Unbroken s) :=
  List.decidableBAll (fun ch => endsLine ch = false) s

theorem Unbroken.append {s t : List Char} (hs : Unbroken s) (ht : Unbroken t) : Unbroken (s ++ t) :=
  List.forall_mem_append.mpr ⟨hs, ht⟩

/-- Nor does any character of it where files are read. -/
theorem Unbroken.oneLine {s : List Char} (h : Unbroken s) : OneLine s :=
  ⟨fun hmem => absurd (h _ hmem) (by decide), fun hmem => absurd (h _ hmem) (by decide)⟩

/-- The text of lines. -/
def unlines (lines : List (List Char)) : List Char := lines.flatMap (· ++ ['\n'])

theorem unlines_append (lines lines' : List (List Char)) :
    unlines (lines ++ lines') = unlines lines ++ unlines lines' := List.flatMap_append

/-- Cutting ends a line at its line feed. -/
theorem splitLinesFrom_line (rest : List Char) : ∀ {l : List Char} (held : List Char),
    Unbroken l → splitLinesFrom held (l ++ '\n' :: rest) =
      (held.reverse ++ l) :: splitLinesFrom [] rest
  | [], held, _ => by
    rw [List.nil_append, splitLinesFrom, if_pos (by decide), List.append_nil]
    exact fun _ h => absurd h (by decide)
  | c :: l, held, h => by
    have hc := h c List.mem_cons_self
    rw [List.cons_append, splitLinesFrom, if_neg (by simp [hc]),
      splitLinesFrom_line rest (c :: held) fun e he => h e (List.mem_cons_of_mem c he)]
    · simp
    · rintro _ rfl
      exact absurd hc (by decide)

/-- Lines without further ends of lines in them are what cutting gives. -/
theorem splitLines_unlines (h : ∀ l ∈ lines, Unbroken l) :
    splitLines (unlines lines) = lines := by
  induction lines with
  | nil => rfl
  | cons l lines ih =>
    have hcut := splitLinesFrom_line (unlines lines) [] (h l List.mem_cons_self)
    have hrest := ih fun l' hl' => h l' (List.mem_cons_of_mem l hl')
    have htext : unlines (l :: lines) = l ++ '\n' :: unlines lines := by simp [unlines]
    rw [splitLines, htext, hcut, ← splitLines, hrest]
    rfl

/-- Lines that are joined and ended are the text of these lines. -/
theorem intercalate_unlines (hne : lines ≠ []) :
    ['\n'].intercalate lines ++ ['\n'] = unlines lines := by
  induction lines with
  | nil => exact absurd rfl hne
  | cons l lines ih =>
    cases lines with
    | nil => simp [List.intercalate, unlines]
    | cons l' lines =>
      have hrest := ih (List.cons_ne_nil _ _)
      simp only [unlines, List.flatMap_cons, List.append_assoc] at hrest ⊢
      rw [← hrest]
      simp [List.intercalate]

/-- A text that ends in a line feed is made of lines. -/
theorem exists_unlines : ∀ {text : List Char}, text.getLast? = some '\n' →
    ∃ lines, text = unlines lines ∧ lines ≠ [] ∧ ∀ l ∈ lines, '\n' ∉ l
  | [], h => nomatch h
  | c :: text, h => by
    cases htext : text with
    | nil =>
      subst htext
      obtain rfl : c = '\n' := Option.some.inj h
      exact ⟨[[]], rfl, List.cons_ne_nil _ _, by simp⟩
    | cons d rest =>
      rw [htext, List.getLast?_cons_cons, ← htext] at h
      obtain ⟨lines, hunlines, hne, hfeeds⟩ := exists_unlines h
      rw [← htext, hunlines]
      by_cases hc : c = '\n'
      · subst hc
        exact ⟨[] :: lines, rfl, List.cons_ne_nil _ _, by simpa using hfeeds⟩
      · obtain ⟨l, more, rfl⟩ := List.exists_cons_of_ne_nil hne
        obtain ⟨hl, hmore⟩ := List.forall_mem_cons.mp hfeeds
        refine ⟨(c :: l) :: more, rfl, List.cons_ne_nil _ _, List.forall_mem_cons.mpr ⟨?_, hmore⟩⟩
        exact fun hmem => (List.mem_cons.mp hmem).elim (fun h => hc h.symm) hl

theorem mem_unlines {l : List Char} (hl : l ∈ lines) {ch : Char} (hch : ch ∈ l) :
    ch ∈ unlines lines :=
  List.mem_flatMap.mpr ⟨l, hl, List.mem_append_left _ hch⟩

theorem getLast?_unlines (hne : lines ≠ []) : (unlines lines).getLast? = some '\n' := by
  rw [← intercalate_unlines hne]
  exact List.getLast?_concat

theorem carriage_unlines (h : ∀ l ∈ lines, Unbroken l) : '\r' ∉ unlines lines := by
  intro hmem
  obtain ⟨l, hl, hmem⟩ := List.mem_flatMap.mp hmem
  rcases List.mem_append.mp hmem with hmem | hmem
  · exact (h l hl).oneLine.carriage hmem
  · exact absurd hmem (by decide)

end Text

/-! ### Lines that say `n` -/

namespace Tool

/-- A line as it is written. -/
def readable (l : List Char) : List Char := (assignUnset "CONFIG_" (String.ofList l)).toList

/-- It is the line, or assigns `n` to the name which the line says is not set. -/
theorem readable_cases (l : List Char) : readable l = l ∨ ∃ (name : String) (rest : List Char),
    name ≠ "" ∧ ' ' ∉ name.toList ∧
      l = "# ".toList ++ ("CONFIG_".toList ++ (name.toList ++ (" is not set".toList ++ rest))) ∧
      readable l = "CONFIG_".toList ++ name.toList ++ ['=', 'n'] := by
  unfold readable assignUnset
  have hline : (String.ofList l).toList = l := String.toList_ofList
  rw [Pattern.ofText?_of_plain ConfigLine.plain_config, Option.bind_some, hline,
    ConfigLine.unset?_literal]
  split
  · next found hfound =>
    simp only [Option.bind_eq_some_iff] at hfound
    obtain ⟨rest, hhash, marked, hmark, hname⟩ := hfound
    obtain ⟨hne, hblank, more, rfl⟩ := ConfigLine.eq_append_of_unsetName? hname
    have hlist : (String.ofList found).toList = found := String.toList_ofList
    refine .inr ⟨String.ofList found, more, fun hempty => ?_, hlist.symm ▸ hblank, ?_, ?_⟩
    · exact hne (String.ofList_eq_empty_iff.mp hempty)
    · rw [hlist, ConfigLine.eq_append_of_after? hhash, ConfigLine.eq_append_of_after? hmark]
    · simp
  · exact .inl String.toList_ofList

end Tool

namespace Model

/-- To a name without `=` this assigns what the line assigned. -/
theorem accepted?_readable (hequal : ∀ name,
    ConfigLine.read "CONFIG_" (l ++ ['\n']) = .unset name → '=' ∉ name.toList) :
    m.accepted? "CONFIG_" (Tool.readable l ++ ['\n']) = m.accepted? "CONFIG_" (l ++ ['\n']) := by
  rcases Tool.readable_cases l with hsame | ⟨name, rest, hne, hblank, rfl, hline⟩
  · rw [hsame]
  · have hunset := ConfigLine.read_unset_named hne hblank rest
    have hassign : ConfigLine.read "CONFIG_" ("CONFIG_".toList ++ name.toList ++ ['=', 'n'] ++
        ['\n']) = .assign name "n" := ConfigLine.read_assign_named
          ConfigLine.plain_config hne (hequal name hunset) ['n']
    rw [hline, accepted?, accepted?, hunset, hassign]
    dsimp only
    refine congrArg _ (funext fun s => ?_)
    unfold assigned?
    cases htype : (m.symbol s).type <;> rfl

end Model

/-! ### The lines of a minimal configuration -/

namespace Tool

/-- A line that says the same when it is written. -/
structure KeptLine (l : List Char) : Prop where
  unbroken : Unbroken l
  /-- The name that the line says is not set has no `=` in it. -/
  unset : ∀ name, ConfigLine.read "CONFIG_" (l ++ ['\n']) = .unset name → '=' ∉ name.toList

/-- A text that says the same when it is written: its lines end only in line feeds, and no name that
a line says is not set has an `=` in it. -/
structure KeptText (text : List Char) : Prop where
  feed : ∀ ch ∈ text, endsLine ch = true → ch = '\n'
  unset : ∀ line ∈ splitKeep text, ∀ name,
    ConfigLine.read "CONFIG_" line = .unset name → '=' ∉ name.toList

theorem splitKeep_unlines (h : ∀ l ∈ lines, '\n' ∉ l) :
    splitKeep (unlines lines) = lines.map (· ++ ['\n']) := splitKeep_lines h

/-- A text says the same if its lines do. -/
theorem keptText_unlines (h : ∀ l ∈ lines, KeptLine l) : KeptText (unlines lines) := by
  refine ⟨fun ch hch hends => ?_, fun line hline name hname => ?_⟩
  · obtain ⟨l, hl, hch⟩ := List.mem_flatMap.mp hch
    rcases List.mem_append.mp hch with hch | hch
    · exact absurd hends (Bool.eq_false_iff.mp ((h l hl).unbroken ch hch))
    · exact List.mem_singleton.mp hch
  · rw [splitKeep_unlines fun l hl => (h l hl).unbroken.oneLine.feed] at hline
    obtain ⟨l, hl, rfl⟩ := List.mem_map.mp hline
    exact (h l hl).unset name hname

/-- Such a text that ends in a line feed is made of such lines. -/
theorem KeptText.exists_lines {text : List Char} (h : KeptText text)
    (hlast : text.getLast? = some '\n') :
    ∃ lines, text = unlines lines ∧ lines ≠ [] ∧ ∀ l ∈ lines, KeptLine l := by
  obtain ⟨lines, rfl, hne, hfeed⟩ := exists_unlines hlast
  refine ⟨lines, rfl, hne, fun l hl => ⟨fun ch hch => ?_, h.unset (l ++ ['\n']) ?_⟩⟩
  · refine Bool.eq_false_iff.mpr fun hends => hfeed l hl ?_
    rwa [← h.feed ch (mem_unlines hl hch) hends]
  · rw [splitKeep_unlines hfeed]
    exact List.mem_map_of_mem hl

/-- What is written of a line is unbroken as well. -/
theorem KeptLine.readable (h : KeptLine l) : Unbroken (readable l) := by
  rcases readable_cases l with hsame | ⟨name, rest, -, -, rfl, hline⟩
  · rw [hsame]
    exact h.unbroken
  · have hname : Unbroken name.toList := fun ch hch => h.unbroken ch (by simp [hch])
    have hmark : Unbroken "CONFIG_".toList := by decide
    have hend : Unbroken ['=', 'n'] := by decide
    rw [hline]
    exact (hmark.append hname).append hend

/-- The lines as they are written assign the same. -/
theorem accepted?_lines (h : ∀ l ∈ lines, KeptLine l) :
    (splitKeep (unlines (lines.map Tool.readable))).filterMap (m.accepted? "CONFIG_") =
      (splitKeep (unlines lines)).filterMap (m.accepted? "CONFIG_") := by
  rw [splitKeep_unlines (List.forall_mem_map.mpr fun l hl => (h l hl).readable.oneLine.feed),
    splitKeep_unlines fun l hl => (h l hl).unbroken.oneLine.feed, List.map_map, List.filterMap_map,
    List.filterMap_map]
  refine List.filterMap_congr fun l hl => ?_
  rw [Function.comp_apply, Function.comp_apply, Function.comp_apply]
  exact Model.accepted?_readable (h l hl).unset

/-- The text that is written for a minimal configuration. -/
def rewritten (start text : String) : String :=
  "\n".intercalate ((linesOf text).map (assignUnset start)) ++ "\n"

/-- It is made of the lines as they are written. -/
theorem rewritten_eq {text : String} (htext : text.toList = unlines lines) (hne : lines ≠ [])
    (h : ∀ l ∈ lines, KeptLine l) :
    (rewritten "CONFIG_" text).toList = unlines (lines.map Tool.readable) := by
  have hmap : ((lines.map String.ofList).map (assignUnset "CONFIG_")).map String.toList =
      lines.map Tool.readable := by
    rw [List.map_map, List.map_map]
    rfl
  rw [rewritten, linesOf, htext, splitLines_unlines fun l hl => (h l hl).unbroken,
    String.toList_append, String.toList_intercalate, hmap]
  exact intercalate_unlines (mt List.map_eq_nil_iff.mp hne)

/-- The command writes the lines of the minimal configuration. -/
theorem outputText_minimal {text : String}
    (hwrite : Configuring.minimalText (some minimalHeading) c = .ok text c') :
    outputText .minimal c = .ok (rewritten c.settings.configPrefix text) c' := by
  show (Configuring.minimalText (some minimalHeading) >>= fun text =>
    pure (rewritten c.settings.configPrefix text)) c = _
  rw [bind_apply, hwrite]
  rfl

/-- A file is read as it is. -/
theorem yields_holdsAll (path text : String) :
    Yields (writeOutput.holdsAll path text) c fun isHeld c' => isHeld = true →
      ∃ content, c'.host.files.read path = .ok content ∧
        content.decoded = ⟨text.toList, none⟩ := by
  have hread : Yields (Configuring.onFiles path fun files => do return (← files.read path, files))
      c fun content c' => c'.host.files.read path = .ok content := by
    refine .bind_get ?_
    dsimp only
    cases hfile : c.host.files.read path with
    | error condition => exact .throw _
    | ok content =>
      intro found c' h
      injection h with hfound hc
      rw [← hc, ← hfound]
      exact hfile
  refine .bind hread fun content c' hfile => ?_
  dsimp only
  cases hfault : content.decoded.fault with
  | some fault => exact .throw _
  | none =>
    refine .pure fun hheld => ⟨content, hfile, ?_⟩
    rw [← eq_of_beq hheld, ← hfault]

/-- A file that was written holds the text, whether or not it held it before. -/
theorem yields_writeOutput {format : OutputFormat} {out path : String}
    (hout : outputText format c = .ok out c') (hcarriage : '\r' ∉ out.toList) :
    Yields (writeOutput format path) c fun _ d =>
      ∃ content, d.host.files.read path = .ok content ∧ content.decoded = ⟨out.toList, none⟩ := by
  have hsame : String.ofList (unifyLineEnds out.toList) = out := by
    rw [unifyLineEnds_eq_self hcarriage, String.ofList_toList]
  have hwritten : ∀ e, Yields (Configuring.writeFile path out) e fun _ e' =>
      ∃ content, e'.host.files.read path = .ok content ∧ content.decoded = ⟨out.toList, none⟩ := by
    intro e
    refine (Configuring.yields_writeFile path out).mono fun _ e' ⟨_, hread⟩ => ⟨_, hread, ?_⟩
    show (⟨unifyLineEnds _, none⟩ : Decoded) = _
    rw [unifyLineEnds_eq_self hcarriage]
  have houtput : Yields (outputText format) c fun text _ => text = out := by
    intro text d h
    injection hout.symm.trans h with htext
    exact htext.symm
  refine .bind houtput fun text d htext => ?_
  subst htext
  rw [hsame]
  refine .bind_get ?_
  dsimp only
  split
  · refine .bind (yields_holdsAll path text) fun isHeld e hheld => ?_
    cases isHeld with
    | true => exact .pure (hheld rfl)
    | false => exact hwritten e
  · exact hwritten d

end Tool

/-! ### Names and values that are not cut -/

namespace ConfigLine

/-- A line that says that a name is not set starts with it. -/
theorem starts_of_read_unset {mark name : String} {line : List Char} (hmark : Pattern.Plain mark)
    (h : read mark line = .unset name) :
    "# ".toList ++ (mark.toList ++ name.toList) <+: line := by
  have htrim : trimRight line <+: line := dropRightWhile_starts line
  refine List.IsPrefix.trans ?_ htrim
  rw [read_eq_literal hmark] at h
  unfold literal ofParts at h
  dsimp only at h
  split at h
  · cases h
  · next found _ hunset =>
    obtain rfl := ConfigLine.unset.inj h
    simp only [Option.bind_eq_some_iff] at hunset
    obtain ⟨rest, hhash, marked, hmark, hname⟩ := hunset
    obtain ⟨-, -, more, rfl⟩ := eq_append_of_unsetName? hname
    have hfound : (String.ofList found).toList = found := String.toList_ofList
    rw [hfound, eq_append_of_after? hhash, eq_append_of_after? hmark,
      List.prefix_append_right_inj, List.prefix_append_right_inj]
    exact List.prefix_append _ _
  · split at h <;> cases h

end ConfigLine

/-- A symbol whose line is not cut: no character of its name and its value ends a line, and the name
of a bool has no `=` in it. -/
structure Symbol.Uncut (sym : Symbol) (value : String) : Prop where
  name : Unbroken sym.name.toList
  value : Unbroken value.toList
  bool : sym.type = .bool → '=' ∉ sym.name.toList

instance (sym : Symbol) (value : String) : Decidable (sym.Uncut value) :=
  decidable_of_iff (Unbroken sym.name.toList ∧ Unbroken value.toList ∧
      (sym.type = .bool → '=' ∉ sym.name.toList))
    ⟨fun h => ⟨h.1, h.2.1, h.2.2⟩, fun h => ⟨h.name, h.value, h.bool⟩⟩

namespace Tool
open ConfigLine

/-- An assignment says the same. -/
theorem keptLine_marked {rest : List Char} (h : Unbroken rest) :
    KeptLine ("CONFIG_".toList ++ rest) := by
  have hmark : Unbroken "CONFIG_".toList := by decide
  refine ⟨hmark.append h, fun name hread => ?_⟩
  obtain ⟨more, hmore⟩ := starts_of_read_unset plain_config hread
  exact absurd (List.head_eq_of_cons_eq hmore) (by decide)

/-- The line of a symbol says the same. -/
theorem keptLine_assignment {sym : Symbol} {value : String} (h : sym.Uncut value) :
    ∃ line, (Model.assignmentLine {} sym value).toList = line ++ ['\n'] ∧ KeptLine line := by
  have hequal : Unbroken ['='] := by decide
  have hassign : ∀ text : String, Unbroken text.toList →
      ∃ line, ("CONFIG_" ++ sym.name ++ "=" ++ text ++ "\n").toList = line ++ ['\n'] ∧
        KeptLine line := fun text htext =>
    ⟨_, by simp, keptLine_marked (h.name.append (hequal.append htext))⟩
  have hquoted : ∃ line, ("CONFIG_" ++ sym.name ++ "=\"" ++ escaped value ++ "\"\n").toList =
      line ++ ['\n'] ∧ KeptLine line := by
    have hquote : Unbroken ['"'] := by decide
    have hescape : Unbroken (escape value.toList) := fun ch hch =>
      (mem_of_mem_escape hch).elim (h.value ch) fun hslash => hslash ▸ by decide
    have htext : Unbroken ("\"" ++ escaped value ++ "\"").toList := by
      have hparts : ("\"" ++ escaped value ++ "\"").toList =
          ['"'] ++ escape value.toList ++ ['"'] := by simp [escaped]
      rw [hparts]
      exact (hquote.append hescape).append hquote
    obtain ⟨line, hline, hkept⟩ := hassign _ htext
    refine ⟨line, ?_, hkept⟩
    rw [← hline]
    simp
  unfold Model.assignmentLine
  cases htype : sym.type with
  | bool =>
    dsimp only
    split
    · refine ⟨"# CONFIG_".toList ++ (sym.name.toList ++ " is not set".toList), ?_, ?_, ?_⟩
      · show ("# " ++ "CONFIG_" ++ sym.name ++ " is not set\n").toList = _
        simp
      · have hhash : Unbroken "# CONFIG_".toList := by decide
        have hend : Unbroken " is not set".toList := by decide
        exact hhash.append (h.name.append hend)
      · intro name hread hmem
        have hline := (starts_of_read_unset plain_config hread).subset (by simp [hmem] : '=' ∈ _)
        simp only [List.mem_append, h.bool htype, false_or] at hline
        revert hline
        decide
    · exact hassign value h.value
  | int | hex => exact hassign value h.value
  | string | unknown => exact hquoted

/-- The lines of the symbols that have one. -/
theorem exists_minimalLines {ss : List SymbolId} (h : ∀ s ∈ ss,
      (m.symbol s).Uncut (v (.text (.symbol s))).value) :
    ∃ lines, (String.join (ss.map fun s => (m.minimalLine {} s).result v)).toList =
      unlines lines ∧ ∀ l ∈ lines, KeptLine l := by
  induction ss with
  | nil => exact ⟨[], rfl, by simp⟩
  | cons s ss ih =>
    obtain ⟨hs, hss⟩ := List.forall_mem_cons.mp h
    obtain ⟨lines, hrest, hkept⟩ := ih hss
    rw [List.map_cons, String.join_cons, String.toList_append, hrest, Model.minimalLine_result]
    split
    · obtain ⟨line, hline, hl⟩ := keptLine_assignment hs
      refine ⟨line :: lines, ?_, List.forall_mem_cons.mpr ⟨hl, hkept⟩⟩
      rw [hline]
      rfl
    · exact ⟨lines, rfl, hkept⟩

/-- The heading says the same. -/
theorem exists_headingLines : ∃ lines, minimalHeading.toList = unlines lines ∧ lines ≠ [] ∧
    ∀ l ∈ lines, KeptLine l := by
  refine ⟨[
    "# This file was generated with kconfwrite savedefconfig. It can be edited manually.".toList,
    "# Project Minimal Configuration".toList, ['#']], by decide +kernel,
    List.cons_ne_nil _ _, fun l hl => ?_⟩
  have hread : ConfigLine.read "CONFIG_" (l ++ ['\n']) = .ignored ∧ Unbroken l := by
    revert l
    decide +kernel
  exact ⟨hread.2, fun name hname => nomatch hread.1.symm.trans hname⟩

/-- A minimal configuration says the same if no names and values are cut. -/
theorem keptText_minimal (h : ∀ s ∈ m.defined,
      (m.symbol s).Uncut (v (.text (.symbol s))).value) :
    KeptText ((m.minimalText ⟨"CONFIG_", minimalHeading⟩).result v).toList := by
  obtain ⟨heading, hheading, -, hkept⟩ := exists_headingLines
  obtain ⟨lines, hlines, hkept'⟩ := exists_minimalLines h
  have htext : ((m.minimalText ⟨"CONFIG_", minimalHeading⟩).result v).toList =
      unlines (heading ++ lines) := by
    rw [Model.minimalText, Model.joinLines_result, String.toList_append, unlines_append, ← hheading,
      ← hlines]
    rfl
  rw [htext]
  exact keptText_unlines (List.forall_mem_append.mpr ⟨hkept, hkept'⟩)

theorem getLast?_assignmentLine (sym : Symbol) (value : String) :
    (Model.assignmentLine {} sym value).toList.getLast? = some '\n' := by
  have hends : ∀ text last : String, last.toList.getLast? = some '\n' →
      (text ++ last).toList.getLast? = some '\n' := fun text last h => by
    rw [String.toList_append, List.getLast?_append, h, Option.some_or]
  unfold Model.assignmentLine
  cases sym.type with
  | bool =>
    dsimp only
    split
    · exact hends _ " is not set\n" (by decide)
    · exact hends _ "\n" (by decide)
  | int | hex => exact hends _ "\n" (by decide)
  | string | unknown => exact hends _ "\"\n" (by decide)

/-- A minimal configuration ends in a line feed. -/
theorem getLast?_minimal :
    ((m.minimalText ⟨"CONFIG_", minimalHeading⟩).result v).toList.getLast? = some '\n' := by
  have hlines : ∀ (ss : List SymbolId) (text : String), text.toList.getLast? = some '\n' →
      (text ++ String.join (ss.map fun s => (m.minimalLine {} s).result v)).toList.getLast? =
        some '\n' := by
    intro ss
    induction ss with
    | nil => exact fun text h => by simpa using h
    | cons s ss ih =>
      intro text h
      rw [List.map_cons, String.join_cons, ← String.append_assoc]
      refine ih _ ?_
      rw [Model.minimalLine_result]
      split
      · rw [String.toList_append, List.getLast?_append, getLast?_assignmentLine, Option.some_or]
      · rwa [String.append_empty]
  obtain ⟨heading, hheading, hne, -⟩ := exists_headingLines
  rw [Model.minimalText, Model.joinLines_result]
  exact hlines m.defined minimalHeading (hheading ▸ getLast?_unlines hne)

end Tool

/-! ### Loading what was written -/

/-- The same values were given to what is defined, but for how levels were given. -/
structure Configuration.GivenAlike (m : Model) (d d' : Configuration) : Prop where
  value : ∀ s ∈ m.defined,
    (d.user.value s).map UserValue.plain = (d'.user.value s).map UserValue.plain
  selection : ∀ ch ∈ m.definedChoices, d.user.selection ch = d'.user.selection ch

section Loading
variable {host : Host} {options : LoadOptions} {w : Workspace}

/-- A new configuration takes every file that can be read. -/
theorem Load.ends_loadConfig (hload : Load.load host options = .ok c w) {files : Files.Store}
    {path : String} {content : Files.Content} {text : List Char}
    (hfile : files.read path = .ok content) (hdecoded : content.decoded = ⟨text, none⟩)
    (replaces : Bool) :
    Ends (Configuring.loadConfig (some path) replaces) { c with host.files := files }
      fun _ => Configuration.TakesFile w.model w.settings.configPrefix (splitKeep text) replaces
        { c with host.files := files } := by
  have hm := Load.sound_of_load hload
  have hfilled : (c.after [.changeFiles files]).Filled w.model w.settings :=
    (Load.filled_of_load hload).after hm (by simp [Act.Gives])
  have hlines : Configuration.linesOf? { c with host.files := files } path =
      some content.decoded.lines := Configuration.linesOf?_of_read hfile (by rw [hdecoded])
  rw [hdecoded] at hlines
  have hends := (Configuring.failsIf_loadConfig hm hfilled.toReady hlines replaces).ends <| by
    rintro ⟨-, a, -, hhollow⟩
    exact hfilled.filled a.symbol hhollow
  exact hends.yielding (Configuring.yields_loadConfig_named hm hfilled.toReady hlines replaces)

/-- What loading the written minimal configuration gives. Whatever was done before, where a minimal
configuration can be made, the command has an output for it. If its lines end in line feeds only,
and no line says of a name with `=` in it that it is not set, then the file that is written gives a
new configuration the same values and selections as one that holds the minimal configuration. That
is so if no character that ends a line where texts are cut is in a name or a value, and no `=` in
the name of a bool. -/
theorem minimalOutput_gives_alike (hload : Load.load host options = .ok c w)
    (hmark : w.settings.configPrefix = "CONFIG_") (acts : List Act) {text : String}
    (hwrite : Configuring.minimalText (some Tool.minimalHeading) (c.after acts) = .ok text c') :
    (∃ out, Tool.outputText .minimal (c.after acts) = .ok out c') ∧
    (Tool.KeptText text.toList →
      ∀ path d, Tool.writeOutput .minimal path (c.after acts) = .ok () d →
      ∀ files path', files.read path' = .ok (.text text) → ∀ replaces, ∃ message message' e e',
        Configuring.loadConfig (some path) replaces { c with host.files := d.host.files } =
          .ok message e ∧
        Configuring.loadConfig (some path') replaces { c with host.files := files } =
          .ok message' e' ∧ e.GivenAlike w.model e') ∧
    ((∀ s ∈ w.model.defined,
        (w.model.symbol s).Uncut ((c.after acts).reading (.text (.symbol s))).value) →
      Tool.KeptText text.toList) := by
  have hready := ready_after hload acts
  have hmarked : (c.after acts).settings.configPrefix = "CONFIG_" := by
    rw [hready.proper.settings, hmark]
  have hout := Tool.outputText_minimal hwrite
  rw [hmarked] at hout
  have htext : text =
      (w.model.minimalText ⟨"CONFIG_", Tool.minimalHeading⟩).result (c.after acts).reading := by
    have hfollow : Configuring.follow ((c.after acts).model.minimalText
        ⟨(c.after acts).settings.configPrefix, Tool.minimalHeading⟩) (c.after acts) =
          .ok text c' := hwrite
    rw [hmarked, hready.proper.model] at hfollow
    exact (Configuration.Asked.refl _).result hfollow
  refine ⟨⟨_, hout⟩, fun hkept path d hwritten files path' hfile replaces => ?_, fun huncut => ?_⟩
  · obtain ⟨lines, hlines, hne, hkept⟩ := hkept.exists_lines (htext ▸ Tool.getLast?_minimal)
    have hrewritten := Tool.rewritten_eq hlines hne hkept
    have hreadable : ∀ l ∈ lines.map Tool.readable, Unbroken l :=
      List.forall_mem_map.mpr fun l hl => (hkept l hl).readable
    obtain ⟨content, hread, hdecoded⟩ := Tool.yields_writeOutput hout
      (by rw [hrewritten]; exact carriage_unlines hreadable) _ d hwritten
    rw [hrewritten] at hdecoded
    have hdecoded' : (Files.Content.text text).decoded = ⟨unlines lines, none⟩ := by
      show (⟨unifyLineEnds text.toList, none⟩ : Decoded) = _
      rw [hlines, unifyLineEnds_eq_self (carriage_unlines fun l hl => (hkept l hl).unbroken)]
    obtain ⟨message, e, hloads, htakes⟩ := Load.ends_loadConfig hload hread hdecoded replaces
    obtain ⟨message', e', hloads', htakes'⟩ := Load.ends_loadConfig hload hfile hdecoded' replaces
    rw [hmark] at htakes htakes'
    obtain ⟨hvalue, hselection⟩ := htakes.same htakes' (Tool.accepted?_lines hkept) (.inr rfl)
    exact ⟨message, message', e, e', hloads, hloads', hvalue, hselection⟩
  · rw [htext]
    exact Tool.keptText_minimal huncut

end Loading

/-- A level and a text. -/
def levelAndText : Host where
  files.entries := [(["work", "Kconfig"], .file (.text
    "config A\n\tbool \"a\"\n\tdefault y\nconfig T\n\tstring \"t\"\n"))]

/-- The level is not set, and the text says that. -/
def sayUnset : List Act := [.setSymbol 2 (.number 0), .setSymbol 3 (.text "# CONFIG_A is not set")]

/-- The minimal configuration then. -/
def unsetTwice : String :=
  Tool.minimalHeading ++ "# CONFIG_A is not set\nCONFIG_T=\"# CONFIG_A is not set\"\n"

theorem levelAndText_given_alike : ∃ c w c' d message message' e e',
    Load.load levelAndText {} = .ok c w ∧ w.settings.configPrefix = "CONFIG_" ∧
    let later := c.after sayUnset
    let files : Files.Store := { entries := [(["work", "minimal"], .file (.text unsetTwice))] }
    (∀ s ∈ w.model.defined,
      (w.model.symbol s).Uncut (later.reading (.text (.symbol s))).value) ∧
    Configuring.minimalText (some Tool.minimalHeading) later = .ok unsetTwice c' ∧
    Tool.outputText .minimal later = .ok
      (Tool.minimalHeading ++ "CONFIG_A=n\nCONFIG_T=\"# CONFIG_A is not set\"\n") c' ∧
    Tool.writeOutput .minimal "out" later = .ok () d ∧
    Configuring.loadConfig (some "out") true { c with host.files := d.host.files } =
      .ok message e ∧
    Configuring.loadConfig (some "minimal") true { c with host.files := files } =
      .ok message' e' ∧ e.GivenAlike w.model e' := by
  have hchecked : passes (fun c w =>
      let later := c.after sayUnset
      decide (w.settings.configPrefix = "CONFIG_") &&
      (w.model.defined.all fun s => passes (fun a _ => decide ((w.model.symbol s).Uncut a.value))
        (Configuring.ask (.text (.symbol s)) later)) &&
      passes (fun text _ => text == unsetTwice)
        (Configuring.minimalText (some Tool.minimalHeading) later) &&
      passes (fun text _ => text ==
          Tool.minimalHeading ++ "CONFIG_A=n\nCONFIG_T=\"# CONFIG_A is not set\"\n")
        (Tool.outputText .minimal later) &&
      succeeds (Tool.writeOutput .minimal "out" later)) (Load.load levelAndText {}) = true := by
    decide +kernel
  obtain ⟨c, w, hload, hchecked⟩ := ok_of_passes hchecked
  simp only [Bool.and_eq_true, List.all_eq_true] at hchecked
  obtain ⟨⟨⟨⟨hmark, hvalues⟩, htext⟩, hout⟩, hwritten⟩ := hchecked
  replace hmark := of_decide_eq_true hmark
  obtain ⟨text, c', hwrite, htext⟩ := ok_of_passes htext
  obtain rfl := eq_of_beq htext
  obtain ⟨out, c'', hsame, hout⟩ := ok_of_passes hout
  obtain rfl := eq_of_beq hout
  obtain ⟨⟨⟩, d, hwritten⟩ := ok_of_succeeds hwritten
  have huncut : ∀ s ∈ w.model.defined,
      (w.model.symbol s).Uncut ((c.after sayUnset).reading (.text (.symbol s))).value := by
    intro s hs
    obtain ⟨a, c₁, hask, huncut⟩ := ok_of_passes (hvalues s hs)
    rw [Configuration.reading_eq ((Configuration.Asked.refl _).ask hask).2]
    exact of_decide_eq_true huncut
  obtain ⟨⟨out, hout⟩, halike, hkept⟩ := minimalOutput_gives_alike hload hmark sayUnset hwrite
  obtain ⟨message, message', e, e', hloads, hloads', hgiven⟩ :=
    halike (hkept huncut) "out" d hwritten
      { entries := [(["work", "minimal"], .file (.text unsetTwice))] } "minimal" rfl true
  injection hout.symm.trans hsame with hliteral hstate
  subst hliteral hstate
  exact ⟨c, w, c', d, message, message', e, e', hload, hmark, huncut, hwrite, hout, hwritten,
    hloads, hloads', hgiven⟩

end Kconfig
