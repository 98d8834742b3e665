import Kconfig.Config.Contents
import Kconfig.Config.Line
import Kconfig.Proofs.Text.Lines
import Kconfig.Proofs.Text.Pattern
/-!
Lines of configurations read as they were written.

A line that assigns a value says the name and the value again when it is read. For that the name
must be a word, and a number must not end in blanks, because blanks at the end of a line do not
count. A line that starts with `#` says nothing, unless the mark of names follows.
-/
namespace Kconfig
open Text

/-- What names are made of: letters, digits and underscores. -/
def IsWord (name : String) : Prop :=
  name ≠ "" ∧ ∀ c ∈ name.toList, c.isAlphanum = true ∨ c = '_'

instance (name : String) : Decidable (IsWord name) :=
  decidable_of_iff (name ≠ "" ∧ (name.toList.all fun c => c.isAlphanum || c == '_') = true) <| by
    simp [IsWord]

namespace IsWord
variable {name : String}

theorem not_mem (h : IsWord name) {c : Char} (hc : c.isAlphanum = false) (hc' : c ≠ '_') :
    c ∉ name.toList := by
  intro hmem
  rcases h.2 c hmem with hword | hword
  · rw [hc] at hword
    exact nomatch hword
  · exact hc' hword

theorem oneLine (h : IsWord name) : OneLine name.toList :=
  ⟨h.not_mem rfl (by decide), h.not_mem rfl (by decide)⟩

end IsWord

namespace ConfigLine

theorem isEmpty_toList {name : String} (h : name ≠ "") : name.toList.isEmpty = false := by
  refine Bool.eq_false_iff.mpr fun hempty => h ?_
  exact String.toList_inj.mp (List.isEmpty_iff.mp hempty)

/-- What a line says by a mark that is taken as it is spelled. -/
def literal (mark s : List Char) : ConfigLine :=
  let s := trimRight s
  ofParts s ((after? mark s).bind named?)
    ((after? "# ".toList s).bind fun s => (after? mark s).bind unsetName?)

theorem run_literal {α : Type} (mark : List Char) (rest : List Char → Option α)
    (here : Pattern.Point) : (Pattern.literal mark).run (fun p => rest p.left) here =
      (after? mark here.left).bind rest := by
  rw [Pattern.run_literal, after?]
  split <;> rfl

theorem assignment?_literal (mark s : List Char) :
    assignment? (Pattern.literal mark) s = (after? mark s).bind named? := run_literal _ _ _

theorem unset?_literal (mark s : List Char) : unset? (Pattern.literal mark) s =
    (after? "# ".toList s).bind fun s => (after? mark s).bind unsetName? :=
  Option.bind_congr fun _ _ => run_literal _ _ _

/-- A mark whose characters mean themselves is taken as it is spelled. -/
theorem read_eq_literal {mark : String} (h : Pattern.Plain mark) (s : List Char) :
    read mark s = literal mark.toList s := by
  rw [read, Pattern.ofText?_of_plain h]
  simp only [assignment?_literal, unset?_literal, literal]

theorem after?_append (start s : List Char) : after? start (start ++ s) = some s := by
  rw [after?, if_pos (List.isPrefixOf_iff_prefix.mpr (List.prefix_append _ _)), List.drop_left]

theorem plain_config : Pattern.Plain "CONFIG_" := by decide

/-- A line that assigns a value to a name without `=` says so, but for blanks at the end. -/
theorem read_assign_named {mark name : String} (hmark : Pattern.Plain mark) (hne : name ≠ "")
    (hequal : '=' ∉ name.toList) (value : List Char) :
    read mark (mark.toList ++ name.toList ++ '=' :: value ++ ['\n']) =
      .assign name (String.ofList (trimRight value)) := by
  have htrim : trimRight (mark.toList ++ name.toList ++ '=' :: value ++ ['\n']) =
      mark.toList ++ (name.toList ++ '=' :: trimRight value) := by
    rw [trimRight_line, trimRight, dropRightWhile_append rfl]
    exact List.append_assoc ..
  obtain ⟨htake, hdrop⟩ := takeWhile_until (p := (· != '=')) (t := '=' :: trimRight value)
    (fun c hc => bne_iff_ne.mpr fun heq => hequal (heq ▸ hc)) (by rintro _ ⟨⟩; rfl)
  have hassigns : named? (name.toList ++ '=' :: trimRight value) =
      some (name.toList, trimRight value) := by
    unfold named?
    simp only [htake, hdrop, isEmpty_toList hne]
    rfl
  rw [read_eq_literal hmark, literal, htrim, after?_append, Option.bind_some, hassigns]
  simp [ofParts]

/-- A line that assigns a value says so, but for blanks at the end of the value. -/
theorem read_assign_trimmed {mark name : String} (hmark : Pattern.Plain mark)
    (hname : IsWord name) (value : List Char) :
    read mark (mark.toList ++ name.toList ++ '=' :: value ++ ['\n']) =
      .assign name (String.ofList (trimRight value)) :=
  read_assign_named hmark hname.1 (hname.not_mem rfl (by decide)) value

/-- A line that assigns a value without blanks at its end says so. -/
theorem read_assign {mark name value : String} (hmark : Pattern.Plain mark)
    (hname : IsWord name) (hvalue : trimRight value.toList = value.toList) :
    read mark (mark.toList ++ name.toList ++ '=' :: value.toList ++ ['\n']) =
      .assign name value := by
  rw [read_assign_trimmed hmark hname, hvalue, String.ofList_toList]

theorem trimRight_hash (s : List Char) :
    ∃ rest, trimRight ('#' :: s ++ ['\n']) = '#' :: rest ∧ rest <+: s := by
  refine ⟨trimRight s, ?_, dropRightWhile_starts s⟩
  rw [trimRight_line]
  exact dropRightWhile_append (s := []) rfl s

/-- A line that says that a name without blanks is not set, whatever follows. -/
theorem read_unset_named {name : String} (hne : name ≠ "") (hblank : ' ' ∉ name.toList)
    (rest : List Char) : read "CONFIG_" ("# ".toList ++ ("CONFIG_".toList ++ (name.toList ++
      (" is not set".toList ++ rest))) ++ ['\n']) = .unset name := by
  have hend : " is not set".toList = " is not se".toList ++ ['t'] := by decide
  have htrim : trimRight ("# ".toList ++ ("CONFIG_".toList ++ (name.toList ++
      (" is not set".toList ++ rest))) ++ ['\n']) = "# ".toList ++ ("CONFIG_".toList ++
        (name.toList ++ (" is not set".toList ++ trimRight rest))) := by
    rw [trimRight_line, trimRight, hend]
    simp only [← List.append_assoc]
    rw [List.append_assoc, List.append_assoc _ ['t'], List.singleton_append, List.singleton_append,
      dropRightWhile_append rfl]
    rfl
  have hstart : ∀ t, " is not set".toList ++ t = ' ' :: ("is not set".toList ++ t) := fun _ => rfl
  obtain ⟨htake, hdrop⟩ := takeWhile_until (p := (· != ' '))
    (t := ' ' :: ("is not set".toList ++ trimRight rest))
    (fun c hc => bne_iff_ne.mpr fun heq => hblank (heq ▸ hc)) (by rintro _ ⟨⟩; rfl)
  rw [← hstart] at htake hdrop
  have hunset : unsetName? (name.toList ++ (" is not set".toList ++ trimRight rest)) =
      some name.toList := by
    unfold unsetName?
    simp only [Option.bind_eq_bind, Option.bind_some, after?_append, htake, hdrop,
      isEmpty_toList hne]
    rfl
  have hassigns : ∀ s, after? "CONFIG_".toList ("# ".toList ++ s) = none := fun _ => rfl
  rw [read_eq_literal plain_config, literal, htrim, hassigns, after?_append, Option.bind_some,
    after?_append, Option.bind_some, hunset]
  simp [ofParts]

/-- A line that says that a name is not set. -/
theorem read_unset {name : String} (hname : IsWord name) :
    read "CONFIG_" ("# ".toList ++ ("CONFIG_".toList ++ (name.toList ++ " is not set".toList)) ++
      ['\n']) = .unset name := by
  have hread := read_unset_named hname.1 (hname.not_mem rfl (by decide)) []
  rwa [List.append_nil] at hread

theorem eq_append_of_after? {start s t : List Char} (h : after? start s = some t) :
    s = start ++ t := by
  unfold after? at h
  split at h
  · next hstart =>
    obtain ⟨u, rfl⟩ := List.isPrefixOf_iff_prefix.mp hstart
    rw [List.drop_left] at h
    rw [Option.some.inj h]
  · exact nomatch h

/-- The name that is said not to be set has no blank, and the rest of the words follow it. -/
theorem eq_append_of_unsetName? {s name : List Char} (h : unsetName? s = some name) :
    name ≠ [] ∧ ' ' ∉ name ∧ ∃ rest, s = name ++ (" is not set".toList ++ rest) := by
  simp only [unsetName?, Option.bind_eq_bind, Option.bind_eq_some_iff] at h
  obtain ⟨rest, hset, hname⟩ := h
  split at hname
  · exact nomatch hname
  · next hne =>
    obtain rfl := Option.some.inj hname
    refine ⟨fun hempty => hne (List.isEmpty_iff.mpr hempty), fun hmem => ?_, rest, ?_⟩
    · exact absurd (List.all_eq_true.mp List.all_takeWhile _ hmem) (by decide)
    · rw [← eq_append_of_after? hset, List.takeWhile_append_dropWhile]

/-- A remark says nothing, unless it starts with the mark of names. -/
theorem read_remark {s : List Char} (h : ¬ ' ' :: "CONFIG_".toList <+: s) :
    read "CONFIG_" ('#' :: s ++ ['\n']) = .ignored := by
  obtain ⟨rest, htrim, hstarts⟩ := trimRight_hash s
  have hassigns : after? "CONFIG_".toList ('#' :: rest) = none := rfl
  have hunset : ((after? "# ".toList ('#' :: rest)).bind fun s =>
      (after? "CONFIG_".toList s).bind unsetName?) = none := by
    cases hhash : after? "# ".toList ('#' :: rest) with
    | none => rfl
    | some t =>
      cases hmark : after? "CONFIG_".toList t with
      | none => rw [Option.bind_some, hmark, Option.bind_none]
      | some t' =>
        have hrest : rest = ' ' :: t := List.tail_eq_of_cons_eq (eq_append_of_after? hhash)
        rw [eq_append_of_after? hmark] at hrest
        refine absurd (List.IsPrefix.trans ?_ hstarts) h
        rw [hrest]
        exact List.prefix_append (' ' :: "CONFIG_".toList) t'
  rw [read_eq_literal plain_config, literal, htrim, hassigns, hunset]
  rfl

theorem read_empty : read "CONFIG_" ['\n'] = .ignored := rfl

end ConfigLine

/-! ### Assignments -/

namespace Text

theorem mem_escape {c : Char} : ∀ {s : List Char}, c ∈ s → c ∈ escape s
  | d :: s, h => by
    rw [escape]
    rcases List.mem_cons.mp h with rfl | h
    · split <;> simp
    · have hrest := mem_escape h
      split <;> simp [hrest]

theorem mem_of_mem_escape {c : Char} : ∀ {s : List Char}, c ∈ escape s → c ∈ s ∨ c = '\\'
  | [], h => absurd h List.not_mem_nil
  | d :: s, h => by
    rw [escape] at h
    split at h
    · rcases List.mem_cons.mp h with hslash | h
      · exact .inr hslash
      · rcases List.mem_cons.mp h with rfl | h
        · exact .inl (List.mem_cons_self ..)
        · exact (mem_of_mem_escape h).imp_left (List.mem_cons_of_mem _)
    · rcases List.mem_cons.mp h with rfl | h
      · exact .inl (List.mem_cons_self ..)
      · exact (mem_of_mem_escape h).imp_left (List.mem_cons_of_mem _)

theorem OneLine.escape {s : List Char} (h : OneLine s) : OneLine (escape s) :=
  ⟨fun hmem => (mem_of_mem_escape hmem).elim h.feed (by decide),
    fun hmem => (mem_of_mem_escape hmem).elim h.carriage (by decide)⟩

end Text

/-- A value that fits into a line: it has no line end in it, and as a number no blanks at its
end. -/
structure Symbol.FitsLine (sym : Symbol) (value : String) : Prop where
  oneLine : OneLine value.toList
  number : sym.type.isNumber = true → trimRight value.toList = value.toList

instance (sym : Symbol) (value : String) : Decidable (sym.FitsLine value) :=
  decidable_of_iff (OneLine value.toList ∧
    (sym.type.isNumber = true → trimRight value.toList = value.toList))
    ⟨fun h => ⟨h.1, h.2⟩, fun h => ⟨h.oneLine, h.number⟩⟩

/-- What the line that is written for a symbol says. -/
def Symbol.assignment (sym : Symbol) (value : String) : ConfigLine :=
  match sym.type with
  | .bool => if value = "n" then .unset sym.name else .assign sym.name value
  | .int | .hex => .assign sym.name value
  | .string | .unknown => .assign sym.name ("\"" ++ escaped value ++ "\"")

/-- It says that a bool is not set, or assigns a text. -/
theorem Symbol.assignment_cases (sym : Symbol) (value : String) :
    (sym.assignment value = .unset sym.name ∧ sym.type = .bool ∧ value = "n") ∨
      ∃ text, sym.assignment value = .assign sym.name text := by
  unfold assignment
  split
  · next htype =>
    split
    · next hn => exact .inl ⟨rfl, htype, hn⟩
    · exact .inr ⟨_, rfl⟩
  all_goals exact .inr ⟨_, rfl⟩

/-- The line that is written for a symbol says its name and value. -/
theorem read_assignmentLine {sym : Symbol} {value : String} (hname : IsWord sym.name)
    (hvalue : sym.FitsLine value) (hlevel : sym.type = .bool → value = "n" ∨ value = "y") :
    ∃ line, (Model.assignmentLine {} sym value).toList = line ++ ['\n'] ∧
      OneLine line ∧ ConfigLine.read "CONFIG_" (line ++ ['\n']) = sym.assignment value := by
  have hmark : OneLine "CONFIG_".toList := ⟨by decide, by decide⟩
  have hassign : ∀ text : String, OneLine text.toList → trimRight text.toList = text.toList →
      ∃ line, ("CONFIG_" ++ sym.name ++ "=" ++ text ++ "\n").toList = line ++ ['\n'] ∧
        OneLine line ∧ ConfigLine.read "CONFIG_" (line ++ ['\n']) = .assign sym.name text := by
    intro text hline htrim
    refine ⟨"CONFIG_".toList ++ sym.name.toList ++ '=' :: text.toList, ?_, ?_,
      ConfigLine.read_assign ConfigLine.plain_config hname htrim⟩
    · simp
    · have hequal : OneLine ['='] := ⟨by decide, by decide⟩
      exact (hmark.append hname.oneLine).append (hequal.append hline)
  have hquoted : ∃ line, ("CONFIG_" ++ sym.name ++ "=\"" ++ escaped value ++ "\"\n").toList =
      line ++ ['\n'] ∧ OneLine line ∧ ConfigLine.read "CONFIG_" (line ++ ['\n']) =
        .assign sym.name ("\"" ++ escaped value ++ "\"") := by
    have hquote : OneLine ['"'] := ⟨by decide, by decide⟩
    have htext : ("\"" ++ escaped value ++ "\"").toList = ['"'] ++ escape value.toList ++ ['"'] := by
      simp [escaped]
    have hone : OneLine ("\"" ++ escaped value ++ "\"").toList := by
      rw [htext]
      exact (hquote.append hvalue.oneLine.escape).append hquote
    have htrim : trimRight ("\"" ++ escaped value ++ "\"").toList =
        ("\"" ++ escaped value ++ "\"").toList := by
      rw [htext]
      exact dropRightWhile_concat_self rfl _
    obtain ⟨line, hline, hread⟩ := hassign _ hone htrim
    refine ⟨line, ?_, hread⟩
    rw [← hline]
    simp
  unfold Model.assignmentLine Symbol.assignment
  cases htype : sym.type with
  | bool =>
    dsimp only
    split
    · refine ⟨"# ".toList ++ ("CONFIG_".toList ++ (sym.name.toList ++ " is not set".toList)),
        ?_, ?_, ConfigLine.read_unset hname⟩
      · show ("# " ++ "CONFIG_" ++ sym.name ++ " is not set\n").toList = _
        simp
      · have hhash : OneLine "# ".toList := ⟨by decide, by decide⟩
        have hend : OneLine " is not set".toList := ⟨by decide, by decide⟩
        exact hhash.append (hmark.append (hname.oneLine.append hend))
    · next hn =>
      obtain rfl := (hlevel htype).resolve_left hn
      exact hassign "y" ⟨by decide, by decide⟩ (by decide)
  | int => exact hassign value hvalue.oneLine (hvalue.number (by rw [htype]; rfl))
  | hex => exact hassign value hvalue.oneLine (hvalue.number (by rw [htype]; rfl))
  | string => exact hquoted
  | unknown => exact hquoted

end Kconfig
