import Kconfig.Proofs.Config.Repeated
import Kconfig.Proofs.Config.RoundTrip
/-!
Saved values that are loaded over other ones.

A file that replaces the configuration leaves nothing of what was there before. So it gives the
values that it gives to a new configuration, except that a level that was given as a truth value may
stay one, which no rule tells from a word. Hence what was saved gives the answers from before
wherever it is loaded.
-/
namespace Kconfig
open Plan Text

/-! ### How levels were given -/

/-- The user's values without how levels were given. -/
def UserValues.plain (u : UserValues) : UserValues :=
  { u with values := u.values.map (Option.map UserValue.plain) }

theorem UserValues.value_plain (u : UserValues) (s : SymbolId) :
    u.plain.value s = (u.value s).map UserValue.plain := by
  simp only [value, plain, Array.getElem?_map]
  cases u.values[s]? <;> rfl

theorem UserValue.asText_plain (a : UserValue) : a.plain.asText = a.asText := by
  cases a <;> rfl

theorem UserValue.isYes_plain (a : UserValue) : a.plain.isYes = a.isYes := by
  cases a <;> rfl

namespace Model
variable {m : Model} {u : UserValues} {v v' : Valuation}

/-- No rule tells how a level was given. -/
theorem rule_plain (u : UserValues) (q : Query) : m.rule u.plain q = m.rule u q := by
  have hnumber : ∀ s, m.numberText u.plain s = m.numberText u s := fun s => by
    unfold numberText
    rw [u.value_plain]
    cases u.value s with
    | none => rfl
    | some a => simp only [Option.map_some, UserValue.asText_plain]
  have hstring : ∀ s, m.stringText u.plain s = m.stringText u s := fun s => by
    unfold stringText
    rw [u.value_plain]
    refine congrArg (visible (.symbol s) >>= ·) (funext fun isVisible => ?_)
    rcases u.value s with _ | a
    · rfl
    · cases isVisible <;> cases a <;> rfl
  have hfree : ∀ s isVisible, m.freeLevel u.plain s isVisible = m.freeLevel u s isVisible := by
    intro s isVisible
    have hown : m.ownLevel u.plain s isVisible = m.ownLevel u s isVisible := by
      unfold ownLevel
      rw [u.value_plain]
      rcases u.value s with _ | a
      · rfl
      · cases isVisible <;> cases a <;> rfl
    rw [freeLevel, freeLevel, hown]
  rcases q with (s | c) | (s | c) | i | i | c
  · simp only [rule, textRule, hnumber, hstring]
  · rfl
  · simp only [rule, levelRule, hfree]
  · rfl
  · rfl
  · rfl
  · rfl

theorem recomputeAt_plain : ∀ (depth : Nat) (q : Query),
    recomputeAt m u.plain depth q = recomputeAt m u depth q
  | 0, _ => rfl
  | depth + 1, q => by
    rw [recomputeAt, recomputeAt, rule_plain]
    exact congrArg (fun ask => (m.rule u q).run ask _) (funext fun q => recomputeAt_plain depth q)

theorem Solves.plain (hv : m.Solves u v) : m.Solves u.plain v := by
  intro q
  obtain ⟨depth, h⟩ := hv q
  exact ⟨depth, (recomputeAt_plain depth q).trans h⟩

end Model

/-- What a line gives back is plain. -/
theorem Symbol.givenBack?_plain (sym : Symbol) (a : Written String) :
    (sym.givenBack? a).map UserValue.plain = sym.givenBack? a := by
  unfold givenBack?
  split
  · cases hgiven : sym.type.accept? (Configuring.ofText sym.type a.value) with
    | none => exact congrArg (Option.map UserValue.plain) hgiven |>.trans hgiven.symm
    | some given =>
      refine (congrArg (Option.map UserValue.plain) hgiven).trans (Eq.trans ?_ hgiven.symm)
      exact congrArg some (Configuring.plain_of_accept? hgiven)
  · rfl

theorem levelWord_injective {l l' : Bool} (h : levelWord l = levelWord l') : l = l' := by
  revert h
  cases l <;> cases l' <;> decide

/-! ### Values that came back -/

/-- The value of a number is written, but is none that the number accepts. -/
structure Model.Refuses (m : Model) (v : Valuation) (s : SymbolId) : Prop where
  written : (v (.text (.symbol s))).isWritten = true
  number : (m.symbol s).type.isNumber = true
  refused : (m.symbol s).type.accept? (.text (v (.text (.symbol s))).value) = none

/-- All that is defined has the value that was saved for it. -/
structure UserValues.Restored (m : Model) (v : Valuation) (u : UserValues) : Prop where
  value : ∀ s ∈ m.defined,
    (u.value s).map UserValue.plain = (m.symbol s).givenBack? (v (.text (.symbol s)))
  selection : ∀ ch ∈ m.definedChoices, ∀ s, u.selection ch = some s ↔ m.Selects v ch s

namespace UserValues.Restored
variable {m : Model} {u u' : UserValues} {v v' : Valuation}

/-- With such values every answer is as it was. -/
theorem eq (h : Restored m v u') (hm : m.Sound) (hwritable : m.Writable) (hv : m.Solves u v)
    (hu : m.Permits u) (hv' : m.Solves u' v') (hu' : m.Permits u') : v' = v := by
  refine hv.eq_of_given_back hv'.plain hu (fun s hvisible => ?_) (fun ch s => ?_)
    (hv.hidden_of_unwritten hwritable)
  · have hs : s ∈ m.defined := by
      refine (hm.defined s).mpr fun hnil => ?_
      have hhidden : v (.visible (.symbol s)) = false :=
        hv.hidden_of_promptless (by rw [hnil]; rfl)
      exact nomatch hvisible.symm.trans hhidden
    rw [u'.value_plain]
    exact h.value s hs
  · change u'.selection ch = some s ↔ m.Selects v ch s
    by_cases hch : ch ∈ m.definedChoices
    · exact h.selection ch hch s
    · -- nothing belongs to a choice that is not defined
      refine iff_of_false (fun hs => ?_) fun hs => ?_
      · exact hch (hm.member s ch (hu'.selection ch s hs).1).2
      · exact hch (hm.member s ch hs.2.1).2

/-- A symbol has its value from the user, unless it was not written or the value was refused. -/
theorem value_cases (h : Restored m v u') (hv : m.Solves u v) {s : SymbolId} (hs : s ∈ m.defined) :
    (u'.value s = none ∧ ((v (.text (.symbol s))).isWritten = true ↔ m.Refuses v s)) ∨
    ∃ a, u'.value s = some a ∧ ¬ m.Refuses v s ∧
      if (m.symbol s).type = .bool then (v (.level (.symbol s))).value = a.isYes
      else (v (.text (.symbol s))).value = a.asText := by
  have hvalue := h.value s hs
  cases hwritten : (v (.text (.symbol s))).isWritten with
  | false =>
    rw [Symbol.givenBack?, hwritten, if_neg Bool.false_ne_true, Option.map_eq_none_iff] at hvalue
    exact .inl ⟨hvalue, iff_of_false Bool.false_ne_true fun h =>
      Bool.false_ne_true (hwritten.symm.trans h.written)⟩
  | true =>
    cases hgiven : u'.value s with
    | none =>
      rw [hgiven] at hvalue
      refine .inl ⟨rfl, iff_of_true rfl ?_⟩
      by_cases hbool : (m.symbol s).type = .bool
      · rw [Model.givenBack?_bool hbool _ hwritten (congrArg Written.value (hv.text_of_bool hbool))]
          at hvalue
        cases hvalue
      · rw [Symbol.givenBack?, hwritten, if_pos rfl, if_neg hbool] at hvalue
        refine ⟨hwritten, ?_, hvalue.symm⟩
        cases htype : (m.symbol s).type with
        | bool => exact absurd htype hbool
        | unknown =>
          have hboth := hwritten.symm.trans (hv.unwritten_of_unknown htype)
          exact absurd hboth Bool.false_ne_true.symm
        | string =>
          rw [htype] at hvalue
          cases hvalue
        | int | hex => rfl
    | some a =>
      rw [hgiven, Symbol.givenBack?, hwritten, if_pos rfl] at hvalue
      have haccepted : (m.symbol s).type.accept? (Configuring.ofText (m.symbol s).type
          (v (.text (.symbol s))).value) = some a.plain := hvalue.symm
      refine .inr ⟨a, rfl, fun hrefuses => ?_, ?_⟩
      · have hbool : (m.symbol s).type ≠ .bool := fun h => by
          cases h ▸ hrefuses.number
        rw [Configuring.ofText, if_neg hbool, hrefuses.refused] at haccepted
        cases haccepted
      · rcases Configuring.accept?_ofText haccepted with ⟨hbool, l, htext, hplain⟩ | ⟨hbool, hplain⟩
        · rw [if_pos hbool, ← a.isYes_plain, hplain]
          rw [hv.text_of_bool hbool] at htext
          exact levelWord_injective htext
        · rw [if_neg hbool, ← a.asText_plain, hplain]
          rfl

end UserValues.Restored

/-- Files whose lines assign the same give the same values, whatever was there before if they replace
the configuration, and else where the user's values were the same. -/
theorem Configuration.TakesFile.same {m : Model} {mark : String} {lines lines' : List (List Char)}
    {replaces : Bool} {c c' d d' : Configuration} (h : TakesFile m mark lines replaces c c')
    (h' : TakesFile m mark lines' replaces d d')
    (hlines : lines.filterMap (m.accepted? mark) = lines'.filterMap (m.accepted? mark))
    (huser : replaces = true ∨ c.user = d.user) :
    (∀ s ∈ m.defined, (c'.user.value s).map UserValue.plain =
      (d'.user.value s).map UserValue.plain) ∧
    ∀ ch ∈ m.definedChoices, c'.user.selection ch = d'.user.selection ch := by
  refine ⟨fun s hs => ?_, fun ch hch => ?_⟩
  · cases hlast : lastValue? s (lines.filterMap (m.accepted? mark)) with
    | some a => rw [h.value s hs a hlast, h'.value s hs a (hlines ▸ hlast)]
    | none =>
      rw [h.unassigned s hs hlast, h'.unassigned s hs (hlines ▸ hlast)]
      rcases huser with rfl | heq
      · rw [if_pos rfl, if_pos rfl]
      · rw [heq]
  · rw [h.selection ch hch, h'.selection ch hch, hlines]
    rcases huser with rfl | heq
    · rw [if_pos rfl, if_pos rfl]
    · rw [heq]

/-- A line that tells the value of a symbol assigns to no other name. -/
theorem PageLine.Tells.undefined?_eq {m : Model} {v : Valuation} {line : PageLine}
    (h : line.Tells m v) (hl : m.Listed) (hm : m.Sound) (hs : ∀ s ∈ line.symbol, s ∈ m.defined) :
    m.undefined? "CONFIG_" (line.chars ++ ['\n']) = none := by
  unfold Model.undefined?
  rw [h.read]
  cases hsymbol : line.symbol with
  | none => rfl
  | some s =>
    have hdefined := Configuring.definedSymbol?_eq hl hm (hs s hsymbol)
    have hsome : ¬ Configuring.definedSymbol? m (m.symbol s).name = none := by
      rw [hdefined]
      exact nofun
    rcases (m.symbol s).assignment_cases (v (.text (.symbol s))).value with
      ⟨hline, -⟩ | ⟨text, hline⟩
    · dsimp only
      rw [hline]
      exact if_neg hsome
    · dsimp only
      rw [hline]
      exact if_neg hsome

theorem Configuration.linesOf?_of_read {c : Configuration} {path : String}
    {content : Files.Content} (hfile : c.host.files.read path = .ok content)
    (hfault : content.decoded.fault = none) : c.linesOf? path = some content.decoded.lines := by
  have hopened : c.opened? path = some content := by rw [opened?, hfile]
  rw [linesOf?, hopened]
  exact if_pos hfault

/-- What was written comes back wherever its lines are loaded, and all of them are about symbols
that are defined. -/
theorem restored_of_takesFile {host : Host} {options : LoadOptions} {c₀ : Configuration}
    {w : Workspace} (hload : Load.load host options = .ok c₀ w)
    (hmark : w.settings.configPrefix = "CONFIG_") {u : UserValues} {v : Valuation}
    (h : w.model.Savable u v) {header : String} (hheader : IsRemarks header)
    {files : Files.Store} {path : String} {content : Files.Content}
    (hfile : files.read path = .ok content) (hdecoded : content.decoded =
      ⟨((w.model.configText ⟨"CONFIG_", header⟩).result v).toList, none⟩) {c c' : Configuration}
    (htakes : c.TakesFile w.model "CONFIG_" content.decoded.lines true c') :
    c'.user.Restored w.model v ∧ c'.missing = [] := by
  have hl := Load.listed_of_load hload
  have hm := h.sound
  obtain ⟨lines, htext, htell, hsymbols⟩ := Model.configText_lines h hheader
  rw [htext] at hdecoded
  have hwritten : ∀ s, s ∈ lines.filterMap (·.symbol) ↔
      s ∈ w.model.defined ∧ (v (.text (.symbol s))).isWritten = true := fun s => by
    rw [hsymbols]
    exact hl.mem_written hm
  -- a new configuration that loads the file has all that was saved
  obtain ⟨message, c₁, hloads, -, -, hloaded⟩ := loadConfig_lines hload hmark h.solves hfile
    hdecoded htell (fun s hs => (hwritten s).mp hs) (hsymbols ▸ hl.nodup_written)
  have hsaved := hloaded.saved hm h.solves fun s => List.mem_reverse.trans (hwritten s)
  have hlines : ({ c₀ with host.files := files } : Configuration).linesOf? path =
      some content.decoded.lines := Configuration.linesOf?_of_read hfile (by rw [hdecoded])
  have htakes₁ := Configuring.yields_loadConfig_named hm
    (ready_after hload [.changeFiles files]) hlines true message c₁ hloads
  rw [hmark] at htakes₁
  obtain ⟨hvalue, hselection⟩ := htakes.same htakes₁ rfl (.inl rfl)
  refine ⟨⟨fun s hs => ?_, fun ch hch s => ?_⟩, ?_⟩
  · rw [hvalue s hs, hsaved.value s, Symbol.givenBack?_plain]
  · rw [hselection ch hch]
    exact hsaved.selection ch s
  · rw [htakes.missing, if_pos rfl, List.nil_append, hdecoded,
      lines_textOf fun l hl => (htell l hl).oneLine, List.filterMap_map]
    refine List.filterMap_eq_nil_iff.mpr fun l hline => ?_
    refine (htell l hline).undefined?_eq hl hm fun s hs => ?_
    exact ((hwritten s).mp (List.mem_filterMap.mpr ⟨l, hline, hs⟩)).1

/-! ### What is kept until then -/

namespace Configuration

/-- A configuration in which the user gave what can be given, and which remembers nothing that is out
of date, if the model is tidy. -/
structure Sane (m : Model) (settings : Settings) (c : Configuration) : Prop where
  ready : c.Ready m settings
  coherent : m.Tidy → c.Coherent m

variable {m : Model} {settings : Settings} {c : Configuration}
  (hm : m.Sound) (hterminates : ∀ u, m.Permits u → m.Terminates u)
include hm hterminates

theorem kept_sane : Kept (Sane m settings) := fun c c' hstep hc =>
  ⟨kept_ready m settings c c' hstep hc.ready, fun htidy =>
    Coherent.kept ⟨hm, htidy, hterminates⟩ c c' hstep (hc.coherent htidy)⟩

omit hm hterminates in
theorem keptByFiles_sane : KeptByFiles (Sane m settings) := fun c files hc =>
  ⟨keptByFiles_ready m settings c files hc.ready, fun htidy =>
    Coherent.keptByFiles c files (hc.coherent htidy)⟩

theorem keeps_sane_follow {α : Type} (p : Plan α) :
    Keeps (Sane m settings) (Configuring.follow p) := fun c hc =>
  ⟨Configuring.keeps_ready_follow p c hc.ready, fun htidy =>
    Configuring.keeps_follow ⟨hm, htidy, hterminates⟩ p c (hc.coherent htidy)⟩

omit hm hterminates in
theorem sane_of_load {host : Host} {options : LoadOptions} {w : Workspace}
    (hload : Load.load host options = .ok c w) : c.Sane w.model w.settings :=
  ⟨ready_after hload [], fun _ => Load.coherent_of_load hload⟩

omit hm hterminates in
/-- What it remembers is right, in a tidy model or else if it is up to date. -/
theorem Sane.recalls (h : c.Sane m settings) {v : Valuation} (hv : m.Solves c.user v)
    (hcurrent : m.Tidy ∨ c.UpToDate) : c.Recalls m c.user v := by
  refine ⟨h.ready.proper.model, rfl, ?_⟩
  rcases hcurrent with htidy | hcurrent
  · exact ((h.coherent htidy).memory v hv).right
  · exact hcurrent.right h.ready.proper.model hv

end Configuration
end Kconfig
