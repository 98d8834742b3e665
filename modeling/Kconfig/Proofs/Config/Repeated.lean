import Kconfig.Proofs.Config.LoadedFiles
import Kconfig.Proofs.Files.Store
/-!
What can go wrong with a configuration file that can be read.

Nothing that is done with the lines of a file fails, except that the warning about a bool that is
assigned again shows the value that the bool had. A bool that counts as assigned but has no value
from the user is hollow: there is nothing to show. A line can only hollow out no symbol, so a file
that is merged fails exactly when one of its lines assigns a symbol that was hollow before, and a
file that replaces the configuration never fails, because it clears what counts as assigned first.
-/
namespace Kconfig

namespace Configuring

/-! ### What never fails -/

theorem sure_forgetPrompted (s : SymbolId) : Sure (forgetPrompted s) :=
  .bind .get fun _ => .ite (.update _) (.ite (.update _) (.pure _))

theorem sure_refuse (i : Item) (g : Given) : Sure (refuse i g) :=
  .bind .get fun _ => .bind (.update _) fun _ => .pure _

theorem sure_setSymbol (s : SymbolId) (g : Given) : Sure (setSymbol s g) := by
  refine .bind .get fun c => .ite (.bind (.update _) fun _ => .pure _) ?_
  split
  · exact sure_refuse _ _
  · refine .bind (.update _) fun _ => .bind (.update _) fun _ => ?_
    split
    · exact .bind (.update _) fun _ => .bind (.update _) fun _ => .bind (.update _) fun _ => .pure _
    · exact .bind (sure_forgetPrompted s) fun _ => .pure _

theorem sure_unsetSymbol (s : SymbolId) : Sure (unsetSymbol s) :=
  .bind .get fun _ => .ite (.bind (.update _) fun _ => sure_forgetPrompted s) (.pure _)

theorem sure_setChoice (ch : ChoiceId) (g : Given) : Sure (setChoice ch g) := by
  refine .bind .get fun c => .ite (.bind (.update _) fun _ => .pure _) ?_
  split
  · exact .bind (.update _) fun _ => .bind (.update _) fun _ => .bind (.update _) fun _ => .pure _
  · exact sure_refuse _ _

theorem sure_unsetChoice (ch : ChoiceId) : Sure (unsetChoice ch) :=
  .bind .get fun _ =>
    .ite (.bind (.update _) fun _ => .bind (.update _) fun _ => .update _) (.pure _)

theorem sure_followMode (file : String) (line : Nat) (ch : ChoiceId) (value : String) :
    Sure (followMode file line ch value) := by
  have hset : Sure (do let _ ← setChoice ch (.text value) : Configuring Unit) :=
    .bind (sure_setChoice _ _) fun _ => .pure _
  refine .bind .get fun c => ?_
  dsimp only
  split
  · split
    · exact .bind (.update _) fun _ => hset
    · exact hset
  · exact hset

theorem sure_assignedText? (file : String) (line : Nat) (s : SymbolId) (value : String) :
    Sure (assignedText? file line s value) := by
  refine .bind .get fun c => ?_
  dsimp only
  split
  · split
    · exact .bind (.update _) fun _ => .pure _
    · split
      · split
        · exact .bind (sure_followMode _ _ _ _) fun _ => .pure _
        · exact .pure _
      · exact .pure _
  · split
    · exact .pure _
    · exact .bind (.update _) fun _ => .pure _
  · exact .pure _

theorem sure_assignUndefined (file : String) (line : Nat) (name value : String) :
    Sure (assignUndefined file line name value) :=
  .bind (.update _) fun _ => .bind .get fun _ => .ite (.update _) (.pure _)

theorem sure_clearAssigned : Sure clearAssigned :=
  .bind .get fun _ => .bind (.update _) fun _ =>
    .bind (.forM (fun _ => .update _) _) fun _ => .forM (fun _ => .update _) _

theorem sure_unsetOthers : Sure unsetOthers := by
  refine .bind .get fun c => .bind (.forIn (fun s _ => ?_) _ _) fun _ =>
    .bind (.forIn (fun ch _ => ?_) _ _) fun _ => .pure _
  · split
    · exact .pure _
    · exact .bind (sure_unsetSymbol s) fun _ => .pure _
  · split
    · exact .pure _
    · exact .bind (sure_unsetChoice ch) fun _ => .pure _

/-! ### What can only lack a name for a level -/

/-- The action fails with nothing but a level that has no name. -/
abbrev Unnamed {α : Type} (action : Configuring α) : Prop := Throws (· = .unknownName) action

theorem unnamed_of_sure {α : Type} {action : Configuring α} (h : Sure action) : Unnamed action :=
  h.mono fun _ => False.elim

theorem unnamed_noteRepeated (file : String) (line : Nat) (s : SymbolId) (value : String) :
    Unnamed (noteRepeated file line s value) := by
  refine .bind .get fun c => ?_
  dsimp only
  split
  · exact .bind (.pure _) fun _ => .ite (.update _) (.pure _)
  · split
    · exact .bind (.throw rfl) fun _ => .ite (.update _) (.pure _)
    · exact .bind (.pure _) fun _ => .ite (.update _) (.pure _)

theorem unnamed_assign (file : String) (line : Nat) (s : SymbolId) (value : String) :
    Unnamed (assign file line s value) := by
  have hset : Unnamed (do let _ ← setSymbol s (.text value) : Configuring Unit) :=
    .bind (unnamed_of_sure (sure_setSymbol _ _)) fun _ => .pure _
  refine .bind .get fun c => ?_
  split
  · exact .bind (unnamed_noteRepeated _ _ _ _) fun _ => hset
  · exact hset

theorem unnamed_takeLine (file : String) (number : Nat) (line : List Char) :
    Unnamed (takeLine file number line) := by
  refine .bind .get fun c => ?_
  split
  · split
    · exact unnamed_of_sure (sure_assignUndefined _ _ _ _)
    · refine .bind (unnamed_of_sure (sure_assignedText? _ _ _ _)) fun given => ?_
      cases given with
      | none => exact .pure _
      | some given => exact unnamed_assign _ _ _ _
  · split
    · exact unnamed_of_sure (sure_assignUndefined _ _ _ _)
    · exact .ite (unnamed_assign _ _ _ _) (.pure _)
  · exact .pure _
  · exact .update _

theorem unnamed_takeLines (file : String) : ∀ (number : Nat) (lines : List (List Char)),
    Unnamed (takeLines file number lines)
  | _, [] => .pure _
  | number, _ :: more =>
    .bind (unnamed_takeLine _ _ _) fun _ => unnamed_takeLines file (number + 1) more

end Configuring

namespace Configuration
variable {m : Model} {settings : Settings} {c c' : Configuration}

/-- The symbol is a bool that counts as assigned although the user gives it nothing. -/
structure Hollow (m : Model) (c : Configuration) (s : SymbolId) : Prop where
  bool : (m.symbol s).type = .bool
  assigned : c.assigned.symbols[s]?.getD false = true
  bare : c.user.value s = none

theorem Hollow.congr {s : SymbolId} (hvalues : c'.user.values = c.user.values)
    (hsymbols : c'.assigned.symbols = c.assigned.symbols) :
    c'.Hollow m s ↔ c.Hollow m s := by
  constructor
  · rintro ⟨hbool, hassigned, hbare⟩
    exact ⟨hbool, hsymbols ▸ hassigned, (congrArg (·[s]?.join) hvalues).symm.trans hbare⟩
  · rintro ⟨hbool, hassigned, hbare⟩
    exact ⟨hbool, hsymbols ▸ hassigned, (congrArg (·[s]?.join) hvalues).trans hbare⟩

theorem Noted.hollow_iff (h : c.Noted c') {s : SymbolId} : c'.Hollow m s ↔ c.Hollow m s :=
  Hollow.congr (by rw [h.user]) (by rw [h.assigned])

/-- Assignments to other symbols leave a symbol as hollow as it was. -/
theorem Takes.hollow_iff {given : List Assignment} {lost : List (String × String)}
    (h : Takes m given lost c c') (hgiven : ∀ a ∈ given, ¬ c.Hollow m a.symbol) (s : SymbolId) :
    c'.Hollow m s ↔ c.Hollow m s := by
  have hvalue := h.value s
  have hkept := h.kept s
  have hsymbols := h.symbols s
  cases hlast : lastValue? s given with
  | none =>
    rw [hlast, Option.isSome_none, Bool.or_false] at hsymbols
    constructor
    · rintro ⟨hbool, hassigned, hbare⟩
      exact ⟨hbool, hsymbols ▸ hassigned, hkept hlast ▸ hbare⟩
    · rintro ⟨hbool, hassigned, hbare⟩
      exact ⟨hbool, hsymbols ▸ hassigned, (hkept hlast).trans hbare⟩
  | some v =>
    -- the symbol has a value now, and was not hollow before
    obtain ⟨a, ha, hsome⟩ := List.exists_of_findSome?_eq_some hlast
    have hsymbol : a.symbol = s := by
      split at hsome
      · next hsymbol => exact hsymbol
      · exact nomatch hsome
    constructor
    · rintro ⟨-, -, hbare⟩
      have hgone := hvalue v hlast
      rw [hbare] at hgone
      exact nomatch hgone
    · intro hhollow
      exact absurd (hsymbol ▸ hhollow) (hgiven a (List.mem_reverse.mp ha))

end Configuration

namespace Configuring
open Kconfig.Configuration
variable {m : Model} {settings : Settings} {c c' : Configuration} {α β : Type} {p q : Prop}

/-- The action lacks a name for a level exactly if a condition holds, and else succeeds. -/
structure FailsIf (p : Prop) (action : Configuring α) (c : Configuration) : Prop where
  fails : p → Fails action c .unknownName
  ends : ¬ p → Ends action c fun _ _ => True

namespace FailsIf

theorem of_sure {action : Configuring α} (h : Sure action) (hp : ¬ p) : FailsIf p action c :=
  ⟨fun hp' => absurd hp' hp, fun _ => h.ends fun _ _ _ => trivial⟩

theorem congr {action : Configuring α} (h : FailsIf p action c) (hpq : q ↔ p) :
    FailsIf q action c :=
  ⟨fun hq => h.fails (hpq.mp hq), fun hq => h.ends fun hp => hq (hpq.mpr hp)⟩

theorem bind_get {next : Configuration → Configuring α} (h : FailsIf p (next c) c) :
    FailsIf p (get >>= next) c := ⟨h.fails, h.ends⟩

/-- Only the first of two actions can fail. -/
theorem bind_sure {action : Configuring α} {next : α → Configuring β} (h : FailsIf p action c)
    (hnext : ∀ a, Sure (next a)) : FailsIf p (action >>= next) c :=
  ⟨fun hp => (h.fails hp).bind,
    fun hp => (h.ends hp).bind fun a _ _ => (hnext a).ends fun _ _ _ => trivial⟩

/-- Only the second of two actions can fail. -/
theorem sure_bind {action : Configuring α} {next : α → Configuring β}
    {Q : α → Configuration → Prop} (h : Ends action c Q)
    (hnext : ∀ a c', Q a c' → FailsIf p (next a) c') : FailsIf p (action >>= next) c :=
  ⟨fun hp => .after h fun a c' hc' => (hnext a c' hc').fails hp,
    fun hp => h.bind fun a c' hc' => (hnext a c' hc').ends hp⟩

end FailsIf

/-! ### Lines -/

theorem failsIf_noteRepeated (hmodel : c.model = m) {s : SymbolId}
    (hassigned : c.assigned.symbols[s]?.getD false = true) (file : String) (line : Nat)
    (value : String) : FailsIf (c.Hollow m s) (noteRepeated file line s value) c := by
  have hwarn : ∀ (p : Prop) [Decidable p] (w : Warning),
      Sure (if p then warnAt file line w else pure ()) := fun p _ w => .ite (.update _) (.pure _)
  refine .bind_get ?_
  dsimp only
  rw [hmodel]
  cases hvalue : c.user.value s with
  | some v => exact .of_sure (hwarn _ _) fun h => nomatch hvalue.symm.trans h.bare
  | none =>
    dsimp only
    split
    · next hbool => exact ⟨fun _ => .bind (.throw _), fun h => absurd ⟨hbool, hassigned, hvalue⟩ h⟩
    · next hbool => exact .of_sure (hwarn _ _) fun h => hbool h.bool

/-- To assign a hollow symbol fails. -/
theorem failsIf_assign (hmodel : c.model = m) (file : String) (line : Nat) (s : SymbolId)
    (value : String) : FailsIf (c.Hollow m s) (assign file line s value) c := by
  have hset : Sure (do let _ ← setSymbol s (.text value) : Configuring Unit) :=
    .bind (sure_setSymbol s _) fun _ => .pure _
  refine .bind_get ?_
  split
  · next hassigned =>
    exact (failsIf_noteRepeated hmodel hassigned file line value).bind_sure fun _ => hset
  · next hassigned => exact .of_sure hset fun h => hassigned h.assigned

/-- A bool is given a text exactly if the assignment is accepted, and what its own text comes to
hollows out no symbol. -/
theorem ends_assignedText?_of_ready (hc : c.Ready m settings) (file : String) (line : Nat) (s : SymbolId)
    (value : String) : Ends (assignedText? file line s value) c fun text c' =>
      c'.model = m ∧ (c'.Hollow m s ↔ c.Hollow m s) ∧
        ((m.symbol s).type = .bool → (text.isSome ↔ (m.assigned? s value).isSome)) := by
  have hgiven : (m.symbol s).type = .bool → m.assigned? s value = none →
      Yields (assignedText? file line s value) c fun text _ => text = none := by
    intro hbool hnone
    refine .bind_get ?_
    dsimp only
    rw [hc.fits.model, hbool]
    rcases assigned?_bool hbool value with ⟨hy, hn, -⟩ | ⟨l, -, hsome⟩
    · dsimp only
      rw [if_pos ⟨hy, hn⟩]
      exact .bind (fun _ _ _ => trivial) fun _ _ (_ : True) => .pure rfl
    · exact nomatch hnone.symm.trans hsome
  refine (sure_assignedText? file line s value).ends fun text c' h => ?_
  have hmodel := ((yields_assignedText? hc.fits file line s value).keeping
    (keeps_assignedText? (kept_ready m settings) file line s value) hc text c' h)
  obtain ⟨hc', hreads⟩ := hmodel
  refine ⟨hc'.fits.model, ?_, fun hbool => ?_⟩
  · cases text with
    | none => exact hreads.2.hollow_iff
    | some text =>
      rcases hreads.2 with hnoted | ⟨_, _, _, _, hfollows⟩
      · exact hnoted.hollow_iff
      · exact Hollow.congr hfollows.values hfollows.symbols
  · cases text with
    | none => simp [hreads.1]
    | some text =>
      refine iff_of_true rfl (Option.isSome_iff_ne_none.mpr fun hnone => ?_)
      exact nomatch hgiven hbool hnone _ _ h

/-- To take a line fails exactly if it assigns a hollow symbol. -/
theorem failsIf_takeLine (hc : c.Ready m settings) (file : String) (number : Nat)
    (line : List Char) : FailsIf
      (∃ a, m.accepted? settings.configPrefix line = some a ∧ c.Hollow m a.symbol)
      (takeLine file number line) c := by
  have hmodel := hc.proper.model
  refine .bind_get ?_
  rw [hmodel, hc.proper.settings]
  unfold Model.accepted?
  cases ConfigLine.read settings.configPrefix line with
  | assign name value =>
    dsimp only
    cases definedSymbol? m name with
    | none => exact .of_sure (sure_assignUndefined _ _ _ _) fun ⟨_, ha, _⟩ => nomatch ha
    | some s =>
      refine .sure_bind (ends_assignedText?_of_ready hc file number s value) fun text c₁ h₁ => ?_
      obtain ⟨hmodel₁, hhollow, hgiven⟩ := h₁
      rw [Option.bind_some]
      cases text with
      | none =>
        refine .of_sure (.pure _) fun ⟨a, ha, h⟩ => ?_
        obtain ⟨v, hv, rfl⟩ := Option.map_eq_some_iff.mp ha
        exact nomatch (hgiven h.bool).mpr (hv ▸ rfl)
      | some text =>
        refine (failsIf_assign hmodel₁ file number s text).congr ⟨fun ⟨a, ha, h⟩ => ?_, fun h => ?_⟩
        · obtain ⟨v, hv, rfl⟩ := Option.map_eq_some_iff.mp ha
          exact hhollow.mpr h
        · obtain ⟨v, hv⟩ := Option.isSome_iff_exists.mp ((hgiven h.bool).mp rfl)
          exact ⟨⟨s, v⟩, hv ▸ rfl, hhollow.mp h⟩
  | unset name =>
    dsimp only
    cases definedSymbol? m name with
    | none => exact .of_sure (sure_assignUndefined _ _ _ _) fun ⟨_, ha, _⟩ => nomatch ha
    | some s =>
      rw [Option.bind_some]
      dsimp only
      split
      · refine (failsIf_assign hmodel file number s "n").congr ⟨?_, fun h => ⟨_, rfl, h⟩⟩
        rintro ⟨a, ha, h⟩
        obtain rfl := Option.some.inj ha
        exact h
      · exact .of_sure (.pure _) fun ⟨_, ha, _⟩ => nomatch ha
  | ignored => exact .of_sure (.pure _) fun ⟨_, ha, _⟩ => nomatch ha
  | malformed => exact .of_sure (.update _) fun ⟨_, ha, _⟩ => nomatch ha

/-- To take lines fails exactly if one of them assigns a symbol that was hollow before the first. -/
theorem failsIf_takeLines (hm : m.Sound) (file : String) : ∀ (lines : List (List Char))
    (number : Nat) {c : Configuration}, c.Ready m settings → FailsIf
      (∃ a ∈ lines.filterMap (m.accepted? settings.configPrefix), c.Hollow m a.symbol)
      (takeLines file number lines) c
  | [], _, _, _ => .of_sure (.pure _) fun ⟨_, ha, _⟩ => nomatch ha
  | line :: more, number, c, hc => by
    have hline := failsIf_takeLine hc file number line
    have hgiven : (∃ a ∈ (line :: more).filterMap (m.accepted? settings.configPrefix),
        c.Hollow m a.symbol) ↔
          (∃ a, m.accepted? settings.configPrefix line = some a ∧ c.Hollow m a.symbol) ∨
          ∃ a ∈ more.filterMap (m.accepted? settings.configPrefix), c.Hollow m a.symbol := by
      simp only [Lists.filterMap_cons_toList, List.mem_append, Option.mem_toList, or_and_right,
        exists_or]
    by_cases hhollow : ∃ a, m.accepted? settings.configPrefix line = some a ∧ c.Hollow m a.symbol
    · exact ⟨fun _ => (hline.fails hhollow).bind,
        fun h => absurd (hgiven.mpr (.inl hhollow)) h⟩
    · have hends := ((hline.ends hhollow).yielding (yields_takeLine hm hc file number line)).keeping
        (keeps_takeLine (kept_ready m settings) file number line) hc
      refine .sure_bind hends fun _ c₁ ⟨hc₁, htakes⟩ => ?_
      have hsame := htakes.hollow_iff fun a ha h => hhollow ⟨a, Option.mem_toList.mp ha, h⟩
      refine (failsIf_takeLines hm file more (number + 1) hc₁).congr (hgiven.trans ?_)
      rw [or_iff_right hhollow]
      simp only [hsame]

/-! ### Files -/

theorem opened_of_linesOf? {path : String} {lines : List (List Char)}
    (h : c.linesOf? path = some lines) : ∃ content, c.opened? path = some content ∧
      content.decoded.fault = none ∧ content.decoded.lines = lines := by
  obtain ⟨content, hopened, hlines⟩ := Option.bind_eq_some_iff.mp h
  split at hlines
  · next hfault => exact ⟨content, hopened, hfault, Option.some.inj hlines⟩
  · exact nomatch hlines

theorem ends_checkPath {path : String} (h : Files.hasNull path = false) :
    Ends (checkPath path) c fun _ c' => c' = c := by
  unfold checkPath
  rw [h]
  exact .pure rfl

theorem ends_openConfig {path : String} {content : Files.Content}
    (h : c.opened? path = some content) :
    Ends (openConfig path) c fun found c' => c' = c ∧ found.2 = content := by
  refine .bind_get ?_
  unfold opened? at h
  cases hread : c.host.files.read path with
  | ok content' =>
    rw [hread] at h
    exact .pure ⟨rfl, Option.some.inj h⟩
  | error condition =>
    rw [hread] at h
    dsimp only at h ⊢
    cases htree : c.host.files.read (Files.join c.settings.srctree path) with
    | ok content' =>
      rw [htree] at h
      have hname := Files.hasNull_of_join (Files.Store.hasNull_of_read htree)
      refine (ends_checkPath hname).bind fun _ c' hsame => ?_
      subst hsame
      exact .pure ⟨rfl, Option.some.inj h⟩
    | error condition' =>
      rw [htree] at h
      exact nomatch h

/-- What a line assigns is defined. -/
theorem defined_of_accepted? (hm : m.Sound) {mark : String} {line : List Char} {a : Assignment}
    (h : m.accepted? mark line = some a) : a.symbol ∈ m.defined := by
  have hnodes : ∀ name s, definedSymbol? m name = some s → s ∈ m.defined := by
    intro name s hs
    have hnodes := (Option.filter_eq_some_iff.mp hs).2
    refine (hm.defined s).mpr fun hnil => ?_
    rw [hnil] at hnodes
    exact nomatch hnodes
  unfold Model.accepted? at h
  split at h
  · obtain ⟨s, hs, hvalue⟩ := Option.bind_eq_some_iff.mp h
    obtain ⟨v, -, rfl⟩ := Option.map_eq_some_iff.mp hvalue
    exact hnodes _ s hs
  · obtain ⟨s, hs, hvalue⟩ := Option.bind_eq_some_iff.mp h
    split at hvalue
    · exact Option.some.inj hvalue ▸ hnodes _ s hs
    · exact nomatch hvalue
  · exact nomatch h
  · exact nomatch h

/-- Nothing that a line assigns is hollow when nothing counts as assigned any more. -/
theorem Clears.not_hollow (hm : m.Sound) (h : Clears m c c') (mark : String)
    (lines : List (List Char)) :
    ¬ ∃ a ∈ lines.filterMap (m.accepted? mark), c'.Hollow m a.symbol := by
  rintro ⟨a, ha, hhollow⟩
  obtain ⟨line, -, haccepted⟩ := List.mem_filterMap.mp ha
  have hcleared := h.symbols a.symbol (defined_of_accepted? hm haccepted)
  exact nomatch hcleared.symm.trans hhollow.assigned

/-- To take a file that can be read fails exactly if it is merged and assigns a hollow symbol. -/
theorem failsIf_takeFile (hm : m.Sound) (hc : c.Ready m settings) {path : String}
    {lines : List (List Char)} (hlines : c.linesOf? path = some lines) (replaces : Bool) : FailsIf
      (replaces = false ∧
        ∃ a ∈ lines.filterMap (m.accepted? settings.configPrefix), c.Hollow m a.symbol)
      (takeFile path replaces) c := by
  obtain ⟨content, hopened, hfault, rfl⟩ := opened_of_linesOf? hlines
  refine .sure_bind (ends_openConfig hopened) fun (_, found) c₁ h₁ => ?_
  obtain ⟨rfl, rfl⟩ := h₁
  dsimp only
  rw [hfault]
  cases replaces with
  | true =>
    have hends := (sure_clearAssigned.ends (yields_clearAssigned hc.fits)).keeping
      (keeps_clearAssigned (kept_ready m settings)) hc
    refine .sure_bind hends fun _ c₂ ⟨hc₂, hclears⟩ => ?_
    exact ((failsIf_takeLines hm path _ 1 hc₂).bind_sure fun _ => sure_unsetOthers).congr
      (iff_of_false (fun h => nomatch h.1) (hclears.not_hollow hm _ _))
  | false =>
    exact ((failsIf_takeLines hm path _ 1 hc).bind_sure fun _ => .pure _).congr
      (and_iff_right rfl)

/-- So it is when it is loaded as the configuration. -/
theorem failsIf_loadConfig (hm : m.Sound) (hc : c.Ready m settings) {path : String}
    {lines : List (List Char)} (hlines : c.linesOf? path = some lines) (replaces : Bool) : FailsIf
      (replaces = false ∧
        ∃ a ∈ lines.filterMap (m.accepted? settings.configPrefix), c.Hollow m a.symbol)
      (loadConfig (some path) replaces) c := by
  have hsame : ∀ s, Hollow m { c with warnsPromptless := false } s ↔ c.Hollow m s :=
    fun _ => Hollow.congr rfl rfl
  have htake := failsIf_takeFile hm (hc.warning false) hlines replaces
  simp only [hsame] at htake
  have hquietly : FailsIf (replaces = false ∧
      ∃ a ∈ lines.filterMap (m.accepted? settings.configPrefix), c.Hollow m a.symbol)
      (quietly (takeFile path replaces)) c := by
    refine ⟨fun hp => ?_, fun hp => ?_⟩
    · obtain ⟨c₁, hfails⟩ := htake.fails hp
      exact ⟨_, by rw [quietly_apply, hfails]⟩
    · exact ends_quietly (htake.ends hp)
  exact hquietly.bind_sure fun _ => .pure _

/-- The message tells the file. -/
theorem message_of_loadConfig (path : String) (replaces : Bool) :
    Yields (loadConfig (some path) replaces) c fun message _ =>
      message = (if replaces then "Loaded" else "Merged") ++ s!" configuration '{path}'" := by
  show Yields (quietly (takeFile path replaces) >>= fun _ => pure _) _ _
  exact .bind (fun _ _ _ => trivial) fun _ _ (_ : True) => .pure rfl

end Configuring

/-! ### Histories without hollow symbols -/

namespace Configuration
variable {m : Model} {settings : Settings} {c c' : Configuration}

/-- A configuration in which no symbol is hollow. -/
structure Filled (m : Model) (settings : Settings) (c : Configuration) : Prop
    extends c.Ready m settings where
  filled : ∀ s, ¬ c.Hollow m s

theorem Filled.of_hollow_iff (h : c.Filled m settings) (hc : c'.Ready m settings)
    (hsame : ∀ s, c'.Hollow m s ↔ c.Hollow m s) : c'.Filled m settings :=
  ⟨hc, fun s hs => h.filled s ((hsame s).mp hs)⟩

/-- A symbol that is given a value is not hollow, and the others are no hollower than before. -/
theorem Fits.hollow_of_given (hc : c.Fits m) {s t : SymbolId} {v : UserValue}
    (hvalues : c'.user.values = c.user.values.setIfInBounds s (some v))
    (hsymbols : c'.assigned.symbols = c.assigned.symbols.setIfInBounds s true)
    (h : c'.Hollow m t) : c.Hollow m t := by
  obtain ⟨hbool, hassigned, hbare⟩ := h
  rw [UserValues.value, hvalues] at hbare
  rw [hsymbols] at hassigned
  by_cases hst : s = t
  · subst hst
    rw [Array.getElem?_setIfInBounds_self] at hassigned hbare
    split at hassigned
    · next hs =>
      rw [if_pos (hc.values ▸ hc.symbols ▸ hs)] at hbare
      cases hbare
    · cases hassigned
  · rw [Array.getElem?_setIfInBounds_ne hst] at hassigned hbare
    exact ⟨hbool, hassigned, hbare⟩

/-- To clear a flag hollows out no symbol. -/
theorem hollow_of_cleared {s t : SymbolId} (hvalues : c'.user.values = c.user.values)
    (hsymbols : c'.assigned.symbols = c.assigned.symbols.setIfInBounds s false)
    (h : c'.Hollow m t) : c.Hollow m t := by
  obtain ⟨hbool, hassigned, hbare⟩ := h
  refine ⟨hbool, ?_, (congrArg (·[t]?.join) hvalues).symm.trans hbare⟩
  cases hflag : c.assigned.symbols[t]?.getD false with
  | true => rfl
  | false =>
    rw [hsymbols, getD_setIfInBounds_false hflag] at hassigned
    exact nomatch hassigned

end Configuration

namespace Configuring
open Kconfig.Configuration
variable {m : Model} {settings : Settings} {c c' : Configuration}

theorem yields_setSymbol_hollow (hc : c.Fits m) (s : SymbolId) {g : Given} (hg : g ≠ .nothing) :
    Yields (setSymbol s g) c fun _ c' => ∀ t, c'.Hollow m t → c.Hollow m t := by
  refine .bind_get ?_
  dsimp only
  have hgiven : (if (c.model.symbol s).type = .bool then g.readLevel else g) ≠ .nothing := by
    unfold Given.readLevel
    split
    · split
      · exact nofun
      · exact nofun
      · exact hg
    · exact hg
  generalize (if (c.model.symbol s).type = .bool then g.readLevel else g) = g' at hgiven
  split
  · next hsame =>
    rintro a c' h t ⟨hbool, hassigned, hbare⟩
    obtain rfl : { c with assigned.symbols := c.assigned.symbols.setIfInBounds s true } = c' := by
      injection h
    by_cases hst : s = t
    · subst hst
      have hnothing : (g' == .nothing) = true := by
        rw [show c.user.value s = none from hbare, Bool.and_eq_true] at hsame
        exact hsame.1
      exact absurd (eq_of_beq hnothing) hgiven
    · refine ⟨hbool, ?_, hbare⟩
      rwa [Array.getElem?_setIfInBounds_ne hst] at hassigned
  · cases (c.model.symbol s).type.accept? g' with
    | none => exact ((noted_refuse _ _).yields c).mono fun _ _ h _ => h.hollow_iff.mp
    | some v =>
      have hgives : ∀ c₁ : Configuration,
          c₁.user.values = c.user.values.setIfInBounds s (some v) →
          c₁.assigned.symbols = c.assigned.symbols.setIfInBounds s true → ∀ forget : Configuring Unit,
          Moves Noted forget → Yields (forget >>= fun _ => pure true) c₁ fun _ c' =>
            ∀ t, c'.Hollow m t → c.Hollow m t := fun c₁ hvalues hsymbols forget hforget =>
        .bind (hforget.yields c₁) fun _ _ hnoted => .pure fun t ht =>
          hc.hollow_of_given hvalues hsymbols (hnoted.hollow_iff.mp ht)
      dsimp only
      cases (c.model.symbol s).choice with
      | none =>
        exact hgives { c with
          user.values := c.user.values.setIfInBounds s (some v)
          assigned.symbols := c.assigned.symbols.setIfInBounds s true } rfl rfl _
          (noted_forgetPrompted s)
      | some ch =>
        cases v.isYes with
        | false =>
          exact hgives { c with
            user.values := c.user.values.setIfInBounds s (some v)
            assigned.symbols := c.assigned.symbols.setIfInBounds s true } rfl rfl _
            (noted_forgetPrompted s)
        | true =>
          exact hgives { c with
            user.values := c.user.values.setIfInBounds s (some v)
            user.selections := c.user.selections.setIfInBounds ch (some s)
            assigned.symbols := c.assigned.symbols.setIfInBounds s true
            assigned.choices := c.assigned.choices.setIfInBounds ch true } rfl rfl _
            (noted_forgetFrom (.choice ch))

/-- Whatever else is done keeps the configuration filled. -/
theorem keeps_filled_setSymbol (s : SymbolId) {g : Given} (hg : g ≠ .nothing) :
    Keeps (Filled m settings) (setSymbol s g) :=
  (sure_setSymbol s g).keeps fun _ hc =>
    (((yields_setSymbol_hollow hc.fits s hg).keeping
      (keeps_setSymbol (kept_ready m settings) s g) hc.toReady)).mono fun _ _ h =>
        ⟨h.1, fun t ht => hc.filled t (h.2 t ht)⟩

theorem keeps_filled_setChoice (ch : ChoiceId) (g : Given) :
    Keeps (Filled m settings) (setChoice ch g) :=
  (sure_setChoice ch g).keeps fun c hc =>
    (((follows_setChoice ch g).yields c).keeping
      (keeps_setChoice (kept_ready m settings) ch g) hc.toReady).mono fun _ _ h =>
        hc.of_hollow_iff h.1 fun _ => Hollow.congr h.2.values h.2.symbols

theorem keeps_filled_unsetChoice (ch : ChoiceId) : Keeps (Filled m settings) (unsetChoice ch) := by
  intro c hc
  have hready := keeps_unsetChoice (kept_ready m settings) ch c hc.toReady
  refine hc.of_hollow_iff hready fun t => ?_
  show (stateAfter ((if (c.user.mode ch).isSome || (c.user.selection ch).isSome then _ else _ :
    Configuring Unit) c)).Hollow m t ↔ _
  split
  · exact Hollow.congr rfl rfl
  · exact Iff.rfl

theorem keeps_filled_follow {α : Type} (p : Plan α) : Keeps (Filled m settings) (follow p) := by
  intro c hc
  have hready := keeps_ready_follow p c hc.toReady
  unfold KeepsAt at hready ⊢
  rw [stateAfter_follow] at hready ⊢
  exact hc.of_hollow_iff hready fun _ => Hollow.congr rfl rfl

theorem keeps_filled_clearAssigned : Keeps (Filled m settings) clearAssigned := by
  have hkept := kept_ready m settings
  refine .bind .get fun c => .bind (.update fun c hc => ?_) fun _ =>
    .bind (.forM (fun s c hc => ?_) _) fun _ => .forM (fun ch c hc => ?_) _
  · exact hc.of_hollow_iff (hkept.alike hc.toReady ⟨rfl, rfl, rfl, rfl, rfl, rfl, rfl, rfl, rfl, rfl⟩)
      fun _ => Hollow.congr rfl rfl
  · let c' := { c with assigned.symbols := c.assigned.symbols.setIfInBounds s false }
    have hcleared : ∀ t, c'.Hollow m t → c.Hollow m t := fun t => hollow_of_cleared rfl rfl
    exact ⟨keeps_markSymbol hkept s false c hc.toReady, fun t ht => hc.filled t (hcleared t ht)⟩
  · exact hc.of_hollow_iff (keeps_markChoice hkept ch false c hc.toReady)
      fun _ => Hollow.congr rfl rfl

theorem keeps_filled_takeLines (hm : m.Sound) (file : String) (number : Nat)
    (lines : List (List Char)) : Keeps (Filled m settings) (takeLines file number lines) := by
  intro c hc
  have hends := ((failsIf_takeLines hm file lines number hc.toReady).ends
    fun ⟨a, _, h⟩ => hc.filled _ h).yielding (yields_takeLines hm file lines number hc.toReady)
  obtain ⟨_, c', htake, hready, htakes⟩ := hends.keeping
    (keeps_takeLines (kept_ready m settings) file number lines) hc.toReady
  unfold KeepsAt
  rw [htake]
  exact hc.of_hollow_iff hready (htakes.hollow_iff fun a _ => hc.filled a.symbol)

/-- What does not count as assigned is not hollow without a value. -/
theorem keeps_filled_unsetSymbol {flags : Array Bool} {s : SymbolId}
    (hs : flags[s]?.getD false = false) :
    Keeps (fun c => c.Filled m settings ∧ c.assigned.symbols = flags) (unsetSymbol s) := by
  refine (sure_unsetSymbol s).keeps fun c ⟨hc, hflags⟩ => ?_
  have hassigned : Yields (unsetSymbol s) c fun _ c' => c'.assigned.symbols = flags := by
    refine .bind_get ?_
    split
    · intro a c' h
      rw [(noted_forgetPrompted s _ a c' h).assigned]
      exact hflags
    · exact .pure hflags
  intro a c' h
  obtain ⟨-, -, -, hvalue⟩ := yields_unsetSymbol s a c' h
  have hflags' := hassigned a c' h
  refine ⟨⟨?_, fun t ⟨hbool, hflag, hbare⟩ => ?_⟩, hflags'⟩
  · have hready := keeps_unsetSymbol (kept_ready m settings) s c hc.toReady
    unfold KeepsAt at hready
    rw [h] at hready
    exact hready
  · rw [hflags'] at hflag
    rw [hvalue t] at hbare
    split at hbare
    · next hts =>
      rw [hts, hs] at hflag
      exact nomatch hflag
    · exact hc.filled t ⟨hbool, hflags ▸ hflag, hbare⟩

theorem keeps_filled_unsetOthers : Keeps (Filled m settings) unsetOthers := by
  refine Keeps.bind_get fun c hc => ?_
  have hloops : Keeps (fun c' => c'.Filled m settings ∧ c'.assigned.symbols = c.assigned.symbols) (do
      for s in c.model.defined do
        unless c.assigned.symbols[s]?.getD false do unsetSymbol s
      for ch in c.model.definedChoices do
        unless c.assigned.choices[ch]?.getD false do unsetChoice ch : Configuring Unit) := by
    refine .bind (.forIn (fun s _ => ?_) _ _) fun _ => .bind (.forIn (fun ch _ => ?_) _ _) fun _ =>
      .pure _
    · cases hflag : c.assigned.symbols[s]?.getD false with
      | true => exact .pure _
      | false => exact .bind (keeps_filled_unsetSymbol hflag) fun _ => .pure _
    · have hunset : Keeps (fun c' => c'.Filled m settings ∧ c'.assigned.symbols = c.assigned.symbols)
          (unsetChoice ch) := (keeps_filled_unsetChoice ch).and <|
        .bind .get fun _ => .ite (.bind (.update fun _ h => h) fun _ =>
          .bind (.update fun _ h => h) fun _ => .update fun _ h => h) (.pure _)
      split
      · exact .pure _
      · exact .bind hunset fun _ => .pure _
  exact (hloops c ⟨hc, rfl⟩).1

theorem keeps_filled_takeFile (hm : m.Sound) (path : String) (replaces : Bool) :
    Keeps (Filled m settings) (takeFile path replaces) := by
  refine .bind (keeps_openConfig path) fun found => ?_
  obtain ⟨_, content⟩ := found
  have htail : Keeps (Filled m settings) (takeContent path content replaces) := by
    refine .bind (keeps_filled_takeLines hm _ _ _) fun _ => ?_
    dsimp only
    cases content.decoded.fault with
    | some fault => exact .bind (.throw _) fun _ => .ite keeps_filled_unsetOthers (.pure _)
    | none => exact .ite keeps_filled_unsetOthers (.pure _)
  exact .ite (.bind keeps_filled_clearAssigned fun _ => htail) htail

theorem keeps_filled_loadConfig (hm : m.Sound) (name : Option String) (replaces : Bool) :
    Keeps (Filled m settings) (loadConfig name replaces) := by
  have hset : ∀ (c : Configuration) isOn, c.Filled m settings →
      Configuration.Filled m settings { c with warnsPromptless := isOn } := fun c isOn hc =>
    hc.of_hollow_iff (hc.toReady.warning isOn) fun _ => Hollow.congr rfl rfl
  refine .bind (keeps_fileToLoad (fun p => keeps_filled_follow p) name) fun found => ?_
  split
  · exact .pure _
  · exact .bind (keeps_quietly_of hset (keeps_filled_takeFile hm _ _)) fun _ => .pure _

end Configuring

/-- The act takes no value of a symbol away, nor gives a symbol nothing. -/
def Act.Gives : Act → Prop
  | .setSymbol _ g => g ≠ .nothing
  | .unsetSymbol _ => False
  | _ => True

instance (act : Act) : Decidable act.Gives := by
  unfold Act.Gives
  split <;> infer_instance

theorem Configuration.keeps_filled_perform {m : Model} {settings : Settings} (hm : m.Sound)
    {act : Act} (hact : act.Gives) : Keeps (Filled m settings) act.perform := by
  cases act with
  | setSymbol s g => exact .bind (Configuring.keeps_filled_setSymbol s hact) fun _ => .pure _
  | unsetSymbol s => exact hact.elim
  | setChoice ch g => exact .bind (Configuring.keeps_filled_setChoice ch g) fun _ => .pure _
  | unsetChoice ch => exact Configuring.keeps_filled_unsetChoice ch
  | loadConfig name replaces =>
    exact .bind (Configuring.keeps_filled_loadConfig hm name replaces) fun _ => .pure _
  | ask q => exact .bind (Configuring.keeps_filled_follow _) fun _ => .pure _
  | changeFiles files =>
    exact .update fun c hc =>
      hc.of_hollow_iff (keptByFiles_ready m settings c files hc.toReady) fun _ => Hollow.congr rfl rfl

/-- Acts that only give keep the configuration filled. -/
theorem Configuration.Filled.after {m : Model} {settings : Settings} (hm : m.Sound) :
    ∀ {acts : List Act} {c : Configuration}, c.Filled m settings → (∀ act ∈ acts, act.Gives) →
      (c.after acts).Filled m settings
  | [], _, hc, _ => hc
  | act :: _, _, hc, hacts =>
    have hstep := keeps_filled_perform hm (hacts act (List.mem_cons_self ..)) _ hc
    Filled.after (c := stateAfter _) hm hstep
      fun act' hact' => hacts act' (List.mem_cons_of_mem _ hact')

section Loading
variable {host : Host} {options : LoadOptions} {c : Configuration} {w : Workspace}

/-- Nothing counts as assigned when a configuration starts. -/
theorem Load.filled_of_load (hload : Load.load host options = .ok c w) :
    c.Filled w.model w.settings := by
  refine ⟨ready_after hload [], fun s hs => ?_⟩
  obtain rfl := Load.eq_ofWorkspace_of_load hload
  have hassigned := hs.assigned
  rw [Configuration.ofWorkspace, Array.getElem?_replicate] at hassigned
  split at hassigned
  · cases hassigned
  · cases hassigned

/-- Loading a file that can be read. Whatever was done before, it succeeds with its message, unless
the file is merged and a line assigns a hollow symbol: then the warning that the symbol is assigned
again fails, because the value that it shows has no name. No symbol is hollow after acts that take no
value of a symbol away and give none of them nothing, not even when loads among them failed. -/
theorem loadConfig_of_readable (hload : Load.load host options = .ok c w) (acts : List Act) :
    (∀ path lines, (c.after acts).linesOf? path = some lines → ∀ replaces,
      ((∃ c', Configuring.loadConfig (some path) replaces (c.after acts) =
          .ok ((if replaces then "Loaded" else "Merged") ++ s!" configuration '{path}'") c') ↔
        (replaces = false → ∀ a ∈ lines.filterMap (w.model.accepted? w.settings.configPrefix),
          ¬ (c.after acts).Hollow w.model a.symbol)) ∧
      ((∃ c', Configuring.loadConfig (some path) replaces (c.after acts) =
          .error .unknownName c') ↔
        replaces = false ∧ ∃ a ∈ lines.filterMap (w.model.accepted? w.settings.configPrefix),
          (c.after acts).Hollow w.model a.symbol)) ∧
    ((∀ act ∈ acts, act.Gives) → ∀ s, ¬ (c.after acts).Hollow w.model s) := by
  have hm := Load.sound_of_load hload
  refine ⟨fun path lines hlines replaces => ?_, fun hacts =>
    ((Load.filled_of_load hload).after hm hacts).filled⟩
  have hfails := Configuring.failsIf_loadConfig hm (ready_after hload acts) hlines replaces
  by_cases hhollow : replaces = false ∧
      ∃ a ∈ lines.filterMap (w.model.accepted? w.settings.configPrefix),
        (c.after acts).Hollow w.model a.symbol
  · obtain ⟨c', hfail⟩ := hfails.fails hhollow
    refine ⟨iff_of_false ?_ fun h => ?_, iff_of_true ⟨c', hfail⟩ hhollow⟩
    · rintro ⟨c'', hok⟩
      exact nomatch hfail.symm.trans hok
    · obtain ⟨hmerges, a, ha, hhollow⟩ := hhollow
      exact h hmerges a ha hhollow
  · obtain ⟨_, c', hok, rfl⟩ := (hfails.ends hhollow).yielding
      (Configuring.message_of_loadConfig path replaces)
    refine ⟨iff_of_true ⟨c', hok⟩ fun hmerges a ha h => hhollow ⟨hmerges, a, ha, h⟩,
      iff_of_false ?_ hhollow⟩
    rintro ⟨c'', hfail⟩
    exact nomatch hok.symm.trans hfail

end Loading

/-- A symbol, and a configuration file that assigns it. -/
def oneAssignment : Host where
  files.entries := [
    (["work", "Kconfig"], .file (.text "config A\n\tbool \"a\"\n")),
    (["work", "c"], .file (.text "CONFIG_A=y\n"))]

/-- The symbol is set, and its value taken away again. -/
def giveAndTake : List Act := [.setSymbol 2 (.number 2), .unsetSymbol 2]

/-- The file cannot be merged then, but it can replace the configuration, and it can be merged as
long as the value is not taken away. -/
theorem oneAssignment_loads : ∃ c w c₁ c₂, Load.load oneAssignment {} = .ok c w ∧
    Configuring.loadConfig (some "c") false (c.after giveAndTake) = .error .unknownName c₁ ∧
    Configuring.loadConfig (some "c") true (c.after giveAndTake) =
      .ok "Loaded configuration 'c'" c₂ ∧
    ∀ s, ¬ (c.after [.setSymbol 2 (.number 2)]).Hollow w.model s := by
  have hchecked : passes (fun c w =>
      let later := c.after giveAndTake
      (later.linesOf? "c").any fun lines =>
        decide (⟨2, .level true false⟩ ∈
          lines.filterMap (w.model.accepted? w.settings.configPrefix)) &&
        decide ((w.model.symbol 2).type = .bool ∧ later.assigned.symbols[2]?.getD false = true ∧
          later.user.value 2 = none)) (Load.load oneAssignment {}) = true := by decide +kernel
  obtain ⟨c, w, hload, hchecked⟩ := ok_of_passes hchecked
  change ((c.after giveAndTake).linesOf? "c").any _ = true at hchecked
  cases hlines : (c.after giveAndTake).linesOf? "c" with
  | none =>
    rw [hlines] at hchecked
    exact absurd hchecked Bool.false_ne_true
  | some lines =>
    rw [hlines] at hchecked
    change (decide _ && decide _) = true at hchecked
    rw [Bool.and_eq_true, decide_eq_true_eq, decide_eq_true_eq] at hchecked
    obtain ⟨hgiven, hbool, hassigned, hbare⟩ := hchecked
    have hloads := (loadConfig_of_readable hload giveAndTake).1 "c" lines hlines
    obtain ⟨c₁, hfails⟩ := (hloads false).2.mpr ⟨rfl, _, hgiven, hbool, hassigned, hbare⟩
    obtain ⟨c₂, hends⟩ := (hloads true).1.mpr fun h => absurd h Bool.noConfusion
    exact ⟨c, w, c₁, c₂, hload, hfails, hends,
      (loadConfig_of_readable hload [.setSymbol 2 (.number 2)]).2 (by decide)⟩

end Kconfig
