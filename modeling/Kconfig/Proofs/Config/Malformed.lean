import Kconfig.Proofs.Config.LoadedFiles
/-!
Malformed lines of configuration files are told, and only these.

Whatever is done with the lines of a file may be worth warnings. A warning that a line is malformed
comes from a line that neither assigns anything, nor says that something is not set, nor is a remark
or blank, so a file without such lines is loaded without such a warning.
-/
namespace Kconfig

/-- Whether a warning is about a malformed line. -/
def Warning.isMalformed : Warning → Bool
  | .badLine _ => true
  | _ => false

namespace Configuration
variable {c c' : Configuration}

/-- Nothing of what was told in between is about a malformed line. -/
def WellFormed (c c' : Configuration) : Prop :=
  ∃ told : List Notice, c'.journal.notices.toList = c.journal.notices.toList ++ told ∧
    ∀ notice ∈ told, notice.warning.isMalformed = false

instance : Onward WellFormed where
  refl c := ⟨[], (List.append_nil _).symm, fun _ h => absurd h List.not_mem_nil⟩
  trans := by
    rintro c c₁ c₂ ⟨told₁, h₁, hwell₁⟩ ⟨told₂, h₂, hwell₂⟩
    refine ⟨told₁ ++ told₂, ?_, fun notice hnotice => ?_⟩
    · rw [h₂, h₁, List.append_assoc]
    · exact (List.mem_append.mp hnotice).elim (hwell₁ notice) (hwell₂ notice)

theorem WellFormed.of_journal (h : c'.journal = c.journal) : WellFormed c c' :=
  ⟨[], by rw [h, List.append_nil], fun _ h => absurd h List.not_mem_nil⟩

theorem WellFormed.of_warn {place : Option (String × Nat)} {w : Warning}
    (hw : w.isMalformed = false) (h : c'.journal = c.journal.warn place w) : WellFormed c c' := by
  rw [WellFormed, h, Journal.notices_warn]
  split
  · refine ⟨[⟨place, w⟩], Array.toList_push, fun notice hnotice => ?_⟩
    rw [List.mem_singleton.mp hnotice]
    exact hw
  · exact ⟨[], (List.append_nil _).symm, fun _ h => absurd h List.not_mem_nil⟩

end Configuration

namespace Configuring
open Kconfig.Configuration

theorem wellFormed_warn {w : Warning} (hw : w.isMalformed = false) : Moves WellFormed (warn w) :=
  .update fun _ => .of_warn hw rfl

theorem wellFormed_warnAt {w : Warning} (hw : w.isMalformed = false) (file : String) (line : Nat) :
    Moves WellFormed (warnAt file line w) := .update fun _ => .of_warn hw rfl

/-- What leaves the journal alone tells nothing. -/
theorem wellFormed_update {f : Configuration → Configuration}
    (h : ∀ c, (f c).journal = c.journal) : Moves WellFormed (modify f : Configuring PUnit) :=
  .update fun c => .of_journal (h c)

/-! ### Giving and taking values -/

theorem wellFormed_forgetFrom (i : Item) : Moves WellFormed (forgetFrom i) :=
  wellFormed_update fun _ => rfl

theorem wellFormed_forgetPrompted (s : SymbolId) : Moves WellFormed (forgetPrompted s) :=
  .bind .get fun _ => .ite (wellFormed_forgetFrom _) (.ite (wellFormed_warn rfl) (.pure _))

theorem wellFormed_markSymbol (s : SymbolId) (isAssigned : Bool) :
    Moves WellFormed (markSymbol s isAssigned) := wellFormed_update fun _ => rfl

theorem wellFormed_markChoice (ch : ChoiceId) (isAssigned : Bool) :
    Moves WellFormed (markChoice ch isAssigned) := wellFormed_update fun _ => rfl

theorem wellFormed_refuse (i : Item) (g : Given) : Moves WellFormed (refuse i g) :=
  .bind .get fun _ => .bind (wellFormed_warn rfl) fun _ => .pure _

theorem wellFormed_setSymbol (s : SymbolId) (g : Given) : Moves WellFormed (setSymbol s g) := by
  refine .bind .get fun c => .ite (.bind (wellFormed_markSymbol _ _) fun _ => .pure _) ?_
  split
  · exact wellFormed_refuse _ _
  · refine .bind (wellFormed_update fun _ => rfl) fun _ => .bind (wellFormed_markSymbol _ _) fun _ => ?_
    split
    · exact .bind (wellFormed_update fun _ => rfl) fun _ => .bind (wellFormed_markChoice _ _) fun _ =>
        .bind (wellFormed_forgetFrom _) fun _ => .pure _
    · exact .bind (wellFormed_forgetPrompted s) fun _ => .pure _

theorem wellFormed_unsetSymbol (s : SymbolId) : Moves WellFormed (unsetSymbol s) :=
  .bind .get fun _ => .ite (.bind (wellFormed_update fun _ => rfl) fun _ =>
    wellFormed_forgetPrompted s) (.pure _)

theorem wellFormed_setChoice (ch : ChoiceId) (g : Given) : Moves WellFormed (setChoice ch g) := by
  refine .bind .get fun c => .ite (.bind (wellFormed_markChoice _ _) fun _ => .pure _) ?_
  split
  · exact .bind (wellFormed_update fun _ => rfl) fun _ => .bind (wellFormed_markChoice _ _) fun _ =>
      .bind (wellFormed_forgetFrom _) fun _ => .pure _
  · exact wellFormed_refuse _ _

theorem wellFormed_unsetChoice (ch : ChoiceId) : Moves WellFormed (unsetChoice ch) :=
  .bind .get fun _ => .ite (.bind (wellFormed_update fun _ => rfl) fun _ =>
    .bind (wellFormed_update fun _ => rfl) fun _ => wellFormed_forgetFrom _) (.pure _)

/-! ### Lines -/

theorem wellFormed_noteRepeated (file : String) (line : Nat) (s : SymbolId) (value : String) :
    Moves WellFormed (noteRepeated file line s value) := by
  have hwarn : ∀ (b : Bool) (w : Warning), w.isMalformed = false →
      Moves WellFormed (if b then warnAt file line w else pure ()) := fun b w hw =>
    .ite (wellFormed_warnAt hw _ _) (.pure _)
  refine .bind .get fun c => ?_
  dsimp only
  split
  · exact .bind (.pure _) fun _ => hwarn _ _ rfl
  · split
    · exact .bind (.throw _) fun _ => hwarn _ _ rfl
    · exact .bind (.pure _) fun _ => hwarn _ _ rfl

theorem wellFormed_followMode (file : String) (line : Nat) (ch : ChoiceId) (value : String) :
    Moves WellFormed (followMode file line ch value) := by
  have hset : Moves WellFormed (do let _ ← setChoice ch (.text value) : Configuring Unit) :=
    .bind (wellFormed_setChoice ch _) fun _ => .pure _
  refine .bind .get fun c => ?_
  dsimp only
  split
  · split
    · exact .bind (wellFormed_warnAt rfl _ _) fun _ => hset
    · exact hset
  · exact hset

theorem wellFormed_assignedText? (file : String) (line : Nat) (s : SymbolId) (value : String) :
    Moves WellFormed (assignedText? file line s value) := by
  refine .bind .get fun c => ?_
  dsimp only
  split
  · refine .ite (.bind (wellFormed_warnAt rfl _ _) fun _ => .pure _) ?_
    split
    · exact .ite (.bind (wellFormed_followMode _ _ _ _) fun _ => .pure _) (.pure _)
    · exact .pure _
  · split
    · exact .pure _
    · exact .bind (wellFormed_warnAt rfl _ _) fun _ => .pure _
  · exact .pure _

theorem wellFormed_assign (file : String) (line : Nat) (s : SymbolId) (value : String) :
    Moves WellFormed (assign file line s value) := by
  have hset : Moves WellFormed (do let _ ← setSymbol s (.text value) : Configuring Unit) :=
    .bind (wellFormed_setSymbol s _) fun _ => .pure _
  refine .bind .get fun c => ?_
  split
  · exact .bind (wellFormed_noteRepeated file line s value) fun _ => hset
  · exact hset

theorem wellFormed_assignUndefined (file : String) (line : Nat) (name value : String) :
    Moves WellFormed (assignUndefined file line name value) :=
  .bind (wellFormed_update fun _ => rfl) fun _ =>
    .bind .get fun _ => .ite (wellFormed_warnAt rfl _ _) (.pure _)

/-- A line that is not malformed is not told to be. -/
theorem wellFormed_takeLine {settings : Settings} {line : List Char}
    (hline : ConfigLine.read settings.configPrefix line ≠ .malformed) (file : String) (number : Nat)
    {c : Configuration} (hc : c.settings = settings) :
    Yields (takeLine file number line) c fun _ => WellFormed c := by
  refine .bind_get ?_
  rw [hc]
  cases hread : ConfigLine.read settings.configPrefix line with
  | assign name value =>
    dsimp only
    split
    · exact wellFormed_assignUndefined _ _ _ _ c
    · refine Moves.yields (.bind (wellFormed_assignedText? _ _ _ _) fun text => ?_) c
      split
      · exact wellFormed_assign _ _ _ _
      · exact .pure _
  | unset name =>
    dsimp only
    split
    · exact wellFormed_assignUndefined _ _ _ _ c
    · exact Moves.yields (.ite (wellFormed_assign _ _ _ _) (.pure _)) c
  | ignored => exact Moves.yields (.pure _) c
  | malformed => exact absurd hread hline

section Files
variable {m : Model} {settings : Settings} {c : Configuration}

theorem wellFormed_takeLines (file : String) : ∀ (lines : List (List Char)) (number : Nat)
    {c : Configuration}, c.Ready m settings →
    (∀ line ∈ lines, ConfigLine.read settings.configPrefix line ≠ .malformed) →
    Yields (takeLines file number lines) c fun _ => WellFormed c
  | [], _, c, _, _ => Moves.yields (.pure _) c
  | line :: more, number, c, hc, hlines => by
    have hline := (wellFormed_takeLine (hlines line (List.mem_cons_self ..)) file number
      hc.proper.settings).keeping (keeps_takeLine (kept_ready m settings) file number line) hc
    refine .bind hline fun _ c₁ ⟨hc₁, hwell⟩ => ?_
    refine (wellFormed_takeLines file more (number + 1) hc₁ fun line' hline' =>
      hlines line' (List.mem_cons_of_mem _ hline')).mono fun _ c₂ hwell' => ?_
    exact Onward.trans hwell hwell'

theorem wellFormed_clearAssigned : Moves WellFormed clearAssigned :=
  .bind .get fun _ => .bind (wellFormed_update fun _ => rfl) fun _ =>
    .bind (.forM (fun _ => wellFormed_markSymbol _ _) _) fun _ =>
      .forM (fun _ => wellFormed_markChoice _ _) _

theorem wellFormed_unsetOthers : Moves WellFormed unsetOthers := by
  refine .bind .get fun c => .bind (.forIn (fun s _ => ?_) _ _) fun _ =>
    .bind (.forIn (fun ch _ => ?_) _ _) fun _ => .pure _
  · split
    · exact .pure _
    · exact .bind (wellFormed_unsetSymbol s) fun _ => .pure _
  · split
    · exact .pure _
    · exact .bind (wellFormed_unsetChoice ch) fun _ => .pure _

/-- Taking a file without malformed lines tells none. -/
theorem wellFormed_takeFile (hc : c.Ready m settings) {path : String} (replaces : Bool)
    (hlines : ∀ lines, c.linesOf? path = some lines →
      ∀ line ∈ lines, ConfigLine.read settings.configPrefix line ≠ .malformed) :
    Yields (takeFile path replaces) c fun _ => WellFormed c := by
  refine .bind (yields_openConfig path) fun (_, content) c' hopen => ?_
  obtain ⟨rfl, hopened⟩ := hopen
  have hrest : ∀ c₁ : Configuration, c₁.Ready m settings →
      Yields (takeContent path content replaces) c₁ fun _ => WellFormed c₁ := by
    intro c₁ hc₁
    cases hfault : content.decoded.fault with
    | some fault =>
      refine .bind (Q := fun _ _ => True) (fun _ _ _ => trivial) fun _ c₂ _ => ?_
      rw [hfault]
      exact .bind (.throw _) fun _ _ (h : False) => h.elim
    | none =>
      have hread : c'.linesOf? path = some content.decoded.lines := by
        rw [linesOf?, hopened]
        exact if_pos hfault
      refine .bind (wellFormed_takeLines path _ 1 hc₁ (hlines _ hread)) fun _ c₂ hwell => ?_
      rw [hfault]
      refine (Moves.yields (.ite wellFormed_unsetOthers (.pure _)) c₂).mono fun _ c₃ hwell' => ?_
      exact Onward.trans hwell hwell'
  cases replaces with
  | true =>
    refine .bind ((wellFormed_clearAssigned.yields c').keeping
      (keeps_clearAssigned (kept_ready m settings)) hc) fun _ c₁ hcleared => ?_
    obtain ⟨hc₁, hwell⟩ := hcleared
    exact (hrest c₁ hc₁).mono fun _ c₂ hwell' => Onward.trans hwell hwell'
  | false => exact hrest c' hc

/-- So it is when it is loaded as the configuration. -/
theorem wellFormed_loadConfig (hc : c.Ready m settings) {path : String} (replaces : Bool)
    (hlines : ∀ lines, c.linesOf? path = some lines →
      ∀ line ∈ lines, ConfigLine.read settings.configPrefix line ≠ .malformed) :
    Yields (loadConfig (some path) replaces) c fun _ => WellFormed c := by
  have htake : Yields (quietly (takeFile path replaces)) c fun _ => WellFormed c :=
    yields_quietly (wellFormed_takeFile (hc.warning false) replaces hlines)
  show Yields (quietly (takeFile path replaces) >>= fun _ => pure _) c _
  exact htake.bind fun _ _ hwell => .pure hwell

end Files

end Configuring
end Kconfig
