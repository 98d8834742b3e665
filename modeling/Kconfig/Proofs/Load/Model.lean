import Kconfig.Load.Model
import Kconfig.Proofs.Config.Coherence
import Kconfig.Proofs.Reading.Confined
import Kconfig.Proofs.Model.Settled
import Kconfig.Proofs.Reading.Files
import Kconfig.Proofs.Reading.Parsed
/-!
What loading gives.

A model that loads was read from the top file on, settled, and checked; the checks tell what they
find and change nothing. The configuration that comes with it has no user values and remembers
nothing, so it is coherent.
-/
namespace Kconfig
open Reading

namespace Load

/-- The model that reading starts with is raw. -/
theorem raw_start (host : Host) (options : LoadOptions) (version : Int) :
    (start host options version).model.Raw := by
  have hsymbol : ∀ s, (start host options version).model.symbol s = Model.empty.symbol s :=
    fun _ => rfl
  have hsymbols : ∀ s, s = noId ∨ s = yesId ∨ Model.empty.symbol s = default := by
    intro s
    match s with
    | 0 => exact .inl rfl
    | 1 => exact .inr (.inl rfl)
    | s + 2 => exact .inr (.inr rfl)
  have hplaces : ∀ i : Item, ∀ e : Entry, e.item? = some i →
      placesIn (start host options version).model.entries e = [] := by
    intro i e he
    refine placesIn_eq_nil.mpr fun hmem => ?_
    obtain rfl := List.mem_singleton.mp hmem
    exact nomatch he
  refine ⟨rfl, rfl, rfl, fun s t hs ht hname _ => ?_, fun s => ?_, fun c => ?_, rfl, rfl,
    fun s hs => absurd (List.mem_singleton.mp hs) nofun,
    fun c hc => absurd (List.mem_singleton.mp hc) nofun, fun s hs => ?_, fun s => ?_, fun c => ⟨rfl, rfl, rfl⟩, rfl,
    fun n hn => ?_, fun s hs hconst => ?_⟩
  · have hs : s < 2 := hs
    have ht : t < 2 := ht
    rw [hsymbol, hsymbol] at hname
    rcases (by omega : s = 0 ∨ s = 1) with rfl | rfl <;>
      rcases (by omega : t = 0 ∨ t = 1) with rfl | rfl <;> first | rfl | exact absurd hname (by decide)
  · rw [hplaces _ _ rfl, hsymbol]
    rcases hsymbols s with rfl | rfl | heq
    · rfl
    · rfl
    · rw [heq]
      rfl
  · rw [hplaces _ _ rfl]
    rfl
  · rw [hsymbol] at hs
    rcases hsymbols s with rfl | rfl | heq
    · exact .inl rfl
    · exact .inr (.inl rfl)
    · rw [heq] at hs
      exact absurd rfl hs
  · rw [hsymbol]
    rcases hsymbols s with rfl | rfl | heq
    · exact ⟨rfl, rfl, rfl, rfl, rfl, rfl, rfl, rfl⟩
    · exact ⟨rfl, rfl, rfl, rfl, rfl, rfl, rfl, rfl⟩
    · rw [heq]
      exact ⟨rfl, rfl, rfl, rfl, rfl, rfl, rfl, rfl⟩
  · match n with
    | 0 => exact nomatch hn
    | _ + 1 => exact nomatch hn
  · have hs : s < 2 := hs
    rw [hsymbol] at hconst
    rcases (by omega : s = 0 ∨ s = 1) with rfl | rfl <;> exact absurd hconst (by decide)

theorem dialectOf_sound {host : Host} {version : Int} {dialect : Dialect}
    (h : dialectOf host version = .ok dialect) : dialect.Sound := by
  unfold dialectOf at h
  split at h
  · obtain rfl := Except.ok.inj h
    exact Dialect.tokens_sound
  · split at h
    · obtain rfl := Except.ok.inj h
      exact Dialect.forms_sound _
    · exact nomatch h

end Load

namespace Reading
variable {m : Model}

/-! ### Checks -/

/-- Nothing but the journal is new. -/
def Told (w w' : Workspace) : Prop := ∃ journal, w' = { w with journal }

/-- The action tells something at most, or fails for a reason that concerns no line. -/
abbrev Tells (before : Workspace) {α : Type} (action : Reading α) : Prop :=
  Guards (Told before) (fun failure _ => failure.IsGeneral) action

variable {before : Workspace} {α : Type}

theorem Told.told {w : Workspace} {journal : Journal} (h : Told before w) :
    Told before { w with journal } := by
  obtain ⟨_, rfl⟩ := h
  exact ⟨journal, rfl⟩

theorem tells_fatal {error : Fatal} (h : (Failure.fatal error).IsGeneral) :
    Tells before (fatal error : Reading α) := .throw fun _ _ => h

theorem tells_warn (warning : Warning) : Tells before (warn warning) := .update fun _ => .told

theorem tells_checkTargets (owner verb : String) (targets : List (Guarded SymbolId)) :
    Tells before (checkTargets m owner verb targets) :=
  .forM (fun _ => .ite (.pure _) (tells_warn _)) targets

theorem tells_checkDefault (owner : String) (type : ValueType) (p : Guarded Expr) :
    Tells before (checkDefault m owner type p) := by
  unfold checkDefault
  split
  · dsimp only
    refine .ite (.ite (tells_warn _) (.pure _)) (.ite (.pure _) (tells_warn _))
  · exact tells_fatal ⟨trivial, rfl⟩

theorem tells_checkRanges (owner : String) (sym : Symbol) :
    Tells before (checkRanges m owner sym) := by
  have hranges : Tells before (do
      for p in sym.ranges do
        unless fitsNumber m sym.type p.value.low && fitsNumber m sym.type p.value.high do
          warn (.rangeNotNumber sym.type.word owner (m.owner (.symbol p.value.low))
            (m.owner (.symbol p.value.high)))) :=
    .bind (.forIn (fun _ _ => .ite (.pure _) (.bind (tells_warn _) fun _ => .pure _)) _ _)
      fun _ => .pure _
  exact .ite (.pure _) (.ite (tells_warn _) hranges)

theorem tells_checkSymbol (s : SymbolId) : Tells before (checkSymbol m s) := by
  unfold checkSymbol
  dsimp only
  split
  · exact .bind (tells_checkTargets _ _ _) fun _ => .bind (tells_checkTargets _ _ _) fun _ =>
      tells_checkRanges _ _
  · exact .bind (tells_warn _) fun _ => tells_checkRanges _ _
  · exact .bind (.forM (fun _ => tells_checkDefault _ _ _) _) fun _ =>
      .ite (tells_checkRanges _ _) (.bind (tells_warn _) fun _ => tells_checkRanges _ _)

theorem tells_checkForced (owner verb : String) (dep : Expr) :
    Tells before (checkForced m owner verb dep) := .ite (.pure _) (tells_warn _)

theorem tells_checkMember (c : ChoiceId) (s : SymbolId) : Tells before (checkMember m c s) := by
  have hnodes : Tells before (do
      checkForced m (m.owner (.symbol s)) "selected" (m.symbol s).revDep
      checkForced m (m.owner (.symbol s)) "implied" (m.symbol s).weakRevDep
      for n in (m.symbol s).nodes do
        let node := m.node n
        let parent : Option Entry := (m.linksOf n).parent.map fun p => (m.node p).entry
        if parent = some (.choice c) then
          if node.prompt.isNone then warn (.memberWithoutPrompt (m.owner (.symbol s)))
        else if node.prompt.isSome then warn (.memberPromptOutside (m.owner (.symbol s)))) := by
    refine .bind (tells_checkForced _ _ _) fun _ => .bind (tells_checkForced _ _ _) fun _ =>
      .bind (.forIn (fun _ _ => ?_) _ _) fun _ => .pure _
    exact .ite (.ite (.bind (tells_warn _) fun _ => .pure _) (.pure _))
      (.ite (.bind (tells_warn _) fun _ => .pure _) (.pure _))
  exact .ite hnodes (.bind (tells_warn _) fun _ => hnodes)

/-- The end of the checks of a choice: of its defaults, and of its members. -/
def checkSymbols (m : Model) (c : ChoiceId) : Reading Unit := do
  for p in (m.choice c).defaults do
    match p.value with
    | .item (.symbol s) =>
      if (m.symbol s).choice ≠ some c then
        warn (.defaultOutsideChoice (m.owner (.symbol s)) (m.owner (.choice c)))
    | e => fatal (.badChoiceDefault (m.owner (.choice c)) (m.exprText e))
  (m.choice c).members.forM (checkMember m c)

theorem tells_checkChoice (c : ChoiceId) : Tells before (checkChoice m c) := by
  have hdefaults : Tells before (checkSymbols m c) := by
    refine .bind (.forIn (fun p _ => ?_) _ _) fun _ => .forM (tells_checkMember c) _
    split
    · exact .ite (.bind (tells_warn _) fun _ => .pure _) (.pure _)
    · exact .bind (tells_fatal ⟨trivial, rfl⟩) fun _ => .pure _
  have hprompt : Tells before (do
      unless (m.choice c).nodes.any fun n => (m.node n).prompt.isSome do
        warn (.choiceWithoutPrompt (m.owner (.choice c)))
      checkSymbols m c) :=
    .ite hdefaults (.bind (tells_warn _) fun _ => hdefaults)
  exact .ite (.bind (tells_warn _) fun _ => hprompt) hprompt

theorem tells_reportRepeated (kind name shown : String) (places : List String) :
    Tells before (reportRepeated kind name shown places) := .update fun _ => .told

theorem tells_checkRepeated : Tells before (checkRepeated m) :=
  .bind .get fun _ =>
    .bind (.forIn (fun _ _ => .ite (.bind (tells_reportRepeated _ _ _ _) fun _ => .pure _)
      (.pure _)) _ _) fun _ =>
    .bind (.forIn (fun _ _ => .ite (.bind (tells_reportRepeated _ _ _ _) fun _ => .pure _)
      (.pure _)) _ _) fun _ => .pure _

theorem tells_checkUndefined : Tells before (checkUndefined m) :=
  .bind (.forIn (fun _ _ => .ite (.bind (tells_warn _) fun _ => .pure _) (.pure _)) _ _)
    fun _ => .pure _

/-- The checks tell what they find, and change nothing. -/
theorem tells_checkModel : Tells before checkModel :=
  .bind .get fun _ => .bind (.forM tells_checkSymbol _) fun _ =>
    .bind (.forM tells_checkChoice _) fun _ => .bind tells_checkRepeated fun _ =>
    .ite tells_checkUndefined (.pure _)

theorem aside_checkModel : Moves Aside checkModel := by
  intro w a w' h
  obtain ⟨journal, rfl⟩ := (tells_checkModel w ⟨w.journal, rfl⟩).of_ok h
  exact ⟨rfl, rfl, rfl⟩

end Reading

namespace Load
variable {host : Host} {options : LoadOptions} {c : Configuration} {w : Workspace}

/-- The model and the blocks that reading the files gives. -/
theorem read_of_readFiles {dialect : Dialect} (hdialect : dialect.Sound) {name : String}
    {w w' : Workspace} {blocks : List Tree} (hw : Ready w) (hstart : w.model.entries.length = 1)
    (h : readFiles dialect name w = .ok blocks w') : w'.model.Read blocks := by
  obtain ⟨hgrew, hids, hblocks⟩ := readFiles_ok hdialect hw h
  refine ⟨hgrew.ready.raw, ?_, fun n hn => ?_⟩
  · rw [hids, addedNodes, hstart, Model.length_entries]
  · obtain ⟨e, he, hsymbol⟩ := hblocks n hn
    have hentry := Model.entry_of_lt (List.getElem?_eq_some_iff.mp he).1
    rw [Model.symbolOf?]
    rw [Option.some.inj (hentry.symm.trans he)]
    cases e <;> first | rfl | cases hsymbol

/-- A model that reading gives was read from the files and settled, and has no loop that is found. -/
theorem readModel_ok {dialect : Dialect} (hdialect : dialect.Sound) {name : String}
    {w w' : Workspace} (hw : Ready w) (hstart : w.model.entries.length = 1)
    (h : readModel dialect name w = .ok () w') :
    w'.isOpen = false ∧ ∃ m : Model, m.Settles w'.model ∧
      w'.model.findLoop? w'.model.readers = none := by
  obtain ⟨table, w₁, hlinks, h⟩ := bind_ok h
  obtain ⟨blocks, hfiles, hconnects⟩ := readFiles_of_readLinks hlinks
  have hread := read_of_readFiles hdialect hw hstart hfiles
  obtain ⟨m, hfinalize, hsettles⟩ := hread.finalize_withLinks hconnects
  obtain ⟨_, _, hget, h⟩ := bind_ok h
  injection hget with h₁ h₂
  subst h₁ h₂
  rw [hfinalize] at h
  obtain ⟨_, w₂, hsettle, h⟩ := bind_ok h
  injection hsettle with _ hw₂
  subst hw₂
  obtain ⟨_, w₃, hcheck, h⟩ := bind_ok h
  have haside := aside_checkModel _ _ _ hcheck
  obtain ⟨_, _, hget, h⟩ := bind_ok h
  injection hget with h₁ h₂
  subst h₁ h₂
  dsimp only at h
  cases hloop : w₃.model.findLoop? w₃.model.readers with
  | some loop =>
    rw [hloop] at h
    exact nomatch h
  | none =>
    rw [hloop] at h
    injection h with _ hw'
    subst hw'
    have hmodel : w₃.model = m := haside.model
    exact ⟨haside.isOpen, _, hmodel ▸ hsettles, hloop⟩

theorem prepared_ok {version : Int} {dialect : Dialect}
    (h : prepared host options = .ok (version, dialect)) :
    versionFor host options.version = .ok version ∧ dialectOf host version = .ok dialect := by
  unfold prepared at h
  cases hversion : versionFor host options.version with
  | error failure =>
    rw [hversion] at h
    exact nomatch h
  | ok version' =>
    rw [hversion] at h
    dsimp only [bind, Except.bind] at h
    cases hdialect : dialectOf host version' with
    | error failure =>
      rw [hdialect] at h
      exact nomatch h
    | ok dialect' =>
      rw [hdialect] at h
      dsimp only at h
      cases hmark : checkMark host with
      | error failure =>
        rw [hmark] at h
        exact nomatch h
      | ok _ =>
        rw [hmark] at h
        cases h
        exact ⟨rfl, hdialect⟩

/-- A configuration is loaded by reading a model in the dialect of a version. -/
theorem readModel_of_load (h : load host options = .ok c w) : ∃ version dialect,
    versionFor host options.version = .ok version ∧ dialectOf host version = .ok dialect ∧
      readModel dialect options.name (start host options version) = .ok () w ∧
      c = .ofWorkspace w := by
  unfold load at h
  cases hprepared : prepared host options with
  | error failure =>
    rw [hprepared] at h
    exact nomatch h
  | ok pair =>
    obtain ⟨version, dialect⟩ := pair
    obtain ⟨hversion, hdialect⟩ := prepared_ok hprepared
    rw [hprepared] at h
    dsimp only at h
    cases hread : readModel dialect options.name (start host options version) with
    | error failure w' =>
      rw [EStateM.run, hread] at h
      exact nomatch h
    | ok _ w' =>
      rw [EStateM.run, hread] at h
      injection h with hc hw
      subst hc hw
      exact ⟨version, dialect, hversion, hdialect, hread, rfl⟩

/-- What a loaded configuration is. -/
theorem load_ok (h : load host options = .ok c w) :
    ∃ m : Model, m.Settles w.model ∧ w.model.findLoop? w.model.readers = none ∧
      c = .ofWorkspace w := by
  obtain ⟨version, dialect, -, hdialect, hread, hc⟩ := readModel_of_load h
  have hready : Ready (start host options version) := ⟨rfl, raw_start host options version⟩
  obtain ⟨-, m, hsettles, hloop⟩ := readModel_ok (dialectOf_sound hdialect) hready rfl hread
  exact ⟨m, hsettles, hloop, hc⟩

theorem eq_ofWorkspace_of_load (h : load host options = .ok c w) : c = .ofWorkspace w := by
  obtain ⟨-, -, -, hc⟩ := load_ok h
  exact hc

/-- No loop is found in a loaded model. -/
theorem noLoop_of_load (h : load host options = .ok c w) :
    w.model.findLoop? w.model.readers = none := by
  obtain ⟨-, -, hloop, -⟩ := load_ok h
  exact hloop

/-- After loading no file is read any more. -/
theorem isOpen_of_load (h : load host options = .ok c w) : w.isOpen = false := by
  obtain ⟨version, dialect, -, hdialect, hread, -⟩ := readModel_of_load h
  have hready : Ready (start host options version) := ⟨rfl, raw_start host options version⟩
  exact (readModel_ok (dialectOf_sound hdialect) hready rfl hread).1

/-- A loaded model is sound. -/
theorem sound_of_load (h : load host options = .ok c w) : w.model.Sound := by
  obtain ⟨m, hsettles, -, -⟩ := load_ok h
  exact hsettles.sound

/-- A loaded model has its symbols in the menu tree, and finds them by name. -/
theorem listed_of_load (h : load host options = .ok c w) : w.model.Listed := by
  obtain ⟨m, hsettles, -, -⟩ := load_ok h
  exact hsettles.listed

/-- No symbol has a user value at first. -/
theorem value_ofWorkspace (w : Workspace) (s : SymbolId) :
    (Configuration.ofWorkspace w).user.value s = none := by
  simp only [UserValues.value, Configuration.ofWorkspace, Array.getElem?_replicate]
  split <;> rfl

/-- No choice has a user selection at first. -/
theorem selection_ofWorkspace (w : Workspace) (d : ChoiceId) :
    (Configuration.ofWorkspace w).user.selection d = none := by
  simp only [UserValues.selection, Configuration.ofWorkspace, Array.getElem?_replicate]
  split <;> rfl

/-- Nothing is given and nothing is remembered at first. -/
theorem coherent_of_load (h : load host options = .ok c w) : c.Coherent w.model := by
  obtain rfl := eq_ofWorkspace_of_load h
  refine ⟨rfl, rfl, ⟨fun s v hv => ?_, fun d s hs => ?_⟩, fun v _ => Evaluating.coherent_empty⟩
  · rw [value_ofWorkspace] at hv
    exact nomatch hv
  · rw [selection_ofWorkspace] at hs
    exact nomatch hs

end Load
end Kconfig
