import Kconfig.Proofs.Model.Raw
import Kconfig.Proofs.Reading.Macros
import Kconfig.Proofs.Reading.Property
/-!
Names and properties keep the model raw.

Reading a name may add a symbol, and a property changes the inside of a node, or the symbol or
choice that the node is about. No such step adds a node, so the entries stay the same.
-/
namespace Kconfig

/-- Reading goes on: names can be added, and the model is raw. -/
structure Ready (w : Workspace) : Prop where
  isOpen : w.isOpen = true
  raw : w.model.Raw

/-- Reading went on with the same entries, and with all the symbols that there were. -/
abbrev WentOn (w w' : Workspace) : Prop :=
  Ready w' ∧ w'.model.entries = w.model.entries ∧ w.model.symbols.size ≤ w'.model.symbols.size

theorem WentOn.trans {w w' w'' : Workspace} (h : WentOn w w') (h' : WentOn w' w'') :
    WentOn w w'' := ⟨h'.1, h'.2.1.trans h.2.1, Nat.le_trans h.2.2 h'.2.2⟩

/-- Under a condition on the entries, the model stays raw, keeps its entries, and keeps its
symbols. -/
def SteadyIf (P : List Entry → Prop) (w w' : Workspace) : Prop :=
  Ready w → P w.model.entries → WentOn w w'

instance (P : List Entry → Prop) : Onward (SteadyIf P) where
  refl _ h _ := ⟨h, rfl, Nat.le_refl _⟩
  trans h h' hw hP := by
    have hwent := h hw hP
    exact hwent.trans (h' hwent.1 (hwent.2.1 ▸ hP))

/-- The model stays raw, keeps its entries, and keeps its symbols. -/
abbrev Steady : Workspace → Workspace → Prop := SteadyIf fun _ => True

theorem Aside.steadyIf {P : List Entry → Prop} {w w' : Workspace} (h : Aside w w') :
    SteadyIf P w w' := by
  intro hw _
  refine ⟨⟨h.isOpen.trans hw.isOpen, h.model ▸ hw.raw⟩, ?_⟩
  rw [h.model]
  exact ⟨rfl, Nat.le_refl _⟩

namespace Reading
variable {α β : Type} {P : List Entry → Prop}

theorem steady_of_aside {action : Reading α} (h : Moves Aside action) :
    Moves (SteadyIf P) action := h.mono fun _ _ => Aside.steadyIf

theorem steadyIf_of_steady {action : Reading α} (h : Moves Steady action) :
    Moves (SteadyIf P) action := h.mono fun _ _ h hw _ => h hw trivial

theorem steady_problem (p : Problem) : Moves (SteadyIf P) (problem p : Reading α) :=
  steady_of_aside (aloof_problem p).aside

theorem steady_modifyModel {f : Model → Model}
    (h : ∀ m : Model, m.Raw → P m.entries → (f m).Raw ∧ (f m).entries = m.entries ∧
      m.symbols.size ≤ (f m).symbols.size) : Moves (SteadyIf P) (modifyModel f) := by
  refine .update fun w hw hP => ?_
  obtain ⟨hraw, hrest⟩ := h w.model hw.raw hP
  exact ⟨⟨hw.isOpen, hraw⟩, hrest⟩

/-! ### Names -/

/-- A new name gives a new symbol. -/
theorem addSymbol_ok {name : String} {isConstant : Bool} {w w' : Workspace} {s : SymbolId}
    (hw : Ready w) (hnew : w.model.find? name isConstant = none)
    (hname : isConstant = false → name ≠ "n" ∧ name ≠ "y")
    (h : addSymbol name isConstant w = .ok s w') :
    WentOn w w' ∧ s < w'.model.symbols.size ∧ (w'.model.symbol s).isConstant = isConstant := by
  have hmodel : s = w.model.symbols.size ∧
      w' = { w with model := w.model.withSymbol name isConstant } := by
    have h' : (EStateM.Result.ok w.model.symbols.size { w with model :=
      { w.model with
        symbols := w.model.symbols.push { name, isConstant }
        known := if w.isOpen then w.model.known + 1 else w.model.known } } :
          EStateM.Result Failure Workspace SymbolId) = .ok s w' := h
    rw [if_pos hw.isOpen] at h'
    injection h' with hs hw'
    exact ⟨hs.symm, hw'.symm⟩
  obtain ⟨rfl, rfl⟩ := hmodel
  have hsize : (w.model.withSymbol name isConstant).symbols.size = w.model.symbols.size + 1 :=
    Array.size_push ..
  refine ⟨⟨⟨hw.isOpen, hw.raw.withSymbol hnew hname⟩, rfl, ?_⟩, ?_, ?_⟩
  · exact hsize ▸ Nat.le_succ _
  · exact hsize ▸ Nat.lt_succ_self _
  · show ((w.model.withSymbol name isConstant).symbol w.model.symbols.size).isConstant = _
    rw [Model.symbol_withSymbol, if_pos rfl]

/-- A name gives a symbol of the model that is no constant. -/
theorem symbol_ok {name : String} {w w' : Workspace} {s : SymbolId} (hw : Ready w)
    (hname : name ≠ "n" ∧ name ≠ "y") (h : symbol name w = .ok s w') :
    WentOn w w' ∧ s < w'.model.symbols.size ∧ (w'.model.symbol s).isConstant = false := by
  obtain ⟨_, _, hget, h⟩ := bind_ok h
  cases hget
  cases hfind : w.model.find? name false with
  | some t =>
    rw [hfind] at h
    cases h
    obtain ⟨hlt, -, hconst⟩ := Model.find?_eq_some hfind
    rw [hw.raw.known] at hlt
    exact ⟨⟨hw, rfl, Nat.le_refl _⟩, hlt, hconst⟩
  | none =>
    rw [hfind, hw.isOpen] at h
    exact addSymbol_ok hw hfind (fun _ => hname) h

/-- A text gives a symbol of the model. -/
theorem constant_ok {text : String} {w w' : Workspace} {s : SymbolId} (hw : Ready w)
    (h : constant text w = .ok s w') :
    WentOn w w' ∧ s < w'.model.symbols.size := by
  obtain ⟨_, _, hget, h⟩ := bind_ok h
  cases hget
  cases hfind : w.model.find? text true with
  | some t =>
    rw [hfind] at h
    cases h
    have hlt := (Model.find?_eq_some hfind).1
    rw [hw.raw.known] at hlt
    exact ⟨⟨hw, rfl, Nat.le_refl _⟩, hlt⟩
  | none =>
    rw [hfind] at h
    obtain ⟨hsteady, hlt, -⟩ := addSymbol_ok hw hfind (absurd · (by decide)) h
    exact ⟨hsteady, hlt⟩

/-- A word gives a symbol of the model. -/
theorem word_ok {name : String} {w w' : Workspace} {s : SymbolId} (hw : Ready w)
    (h : word name w = .ok s w') :
    WentOn w w' ∧ s < w'.model.symbols.size := by
  have htwo := hw.raw.two_le
  unfold word at h
  split at h
  · obtain ⟨rfl, rfl⟩ : noId = s ∧ w = w' := by
      injection h with hs hw'
      exact ⟨hs, hw'⟩
    exact ⟨⟨hw, rfl, Nat.le_refl _⟩, Nat.lt_of_lt_of_le Nat.zero_lt_two htwo⟩
  · next hno =>
    split at h
    · obtain ⟨rfl, rfl⟩ : yesId = s ∧ w = w' := by
        injection h with hs hw'
        exact ⟨hs, hw'⟩
      exact ⟨⟨hw, rfl, Nat.le_refl _⟩, Nat.lt_of_lt_of_le Nat.one_lt_two htwo⟩
    · next hyes =>
      obtain ⟨hsteady, hlt, -⟩ := symbol_ok hw ⟨hno, hyes⟩ h
      exact ⟨hsteady, hlt⟩

theorem steady_symbol {name : String} (hname : name ≠ "n" ∧ name ≠ "y") :
    Moves Steady (symbol name) := fun _ _ _ h hw _ => (symbol_ok hw hname h).1

theorem steady_constant (text : String) : Moves Steady (constant text) :=
  fun _ _ _ h hw _ => (constant_ok hw h).1

theorem steady_word (name : String) : Moves Steady (word name) :=
  fun _ _ _ h hw _ => (word_ok hw h).1

end Reading

/-! ### Statements -/

structure PromptPart.Sound (part : PromptPart) : Prop where
  text : Moves Steady part.text
  cond : Moves Steady part.cond

/-- The parts of a statement are steady, and the name of an entry is that of a symbol that is no
constant; `known` symbols were there when the statement was read. -/
def Statement.Sound (known : Nat) : Statement → Prop
  | .config _ name => ∀ w s w', Ready w → known ≤ w.model.symbols.size → name w = .ok s w' →
      WentOn w w' ∧ s < w'.model.symbols.size ∧ (w'.model.symbol s).isConstant = false
  | .menu text | .comment text | .mainmenu text | .source _ _ text => Moves Steady text
  | .choice name => Moves Steady name
  | .block cond | .depends cond | .visible cond => Moves Steady cond
  | .close _ tail => Moves Steady tail
  | .type _ shown => ∀ part, shown = some part → part.Sound
  | .prompt part => part.Sound
  | .select target cond | .imply target cond => Moves Steady target ∧ Moves Steady cond
  | .default value cond => Moves Steady value ∧ Moves Steady cond
  | .range bounds cond => Moves Steady bounds ∧ Moves Steady cond
  | .option part => Moves Steady part
  | .stray | .optional | .help => True

namespace Reading
variable {α β : Type} {P : List Entry → Prop} {n : NodeId}

/-! ### Properties -/

/-- The node exists and is no block. -/
def HasNode (n : NodeId) (es : List Entry) : Prop := ∃ e, es[n]? = some e ∧ e ≠ .block

theorem HasNode.lt {es : List Entry} (h : HasNode n es) : n < es.length := by
  obtain ⟨e, he, -⟩ := h
  exact (List.getElem?_eq_some_iff.mp he).1

theorem HasNode.mono {es es' : List Entry} (h : HasNode n es) (hstarts : es <+: es') :
    HasNode n es' := by
  obtain ⟨e, he, hblock⟩ := h
  obtain ⟨more, rfl⟩ := hstarts
  exact ⟨e, List.getElem?_append_left (List.getElem?_eq_some_iff.mp he).1 ▸ he, hblock⟩

theorem HasNode.entry {m : Model} (h : HasNode n m.entries) : (m.node n).entry ≠ .block := by
  obtain ⟨e, he, hblock⟩ := h
  rw [Model.entry_of_lt (List.getElem?_eq_some_iff.mp he).1] at he
  exact Option.some.inj he ▸ hblock

/-- Some node is about the item. -/
def HasItem (i : Item) (es : List Entry) : Prop := ∃ e ∈ es, e.item? = some i

theorem steady_modifyNode {f : MenuNode → MenuNode}
    (hf : ∀ node, (f node).entry = node.entry ∧ (f node).prompt = node.prompt) :
    Moves (SteadyIf P) (modifyNode n f) :=
  steady_modifyModel fun _ hm _ => ⟨hm.setNode (fun node => (hf node).1) fun _ node => (hf node).2,
    Model.entries_setNode fun node => (hf node).1, Nat.le_refl _⟩

/-- A node that is no block may get a prompt. -/
theorem steady_titleNode {f : MenuNode → MenuNode} (hf : ∀ node, (f node).entry = node.entry) :
    Moves (SteadyIf (HasNode n)) (modifyNode n f) :=
  steady_modifyModel fun _ hm hn => ⟨hm.setNode hf fun hblock => absurd hblock hn.entry,
    Model.entries_setNode hf, Nat.le_refl _⟩

/-- What is done with the item of a node may use that some node is about it. -/
theorem steady_bind_itemOf {next : Item → Reading α}
    (h : ∀ i, Moves (SteadyIf (HasItem i)) (next i)) :
    Moves (SteadyIf (HasNode n)) (itemOf n >>= next) := by
  intro w a w' ha hw hn
  obtain ⟨i, w₁, hitem, hnext⟩ := bind_ok ha
  obtain ⟨rfl, he⟩ := itemOf_ok hitem
  exact h i _ a w' hnext hw ⟨_, Model.entry_mem hn.lt, he⟩

theorem aside_itemOf : Moves Aside (itemOf n) := by
  refine .bind .get fun w => ?_
  split
  · exact .pure _
  · exact .throw _

theorem aside_warnOwner (warning : String → Warning) : Moves Aside (warnOwner n warning) :=
  .bind aside_itemOf fun _ => .bind .get fun _ => aside_warn _

theorem entry_of_item? {e : Entry} {s : SymbolId} (h : e.item? = some (.symbol s)) :
    e = .symbol s := by
  cases e with
  | symbol t => exact congrArg Entry.symbol (Item.symbol.inj (Option.some.inj h))
  | choice c => exact nomatch Option.some.inj h
  | menu => exact nomatch h
  | comment => exact nomatch h
  | block => exact nomatch h

theorem HasItem.mem_symbol {s : SymbolId} {es : List Entry} (h : HasItem (.symbol s) es) :
    .symbol s ∈ es := by
  obtain ⟨e, he, hitem⟩ := h
  rw [← entry_of_item? hitem]
  exact he

theorem size_setSymbol (m : Model) (s : SymbolId) (f : Symbol → Symbol) :
    m.symbols.size ≤ (m.setSymbol s f).symbols.size :=
  Nat.le_of_eq (show (m.symbols.modify s f).size = m.symbols.size from Array.size_modify).symm

theorem steady_setType (t : ValueType) : Moves (SteadyIf (HasNode n)) (setType n t) := by
  refine steady_bind_itemOf fun i => .bind .get fun w => ?_
  have hchange : Moves (SteadyIf (HasItem i)) (modifyModel (retyped i t)) := by
    refine steady_modifyModel fun m hm hi => ?_
    cases i with
    | symbol s =>
      refine ⟨hm.setSymbol hi.mem_symbol (fun _ => ⟨rfl, rfl⟩) (fun _ => rfl) fun sym h => ?_, rfl,
        size_setSymbol _ _ _⟩
      exact ⟨h.1, h.2, h.3, h.4, h.5, h.6, h.7, h.8⟩
    | choice c =>
      refine ⟨hm.setChoice (fun _ => rfl) fun ch h => ?_, rfl, Nat.le_refl _⟩
      exact ⟨h.1, h.2, h.3⟩
  exact .ite (.bind (steady_of_aside (aside_warnOwner _)) fun _ => hchange) hchange

theorem steady_setPrompt {part : PromptPart} (h : part.Sound) :
    Moves (SteadyIf (HasNode n)) (setPrompt n part) := by
  have hcond : ∀ text, Moves (SteadyIf (HasNode n)) (do
      let cond ← part.cond
      modifyNode n ({ · with prompt := some ⟨Text.trimmed text, cond⟩ })) := fun text =>
    .bind (steadyIf_of_steady h.cond) fun _ => steady_titleNode fun _ => rfl
  have htext : Moves (SteadyIf (HasNode n)) (do
      let text ← part.text
      if Text.trimmed text ≠ text then warnOwner n .promptBlanks
      let cond ← part.cond
      modifyNode n ({ · with prompt := some ⟨Text.trimmed text, cond⟩ })) :=
    .bind (steadyIf_of_steady h.text) fun text =>
      .ite (.bind (steady_of_aside (aside_warnOwner _)) fun _ => hcond text) (hcond text)
  exact .bind .get fun _ =>
    .ite (.bind (steady_of_aside (aside_warnOwner _)) fun _ => htext) htext

theorem steady_setEnvVar (name : String) : Moves (SteadyIf (HasNode n)) (setEnvVar n name) := by
  refine steady_bind_itemOf fun i => .bind .get fun w => ?_
  have htail : ∀ own, Moves (SteadyIf (HasItem i))
      (takeVariable n name (shownName w.model i) own) := by
    intro own
    have hend : Moves (SteadyIf (HasItem i)) (if own ≠ some name then
        warnHere (.renamedVariable (shownName w.model i) name) else pure ()) :=
      .ite (steady_of_aside (aloof_warnHere _).aside) (.pure _)
    refine .bind .get fun w' => ?_
    dsimp only
    split
    · exact .bind (steadyIf_of_steady (steady_constant _)) fun _ =>
        .bind (steady_modifyNode fun _ => ⟨rfl, rfl⟩) fun _ => hend
    · exact .bind (steady_of_aside (aloof_warnHere _).aside) fun _ => hend
  cases i with
  | symbol s =>
    refine .bind (steady_modifyModel fun m hm hi => ?_) fun _ => htail _
    refine ⟨hm.setSymbol hi.mem_symbol (fun _ => ⟨rfl, rfl⟩) (fun _ => rfl) fun sym h => ?_, rfl,
      size_setSymbol _ _ _⟩
    exact ⟨h.1, h.2, h.3, h.4, h.5, h.6, h.7, h.8⟩
  | choice c => exact htail _

/-- An option that only symbols take changes the symbol of the node. -/
theorem steady_setDefconfigList : Moves (SteadyIf P) (setDefconfigList n) := by
  refine .bind .get fun w => ?_
  dsimp only
  split
  · refine steady_modifyModel fun m hm _ => ⟨hm.congr rfl rfl rfl rfl rfl rfl hm.untitled, rfl,
      Nat.le_refl _⟩
  · split
    · exact steady_of_aside (aloof_warnHere _).aside
    · exact .throw _

theorem steady_needSymbol (p : Problem) : Moves (SteadyIf P) (needSymbol n p) := by
  refine .bind .get fun w => ?_
  split
  · exact .pure _
  · exact steady_problem p

/-- A property of sound parts keeps the model raw. -/
theorem steady_addProperty {known : Nat} {statement : Statement} (h : statement.Sound known) :
    Moves (SteadyIf (HasNode n)) (addProperty n statement) := by
  cases statement with
  | type t prompt =>
    refine .bind (steady_setType t) fun _ => ?_
    cases prompt with
    | none => exact .pure _
    | some part => exact steady_setPrompt (h part rfl)
  | prompt part => exact steady_setPrompt h
  | depends cond =>
    exact .bind (steadyIf_of_steady h) fun _ => steady_modifyNode fun _ => ⟨rfl, rfl⟩
  | visible cond =>
    exact .bind (steadyIf_of_steady h) fun _ => steady_modifyNode fun _ => ⟨rfl, rfl⟩
  | select target cond =>
    exact .bind (steady_needSymbol _) fun _ => .bind (steadyIf_of_steady h.1) fun _ =>
      .bind (steadyIf_of_steady h.2) fun _ => steady_modifyNode fun _ => ⟨rfl, rfl⟩
  | imply target cond =>
    exact .bind (steady_needSymbol _) fun _ => .bind (steadyIf_of_steady h.1) fun _ =>
      .bind (steadyIf_of_steady h.2) fun _ => steady_modifyNode fun _ => ⟨rfl, rfl⟩
  | default value cond =>
    exact .bind (steadyIf_of_steady h.1) fun _ => .bind (steadyIf_of_steady h.2) fun _ =>
      steady_modifyNode fun _ => ⟨rfl, rfl⟩
  | range bounds cond =>
    exact .bind (steadyIf_of_steady h.1) fun _ => .bind (steadyIf_of_steady h.2) fun _ =>
      steady_modifyNode fun _ => ⟨rfl, rfl⟩
  | option part =>
    refine .bind (steadyIf_of_steady h) fun part => ?_
    cases part with
    | env name => exact steady_setEnvVar name
    | defconfigList => exact steady_setDefconfigList
    | allnoconfigY =>
      refine .bind (steady_needSymbol _) fun _ => .bind_get fun w a w' ha hw hn => ?_
      have hmem := Model.entry_mem hn.lt
      cases hentry : (w.model.node n).entry with
      | symbol s =>
        rw [hentry] at ha hmem
        refine (steady_modifyModel fun m hm hi => ?_ :
          Moves (SteadyIf fun es => .symbol s ∈ es) _) w a w' ha hw hmem
        refine ⟨hm.setSymbol hi (fun _ => ⟨rfl, rfl⟩) (fun _ => rfl) fun sym h => ?_, rfl,
          size_setSymbol _ _ _⟩
        exact ⟨h.1, h.2, h.3, h.4, h.5, h.6, h.7, h.8⟩
      | _ =>
        rw [hentry] at ha
        exact (.pure _ : Moves (SteadyIf (HasNode n)) _) w a w' ha hw hn
  | optional =>
    refine .bind .get fun w => ?_
    split
    · exact .pure _
    · exact steady_problem _
  | _ => exact .pure _

theorem steady_setHelp (help : HelpText) : Moves (SteadyIf P) (setHelp n help) :=
  .ite (.bind (steady_of_aside (aside_warnOwner _)) fun _ => steady_modifyNode fun _ => ⟨rfl, rfl⟩)
    (steady_modifyNode fun _ => ⟨rfl, rfl⟩)

end Reading
end Kconfig
