import Kconfig.Model.Definition
import Kconfig.Proofs.Config.Direct
import Kconfig.Proofs.Model.Stripped
import Kconfig.Proofs.Values.Determined
import Mathlib.Data.List.Forall2
/-!
Printed definitions state the conditions in force.

A definition is printed with the node's dependency on a line of its own and the other conditions
without it. Whatever was done to a configuration before, a condition as it is printed and the
dependency together evaluate to what the stored condition evaluates to; and where evaluating one of
them does not come to an end, evaluating the other does not either.
-/
namespace Kconfig
open Memory

namespace Configuration
variable {m : Model} {c : Configuration} {e : Expr}

/-- An expression is evaluated to the end exactly if the memory determines whether it holds. -/
theorem holds_ends_iff (hc : c.memory.Constant c.model) (e : Expr) (b : Bool) :
    (∃ c', Configuring.holds e c = .ok b c') ↔
      c.model.holdsBy (recalled c.model c.user c.memory) e = some b := by
  have hholds : Configuring.holds e c = Configuring.follow (c.model.holds e) c := rfl
  rw [hholds, Model.holdsBy, ← Evaluating.follow_ends_iff (e := ⟨c.memory, c.journal⟩) hc]
  constructor
  · rintro ⟨c', h⟩
    obtain ⟨e', hfollow, -⟩ := Configuring.follow_ok h
    exact ⟨e', hfollow⟩
  · rintro ⟨e', h⟩
    rw [Configuring.follow_apply, h]
    exact ⟨_, rfl⟩

/-- What a configuration remembers of the constants is right. -/
theorem constants_recall (hm : c.model.Sound) (hc : c.memory.Constant c.model) :
    Model.Constants (recalled c.model c.user c.memory) := by
  refine ⟨?_, ?_⟩
  · rw [recall_of_fixed (q := .level (.symbol noId)) hc hm.noFixed]
    rfl
  · rw [recall_of_fixed (q := .level (.symbol yesId)) hc hm.yesFixed]
    rfl

/-- A condition and a dependency say together what a stored condition says: under every valuation,
and when they are evaluated now, also where this does not come to an end. -/
structure Restates (c : Configuration) (dep own stored : Expr) : Prop where
  value : ∀ v : Valuation, v.Plain →
    c.model.holdsAt v (.and own dep) = c.model.holdsAt v stored
  evaluated : ∀ b, (∃ c', Configuring.holds (.and own dep) c = .ok b c') ↔
    ∃ c', Configuring.holds stored c = .ok b c'

theorem restates_without (hm : c.model.Sound) (hc : c.memory.Constant c.model) {dep : Expr}
    (he : e.EndsIn dep) : c.Restates dep (e.without dep) e := by
  refine ⟨fun v hv => Model.holdsAt_without hv he, fun b => ?_⟩
  rw [holds_ends_iff hc, holds_ends_iff hc, Model.holdsBy_without (constants_recall hm hc) he]

/-- The properties without the node's dependency, in order, and what they say with it. -/
def RestatesAll {α : Type} (c : Configuration) (node : MenuNode) (stored : List (Guarded α)) : Prop :=
  List.Forall₂ (fun own p => own.value = p.value ∧ c.Restates node.dep own.cond p.cond)
    (node.own stored) stored

theorem restatesAll_own {α : Type} (hm : c.model.Sound) (hc : c.memory.Constant c.model)
    {node : MenuNode} {stored : List (Guarded α)} (h : ∀ p ∈ stored, p.cond.EndsIn node.dep) :
    c.RestatesAll node stored := by
  rw [RestatesAll, MenuNode.own, List.forall₂_map_left_iff, List.forall₂_same]
  exact fun p hp => ⟨rfl, restates_without hm hc (h p hp)⟩

/-- Among lines there is one for a property whose condition says with the dependency what the stored
one says. -/
def States (c : Configuration) (name : Item → String) (dep : Expr) (lines : List String)
    (line : String) (stored : Expr) : Prop :=
  ∃ own, Model.conditioned name line own ∈ lines ∧ c.Restates dep own stored

theorem states_propertyLines {α : Type} (hm : c.model.Sound) (hc : c.memory.Constant c.model)
    {name : Item → String} {node : MenuNode} {stored : List (Guarded α)}
    (h : ∀ p ∈ stored, p.cond.EndsIn node.dep) {lines : List String} (word : String)
    (write : α → String)
    (hlines : Model.propertyLines name word write (node.own stored) ⊆ lines) :
    ∀ p ∈ stored, c.States name node.dep lines (word ++ " " ++ write p.value) p.cond := by
  intro p hp
  refine ⟨(p.without node.dep).cond, hlines ?_, restates_without hm hc (h p hp)⟩
  exact List.mem_map.mpr ⟨p.without node.dep, List.mem_map.mpr ⟨p, hp, rfl⟩, rfl⟩

/-- The lines of a node of a symbol or choice state the conditions of its properties. -/
structure LinesState (c : Configuration) (name : Item → String) (i : Item) (node : MenuNode)
    (lines : List String) : Prop where
  dep : node.dep = .yes ∨ "depends on " ++ node.dep.render name ∈ lines
  prompt : ∀ p ∈ node.prompt, ∃ word, (word = "prompt" ∨ word = (c.model.itemType i).word) ∧
    c.States name node.dep lines (word ++ " \"" ++ Text.escaped p.text ++ "\"") p.cond
  defaults : ∀ p ∈ node.defaults,
    c.States name node.dep lines ("default" ++ " " ++ p.value.render name) p.cond
  ranges : ∀ s, i = .symbol s → ∀ p ∈ node.ranges, c.States name node.dep lines
    ("range" ++ " " ++ (name (.symbol p.value.low) ++ " " ++ name (.symbol p.value.high))) p.cond
  selects : ∀ s, i = .symbol s → ∀ p ∈ node.selects,
    c.States name node.dep lines ("select" ++ " " ++ name (.symbol p.value)) p.cond
  implies : ∀ s, i = .symbol s → ∀ p ∈ node.implies,
    c.States name node.dep lines ("imply" ++ " " ++ name (.symbol p.value)) p.cond

theorem linesState_bodyLines (hm : c.model.Sound) (hc : c.memory.Constant c.model)
    (name : Item → String) (i : Item) {node : MenuNode} (h : node.DependsLast) :
    c.LinesState name i node (c.model.bodyLines name i node) := by
  constructor
  case dep =>
    by_cases hdep : node.dep = .yes
    · exact .inl hdep
    · refine .inr ?_
      unfold Model.bodyLines
      rw [if_neg hdep]
      exact List.mem_append_left _ (List.mem_append_right _ (List.mem_singleton_self _))
  case prompt =>
    intro p hp
    have hown : node.ownPrompt = some { p with cond := p.cond.without node.dep } := by
      rw [MenuNode.ownPrompt, hp]
      rfl
    refine ⟨if c.model.itemType i = .unknown then "prompt" else (c.model.itemType i).word, ?_,
      p.cond.without node.dep, ?_, restates_without hm hc (h.prompt p hp)⟩
    · split
      · exact .inl rfl
      · exact .inr rfl
    · unfold Model.bodyLines Model.promptLines
      rw [hown]
      simp only [List.mem_append, List.mem_singleton, true_or]
  case defaults =>
    refine states_propertyLines hm hc h.defaults "default" (Expr.render name) fun line hline => ?_
    unfold Model.bodyLines
    simp only [List.mem_append]
    exact .inl (.inl (.inl (.inr hline)))
  case ranges =>
    rintro s rfl
    refine states_propertyLines hm hc h.ranges "range"
      (fun b => name (.symbol b.low) ++ " " ++ name (.symbol b.high)) fun line hline => ?_
    unfold Model.bodyLines
    simp only [List.mem_append]
    exact .inl (.inl (.inl (.inl (.inr (.inr hline)))))
  case selects =>
    rintro s rfl
    refine states_propertyLines hm hc h.selects "select" (fun t => name (.symbol t)) fun line hline => ?_
    unfold Model.bodyLines
    simp only [List.mem_append]
    exact .inl (.inl (.inr (.inl hline)))
  case implies =>
    rintro s rfl
    refine states_propertyLines hm hc h.implies "imply" (fun t => name (.symbol t)) fun line hline => ?_
    unfold Model.bodyLines
    simp only [List.mem_append]
    exact .inl (.inl (.inr (.inr hline)))

/-- What is printed for a node of a symbol or choice states the conditions in force. -/
structure StatesConditions (c : Configuration) (i : Item) (n : NodeId) : Prop where
  prompt : List.Forall₂
    (fun own p => own.text = p.text ∧ c.Restates (c.model.node n).dep own.cond p.cond)
    (c.model.node n).ownPrompt.toList (c.model.node n).prompt.toList
  defaults : c.RestatesAll (c.model.node n) (c.model.node n).defaults
  ranges : c.RestatesAll (c.model.node n) (c.model.node n).ranges
  selects : c.RestatesAll (c.model.node n) (c.model.node n).selects
  implies : c.RestatesAll (c.model.node n) (c.model.node n).implies
  printed : ∀ name, c.model.nodeText name n = "\n".intercalate
    (c.model.headLine i (c.model.node n) ::
      (c.model.bodyLines name i (c.model.node n)).map ("\t" ++ ·))
  lines : ∀ name, c.LinesState name i (c.model.node n) (c.model.bodyLines name i (c.model.node n))

theorem statesConditions (hm : c.model.Sound) (hc : c.memory.Constant c.model) {i : Item}
    {n : NodeId} (hitem : (c.model.node n).entry.item? = some i) (h : (c.model.node n).DependsLast) :
    c.StatesConditions i n := by
  constructor
  case prompt =>
    unfold MenuNode.ownPrompt
    cases hp : (c.model.node n).prompt with
    | none => exact .nil
    | some p => exact .cons ⟨rfl, restates_without hm hc (h.prompt p hp)⟩ .nil
  case defaults => exact restatesAll_own hm hc h.defaults
  case ranges => exact restatesAll_own hm hc h.ranges
  case selects => exact restatesAll_own hm hc h.selects
  case implies => exact restatesAll_own hm hc h.implies
  case printed =>
    intro name
    rw [Model.nodeText, hitem]
  case lines => exact fun name => linesState_bodyLines hm hc name i h

end Configuration

/-- Whatever was done to a configuration, at every node of a symbol or choice the conditions without
the node's dependency say together with it what the stored conditions say, and so does what is
printed for the node. -/
theorem conditions_restated {host : Host} {options : LoadOptions} {c : Configuration}
    {w : Workspace} (hload : Load.load host options = .ok c w) (acts : List Act) {i : Item}
    {n : NodeId} (hn : n ∈ w.model.itemNodes i) :
    (c.after acts).model = w.model ∧ (c.after acts).StatesConditions i n := by
  have hlater := Load.backsDirect_after hload acts
  obtain ⟨m, ⟨blocks, table, hread, hsettle, hlinked⟩, -, -⟩ := Load.load_ok hload
  rw [hsettle] at hn
  obtain ⟨hlast, hitem⟩ := hread.dependsLast hn
  rw [← hsettle, ← hlater.model] at hlast hitem
  refine ⟨hlater.model, Configuration.statesConditions ?_ ?_ hitem hlast⟩
  · rw [hlater.model]
    exact Load.sound_of_load hload
  · rw [hlater.model]
    exact hlater.memory.constant

/-- A prompt in a menu that is shown under a condition, and properties under the node's dependency. -/
def shownInMenu : Host where
  files.entries := [(["work", "Kconfig"], .file (.text (
    "config A\n\tbool \"a\"\nconfig D\n\tbool \"d\"\nmenu \"m\"\n\tvisible if A\n" ++
    "config B\n\tbool \"b\" if D\n\tdepends on D\n\tdefault y if A && D\n\timply E\n" ++
    "endmenu\nconfig E\n\tbool\n")))]

/-- From the condition of the prompt nothing is taken off, as the menu's comes before the dependency;
from the others exactly the dependency is. -/
theorem shownInMenu_restated : ∃ c w, Load.load shownInMenu {} = .ok c w ∧
    4 ∈ w.model.itemNodes (.symbol 4) ∧
    w.model.nodeText w.model.itemText 4 = "config B\n\tbool \"b\" if D && A && D\n" ++
      "\tdefault y if A && D\n\timply E\n\tdepends on D" ∧
    let later := c.after [.setSymbol 2 (.number 2), .ask (.visible (.symbol 4))]
    later.model = w.model ∧ later.StatesConditions (.symbol 4) 4 := by
  have hchecked : passes (fun _ w => decide (4 ∈ w.model.itemNodes (.symbol 4) ∧
      w.model.nodeText w.model.itemText 4 = "config B\n\tbool \"b\" if D && A && D\n" ++
        "\tdefault y if A && D\n\timply E\n\tdepends on D")) (Load.load shownInMenu {}) = true := by
    decide +kernel
  obtain ⟨c, w, hload, hmodel⟩ := ok_of_passes hchecked
  obtain ⟨hn, htext⟩ := of_decide_eq_true hmodel
  exact ⟨c, w, hload, hn, htext, conditions_restated hload _ hn⟩

end Kconfig
