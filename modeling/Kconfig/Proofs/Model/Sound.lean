import Kconfig.Config.Assign
import Kconfig.Model.Dependents
import Kconfig.Model.Links
import Kconfig.Proofs.Values.Valuation
/-!
Sound models, and models whose choices are tidy.

A model that was read from files is sound: items without a node never change, those with one are
listed as defined, and choices and their members know each other. Tidiness is up to the files: the
defaults of choices are members, and members have prompts only inside their choice. The checks of a
model warn about what is not tidy, and accept it.
-/
namespace Kconfig

/-- Every operand of `||` starts with a symbol, as conditions that force a symbol do. -/
def Expr.FromSymbols (e : Expr) : Prop :=
  ∀ d ∈ e.disjuncts, ∃ s, d.conjuncts.head? = some (.symbol s)

namespace Model

/-- The nodes among trees that define symbols, in order. -/
def symbolNodes (m : Model) (ts : List Tree) : List NodeId :=
  (Tree.forestIds ts).filter fun n => (m.symbolOf? n).isSome

/-- What holds of every model that was read from files. -/
structure Sound (m : Model) : Prop where
  fixed : ∀ s, (m.symbol s).nodes = [] → m.Fixed (.symbol s)
  defined : ∀ s, s ∈ m.defined ↔ (m.symbol s).nodes ≠ []
  definedChoice : ∀ c, (m.choice c).nodes ≠ [] → c ∈ m.definedChoices
  constant : ∀ s, (m.symbol s).isConstant → (m.symbol s).nodes = []
  member : ∀ s c, (m.symbol s).choice = some c →
    s ∈ (m.choice c).members ∧ c ∈ m.definedChoices
  memberDefined : ∀ c, ∀ s ∈ (m.choice c).members, s ∈ m.defined
  noFixed : m.Fixed (.symbol noId)
  yesFixed : m.Fixed (.symbol yesId)
  bare : ∀ s, (m.symbol s).nodes = [] → (m.symbol s).directDep = .no
  forced : ∀ s, (m.symbol s).revDep.FromSymbols
  /-- The prompt of a node inside a choice is shown under the condition of the choice. -/
  inside : ∀ n c p, ((m.linksOf n).parent.map fun n => (m.node n).entry) = some (.choice c) →
    (m.node n).prompt = some p → p.cond = .no ∨ .choice c ∈ p.cond.items

/-- The menu tree has the first definition of every symbol, and names find their symbols. -/
structure Listed (m : Model) : Prop where
  nodup : (m.symbolNodes m.tree).Nodup
  first : ∀ s ∈ m.defined, ∃ n ∈ m.symbolNodes m.tree,
    (m.symbol s).nodes.head? = some n ∧ m.symbolOf? n = some s
  named : ∀ s ∈ m.defined, m.find? (m.symbol s).name false = some s

/-- The choices have no defaults outside them, and their members no prompts outside them. -/
structure Tidy (m : Model) : Prop where
  default : ∀ c, ∀ p ∈ (m.choice c).defaults, ∀ s, p.value = .symbol s →
    (m.symbol s).choice = some c
  prompt : ∀ c, ∀ s ∈ (m.choice c).members, ∀ n ∈ (m.symbol s).nodes,
    (m.node n).prompt.isSome →
    ((m.linksOf n).parent.map fun n => (m.node n).entry) = some (.choice c)

/-- User values that assignments can give: a symbol's value has the form that its type takes, and a
selection is a bool that belongs to the choice. -/
structure Permits (m : Model) (u : UserValues) : Prop where
  value : ∀ s v, u.value s = some v → ∃ g, (m.symbol s).type.accept? g = some v
  selection : ∀ c s, u.selection c = some s →
    (m.symbol s).choice = some c ∧ (m.symbol s).type = .bool

/-- A model without choices is tidy. -/
theorem tidy_of_no_choices {m : Model} (h : m.choices.size = 0) : m.Tidy := by
  have hchoice : ∀ c, m.choice c = default := fun c =>
    choice_of_size_le (h ▸ Nat.zero_le c)
  refine ⟨fun c p hp => ?_, fun c s hs => ?_⟩
  · rw [hchoice] at hp
    exact absurd hp List.not_mem_nil
  · rw [hchoice] at hs
    exact absurd hs List.not_mem_nil

theorem Sound.not_constant {m : Model} (h : m.Sound) {i : Item} (hi : ¬ m.Fixed i) :
    m.isConstant i = false := by
  cases i with
  | choice c => rfl
  | symbol s =>
    refine Bool.eq_false_iff.mpr fun hconst => hi ?_
    exact h.fixed s (h.constant s hconst)

/-- Items that can change are among the items of the model. -/
theorem Sound.mem_items {m : Model} (h : m.Sound) {i : Item} (hi : ¬ m.Fixed i) :
    i ∈ m.items := by
  cases i with
  | symbol s =>
    have hnodes : (m.symbol s).nodes ≠ [] := fun hnodes => hi (h.fixed s hnodes)
    exact List.mem_append_left _ (List.mem_map_of_mem ((h.defined s).mpr hnodes))
  | choice c => exact List.mem_append_right _ (List.mem_map_of_mem (h.definedChoice c hi))

end Model
end Kconfig
