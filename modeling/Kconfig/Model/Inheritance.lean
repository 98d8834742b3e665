import Kconfig.Model.Basic
/-!
Dependencies that nodes take from the blocks around them.

A node depends on what it says itself and on what its block depends on; inside a choice the choice
itself stands for all of that. The conditions of a symbol's or choice's properties get the whole
dependency, and prompts also what makes the menus around them visible. The dependency is joined
last, so it can be taken off again.
-/
namespace Kconfig

/-- What nodes take from the blocks around them. -/
structure Surroundings where
  dep : Expr := .yes
  visible : Expr := .yes
  deriving Repr, Inhabited

/-- A property under a further condition. -/
def Guarded.under {α : Type} (dep : Expr) (p : Guarded α) : Guarded α :=
  { p with cond := p.cond.conj dep }

/-- A property without the condition that was joined last. -/
def Guarded.without {α : Type} (dep : Expr) (p : Guarded α) : Guarded α :=
  { p with cond := p.cond.without dep }

namespace MenuNode

/-- The node with what it takes from its surroundings. -/
def inherit (around : Surroundings) (node : MenuNode) : MenuNode :=
  let dep := node.dep.conj around.dep
  match node.entry with
  | .symbol _ | .choice _ =>
    { node with
      dep
      prompt := node.prompt.map fun p => { p with cond := p.cond.conj (around.visible.conj dep) }
      defaults := node.defaults.map (·.under dep)
      ranges := node.ranges.map (·.under dep)
      selects := node.selects.map (·.under dep)
      implies := node.implies.map (·.under dep) }
  | .menu | .comment | .block =>
    { node with
      dep
      prompt := node.prompt.map fun p => { p with cond := p.cond.conj dep } }

/-- What the nodes inside a node take from it. -/
def inside (around : Surroundings) (node : MenuNode) : Surroundings where
  dep := match node.entry with
    | .choice c => .item (.choice c)
    | _ => node.dep
  visible := match node.entry with
    | .menu => around.visible.conj node.visibleIf
    | _ => around.visible

/-- The prompt without the node's dependency. -/
def ownPrompt (node : MenuNode) : Option Prompt :=
  node.prompt.map fun p => { p with cond := p.cond.without node.dep }

/-- Properties without the node's dependency. -/
def own {α : Type} (node : MenuNode) (properties : List (Guarded α)) : List (Guarded α) :=
  properties.map (·.without node.dep)

end MenuNode

end Kconfig
