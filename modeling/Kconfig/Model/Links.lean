import Kconfig.Model.Basic
/-!
The neighbours of nodes in the menu tree, and going through them.

Links are read and written one at a time. A way along links may come back to a node that it has left
and then never ends; it is followed for so many steps at most, and is nothing when that is too few.
-/
namespace Kconfig.Model

/-- The neighbours of a node. -/
def linksOf (m : Model) (n : NodeId) : Links := m.table[n]?.getD {}

/-- The model with these links. -/
def withLinks (m : Model) (table : Array Links) : Model := { m with table }

def setLinks (m : Model) (n : NodeId) (f : Links → Links) : Model :=
  { m with table := m.table.modify n f }

/-- A node and those beside it, from it to the last one. -/
def beside (m : Model) : Nat → Option NodeId → Option (List NodeId)
  | _, none => some []
  | 0, some _ => none
  | most + 1, some n => do return n :: (← m.beside most (m.linksOf n).next)

/-- The trees that a node and those beside it are the roots of. -/
def treesFrom (m : Model) : Nat → Option NodeId → Option (List Tree)
  | _, none => some []
  | 0, some _ => none
  | most + 1, some n => do
    let children ← m.treesFrom most (m.linksOf n).first
    let others ← m.treesFrom most (m.linksOf n).next
    return .node n children :: others

/-- The trees that stand below the top node. -/
def rootTrees (m : Model) : Option (List Tree) := m.treesFrom m.nodes.size (m.linksOf 0).first

/-- The neighbours of every node of the menu tree, the top node first. -/
def links (m : Model) : List (NodeId × Links) := (0 :: m.order).map fun n => (n, m.linksOf n)

end Kconfig.Model
