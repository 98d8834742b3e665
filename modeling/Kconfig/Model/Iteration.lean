import Kconfig.Model.Links
/-!
Going through the menu nodes along their links.

From a node one goes to the first node below it, else to the next one beside it, else to the next
one beside the nearest node above that has one. A walk may visit every symbol only once. The outer
`none` stands for a walk that never ends: where one goes from a node hangs on that node alone, so a
way through more nodes than there are comes back to one of them and goes round for ever.
-/
namespace Kconfig.Model

/-- How many nodes a way can lead through before it ends: all that there are, and one that is none
of them. -/
def longestWay (m : Model) : Nat := m.nodes.size + 1

/-- The node to go to when everything below a node has been visited, if there is one. So many nodes
may be passed on the way up. -/
def leaveWithin (m : Model) : Nat → NodeId → Option (Option NodeId)
  | 0, _ => none
  | most + 1, n =>
    let links := m.linksOf n
    match links.next, links.parent with
    | some k, _ => some (some k)
    | none, some p => leaveWithin m most p
    | none, none => some none

/-- The node to go to when everything below a node has been visited, if there is one. -/
def leave (m : Model) (n : NodeId) : Option (Option NodeId) := m.leaveWithin m.longestWay n

/-- The node to go to after a node, if there is one. -/
def nodeAfter (m : Model) (n : NodeId) : Option (Option NodeId) :=
  match (m.linksOf n).first with
  | some k => some (some k)
  | none => m.leave n

/-- The nodes that a walk visits after a node, `seen` being the symbols visited so far. With
`isUnique` the walk passes nodes of symbols that it has seen. It may go through so many nodes. -/
def iterateWithin (m : Model) (isUnique : Bool) :
    Nat → List SymbolId → NodeId → Option (List NodeId)
  | 0, _, _ => none
  | most + 1, seen, n => do
    match ← m.nodeAfter n with
    | none => return []
    | some k =>
      match m.symbolOf? k with
      | none => return k :: (← iterateWithin m isUnique most seen k)
      | some s =>
        if isUnique && seen.contains s then iterateWithin m isUnique most seen k
        else return k :: (← iterateWithin m isUnique most (s :: seen) k)

/-- The nodes that a walk from the top node visits. -/
def nodeIter (m : Model) (isUnique : Bool) : Option (List NodeId) :=
  m.iterateWithin isUnique m.longestWay [] 0

end Kconfig.Model
