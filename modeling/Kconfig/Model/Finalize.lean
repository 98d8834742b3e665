import Kconfig.Model.Links
import Kconfig.Model.Properties
/-!
From the blocks of the files to the menu tree, by writing links in place.

The nodes are finalized from the top node on. What a node gives to those right below it is joined to
their conditions before they are finalized themselves. A symbol gets the properties of its node; the
nodes beside it that are shown only when it holds go under it, each finalized first, so that it has
taken its own. Then nodes without a prompt leave what is below them to the node above, blocks are
unlinked, and a choice gets its members.
-/
namespace Kconfig
namespace Model

/-- Whether a node is shown only when a symbol holds. -/
def isShownWith (m : Model) (s : SymbolId) (n : NodeId) : Bool :=
  let node := m.node n
  (match node.prompt with
    | some p => p.cond
    | none => node.dep).dependsOn s

/-- Whether the nodes below a node take its place. -/
def isDissolved (m : Model) (n : NodeId) : Bool :=
  let node := m.node n
  node.prompt.isNone && match node.entry with
    | .choice _ => false
    | _ => true

/-- Whether a node is a block. -/
def isBlock (m : Model) (n : NodeId) : Bool := (m.node n).entry = .block

/-- The model whose nodes take what comes from around them. -/
def inheritAll (m : Model) (around : Surroundings) (ns : List NodeId) : Model :=
  ns.foldl (fun m n => m.setNode n (MenuNode.inherit around)) m

/-- The nodes from one on get a parent; with the last of them. -/
def adopt (m : Model) (parent : Option NodeId) : Nat → NodeId → Option (Model × NodeId)
  | 0, _ => none
  | most + 1, n =>
    let m := m.setLinks n ({ · with parent })
    match (m.linksOf n).next with
    | some k => m.adopt parent most k
    | none => some (m, n)

/-- The nodes below a node, of which this is the first, are put beside it, right after it. -/
def moveOut (m : Model) (n first : NodeId) : Option Model := do
  let (m, last) ← m.adopt (m.linksOf n).parent m.nodes.size first
  let m := m.setLinks last ({ · with next := (m.linksOf n).next })
  return m.setLinks n fun links => { links with next := links.first, first := none }

/-- The nodes from one on, where those that dissolve leave their place to the nodes below them. -/
def flatten (m : Model) : Nat → Option NodeId → Option Model
  | _, none => some m
  | 0, some _ => none
  | most + 1, some n => do
    let m ← match (m.linksOf n).first with
      | some first => if m.isDissolved n then m.moveOut n first else some m
      | none => some m
    m.flatten most (m.linksOf n).next

/-- The first node from one on that is no block. -/
def passBlocks (m : Model) : Nat → Option NodeId → Option (Option NodeId)
  | _, none => some none
  | 0, some _ => none
  | most + 1, some n =>
    if m.isBlock n then m.passBlocks most (m.linksOf n).next else some (some n)

/-- The nodes from one on, where each is linked to the next one that is no block. -/
def unlinkBlocks (m : Model) : Nat → Option NodeId → Option Model
  | _, none => some m
  | 0, some _ => none
  | most + 1, some n => do
    let next ← m.passBlocks m.nodes.size (m.linksOf n).next
    (m.setLinks n ({ · with next })).unlinkBlocks most next

/-- The node, below which no blocks are left. -/
def removeBlocks (m : Model) (n : NodeId) : Option Model := do
  let first ← m.passBlocks m.nodes.size (m.linksOf n).first
  (m.setLinks n ({ · with first })).unlinkBlocks m.nodes.size first

/-- The nodes below a node are put in order. -/
def straighten (m : Model) (n : NodeId) : Option Model :=
  match (m.linksOf n).first with
  | some first => do (← m.flatten m.nodes.size first).removeBlocks n
  | none => some m

/-- The nodes after a node, up to the last one that goes under it, are put below it. -/
def tuck (m : Model) (n last : NodeId) : Model :=
  if last = n then m
  else
    let m := m.setLinks n ({ · with first := (m.linksOf n).next })
    let m := m.setLinks n ({ · with next := (m.linksOf last).next })
    m.setLinks last ({ · with next := none })

/-- A choice gets the properties of its node, and the nodes below it as members. -/
def finishChoice (m : Model) (n : NodeId) : Option Model :=
  match (m.node n).entry with
  | .choice _ => do return m.addToChoice n (← m.beside m.nodes.size (m.linksOf n).first)
  | _ => some m

mutual

/-- Finalizes a node and those below it. -/
def finalizeNode (m : Model) (visible : Expr) (n : NodeId) : Nat → Option Model
  | 0 => none
  | fuel + 1 => do
    let m ← match (m.node n).entry with
      | .symbol s => do
        let (m, last) ← (m.addToSymbol n).takeFollowers visible s n n fuel
        some (m.tuck n last)
      | _ =>
        match (m.linksOf n).first with
        | none => some m
        | some first => do
          let around := (m.node n).inside { visible }
          let children ← m.beside m.nodes.size (some first)
          (m.inheritAll around children).finalizeAll around.visible (some first) fuel
    (← m.straighten n).finishChoice n

/-- Finalizes the nodes after one that are shown only when a symbol holds, and makes the symbol's
node their parent; with the last of them. -/
def takeFollowers (m : Model) (visible : Expr) (s : SymbolId) (n last : NodeId) :
    Nat → Option (Model × NodeId)
  | 0 => none
  | fuel + 1 =>
    match (m.linksOf last).next with
    | none => some (m, last)
    | some k =>
      if m.isShownWith s k then do
        let m ← m.finalizeNode visible k fuel
        let k ← (m.linksOf last).next
        (m.setLinks k ({ · with parent := some n })).takeFollowers visible s n k fuel
      else some (m, last)

/-- Finalizes a node and those beside it, from it to the last one. -/
def finalizeAll (m : Model) (visible : Expr) (cur : Option NodeId) : Nat → Option Model
  | 0 => none
  | fuel + 1 =>
    match cur with
    | none => some m
    | some n => do
      let m ← m.finalizeNode visible n fuel
      m.finalizeAll visible (m.linksOf n).next fuel

end

/-- The model of files that have been read, with its menu tree. -/
def finalize (m : Model) : Option Model := do
  let m ← m.finalizeNode .yes 0 (2 * m.nodes.size)
  return { m with tree := ← m.rootTrees }

end Model
end Kconfig
