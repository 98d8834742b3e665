import Kconfig.Model.Finalize
/-!
Finalizing in separate passes over trees.

What is done to the links in place comes to the same as this: first all nodes inherit, then the
trees of the blocks are nested and unwrapped, then the symbols get the properties of the nodes in
the order of the files, then the choices get theirs. A symbol takes the nodes that follow it under
it, as long as they are shown only when it holds; a node without a prompt has no menu of its own,
so the nodes below it take its place after it, choices excepted; and blocks are left out.
-/
namespace Kconfig

/-- The first of some trees. -/
def Tree.firstId? (ts : List Tree) : Option NodeId := ts.head?.map Tree.id

namespace Model

/-! ### Inheriting -/

mutual

/-- The model whose nodes, from the root of a tree downwards, have what they take from around. -/
def inheritTree (m : Model) (around : Surroundings) : Tree → Model
  | .node id children =>
    let m := m.setNode id (MenuNode.inherit around)
    inheritForest m ((m.node id).inside around) children

def inheritForest (m : Model) (around : Surroundings) : List Tree → Model
  | [] => m
  | t :: ts => inheritForest (inheritTree m around t) around ts

end

/-! ### The outline -/

/-- Whether a tree is shown only when a symbol holds. -/
def follows (m : Model) (s : SymbolId) (t : Tree) : Bool := m.isShownWith s t.id

/-- A tree, or the nodes that take its place. -/
def unwrap (m : Model) (t : Tree) : List Tree :=
  if m.isDissolved t.id then
    if m.isBlock t.id then t.children else .node t.id [] :: t.children
  else [t]

/-- Trees side by side, each symbol with the nodes after it that go under it. -/
def nest (m : Model) : List Tree → List Tree
  | [] => []
  | t :: ts =>
    let rest := nest m ts
    match m.symbolOf? t.id with
    | some s =>
      let taken := rest.takeWhile (m.follows s)
      .node t.id (taken.flatMap m.unwrap) :: rest.dropWhile (m.follows s)
    | none => t :: rest

mutual

/-- The menu tree of a tree of blocks. -/
def outlineTree (m : Model) : Tree → Tree
  | .node id children => .node id ((m.nest (outlineForest m children)).flatMap m.unwrap)

/-- The trees inside one block, not yet nested. -/
def outlineForest (m : Model) : List Tree → List Tree
  | [] => []
  | t :: ts => outlineTree m t :: outlineForest m ts

end

/-- The menu trees below the top node. -/
def outline (m : Model) (ts : List Tree) : List Tree :=
  (m.nest (m.outlineForest ts)).flatMap m.unwrap

/-! ### Symbols and choices -/

mutual

/-- The model whose choices have what the nodes of a tree give them, inner nodes first. -/
def fillChoices (m : Model) : Tree → Model
  | .node id children => (fillChoicesForest m children).addToChoice id (children.map Tree.id)

def fillChoicesForest (m : Model) : List Tree → Model
  | [] => m
  | t :: ts => fillChoicesForest (fillChoices m t) ts

end

/-- The model of files that have been read, whose blocks are the given trees below the top node.
Its nodes have the neighbours that a table says. -/
def settle (m : Model) (blocks : List Tree) (table : Array Links) : Model :=
  let m := m.inheritForest ((m.node 0).inside {}) blocks
  let tree := m.outline blocks
  let m := (List.range m.nodes.size).foldl addToSymbol { m with tree, table }
  m.fillChoicesForest tree

end Model
end Kconfig
