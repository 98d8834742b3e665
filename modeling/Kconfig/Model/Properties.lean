import Kconfig.Model.Inheritance
/-!
What symbols and choices have from all their nodes.

The properties of a symbol or choice are those of its nodes in the order of the files, and its
dependency is that of any of its nodes. A selected or implied symbol learns which symbols force it,
and under which condition. The symbols right below a choice are its members; a choice and its
members take each other's type when they have none.
-/
namespace Kconfig
namespace Model

/-- What a symbol that selects or implies others adds to their reverse dependencies. -/
def force (s : SymbolId) (targets : List (Guarded SymbolId))
    (change : (Expr → Expr) → Symbol → Symbol) (m : Model) : Model :=
  targets.foldl (fun m p =>
    m.setSymbol p.value (change fun e => e.disj ((Expr.symbol s).conj p.cond))) m

/-- The model whose symbols have the properties of one more node. -/
def addToSymbol (m : Model) (n : NodeId) : Model :=
  let node := m.node n
  match node.entry with
  | .symbol s =>
    let m := m.setSymbol s fun sym => { sym with
      directDep := sym.directDep.disj node.dep
      defaults := sym.defaults ++ node.defaults
      ranges := sym.ranges ++ node.ranges
      selects := sym.selects ++ node.selects
      implies := sym.implies ++ node.implies }
    let m := force s node.selects (fun f sym => { sym with revDep := f sym.revDep }) m
    force s node.implies (fun f sym => { sym with weakRevDep := f sym.weakRevDep }) m
  | _ => m

/-- The type of a choice, or else of its first member that has one. -/
def sharedType (m : Model) (c : ChoiceId) : ValueType :=
  if (m.choice c).type ≠ .unknown then (m.choice c).type
  else (((m.choice c).members.map fun s => (m.symbol s).type).find? (· ≠ .unknown)).getD .unknown

/-- A symbol that has no type takes one. -/
def takeType (type : ValueType) (sym : Symbol) : Symbol :=
  if sym.type = .unknown then { sym with type } else sym

/-- Types that a choice and its members take from each other. -/
def shareType (m : Model) (c : ChoiceId) : Model :=
  let type := m.sharedType c
  (m.choice c).members.foldl (fun m s => m.setSymbol s (takeType type))
    (m.setChoice c ({ · with type }))

/-- The model whose choice has the properties of one more node, and the symbols of the nodes below it
as members. -/
def addToChoice (m : Model) (n : NodeId) (below : List NodeId) : Model :=
  let node := m.node n
  match node.entry with
  | .choice c =>
    let members := below.filterMap m.symbolOf?
    let m := m.setChoice c fun ch => { ch with
      directDep := ch.directDep.disj node.dep
      defaults := ch.defaults ++ node.defaults
      members := ch.members ++ members }
    (members.foldl (fun m s => m.setSymbol s ({ · with choice := some c })) m).shareType c
  | _ => m

end Model
end Kconfig
