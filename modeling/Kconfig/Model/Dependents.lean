import Kconfig.Model.Definition
import Kconfig.Failure
/-!
Which values hang on which, and dependency loops.

A symbol or choice depends on every symbol and choice that its conditions and properties mention;
constants never change, so nothing depends on them. A loop in these dependencies, with members of
one choice hanging together, would make values endless, and is an error.
-/
namespace Kconfig

/-- For every symbol and choice what depends on it, in the order of definitions. -/
structure Dependents where
  ofSymbols : Array (List Item) := #[]
  ofChoices : Array (List Item) := #[]
  deriving Inhabited

namespace Dependents

/-- What depends on an item. -/
def of (d : Dependents) : Item → List Item
  | .symbol s => d.ofSymbols[s]?.getD []
  | .choice c => d.ofChoices[c]?.getD []

/-- The dependents with one more. -/
def add (d : Dependents) (on dependent : Item) : Dependents :=
  let insert := fun items : List Item =>
    if items.contains dependent then items else items ++ [dependent]
  match on with
  | .symbol s => { d with ofSymbols := d.ofSymbols.modify s insert }
  | .choice c => { d with ofChoices := d.ofChoices.modify c insert }

end Dependents

namespace Model

/-- The conditions of an item's prompts. -/
def promptConds (m : Model) (i : Item) : List Expr :=
  (m.itemNodes i).filterMap fun n => (m.node n).prompt.map (·.cond)

/-- The items that a symbol's or choice's value is made from. -/
def reads (m : Model) (i : Item) : List Item :=
  (m.promptConds i).flatMap Expr.items ++
    match i with
    | .symbol s =>
      let sym := m.symbol s
      (sym.defaults.flatMap fun p => p.value.items ++ p.cond.items) ++
        sym.revDep.items ++ sym.weakRevDep.items ++
        (sym.ranges.flatMap fun p => .symbol p.value.low :: .symbol p.value.high :: p.cond.items) ++
        sym.directDep.items
    | .choice c => (m.choice c).defaults.flatMap fun p => p.cond.items

/-- Whether an item never changes. -/
def isConstant (m : Model) : Item → Bool
  | .symbol s => (m.symbol s).isConstant
  | .choice _ => false

/-- The defined symbols and the choices. -/
def items (m : Model) : List Item :=
  m.defined.map .symbol ++ m.definedChoices.map .choice

/-- The dependents of a model, by what each item reads. -/
def readers (m : Model) : Dependents :=
  let none : Dependents := ⟨.replicate m.symbols.size [], .replicate m.choices.size []⟩
  m.items.foldl (fun d i =>
    (m.reads i).foldl (fun d on => if m.isConstant on then d else d.add on i) d) none

/-- The dependents with choices also depending on their members, whose visibility moves the
selection. -/
def addMembers (m : Model) (d : Dependents) : Dependents :=
  m.definedChoices.foldl (fun d c =>
    (m.choice c).members.foldl (fun d s => d.add (.symbol s) (.choice c)) d) d

/-- How far the search for loops has come with an item. -/
inductive Mark where
  | unseen | open | done
  deriving DecidableEq, Inhabited

structure Marks where
  symbols : Array Mark
  choices : Array Mark

def Marks.get (k : Marks) : Item → Mark
  | .symbol s => k.symbols[s]?.getD .done
  | .choice c => k.choices[c]?.getD .done

def Marks.set (k : Marks) (mark : Mark) : Item → Marks
  | .symbol s => { k with symbols := k.symbols.setIfInBounds s mark }
  | .choice c => { k with choices := k.choices.setIfInBounds c mark }

/-- How the search comes to an item: as a dependent, as a member of the choice it comes from, or as
the choice of a member. -/
inductive Approach where
  | dependent | member | owner (of : SymbolId)
  deriving DecidableEq

/-- The search ends with an error when a loop is complete; before, it gives the loop's items so
far, from the one that was met again. -/
abbrev Search := EStateM (List Item) Marks

/-- The items that the search goes to from an item. -/
def steps (m : Model) (d : Dependents) (approach : Approach) : Item → List (Item × Approach)
  | .symbol s =>
    (d.of (.symbol s)).map (·, .dependent) ++
      match (m.symbol s).choice with
      | some c => if approach = .member then [] else [(.choice c, .owner s)]
      | none => []
  | .choice c =>
    ((m.choice c).members.filter fun s => approach ≠ .owner s).map fun s => (.symbol s, .member)

/-- Searches from items one after the other up to the first loop. -/
def searchAll (search : Item → Approach → Search (List Item)) :
    List (Item × Approach) → Search (List Item)
  | [] => pure []
  | (i, approach) :: more => do
    let loop ← search i approach
    if loop.isEmpty then searchAll search more else pure loop

/-- One call of the search for a loop from an item, which does `again` with each item that it goes
to. -/
def visit (m : Model) (d : Dependents) (again : Item → Approach → Search (List Item)) (i : Item)
    (approach : Approach) : Search (List Item) := do
  match (← get).get i with
  | .done => pure []
  | .open => pure [i]
  | .unseen =>
    modify (·.set .open i)
    let loop ← searchAll again (m.steps d approach i)
    match loop with
    | [] =>
      modify (·.set .done i)
      pure []
    | first :: _ => if first = i then throw loop else pure (loop ++ [i])

/-- Searches from an item for a loop; `fuel` bounds the items that are open. -/
def search (m : Model) (d : Dependents) : Nat → Item → Approach → Search (List Item)
  | 0 => fun _ _ => pure []
  | fuel + 1 => m.visit d (search m d fuel)

/-- The marks before the search. -/
def noneSeen (m : Model) : Marks :=
  ⟨.replicate m.symbols.size .unseen, .replicate m.choices.size .unseen⟩

/-- The first loop that is found when the search does `again` with each defined symbol. -/
def findLoopBy (m : Model) (again : Item → Approach → Search (List Item)) : Option (List Item) :=
  let starts := m.defined.map fun s => (Item.symbol s, Approach.dependent)
  match (searchAll again starts).run m.noneSeen with
  | .error loop _ => some loop
  | .ok _ _ => none

/-- The first loop among the values of a model. -/
def findLoop? (m : Model) (d : Dependents) : Option (List Item) :=
  m.findLoopBy (m.search d (m.symbols.size + m.choices.size + 2))

/-- An item of a loop as its message shows it. -/
def loopLink (m : Model) (i : Item) : LoopLink :=
  let link : LoopLink := ⟨m.owner i, m.itemDefinition m.itemText i, false, none, none⟩
  match i with
  | .symbol s =>
    let sym := m.symbol s
    let shown := fun e : Expr => if e = .no then none else some (m.exprText e)
    { link with
      isMember := sym.choice.isSome
      selectedIf := shown sym.revDep
      impliedIf := shown sym.weakRevDep }
  | .choice _ => link

end Model
end Kconfig
