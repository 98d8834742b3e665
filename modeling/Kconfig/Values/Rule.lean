import Kconfig.Values.Query
/-!
The rules of values.

A symbol's value is what the user gave, as long as the symbol is visible and the value lies in the
active range; otherwise its first default whose condition holds; `imply` and `select` raise a
bool. A member of a choice is `y` when the choice selects it: the user's selection, then the
first default, then the first member, as far as they are visible. Expressions are evaluated from
left to right and no further than needed.
-/
namespace Kconfig

/-- A value that a user gives. A level may come as a truth value, and is then shown as one. -/
inductive UserValue where
  | level (isYes isTruth : Bool)
  | text (s : String)
  deriving DecidableEq, Repr

/-- Whether a user's value is `y`. -/
def UserValue.isYes : UserValue → Bool
  | .level l _ => l
  | .text _ => false

/-- A user's value as text. -/
def UserValue.asText : UserValue → String
  | .level l _ => levelWord l
  | .text s => s

/-- What the user gave: values of symbols, modes and selections of choices. -/
structure UserValues where
  values : Array (Option UserValue) := #[]
  modes : Array (Option UserValue) := #[]
  selections : Array (Option SymbolId) := #[]
  deriving Inhabited

namespace UserValues

def value (u : UserValues) (s : SymbolId) : Option UserValue := u.values[s]?.join
def mode (u : UserValues) (c : ChoiceId) : Option UserValue := u.modes[c]?.join
def selection (u : UserValues) (c : ChoiceId) : Option SymbolId := u.selections[c]?.join

end UserValues

/-- The order of two numbers or texts. -/
def orderOf {α : Type} [LT α] [DecidableLT α] [DecidableEq α] (a b : α) : Ordering :=
  if a < b then .lt else if a = b then .eq else .gt

namespace Model
open Plan

/-- The number that an item's value is, if it is one. -/
def numberOf (m : Model) (i : Item) : Plan (Option Int) := do
  match m.itemType i with
  | .bool => return some (if ← level i then 2 else 0)
  | type => return Text.readInt type.radix (← text i).toList

/-- The order of two items as texts. -/
def textOrder (a b : Item) : Plan Ordering := do
  let x ← text a
  let y ← text b
  return orderOf x y

/-- The order of two items: as texts if both are strings, else as numbers if both are numbers. -/
def itemOrder (m : Model) (a b : Item) : Plan Ordering := do
  if m.itemType a = .string ∧ m.itemType b = .string then textOrder a b
  else
    match ← m.numberOf a with
    | none => textOrder a b
    | some x =>
      match ← m.numberOf b with
      | none => textOrder a b
      | some y => return orderOf x y

/-- Whether an expression holds. -/
def holds (m : Model) : Expr → Plan Bool
  | .item i => level i
  | .compare r a b => do return r.allows (← m.itemOrder a b)
  | .not e => do return !(← m.holds e)
  | .and a b => do
    if ← m.holds a then m.holds b else return false
  | .or a b => do
    if ← m.holds a then return true else m.holds b

/-- The first property whose condition holds. -/
def firstActive {α : Type} (m : Model) : List (Guarded α) → Plan (Option (Guarded α))
  | [] => return none
  | p :: more => do
    if ← m.holds p.cond then return some p else m.firstActive more

/-- Whether a condition holds; all are evaluated. -/
def anyHolds (m : Model) : List Expr → Plan Bool
  | [] => return false
  | e :: more => do
    let first ← m.holds e
    let rest ← m.anyHolds more
    return first || rest

/-- Whether an item is visible: some prompt of it is shown. -/
def visibility (m : Model) (i : Item) : Plan Bool :=
  m.anyHolds ((m.itemNodes i).filterMap fun n => (m.node n).prompt.map (·.cond))

/-- A number as a symbol's value, zero for other texts. -/
def numberIn (type : ValueType) (s : String) : Int := (Text.readInt type.radix s.toList).getD 0

/-- The range that holds now. -/
def activeRange (m : Model) (s : SymbolId) : Plan (Option (Int × Int)) := do
  let sym := m.symbol s
  match ← m.firstActive sym.ranges with
  | none => return none
  | some p =>
    let low ← text (.symbol p.value.low)
    let high ← text (.symbol p.value.high)
    return some (numberIn sym.type low, numberIn sym.type high)

/-- The text of the first default that holds now. -/
def activeDefault (m : Model) (s : SymbolId) : Plan (Option String) := do
  match ← m.firstActive (m.symbol s).defaults with
  | none => return none
  | some p =>
    match p.value with
    | .item i => return some (← text i)
    | _ => return some ""

/-- The end of a range that a number lies beyond. -/
def clamp? (range : Option (Int × Int)) (n : Int) : Option (Int × Int × Int) :=
  match range with
  | none => none
  | some (low, high) =>
    if n < low then some (low, low, high)
    else if high < n then some (high, low, high)
    else none

/-- The user's text, if it is a number within the range; a number beyond it is worth a warning. -/
def userNumber (m : Model) (s : SymbolId) (range : Option (Int × Int)) (given : String) :
    Plan (Option String) := do
  let type := (m.symbol s).type
  let n := numberIn type given
  match range with
  | none => return some given
  | some (low, high) =>
    if low ≤ n ∧ n ≤ high then return some given
    tell (.valueOutOfRange (type.write n) type.word (m.owner (.symbol s)) (type.write low)
      (type.write high))
    return none

/-- The value of a number without the user: its default within the range. -/
def defaultNumber (m : Model) (s : SymbolId) (range : Option (Int × Int)) (isVisible : Bool) :
    Plan (Written String) := do
  let type := (m.symbol s).type
  let default ← m.activeDefault s
  let n := (default.map (numberIn type)).getD 0
  let isWritten := isVisible || default.isSome
  match clamp? range n with
  | none => return ⟨default.getD "", isWritten⟩
  | some (bound, low, high) =>
    if default.isSome then
      tell (.defaultClamped (Text.decimal n) (m.owner (.symbol s)) (type.write bound)
        (type.write low) (type.write high))
    return ⟨type.write bound, isWritten⟩

/-- The value of an int or hex symbol. -/
def numberText (m : Model) (u : UserValues) (s : SymbolId) : Plan (Written String) := do
  let isVisible ← visible (.symbol s)
  let range ← m.activeRange s
  let given := ((u.value s).map (·.asText)).getD ""
  if isVisible && !given.isEmpty then
    if let some kept ← m.userNumber s range given then return ⟨kept, true⟩
  m.defaultNumber s range isVisible

/-- The value of a string symbol. -/
def stringText (m : Model) (u : UserValues) (s : SymbolId) : Plan (Written String) := do
  let isVisible ← visible (.symbol s)
  match isVisible, u.value s with
  | true, some given => return ⟨given.asText, true⟩
  | _, _ =>
    match ← m.activeDefault s with
    | some value => return ⟨value, true⟩
    | none => return ⟨"", isVisible⟩

/-- Whether a symbol's value never goes to configurations. -/
def isUnwritten (m : Model) (s : SymbolId) : Bool :=
  (m.symbol s).envVar.isSome || m.defconfigList == some (.symbol s)

/-- The text of an item's value. -/
def textRule (m : Model) (u : UserValues) (i : Item) : Plan (Written String) :=
  match i with
  | .choice _ => .ask (.level i) fun a => return ⟨levelWord a.value, a.isWritten⟩
  | .symbol s =>
    match (m.symbol s).type with
    | .bool => .ask (.level i) fun a => return ⟨levelWord a.value, a.isWritten⟩
    | .unknown => return ⟨(m.symbol s).name, false⟩
    | .string => do
      let a ← m.stringText u s
      return ⟨a.value, a.isWritten && !m.isUnwritten s⟩
    | .int | .hex => do
      let a ← m.numberText u s
      return ⟨a.value, a.isWritten && !m.isUnwritten s⟩

/-- A symbol that forces another one, as a warning shows it. -/
def selectorOf (m : Model) (select : Expr) : Plan Selector := do
  let first := (select.conjuncts.head?.bind fun e => e.items.head?).getD (.symbol noId)
  let deps := match first with
    | .symbol s => (m.symbol s).directDep
    | .choice c => (m.choice c).directDep
  let value ← text first
  let depLevel ← m.holds deps
  let cond ← match select with
    | .and _ cond => do
      let isMet ← m.holds cond
      pure (some (m.exprText cond, isMet))
    | _ => pure none
  return ⟨m.owner first, value, m.exprText deps, depLevel, cond⟩

/-- The symbols that force a symbol beyond its direct dependencies. -/
def selectorsOf (m : Model) (deps : Expr) : List Expr → Plan (List Selector)
  | [] => return []
  | select :: more => do
    let isForced ← m.holds select
    let isMet ← m.holds deps
    if isForced && !isMet then
      let selector ← m.selectorOf select
      let rest ← m.selectorsOf deps more
      return selector :: rest
    else m.selectorsOf deps more

/-- Warns about a symbol that is selected although its dependencies do not hold. -/
def tellUnmet (m : Model) (s : SymbolId) : Plan Unit := do
  let sym := m.symbol s
  let depLevel ← m.holds sym.directDep
  let level ← m.holds sym.revDep
  let selectors ← m.selectorsOf sym.directDep sym.revDep.disjuncts
  tell (.unmetSelect (m.owner (.symbol s)) (m.exprText sym.directDep) depLevel level selectors)

/-- A bool's own value: the user's, or its default raised by `imply`. -/
def ownLevel (m : Model) (u : UserValues) (s : SymbolId) (isVisible : Bool) :
    Plan (Written Bool) := do
  let sym := m.symbol s
  match isVisible, u.value s with
  | true, some given => return ⟨given.isYes, true⟩
  | _, _ =>
    let default ← match ← m.firstActive sym.defaults with
      | none => pure false
      | some p => m.holds p.value
    if ← m.holds sym.weakRevDep then
      if ← m.holds sym.directDep then return ⟨true, true⟩
    return ⟨default, isVisible || default⟩

/-- The value of a bool outside choices: its own value raised by `select`. -/
def freeLevel (m : Model) (u : UserValues) (s : SymbolId) (isVisible : Bool) :
    Plan (Written Bool) := do
  let sym := m.symbol s
  let own ← m.ownLevel u s isVisible
  if ← m.holds sym.revDep then
    unless ← m.holds sym.directDep do m.tellUnmet s
    return ⟨true, true⟩
  return own

/-- The value of a bool that belongs to a choice. -/
def memberLevel (s : SymbolId) (c : ChoiceId) (isVisible : Bool) : Plan (Written Bool) := do
  if isVisible then return ⟨(← selection c) == some s, true⟩ else return ⟨false, false⟩

/-- Whether an item's value is `y`. -/
def levelRule (m : Model) (u : UserValues) (i : Item) : Plan (Written Bool) :=
  match i with
  | .choice _ => do return ⟨← visible i, false⟩
  | .symbol s =>
    let sym := m.symbol s
    if s = noId ∨ s = yesId then return ⟨s = yesId, false⟩
    else if sym.type = .unknown then return ⟨false, false⟩
    else if sym.type ≠ .bool then do
      tell (.logicalContext sym.type.word (m.owner i))
      return ⟨false, false⟩
    else do
      let isVisible ← visible i
      match sym.choice with
      | some c => memberLevel s c isVisible
      | none => m.freeLevel u s isVisible

/-- The levels that the user can give an item now and that would be respected. -/
def assignableRule (m : Model) (i : Item) : Plan (List Bool) := do
  match i with
  | .choice _ => return if ← visible i then [true] else []
  | .symbol s =>
    let sym := m.symbol s
    if sym.type ≠ .bool then return []
    unless ← visible i do return []
    let isForced ← m.holds sym.revDep
    return if sym.choice.isSome || isForced then [true] else [false, true]

/-- The first visible symbol among defaults that hold. -/
def defaultSelection (m : Model) : List (Guarded Expr) → Plan (Option SymbolId)
  | [] => return none
  | p :: more => do
    match p.value with
    | .item (.symbol s) =>
      if ← m.holds p.cond then
        if ← visible (.symbol s) then return some s
      m.defaultSelection more
    | _ => m.defaultSelection more

/-- The first visible symbol. -/
def firstVisible : List SymbolId → Plan (Option SymbolId)
  | [] => return none
  | s :: more => do
    if ← visible (.symbol s) then return some s else firstVisible more

/-- The selection of a choice without the user. -/
def ownSelection (m : Model) (c : ChoiceId) : Plan (Option SymbolId) := do
  match ← m.defaultSelection (m.choice c).defaults with
  | some s => return some s
  | none => firstVisible (m.choice c).members

/-- The selected member of a choice. -/
def selectionRule (m : Model) (u : UserValues) (c : ChoiceId) : Plan (Option SymbolId) := do
  unless ← level (.choice c) do return none
  match u.selection c with
  | some s => if ← visible (.symbol s) then return some s else m.ownSelection c
  | none => m.ownSelection c

/-- How a question is answered. -/
def rule (m : Model) (u : UserValues) : (q : Query) → Plan q.Answer
  | .text i => m.textRule u i
  | .level i => m.levelRule u i
  | .visible i => m.visibility i
  | .assignable i => m.assignableRule i
  | .selection c => m.selectionRule u c

end Model
end Kconfig
