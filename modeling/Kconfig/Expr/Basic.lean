import Kconfig.Text.Numeral
/-!
Expressions over symbols and choices.

Symbols and choices are known by their numbers; the symbols `n` and `y` are the first two. An
expression is an item, a comparison of two items, or built with `!`, `&&` and `||`. `conj` and
`disj` join two expressions and drop what cannot matter: `y` and `n` as operands. The rest of the
model only ever joins dependencies with them, so a dependency that was joined last can be taken off
again.
-/
namespace Kconfig

abbrev SymbolId := Nat
abbrev ChoiceId := Nat
abbrev NodeId := Nat

/-- The constant symbol `n`. -/
def noId : SymbolId := 0

/-- The constant symbol `y`. -/
def yesId : SymbolId := 1

/-- What has a value: a symbol or a choice. -/
inductive Item where
  | symbol (s : SymbolId)
  | choice (c : ChoiceId)
  deriving DecidableEq, Repr, Inhabited

inductive Relation where
  | equal | unequal | less | lessEqual | greater | greaterEqual
  deriving DecidableEq, Repr, Inhabited

/-- The operator of a relation. -/
def Relation.sign : Relation → String
  | .equal => "="
  | .unequal => "!="
  | .less => "<"
  | .lessEqual => "<="
  | .greater => ">"
  | .greaterEqual => ">="

/-- Whether an order is one that the relation allows. -/
def Relation.allows : Relation → Ordering → Bool
  | .equal, o => o == .eq
  | .unequal, o => o != .eq
  | .less, o => o == .lt
  | .lessEqual, o => o != .gt
  | .greater, o => o == .gt
  | .greaterEqual, o => o != .lt

inductive Expr where
  | item (i : Item)
  | compare (r : Relation) (a b : Item)
  | not (e : Expr)
  | and (a b : Expr)
  | or (a b : Expr)
  deriving DecidableEq, Repr, Inhabited

namespace Expr

abbrev symbol (s : SymbolId) : Expr := .item (.symbol s)
abbrev no : Expr := symbol noId
abbrev yes : Expr := symbol yesId

/-- `a && b` without operands that cannot matter. -/
def conj (a b : Expr) : Expr :=
  if a = yes then b
  else if b = yes then a
  else if a = no ∨ b = no then no
  else .and a b

/-- `a || b` without operands that cannot matter. -/
def disj (a b : Expr) : Expr :=
  if a = no then b
  else if b = no then a
  else if a = yes ∨ b = yes then yes
  else .or a b

/-- The items of an expression, from left to right. -/
def items : Expr → List Item
  | .item i => [i]
  | .compare _ a b => [a, b]
  | .not e => e.items
  | .and a b | .or a b => a.items ++ b.items

/-- The operands that `&&` joins at the top. -/
def conjuncts : Expr → List Expr
  | .and a b => a.conjuncts ++ b.conjuncts
  | e => [e]

/-- The operands that `||` joins at the top. -/
def disjuncts : Expr → List Expr
  | .or a b => a.disjuncts ++ b.disjuncts
  | e => [e]

/-- Whether the expression is false whenever the symbol is: the symbol itself, the symbol compared
with `y` or for difference with `n`, or one side of `&&`. -/
def dependsOn (s : SymbolId) : Expr → Bool
  | .item i => i == .symbol s
  | .compare r a b =>
    let other := if b = .symbol s then some a else if a = .symbol s then some b else none
    match r, other with
    | .equal, some o => o == .symbol yesId
    | .unequal, some o => o == .symbol noId
    | _, _ => false
  | .and a b => a.dependsOn s || b.dependsOn s
  | _ => false

/-- The expression without a dependency that was joined last. -/
def without (e dep : Expr) : Expr :=
  if e = dep then yes
  else match e with
    | .and a b => if b = dep then a else e
    | _ => e

def isAnd : Expr → Bool
  | .and .. => true
  | _ => false

def isOr : Expr → Bool
  | .or .. => true
  | _ => false

def isItem : Expr → Bool
  | .item _ => true
  | _ => false

/-- A text in parentheses, where they are needed. -/
def enclosed (needed : Bool) (s : String) : String := if needed then "(" ++ s ++ ")" else s

/-- The text of an expression, its items written by `name`. Mixed `&&` and `||` are told apart by
parentheses, and so is anything but an item after `!`. -/
def render (name : Item → String) : Expr → String
  | .item i => name i
  | .compare r a b => name a ++ " " ++ r.sign ++ " " ++ name b
  | .not e => "!" ++ enclosed (!e.isItem) (e.render name)
  | .and a b => enclosed a.isOr (a.render name) ++ " && " ++ enclosed b.isOr (b.render name)
  | .or a b => enclosed a.isAnd (a.render name) ++ " || " ++ enclosed b.isAnd (b.render name)

end Expr
end Kconfig
