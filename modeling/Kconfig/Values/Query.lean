import Kconfig.Journal
import Kconfig.Model.Basic
/-!
Questions about values, and plans that answer them.

Five questions can be asked about symbols and choices. How one is answered is a plan: further
questions in a fixed order, warnings, and the answer. A plan is data, so one plan serves a plain
evaluation as well as one that remembers answers.
-/
namespace Kconfig

/-- A value, and whether configurations hold it. -/
structure Written (α : Type) where
  value : α
  isWritten : Bool
  deriving DecidableEq, Repr, Inhabited

inductive Query where
  | text (i : Item)
  | level (i : Item)
  | visible (i : Item)
  | assignable (i : Item)
  | selection (c : ChoiceId)
  deriving DecidableEq, Repr, Inhabited

/-- The kind of answer to a question. -/
abbrev Query.Answer : Query → Type
  | .text _ => Written String
  | .level _ => Written Bool
  | .visible _ => Bool
  | .assignable _ => List Bool
  | .selection _ => Option SymbolId

/-- What a question is about. -/
def Query.item : Query → Item
  | .text i | .level i | .visible i | .assignable i => i
  | .selection c => .choice c

inductive Plan (α : Type) where
  | done (a : α)
  | ask (q : Query) (next : q.Answer → Plan α)
  | warn (w : Warning) (next : Plan α)

namespace Plan

def bind {α β : Type} : Plan α → (α → Plan β) → Plan β
  | .done a, f => f a
  | .ask q next, f => .ask q fun a => (next a).bind f
  | .warn w next, f => .warn w (next.bind f)

instance : Monad Plan where
  pure := .done
  bind := .bind

/-- Carries a plan out. -/
def run {m : Type → Type} [Monad m] (ask : (q : Query) → m q.Answer) (warn : Warning → m Unit)
    {α : Type} : Plan α → m α
  | .done a => pure a
  | .ask q next => do (next (← ask q)).run ask warn
  | .warn w next => do
    warn w
    next.run ask warn

/-- The text of an item's value. -/
def text (i : Item) : Plan String := .ask (.text i) fun a => .done a.value

/-- Whether an item's value is `y`. -/
def level (i : Item) : Plan Bool := .ask (.level i) fun a => .done a.value

def visible (i : Item) : Plan Bool := .ask (.visible i) .done

def selection (c : ChoiceId) : Plan (Option SymbolId) := .ask (.selection c) .done

def tell (w : Warning) : Plan Unit := .warn w (.done ())

theorem bind_assoc {α β γ : Type} (p : Plan α) (f : α → Plan β) (g : β → Plan γ) :
    (p.bind f).bind g = p.bind fun a => (f a).bind g := by
  induction p with
  | done a => rfl
  | ask q next ih => simp only [Plan.bind, ih]
  | warn w next ih => simp only [Plan.bind, ih]

end Plan
end Kconfig
