import Kconfig.Model.Dependents
import Kconfig.Values.Rule
/-!
Evaluation, plain and with a memory.

`recompute` answers a question from the rules alone. `read` remembers every answer about symbols,
and of choices their visibility, assignable levels and selection, and warns when an answer is made,
not when it is remembered. When a user's value changes, `forgetFrom` forgets the answers about its
item and about everything that depends on it, going no further than items whose visibility is
remembered. Depth is bounded by the number of questions; values that hang on themselves end in a
failure.
-/
namespace Kconfig

/-- What is remembered about a symbol. -/
structure SymbolMemory where
  text : Option (Written String) := none
  level : Option (Written Bool) := none
  visible : Option Bool := none
  assignable : Option (List Bool) := none
  deriving Inhabited

/-- What is remembered about a choice. -/
structure ChoiceMemory where
  visible : Option Bool := none
  assignable : Option (List Bool) := none
  selection : Option (Option SymbolId) := none
  deriving Inhabited

structure Memory where
  symbols : Array SymbolMemory := #[]
  choices : Array ChoiceMemory := #[]
  deriving Inhabited

namespace Memory

def symbol (k : Memory) (s : SymbolId) : SymbolMemory := k.symbols[s]?.getD {}
def choice (k : Memory) (c : ChoiceId) : ChoiceMemory := k.choices[c]?.getD {}

/-- A memory without answers. -/
def empty (m : Model) : Memory := ⟨.replicate m.symbols.size {}, .replicate m.choices.size {}⟩

/-- The remembered answer to a question. -/
def get? (k : Memory) : (q : Query) → Option q.Answer
  | .text (.symbol s) => (k.symbol s).text
  | .level (.symbol s) => (k.symbol s).level
  | .visible (.symbol s) => (k.symbol s).visible
  | .assignable (.symbol s) => (k.symbol s).assignable
  | .text (.choice _) => none
  | .level (.choice _) => none
  | .visible (.choice c) => (k.choice c).visible
  | .assignable (.choice c) => (k.choice c).assignable
  | .selection c => (k.choice c).selection

def modifySymbol (k : Memory) (s : SymbolId) (f : SymbolMemory → SymbolMemory) : Memory :=
  { k with symbols := k.symbols.modify s f }

def modifyChoice (k : Memory) (c : ChoiceId) (f : ChoiceMemory → ChoiceMemory) : Memory :=
  { k with choices := k.choices.modify c f }

/-- The memory with one more answer. -/
def set (k : Memory) : (q : Query) → q.Answer → Memory
  | .text (.symbol s), a => k.modifySymbol s ({ · with text := some a })
  | .level (.symbol s), a => k.modifySymbol s ({ · with level := some a })
  | .visible (.symbol s), a => k.modifySymbol s ({ · with visible := some a })
  | .assignable (.symbol s), a => k.modifySymbol s ({ · with assignable := some a })
  | .text (.choice _), _ => k
  | .level (.choice _), _ => k
  | .visible (.choice c), a => k.modifyChoice c ({ · with visible := some a })
  | .assignable (.choice c), a => k.modifyChoice c ({ · with assignable := some a })
  | .selection c, a => k.modifyChoice c ({ · with selection := some a })

/-- The memory without answers about an item. -/
def forget (k : Memory) : Item → Memory
  | .symbol s => k.modifySymbol s fun _ => {}
  | .choice c => k.modifyChoice c fun _ => {}

/-- Whether an item's visibility is remembered. -/
def knows (k : Memory) (i : Item) : Bool := (k.get? (.visible i)).isSome

/-- The memory without answers about an item and what depends on it; `fuel` bounds the depth. -/
def forgetFor (d : Dependents) : Nat → Memory → Item → Memory
  | 0, k, _ => k
  | fuel + 1, k, i =>
    (d.of i).foldl (fun k j => if k.knows j then forgetFor d fuel k j else k) (k.forget i)

/-- The memory without answers about an item and what depends on it. -/
def forgetFrom (k : Memory) (d : Dependents) (i : Item) : Memory :=
  forgetFor d (k.symbols.size + k.choices.size + 1) k i

end Memory

/-- How deep questions can lead to other questions: no further than there are questions. -/
def Model.depthOfQueries (m : Model) : Nat := 5 * (m.symbols.size + m.choices.size) + 5

/-- The answer to a question by the rules alone, or nothing if it takes more than `depth`. -/
def recomputeAt (m : Model) (u : UserValues) : Nat → (q : Query) → Option q.Answer
  | 0, _ => none
  | depth + 1, q => (m.rule u q).run (recomputeAt m u depth) (fun _ => some ())

/-- The answer to a question by the rules alone. -/
def recompute (m : Model) (u : UserValues) (q : Query) : Option q.Answer :=
  recomputeAt m u m.depthOfQueries q

/-- What an evaluation changes. -/
structure Evaluation where
  memory : Memory := {}
  journal : Journal := {}
  deriving Inhabited

abbrev Evaluating := EStateM Failure Evaluation

namespace Evaluating

def warn (w : Warning) : Evaluating Unit :=
  modify fun e => { e with journal := e.journal.warn none w }

/-- `read` no deeper than `depth`. -/
def readAt (m : Model) (u : UserValues) : Nat → (q : Query) → Evaluating q.Answer
  | 0, _ => throw .endless
  | depth + 1, q => do
    match (← get).memory.get? q with
    | some a => pure a
    | none =>
      let a ← (m.rule u q).run (readAt m u depth) warn
      modify fun e => { e with memory := e.memory.set q a }
      pure a

/-- The answer to a question, from memory if it is there. -/
def read (m : Model) (u : UserValues) (q : Query) : Evaluating q.Answer :=
  readAt m u m.depthOfQueries q

/-- Carries a plan out with the memory. -/
def follow {α : Type} (m : Model) (u : UserValues) (p : Plan α) : Evaluating α :=
  p.run (read m u) warn

end Evaluating
end Kconfig
