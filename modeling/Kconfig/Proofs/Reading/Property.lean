import Kconfig.Proofs.Action
import Kconfig.Reading.FormLine
import Kconfig.Reading.Property

/-!
The pieces that the properties of a node and the lines of the second notation are made of.

`setType`, `setEnvVar` and `readFormLine` branch in the middle and go on. What they go on with has a
name here, so that what is kept by it is proved once and used in each branch.
-/
namespace Kconfig
namespace Reading
variable {n : NodeId}

/-- The item of a node is one of the model. -/
theorem itemOf_ok {u u' : Workspace} {i : Item} (h : itemOf n u = .ok i u') :
    u' = u ∧ (u.model.node n).entry.item? = some i := by
  obtain ⟨_, _, hget, h⟩ := bind_ok h
  cases hget
  cases hitem : (u.model.node n).entry.item? with
  | some j =>
    rw [hitem] at h
    cases h
    exact ⟨rfl, rfl⟩
  | none =>
    rw [hitem] at h
    cases h

/-- The model with another type for one of its items. -/
def retyped (i : Item) (t : ValueType) (m : Model) : Model :=
  match i with
  | .symbol s => m.setSymbol s ({ · with type := t })
  | .choice c => m.setChoice c ({ · with type := t })

/-- The end of the option that takes a default from the environment. -/
def takeVariable (n : NodeId) (name shown : String) (own : Option String) : Reading Unit := do
  match (← get).host.lookup? name with
  | some value =>
    let s ← constant value
    modifyNode n fun node => { node with defaults := node.defaults ++ [⟨.symbol s, .yes⟩] }
  | none => warnHere (.unsetVariable shown name)
  if own ≠ some name then warnHere (.renamedVariable shown name)

end Reading

/-! ### Nested lists -/

namespace Nested

/-- A property of the operands of nested lists that stays with the expressions made of them. -/
structure Kept (P : Reading Expr → Prop) : Prop where
  operand : ∀ s, P (.symbol <$> Kconfig.operand s)
  pure : ∀ e, P (pure e)
  noSuchIndex : P (throw .noSuchIndex)
  illTyped : P (throw .illTyped)
  problem : ∀ p, P (Reading.problem p)
  not : ∀ {x}, P x → P (.not <$> x)
  both : ∀ {x y : Reading Expr} {f : Expr → Expr → Reading Expr}, P x → P y →
    (∀ a b, P (f a b)) → P (x >>= fun a => y >>= f a)

namespace Kept
variable {P : Reading Expr → Prop}

theorem ite (_ : Kept P) {c : Prop} [Decidable c] {x y : Reading Expr} (hx : P x) (hy : P y) :
    P (if c then x else y) := by
  split
  · exact hx
  · exact hy

theorem joined (h : Kept P) {left right : Reading Expr} (sign : Nested) (isLast : Bool)
    (hleft : P left) (hright : P right) : P (joined sign isLast left right) := by
  unfold Nested.joined
  refine h.ite (h.both hleft hright fun _ _ => h.pure _) ?_
  refine h.ite (h.both hleft hright fun _ _ => h.pure _) ?_
  split
  · exact h.illTyped
  · split
    · refine h.ite (h.both hleft hright fun a b => ?_) (h.problem _)
      unfold Expr.compared
      split
      · exact h.pure _
      · exact h.problem _
    · exact h.problem _

mutual

theorem resolve (h : Kept P) : ∀ n : Nested, P n.resolve
  | .text s => by
    rw [Nested.resolve]
    exact h.operand s
  | .group parts => by
    rw [Nested.resolve]
    exact resolveAll h parts

theorem resolveAll (h : Kept P) : ∀ parts : List Nested, P (resolveAll parts)
  | [] => h.noSuchIndex
  | [part] => by
    rw [Nested.resolveAll]
    exact resolve h part
  | part :: sign :: more => by
    rw [Nested.resolveAll]
    refine h.ite (h.not (resolveAll h (sign :: more))) (h.ite (h.problem _) ?_)
    exact h.joined sign _ (resolve h part) (resolveAll h more)

end
end Kept
end Nested

namespace Statement
variable (expression : Infix)

/-- What is made of the code of a line that has to match the grammar. -/
def finishForm (problem : Problem) (code : List Char) : Reading (Option Statement) :=
  match Form.parse? expression code with
  | some captured => return some (ofCaptured captured)
  | none => Reading.problem problem

/-- The end of a line in the second notation, from its code and its first word. -/
def finishFormLine (line code word : List Char) : Reading (Option Statement) := do
  if startsForm word then
    let code ← if hasMacro code then Macro.expandText code else pure code
    finishForm expression (problemAfter (String.ofList word)) code
  else
    Macro.readAssignment line
    return none

end Statement
end Kconfig
