import Kconfig.Proofs.Reading.Lines
import Kconfig.Proofs.Reading.Printing
/-!
Expressions that are given by hand mention symbols and change no others.

Whatever a text says, and whether it can be read or not, reading it while no file is read makes no
symbol known. Names that are not known are mentioned, and the model is otherwise left alone.
-/
namespace Kconfig
variable {α : Type} {known : Nat} {w w' : Workspace}

/-- No file is read, and so many symbols are known. -/
structure Workspace.ClosedWith (known : Nat) (w : Workspace) : Prop extends w.Closed where
  known : w.model.known = known

theorem Workspace.ClosedWith.aside (h : w.ClosedWith known) (haside : Aside w w') :
    w'.ClosedWith known := by
  refine ⟨⟨haside.isOpen.trans h.isOpen, ?_⟩, ?_⟩
  · rw [haside.model]
    exact h.indexed
  · rw [haside.model]
    exact h.known

theorem Aloof.closedWith {action : Reading α} (h : Aloof action) :
    Keeps (Workspace.ClosedWith known) action := h.keeping fun _ _ haside hw => hw.aside haside

namespace Reading

/-- A name that is not known is mentioned. -/
theorem closedWith_addSymbol {name : String} {isConstant : Bool} (hw : w.ClosedWith known)
    (hnew : w.model.find? name isConstant = none)
    (hname : isConstant = false → name ≠ "n" ∧ name ≠ "y") :
    KeepsAt (Workspace.ClosedWith known) w (addSymbol name isConstant) := by
  unfold KeepsAt
  rw [addSymbol_mentions hw.isOpen]
  exact ⟨⟨hw.isOpen, hw.indexed.mention hnew hname⟩, hw.known⟩

theorem keeps_symbol {name : String} (hname : name ≠ "n" ∧ name ≠ "y") :
    Keeps (Workspace.ClosedWith known) (symbol name) := by
  refine .bind_get fun w hw => ?_
  cases hfind : w.model.find? name false with
  | some s => exact hw
  | none =>
    dsimp only
    rw [if_neg (by simp [hw.isOpen])]
    have htold : Workspace.ClosedWith known
        { w with journal := w.journal.warn none (.unknownSymbol name) } := hw.aside ⟨rfl, rfl, rfl⟩
    exact closedWith_addSymbol htold hfind fun _ => hname

theorem keeps_constant (text : String) : Keeps (Workspace.ClosedWith known) (constant text) := by
  refine .bind_get fun w hw => ?_
  cases hfind : w.model.find? text true with
  | some s => exact hw
  | none => exact closedWith_addSymbol hw hfind (by simp)

theorem keeps_word (name : String) : Keeps (Workspace.ClosedWith known) (word name) := by
  unfold word
  split
  · exact .pure _
  · next hno =>
    split
    · exact .pure _
    · next hyes => exact keeps_symbol ⟨hno, hyes⟩

end Reading

namespace Token
open Reading

theorem keeps_readWord (previous : Token) (word s : List Char) :
    Keeps (Workspace.ClosedWith known) (readWord previous word s) := by
  have hname : ∀ (name : String) (rest : List Char), Keeps (Workspace.ClosedWith known) (do
      pure (Token.symbol (← Reading.word name), rest) : Reading (Token × List Char)) :=
    fun name rest => .bind (keeps_word name) fun _ => .pure _
  unfold readWord
  dsimp only
  split
  · exact .pure _
  · split
    · exact .ite (.bind .get fun _ => .bind (aloof_warnHere _).closedWith fun _ => .pure _) (.pure _)
    · exact .ite (.bind (Macro.aloof_readName _).closedWith fun _ => hname _ _) (hname _ _)

theorem keeps_readOther (first previous : Token) (c : Char) (s : List Char) :
    Keeps (Workspace.ClosedWith known) (readOther first previous c s) := by
  unfold readOther
  split
  · refine .bind (aloof_readQuoted _ _).closedWith fun (body, rest) => ?_
    simp only [pure_bind]
    exact .ite (.pure _) (.bind (keeps_constant _) fun _ => .pure _)
  · split
    · exact .pure _
    · exact (aloof_problem _).closedWith

theorem keeps_readRest (first : Token) : ∀ (fuel : Nat) (previous : Token) (s : List Char),
    Keeps (Workspace.ClosedWith known) (readRest first fuel previous s)
  | 0, _, _ => .pure _
  | _ + 1, _, [] => .pure _
  | fuel + 1, previous, c :: s => by
    have hrest : ∀ p : Token × List Char, Keeps (Workspace.ClosedWith known) (do
        let tokens ← readRest first fuel p.1 p.2
        pure (p.1 :: tokens)) := fun p => .bind (keeps_readRest first fuel p.1 p.2) fun _ => .pure _
    rw [readRest]
    dsimp only
    refine .ite (.pure _) ?_
    split
    · exact .bind (keeps_readOther _ _ _ _) hrest
    · exact .bind (keeps_readWord _ _ _) hrest

theorem keeps_readLine (line : List Char) :
    Keeps (Workspace.ClosedWith known) (readLine line) := by
  refine .bind (aloof_beginLine _).closedWith fun _ => ?_
  dsimp only
  split
  · exact .ite (.pure _) (aloof_problem _).closedWith
  · split
    · exact .bind (keeps_readRest _ _ _ _) fun _ => .pure _
    · exact .ite (.pure _) (.bind (Macro.aloof_readAssignment _).closedWith fun _ => .pure _)

end Token

namespace Reading

/-- A text that is read as an expression, or that cannot be, makes no symbol known. -/
theorem keeps_expression (text : String) :
    Keeps (Workspace.ClosedWith known) (expression text) := by
  refine .bind (Token.keeps_readLine _) fun tokens => .bind (.update fun _ hw => ?_) fun _ => ?_
  · exact hw.aside ⟨rfl, rfl, rfl⟩
  · unfold Statement.part
    split
    · exact .pure _
    · exact (aloof_problem _).closedWith

end Reading
end Kconfig
