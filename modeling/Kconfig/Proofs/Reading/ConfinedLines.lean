import Kconfig.Proofs.Reading.Confined
import Kconfig.Proofs.Reading.OnePass
import Kconfig.Proofs.Reading.Property
/-!
Lines stay where they are, in both notations.

The statement of a line stays at its line when all its parts do, and so does a property that is
added to a node. What a statement does to the files that it includes is not told here.
-/
namespace Kconfig
open Macro (Idle)
variable {scene : Scene} {M : Array Variable → Prop} {α β : Type}

namespace Reading

theorem confined_modifyModel {f : Model → Model} (hf : ∀ m : Model, (f m).nodes = m.nodes) :
    Confined scene M (modifyModel f) :=
  .update fun _ h => h.congr rfl rfl rfl (hf _) rfl

/-! ### Names -/

theorem confined_addSymbol (name : String) (isConstant : Bool) :
    Confined scene M (addSymbol name isConstant) :=
  .bind .get fun _ => .bind (confined_modifyModel fun _ => rfl) fun _ => .pure _

theorem confined_symbol (name : String) : Confined scene M (symbol name) := by
  refine .bind .get fun w => ?_
  split
  · exact .pure _
  · exact .ite (confined_addSymbol _ _) (.bind (guards_warn _) fun _ => confined_addSymbol _ _)

theorem confined_constant (text : String) : Confined scene M (constant text) := by
  refine .bind .get fun w => ?_
  split
  · exact .pure _
  · exact confined_addSymbol _ _

theorem confined_word (name : String) : Confined scene M (word name) :=
  .ite (.pure _) (.ite (.pure _) (confined_symbol _))

end Reading

/-! ### Statements -/

/-- The parts of a statement stay in the file. -/
def Statement.Confined (scene : Scene) : Statement → Prop
  | .config _ name => Kconfig.Confined scene Idle name
  | .menu text | .comment text | .mainmenu text | .source _ _ text =>
    Kconfig.Confined scene Idle text
  | .choice name => Kconfig.Confined scene Idle name
  | .block cond | .depends cond | .visible cond => Kconfig.Confined scene Idle cond
  | .close _ tail => Kconfig.Confined scene Idle tail
  | .type _ shown => ∀ part, shown = some part →
      Kconfig.Confined scene Idle part.text ∧ Kconfig.Confined scene Idle part.cond
  | .prompt part => Kconfig.Confined scene Idle part.text ∧ Kconfig.Confined scene Idle part.cond
  | .select target cond | .imply target cond =>
    Kconfig.Confined scene Idle target ∧ Kconfig.Confined scene Idle cond
  | .default value cond => Kconfig.Confined scene Idle value ∧ Kconfig.Confined scene Idle cond
  | .range bounds cond => Kconfig.Confined scene Idle bounds ∧ Kconfig.Confined scene Idle cond
  | .option part => Kconfig.Confined scene Idle part
  | .stray | .optional | .help => True

/-- The action stays in the file, and what it gives, if it gives something, is a statement whose
parts do. -/
def GivesConfined (action : Reading (Option Statement)) : Prop :=
  ∀ (scene : Scene) (w : Workspace), scene.Holds Idle w → Meets action w
    (fun given w' => scene.Holds Idle w' ∧
      ∀ statement, given = some statement → ∀ scene, statement.Confined scene)
    (scene.Fails Idle)

namespace GivesConfined

theorem bind {action : Reading α} {next : α → Reading (Option Statement)}
    (h : ∀ scene, Confined scene Idle action) (hnext : ∀ a, GivesConfined (next a)) :
    GivesConfined (action >>= next) := fun scene w hw =>
  (h scene w hw).bind fun a w' hw' => hnext a scene w' hw'

theorem pure {given : Option Statement}
    (h : ∀ statement, given = some statement → ∀ scene, statement.Confined scene) :
    GivesConfined (Pure.pure given) := fun _ _ hw => .pure ⟨hw, h⟩

theorem none : GivesConfined (Pure.pure none) := pure nofun

theorem some {statement : Statement} (h : ∀ scene, statement.Confined scene) :
    GivesConfined (Pure.pure (some statement)) := pure fun _ hs => Option.some.inj hs ▸ h

theorem problem (p : Problem) : GivesConfined (Reading.problem p) := fun _ _ hw =>
  (Reading.meets_problem p hw).mono (fun _ _ h => h) fun _ _ h => h.1

theorem ite {c : Prop} [Decidable c] {action action' : Reading (Option Statement)}
    (h : GivesConfined action) (h' : GivesConfined action') :
    GivesConfined (if c then action else action') := by
  split
  · exact h
  · exact h'

end GivesConfined

/-! ### The notation of tokens -/

namespace Token
open Reading

theorem confined_readQuoted (quote : Char) (s : List Char) :
    Confined scene M (readQuoted quote s) := by
  unfold readQuoted
  refine .ite (.bind ((Macro.contained_readString _ _).confined) fun _ => .bind (confined_expandEnv _) fun _ =>
    .pure _) ?_
  split
  · exact .pure _
  · exact confined_problem _

theorem confined_readWord (previous : Token) (word s : List Char) :
    Confined scene M (readWord previous word s) := by
  unfold readWord
  dsimp only
  split
  · exact .pure _
  · refine .ite (.ite ?_ (.pure _)) (.ite ?_ ?_)
    · exact .bind .get fun _ => .bind (guards_warnHere _) fun _ => .pure _
    · exact .bind ((Macro.contained_readName _).confined) fun _ => .bind (confined_word _) fun _ => .pure _
    · exact .bind (confined_word _) fun _ => .pure _

theorem confined_readOther (first previous : Token) (c : Char) (s : List Char) :
    Confined scene M (readOther first previous c s) := by
  unfold readOther
  split
  · refine .bind (confined_readQuoted _ _) fun (body, rest) => ?_
    simp only [pure_bind]
    exact .ite (.pure _) (.bind (confined_constant _) fun _ => .pure _)
  · split
    · exact .pure _
    · exact confined_problem _

theorem confined_readRest (first : Token) : ∀ (fuel : Nat) (previous : Token) (s : List Char),
    Confined scene M (readRest first fuel previous s)
  | 0, _, _ => .pure _
  | _ + 1, _, [] => .pure _
  | fuel + 1, previous, c :: s => by
    rw [readRest]
    refine .ite (.pure _) (.ite ?_ ?_)
    · exact .bind (confined_readOther _ _ _ _) fun _ =>
        .bind (confined_readRest _ _ _ _) fun _ => .pure _
    · exact .bind (confined_readWord _ _ _) fun _ =>
        .bind (confined_readRest _ _ _ _) fun _ => .pure _

theorem confined_readLine (line : List Char) : Confined scene Idle (readLine line) := by
  refine .bind (confined_beginLine _) fun _ => .ite (.ite (.pure _) (confined_problem _)) ?_
  dsimp only
  split
  · exact .bind (confined_readRest _ _ _ _) fun _ => .pure _
  · exact .ite (.pure _) (.bind ((Macro.contained_readAssignment _).confined) fun _ => .pure _)

/-- A condition is no assignment, so nothing is asked of the variables. -/
theorem confined_readLine_if (s : List Char) :
    Confined scene M (readLine ("if ".toList ++ s)) := by
  have hskip : ("if ".toList ++ s).dropWhile Text.asciiBlank = 'i' :: 'f' :: ' ' :: s :=
    List.dropWhile_cons_of_neg (by decide)
  have hword : ('i' :: 'f' :: ' ' :: s).takeWhile isCommandChar = ['i', 'f'] := rfl
  have hkeyword : Keyword.find? (String.ofList ['i', 'f']) = some .ifWord := rfl
  refine .bind (confined_beginLine _) fun _ => ?_
  dsimp only
  rw [hskip, hword, if_neg (by simp), hkeyword]
  exact .bind (confined_readRest _ _ _ _) fun _ => .pure _

end Token

namespace Statement
open Token

theorem confined_part (e : Except Problem α) : Kconfig.Confined scene M (part e) := by
  cases e with
  | ok a => exact .pure a
  | error p => exact Reading.confined_problem p

theorem confined_variableSymbol (p : Problem) (tokens : List Token) :
    Kconfig.Confined scene Idle (variableSymbol p tokens) := by
  unfold variableSymbol
  split
  · exact .bind .get fun _ => .ite (Reading.confined_problem _) (.pure _)
  · exact Reading.confined_problem _

theorem confined_promptPart (tokens : List Token) :
    Kconfig.Confined scene Idle (promptPart tokens).text ∧
      Kconfig.Confined scene Idle (promptPart tokens).cond := by
  unfold promptPart
  split
  · exact ⟨.pure _, confined_part _⟩
  · exact ⟨Reading.confined_problem _, .pure _⟩

theorem confined_ofKeyword (k : Keyword) (rest : List Token) :
    (ofKeyword k rest).Confined scene := by
  have hname : Kconfig.Confined scene Idle (do
      let s ← variableSymbol .badName rest
      part (takeEnd (rest.drop 1))
      pure s) := .bind (confined_variableSymbol _ _) fun _ => .bind (confined_part _) fun _ => .pure _
  cases k with
  | config => exact hname
  | menuconfig => exact hname
  | choice => exact .ite (.pure _) (.map _ (confined_part _))
  | type t =>
    intro part hpart
    split at hpart
    · cases hpart
    · obtain rfl := Option.some.inj hpart
      exact confined_promptPart _
  | prompt => exact confined_promptPart _
  | depends =>
    show Kconfig.Confined scene Idle _
    split
    · exact confined_part _
    · exact Reading.confined_problem _
  | visible =>
    show Kconfig.Confined scene Idle _
    split
    · exact confined_part _
    · exact Reading.confined_problem _
  | select => exact ⟨confined_variableSymbol _ _, confined_part _⟩
  | imply => exact ⟨confined_variableSymbol _ _, confined_part _⟩
  | default => exact ⟨confined_part _, confined_part _⟩
  | range => exact ⟨confined_part _, confined_part _⟩
  | optional => exact trivial
  | help => exact trivial
  | on => exact trivial
  | env => exact trivial
  | defconfigList => exact trivial
  | allnoconfigY => exact trivial
  | _ => exact confined_part _

theorem confined_ofTokens {tokens : List Token} {statement : Statement}
    (h : ofTokens tokens = some statement) : statement.Confined scene := by
  unfold ofTokens at h
  split at h
  · exact nomatch h
  · obtain rfl := Option.some.inj h
    exact confined_ofKeyword _ _
  · obtain rfl := Option.some.inj h
    exact trivial

/-- A line in the first notation stays in the file. -/
theorem readTokenLine_givesConfined (line : List Char) : GivesConfined (readTokenLine line) := by
  show GivesConfined (readLine line >>= fun tokens => pure (ofTokens tokens))
  exact .bind (fun _ => confined_readLine line) fun tokens =>
    .pure fun statement hs scene => confined_ofTokens hs

end Statement

/-- So does an expression that is given by hand, also where expansions have been left begun. -/
theorem Reading.confined_expression (text : String) : Confined scene M (expression text) :=
  .bind (Token.confined_readLine_if _) fun _ =>
    .bind (.update fun _ h => ⟨h.settings, h.includes, h.file, h.line, h.host, h.nodes, h.macros⟩)
      fun _ => Statement.confined_part _

/-! ### The notation of line forms -/

theorem confined_noSuchIndex : Confined scene Idle (throw .noSuchIndex : Reading α) :=
  .throw fun _ hw => hw.fails trivial nofun

theorem confined_operand (token : List Char) : Confined scene Idle (operand token) := by
  unfold operand
  split
  · exact confined_noSuchIndex
  · exact .ite (.bind (Reading.confined_expandEnv _) fun _ => Reading.confined_constant _)
      (Reading.confined_word _)

theorem Nested.confined_resolve (n : Nested) : Confined scene Idle n.resolve :=
  Kept.resolve (P := Confined scene Idle)
    { operand := fun s => .map _ (confined_operand s)
      pure := fun _ => .pure _
      noSuchIndex := confined_noSuchIndex
      illTyped := .throw fun _ hw => hw.fails trivial nofun
      problem := Reading.confined_problem
      not := fun hx => .map _ hx
      both := fun hx hy hf => .bind hx fun a => .bind hy fun b => hf a b } n

namespace Statement

theorem confined_textPart (s : List Char) : Kconfig.Confined scene Idle (textPart s) :=
  .map _ (Reading.confined_expandEnv _)

theorem confined_conditionPart (cond : Option Nested) :
    Kconfig.Confined scene Idle (conditionPart cond) := by
  cases cond with
  | none => exact .pure _
  | some cond => exact cond.confined_resolve

theorem confined_promptOf (captured : List Char × Option Nested) :
    Kconfig.Confined scene Idle (promptOf captured).text ∧
      Kconfig.Confined scene Idle (promptOf captured).cond :=
  ⟨confined_textPart _, confined_conditionPart _⟩

theorem confined_boundsPart (low high : List Char) :
    Kconfig.Confined scene Idle (boundsPart low high) :=
  .bind (confined_operand low) fun _ => .bind (confined_operand high) fun _ => .pure _

theorem confined_namedSymbol (p : Problem) (name : List Char) :
    Kconfig.Confined scene Idle (namedSymbol p name) :=
  .ite (Reading.confined_problem _) (Reading.confined_symbol _)

/-- What a form captures makes a statement that stays in the file. -/
theorem confined_ofCaptured (captured : Captured) : (ofCaptured captured).Confined scene := by
  cases captured with
  | config keyword name => exact confined_namedSymbol _ _
  | menu | comment | mainmenu | source => exact confined_textPart _
  | choice | close | env | flag => exact .pure _
  | block expr | depends expr | visible expr => exact expr.confined_resolve
  | type keyword captured =>
    intro part hpart
    obtain ⟨prompt, -, rfl⟩ := Option.map_eq_some_iff.mp hpart
    exact confined_promptOf _
  | prompt => exact confined_promptOf _
  | default expr cond => exact ⟨expr.confined_resolve, confined_conditionPart cond⟩
  | select keyword name cond =>
    unfold ofCaptured
    dsimp only
    split <;> exact ⟨confined_namedSymbol _ _, confined_conditionPart cond⟩
  | range low high cond => exact ⟨confined_boundsPart low high, confined_conditionPart cond⟩
  | optional | help => exact trivial

/-- A line in the second notation stays in the file. -/
theorem readFormLine_givesConfined (expression : Infix) (line : List Char) :
    GivesConfined (readFormLine expression line) := by
  have hcode : ∀ problem code, GivesConfined (finishForm expression problem code) := by
    intro problem code
    unfold finishForm
    split
    · next captured _ => exact .some fun scene => confined_ofCaptured captured
    · exact .problem _
  have hform : ∀ code word, GivesConfined (finishFormLine expression line code word) :=
    fun code word => .ite
      (.ite (.bind (fun _ => (Macro.contained_expandText _).confined) fun _ => hcode _ _)
        (.bind (fun _ => .pure _) fun _ => hcode _ _))
      (.bind (fun _ => (Macro.contained_readAssignment _).confined) fun _ => .none)
  refine .bind (fun _ => Reading.confined_beginLine _) fun _ => ?_
  exact .ite .none (.ite (.bind (fun _ => Reading.confined_problem _) fun _ => hform _ _) (hform _ _))

end Statement

/-- The lines of a notation stay in the file, and so do the statements that they give. -/
def Dialect.Confined (dialect : Dialect) : Prop := ∀ line, GivesConfined (dialect.readLine line)

theorem Dialect.confined_tokens : Dialect.tokens.Confined := Statement.readTokenLine_givesConfined

theorem Dialect.confined_forms (expression : Infix) : (Dialect.forms expression).Confined :=
  Statement.readFormLine_givesConfined expression

/-! ### Properties -/

namespace Reading
variable {n : NodeId}

theorem confined_itemOf : Confined scene Idle (itemOf n) := by
  refine .bind .get fun w => ?_
  split
  · exact .pure _
  · exact .throw fun _ hw => hw.fails trivial nofun

theorem confined_warnOwner (warning : String → Warning) :
    Confined scene Idle (warnOwner n warning) :=
  .bind confined_itemOf fun _ => .bind .get fun _ => guards_warn _

/-- A change inside a node leaves it where it stands. -/
theorem confined_modifyNode {f : MenuNode → MenuNode}
    (hf : ∀ node, (f node).site = node.site) : Confined scene Idle (modifyNode n f) := by
  refine .update fun w h => ⟨h.settings, h.includes, h.file, h.line, h.host,
    ⟨(Array.size_modify ..).symm ▸ h.nodes.count, fun m node hnode => ?_⟩, h.macros⟩
  change (w.model.nodes.modify n f)[m]? = some node at hnode
  rw [Array.getElem?_modify] at hnode
  split at hnode
  · obtain ⟨before, hbefore, rfl⟩ := Option.map_eq_some_iff.mp hnode
    rw [hf]
    exact h.nodes.site m before hbefore
  · exact h.nodes.site m node hnode

/-- A new node stands at the line that is read. -/
theorem confined_addNode (entry : Entry) (isMenuconfig : Bool) (prompt : Option Prompt) :
    Confined scene Idle (addNode entry isMenuconfig prompt) := by
  refine .bind_get fun w h => .bind (Q := fun _ => scene.Holds Idle) (.update ?_) fun _ _ h => .pure h
  refine ⟨h.settings, h.includes, h.file, h.line, h.host,
    ⟨(Array.size_push ..).symm ▸ Nat.le_succ_of_le h.nodes.count, fun m node hnode => ?_⟩, h.macros⟩
  rw [Array.getElem?_push] at hnode
  split at hnode
  · next hnew =>
    refine .inl ⟨hnew.symm ▸ h.nodes.count, ?_⟩
    rw [← Option.some.inj hnode, MenuNode.site, Scene.site, h.includes, h.file, h.line]
  · exact h.nodes.site m node hnode

theorem confined_setType (t : ValueType) : Confined scene Idle (setType n t) := by
  refine .bind confined_itemOf fun i => .bind .get fun _ => ?_
  have hset : Confined scene Idle (modifyModel (retyped i t)) := by
    refine confined_modifyModel fun m => ?_
    cases i <;> rfl
  exact .ite (.bind (confined_warnOwner _) fun _ => hset) hset

theorem confined_setPrompt {part : PromptPart} (htext : Confined scene Idle part.text)
    (hcond : Confined scene Idle part.cond) : Confined scene Idle (setPrompt n part) := by
  have hrest : ∀ text, Confined scene Idle (do
      let cond ← part.cond
      modifyNode n ({ · with prompt := some ⟨Text.trimmed text, cond⟩ })) := fun text =>
    .bind hcond fun _ => confined_modifyNode fun _ => rfl
  have hshown : Confined scene Idle (do
      let text ← part.text
      if Text.trimmed text ≠ text then warnOwner n .promptBlanks
      let cond ← part.cond
      modifyNode n ({ · with prompt := some ⟨Text.trimmed text, cond⟩ })) :=
    .bind htext fun text => .ite (.bind (confined_warnOwner _) fun _ => hrest text) (hrest text)
  exact .bind .get fun _ => .ite (.bind (confined_warnOwner _) fun _ => hshown) hshown

theorem confined_setEnvVar (name : String) : Confined scene Idle (setEnvVar n name) := by
  refine .bind confined_itemOf fun i => .bind .get fun w => ?_
  have htail : ∀ own, Confined scene Idle (takeVariable n name (shownName w.model i) own) := by
    intro own
    have hend : Confined scene Idle (if own ≠ some name then
        warnHere (.renamedVariable (shownName w.model i) name) else pure ()) :=
      .ite (guards_warnHere _) (.pure _)
    refine .bind .get fun w' => ?_
    dsimp only
    split
    · exact .bind (confined_constant _) fun _ =>
        .bind (confined_modifyNode fun _ => rfl) fun _ => hend
    · exact .bind (guards_warnHere _) fun _ => hend
  cases i with
  | symbol s => exact .bind (confined_modifyModel fun _ => rfl) fun _ => htail _
  | choice c => exact htail _

theorem confined_setDefconfigList : Confined scene Idle (setDefconfigList n) := by
  refine .bind .get fun w => ?_
  dsimp only
  split
  · exact confined_modifyModel fun _ => rfl
  · split
    · exact guards_warnHere _
    · exact .throw fun _ hw => hw.fails trivial nofun

theorem confined_needSymbol (p : Problem) : Confined scene Idle (needSymbol n p) := by
  refine .bind .get fun w => ?_
  split
  · exact .pure _
  · exact confined_problem _

theorem confined_addProperty {statement : Statement} (h : statement.Confined scene) :
    Confined scene Idle (addProperty n statement) := by
  cases statement with
  | type t prompt =>
    refine .bind (confined_setType t) fun _ => ?_
    cases prompt with
    | none => exact .pure _
    | some part => exact confined_setPrompt (h part rfl).1 (h part rfl).2
  | prompt part => exact confined_setPrompt h.1 h.2
  | depends cond => exact .bind h fun _ => confined_modifyNode fun _ => rfl
  | visible cond => exact .bind h fun _ => confined_modifyNode fun _ => rfl
  | select target cond =>
    exact .bind (confined_needSymbol _) fun _ => .bind h.1 fun _ => .bind h.2 fun _ =>
      confined_modifyNode fun _ => rfl
  | imply target cond =>
    exact .bind (confined_needSymbol _) fun _ => .bind h.1 fun _ => .bind h.2 fun _ =>
      confined_modifyNode fun _ => rfl
  | default value cond =>
    exact .bind h.1 fun _ => .bind h.2 fun _ => confined_modifyNode fun _ => rfl
  | range bounds cond =>
    exact .bind h.1 fun _ => .bind h.2 fun _ => confined_modifyNode fun _ => rfl
  | option part =>
    refine .bind h fun part => ?_
    cases part with
    | env name => exact confined_setEnvVar name
    | defconfigList => exact confined_setDefconfigList
    | allnoconfigY =>
      refine .bind (confined_needSymbol _) fun _ => .bind .get fun w => ?_
      split
      · exact confined_modifyModel fun _ => rfl
      · exact .pure _
  | optional =>
    refine .bind .get fun w => ?_
    split
    · exact .pure _
    · exact confined_problem _
  | _ => exact .pure _

theorem confined_setHelp (help : HelpText) : Confined scene Idle (setHelp n help) :=
  .ite (.bind (confined_warnOwner _) fun _ => confined_modifyNode fun _ => rfl)
    (confined_modifyNode fun _ => rfl)

end Reading
end Kconfig
