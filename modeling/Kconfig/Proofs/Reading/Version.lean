import Kconfig.Proofs.Reading.Files
/-!
The version of the notation is not read while files are read.

The version only chooses the dialect. From then on nothing looks at it: what a dialect reads in a
workspace, it reads in the workspace of another version as well.
-/
namespace Kconfig
variable {α : Type} {v : Int}

namespace Reading

theorem blind_addSymbol (name : String) (isConstant : Bool) :
    Blind (Workspace.asVersion v) (addSymbol name isConstant) :=
  .bind_get (fun _ => rfl) fun _ => .bind (.modifyModel _) fun _ => .pure _

theorem blind_symbol (name : String) : Blind (Workspace.asVersion v) (symbol name) := by
  refine .bind_get (fun _ => rfl) fun w => ?_
  split
  · exact .pure _
  · exact .ite (blind_addSymbol _ _) (.bind (.warn _) fun _ => blind_addSymbol _ _)

theorem blind_constant (text : String) : Blind (Workspace.asVersion v) (constant text) := by
  refine .bind_get (fun _ => rfl) fun w => ?_
  split
  · exact .pure _
  · exact blind_addSymbol _ _

theorem blind_word (name : String) : Blind (Workspace.asVersion v) (word name) :=
  .ite (.pure _) (.ite (.pure _) (blind_symbol _))

end Reading

/-! ### Tokens -/

namespace Token
open Reading

theorem blind_readWord (previous : Token) (word s : List Char) :
    Blind (Workspace.asVersion v) (readWord previous word s) := by
  unfold readWord
  dsimp only
  split
  · exact .pure _
  · refine .ite (.ite ?_ (.pure _)) (.ite ?_ ?_)
    · exact .bind_get (fun _ => rfl) fun _ => .bind ((aloof_warnHere _).unversioned _) fun _ => .pure _
    · exact .bind ((Macro.aloof_readName _).unversioned _) fun _ => .bind (blind_word _) fun _ => .pure _
    · exact .bind (blind_word _) fun _ => .pure _

theorem blind_readOther (first previous : Token) (c : Char) (s : List Char) :
    Blind (Workspace.asVersion v) (readOther first previous c s) := by
  unfold readOther
  split
  · refine .bind ((aloof_readQuoted _ _).unversioned _) fun (body, rest) => ?_
    simp only [pure_bind]
    exact .ite (.pure _) (.bind (blind_constant _) fun _ => .pure _)
  · split
    · exact .pure _
    · exact .problem _

theorem blind_readRest (first : Token) : ∀ (fuel : Nat) (previous : Token) (s : List Char),
    Blind (Workspace.asVersion v) (readRest first fuel previous s)
  | 0, _, _ => .pure _
  | _ + 1, _, [] => .pure _
  | fuel + 1, previous, c :: s => by
    rw [readRest]
    refine .ite (.pure _) (.ite ?_ ?_)
    · exact .bind (blind_readOther _ _ _ _) fun _ => .bind (blind_readRest _ _ _ _) fun _ => .pure _
    · exact .bind (blind_readWord _ _ _) fun _ => .bind (blind_readRest _ _ _ _) fun _ => .pure _

theorem blind_readLine (line : List Char) : Blind (Workspace.asVersion v) (readLine line) := by
  refine .bind ((aloof_beginLine _).unversioned _) fun _ => .ite (.ite (.pure _) (.problem _)) ?_
  dsimp only
  split
  · exact .bind (blind_readRest _ _ _ _) fun _ => .pure _
  · exact .ite (.pure _) (.bind ((Macro.aloof_readAssignment _).unversioned _) fun _ => .pure _)

end Token

/-! ### Statements -/

/-- The parts of a statement are blind to the version. -/
def Statement.Unversioned (v : Int) : Statement → Prop
  | .config _ name => Blind (.asVersion v) name
  | .menu text | .comment text | .mainmenu text | .source _ _ text => Blind (.asVersion v) text
  | .choice name => Blind (.asVersion v) name
  | .block cond | .depends cond | .visible cond => Blind (.asVersion v) cond
  | .close _ tail => Blind (.asVersion v) tail
  | .type _ shown => ∀ part, shown = some part →
      Blind (.asVersion v) part.text ∧ Blind (.asVersion v) part.cond
  | .prompt part => Blind (.asVersion v) part.text ∧ Blind (.asVersion v) part.cond
  | .select target cond | .imply target cond =>
    Blind (.asVersion v) target ∧ Blind (.asVersion v) cond
  | .default value cond => Blind (.asVersion v) value ∧ Blind (.asVersion v) cond
  | .range bounds cond => Blind (.asVersion v) bounds ∧ Blind (.asVersion v) cond
  | .option part => Blind (.asVersion v) part
  | .stray | .optional | .help => True

namespace Statement
open Token

theorem blind_part (e : Except Problem α) : Blind (Workspace.asVersion v) (part e) := by
  cases e with
  | ok a => exact .pure a
  | error p => exact .problem p

theorem blind_variableSymbol (p : Problem) (tokens : List Token) :
    Blind (Workspace.asVersion v) (variableSymbol p tokens) := by
  unfold variableSymbol
  split
  · exact .bind_get (fun _ => rfl) fun _ => .ite (.problem _) (.pure _)
  · exact .problem _

theorem blind_promptPart (tokens : List Token) :
    Blind (Workspace.asVersion v) (promptPart tokens).text ∧
      Blind (Workspace.asVersion v) (promptPart tokens).cond := by
  unfold promptPart
  split
  · exact ⟨.pure _, blind_part _⟩
  · exact ⟨.problem _, .pure _⟩

theorem unversioned_ofKeyword (k : Keyword) (rest : List Token) :
    (ofKeyword k rest).Unversioned v := by
  have hname : Blind (Workspace.asVersion v) (do
      let s ← variableSymbol .badName rest
      part (takeEnd (rest.drop 1))
      pure s) := .bind (blind_variableSymbol _ _) fun _ => .bind (blind_part _) fun _ => .pure _
  cases k with
  | config => exact hname
  | menuconfig => exact hname
  | choice => exact .ite (.pure _) (.map _ (blind_part _))
  | type t =>
    intro part hpart
    split at hpart
    · cases hpart
    · obtain rfl := Option.some.inj hpart
      exact blind_promptPart _
  | prompt => exact blind_promptPart _
  | depends =>
    show Blind (Workspace.asVersion v) _
    split
    · exact blind_part _
    · exact .problem _
  | visible =>
    show Blind (Workspace.asVersion v) _
    split
    · exact blind_part _
    · exact .problem _
  | select => exact ⟨blind_variableSymbol _ _, blind_part _⟩
  | imply => exact ⟨blind_variableSymbol _ _, blind_part _⟩
  | default => exact ⟨blind_part _, blind_part _⟩
  | range => exact ⟨blind_part _, blind_part _⟩
  | optional => exact trivial
  | help => exact trivial
  | on => exact trivial
  | env => exact trivial
  | defconfigList => exact trivial
  | allnoconfigY => exact trivial
  | _ => exact blind_part _

theorem unversioned_ofTokens {tokens : List Token} {statement : Statement}
    (h : ofTokens tokens = some statement) : statement.Unversioned v := by
  unfold ofTokens at h
  split at h
  · exact nomatch h
  · obtain rfl := Option.some.inj h
    exact unversioned_ofKeyword _ _
  · obtain rfl := Option.some.inj h
    exact trivial

end Statement
/-! ### Properties and places -/

namespace Reading
variable {n : NodeId}

theorem blind_addNode (entry : Entry) (isMenuconfig : Bool) (prompt : Option Prompt) :
    Blind (Workspace.asVersion v) (addNode entry isMenuconfig prompt) :=
  .bind_get (fun _ => rfl) fun _ => .bind (.modifyModel _) fun _ => .pure _

theorem blind_setType (t : ValueType) : Blind (Workspace.asVersion v) (setType n t) :=
  .bind blind_itemOf fun _ => .bind_get (fun _ => rfl) fun _ =>
    .ite (.bind (blind_warnOwner _) fun _ => .modifyModel _) (.modifyModel _)

theorem blind_setPrompt {part : PromptPart} (htext : Blind (Workspace.asVersion v) part.text)
    (hcond : Blind (Workspace.asVersion v) part.cond) :
    Blind (Workspace.asVersion v) (setPrompt n part) := by
  have hrest : ∀ text, Blind (Workspace.asVersion v) (do
      let cond ← part.cond
      modifyNode n ({ · with prompt := some ⟨Text.trimmed text, cond⟩ })) := fun text =>
    .bind hcond fun _ => .modifyModel _
  have hshown : Blind (Workspace.asVersion v) (do
      let text ← part.text
      if Text.trimmed text ≠ text then warnOwner n .promptBlanks
      let cond ← part.cond
      modifyNode n ({ · with prompt := some ⟨Text.trimmed text, cond⟩ })) :=
    .bind htext fun text => .ite (.bind (blind_warnOwner _) fun _ => hrest text) (hrest text)
  exact .bind_get (fun _ => rfl) fun _ => .ite (.bind (blind_warnOwner _) fun _ => hshown) hshown

theorem blind_setEnvVar (name : String) : Blind (Workspace.asVersion v) (setEnvVar n name) := by
  refine .bind blind_itemOf fun i => .bind_get (fun _ => rfl) fun w => ?_
  have htail : ∀ own, Blind (Workspace.asVersion v)
      (takeVariable n name (shownName w.model i) own) := by
    intro own
    have hend : Blind (Workspace.asVersion v) (if own ≠ some name then
        warnHere (.renamedVariable (shownName w.model i) name) else pure ()) :=
      .ite ((aloof_warnHere _).unversioned _) (.pure _)
    refine .bind_get (fun _ => rfl) fun w' => ?_
    dsimp only
    split
    · exact .bind (blind_constant _) fun _ => .bind (.modifyModel _) fun _ => hend
    · exact .bind ((aloof_warnHere _).unversioned _) fun _ => hend
  cases i with
  | symbol s => exact .bind (.modifyModel _) fun _ => htail _
  | choice c => exact htail _

theorem blind_setDefconfigList : Blind (Workspace.asVersion v) (setDefconfigList n) := by
  refine .bind_get (fun _ => rfl) fun w => ?_
  dsimp only
  split
  · exact .modifyModel _
  · split
    · exact (aloof_warnHere _).unversioned _
    · exact .throw _

theorem blind_needSymbol (p : Problem) : Blind (Workspace.asVersion v) (needSymbol n p) := by
  refine .bind_get (fun _ => rfl) fun w => ?_
  split
  · exact .pure _
  · exact .problem _

theorem blind_addProperty {statement : Statement} (h : statement.Unversioned v) :
    Blind (Workspace.asVersion v) (addProperty n statement) := by
  cases statement with
  | type t prompt =>
    refine .bind (blind_setType t) fun _ => ?_
    cases prompt with
    | none => exact .pure _
    | some part => exact blind_setPrompt (h part rfl).1 (h part rfl).2
  | prompt part => exact blind_setPrompt h.1 h.2
  | depends cond => exact .bind h fun _ => .modifyModel _
  | visible cond => exact .bind h fun _ => .modifyModel _
  | select target cond =>
    exact .bind (blind_needSymbol _) fun _ => .bind h.1 fun _ => .bind h.2 fun _ => .modifyModel _
  | imply target cond =>
    exact .bind (blind_needSymbol _) fun _ => .bind h.1 fun _ => .bind h.2 fun _ => .modifyModel _
  | default value cond => exact .bind h.1 fun _ => .bind h.2 fun _ => .modifyModel _
  | range bounds cond => exact .bind h.1 fun _ => .bind h.2 fun _ => .modifyModel _
  | option part =>
    refine .bind h fun part => ?_
    cases part with
    | env name => exact blind_setEnvVar name
    | defconfigList => exact blind_setDefconfigList
    | allnoconfigY =>
      refine .bind (blind_needSymbol _) fun _ => .bind_get (fun _ => rfl) fun w => ?_
      split
      · exact .modifyModel _
      · exact .pure _
  | optional =>
    refine .bind_get (fun _ => rfl) fun w => ?_
    split
    · exact .pure _
    · exact .problem _
  | _ => exact .pure _

theorem blind_choiceOf (name : Option String) :
    Blind (Workspace.asVersion v) (choiceOf name) := by
  refine .bind_get (fun _ => rfl) fun w => ?_
  dsimp only
  split
  · exact .pure _
  · exact .bind (.modifyModel _) fun _ => .pure _

theorem blind_place {read : FileReader} (hread : ∀ path, Blind (Workspace.asVersion v) (read path))
    {layout : Layout} {statement : Statement} (h : statement.Unversioned v) :
    Blind (Workspace.asVersion v) (place read layout statement) := by
  cases statement with
  | config isMenuconfig name =>
    exact .bind h fun _ => .bind (.modifyModel _) fun _ => .bind (blind_addNode _ _ _) fun _ =>
      .bind (.modifyModel _) fun _ => .pure _
  | menu prompt =>
    exact .bind h fun _ => .bind (blind_addNode _ _ _) fun _ => .bind (.modifyModel _) fun _ => .pure _
  | comment prompt =>
    exact .bind h fun _ => .bind (blind_addNode _ _ _) fun _ => .bind (.modifyModel _) fun _ => .pure _
  | choice name =>
    exact .bind h fun _ => .bind (blind_choiceOf _) fun _ => .bind (.modifyModel _) fun _ =>
      .bind (blind_addNode _ _ _) fun _ => .bind (.modifyModel _) fun _ => .pure _
  | block cond =>
    exact .bind h fun _ => .bind (blind_addNode _ _ _) fun _ => .bind (.modifyModel _) fun _ => .pure _
  | close kind tail =>
    unfold place
    dsimp only
    split
    · exact .problem _
    · exact .ite (.bind (.problem _) fun _ => .bind h fun _ => .pure _) (.bind h fun _ => .pure _)
  | mainmenu prompt => exact .bind h fun _ => .bind (.modifyModel _) fun _ => .pure _
  | source isRelative isRequired path =>
    refine .bind h fun _ => .bind ((aloof_sourcesOf _ _ _).unversioned _) fun _ => .bind ?_ fun _ => .pure _
    exact .forIn (fun file _ => .bind (hread file) fun _ => .pure _) _ _
  | _ => exact .problem _

/-! ### Files -/

theorem blind_readHelp (dialect : Dialect) (n : NodeId) (rest : Remaining) :
    Blind (Workspace.asVersion v) (readHelp dialect n rest) := by
  have hset : Blind (Workspace.asVersion v) (do
      setHelp n (HelpText.read rest.lines)
      pure (rest.lines.drop (HelpText.read rest.lines).lines) : Reading (List (List Char))) :=
    .bind (blind_setHelp _) fun _ => .pure _
  have hrest : Blind (Workspace.asVersion v) (do
      let help := HelpText.read rest.lines
      countLines help.lines
      let more := rest.lines.drop help.lines
      if more.isEmpty then
        passEnd rest.fault
        if dialect.readsAhead then countLines 1
      setHelp n help
      pure more : Reading (List (List Char))) := by
    refine .bind ((aloof_countLines _).unversioned _) fun _ => .ite ?_ hset
    exact .bind ((aloof_passEnd _).unversioned _) fun _ =>
      .ite (.bind ((aloof_countLines _).unversioned _) fun _ => hset) hset
  exact .bind_get (fun _ => rfl) fun _ => .ite (.bind (blind_warnOwner _) fun _ => hrest) hrest

end Reading

/-- A notation whose lines are read alike in all versions. -/
structure Dialect.Unversioned (dialect : Dialect) (v : Int) : Prop where
  line : ∀ line, Blind (Workspace.asVersion v) (dialect.readLine line)
  statement : ∀ line w given w', dialect.readLine line w = .ok given w' →
    ∀ statement, given = some statement → statement.Unversioned v

theorem Dialect.unversioned_tokens (v : Int) : Dialect.tokens.Unversioned v where
  line line := .map _ (Token.blind_readLine line)
  statement := by
    intro line w given w' h statement hgiven
    change (Statement.ofTokens <$> Token.readLine line) w = _ at h
    rw [map_eq_pure_bind] at h
    obtain ⟨tokens, w₁, -, h⟩ := bind_ok h
    cases h
    exact Statement.unversioned_ofTokens hgiven

namespace Reading
variable {dialect : Dialect} {read : FileReader}

theorem blind_readLines (hdialect : dialect.Unversioned v)
    (hread : ∀ path, Blind (Workspace.asVersion v) (read path)) (fault : Option Text.Fault) :
    ∀ (fuel : Nat) (layout : Layout) (lines : List (List Char)),
      Blind (Workspace.asVersion v) (readLines dialect read fault fuel layout lines)
  | 0, _, _ => .pure _
  | _ + 1, _, [] => .bind ((aloof_passEnd _).unversioned _) fun _ => blind_closeEntry _
  | fuel + 1, layout, line :: more => by
    have hnext := fun layout more => blind_readLines hdialect hread fault fuel layout more
    refine .bind ((aloof_countLines _).unversioned _) fun _ =>
      .bind ((aloof_joinLines _ _ _).unversioned _) fun (line, more) =>
        .bind_of (hdialect.line line) fun w given w' hgiven => ?_
    have hstatement := hdialect.statement line w given w' hgiven
    have hplace : ∀ (layout : Layout) (statement : Statement), statement.Unversioned v →
        Blind (Workspace.asVersion v) (do
          let layout ← place read layout statement
          readLines dialect read fault fuel layout more) := fun layout statement h =>
      .bind (blind_place hread h) fun _ => hnext _ _
    split
    · exact hnext _ _
    · exact .bind (blind_readHelp _ _ _) fun _ => hnext _ _
    · have h := hstatement _ rfl
      exact .ite (.bind (blind_addProperty h) fun _ => hnext _ _)
        (.bind (blind_closeEntry _) fun _ => hplace _ _ h)
    · exact hplace _ _ (hstatement _ rfl)

theorem blind_readContent (hdialect : dialect.Unversioned v)
    (hread : ∀ path, Blind (Workspace.asVersion v) (read path)) (content : Files.Content) :
    Blind (Workspace.asVersion v) (readContent dialect read content) := by
  refine .bind (blind_readLines hdialect hread _ _ _ _) fun layout => ?_
  split
  · exact .pure _
  · exact fun _ _ _ h => nomatch h

theorem blind_readFileAt (hdialect : dialect.Unversioned v) : ∀ (depth : Nat) (path : String),
    Blind (Workspace.asVersion v) (readFileAt dialect depth path)
  | 0, _ => .throw _
  | depth + 1, _ => .bind ((aloof_enterFile _).unversioned _) fun _ =>
    .bind (blind_readContent hdialect (blind_readFileAt hdialect depth) _) fun _ =>
      .bind (aloof_leaveFile.unversioned _) fun _ => .pure _

/-- What a notation reads in one version, it reads in all. -/
theorem blind_readFiles (hdialect : dialect.Unversioned v) (name : String) :
    Blind (Workspace.asVersion v) (readFiles dialect name) := by
  refine .bind_get (fun _ => rfl) fun w => ?_
  dsimp only
  split
  · exact .throw _
  · exact blind_readContent hdialect (blind_readFileAt hdialect _) _

end Reading
end Kconfig
