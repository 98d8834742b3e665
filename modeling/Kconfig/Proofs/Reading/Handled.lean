import Kconfig.Proofs.Action
import Kconfig.Proofs.Reading.OnePass
/-!
The lines that are handled in one pass.

The reader that is watched does what the reader in one pass does, and tells of every line when it
comes to it, and again when it puts its statement to use: the file that it has entered with all of
its lines, the text of the line, the lines after it, where reading stands then, and how many nodes
there are. Forgetting who was told gives the reader back.
-/
namespace Kconfig.Reading
variable {α β τ : Type}

/-- A workspace with what became of those who are told of the lines. -/
structure Watched (τ : Type) where
  workspace : Workspace
  trace : τ

abbrev Watching (τ : Type) := EStateM Failure (Watched τ)

/-- What a watched action does to the workspace. -/
def forget : EStateM.Result Failure (Watched τ) α → EStateM.Result Failure Workspace α
  | .ok a s => .ok a s.workspace
  | .error failure s => .error failure s.workspace

/-- Performs an action that handles no lines. -/
def watch (action : Reading α) : Watching τ α := fun s =>
  match action s.workspace with
  | .ok a workspace => .ok a { s with workspace }
  | .error failure workspace => .error failure { s with workspace }

/-- The line that is handled in a workspace. -/
def Watched.handling (s : Watched τ) (file : String) (lines : List (List Char)) (text : List Char)
    (rest : List (List Char)) : Handling :=
  ⟨file, lines, text, rest, s.workspace.place, s.workspace.model.nodes.size⟩

/-! ### The watched reader -/

section
variable [Watcher τ]

/-- Tells that a line is handled. -/
def note (file : String) (lines : List (List Char)) (text : List Char)
    (rest : List (List Char)) : Watching τ Unit :=
  modify fun s => { s with trace := Watcher.note (s.handling file lines text rest) s.trace }

/-- A line of a file with those that continue it, and the lines left. -/
def watchLine (file : String) (lines : List (List Char)) (fault : Option Text.Fault)
    (line : List Char) (more : List (List Char)) : Watching τ (List Char × List (List Char)) := do
  watch (countLines 1)
  let joined ← watch (joinLines fault line more)
  note file lines joined.1 joined.2
  pure joined

/-- Puts a statement that is no property in its place; only inclusions read further lines. -/
def watchPlace (readFile : String → Watching τ (List Tree)) (layout : Layout) :
    Statement → Watching τ Layout
  | .source isRelative isRequired path => do
    let mut trees := layout.trees
    for file in ← watch (sourcesOf isRelative isRequired (← watch path)) do
      trees := (← readFile file).reverse ++ trees
    pure { layout with trees }
  | statement => watch (place (fun _ => pure []) layout statement)

section
variable (dialect : Dialect) (file : String) (lines : List (List Char))
  (readFile : String → Watching τ (List Tree)) (fault : Option Text.Fault)

/-- Puts the statement of a line to use that no entry takes. -/
def watchEntry (layout : Layout) (text : List Char) (rest : List (List Char))
    (statement : Statement) : Watching τ (Layout × List (List Char)) := do
  note file lines text rest
  let layout ← watchPlace readFile layout statement
  pure (layout, rest)

/-- Puts the statement of a line to use, and gives the lines left. -/
def watchStatement (layout : Layout) (text : List Char) (rest : List (List Char)) :
    Option Statement → Watching τ (Layout × List (List Char))
  | none => pure (layout, rest)
  | some statement =>
    match layout.entry with
    | none => watchEntry file lines readFile layout text rest statement
    | some n => do
      note file lines text rest
      match statement with
      | .help => do
        let rest ← watch (readHelp dialect n ⟨rest, fault⟩)
        pure (layout, rest)
      | statement =>
        if statement.isProperty then do
          watch (addProperty n statement)
          pure (layout, rest)
        else do
          let layout ← watch (closeEntry layout)
          watchEntry file lines readFile layout text rest statement

/-- Reads the lines of a file that are left. -/
def watchLines : Nat → Layout → List (List Char) → Watching τ Layout
  | 0, layout, _ => pure layout
  | _, layout, [] => do
    watch (passEnd fault)
    watch (closeEntry layout)
  | fuel + 1, layout, line :: more => do
    let (text, rest) ← watchLine file lines fault line more
    let given ← watch (dialect.readLine text)
    let (layout, rest) ← watchStatement dialect file lines readFile fault layout text rest given
    watchLines fuel layout rest

/-- The trees of a file whose lines are all read. -/
def watchEnd (layout : Layout) : Watching τ (List Tree) :=
  match layout.levels with
  | [] => pure layout.trees.reverse
  | level :: _ => watch (do fatal (.openBlock level.kind ((← get).place.spot.file.getD "")))

end

section
variable (dialect : Dialect)

/-- The trees of a file that was opened. -/
def watchContent (file : String) (readFile : String → Watching τ (List Tree))
    (content : Files.Content) : Watching τ (List Tree) := do
  let decoded := content.decoded
  let lines := decoded.lines
  watchEnd (← watchLines dialect file lines readFile decoded.fault (lines.length + 1) {} lines)

/-- Reads a file that others include. -/
def watchFileAt : Nat → String → Watching τ (List Tree)
  | 0, _ => throw .endless
  | depth + 1, path => do
    let w := (← get).workspace
    let name := nameInTree w.host.files w.settings.srctree path
    let content ← watch (enterFile path)
    let trees ← watchContent dialect name (watchFileAt depth) content
    watch leaveFile
    pure trees

/-- Reads the Kconfig files from the top file on. -/
def watchFiles (name : String) : Watching τ (List Tree) := do
  let w := (← get).workspace
  let path := Files.join w.settings.srctree name
  match w.host.files.read path with
  | .error condition => throw (.file condition path)
  | .ok content => watchContent dialect name (watchFileAt dialect includeLimit) content

end
end

/-! ### Forgetting -/

/-- The watched action does what the action does. -/
def Watches (watching : Watching τ α) (action : Reading α) : Prop :=
  ∀ s, forget (watching s) = action s.workspace

namespace Watches

theorem pure (a : α) : Watches (Pure.pure a : Watching τ α) (Pure.pure a) := fun _ => rfl

theorem throw (failure : Failure) :
    Watches (MonadExcept.throw failure : Watching τ α) (MonadExcept.throw failure) := fun _ => rfl

theorem watch (action : Reading α) : Watches (watch action : Watching τ α) action := by
  intro s
  unfold Reading.watch
  cases action s.workspace <;> rfl

theorem bind {watching : Watching τ α} {action : Reading α} {next : α → Watching τ β}
    {next' : α → Reading β} (h : Watches watching action)
    (hnext : ∀ a, Watches (next a) (next' a)) : Watches (watching >>= next) (action >>= next') := by
  intro s
  have hs := h s
  rw [bind_apply, bind_apply]
  generalize watching s = r at hs
  rw [← hs]
  cases r with
  | ok a s' => exact hnext a s'
  | error failure s' => rfl

/-- What is looked at is the workspace. -/
theorem bind_get {next : Watched τ → Watching τ α} {next' : Workspace → Reading α}
    (h : ∀ s, Watches (next s) (next' s.workspace)) :
    Watches (MonadState.get >>= next) (MonadState.get >>= next') := fun s => h s s

/-- Nothing depends on what is looked at. -/
theorem get_bind {next : Watched τ → Watching τ α} {action : Reading α}
    (h : ∀ s, Watches (next s) action) : Watches (MonadState.get >>= next) action := fun s => h s s

theorem forIn {f : α → β → Watching τ (ForInStep β)} {f' : α → β → Reading (ForInStep β)}
    (h : ∀ a b, Watches (f a b) (f' a b)) :
    ∀ (xs : List α) (b : β), Watches (ForIn.forIn xs b f) (ForIn.forIn xs b f')
  | [], b => pure b
  | x :: xs, b => by
    rw [List.forIn_cons, List.forIn_cons]
    refine bind (h x b) fun step => ?_
    cases step with
    | done b => exact pure b
    | yield b => exact forIn h xs b

/-- What holds after the watched action holds after the action. -/
theorem meets {watching : Watching τ α} {action : Reading α} {s : Watched τ}
    {Q : α → Watched τ → Prop} {F : Failure → Watched τ → Prop} (h : Watches watching action)
    (hm : Meets watching s Q F) : Meets action s.workspace
      (fun a w => (stateAfter (watching s)).workspace = w ∧ Q a (stateAfter (watching s)))
      (fun e w => (stateAfter (watching s)).workspace = w ∧ F e (stateAfter (watching s))) := by
  have hs := h s
  unfold Meets at hm ⊢
  generalize watching s = r at hs hm
  rw [← hs]
  cases r with
  | ok a s' => exact ⟨rfl, hm⟩
  | error e s' => exact ⟨rfl, hm⟩

section
variable [Watcher τ] {file : String} {lines rest : List (List Char)} {text : List Char}

/-- That it is told of does not change what is done. -/
theorem note_bind {watching : Watching τ α} {action : Reading α} (h : Watches watching action) :
    Watches (note file lines text rest >>= fun _ => watching) action :=
  fun s => h { s with trace := Watcher.note (s.handling file lines text rest) s.trace }

/-- A line is read as it is. -/
theorem line_bind {fault : Option Text.Fault} {line : List Char} {more : List (List Char)}
    {next : List Char × List (List Char) → Watching τ α}
    {action : List Char × List (List Char) → Reading α}
    (h : ∀ joined, Watches (next joined) (action joined)) :
    Watches (watchLine file lines fault line more >>= next)
      (countLines 1 >>= fun _ => joinLines fault line more >>= action) := by
  unfold watchLine
  simp only [bind_assoc, pure_bind]
  exact bind (watch _) fun _ => bind (watch _) fun joined => note_bind (h joined)

end
end Watches

section
variable {watching : String → Watching τ (List Tree)} {readFile : FileReader} {dialect : Dialect}

theorem watches_place (h : ∀ path, Watches (watching path) (readFile path)) (layout : Layout)
    (statement : Statement) :
    Watches (watchPlace watching layout statement) (place readFile layout statement) := by
  cases statement with
  | source isRelative isRequired path =>
    exact .bind (.watch _) fun _ => .bind (.watch _) fun _ =>
      .bind (.forIn (fun path _ => .bind (h path) fun _ => .pure _) _ _) fun _ => .pure _
  | config | menu | comment | choice | block | close | mainmenu => exact .watch _
  | _ => exact .watch (problem _)

variable [Watcher τ]

theorem watches_lines (h : ∀ path, Watches (watching path) (readFile path)) (file : String)
    (lines : List (List Char)) (fault : Option Text.Fault) :
    ∀ (fuel : Nat) (layout : Layout) (left : List (List Char)),
      Watches (watchLines dialect file lines watching fault fuel layout left)
        (readLines dialect readFile fault fuel layout left)
  | 0, _, _ => .pure _
  | _ + 1, _, [] => .bind (.watch _) fun _ => .watch _
  | fuel + 1, layout, line :: more => by
    have hnext := fun layout left => watches_lines h file lines fault fuel layout left
    refine .line_bind fun (text, rest) => .bind (.watch _) fun given => ?_
    have hentry : ∀ (layout : Layout) (statement : Statement), Watches (do
        let (layout, rest) ← watchEntry file lines watching layout text rest statement
        watchLines dialect file lines watching fault fuel layout rest) (do
        let layout ← place readFile layout statement
        readLines dialect readFile fault fuel layout rest) := by
      intro layout statement
      simp only [watchEntry, bind_assoc, pure_bind]
      exact .note_bind (.bind (watches_place h _ _) fun _ => hnext _ _)
    unfold watchStatement
    generalize layout.entry = entry
    cases given with
    | none => exact hnext _ _
    | some statement =>
      cases entry with
      | none => cases statement <;> exact hentry _ _
      | some n =>
        dsimp only
        rw [bind_assoc]
        refine .note_bind ?_
        cases statement with
        | help =>
          simp only [bind_assoc, pure_bind]
          exact .bind (.watch _) fun _ => hnext _ _
        | _ =>
          dsimp only
          split
          · simp only [bind_assoc, pure_bind]
            exact .bind (.watch _) fun _ => hnext _ _
          · rw [bind_assoc]
            exact .bind (.watch _) fun _ => hentry _ _

theorem watches_content (h : ∀ path, Watches (watching path) (readFile path)) (file : String)
    (content : Files.Content) : Watches (watchContent dialect file watching content)
      (readContent dialect readFile content) := by
  refine .bind (watches_lines h _ _ _ _ _ _) fun layout => ?_
  unfold watchEnd
  cases layout.levels with
  | nil => exact .pure _
  | cons level levels => exact .watch _

theorem watches_fileAt : ∀ (depth : Nat) (path : String),
    Watches (watchFileAt dialect depth path : Watching τ (List Tree))
      (readFileAt dialect depth path)
  | 0, _ => .throw _
  | depth + 1, _ => .get_bind fun _ => .bind (.watch _) fun content =>
      .bind (watches_content (watches_fileAt depth) _ content) fun _ =>
        .bind (.watch _) fun _ => .pure _

/-- Watching the reader changes nothing. -/
theorem watches_files (name : String) :
    Watches (watchFiles dialect name : Watching τ (List Tree)) (readFiles dialect name) := by
  refine .bind_get fun s => ?_
  dsimp only
  cases s.workspace.host.files.read (Files.join s.workspace.settings.srctree name) with
  | error condition => exact .throw _
  | ok content => exact watches_content (watches_fileAt _) _ _

end
end Kconfig.Reading
