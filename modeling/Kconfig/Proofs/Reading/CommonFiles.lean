import Kconfig.Proofs.Load.Model
import Kconfig.Proofs.Reading.CommonLines
import Kconfig.Proofs.Reading.Version
/-!
Both notations make the same model of the same files.

Where all lines are common, each line leads both notations to the same workspace. Only a help text
at the very end of a file counts one line more in the first notation, and no file is read after
that line.
-/
namespace Kconfig
open Statement
open Macro (Idle)
variable {α β : Type} {expression : Infix} {w w' u v v' : Workspace}

/-- The notation without the lines that are not common. -/
def Dialect.common (dialect : Dialect) : Dialect :=
  { dialect with
    readLine := fun line =>
      if isCommon line then dialect.readLine line else Reading.problem .syntaxError }

theorem common_ok {dialect : Dialect} {line : List Char} {given : Option Statement}
    (h : dialect.common.readLine line w = .ok given w') :
    isCommon line = true ∧ dialect.readLine line w = .ok given w' := by
  change (if isCommon line then dialect.readLine line else Reading.problem .syntaxError) w = _ at h
  split at h
  · next hcommon => exact ⟨hcommon, h⟩
  · exact nomatch h

theorem Dialect.Confined.common {dialect : Dialect} (h : dialect.Confined) :
    dialect.common.Confined := by
  intro line scene w hw
  unfold Meets
  cases hgiven : dialect.common.readLine line w with
  | ok given w' => exact (h line scene w hw).of_ok (common_ok hgiven).2
  | error failure w' =>
    change (if isCommon line then dialect.readLine line else Reading.problem .syntaxError) w = _
      at hgiven
    split at hgiven
    · exact (h line scene w hw).of_error hgiven
    · exact (Reading.confined_problem _ w hw).of_error hgiven

theorem Dialect.Sound.common {dialect : Dialect} (h : dialect.Sound) : dialect.common.Sound :=
  fun line w given w' hw hgiven => h line w given w' hw (common_ok hgiven).2

/-! ### Fewer lines -/

/-- What the first action gives when it succeeds, the second one gives as well. -/
def Refines (action action' : Reading α) : Prop :=
  ∀ w a w', action w = .ok a w' → action' w = .ok a w'

namespace Refines

theorem refl (action : Reading α) : Refines action action := fun _ _ _ h => h

theorem bind {action action' : Reading α} {next next' : α → Reading β}
    (h : Refines action action') (hnext : ∀ a, Refines (next a) (next' a)) :
    Refines (action >>= next) (action' >>= next') := by
  intro w b w' hb
  obtain ⟨a, w₁, ha, hb⟩ := bind_ok hb
  rw [bind_apply, h w a w₁ ha]
  exact hnext a w₁ b w' hb

theorem ite {c : Prop} [Decidable c] {x y x' y' : Reading α} (h : Refines x x')
    (h' : Refines y y') : Refines (if c then x else y) (if c then x' else y') := by
  split
  · exact h
  · exact h'

theorem forIn {f f' : α → β → Reading (ForInStep β)} (h : ∀ a b, Refines (f a b) (f' a b)) :
    ∀ (xs : List α) (b : β), Refines (ForIn.forIn xs b f) (ForIn.forIn xs b f')
  | [], b => refl _
  | x :: xs, b => by
    rw [List.forIn_cons, List.forIn_cons]
    refine bind (h x b) fun step => ?_
    cases step with
    | done b => exact refl _
    | yield b => exact forIn h xs b

end Refines

namespace Reading
variable {dialect : Dialect} {read read' : FileReader}

theorem refines_common (line : List Char) :
    Refines (dialect.common.readLine line) (dialect.readLine line) :=
  fun _ _ _ h => (common_ok h).2

theorem refines_place (h : ∀ path, Refines (read path) (read' path)) (layout : Layout)
    (statement : Statement) : Refines (place read layout statement) (place read' layout statement) := by
  cases statement with
  | source isRelative isRequired path =>
    refine .bind (.refl _) fun _ => .bind (.refl _) fun _ => .bind ?_ fun _ => .refl _
    exact .forIn (fun file _ => .bind (h file) fun _ => .refl _) _ _
  | _ => exact .refl _

theorem refines_readLines (h : ∀ path, Refines (read path) (read' path))
    (fault : Option Text.Fault) : ∀ (fuel : Nat) (layout : Layout) (lines : List (List Char)),
    Refines (readLines dialect.common read fault fuel layout lines)
      (readLines dialect read' fault fuel layout lines)
  | 0, _, _ => .refl _
  | _ + 1, _, [] => .refl _
  | fuel + 1, layout, line :: more => by
    have hnext := fun layout more => refines_readLines h fault fuel layout more
    have hplace : ∀ (layout : Layout) (more : List (List Char)) (statement : Statement), Refines (do
          let layout ← place read layout statement
          readLines dialect.common read fault fuel layout more) (do
          let layout ← place read' layout statement
          readLines dialect read' fault fuel layout more) := fun layout more statement =>
      .bind (refines_place h _ _) fun _ => hnext _ _
    refine .bind (.refl _) fun _ => .bind (.refl _) fun (line, more) =>
      .bind (refines_common line) fun given => ?_
    split
    · exact hnext _ _
    · exact .bind (.refl _) fun _ => hnext _ _
    · exact .ite (.bind (.refl _) fun _ => hnext _ _) (.bind (.refl _) fun _ => hplace _ _ _)
    · exact hplace _ _ _

theorem refines_readContent (h : ∀ path, Refines (read path) (read' path))
    (content : Files.Content) :
    Refines (readContent dialect.common read content) (readContent dialect read' content) :=
  .bind (refines_readLines h _ _ _ _) fun _ => .refl _

theorem refines_readFileAt : ∀ (depth : Nat) (path : String),
    Refines (readFileAt dialect.common depth path) (readFileAt dialect depth path)
  | 0, _ => .refl _
  | depth + 1, _ => .bind (.refl _) fun _ =>
    .bind (refines_readContent (refines_readFileAt depth) _) fun _ => .refl _

/-- What is read where all lines are common, is read without asking for that. -/
theorem refines_readFiles (name : String) :
    Refines (readFiles dialect.common name) (readFiles dialect name) := by
  refine .bind (.refl _) fun w => ?_
  dsimp only
  split
  · exact .refl _
  · exact refines_readContent (refines_readFileAt _) _

end Reading

/-! ### The same files in both notations -/

namespace Reading

variable {n : NodeId} {fault : Option Text.Fault} {first : Workspace} {layout l l' : Layout}

/-- Both are at the same place, or at the end of a file and perhaps on different lines. -/
def Together (lines : List (List Char)) (w' w : Workspace) : Prop :=
  w' = w ∨ lines = [] ∧ ∃ k, w' = w.atLine k

/-- A help text that is given before its lines are read: another one is replaced. -/
def warnRepeatedHelp (n : NodeId) : Reading Unit := do
  if ((← get).model.node n).help.isSome then warnOwner n .repeatedHelp

/-- Asks for a line after a help text. -/
def passHelp (dialect : Dialect) (more : List (List Char)) (fault : Option Text.Fault) :
    Reading Unit := do
  if more.isEmpty then
    passEnd fault
    if dialect.readsAhead then countLines 1

theorem readHelp_eq (dialect : Dialect) (rest : Remaining) : readHelp dialect n rest = (do
    warnRepeatedHelp n
    countLines (HelpText.read rest.lines).lines
    passHelp dialect (rest.lines.drop (HelpText.read rest.lines).lines) rest.fault
    setHelp n (HelpText.read rest.lines)
    pure (rest.lines.drop (HelpText.read rest.lines).lines)) := by
  simp only [readHelp, takeHelp, warnRepeatedHelp, passHelp, bind_assoc, ite_bind, pure_bind]

/-- The first notation is on another line than the second one after a file has ended. -/
theorem passHelp_agrees {more : List (List Char)}
    (h₁ : passHelp Dialect.tokens.common more fault w = .ok () v')
    (h₂ : passHelp (Dialect.forms expression) more fault w = .ok () v) :
    Together more v' v := by
  unfold passHelp at h₁ h₂
  split at h₁
  · next hnil =>
    rw [if_pos hnil] at h₂
    obtain ⟨_, u', hpass', h₁⟩ := bind_ok h₁
    obtain ⟨_, u, hpass, h₂⟩ := bind_ok h₂
    obtain ⟨-, rfl⟩ := ok_unique hpass' hpass
    cases h₁
    cases h₂
    exact .inr ⟨List.isEmpty_iff.mp hnil, _, rfl⟩
  · next hnil =>
    rw [if_neg hnil] at h₂
    exact .inl (ok_unique h₁ h₂).2

theorem readHelp_agrees {rest : Remaining} {more more' : List (List Char)}
    (h₁ : readHelp Dialect.tokens.common n rest w = .ok more' v')
    (h₂ : readHelp (Dialect.forms expression) n rest w = .ok more v) :
    more' = more ∧ Together more v' v := by
  rw [readHelp_eq] at h₁ h₂
  obtain ⟨_, u₁', hwarn', h₁⟩ := bind_ok h₁
  obtain ⟨_, u₂', hcount', h₁⟩ := bind_ok h₁
  obtain ⟨_, u₃', hpass', h₁⟩ := bind_ok h₁
  obtain ⟨_, u₄', hset', h₁⟩ := bind_ok h₁
  obtain ⟨_, u₁, hwarn, h₂⟩ := bind_ok h₂
  obtain ⟨_, u₂, hcount, h₂⟩ := bind_ok h₂
  obtain ⟨_, u₃, hpass, h₂⟩ := bind_ok h₂
  obtain ⟨_, u₄, hset, h₂⟩ := bind_ok h₂
  cases h₁
  cases h₂
  obtain ⟨-, rfl⟩ := ok_unique hwarn' hwarn
  obtain ⟨-, rfl⟩ := ok_unique hcount' hcount
  refine ⟨rfl, ?_⟩
  rcases passHelp_agrees hpass' hpass with rfl | ⟨hnil, k, rfl⟩
  · exact .inl (ok_unique hset' hset).2
  · exact .inr ⟨hnil, k, (ok_unique hset' (blind_setHelp _ _ _ _ hset)).2⟩

theorem blind_readEnd (k : Nat) : Blind (Workspace.atLine k) (do
    passEnd fault
    closeEntry layout) := by
  refine .bind ?_ fun _ => blind_closeEntry _
  cases fault with
  | none => exact .pure _
  | some fault => exact fun _ _ _ h => nomatch h

/-- A line leads to the same layout, the same lines that are left, and the same workspace. -/
theorem readLine_agrees (hx : expression.Groups) {read read' : FileReader} (hread : read.Good)
    (hreturns : read.Returns) (hagrees : read.Agrees read') {fuel : Nat} {line : List Char}
    {more : List (List Char)}
    (hw : Ready w) (hidle : Idle w.macros) (hc : layout.Covers first w)
    (h₁ : readLines Dialect.tokens.common read fault (fuel + 1) layout (line :: more) w = .ok l' v')
    (h₂ : readLines (Dialect.forms expression) read' fault (fuel + 1) layout (line :: more) w =
      .ok l v) :
    ∃ layout₁ more₁ u' u, Ready u ∧ Idle u.macros ∧ layout₁.Covers first u ∧
      Together more₁ u' u ∧
      readLines Dialect.tokens.common read fault fuel layout₁ more₁ u' = .ok l' v' ∧
      readLines (Dialect.forms expression) read' fault fuel layout₁ more₁ u = .ok l v := by
  obtain ⟨line', more₁, w₁, given', w₂', hline', hgiven', h₁⟩ := readLines_cons_ok h₁
  obtain ⟨line₂, more₂, w₁', given, w₂, hline, hgiven, h₂⟩ := readLines_cons_ok h₂
  obtain ⟨heq, rfl⟩ := ok_unique hline' hline
  cases heq
  have hwent := ((aloof_takeLine _ _ _).aside _ _ _ hline').steadyIf (P := fun _ => True) hw trivial
  obtain ⟨hcommon, hgiven'⟩ := common_ok hgiven'
  have hamid := (Guards.bind (carried_amid.countLines 1)
    (fun _ => carried_amid.joinLines fault more line) w ⟨hidle, rfl⟩).of_ok hline'
  obtain ⟨hidle', hconfined⟩ := (Dialect.confined_tokens line' _ _
    (Workspace.holds_scene hamid.1)).of_ok hgiven'
  obtain ⟨hwent', hsound'⟩ := Dialect.tokens_sound _ _ _ _ hwent.1 hgiven'
  obtain ⟨hwent₂, hsound⟩ := Dialect.forms_sound expression _ _ _ _ hwent.1 hgiven
  have hc' := hc.went (hwent.trans hwent')
  have hc₂ := hc.went (hwent.trans hwent₂)
  rcases lines_agree hx hwent.1.isOpen hcommon hgiven' hgiven with
    ⟨rfl, rfl, rfl⟩ | ⟨statement', statement, rfl, rfl, hahead⟩
  · rcases h₁ with ⟨-, h₁⟩ | ⟨_, _, _, hsome, -⟩ | ⟨_, _, _, hsome, -⟩
    · rcases h₂ with ⟨-, h₂⟩ | ⟨_, _, _, hsome, -⟩ | ⟨_, _, _, hsome, -⟩
      · exact ⟨layout, more₁, w₂', w₂', hwent₂.1, hidle'.macros, hc₂, .inl rfl, h₁, h₂⟩
      · cases hsome
      · cases hsome
    · cases hsome
    · cases hsome
  · rcases h₁ with ⟨hsome, -⟩ | ⟨n, _, u', hhelp', hentry, hmore', h₁⟩ |
        ⟨_, layout', u', hsome, hplain', hlayout', h₁⟩
    · cases hsome
    · -- the lines of a help text follow
      cases hhelp'
      cases hahead with
      | help hsame =>
        subst hsame
        rcases h₂ with ⟨hsome, -⟩ | ⟨m, _, u, -, hentry', hmore, h₂⟩ | ⟨_, _, _, hsome, hplain, -⟩
        · cases hsome
        · cases hentry.symm.trans hentry'
          obtain ⟨rfl, htogether⟩ := readHelp_agrees hmore' hmore
          have hwent₃ := steady_readHelp _ _ _ _ _ _ hmore hwent₂.1 trivial
          have hamid' := (carried_amid.readHelp _ n _ _ ⟨hidle'.macros, rfl⟩).of_ok hmore
          exact ⟨layout, _, u', u, hwent₃.1, hamid'.1, hc₂.went hwent₃, htogether, h₁, h₂⟩
        · cases hsome
          rw [hplain rfl] at hentry
          cases hentry
    · cases hsome
      rcases h₂ with ⟨hsome, -⟩ | ⟨m, _, u, hhelp, hentry, -⟩ |
        ⟨_, layout₂, u, hsome, hplain, hlayout, h₂⟩
      · cases hsome
      · cases hhelp
        cases hahead
        rw [hplain' rfl] at hentry
        cases hentry
      · cases hsome
        obtain ⟨hgrew, hc₃⟩ := perform_ok hread hwent'.1 (hsound' _ rfl) hc' hlayout'
        obtain ⟨rfl, rfl⟩ := perform_agrees hread hreturns hagrees hwent₂.1 hwent'.1
          hidle'.macros hc₂ (hsound _ rfl) hahead hlayout' hlayout
        have hamid' := (carried_amid.perform (hreturns _) layout (hconfined _ rfl) _
          ⟨hidle'.macros, rfl⟩).of_ok hlayout'
        exact ⟨_, _, _, _, hgrew.ready, hamid'.1, hc₃, .inl rfl, h₁, h₂⟩

/-- The lines of a file lead to the same layout, and to the same workspace but for the number of
the line. -/
theorem readLines_agree (hx : expression.Groups) {read read' : FileReader} (hread : read.Good)
    (hreturns : read.Returns) (hagrees : read.Agrees read') :
    ∀ (fuel : Nat) {layout : Layout} {lines : List (List Char)} {w' w : Workspace}, Ready w →
      Idle w.macros → layout.Covers first w → Together lines w' w →
      readLines Dialect.tokens.common read fault fuel layout lines w' = .ok l' v' →
      readLines (Dialect.forms expression) read' fault fuel layout lines w = .ok l v →
      l' = l ∧ ∃ k, v' = v.atLine k := by
  intro fuel
  induction fuel with
  | zero =>
    intro layout lines w' w _ _ _ htogether h₁ h₂
    cases h₁
    cases h₂
    exact ⟨rfl, htogether.elim (fun h => ⟨_, h⟩) And.right⟩
  | succ fuel ih =>
    intro layout lines w' w hw hidle hc htogether h₁ h₂
    cases lines with
    | nil =>
      obtain ⟨k, rfl⟩ : ∃ k, w' = w.atLine k := htogether.elim (fun h => ⟨_, h⟩) And.right
      obtain ⟨rfl, rfl⟩ := ok_unique h₁ (blind_readEnd k _ _ _ h₂)
      exact ⟨rfl, k, rfl⟩
    | cons line more =>
      obtain rfl : w' = w := htogether.elim id fun h => nomatch h.1
      obtain ⟨layout₁, more₁, u', u, hu, hidle', hcovers, htogether', h₁, h₂⟩ :=
        readLine_agrees hx hread hreturns hagrees hw hidle hc h₁ h₂
      exact ih hu hidle' hcovers htogether' h₁ h₂

/-- The trees of a file are the same. -/
theorem readContent_agrees (hx : expression.Groups) {read read' : FileReader} (hread : read.Good)
    (hreturns : read.Returns) (hagrees : read.Agrees read') {content : Files.Content}
    {ts ts' : List Tree} (hw : Ready w) (hidle : Idle w.macros)
    (h₁ : readContent Dialect.tokens.common read content w = .ok ts' v')
    (h₂ : readContent (Dialect.forms expression) read' content w = .ok ts v) :
    ts' = ts ∧ ∃ k, v' = v.atLine k := by
  obtain ⟨layout', u', hlines', h₁⟩ := bind_ok h₁
  obtain ⟨layout, u, hlines, h₂⟩ := bind_ok h₂
  have hempty : ({} : Layout).Covers w w :=
    ⟨Nat.le_refl _, (addedNodes_self w).symm, fun n hn => absurd hn List.not_mem_nil,
      fun n hn => nomatch hn⟩
  obtain ⟨rfl, k, rfl⟩ := readLines_agree hx hread hreturns hagrees _ hw hidle hempty
    (.inl rfl) hlines' hlines
  cases hlevels : layout'.levels with
  | nil =>
    rw [hlevels] at h₁ h₂
    cases h₁
    cases h₂
    exact ⟨rfl, k, rfl⟩
  | cons level levels =>
    rw [hlevels] at h₁
    exact nomatch h₁

/-- Wherever reading stands in a file, it comes back to the line that includes the file. -/
theorem leaveFile_atLine {includes : List (String × Nat)} {line : String × Nat} {k : Nat}
    (hw : Amid (includes ++ [line]) w) : leaveFile (w.atLine k) = leaveFile w := by
  rw [leaveFile_of_amid hw, leaveFile_of_amid (w := w.atLine k) hw]
  rfl

/-- Files that others include are read alike. -/
theorem readFileAt_agrees (hx : expression.Groups) : ∀ depth,
    (readFileAt Dialect.tokens.common depth).Agrees (readFileAt (Dialect.forms expression) depth)
  | 0 => fun _ _ _ _ _ _ _ _ h _ => nomatch h
  | depth + 1 => by
    intro path w ts ts' v v' hw hidle h₁ h₂
    obtain ⟨content', u', henter', h₁⟩ := bind_ok h₁
    obtain ⟨ts₁', u₁', hcontent', h₁⟩ := bind_ok h₁
    obtain ⟨_, _, hleave', h₁⟩ := bind_ok h₁
    cases h₁
    obtain ⟨content, u, henter, h₂⟩ := bind_ok h₂
    obtain ⟨ts₁, u₁, hcontent, h₂⟩ := bind_ok h₂
    obtain ⟨_, _, hleave, h₂⟩ := bind_ok h₂
    cases h₂
    obtain ⟨rfl, rfl⟩ := ok_unique henter' henter
    have hwent := ((aloof_enterFile _).aside _ _ _ henter').steadyIf (P := fun _ => True) hw trivial
    obtain ⟨line, hamid⟩ := (meets_enterFile_amid ⟨hidle, rfl⟩ path).of_ok henter'
    obtain ⟨rfl, k, rfl⟩ := readContent_agrees hx
      (readFileAt_good Dialect.tokens_sound.common depth)
      (returns_readFileAt Dialect.confined_tokens.common depth) (readFileAt_agrees hx depth) hwent.1
      hamid.1 hcontent' hcontent
    have hamid' := (carried_amid.readContent (Dialect.confined_forms expression)
      (returns_readFileAt (Dialect.confined_forms expression) depth _) content' _ hamid).of_ok hcontent
    rw [leaveFile_atLine hamid'] at hleave'
    exact ⟨rfl, (ok_unique hleave' hleave).2⟩

/-- The files are read alike, from the top file on. -/
theorem readFiles_agree (hx : expression.Groups) {name : String} {ts ts' : List Tree} (hw : Ready w)
    (hidle : Idle w.macros) (h₁ : readFiles Dialect.tokens.common name w = .ok ts' v')
    (h₂ : readFiles (Dialect.forms expression) name w = .ok ts v) : ts' = ts ∧ ∃ k, v' = v.atLine k := by
  obtain ⟨_, _, hget, h₁⟩ := bind_ok h₁
  cases hget
  obtain ⟨_, _, hget, h₂⟩ := bind_ok h₂
  cases hget
  dsimp only at h₁ h₂
  cases hcontent : w.host.files.read (Files.join w.settings.srctree name) with
  | error condition =>
    rw [hcontent] at h₁
    exact nomatch h₁
  | ok content =>
    rw [hcontent] at h₁ h₂
    exact readContent_agrees hx (readFileAt_good Dialect.tokens_sound.common _)
      (returns_readFileAt Dialect.confined_tokens.common _) (readFileAt_agrees hx _) hw hidle h₁ h₂

end Reading

theorem Dialect.Unversioned.common {dialect : Dialect} {n : Int} (h : dialect.Unversioned n) :
    dialect.common.Unversioned n where
  line line := .ite (h.line line) (.problem _)
  statement line w given w' hgiven := h.statement line w given w' (common_ok hgiven).2

namespace Load
variable {host : Host} {options : LoadOptions} {c c₁ c₂ : Configuration} {w₁ w₂ : Workspace}

/-- The model that is read from files. -/
theorem readModel_files {dialect : Dialect} {name : String}
    (h : readModel dialect name w = .ok () w') : ∃ blocks links u,
      Reading.readFiles dialect name w = .ok blocks u ∧ Model.Connects links blocks ∧
        (u.model.withLinks links).finalize = some w'.model := by
  obtain ⟨links, u, hlinks, h⟩ := bind_ok h
  obtain ⟨blocks, hfiles, hconnects⟩ := Reading.readFiles_of_readLinks hlinks
  obtain ⟨_, _, hget, h⟩ := bind_ok h
  cases hget
  cases hfinalize : (u.model.withLinks links).finalize with
  | none =>
    rw [hfinalize] at h
    exact nomatch h
  | some model =>
  rw [hfinalize] at h
  obtain ⟨_, u₁, hsettle, h⟩ := bind_ok h
  cases hsettle
  obtain ⟨_, u₂, hcheck, h⟩ := bind_ok h
  obtain ⟨_, _, hget, h⟩ := bind_ok h
  cases hget
  have hmodel := (Reading.aside_checkModel _ _ _ hcheck).1
  refine ⟨blocks, links, u, hfiles, hconnects, hfinalize.trans ?_⟩
  dsimp only at h
  cases hloop : u₂.model.findLoop? u₂.model.readers with
  | some loop =>
    rw [hloop] at h
    exact nomatch h
  | none =>
    rw [hloop] at h
    cases h
    exact congrArg some hmodel.symm

/-- Loading in a version reads the model in its dialect. -/
theorem readModel_of_version {version : Int} {dialect : Dialect} (hzero : version ≠ 0)
    (hdialect : dialectOf host version = .ok dialect)
    (h : load host { options with version := some version } = .ok c w) :
    readModel dialect options.name (start host options version) = .ok () w ∧ c.model = w.model := by
  obtain ⟨version', dialect', hversion, hdialect', hread, rfl⟩ := readModel_of_load h
  obtain rfl : version = version' :=
    Except.ok.inj ((if_neg hzero : versionFor host (some version) = .ok version).symm.trans hversion)
  cases hdialect.symm.trans hdialect'
  exact ⟨hread, rfl⟩

/-- Both notations give the same model of the same files, if all lines of the files are common and
expressions are put in groups. -/
theorem notations_agree (hx : host.expression.Groups)
    (hcommon : readModel Dialect.tokens.common options.name (start host options 1) = .ok () w)
    (h₁ : load host { options with version := some 1 } = .ok c₁ w₁)
    (h₂ : load host { options with version := some 2 } = .ok c₂ w₂) : c₁.model = c₂.model := by
  obtain ⟨h₁, hc₁⟩ := readModel_of_version (by decide) rfl h₁
  obtain ⟨h₂, hc₂⟩ := readModel_of_version (by decide) rfl h₂
  obtain ⟨blocks, _, u, hfiles, -, -⟩ := readModel_files hcommon
  obtain ⟨blocks₁, links₁, u₁, hfiles₁, hconnects₁, hmodel₁⟩ := readModel_files h₁
  obtain ⟨blocks₂, links₂, u₂, hfiles₂, hconnects₂, hmodel₂⟩ := readModel_files h₂
  have hready : Ready (start host options 2) := ⟨rfl, raw_start host options 2⟩
  obtain ⟨rfl, rfl⟩ := ok_unique (Reading.refines_readFiles _ _ _ _ hfiles) hfiles₁
  have hversion := Reading.blind_readFiles (Dialect.unversioned_tokens 2).common _ _ _ _ hfiles
  obtain ⟨rfl, k, hu⟩ := Reading.readFiles_agree hx hready (fun _ h => nomatch h) hversion hfiles₂
  have hmodel : (u.asVersion 2).model = (u₂.atLine k).model := congrArg Workspace.model hu
  obtain rfl : links₁ = links₂ := (read_of_readFiles (Dialect.forms_sound _) hready
    rfl hfiles₂).connects_unique hconnects₁ hconnects₂
  rw [hc₁, hc₂]
  change (Model.withLinks (u.asVersion 2).model links₁).finalize = _ at hmodel₁
  rw [hmodel] at hmodel₁
  exact Option.some.inj (hmodel₁.symm.trans hmodel₂)

/-- Files of common lines: a comment, tabs, a macro variable, a relation, a file that is included,
and a help text at its end. -/
def commonFiles : Host where
  files.entries := [
    (["work", "Kconfig"], .file (.text ("LIMIT := 9\nconfig A # first\n\tbool\t\"a\" if !B\n" ++
      "\tdefault y if C && (B || N=\"3\")\n\nrsource \"more\"\n"))),
    (["work", "more"], .file (.text "config N\n\tint 'n'\n\trange 1 9\n\thelp\n\t  Don't ask.\n"))]

/-- They are read alike. -/
theorem commonFiles_agree : ∃ w c₁ w₁ c₂ w₂,
    readModel Dialect.tokens.common "Kconfig" (start commonFiles {} 1) = .ok () w ∧
    load commonFiles { version := some 1 } = .ok c₁ w₁ ∧
    load commonFiles { version := some 2 } = .ok c₂ w₂ ∧ c₁.model = c₂.model := by
  have hchecked : (match readModel Dialect.tokens.common "Kconfig" (start commonFiles {} 1),
      load commonFiles { version := some 1 }, load commonFiles { version := some 2 } with
    | .ok _ _, .ok _ _, .ok _ _ => true
    | _, _, _ => false) = true := by decide +kernel
  split at hchecked
  · next w c₁ w₁ c₂ w₂ hcommon h₁ h₂ =>
    exact ⟨w, c₁, w₁, c₂, w₂, hcommon, h₁, h₂,
      @notations_agree w commonFiles {} c₁ c₂ w₁ w₂ Grammar.groups_ofLevels hcommon h₁ h₂⟩
  · exact nomatch hchecked

end Load
end Kconfig
