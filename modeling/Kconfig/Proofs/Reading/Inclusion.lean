import Kconfig.Proofs.Model.Settled
import Kconfig.Proofs.Reading.ConfinedLines
import Kconfig.Proofs.Reading.Files
import Mathlib.Data.List.Nodup
import Mathlib.Data.List.Perm.Subperm
/-!
How deep files include each other.

A file goes by its name as seen from the source tree, and may not be entered under a name that is on
the way to it already. So all names on the way to a line are different, and the way is no longer
than there are names. Two spellings of one path can give two names, and then nothing keeps a file
from including itself; where every file goes by the name of its normal spelling, different names
mean different files, and files cannot include each other more often than there are files.
-/
namespace Kconfig
open Files (Store join)
open Macro (Idle)

/-- The model was read from files, and the search finds a loop in it that has these links. -/
def Model.HasLoop (m : Model) (links : List LoopLink) : Prop :=
  ∃ (before : Model) (loop : List Item), before.Settles m ∧
    m.findLoop? m.readers = some loop ∧ links = loop.map m.loopLink

namespace Reading

theorem nameInTree_congr {files files' : Store} (h : files'.workDir = files.workDir)
    (srctree path : String) : nameInTree files' srctree path = nameInTree files srctree path := by
  unfold nameInTree Store.absolute
  rw [h]

/-! ### Include paths -/

/-- Files that include each other: the top file, and those that were found at `paths`, each of them
entered from the one before it. No two go by one name. -/
structure IncludePath (files : Store) (srctree top : String) (paths names : List String) :
    Prop where
  names_eq : names = top :: paths.map (nameInTree files srctree)
  nodup : names.Nodup
  readable : ∀ path ∈ join srctree top :: paths, files.Readable path

/-- Every file goes by the name of its normal spelling. -/
def Normal (files : Store) (srctree top : String) (paths : List String) : Prop :=
  nameInTree files srctree (files.absolute (join srctree top)) = top ∧
    ∀ path ∈ paths, nameInTree files srctree (files.absolute path) = nameInTree files srctree path

namespace IncludePath
variable {files files' : Store} {srctree top name path : String} {paths names : List String}

theorem grows (h : IncludePath files srctree top paths names) (hfiles : files.Grows files') :
    IncludePath files' srctree top paths names := by
  refine ⟨?_, h.nodup, fun path hpath => hfiles.readable path (h.readable path hpath)⟩
  rw [h.names_eq]
  exact congrArg (top :: ·)
    (List.map_congr_left fun path _ => (nameInTree_congr hfiles.workDir _ _).symm)

theorem start (h : files.Readable (join srctree top)) : IncludePath files srctree top [] [top] :=
  ⟨rfl, List.nodup_singleton _, fun _ hpath => List.mem_singleton.mp hpath ▸ h⟩

/-- A file whose name is not on the way is entered. -/
theorem concat (h : IncludePath files srctree top paths names)
    (hname : nameInTree files srctree path ∉ names) (hpath : files.Readable path) :
    IncludePath files srctree top (paths ++ [path]) (names ++ [nameInTree files srctree path]) := by
  refine ⟨?_, ?_, fun other hother => ?_⟩
  · rw [h.names_eq, List.map_append, List.cons_append]
    rfl
  · exact List.nodup_append.mpr ⟨h.nodup, List.nodup_singleton _, fun a ha b hb =>
      fun hab => hname (List.mem_singleton.mp hb ▸ hab ▸ ha)⟩
  · rw [← List.cons_append] at hother
    rcases List.mem_append.mp hother with hother | hother
    · exact h.readable other hother
    · exact List.mem_singleton.mp hother ▸ hpath

/-- What leads to a file leads to the one that includes it. -/
theorem dropLast (h : IncludePath files srctree top paths (names ++ [name])) (hnames : names ≠ []) :
    IncludePath files srctree top paths.dropLast names := by
  have hmap : names = (top :: paths.map (nameInTree files srctree)).dropLast := by
    rw [← h.names_eq, List.dropLast_concat]
  have hpaths : paths ≠ [] := by
    rintro rfl
    exact hnames hmap
  refine ⟨?_, h.nodup.sublist (List.sublist_append_left _ _), fun path hpath => ?_⟩
  · rw [hmap, List.dropLast_cons_of_ne_nil (by simpa using hpaths), List.map_dropLast]
  · refine h.readable path ?_
    rcases List.mem_cons.mp hpath with rfl | hpath
    · exact List.mem_cons_self
    · exact List.mem_cons_of_mem _ (List.dropLast_subset _ hpath)

/-- What is read stands where its spelling leads. -/
theorem located (h : IncludePath files srctree top paths names) {path : String}
    (hpath : path ∈ join srctree top :: paths) :
    files.locate path = .ok (Files.absoluteNames files.workDir path) ∧
      Files.absoluteNames files.workDir path ∈ files.entries.map (·.1) := by
  obtain ⟨content, hread⟩ := h.readable path hpath
  obtain ⟨p, hlocate, hfile⟩ := Store.read_eq_ok.mp hread
  obtain rfl := Store.locate_eq hlocate
  exact ⟨hlocate, Store.mem_entries_of_file hfile⟩

/-- Where every file goes by the name of its normal spelling, these are all different. -/
theorem nodup_absoluteNames (h : IncludePath files srctree top paths names)
    (hnormal : Normal files srctree top paths) :
    ((join srctree top :: paths).map (Files.absoluteNames files.workDir)).Nodup := by
  have hnames : names = (join srctree top :: paths).map
      fun path => nameInTree files srctree (files.absolute path) := by
    rw [h.names_eq, List.map_cons, hnormal.1, List.map_congr_left hnormal.2]
  refine List.Nodup.of_map (fun p => nameInTree files srctree (Files.ofNames p)) ?_
  rw [List.map_map]
  exact hnames ▸ h.nodup

/-- Then no file is entered inside itself. -/
theorem nodup_locate (h : IncludePath files srctree top paths names)
    (hnormal : Normal files srctree top paths) :
    ((join srctree top :: paths).map files.locate).Nodup := by
  have hlocate : (join srctree top :: paths).map files.locate =
      ((join srctree top :: paths).map (Files.absoluteNames files.workDir)).map .ok := by
    rw [List.map_map]
    exact List.map_congr_left fun path hpath => (h.located hpath).1
  rw [hlocate]
  exact (h.nodup_absoluteNames hnormal).map fun _ _ => Except.ok.inj

/-- Then files are included no deeper than there are files. -/
theorem length_le (h : IncludePath files srctree top paths names)
    (hnormal : Normal files srctree top paths) : names.length ≤ files.entries.length := by
  have hsubset : (join srctree top :: paths).map (Files.absoluteNames files.workDir) ⊆
      files.entries.map (·.1) := by
    intro p hp
    obtain ⟨path, hpath, rfl⟩ := List.mem_map.mp hp
    exact (h.located hpath).2
  have hle := (List.subperm_of_subset (h.nodup_absoluteNames hnormal) hsubset).length_le
  rw [List.length_map, List.length_map] at hle
  rw [h.names_eq, List.length_cons, List.length_map]
  exact hle

end IncludePath

/-- Files of these names include each other, from the top file on. -/
def Reached (files : Store) (srctree top : String) (names : List String) : Prop :=
  ∃ paths, IncludePath files srctree top paths names

theorem Reached.grows {files files' : Store} {srctree top : String} {names : List String}
    (h : Reached files srctree top names) (hfiles : files.Grows files') :
    Reached files' srctree top names :=
  h.imp fun _ hpath => hpath.grows hfiles

/-- So they do unless commands take files away. -/
def Led (shell : Shell) (files : Store) (srctree top : String) (names : List String) : Prop :=
  shell.LeavesFiles → Reached files srctree top names

theorem Led.grows {shell : Shell} {files files' : Store} {srctree top : String}
    {names : List String} (h : Led shell files srctree top names)
    (hfiles : shell.LeavesFiles → files.Grows files') : Led shell files' srctree top names :=
  fun hleaves => (h hleaves).grows (hfiles hleaves)

/-! ### Reading from line to line -/

theorem confined_choiceOf {scene : Scene} (name : Option String) :
    Confined scene Idle (choiceOf name) := by
  refine .bind .get fun w => ?_
  dsimp only
  split
  · exact .pure _
  · exact .bind (confined_modifyModel fun _ => rfl) fun _ => .pure _

theorem confined_sourcesOf {scene : Scene} (isRelative isRequired : Bool) (path : String) :
    Confined scene Idle (sourcesOf isRelative isRequired path) := by
  refine .bind_get fun w hw => ?_
  have hend : ∀ (pattern : String) (found : List String), Meets (do
      if found.isEmpty && isRequired then
        fatal (.sourceNotFound w.place.spot pattern w.settings.srctree)
      pure found : Reading (List String)) w (fun _ => scene.Holds Idle) (scene.Fails Idle) := by
    intro pattern found
    split
    · refine .bind (Q := fun _ _ => False) (.throw ?_) fun _ _ => False.elim
      exact hw.fails trivial fun _ h => (Option.some.inj h).symm
    · exact .pure hw
  cases isRelative with
  | true => exact hend _ _
  | false => exact hend _ _

/-- A statement that includes no files stays at its line. -/
theorem confined_place {scene : Scene} {readFile : FileReader} (layout : Layout) {statement : Statement}
    (h : statement.Confined scene)
    (hplain : ∀ isRelative isRequired path, statement ≠ .source isRelative isRequired path) :
    Confined scene Idle (place readFile layout statement) := by
  cases statement with
  | config isMenuconfig name =>
    exact .bind h fun _ => .bind (confined_modifyModel fun _ => rfl) fun _ =>
      .bind (confined_addNode _ _ _) fun _ => .bind (confined_modifyModel fun _ => rfl) fun _ =>
      .pure _
  | menu prompt =>
    exact .bind h fun _ => .bind (confined_addNode _ _ _) fun _ =>
      .bind (confined_modifyModel fun _ => rfl) fun _ => .pure _
  | comment prompt =>
    exact .bind h fun _ => .bind (confined_addNode _ _ _) fun _ =>
      .bind (confined_modifyModel fun _ => rfl) fun _ => .pure _
  | choice name =>
    exact .bind h fun _ => .bind (confined_choiceOf _) fun _ =>
      .bind (confined_modifyModel fun _ => rfl) fun _ => .bind (confined_addNode _ _ _) fun _ =>
      .bind (confined_modifyModel fun _ => rfl) fun _ => .pure _
  | block cond =>
    exact .bind h fun _ => .bind (confined_addNode _ _ _) fun _ =>
      .bind (confined_modifyNode fun _ => rfl) fun _ => .pure _
  | close kind tail =>
    unfold place
    dsimp only
    split
    · exact confined_problem _
    · exact .ite (.bind (confined_problem _) fun _ => .bind h fun _ => .pure _)
        (.bind h fun _ => .pure _)
  | mainmenu prompt =>
    exact .bind h fun _ => .bind (confined_modifyNode fun _ => rfl) fun _ => .pure _
  | source isRelative isRequired path => exact absurd rfl (hplain isRelative isRequired path)
  | _ => exact confined_problem _

theorem confined_passEnd {scene : Scene} (fault : Option Text.Fault) :
    Confined scene Idle (passEnd fault) := by
  cases fault with
  | none => exact .pure _
  | some fault => exact .bind .get fun _ => confined_fatal trivial rfl

theorem confined_warnPromptless {scene : Scene} (n : NodeId) :
    Confined scene Idle (warnPromptless n) := by
  refine .bind .get fun w => ?_
  dsimp only
  split
  · exact .ite (confined_warnOwner _) (.pure _)
  · exact .pure _

theorem confined_closeEntry {scene : Scene} (layout : Layout) :
    Confined scene Idle (closeEntry layout) := by
  unfold closeEntry
  split
  · exact .bind (confined_warnPromptless _) fun _ => .pure _
  · exact .pure _

/-- What holds inside a file is carried along by actions that stay at their line, and does not hang
on the line. -/
structure Carried (P : Workspace → Prop) (F : Failure → Workspace → Prop) : Prop where
  scene : ∀ w, P w → ∃ scene : Scene, scene.Holds Idle w ∧
    ∀ w', scene.Holds Idle w' → P w'
  fails : ∀ failure w, failure.IsLocal → F failure w
  line : ∀ w n, P w → P { w with place.spot.line := n }

namespace Carried
variable {α : Type} {P : Workspace → Prop} {F : Failure → Workspace → Prop} {dialect : Dialect}
  {readFile : FileReader}

theorem confined {action : Reading α} (h : Carried P F)
    (haction : ∀ scene, Confined scene Idle action) : Guards P F action := by
  intro w hw
  obtain ⟨scene, hscene, hP⟩ := h.scene w hw
  exact (haction scene w hscene).mono (fun _ => hP) fun failure w' hfails =>
    h.fails failure w' hfails.isLocal

/-- What comes after a line may use that the parts of its statement stay in the file. -/
theorem bind_line {action : Reading (Option Statement)} {next : Option Statement → Reading α}
    (h : Carried P F) (haction : GivesConfined action)
    (hnext : ∀ given, (∀ statement, given = some statement → ∀ scene, statement.Confined scene) →
      Guards P F (next given)) : Guards P F (action >>= next) := by
  intro w hw
  obtain ⟨scene, hscene, hP⟩ := h.scene w hw
  refine .bind ((haction scene w hscene).mono (fun _ _ hgiven => hgiven) fun failure w' hfails =>
    h.fails failure w' hfails.isLocal) fun given w' hgiven => ?_
  exact hnext given hgiven.2 w' (hP w' hgiven.1)

theorem countLines (h : Carried P F) (n : Nat) : Guards P F (Reading.countLines n) :=
  .update fun w hw => h.line w _ hw

theorem joinLines (h : Carried P F) (fault : Option Text.Fault) :
    ∀ (more : List (List Char)) (line : List Char),
      Guards P F (Reading.joinLines fault line more)
  | [], line => by
    unfold Reading.joinLines
    split
    · exact .pure _
    · exact .bind (h.confined fun _ => confined_passEnd _) fun _ =>
        .bind (h.countLines _) fun _ => .pure _
  | next :: more, line => by
    unfold Reading.joinLines
    split
    · exact .pure _
    · exact .bind (h.countLines _) fun _ => h.joinLines fault more _

theorem readHelp (h : Carried P F) (dialect : Dialect) (n : NodeId) (rest : Remaining) :
    Guards P F (Reading.readHelp dialect n rest) := by
  have hset : Guards P F (do
      setHelp n (HelpText.read rest.lines)
      pure (rest.lines.drop (HelpText.read rest.lines).lines) : Reading (List (List Char))) :=
    .bind (h.confined fun _ => confined_setHelp _) fun _ => .pure _
  have hrest : Guards P F (takeHelp dialect n rest) := by
    refine .bind (h.countLines _) fun _ => .ite ?_ hset
    exact .bind (h.confined fun _ => confined_passEnd _) fun _ =>
      .ite (.bind (h.countLines _) fun _ => hset) hset
  exact .bind .get fun _ =>
    .ite (.bind (h.confined fun _ => confined_warnOwner _) fun _ => hrest) hrest

theorem place (h : Carried P F) (hread : ∀ path, Guards P F (readFile path)) (layout : Layout)
    {statement : Statement} (hstatement : ∀ scene, statement.Confined scene) :
    Guards P F (Reading.place readFile layout statement) := by
  cases statement with
  | source isRelative isRequired path =>
    refine .bind (h.confined hstatement) fun _ =>
      .bind (h.confined fun _ => confined_sourcesOf _ _ _) fun _ => .bind ?_ fun _ => .pure _
    exact .forIn (fun file _ => .bind (hread file) fun _ => .pure _) _ _
  | _ => exact h.confined fun scene => confined_place layout (hstatement scene) nofun

theorem perform (h : Carried P F) (hread : ∀ path, Guards P F (readFile path)) (layout : Layout)
    {statement : Statement} (hstatement : ∀ scene, statement.Confined scene) :
    Guards P F (Reading.perform readFile layout statement) := by
  unfold Reading.perform
  split
  · exact .ite (.bind (h.confined fun scene => confined_addProperty (hstatement scene)) fun _ =>
      .pure _) (.bind (h.confined fun _ => confined_closeEntry _) fun _ =>
        h.place hread _ hstatement)
  · exact h.place hread _ hstatement

theorem readLines (h : Carried P F) (hdialect : dialect.Confined)
    (hread : ∀ path, Guards P F (readFile path)) (fault : Option Text.Fault) :
    ∀ (fuel : Nat) (layout : Layout) (lines : List (List Char)),
      Guards P F (Reading.readLines dialect readFile fault fuel layout lines)
  | 0, _, _ => .pure _
  | _ + 1, layout, [] => .bind (h.confined fun _ => confined_passEnd _) fun _ =>
      h.confined fun _ => confined_closeEntry layout
  | fuel + 1, layout, line :: more => by
    have hnext := fun layout more => h.readLines hdialect hread fault fuel layout more
    refine .bind (h.countLines _) fun _ => .bind (h.joinLines _ _ _) fun (line, more) =>
      h.bind_line (hdialect line) fun given hgiven => ?_
    have hplace : ∀ (layout : Layout) (statement : Statement),
        (∀ scene, statement.Confined scene) → Guards P F (do
          let layout ← Reading.place readFile layout statement
          Reading.readLines dialect readFile fault fuel layout more) := fun layout statement hs =>
      .bind (h.place hread layout hs) fun _ => hnext _ _
    split
    · exact hnext _ _
    · exact .bind (h.readHelp _ _ _) fun _ => hnext _ _
    · have hs := hgiven _ rfl
      exact .ite (.bind (h.confined fun scene => confined_addProperty (hs scene)) fun _ =>
        hnext _ _) (.bind (h.confined fun _ => confined_closeEntry _) fun _ => hplace _ _ hs)
    · exact hplace _ _ (hgiven _ rfl)

theorem readContent (h : Carried P F) (hdialect : dialect.Confined)
    (hread : ∀ path, Guards P F (readFile path)) (content : Files.Content) :
    Guards P F (Reading.readContent dialect readFile content) := by
  refine .bind (h.readLines hdialect hread _ _ _ _) fun layout => ?_
  split
  · exact .pure _
  · exact .bind .get fun _ => h.confined fun _ => confined_fatal trivial rfl

end Carried

/-! ### Reading inside a file -/

/-- Reading stands in a file, reached by lines of other files; so is every node that was read. -/
structure Inside (shell : Shell) (srctree top : String) (includes : List (String × Nat))
    (file : String) (w : Workspace) : Prop where
  srctree_eq : w.settings.srctree = srctree
  includes_eq : w.place.includes = includes
  file_eq : w.place.spot.file = some file
  shell_eq : w.host.shell = shell
  idle : Idle w.macros
  current : Led shell w.host.files srctree top (includes.map (·.1) ++ [file])
  nodes : ∀ node ∈ w.model.nodes, Led shell w.host.files srctree top node.trail

/-- What failures tell: a file is refused for a name that is on the way to it, reading gives up only
where the way is as long as it may be, and a model is refused for a loop that was found in it. -/
def Detected (shell : Shell) (srctree top : String) (failure : Failure) (w : Workspace) : Prop :=
  match failure with
  | .fatal (.recursiveSource _ name includes) =>
    Led shell w.host.files srctree top (includes.map (·.1)) ∧ name ∈ includes.map (·.1)
  | .endless =>
    Led shell w.host.files srctree top w.place.trail ∧ w.place.trail.length = includeLimit + 1
  | .fatal (.dependencyLoop links) => w.model.HasLoop links
  | _ => True

variable {shell : Shell} {srctree top file : String} {includes : List (String × Nat)} {α : Type}

/-- The action leaves reading in its file, or fails with what `Detected` tells. -/
abbrev Traced (shell : Shell) (srctree top : String) (includes : List (String × Nat))
    (file : String) {α : Type} (action : Reading α) : Prop :=
  Guards (Inside shell srctree top includes file) (Detected shell srctree top) action

theorem detected_of_isLocal {failure : Failure} (h : failure.IsLocal) (w : Workspace) :
    Detected shell srctree top failure w := by
  unfold Detected
  split
  · exact h.elim
  · exact h.elim
  · exact h.elim
  · trivial

theorem Inside.trail_eq {w : Workspace} (hw : Inside shell srctree top includes file w) :
    w.place.trail = includes.map (·.1) ++ [file] := by
  rw [Place.trail, hw.includes_eq, hw.file_eq]
  rfl

/-- As long as the line is not left, reading is inside its file. -/
theorem Inside.scene {w : Workspace} (hw : Inside shell srctree top includes file w) :
    ∃ scene : Scene, scene.Holds Idle w ∧
      ∀ w', scene.Holds Idle w' → Inside shell srctree top includes file w' := by
  have htrail : w.place.trail = includes.map (·.1) ++ [file] := hw.trail_eq
  obtain ⟨rfl, rfl, hfile, rfl, hidle, hcurrent, hnodes⟩ := hw
  rw [← htrail] at hcurrent
  refine ⟨w.scene, Workspace.holds_scene hidle, fun w' hw' => ?_⟩
  refine ⟨congrArg Settings.srctree hw'.settings, hw'.includes, hw'.file.trans hfile,
    hw'.host.shell, hw'.macros, htrail ▸ hcurrent.grows hw'.host.files, fun node hnode => ?_⟩
  show Led _ _ _ _ node.site.trail
  obtain ⟨n, hn⟩ := Array.mem_iff_getElem?.mp hnode
  rcases hw'.nodes.site n node hn with ⟨-, hsite⟩ | ⟨before, hbefore, hsite⟩
  · exact hsite ▸ hcurrent.grows hw'.host.files
  · exact hsite ▸ (hnodes before (Array.mem_of_getElem? hbefore)).grows hw'.host.files

theorem carried_inside :
    Carried (Inside shell srctree top includes file) (Detected shell srctree top) where
  scene _ hw := hw.scene
  fails _ w h := detected_of_isLocal h w
  line _ _ h := ⟨h.srctree_eq, h.includes_eq, h.file_eq, h.shell_eq, h.idle, h.current, h.nodes⟩

/-! ### Files -/

theorem trail_eq (place : Place) : place.trail =
    (place.includes ++ [(place.spot.file.getD "", place.spot.line)]).map (·.1) := by
  rw [List.map_append]
  rfl

/-- A file whose name is on the way to it is refused. -/
theorem enterFile_of_mem {path : String} {w : Workspace}
    (h : nameInTree w.host.files w.settings.srctree path ∈ w.place.trail) :
    enterFile path w =
      .error (.fatal (.recursiveSource w.place.spot
        (nameInTree w.host.files w.settings.srctree path)
        (w.place.includes ++ [(w.place.spot.file.getD "", w.place.spot.line)])))
        { w with files := w.files ++ [nameInTree w.host.files w.settings.srctree path] } := by
  have hany : (w.place.includes ++ [(w.place.spot.file.getD "", w.place.spot.line)]).any
      (·.1 == nameInTree w.host.files w.settings.srctree path) = true := by
    rw [trail_eq] at h
    obtain ⟨included, hincluded, hsame⟩ := List.mem_map.mp h
    exact List.any_eq_true.mpr ⟨included, hincluded, beq_iff_eq.mpr hsame⟩
  unfold enterFile
  rw [bind_apply]
  show (if _ then _ else _ : Reading Files.Content) _ = _
  rw [if_pos hany]
  rfl

/-- Any other file is entered if it can be read. -/
theorem enterFile_of_not_mem {path : String} {w : Workspace}
    (h : nameInTree w.host.files w.settings.srctree path ∉ w.place.trail) :
    enterFile path w =
      let name := nameInTree w.host.files w.settings.srctree path
      let noted := { w with files := w.files ++ [name] }
      match w.host.files.read path with
      | .error condition => .error (.sourceFile condition path w.place.spot) noted
      | .ok content => .ok content { noted with place := {
          spot := { w.place.spot with file := some name, line := 0 }
          includes := w.place.includes ++ [(w.place.spot.file.getD "", w.place.spot.line)] } } := by
  have hany : ¬ (w.place.includes ++ [(w.place.spot.file.getD "", w.place.spot.line)]).any
      (·.1 == nameInTree w.host.files w.settings.srctree path) = true := by
    intro hany
    obtain ⟨included, hincluded, hsame⟩ := List.any_eq_true.mp hany
    rw [trail_eq] at h
    exact h (List.mem_map.mpr ⟨included, hincluded, beq_iff_eq.mp hsame⟩)
  unfold enterFile
  rw [bind_apply]
  show (if _ then _ else _ : Reading Files.Content) _ = _
  rw [if_neg hany]
  dsimp only
  cases w.host.files.read path <;> rfl

/-- Entering a file leads inside it, under a name that is new on the way. -/
theorem meets_enterFile {w : Workspace} (hw : Inside shell srctree top includes file w)
    (path : String) : Meets (enterFile path) w
      (fun _ w' => ∃ line, Inside shell srctree top (includes ++ [(file, line)])
        (nameInTree w.host.files srctree path) w')
      (Detected shell srctree top) := by
  have htrail := hw.trail_eq
  obtain ⟨rfl, rfl, hfile, rfl, hidle, hcurrent, hnodes⟩ := hw
  rw [← htrail] at hcurrent
  unfold Meets
  by_cases hmem : nameInTree w.host.files w.settings.srctree path ∈ w.place.trail
  · rw [enterFile_of_mem hmem]
    rw [trail_eq] at hcurrent hmem
    exact ⟨hcurrent, hmem⟩
  · rw [enterFile_of_not_mem hmem]
    cases hread : w.host.files.read path with
    | error condition => exact trivial
    | ok content =>
      refine ⟨w.place.spot.line, rfl, ?_, rfl, rfl, hidle, fun hleaves => ?_, hnodes⟩
      · rw [hfile]
        rfl
      · obtain ⟨paths, hpaths⟩ := hcurrent hleaves
        have hinner := hpaths.concat hmem ⟨content, hread⟩
        rw [htrail] at hinner
        rw [List.map_append]
        exact ⟨_, hinner⟩

/-! ### Back to the file that includes -/

/-- Reading stands in a file that these lines lead to. -/
def Amid (includes : List (String × Nat)) (w : Workspace) : Prop :=
  Idle w.macros ∧ w.place.includes = includes

theorem carried_amid : Carried (Amid includes) fun _ _ => True where
  scene w hw := ⟨w.scene, Workspace.holds_scene hw.1, fun _ hw' =>
    ⟨hw'.macros, hw'.includes.trans hw.2⟩⟩
  fails _ _ _ := trivial
  line _ _ hw := hw

/-- A reader of files that comes back to where it was. -/
def FileReader.Returns (readFile : FileReader) : Prop :=
  ∀ includes path, Guards (Amid includes) (fun _ _ => True) (readFile path)

theorem meets_enterFile_amid {w : Workspace} (hw : Amid includes w) (path : String) :
    Meets (enterFile path) w (fun _ w' => ∃ line, Amid (includes ++ [line]) w')
      fun _ _ => True := by
  obtain ⟨hidle, rfl⟩ := hw
  unfold Meets
  by_cases hmem : nameInTree w.host.files w.settings.srctree path ∈ w.place.trail
  · rw [enterFile_of_mem hmem]
    exact trivial
  · rw [enterFile_of_not_mem hmem]
    cases w.host.files.read path with
    | error condition => exact trivial
    | ok content => exact ⟨_, hidle, rfl⟩

theorem leaveFile_of_amid {w : Workspace} {line : String × Nat} (hw : Amid (includes ++ [line]) w) :
    leaveFile w = .ok ⟨⟩ { w with
      place.spot.file := some line.1
      place.spot.line := line.2
      place.includes := includes } := by
  unfold leaveFile
  rw [modify_apply, hw.2, List.getLast?_concat]
  simp only [List.dropLast_concat]

/-- Reading comes back from the files that are included. -/
theorem returns_readFileAt {dialect : Dialect} (hdialect : dialect.Confined) :
    ∀ depth : Nat, (readFileAt dialect depth).Returns
  | 0, _, _ => .throw fun _ _ => trivial
  | depth + 1, includes, path => by
    intro w hw
    refine (meets_enterFile_amid hw path).bind fun content w₁ hw₁ => ?_
    obtain ⟨line, hw₁⟩ := hw₁
    refine .bind (carried_amid.readContent hdialect (returns_readFileAt hdialect depth _) content
      w₁ hw₁) fun trees w₂ hw₂ => ?_
    refine .bind (Q := fun _ => Amid includes) ?_ fun _ _ hw₃ => .pure hw₃
    unfold Meets
    rw [leaveFile_of_amid hw₂]
    exact ⟨hw₂.1, rfl⟩

/-! ### From file to file -/

/-- Leaving a file leads back into the one that includes it. -/
theorem meets_leaveFile {w : Workspace} {line : Nat} {inner : String}
    {F : Failure → Workspace → Prop}
    (hw : Inside shell srctree top (includes ++ [(file, line)]) inner w) :
    Meets leaveFile w (fun _ => Inside shell srctree top includes file) F := by
  unfold Meets
  rw [leaveFile_of_amid ⟨hw.idle, hw.includes_eq⟩]
  refine ⟨hw.srctree_eq, rfl, rfl, hw.shell_eq, hw.idle, fun hleaves => ?_, hw.nodes⟩
  obtain ⟨paths, hpaths⟩ := hw.current hleaves
  rw [List.map_append] at hpaths
  exact ⟨_, hpaths.dropLast (by simp)⟩

/-- As long as the way is not too long, a file can be read on it, and what it includes. -/
theorem traced_readFileAt {dialect : Dialect} (hdialect : dialect.Confined) : ∀ (depth : Nat)
    {includes : List (String × Nat)} {file : String}, includes.length + depth = includeLimit →
      ∀ path, Traced shell srctree top includes file (readFileAt dialect depth path)
  | 0, includes, file, hlimit, _ => by
    refine .throw fun w hw => ⟨hw.trail_eq ▸ hw.current, ?_⟩
    rw [hw.trail_eq, List.length_append, List.length_map, ← hlimit]
    rfl
  | depth + 1, includes, file, hlimit, path => by
    intro w hw
    refine (meets_enterFile hw path).bind fun content w₁ hw₁ => ?_
    obtain ⟨line, hw₁⟩ := hw₁
    have hlimit' : (includes ++ [(file, line)]).length + depth = includeLimit := by
      rw [List.length_append, List.length_singleton]
      omega
    exact .bind (carried_inside.readContent hdialect (traced_readFileAt hdialect depth hlimit') content
      w₁ hw₁) fun trees w₂ hw₂ => .bind (meets_leaveFile hw₂) fun _ _ hw₃ => .pure hw₃

/-- Reading from the top file on. -/
theorem meets_readFiles {dialect : Dialect} (hdialect : dialect.Confined) {name : String} {w : Workspace}
    (hincludes : w.place.includes = []) (hfile : w.place.spot.file = some name)
    (hidle : Idle w.macros) (hnodes : ∀ node ∈ w.model.nodes, node.trail = [name]) :
    Meets (readFiles dialect name) w
      (fun _ => Inside w.host.shell w.settings.srctree name [] name)
      (Detected w.host.shell w.settings.srctree name) := by
  refine .bind_get ?_
  dsimp only
  split
  · exact .throw trivial
  · next content hread =>
    have hstart : Led w.host.shell w.host.files w.settings.srctree name [name] :=
      fun _ => ⟨[], .start ⟨content, hread⟩⟩
    refine carried_inside.readContent hdialect (traced_readFileAt hdialect includeLimit (Nat.zero_add _))
      content w ⟨rfl, hincludes, hfile, rfl, hidle, hstart, fun node hnode => ?_⟩
    exact (hnodes node hnode).symm ▸ hstart

end Reading
end Kconfig
