import Kconfig.Proofs.Load.Model
import Kconfig.Proofs.Reading.Inclusion
/-!
Files that include themselves.

Loading never enters a file under a name that is on the way to it, whether it ends with a model or
with an error, and it gives up only where the way is longer than `includeLimit`. So where every file
goes by the name of its normal spelling, no file is entered inside itself, and loading gives up only
with more files than that. A file that is spelled otherwise on the way to itself is entered again.
-/
namespace Kconfig
open Reading
open Files (Store join)
open Macro (Idle)

namespace Model

theorem site_inherit (around : Surroundings) (node : MenuNode) :
    (node.inherit around).site = node.site := by
  unfold MenuNode.inherit
  dsimp only
  split <;> rfl

mutual

theorem site_inheritTree (m : Model) (around : Surroundings) {n : NodeId} {node : MenuNode} :
    ∀ t : Tree, (m.inheritTree around t).nodes[n]? = some node →
      ∃ before, m.nodes[n]? = some before ∧ before.site = node.site
  | .node id children, h => by
    rw [inheritTree] at h
    obtain ⟨after, hafter, hsite⟩ := site_inheritForest _ _ children h
    change (m.nodes.modify id (MenuNode.inherit around))[n]? = some after at hafter
    rw [Array.getElem?_modify] at hafter
    split at hafter
    · obtain ⟨before, hbefore, rfl⟩ := Option.map_eq_some_iff.mp hafter
      exact ⟨before, hbefore, (site_inherit around before).symm.trans hsite⟩
    · exact ⟨after, hafter, hsite⟩

/-- Nodes that have inherited stand where they stood. -/
theorem site_inheritForest (m : Model) (around : Surroundings) {n : NodeId} {node : MenuNode} :
    ∀ ts : List Tree, (m.inheritForest around ts).nodes[n]? = some node →
      ∃ before, m.nodes[n]? = some before ∧ before.site = node.site
  | [], h => by
    rw [inheritForest] at h
    exact ⟨node, h, rfl⟩
  | t :: ts, h => by
    rw [inheritForest] at h
    obtain ⟨after, hafter, hsite⟩ := site_inheritForest _ _ ts h
    obtain ⟨before, hbefore, hsite'⟩ := site_inheritTree m around t hafter
    exact ⟨before, hbefore, hsite'.trans hsite⟩

end

/-- The nodes of a settled model stand where they were read. -/
theorem Settles.site {m m' : Model} (h : m.Settles m') {n : NodeId} {node : MenuNode}
    (hnode : m'.nodes[n]? = some node) :
    ∃ before, m.nodes[n]? = some before ∧ before.site = node.site := by
  obtain ⟨blocks, table, hread, rfl, -⟩ := h
  rw [hread.nodes_settle] at hnode
  exact site_inheritForest m _ blocks hnode

end Model

namespace Load

theorem dialectOf_confined {host : Host} {version : Int} {dialect : Dialect}
    (h : dialectOf host version = .ok dialect) : dialect.Confined := by
  unfold dialectOf at h
  split at h
  · obtain rfl := Except.ok.inj h
    exact Dialect.confined_tokens
  · split at h
    · obtain rfl := Except.ok.inj h
      exact Dialect.confined_forms _
    · exact nomatch h

/-- After the files, the model is finalized and checked; that fails for reasons that concern no line,
or because the search finds a loop. -/
theorem meets_readModel_of_files {dialect : Dialect} {name : String} {w : Workspace}
    {Q : List Tree → Workspace → Prop} {F : Failure → Workspace → Prop}
    (h : Meets (readFiles dialect name) w Q F)
    (hline : ∀ failure w' k, F failure w' → F failure (w'.atLine k))
    (hread : ∀ blocks w', Q blocks w' → w'.model.Read blocks) : Meets (readModel dialect name) w
      (fun _ w' => ∃ blocks links before, Q blocks before ∧ ∃ model journal,
        (before.model.withLinks links).Settles model ∧
          w' = { before with isOpen := false, model, journal })
      (fun failure w' => F failure w' ∨ ∃ blocks links before, Q blocks before ∧
        (failure.IsGeneral ∨ (before.model.withLinks links).Settles w'.model ∧
          ∃ loop, w'.model.findLoop? w'.model.readers = some loop ∧
            failure = .fatal (.dependencyLoop (loop.map w'.model.loopLink)))) := by
  refine .bind ((meets_readLinks h hline).mono (fun _ _ h => h) fun _ _ h => .inl h)
    fun links before hlinks => .bind_get ?_
  obtain ⟨blocks, hfiles, hconnects⟩ := hlinks
  obtain ⟨model, hfinalize, hsettles⟩ :=
    (hread blocks before hfiles).finalize_withLinks hconnects
  rw [hfinalize]
  let settled : Workspace := { before with isOpen := false, model }
  refine .bind (Q := fun _ => Told settled) (.update ⟨before.journal, rfl⟩) fun _ w₁ hw₁ => ?_
  refine .bind ((tells_checkModel w₁ hw₁).mono (fun _ _ h => h) fun _ _ hgeneral =>
    .inr ⟨blocks, links, before, hfiles, .inl hgeneral⟩) fun _ w₂ hw₂ => .bind_get ?_
  obtain ⟨journal, rfl⟩ := hw₂
  dsimp only
  split
  · next loop hloop =>
    exact .throw (.inr ⟨blocks, links, before, hfiles, .inr ⟨hsettles, loop, hloop, rfl⟩⟩)
  · exact .pure ⟨blocks, links, before, hfiles, model, journal, hsettles, rfl⟩

theorem detected_atLine {shell : Shell} {srctree top : String} {failure : Failure} {w : Workspace}
    (k : Nat) (h : Detected shell srctree top failure w) :
    Detected shell srctree top failure (w.atLine k) := by
  unfold Detected at h ⊢
  split
  · exact h
  · exact h
  · exact h
  · trivial

/-- The files of a model include each other under different names, and no expansion of a macro has
begun without an end. -/
theorem meets_readModel {dialect : Dialect} (hsound : dialect.Sound) (hdialect : dialect.Confined)
    {name : String} {w : Workspace} (hw : Ready w) (hentries : w.model.entries.length = 1)
    (hincludes : w.place.includes = []) (hfile : w.place.spot.file = some name)
    (hidle : Idle w.macros) (hnodes : ∀ node ∈ w.model.nodes, node.trail = [name]) :
    Meets (readModel dialect name) w
      (fun _ w' => Idle w'.macros ∧ ∀ node ∈ w'.model.nodes,
        Led w.host.shell w'.host.files w.settings.srctree name node.trail)
      (Detected w.host.shell w.settings.srctree name) := by
  have hread : Yields (readFiles dialect name) w fun blocks w' => w'.model.Read blocks :=
    fun _ _ h => read_of_readFiles hsound hw hentries h
  refine (meets_readModel_of_files ((meets_readFiles hdialect hincludes hfile hidle
    hnodes).yielding hread) (fun _ _ k => detected_atLine k) fun _ _ h => h.2).mono ?_ ?_
  · rintro _ w' ⟨blocks, links, before, ⟨hinside, hblocks⟩, model, journal, hsettles, rfl⟩
    refine ⟨hinside.idle, fun node hnode => ?_⟩
    obtain ⟨n, hn⟩ := Array.mem_iff_getElem?.mp hnode
    obtain ⟨read, hread, hsite⟩ := hsettles.site hn
    have htrail : read.trail = node.trail := congrArg Site.trail hsite
    exact htrail ▸ hinside.nodes read (Array.mem_of_getElem? hread)
  · rintro failure w' (hdetected | ⟨blocks, links, before, ⟨-, hblocks⟩, hafter⟩)
    · exact hdetected
    · rcases hafter with hgeneral | ⟨hsettles, loop, hloop, rfl⟩
      · exact detected_of_isLocal hgeneral.1 w'
      · exact ⟨_, loop, hsettles, hloop, rfl⟩

theorem isGeneral_of_versionFor {host : Host} {version : Option Int} {failure : Failure}
    (h : versionFor host version = .error failure) : failure.IsGeneral := by
  have henvironment : environmentVersion host = .error failure → failure.IsGeneral := by
    intro h
    unfold environmentVersion at h
    split at h
    · exact nomatch h
    · exact Except.error.inj h ▸ ⟨trivial, rfl⟩
  unfold versionFor at h
  split at h
  · split at h
    · exact henvironment h
    · exact nomatch h
  · exact henvironment h

theorem isGeneral_of_dialectOf {host : Host} {version : Int} {failure : Failure}
    (h : dialectOf host version = .error failure) : failure.IsGeneral := by
  unfold dialectOf at h
  split at h
  · exact nomatch h
  · split at h
    · exact nomatch h
    · exact Except.error.inj h ▸ ⟨trivial, rfl⟩

theorem isGeneral_of_checkMark {host : Host} {failure : Failure}
    (h : checkMark host = .error failure) : failure.IsGeneral := by
  unfold checkMark at h
  split at h
  · exact nomatch h
  · exact Except.error.inj h ▸ ⟨trivial, rfl⟩

/-- Loading fails before it reads anything, or reads a model. -/
theorem load_eq (host : Host) (options : LoadOptions) :
    (∃ failure, failure.IsGeneral ∧ prepared host options = .error failure ∧
      load host options = .error failure (start host options 0)) ∨
    ∃ version dialect, dialectOf host version = .ok dialect ∧
      prepared host options = .ok (version, dialect) ∧
      load host options = match readModel dialect options.name (start host options version) with
        | .error failure w => .error failure w
        | .ok _ w => .ok (.ofWorkspace w) w := by
  unfold load prepared
  cases hversion : versionFor host options.version with
  | error failure => exact .inl ⟨failure, isGeneral_of_versionFor hversion, rfl, rfl⟩
  | ok version =>
    dsimp only [bind, Except.bind]
    cases hdialect : dialectOf host version with
    | error failure => exact .inl ⟨failure, isGeneral_of_dialectOf hdialect, rfl, rfl⟩
    | ok dialect =>
      cases hmark : checkMark host with
      | error failure => exact .inl ⟨failure, isGeneral_of_checkMark hmark, rfl, rfl⟩
      | ok _ => exact .inr ⟨version, dialect, hdialect, rfl, rfl⟩

/-- The files of these names can be read, and include each other from the top file on, no two under
one name. Where each goes by the name of its normal spelling, no two of them are one file, so there
are at least as many files. -/
structure ReadOnce (files : Store) (srctree top : String) (names : List String) : Prop where
  reached : Reached files srctree top names
  nodup : names.Nodup
  apart : ∀ paths, IncludePath files srctree top paths names → Normal files srctree top paths →
    ((join srctree top :: paths).map files.locate).Nodup ∧ names.length ≤ files.entries.length

theorem readOnce_of_reached {files : Store} {srctree top : String} {names : List String}
    (h : Reached files srctree top names) : ReadOnce files srctree top names where
  reached := h
  nodup := let ⟨_, hpaths⟩ := h; hpaths.nodup
  apart _ hpaths hnormal := ⟨hpaths.nodup_locate hnormal, hpaths.length_le hnormal⟩

/-- What loading says about files that include each other: those that lead to a node were read once
each; a file is refused under a name that is on the way; and loading gives up only where the way is
longer than `includeLimit`. -/
structure Inclusions (srctree top : String)
    (result : EStateM.Result Failure Workspace Configuration) : Prop where
  read : ∀ {c w}, result = .ok c w →
    ∀ node ∈ w.model.nodes, ReadOnce w.host.files srctree top node.trail
  refused : ∀ {spot name includes w},
    result = .error (.fatal (.recursiveSource spot name includes)) w →
    ReadOnce w.host.files srctree top (includes.map (·.1)) ∧ name ∈ includes.map (·.1)
  endless : ∀ {w}, result = .error .endless w →
    ReadOnce w.host.files srctree top w.place.trail ∧ w.place.trail.length = includeLimit + 1

theorem inclusions_of_detected {shell : Shell} {srctree top : String} {failure : Failure}
    {w : Workspace} (hshell : shell.LeavesFiles) (h : Detected shell srctree top failure w) :
    Inclusions srctree top (.error failure w) where
  read hok := nomatch hok
  refused herror := by
    cases herror
    exact ⟨readOnce_of_reached (h.1 hshell), h.2⟩
  endless herror := by
    cases herror
    exact ⟨readOnce_of_reached (h.1 hshell), h.2⟩

theorem inclusions_of_ok {shell : Shell} {srctree top : String} {c : Configuration}
    {w : Workspace} (hshell : shell.LeavesFiles)
    (h : ∀ node ∈ w.model.nodes, Led shell w.host.files srctree top node.trail) :
    Inclusions srctree top (.ok c w) where
  read hok node hnode := by
    cases hok
    exact readOnce_of_reached (h node hnode hshell)
  refused herror := nomatch herror
  endless herror := nomatch herror

/-- So it is when a model is loaded. -/
theorem meets_readModel_start {host : Host} {version : Int} {dialect : Dialect}
    (hdialect : dialectOf host version = .ok dialect) (options : LoadOptions) :
    Meets (readModel dialect options.name) (start host options version)
      (fun _ w' => Idle w'.macros ∧ ∀ node ∈ w'.model.nodes,
        Led host.shell w'.host.files ((host.lookup? "srctree").getD "") options.name node.trail)
      (Detected host.shell ((host.lookup? "srctree").getD "") options.name) := by
  have hready : Ready (start host options version) := ⟨rfl, raw_start host options version⟩
  have hidle : Idle (start host options version).macros := fun _ h => nomatch h
  refine meets_readModel (dialectOf_sound hdialect) (dialectOf_confined hdialect) hready
    rfl rfl rfl hidle fun node hnode => ?_
  obtain rfl := List.mem_singleton.mp (Array.mem_toList_iff.mpr hnode)
  rfl

/-- When a model has been loaded, no expansion goes on. -/
theorem idle_of_load {host : Host} {options : LoadOptions} {c : Configuration} {w : Workspace}
    (h : load host options = .ok c w) : Idle w.macros := by
  rcases load_eq host options with ⟨failure, -, -, hload⟩ |
    ⟨version, dialect, hdialect, -, hload⟩
  · exact nomatch h.symm.trans hload
  · have hread := meets_readModel_start hdialect options
    cases hresult : readModel dialect options.name (start host options version) with
    | ok a w' =>
      rw [hresult] at hload
      obtain ⟨-, rfl⟩ := (EStateM.Result.ok.injEq ..).mp (h.symm.trans hload)
      exact (hread.of_ok hresult).1
    | error failure w' =>
      rw [hresult] at hload
      exact nomatch h.symm.trans hload

/-- A file is refused under a name that is on the way to it, in both notations; no other file is,
and where spellings are normal, no file is entered inside itself. Commands are trusted not to take
files away. -/
theorem load_enters_new_names (host : Host) (options : LoadOptions)
    (hshell : host.shell.LeavesFiles) :
    (∀ (w : Workspace) (path : String),
      nameInTree w.host.files w.settings.srctree path ∈ w.place.trail →
      Fails (enterFile path) w (.fatal (.recursiveSource w.place.spot
        (nameInTree w.host.files w.settings.srctree path)
        (w.place.includes ++ [(w.place.spot.file.getD "", w.place.spot.line)])))) ∧
    Inclusions ((host.lookup? "srctree").getD "") options.name (load host options) := by
  refine ⟨fun w path hmem => ⟨_, enterFile_of_mem hmem⟩, ?_⟩
  rcases load_eq host options with ⟨failure, hgeneral, -, hload⟩ |
    ⟨version, dialect, hdialect, -, hload⟩
  · rw [hload]
    exact inclusions_of_detected hshell (detected_of_isLocal hgeneral.1 _)
  · have hread := meets_readModel_start hdialect options
    rw [hload]
    unfold Meets at hread
    cases hresult : readModel dialect options.name (start host options version) with
    | ok a w =>
      rw [hresult] at hread
      exact inclusions_of_ok hshell hread.2
    | error failure w =>
      rw [hresult] at hread
      exact inclusions_of_detected hshell hread

/-- A file that includes itself by another spelling of its name. -/
def dottedSource : Host where
  files.entries := [(["work", "Kconfig"], .file (.text "source \"./Kconfig\"\n"))]

/-- Loading refused a file of a name, and the files that led to it; where reading stood then, two
paths lead to one file, and the second one goes by a name that is on the way. -/
def refusesAgain (name path path' : String) (includes : List (String × Nat)) :
    EStateM.Result Failure Workspace Configuration → Bool
  | .error (.fatal (.recursiveSource _ refused way)) w =>
    refused == name && way == includes &&
      w.place.trail.contains (nameInTree w.host.files w.settings.srctree path') &&
      match w.host.files.locate path, w.host.files.locate path' with
      | .ok p, .ok q => p == q
      | _, _ => false
  | _ => false

theorem of_refusesAgain {name path path' : String} {includes : List (String × Nat)}
    {result : EStateM.Result Failure Workspace Configuration}
    (h : refusesAgain name path path' includes result = true) : ∃ spot w p,
    result = .error (.fatal (.recursiveSource spot name includes)) w ∧
    nameInTree w.host.files w.settings.srctree path' ∈ w.place.trail ∧
    w.host.files.locate path = .ok p ∧ w.host.files.locate path' = .ok p := by
  unfold refusesAgain at h
  split at h
  · next spot refused way w =>
    simp only [Bool.and_eq_true, beq_iff_eq] at h
    obtain ⟨⟨⟨rfl, rfl⟩, htrail⟩, hsame⟩ := h
    split at hsame
    · next p q hp hq =>
      obtain rfl := beq_iff_eq.mp hsame
      exact ⟨spot, w, p, rfl, List.contains_iff_mem.mp htrail, hp, hq⟩
    · exact nomatch hsame
  · exact nomatch h

/-- The file is entered inside itself, and refused only when it includes itself there once more. -/
theorem dottedSource_enters_itself : ∃ spot w p,
    load dottedSource {} = .error (.fatal (.recursiveSource spot "./Kconfig"
      [("Kconfig", 1), ("./Kconfig", 1)])) w ∧
    ReadOnce w.host.files "" "Kconfig" ["Kconfig", "./Kconfig"] ∧
    w.host.files.locate "Kconfig" = .ok p ∧ w.host.files.locate "/work/./Kconfig" = .ok p ∧
    ∃ failure, Fails (enterFile "/work/./Kconfig") w failure := by
  have hrefused : refusesAgain "./Kconfig" "Kconfig" "/work/./Kconfig"
      [("Kconfig", 1), ("./Kconfig", 1)] (load dottedSource {}) = true := by decide +kernel
  obtain ⟨spot, w, p, hload, htrail, hp, hq⟩ := of_refusesAgain hrefused
  obtain ⟨hnames, hinclusions⟩ := load_enters_new_names dottedSource {} Shell.leavesFiles_small
  exact ⟨spot, w, p, hload, (hinclusions.refused hload).1, hp, hq, _,
    hnames w "/work/./Kconfig" htrail⟩

end Load
end Kconfig
