import Kconfig.Proofs.Load.Inclusion
import Kconfig.Proofs.Reading.Parsed
import Kconfig.Proofs.Reading.Positions
import Kconfig.Proofs.Reading.Told
/-!
Places in what is loaded.

The lines that are handled while a model is loaded each have an exact place, and so has what comes
of them: the nodes of the model stand where the lines stood that gave them, and an error speaks of
the line that was handled when loading failed. What is done after all files are read moves no node
and fails without speaking of a line.
-/
namespace Kconfig
open Reading

namespace Load

/-- What the parser writes down of the lines of the top file and of those that it includes. -/
def written (dialect : Dialect) (name : String) (w : Workspace) : List Handling :=
  match w.host.files.read (Files.join w.settings.srctree name) with
  | .error _ => []
  | .ok content =>
    (stateAfter (Parsing.parseTop dialect (Parsing.scan w name content []))).trace

/-- The lines that are handled while a model is loaded, in their order: each when it is read, and
again whenever its statement is put to use or given back. -/
def handled (host : Host) (options : LoadOptions) : List Handling :=
  (prepared host options).toOption.elim [] fun (version, dialect) =>
    written dialect options.name (start host options version)

/-- What loading says about places: those of the lines are exact, and each file was entered from a
line that was being handled; the nodes have the places of the lines that gave them; and an error
that speaks of a line speaks of the one at which loading failed. -/
structure Places (top : String) (handled : List Handling)
    (result : EStateM.Result Failure Workspace Configuration) : Prop where
  lines : ∀ l ∈ handled, l.Exact
  opened : ∀ before l after, handled = before ++ l :: after → Opened before l.place.includes
  nodes : ∀ {c w}, result = .ok c w → ∀ (n : NodeId) (node : MenuNode),
    w.model.nodes[n]? = some node → Placed top handled n node.site
  failure : ∀ {failure w}, result = .error failure w → Blames handled failure

theorem places_of_error {top : String} {handled : List Handling} {failure : Failure} {w : Workspace}
    (h : Record handled) (hfailure : Blames handled failure) :
    Places top handled (.error failure w) where
  lines := h.exact
  opened _ _ _ := h.opened
  nodes hok := nomatch hok
  failure herror := by
    cases herror
    exact hfailure

theorem places_of_ok {top : String} {handled : List Handling} {c : Configuration} {w : Workspace}
    (h : Record handled) (hnodes : ∀ (n : NodeId) (node : MenuNode),
      w.model.nodes[n]? = some node → Placed top handled n node.site) :
    Places top handled (.ok c w) where
  lines := h.exact
  opened _ _ _ := h.opened
  nodes hok := by
    cases hok
    exact hnodes
  failure herror := nomatch herror

/-- The parser and the reader in one pass write down the same lines. -/
theorem written_eq (dialect : Dialect) (name : String) (w : Workspace) :
    written dialect name w = (stateAfter (watchFiles dialect name (⟨w, []⟩ : Recorded))).trace := by
  unfold written watchFiles
  rw [bind_apply]
  dsimp only [MonadState.get, getThe, MonadStateOf.get, EStateM.get]
  cases w.host.files.read (Files.join w.settings.srctree name) with
  | error condition => rfl
  | ok content =>
    have hfollows := @Parsing.follows_parseTop _ dialect _ w name content ([] : List Handling)
    unfold Parsing.Follows at hfollows
    dsimp only
    cases hparse : Parsing.parseTop dialect (Parsing.scan w name content ([] : List Handling)) with
    | ok a s =>
      rw [hparse] at hfollows
      obtain ⟨_, heq, ts, rfl, -⟩ := hfollows
      rw [show watchContent dialect name _ content ⟨w, []⟩ = _ from heq]
      rfl
    | error failure s =>
      rw [hparse] at hfollows
      obtain ⟨k, heq⟩ := hfollows
      rw [show watchContent dialect name _ content ⟨w, []⟩ = _ from heq]
      rfl

/-- What comes after the files moves no node, and fails without speaking of a line. -/
theorem meets_readModel_written {host : Host} {version : Int} {dialect : Dialect}
    (hdialect : dialectOf host version = .ok dialect) {options : LoadOptions}
    {handled : List Handling}
    (hhandled : written dialect options.name (start host options version) = handled) :
    Meets (readModel dialect options.name) (start host options version)
      (fun _ w => Record handled ∧ ∀ (n : NodeId) (node : MenuNode),
        w.model.nodes[n]? = some node → Placed options.name handled n node.site)
      (fun failure _ => Record handled ∧ Blames handled failure) := by
  have hready : Ready (start host options version) := ⟨rfl, raw_start host options version⟩
  have hread : Yields (readFiles dialect options.name) (start host options version)
      fun blocks w => w.model.Read blocks :=
    fun _ _ h => read_of_readFiles (dialectOf_sound hdialect) hready rfl h
  have hwatches : Watches (watchFiles dialect options.name : Watching (List Handling) _)
      (readFiles dialect options.name) := watches_files options.name
  have hfiles := hwatches.meets
    (meets_watchFiles (dialectOf_confined hdialect) (w := start host options version) rfl
      (fun _ h => nomatch h) fun n node hnode => by
        obtain ⟨hlt, rfl⟩ := Array.getElem?_eq_some_iff.mp hnode
        obtain rfl : n = 0 := Nat.lt_one_iff.mp hlt
        exact ⟨rfl, rfl⟩)
  rw [written_eq] at hhandled
  generalize stateAfter (watchFiles dialect options.name
    (⟨start host options version, []⟩ : Recorded)) = s
    at hfiles hhandled
  subst hhandled
  have hfiles := (hfiles.yielding hread).mono (fun _ _ h => h) fun _ _ h => h.2
  refine (meets_readModel_of_files hfiles (fun _ _ _ h => h) fun _ _ h => h.2).mono ?_ ?_
  · rintro _ w' ⟨blocks, links, before, ⟨⟨rfl, hnoted⟩, -⟩, model, journal, hsettles, rfl⟩
    refine ⟨hnoted.record, fun n node hnode => ?_⟩
    obtain ⟨read, hread, hsite⟩ := hsettles.site hnode
    exact hsite ▸ hnoted.nodes n read hread
  · rintro failure w' (hfails | ⟨-, -, -, ⟨⟨-, hnoted⟩, -⟩, hgeneral | ⟨-, loop, -, rfl⟩⟩)
    · exact hfails
    · exact ⟨hnoted.record, blames_of_spot?_eq_none hgeneral.2⟩
    · exact ⟨hnoted.record, blames_of_spot?_eq_none rfl⟩

/-- Handled lines have exact places, in both notations, and so have the nodes and the errors that
come of them. The parser that writes these lines down does what the parser does. -/
theorem load_places (host : Host) (options : LoadOptions) :
    (∀ (dialect : Dialect) (name : String) (content : Files.Content) (w : Workspace),
      Parsing.bare (Parsing.parseTop dialect
          (Parsing.scan w name content ([] : List Handling))) =
        Parsing.parseTop dialect (Parsing.scan w name content ())) ∧
    Places options.name (handled host options) (load host options) := by
  refine ⟨fun dialect name content w => Parsing.ignores_parseTop dialect _, ?_⟩
  rcases load_eq host options with ⟨failure, hgeneral, hprepared, hload⟩ |
    ⟨version, dialect, hdialect, hprepared, hload⟩
  · rw [handled, hprepared, hload]
    exact places_of_error .nil (blames_of_spot?_eq_none hgeneral.2)
  · have hread := meets_readModel_written hdialect
      (rfl : written dialect options.name (start host options version) = _)
    rw [handled, hprepared, hload]
    dsimp only [Except.toOption, Option.elim]
    cases hresult : readModel dialect options.name (start host options version) with
    | ok a w =>
      obtain ⟨hrecord, hnodes⟩ := hread.of_ok hresult
      exact places_of_ok hrecord hnodes
    | error failure w =>
      obtain ⟨hrecord, hblames⟩ := hread.of_error hresult
      exact places_of_error hrecord hblames

/-- Comments, continued lines, help texts and an inclusion. -/
def mixedLines : Host where
  files.entries := [
    (["work", "Kconfig"], .file (.text <|
      "# a\nconfig A\n\tbool \\\n\t\"a\"\n\thelp\n\n\t  text\nsource \\\n\"sub\"\nconfig B\n")),
    (["work", "sub"], .file (.text "config C\n  help\nconfig D\n"))]

example :
    ((handled mixedLines {}).map fun l => (l.file, l.place.spot.line)).eraseReps =
      [("Kconfig", 1), ("Kconfig", 2), ("Kconfig", 4), ("Kconfig", 5), ("Kconfig", 9), ("sub", 1),
        ("sub", 2), ("sub", 3), ("Kconfig", 10)] := by decide +kernel

end Load
end Kconfig
