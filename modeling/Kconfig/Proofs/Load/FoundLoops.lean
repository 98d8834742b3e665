import Kconfig.Proofs.Load.Inclusion
import Kconfig.Proofs.Model.Loop
/-!
The dependency loops that loading reports.

Loading searches for loops when the files are read and the model is settled; nothing else fails for
a loop. So the items that the error shows are those of a loop in the model that was read. The search
itself finds loops in all graphs, in whatever order each item lists its dependents.
-/
namespace Kconfig
open Reading
open Macro (Idle)

namespace Load
variable {host : Host} {options : LoadOptions} {w : Workspace} {links : List LoopLink}

/-- A loop that loading reports was found in the model that was read. -/
theorem hasLoop_of_load (h : load host options = .error (.fatal (.dependencyLoop links)) w) :
    w.model.HasLoop links := by
  rcases load_eq host options with ⟨failure, hgeneral, -, hload⟩ |
    ⟨version, dialect, hdialect, -, hload⟩
  · obtain ⟨rfl, -⟩ := EStateM.Result.error.inj (h.symm.trans hload)
    exact hgeneral.1.elim
  · have hread := meets_readModel_start hdialect options
    rw [hload] at h
    cases hresult : readModel dialect options.name (start host options version) with
    | ok a w' =>
      rw [hresult] at h
      exact nomatch h
    | error failure w' =>
      rw [hresult] at h
      obtain ⟨rfl, rfl⟩ := EStateM.Result.error.inj h
      exact hread.of_error hresult

/-- What the search for loops finds in a sound model is a loop; an error that reports one shows the
items of a loop of the model that was read; and in every graph the search ends, as no calls are
nested deeper than so many. -/
theorem reported_loops_are_loops :
    (∀ (m : Model) (d : Dependents) (loop : List Item), m.Sound → m.findLoop? d = some loop →
      m.IsLoop d loop) ∧
    (∀ (host : Host) (options : LoadOptions) (links : List LoopLink) (w : Workspace),
      load host options = .error (.fatal (.dependencyLoop links)) w →
        w.model.Sound ∧ ∃ loop, w.model.findLoop? w.model.readers = some loop ∧
          links = loop.map w.model.loopLink ∧ w.model.IsLoop w.model.readers loop) ∧
    ∀ (m : Model) (d : Dependents) (beyond : Item → Model.Approach → Model.Search (List Item)),
      m.findLoop? d =
        m.findLoopBy ((m.visit d)^[m.symbols.size + m.choices.size + 2] beyond) := by
  refine ⟨fun m d loop hm h => hm.isLoop_of_findLoop? h, fun host options links w h => ?_,
    Model.findLoop?_ends⟩
  obtain ⟨before, loop, hsettles, hloop, hlinks⟩ := hasLoop_of_load h
  have hm := hsettles.sound
  exact ⟨hm, loop, hloop, hlinks, hm.isLoop_of_findLoop? hloop⟩

/-- A symbol that decides whether a choice is shown, and depends on a member of it. -/
def loopThroughChoice : Host where
  files.entries := [(["work", "Kconfig"], .file (.text
    "config A\n\tbool \"a\"\n\tdepends on X\nchoice\n\tprompt \"c\" if A\nconfig X\n\tbool \"x\"\nconfig Y\n\tbool \"y\"\nendchoice\n"))]

/-- Loading refused a model for a loop of these items. -/
def refusesLoop (loop : List Item) : EStateM.Result Failure Workspace Configuration → Bool
  | .error (.fatal (.dependencyLoop _)) w => w.model.findLoop? w.model.readers == some loop
  | _ => false

theorem of_refusesLoop {loop : List Item} {result : EStateM.Result Failure Workspace Configuration}
    (h : refusesLoop loop result = true) : ∃ links w,
      result = .error (.fatal (.dependencyLoop links)) w ∧
        w.model.findLoop? w.model.readers = some loop := by
  unfold refusesLoop at h
  split at h
  · next links w => exact ⟨links, w, rfl, beq_iff_eq.mp h⟩
  · exact nomatch h

/-- The loop leads from the symbol to the member, to the choice and back. -/
theorem loopThroughChoice_refused : ∃ links w,
    load loopThroughChoice {} = .error (.fatal (.dependencyLoop links)) w ∧ w.model.Sound ∧
      links = [.symbol 2, .symbol 3, .choice 0].map w.model.loopLink ∧
      w.model.IsLoop w.model.readers [.symbol 2, .symbol 3, .choice 0] ∧
      w.model.findLoop? w.model.readers =
        w.model.findLoopBy ((w.model.visit w.model.readers)^[
          w.model.symbols.size + w.model.choices.size + 2] fun _ _ => throw []) := by
  have hrefused : refusesLoop [.symbol 2, .symbol 3, .choice 0] (load loopThroughChoice {}) = true := by
    decide +kernel
  obtain ⟨links, w, hload, hfound⟩ := of_refusesLoop hrefused
  obtain ⟨hloops, hreported, hends⟩ := reported_loops_are_loops
  obtain ⟨hm, loop, hloop, hlinks, -⟩ := hreported loopThroughChoice {} links w hload
  obtain rfl := Option.some.inj (hfound.symm.trans hloop)
  exact ⟨links, w, hload, hm, hlinks, hloops _ _ _ hm hfound, hends _ _ _⟩

end Load
end Kconfig
