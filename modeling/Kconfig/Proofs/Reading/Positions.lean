import Kconfig.Proofs.Reading.Handled
import Kconfig.Proofs.Reading.Inclusion
/-!
Where lines, nodes and errors stand.

A line that is handled stands in the file that was entered, and has the number of the last physical
line that belongs to it, whatever was read before: other lines and those that continue them, help
texts, files that were included. The nodes that it gives stand there as well, and so do the errors
that it leads to.
-/
namespace Kconfig
open Reading

/-- All lines are written down. -/
instance : Watcher (List Handling) := ⟨fun l handled => handled ++ [l]⟩

/-! ### Lines and places -/

/-- A line and those that continue it make up a text; it is whole unless the last of them goes on
where there are no more lines. -/
inductive Joins : Bool → List (List Char) → List Char → Prop
  | whole {line : List Char} (h : continued? line = none) : Joins true [line] line
  | cut {line stub : List Char} (h : continued? line = some stub) : Joins false [line] stub
  | next {isWhole : Bool} {line stub following text : List Char} {more : List (List Char)}
    (h : continued? line = some stub) (hmore : Joins isWhole ((stub ++ following) :: more) text) :
    Joins isWhole (line :: following :: more) text

namespace Handling

def site (l : Handling) : Site := ⟨l.place.includes, l.place.spot.file.getD "", l.place.spot.line⟩

/-- The lines that include each other down to this one. -/
def way (l : Handling) : List (String × Nat) :=
  l.place.includes ++ [(l.place.spot.file.getD "", l.place.spot.line)]

/-- A spot says where the line stands. -/
def IsAt (l : Handling) (spot : Spot) : Prop :=
  spot.file = l.place.spot.file ∧ spot.line = l.place.spot.line

/-- Reading stands in the file that was entered, at the last line of those that make up the text,
unless the file ends before the text does. -/
structure Exact (l : Handling) : Prop where
  file : l.place.spot.file = some l.file
  line : ∃ before block isWhole, l.lines = before ++ block ++ l.rest ∧ Joins isWhole block l.text ∧
    if isWhole then l.place.spot.line = before.length + block.length else l.rest = []

end Handling

namespace Reading
open Macro (Idle)

variable {handled handled' : List Handling} {l : Handling} {includes : List (String × Nat)}

/-- The line is still being handled: those that came after it stand in files that it leads to. -/
def Pending (handled : List Handling) (l : Handling) : Prop :=
  ∃ before after, handled = before ++ l :: after ∧
    ∀ later ∈ after, l.way <+: later.place.includes

/-- These lines lead to the top file, or to one that a line includes that is being handled. -/
def Opened (handled : List Handling) (includes : List (String × Nat)) : Prop :=
  includes = [] ∨ ∃ l, Pending handled l ∧ includes = l.way

/-- The lines that were handled: each place is exact, and its file was entered from a line that was
being handled. -/
inductive Record : List Handling → Prop
  | nil : Record []
  | concat {handled : List Handling} {l : Handling} (h : Record handled) (hexact : l.Exact)
    (hopened : Opened handled l.place.includes) : Record (handled ++ [l])

/-- The line is the last one that was handled before the node was there. -/
def Gave (handled : List Handling) (l : Handling) (n : NodeId) : Prop :=
  ∃ before after, handled = before ++ l :: after ∧ l.nodes ≤ n ∧ ∀ later ∈ after, n < later.nodes

/-- The site is the one of the line that gave the node; the top node is given by no line. -/
def Placed (top : String) (handled : List Handling) (n : NodeId) (site : Site) : Prop :=
  n = 0 ∧ site = ⟨[], top, 1⟩ ∨ ∃ l, Gave handled l n ∧ site = l.site

/-- The line at which reading fails: the last one, but where a file is refused the one that includes
it, whatever it included before. -/
def Blamed (handled : List Handling) (l : Handling) : Failure → Prop
  | .fatal (.recursiveSource _ _ includes) => Pending handled l ∧ includes = l.way
  | .sourceFile .. => Pending handled l
  | _ => handled.getLast? = some l

/-- If the failure speaks of a line, it is the one at which reading fails. -/
def Blames (handled : List Handling) (failure : Failure) : Prop :=
  ∀ spot, failure.spot? = some spot → ∃ l, Blamed handled l failure ∧ l.IsAt spot

/-- What was handled since then stands in files that these lines lead to. -/
def Since (before : List Handling) (includes : List (String × Nat)) (handled : List Handling) :
    Prop := ∃ more, handled = before ++ more ∧ ∀ l ∈ more, includes <+: l.place.includes

theorem Record.exact (h : Record handled) : ∀ l ∈ handled, l.Exact := by
  induction h with
  | nil => exact nofun
  | concat _ hexact _ ih =>
    intro l hl
    rcases List.mem_append.mp hl with hl | hl
    · exact ih l hl
    · exact List.mem_singleton.mp hl ▸ hexact

/-- The file of a line was entered from a line that was being handled when it came. -/
theorem Record.opened (h : Record handled) {before after : List Handling}
    (hhandled : handled = before ++ l :: after) : Opened before l.place.includes := by
  induction h generalizing after with
  | nil => simp at hhandled
  | concat h hexact hopened ih =>
    rcases List.eq_nil_or_concat after with rfl | ⟨after, last, rfl⟩
    · obtain ⟨rfl, hl⟩ := List.append_inj' hhandled rfl
      exact List.singleton_inj.mp hl ▸ hopened
    · rw [List.concat_eq_append, ← List.cons_append, ← List.append_assoc] at hhandled
      exact ih (List.append_inj' hhandled rfl).1

theorem Pending.of_last (h : handled.getLast? = some l) : Pending handled l :=
  let ⟨before, hbefore⟩ := List.getLast?_eq_some_iff.mp h
  ⟨before, [], hbefore, nofun⟩

namespace Since
variable {before : List Handling} {includes' : List (String × Nat)}

theorem refl : Since handled includes handled := ⟨[], (List.append_nil _).symm, nofun⟩

theorem concat (h : Since before includes handled) (hl : includes <+: l.place.includes) :
    Since before includes (handled ++ [l]) := by
  obtain ⟨more, rfl, hmore⟩ := h
  refine ⟨more ++ [l], List.append_assoc .., fun later hlater => ?_⟩
  rcases List.mem_append.mp hlater with hlater | hlater
  · exact hmore later hlater
  · exact List.mem_singleton.mp hlater ▸ hl

theorem trans (h : Since before includes handled) (h' : Since handled includes' handled')
    (hincludes : includes <+: includes') : Since before includes handled' := by
  obtain ⟨more, rfl, hmore⟩ := h
  obtain ⟨more', rfl, hmore'⟩ := h'
  refine ⟨more ++ more', List.append_assoc .., fun later hlater => ?_⟩
  rcases List.mem_append.mp hlater with hlater | hlater
  · exact hmore later hlater
  · exact hincludes.trans (hmore' later hlater)

/-- A line goes on being handled while the files that it includes are read. -/
theorem pending (h : Since handled l.way handled') (hl : Pending handled l) :
    Pending handled' l := by
  obtain ⟨more, rfl, hmore⟩ := h
  obtain ⟨before, after, rfl, hafter⟩ := hl
  refine ⟨before, after ++ more, by simp, fun later hlater => ?_⟩
  rcases List.mem_append.mp hlater with hlater | hlater
  · exact hafter later hlater
  · exact hmore later hlater

theorem opened (h : Since handled includes handled') (hopened : Opened handled includes) :
    Opened handled' includes := by
  rcases hopened with hnil | ⟨l, hl, rfl⟩
  · exact .inl hnil
  · exact .inr ⟨l, h.pending hl, rfl⟩

end Since

/-- A node that is there when a line comes was given before. -/
theorem Placed.concat {top : String} {n : NodeId} {site : Site} (h : Placed top handled n site)
    (hn : n < l.nodes) : Placed top (handled ++ [l]) n site := by
  rcases h with htop | ⟨giver, ⟨before, after, rfl, hle, hafter⟩, hsite⟩
  · exact .inl htop
  · refine .inr ⟨giver, ⟨before, after ++ [l], by simp, hle, fun later hlater => ?_⟩, hsite⟩
    rcases List.mem_append.mp hlater with hlater | hlater
    · exact hafter later hlater
    · exact List.mem_singleton.mp hlater ▸ hn

theorem blames_of_spot?_eq_none {failure : Failure} (h : failure.spot? = none) :
    Blames handled failure := fun _ hspot => nomatch h.symm.trans hspot

/-- What fails while a line is read fails at the last line. -/
theorem blamed_of_isLocal {failure : Failure} (h : failure.IsLocal)
    (hl : handled.getLast? = some l) : Blamed handled l failure := by
  unfold Blamed
  split
  · exact h.elim
  · exact .of_last hl
  · exact hl

/-! ### What only tells -/

/-- Reading stands where it stood, and so do the nodes. -/
structure Unmoved (w w' : Workspace) : Prop where
  place : w'.place = w.place
  macros : w'.macros = w.macros
  nodes : ∀ (n : NodeId) (node : MenuNode), w'.model.nodes[n]? = some node →
    ∃ before : MenuNode, w.model.nodes[n]? = some before ∧ before.site = node.site

/-- The action moves nothing, or fails and speaks of no line. -/
abbrev Still (w : Workspace) {α : Type} (action : Reading α) : Prop :=
  Guards (Unmoved w) (fun failure _ => failure.spot? = none) action

section
variable {w : Workspace} {n : NodeId}

theorem Unmoved.refl : Unmoved w w := ⟨rfl, rfl, fun _ node hnode => ⟨node, hnode, rfl⟩⟩

theorem still_warnOwner (warning : String → Warning) : Still w (warnOwner n warning) := by
  refine .bind (.bind .get fun w' => ?_) fun _ => .bind .get fun _ =>
    .update fun _ h => ⟨h.place, h.macros, h.nodes⟩
  split
  · exact .pure _
  · exact .throw fun _ _ => rfl

theorem still_passEnd (fault : Option Text.Fault) : Still w (passEnd fault) := by
  cases fault with
  | none => exact .pure _
  | some fault => exact .bind .get fun _ => .throw fun _ _ => rfl

theorem still_warnPromptless : Still w (warnPromptless n) := by
  refine .bind .get fun _ => ?_
  dsimp only
  split
  · exact .ite (still_warnOwner _) (.pure _)
  · exact .pure _

theorem still_closeEntry (layout : Layout) : Still w (closeEntry layout) := by
  unfold closeEntry
  split
  · exact .bind still_warnPromptless fun _ => .pure _
  · exact .pure _

theorem still_setHelp (help : HelpText) : Still w (setHelp n help) := by
  have hset : Still w (modifyNode n ({ · with help := some help.text })) := by
    refine .update fun w' h => ⟨h.place, h.macros, fun m node hnode => ?_⟩
    change (w'.model.nodes.modify n _)[m]? = some node at hnode
    rw [Array.getElem?_modify] at hnode
    split at hnode
    · obtain ⟨before, hbefore, rfl⟩ := Option.map_eq_some_iff.mp hnode
      exact h.nodes m before hbefore
    · exact h.nodes m node hnode
  exact .ite (.bind (still_warnOwner _) fun _ => hset) hset

/-- The lines that make up a text are counted one by one. -/
theorem meets_joinLines (fault : Option Text.Fault) : ∀ (more : List (List Char)) (line : List Char)
    (w : Workspace), Meets (joinLines fault line more) w
      (fun joined w' => ∃ block isWhole count,
        w' = { w with place.spot.line := w.place.spot.line + count } ∧
        more = block ++ joined.2 ∧ Joins isWhole (line :: block) joined.1 ∧
        if isWhole then count = block.length else joined.2 = [])
      (fun failure _ => failure.spot? = none)
  | [], line, w => by
    unfold joinLines
    split
    · next hwhole => exact .pure ⟨[], true, 0, rfl, rfl, .whole hwhole, rfl⟩
    · next stub hstub =>
      refine .bind (Q := fun _ w' => w' = w) ?_ fun _ w' hw' => ?_
      · cases fault with
        | none => exact .pure rfl
        | some fault => exact .bind_get (.throw rfl)
      · subst hw'
        exact .bind (.update rfl) fun _ _ hcount =>
          .pure ⟨[], false, 1, hcount, rfl, .cut hstub, rfl⟩
  | next :: more, line, w => by
    unfold joinLines
    split
    · next hwhole => exact .pure ⟨[], true, 0, rfl, rfl, .whole hwhole, rfl⟩
    · next stub hstub =>
      refine .bind (Q := fun _ w' => w' = { w with place.spot.line := w.place.spot.line + 1 })
        (.update rfl) fun _ w' hw' => ?_
      subst hw'
      refine (meets_joinLines fault more (stub ++ next) _).mono ?_ fun _ _ h => h
      rintro joined w'' ⟨block, isWhole, count, rfl, rfl, hjoins, hend⟩
      refine ⟨next :: block, isWhole, 1 + count, ?_, rfl, .next hstub hjoins, ?_⟩
      · rw [← Nat.add_assoc]
      · cases isWhole with
        | true => exact (Nat.add_comm 1 count).trans (congrArg (· + 1) hend)
        | false => exact hend

end

/-! ### Reading a file -/

/-- A workspace with the lines that were handled. -/
abbrev Recorded := Watched (List Handling)

/-- What is kept of all that was read: the places of the lines and of the nodes. -/
structure Noted (top : String) (s : Recorded) : Prop where
  record : Record s.trace
  idle : Idle s.workspace.macros
  nodes : ∀ (n : NodeId) (node : MenuNode), s.workspace.model.nodes[n]? = some node →
    Placed top s.trace n node.site

/-- A file that is read: the top file, the lines that were handled before, those that include each
other down to the file, its name and its lines. -/
structure Visit where
  top : String
  before : List Handling
  includes : List (String × Nat)
  file : String
  lines : List (List Char)
  opened : Opened before includes

namespace Visit
variable {v : Visit} {s : Recorded} {left : List (List Char)}

/-- The line is one of the file. -/
structure Has (v : Visit) (l : Handling) : Prop where
  exact : l.Exact
  includes : l.place.includes = v.includes
  file : l.file = v.file
  lines : l.lines = v.lines

/-- Reading is between two lines of the file; the number of the last one is right, at least if there
are more to come. -/
structure At (v : Visit) (left : List (List Char)) (s : Recorded) : Prop where
  noted : Noted v.top s
  since : Since v.before v.includes s.trace
  includes : s.workspace.place.includes = v.includes
  file : s.workspace.place.spot.file = some v.file
  left : ∃ past, v.lines = past ++ left ∧ (left ≠ [] → s.workspace.place.spot.line = past.length)

/-- Reading is at a line of the file, or has come back to it from those that it includes. -/
structure Holds (v : Visit) (l : Handling) (s : Recorded) : Prop where
  noted : Noted v.top s
  since : Since v.before v.includes s.trace
  pending : Pending s.trace l
  includes : s.workspace.place.includes = l.place.includes
  file : s.workspace.place.spot.file = l.place.spot.file
  line : s.workspace.place.spot.line = l.place.spot.line

/-- Reading is at a line of the file, the last one that was handled. -/
structure Handles (v : Visit) (l : Handling) (s : Recorded) : Prop extends v.Holds l s where
  last : s.trace.getLast? = some l
  count : l.nodes ≤ s.workspace.model.nodes.size

end Visit

/-- When reading fails, it fails at the line that is handled. -/
def FailsHere (failure : Failure) (s : Recorded) : Prop :=
  Record s.trace ∧ Blames s.trace failure

section
variable {α : Type} {v : Visit} {s : Recorded} {left : List (List Char)}

theorem meets_watch {action : Reading α} {Q : α → Workspace → Prop} {F : Failure → Workspace → Prop}
    (h : Meets action s.workspace Q F) : Meets (watch action) s
      (fun a s' => ∃ w', s' = { s with workspace := w' } ∧ Q a w')
      (fun failure s' => ∃ w', s' = { s with workspace := w' } ∧ F failure w') := by
  unfold Meets watch
  cases haction : action s.workspace with
  | ok a w' => exact ⟨w', rfl, h.of_ok haction⟩
  | error failure w' => exact ⟨w', rfl, h.of_error haction⟩

/-- An action that speaks of no line if it fails. -/
theorem meets_watch_general {action : Reading α} {Q : α → Workspace → Prop}
    (hrecord : Record s.trace)
    (h : Meets action s.workspace Q fun failure _ => failure.spot? = none) :
    Meets (watch action) s (fun a s' => ∃ w', s' = { s with workspace := w' } ∧ Q a w')
      FailsHere := by
  refine (meets_watch h).mono (fun _ _ h => h) ?_
  rintro failure s' ⟨w', rfl, hspot⟩
  exact ⟨hrecord, blames_of_spot?_eq_none hspot⟩

theorem Visit.At.unmoved (h : v.At left s) {w' : Workspace} (hw' : Unmoved s.workspace w') :
    v.At left { s with workspace := w' } where
  noted := ⟨h.noted.record, hw'.macros ▸ h.noted.idle, fun n node hnode => by
    obtain ⟨before, hbefore, hsite⟩ := hw'.nodes n node hnode
    exact hsite ▸ h.noted.nodes n before hbefore⟩
  since := h.since
  includes := hw'.place ▸ h.includes
  file := hw'.place ▸ h.file
  left := hw'.place ▸ h.left

/-- What only tells leaves reading between two lines. -/
theorem guards_still {action : Reading α} (h : ∀ w, Still w action) :
    Guards (fun w => v.At left { s with workspace := w }) (fun failure _ => failure.spot? = none)
      action := fun w hw =>
  (h w w .refl).mono (fun _ _ hw' => hw.unmoved hw') fun _ _ h => h

theorem guards_watch_still {action : Reading α} (h : ∀ w, Still w action) :
    Guards (v.At left) FailsHere (watch action) := by
  intro s hs
  refine (meets_watch_general hs.noted.record (guards_still h _ hs)).mono ?_ fun _ _ h => h
  rintro _ s' ⟨w', rfl, hw'⟩
  exact hw'

/-- After a line that is right, reading is before the next one. -/
theorem Visit.Holds.leave {l : Handling} (h : v.Holds l s) (hl : v.Has l) : v.At l.rest s where
  noted := h.noted
  since := h.since
  includes := h.includes.trans hl.includes
  file := h.file.trans (hl.file ▸ hl.exact.file)
  left := by
    obtain ⟨before, block, isWhole, hlines, -, hend⟩ := hl.exact.line
    refine ⟨before ++ block, hl.lines ▸ hlines, fun hrest => ?_⟩
    cases isWhole with
    | true => rw [h.line, List.length_append, show l.place.spot.line = _ from hend]
    | false => exact absurd hend hrest

/-! ### At a line -/

theorem Visit.Handles.of_holds {l : Handling} (h : v.Handles l s) {w' : Workspace}
    (hw' : s.workspace.scene.Holds Idle w') : v.Handles l { s with workspace := w' } where
  noted := ⟨h.noted.record, hw'.macros, fun n node hnode => by
    rcases hw'.nodes.site n node hnode with ⟨hcount, hsite⟩ | ⟨before, hbefore, hsite⟩
    · obtain ⟨earlier, hearlier⟩ := List.getLast?_eq_some_iff.mp h.last
      refine .inr ⟨l, ⟨earlier, [], hearlier, Nat.le_trans h.count hcount, nofun⟩, hsite.trans ?_⟩
      show Site.mk s.workspace.place.includes (s.workspace.place.spot.file.getD "")
        s.workspace.place.spot.line = l.site
      rw [h.includes, h.file, h.line]
      rfl
    · exact hsite ▸ h.noted.nodes n before hbefore⟩
  since := h.since
  pending := h.pending
  includes := hw'.includes.trans h.includes
  file := hw'.file.trans h.file
  line := hw'.line.trans h.line
  last := h.last
  count := Nat.le_trans h.count hw'.nodes.count

theorem fails_of_here {l : Handling} (h : v.Handles l s) {failure : Failure} {w' : Workspace}
    (hfails : s.workspace.scene.Fails Idle failure w') :
    FailsHere failure { s with workspace := w' } := by
  refine ⟨h.noted.record, fun spot hspot => ⟨l, blamed_of_isLocal hfails.isLocal h.last, ?_⟩⟩
  obtain ⟨hfile, hline⟩ := hfails.here spot hspot
  exact ⟨hfile.trans h.file, hline.trans h.line⟩

/-- What stays at its line stays at the line that is handled, or fails there. -/
theorem guards_confined {l : Handling} {action : Reading α}
    (h : ∀ scene, Confined scene Idle action) : Guards (v.Handles l) FailsHere (watch action) := by
  intro s hs
  refine (meets_watch (h _ s.workspace (Workspace.holds_scene hs.noted.idle))).mono ?_ ?_
  · rintro _ s' ⟨w', rfl, hw'⟩
    exact hs.of_holds hw'
  · rintro _ s' ⟨w', rfl, hw'⟩
    exact fails_of_here hs hw'

theorem meets_watch_line {l : Handling} {action : Reading (Option Statement)}
    (h : GivesConfined action) (hs : v.Handles l s) : Meets (watch action) s
      (fun given s' => v.Handles l s' ∧
        ∀ statement, given = some statement → ∀ scene, statement.Confined scene) FailsHere := by
  refine (meets_watch (h _ s.workspace (Workspace.holds_scene hs.noted.idle))).mono ?_ ?_
  · rintro _ s' ⟨w', rfl, hw', hgiven⟩
    exact ⟨hs.of_holds hw', hgiven⟩
  · rintro _ s' ⟨w', rfl, hw'⟩
    exact fails_of_here hs hw'

/-! ### From line to line -/

/-- A line of the file is written down. -/
theorem meets_note {text : List Char} {rest : List (List Char)} (hnoted : Noted v.top s)
    (hsince : Since v.before v.includes s.trace)
    (hl : v.Has (s.handling v.file v.lines text rest)) :
    Meets (note v.file v.lines text rest) s
      (fun _ s' => v.Handles (s.handling v.file v.lines text rest) s') FailsHere := by
  refine .update ⟨⟨?_, ?_, .of_last List.getLast?_concat, rfl, rfl, rfl⟩, List.getLast?_concat,
    Nat.le_refl _⟩
  · refine ⟨.concat hnoted.record hl.exact (hl.includes ▸ hsince.opened v.opened), hnoted.idle,
      fun n node hnode => (hnoted.nodes n node hnode).concat ?_⟩
    exact (Array.getElem?_eq_some_iff.mp hnode).1
  · exact hsince.concat (hl.includes ▸ List.prefix_refl _)

/-- A line that is still handled is written down once more. -/
theorem meets_note_again {l : Handling} (hl : v.Has l) (hs : v.Handles l s) :
    Meets (note v.file v.lines l.text l.rest) s (fun _ s' => ∃ l' : Handling,
      l'.text = l.text ∧ l'.rest = l.rest ∧ v.Has l' ∧ v.Handles l' s') FailsHere := by
  have hhas : v.Has (s.handling v.file v.lines l.text l.rest) := by
    refine ⟨⟨hs.file.trans (hl.file ▸ hl.exact.file), ?_⟩, hs.includes.trans hl.includes, rfl, rfl⟩
    obtain ⟨before, block, isWhole, hlines, hjoins, hend⟩ := hl.exact.line
    refine ⟨before, block, isWhole, hl.lines ▸ hlines, hjoins, ?_⟩
    cases isWhole with
    | true => exact hs.line.trans hend
    | false => exact hend
  exact (meets_note hs.noted hs.since hhas).mono
    (fun _ _ hs' => ⟨s.handling v.file v.lines l.text l.rest, rfl, rfl, hhas, hs'⟩) fun _ _ h => h

/-- Reading comes to a line of the file. -/
theorem meets_watchLine {line : List Char} {more : List (List Char)} (fault : Option Text.Fault)
    (hs : v.At (line :: more) s) : Meets (watchLine v.file v.lines fault line more) s
      (fun joined s' => ∃ l, l.text = joined.1 ∧ l.rest = joined.2 ∧ v.Has l ∧ v.Handles l s')
      FailsHere := by
  obtain ⟨past, hlines, hline⟩ := hs.left
  refine (meets_watch_general hs.noted.record (Q := fun _ w' =>
    w' = { s.workspace with place.spot.line := s.workspace.place.spot.line + 1 })
    (.update rfl)).bind ?_
  rintro _ s₁ ⟨w₁, rfl, hw₁⟩
  refine (meets_watch_general (s := ⟨w₁, s.trace⟩) hs.noted.record
    (meets_joinLines fault more line w₁)).bind ?_
  rintro ⟨text, rest⟩ s₂ ⟨w₂, rfl, block, isWhole, count, hw₂, rfl, hjoins, hend⟩
  subst hw₁
  have hexact : (Watched.handling ⟨w₂, s.trace⟩ v.file v.lines text rest).Exact := by
    subst hw₂
    refine ⟨hs.file, past, line :: block, isWhole, hlines.trans ?_, hjoins, ?_⟩
    · rw [List.append_assoc]
      rfl
    · cases isWhole with
      | true =>
        show s.workspace.place.spot.line + 1 + count = past.length + (block.length + 1)
        rw [hline nofun, show count = block.length from hend]
        omega
      | false => exact hend
  have hhas : v.Has (Watched.handling ⟨w₂, s.trace⟩ v.file v.lines text rest) :=
    ⟨hexact, hw₂ ▸ hs.includes, rfl, rfl⟩
  have hnoted : Noted v.top ⟨w₂, s.trace⟩ :=
    ⟨hs.noted.record, hw₂ ▸ hs.noted.idle, hw₂ ▸ hs.noted.nodes⟩
  exact (meets_note hnoted hs.since hhas).bind fun _ _ hs₃ => .pure ⟨_, rfl, rfl, hhas, hs₃⟩

/-- Lines that are passed over are counted. -/
theorem meets_countLines (n : Nat) {w : Workspace} {F : Failure → Workspace → Prop}
    (hw : v.At left { s with workspace := w }) :
    Meets (countLines n) w (fun _ w' => v.At (left.drop n) { s with workspace := w' }) F := by
  refine .update ⟨⟨hw.noted.record, hw.noted.idle, hw.noted.nodes⟩, hw.since, hw.includes, hw.file,
    ?_⟩
  obtain ⟨past, hlines, hline⟩ := hw.left
  refine ⟨past ++ left.take n, ?_, fun hleft => ?_⟩
  · rw [hlines, List.append_assoc, List.take_append_drop]
  · have hlt : n < left.length := by
      simpa only [ne_eq, List.drop_eq_nil_iff, Nat.not_le] using hleft
    have hline := hline (List.ne_nil_of_length_pos (Nat.zero_lt_of_lt hlt))
    show w.place.spot.line + n = (past ++ left.take n).length
    rw [show w.place.spot.line = past.length from hline, List.length_append, List.length_take,
      Nat.min_eq_left (Nat.le_of_lt hlt)]

/-- The action gives the lines before which it leaves reading, or fails and speaks of no line. -/
abbrev Visit.Passes (v : Visit) (s : Recorded) (w : Workspace)
    (action : Reading (List (List Char))) : Prop :=
  Meets action w (fun left w' => v.At left { s with workspace := w' })
    fun failure _ => failure.spot? = none

/-- A help text passes over its lines. -/
theorem meets_readHelp (dialect : Dialect) (n : NodeId) (fault : Option Text.Fault)
    (hs : v.At left s) : Meets (watch (readHelp dialect n ⟨left, fault⟩)) s v.At FailsHere := by
  have hset : ∀ rest w, v.At rest { s with workspace := w } → v.Passes s w (do
      setHelp n (HelpText.read left)
      pure rest) := fun rest w hw =>
    .bind (guards_still (fun _ => still_setHelp _) w hw) fun _ _ hw' => .pure hw'
  have hrest : ∀ w, v.At left { s with workspace := w } → v.Passes s w (do
      let help := HelpText.read left
      countLines help.lines
      let more := left.drop help.lines
      if more.isEmpty then
        passEnd fault
        if dialect.readsAhead then countLines 1
      setHelp n help
      pure more) := by
    intro w hw
    refine (meets_countLines _ hw).bind fun _ w₁ hw₁ => ?_
    dsimp only
    split
    · next hempty =>
      refine (guards_still (fun _ => still_passEnd _) w₁ hw₁).bind fun _ w₂ hw₂ => ?_
      split
      · rw [List.isEmpty_iff.mp hempty] at hw₂ ⊢
        exact (meets_countLines 1 hw₂).bind fun _ w₃ hw₃ => hset _ w₃ hw₃
      · exact hset _ w₂ hw₂
    · exact hset _ w₁ hw₁
  refine (meets_watch_general (Q := fun rest w' => v.At rest { s with workspace := w' })
    hs.noted.record ?_).mono ?_ fun _ _ h => h
  · refine .bind_get ?_
    dsimp only
    split
    · exact (guards_still (fun _ => still_warnOwner _) _ hs).bind fun _ w hw => hrest w hw
    · exact hrest _ hs
  · rintro rest s' ⟨w', rfl, hw'⟩
    exact hw'

/-! ### Files -/

section
variable {watching : String → Watching (List Handling) (List Tree)}

/-- A statement leaves reading at its line, whatever files it includes. -/
theorem meets_watchPlace {l : Handling}
    (hread : ∀ path, Guards (v.Holds l) FailsHere (watching path)) (layout : Layout)
    {statement : Statement} (h : ∀ scene, statement.Confined scene) (hs : v.Handles l s) :
    Meets (watchPlace watching layout statement) s (fun _ => v.Holds l) FailsHere := by
  have hplain : (∀ isRelative isRequired path, statement ≠ .source isRelative isRequired path) →
      Meets (watch (place (fun _ => pure []) layout statement)) s (fun _ => v.Holds l) FailsHere :=
    fun hplain => (guards_confined (fun scene => confined_place layout (h scene) hplain) s hs).mono
      (fun _ _ h => h.toHolds) fun _ _ h => h
  cases statement with
  | source isRelative isRequired path =>
    refine (guards_confined h s hs).bind fun path s₁ hs₁ => ?_
    refine (guards_confined (fun _ => confined_sourcesOf _ _ _) s₁ hs₁).bind fun paths s₂ hs₂ => ?_
    refine .bind ?_ fun _ _ hs₃ => .pure hs₃
    exact Guards.forIn (fun path _ => .bind (hread path) fun _ => .pure _) _ _ s₂ hs₂.toHolds
  | _ => exact hplain nofun

/-- From the files that they include, reading comes back to the lines of the file. -/
def Visit.Returns (v : Visit) (watching : String → Watching (List Handling) (List Tree)) : Prop :=
  ∀ l, v.Has l → ∀ path, Guards (v.Holds l) FailsHere (watching path)

variable {dialect : Dialect}

theorem meets_watchEntry {l : Handling} (hread : v.Returns watching) (layout : Layout)
    {statement : Statement} (h : ∀ scene, statement.Confined scene) (hl : v.Has l)
    (hs : v.Handles l s) :
    Meets (watchEntry v.file v.lines watching layout l.text l.rest statement) s
      (fun next => v.At next.2) FailsHere := by
  refine (meets_note_again hl hs).bind ?_
  rintro _ s₁ ⟨l', -, hrest, hl', hs₁⟩
  exact (meets_watchPlace (hread l' hl') layout h hs₁).bind fun _ s₂ hs₂ =>
    .pure (hrest ▸ hs₂.leave hl')

/-- The statement of a line is put to use, and reading goes on after the line. -/
theorem meets_watchStatement {l : Handling} (hread : v.Returns watching)
    (fault : Option Text.Fault) (layout : Layout) {given : Option Statement}
    (h : ∀ statement, given = some statement → ∀ scene, statement.Confined scene)
    (hl : v.Has l) (hs : v.Handles l s) :
    Meets (watchStatement dialect v.file v.lines watching fault layout l.text l.rest given) s
      (fun next => v.At next.2) FailsHere := by
  cases given with
  | none => exact .pure (hs.leave hl)
  | some statement =>
    have h := h statement rfl
    unfold watchStatement
    cases layout.entry with
    | none => exact meets_watchEntry hread layout h hl hs
    | some n =>
      refine (meets_note_again hl hs).bind ?_
      rintro _ s₁ ⟨l', htext, hrest, hl', hs₁⟩
      rw [← htext, ← hrest]
      split
      · exact (meets_readHelp _ _ _ (hs₁.leave hl')).bind fun _ _ hs₂ => .pure hs₂
      · split
        · exact (guards_confined (fun scene => confined_addProperty (h scene)) s₁ hs₁).bind
            fun _ _ hs₂ => .pure (hs₂.leave hl')
        · exact (guards_confined (fun _ => confined_closeEntry _) s₁ hs₁).bind
            fun _ _ hs₂ => meets_watchEntry hread _ h hl' hs₂

/-- From line to line, reading stays in its file. -/
theorem meets_watchLines (hdialect : dialect.Confined)
    (hread : v.Returns watching) (fault : Option Text.Fault) :
    ∀ (fuel : Nat) (layout : Layout) {left : List (List Char)} {s : Recorded}, v.At left s →
      Meets (watchLines dialect v.file v.lines watching fault fuel layout left) s
        (fun _ s' => ∃ left', v.At left' s') FailsHere
  | 0, _, left, s, hs => .pure ⟨left, hs⟩
  | _ + 1, layout, [], s, hs =>
    (guards_watch_still (fun _ => still_passEnd fault) s hs).bind fun _ s' hs' =>
      (guards_watch_still (fun _ => still_closeEntry layout) s' hs').mono
        (fun _ _ h => ⟨[], h⟩) fun _ _ h => h
  | fuel + 1, layout, line :: more, s, hs => by
    refine (meets_watchLine fault hs).bind ?_
    rintro ⟨_, _⟩ s₁ ⟨l, rfl, rfl, hl, hs₁⟩
    refine (meets_watch_line (hdialect l.text) hs₁).bind fun given s₂ hs₂ => ?_
    obtain ⟨hs₂, hgiven⟩ := hs₂
    exact (meets_watchStatement hread fault layout hgiven hl hs₂).bind fun (layout, _) _ hs₃ =>
      meets_watchLines hdialect hread fault fuel layout hs₃

theorem meets_watchContent (hdialect : dialect.Confined)
    (hread : v.Returns watching) (content : Files.Content)
    (hlines : v.lines = content.decoded.lines) (hs : v.At v.lines s) :
    Meets (watchContent dialect v.file watching content) s (fun _ s' => ∃ left', v.At left' s')
      FailsHere := by
  unfold watchContent
  dsimp only
  rw [← hlines]
  refine (meets_watchLines hdialect hread _ _ _ hs).bind fun layout s' hs' => ?_
  unfold watchEnd
  cases layout.levels with
  | nil => exact .pure hs'
  | cons level levels =>
    obtain ⟨left', hs'⟩ := hs'
    refine (guards_watch_still (fun _ => ?_) s' hs').mono (fun _ _ h => ⟨left', h⟩) fun _ _ h => h
    exact .bind .get fun _ => .bind .get fun _ => .throw fun _ _ => rfl

end

/-- The file that a line includes. -/
def Visit.inner (v : Visit) {handled : List Handling} {l : Handling} (h : Pending handled l)
    (file : String) (lines : List (List Char)) : Visit where
  top := v.top
  before := handled
  includes := l.way
  file := file
  lines := lines
  opened := .inr ⟨l, h, rfl⟩

/-- A line enters a file that it includes, or fails if the file is refused or cannot be read. -/
theorem meets_watch_enterFile {l : Handling} (path : String) (hs : v.Holds l s) :
    Meets (watch (enterFile path)) s
      (fun content => (v.inner hs.pending
        (nameInTree s.workspace.host.files s.workspace.settings.srctree path)
        content.decoded.lines).At content.decoded.lines) FailsHere := by
  have hway : s.workspace.place.includes ++
      [(s.workspace.place.spot.file.getD "", s.workspace.place.spot.line)] = l.way := by
    rw [hs.includes, hs.file, hs.line, Handling.way]
  have hfails : ∀ (failure : Failure) (w' : Workspace),
      failure.spot? = some s.workspace.place.spot → Blamed s.trace l failure →
        FailsHere failure { s with workspace := w' } := by
    intro failure w' hspot hblamed
    refine ⟨hs.noted.record, fun spot h => ⟨l, hblamed, ?_⟩⟩
    obtain rfl := Option.some.inj (hspot.symm.trans h)
    exact ⟨hs.file, hs.line⟩
  unfold Meets watch
  by_cases hmem : nameInTree s.workspace.host.files s.workspace.settings.srctree path ∈
      s.workspace.place.trail
  · rw [enterFile_of_mem hmem]
    exact hfails _ _ rfl ⟨hs.pending, hway⟩
  · rw [enterFile_of_not_mem hmem]
    cases hread : s.workspace.host.files.read path with
    | error condition => exact hfails _ _ rfl hs.pending
    | ok content =>
      exact ⟨⟨hs.noted.record, hs.noted.idle, hs.noted.nodes⟩, .refl, hway, rfl, [], rfl,
        fun _ => rfl⟩

/-- After a file that it includes, reading is back at the line. -/
theorem meets_watch_leaveFile {l : Handling} {file : String} {lines : List (List Char)}
    {s' : Recorded} (hs : v.Holds l s) (hl : v.Has l)
    (hs' : (v.inner hs.pending file lines).At left s') :
    Meets (watch leaveFile) s' (fun _ => v.Holds l) FailsHere := by
  have hincludes : s'.workspace.place.includes = l.way := hs'.includes
  have hlast : l.way.getLast? = some (l.place.spot.file.getD "", l.place.spot.line) :=
    List.getLast?_concat
  have hleave : leaveFile s'.workspace = .ok ⟨⟩ { s'.workspace with
      place.spot.file := some (l.place.spot.file.getD "")
      place.spot.line := l.place.spot.line
      place.includes := l.way.dropLast } := by
    unfold leaveFile
    rw [modify_apply, hincludes, hlast]
  unfold Meets watch
  rw [hleave]
  refine ⟨⟨hs'.noted.record, hs'.noted.idle, hs'.noted.nodes⟩, ?_, hs'.since.pending hs.pending,
    List.dropLast_concat, ?_, rfl⟩
  · exact hs.since.trans hs'.since (hl.includes ▸ List.prefix_append _ _)
  · rw [hl.exact.file]
    rfl

/-- A line may have files read; reading comes back to it. -/
theorem guards_watchFileAt {dialect : Dialect} (hdialect : dialect.Confined) : ∀ (depth : Nat)
    {v : Visit} {l : Handling}, v.Has l → ∀ path : String,
      Guards (v.Holds l) FailsHere (watchFileAt dialect depth path)
  | 0, _, _, _, _ => .throw fun _ hs => ⟨hs.noted.record, blames_of_spot?_eq_none rfl⟩
  | depth + 1, v, l, hl, path => by
    refine .bind_get fun s hs => (meets_watch_enterFile path hs).bind fun content s₁ hs₁ => ?_
    refine (meets_watchContent hdialect (fun _ hl => guards_watchFileAt hdialect depth hl)
      content rfl hs₁).bind fun trees s₂ hs₂ => ?_
    obtain ⟨left', hs₂⟩ := hs₂
    exact (meets_watch_leaveFile hs hl hs₂).bind fun _ _ h => .pure h

/-- Reading from the top file on. -/
theorem meets_watchFiles {dialect : Dialect} (hdialect : dialect.Confined) {name : String}
    {w : Workspace} (hplace : w.place = { spot := ⟨some name, 0, ""⟩ }) (hidle : Idle w.macros)
    (hnodes : ∀ (n : NodeId) (node : MenuNode), w.model.nodes[n]? = some node →
      n = 0 ∧ node.site = ⟨[], name, 1⟩) :
    Meets (watchFiles dialect name) ⟨w, []⟩ (fun _ => Noted name) FailsHere := by
  refine .bind_get ?_
  dsimp only
  split
  · exact .throw ⟨.nil, blames_of_spot?_eq_none rfl⟩
  · next content hread =>
    let v : Visit := ⟨name, [], [], name, content.decoded.lines, .inl rfl⟩
    have hs : v.At v.lines ⟨w, []⟩ := by
      refine ⟨⟨.nil, hidle, fun n node hnode => .inl (hnodes n node hnode)⟩, .refl, ?_, ?_, [], rfl,
        fun _ => ?_⟩ <;> exact hplace ▸ rfl
    refine (meets_watchContent hdialect (fun _ hl => guards_watchFileAt hdialect _ hl)
      content rfl hs).mono ?_ fun _ _ h => h
    rintro _ s' ⟨left', hs'⟩
    exact hs'.noted

end
end Reading
end Kconfig
