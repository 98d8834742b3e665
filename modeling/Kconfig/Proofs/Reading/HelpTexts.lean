import Kconfig.Proofs.Reading.Following
import Kconfig.Proofs.Text.Lines
import Mathlib.Data.List.TakeWhile
/-!
Help texts as the parser reads them.

The parser asks for lines until one cannot belong to the text; what it has read then are the lines
that the reader in one pass takes, and one more unless the file ended. Counted all at once or one by
one, the lines that were read come to the number of that last line.
-/
namespace Kconfig

namespace Text

theorem mem_expandTabsFrom {c : Char} (hc : c ≠ '\t') : ∀ {s : List Char} (column : Nat), c ∈ s →
    c ∈ expandTabsFrom column s
  | d :: s, column, h => by
    rw [expandTabsFrom]
    split
    · next htab =>
      have hmem := (List.mem_cons.mp h).resolve_left fun heq => hc (heq.trans htab)
      exact List.mem_append_right _ (mem_expandTabsFrom hc _ hmem)
    · split <;>
      · rcases List.mem_cons.mp h with rfl | hmem
        · exact List.mem_cons_self
        · exact List.mem_cons_of_mem _ (mem_expandTabsFrom hc _ hmem)

theorem dropRightWhile_ne_nil {p : Char → Bool} {c : Char} {s : List Char} (hc : p c = false)
    (h : c ∈ s) : dropRightWhile p s ≠ [] := by
  obtain ⟨a, b, rfl⟩ := List.append_of_mem h
  rw [dropRightWhile_append hc]
  exact List.append_ne_nil_of_right_ne_nil _ (List.cons_ne_nil _ _)

end Text

namespace HelpText

/-- A line that is not blank has something after its indentation. -/
theorem exists_mem_body {line : List Char} (hfilled : Text.allBlank line = false)
    (hne : line ≠ []) : ∃ c ∈ body (indentation line) line, Text.isBlank c = false := by
  obtain ⟨c, hc, hfilled'⟩ : ∃ c ∈ line, Text.isBlank c = false := by
    rw [Text.allBlank, List.isEmpty_eq_false_iff.mpr hne] at hfilled
    simpa using hfilled
  have htab : c ≠ '\t' := by
    rintro rfl
    exact absurd hfilled' (by decide)
  have hmem : c ∈ Text.expandTabs line := Text.mem_expandTabsFrom htab 0 hc
  have hsplit := List.takeWhile_append_dropWhile (l := Text.expandTabs line) (p := Text.isBlank)
  rw [← hsplit] at hmem
  refine ⟨c, ?_, hfilled'⟩
  have hlength : indentation line = ((Text.expandTabs line).takeWhile Text.isBlank).length := by
    have := congrArg List.length hsplit
    rw [List.length_append] at this
    rw [indentation, Text.trimLeft]
    omega
  have hdrop := @List.drop_left _ ((Text.expandTabs line).takeWhile Text.isBlank)
    ((Text.expandTabs line).dropWhile Text.isBlank)
  rw [hsplit] at hdrop
  rw [body, if_neg (Bool.eq_false_iff.mp hfilled), hlength, hdrop]
  refine (List.mem_append.mp hmem).resolve_left fun hblank => ?_
  have hall := List.all_eq_true.mp List.all_takeWhile c hblank
  rw [hfilled'] at hall
  cases hall

/-- So a help text that has lines is not empty. -/
theorem text_ne {line : List Char} (hfilled : Text.allBlank line = false)
    (hindent : indentation line ≠ 0) (s : List Char) :
    (String.ofList (Text.trimRight (body (indentation line) line ++ s))).isEmpty = false := by
  have hne : line ≠ [] := by
    rintro rfl
    exact hindent rfl
  obtain ⟨c, hc, hfilled'⟩ := exists_mem_body hfilled hne
  rw [Bool.eq_false_iff, Ne, String.isEmpty_iff]
  intro hempty
  refine Text.dropRightWhile_ne_nil hfilled' (List.mem_append_left s hc) ?_
  exact String.ofList_eq_empty_iff.mp hempty

end HelpText

namespace Parsing
open Reading
variable {β γ τ : Type} {dialect : Dialect} {s : Scan τ}

/-- The parser some lines later. -/
def ahead (n : Nat) (rest : List (List Char)) (s : Scan τ) : Scan τ :=
  { s with
    workspace.place.spot.line := s.workspace.place.spot.line + n
    file.rest := rest }

theorem ahead_ahead (n k : Nat) (rest rest' : List (List Char)) (s : Scan τ) :
    ahead n rest (ahead k rest' s) = ahead (k + n) rest s := by
  simp only [ahead, Nat.add_assoc]

theorem ahead_zero {rest : List (List Char)} (h : s.file.rest = rest) : ahead 0 rest s = s := by
  subst h
  rfl

@[simp] theorem ahead_rest (n : Nat) (rest : List (List Char)) (s : Scan τ) :
    (ahead n rest s).file.rest = rest := rfl

theorem count_apply (n : Nat) (s : Scan τ) : count n s = .ok ⟨⟩ (ahead n s.file.rest s) := rfl

/-- A line is taken and counted. -/
theorem ahead_taken (n k : Nat) (rest : List (List Char)) (more : List (List Char)) (s : Scan τ) :
    ahead n more (ahead k rest { s with file.rest := rest }) = ahead (k + n) more s :=
  ahead_ahead n k more rest s

/-! ### Lines before the text -/

/-- Blank lines are passed up to a line that is not blank. -/
theorem firstFilled_apply {first : List Char} {more : List (List Char)} :
    ∀ {rest : List (List Char)} {fuel : Nat} {s : Scan τ}, s.file.rest = rest →
      rest.length < fuel → rest.dropWhile Text.allBlank = first :: more →
      firstFilled dialect fuel s =
        .ok (some first) (ahead ((rest.takeWhile Text.allBlank).length + 1) more s)
  | [], _, _, _, _, hdrop => by cases hdrop
  | _ :: _, 0, _, _, hfuel, _ => absurd hfuel (Nat.not_lt_zero _)
  | line :: rest, fuel + 1, s, hrest, hfuel, hdrop => by
    have hcount : (dialect.readsAhead || (some line).isSome) = true := by simp
    rw [firstFilled, readline_bind_apply hrest, hcount, if_pos rfl, bind_apply, count_apply]
    dsimp only
    cases hblank : Text.allBlank line with
    | true =>
      rw [List.dropWhile_cons_of_pos hblank] at hdrop
      rw [if_pos rfl, List.takeWhile_cons_of_pos hblank, List.length_cons, Nat.add_comm _ 1,
        @firstFilled_apply first more rest fuel _ rfl (Nat.lt_of_succ_lt_succ hfuel) hdrop,
        ahead_taken]
    | false =>
      rw [List.dropWhile_cons_of_neg (Bool.eq_false_iff.mp hblank)] at hdrop
      cases hdrop
      rw [List.takeWhile_cons_of_neg (Bool.eq_false_iff.mp hblank)]
      rfl

/-- Blank lines are passed up to the end of the file. -/
theorem firstFilled_end_apply : ∀ {rest : List (List Char)} {fuel : Nat} {s : Scan τ},
    s.file.rest = rest → rest.length < fuel → (∀ line ∈ rest, Text.allBlank line = true) →
    firstFilled dialect fuel s = (do
      perform (passEnd s.file.fault)
      if dialect.readsAhead then count 1
      pure none : Parsing τ (Option (List Char))) (ahead rest.length [] s)
  | [], fuel + 1, s, hrest, _, _ => by
    rw [firstFilled, readline_end_bind_apply hrest, List.length_nil, ahead_zero hrest]
    simp only [Option.isSome_none, Bool.or_false]
  | _, 0, _, _, hfuel, _ => absurd hfuel (Nat.not_lt_zero _)
  | line :: rest, fuel + 1, s, hrest, hfuel, hall => by
    have hcount : (dialect.readsAhead || (some line).isSome) = true := by simp
    rw [firstFilled, readline_bind_apply hrest, hcount, if_pos rfl, bind_apply, count_apply]
    dsimp only
    rw [if_pos (hall line List.mem_cons_self),
      @firstFilled_end_apply rest fuel _ rfl (Nat.lt_of_succ_lt_succ hfuel) fun l hl =>
        hall l (List.mem_cons_of_mem _ hl), ahead_taken, List.length_cons, Nat.add_comm _ 1]
    rfl

/-! ### Lines of the text -/

/-- Whether a line may stand in a text of this indentation. -/
def belongs (indent : Nat) (line : List Char) : Bool :=
  Text.allBlank line || indent ≤ HelpText.indentation line

/-- A line that is read for a help text is counted at once, unless that is done afterwards. -/
theorem ite_count_apply {action : Parsing τ γ} {s : Scan τ} :
    (if dialect.readsAhead = true then action else do
      count 1
      action) s = action (ahead (if dialect.readsAhead then 0 else 1) s.file.rest s) := by
  cases dialect.readsAhead with
  | true => exact congrArg action (ahead_zero rfl).symm
  | false => rfl

/-- The lines of a text are read up to one that does not belong to it. -/
theorem helpLines_apply {indent : Nat} {line : List Char} {more : List (List Char)} :
    ∀ {rest : List (List Char)} {fuel : Nat} {found : List (List Char)} {s : Scan τ},
      s.file.rest = rest → rest.length < fuel → rest.dropWhile (belongs indent) = line :: more →
      helpLines dialect indent fuel found s =
        .ok (found ++ (rest.takeWhile (belongs indent)).map (HelpText.body indent), some line)
          (ahead (if dialect.readsAhead then 0 else (rest.takeWhile (belongs indent)).length + 1)
            more s)
  | [], _, _, _, _, _, hdrop => by cases hdrop
  | _ :: _, 0, _, _, _, hfuel, _ => absurd hfuel (Nat.not_lt_zero _)
  | next :: rest, fuel + 1, found, s, hrest, hfuel, hdrop => by
    rw [helpLines, readline_bind_apply hrest]
    dsimp only
    rw [ite_count_apply]
    cases hbelongs : belongs indent next with
    | true =>
      rw [List.dropWhile_cons_of_pos hbelongs] at hdrop
      rw [List.takeWhile_cons_of_pos hbelongs]
      rw [belongs] at hbelongs
      rw [if_pos hbelongs, @helpLines_apply indent line more rest fuel _ _ rfl
        (Nat.lt_of_succ_lt_succ hfuel) hdrop, ahead_taken, List.append_assoc]
      cases dialect.readsAhead with
      | true => rfl
      | false =>
        rw [if_neg Bool.false_ne_true, if_neg Bool.false_ne_true, if_neg Bool.false_ne_true,
          List.length_cons, Nat.add_comm 1]
        rfl
    | false =>
      rw [List.dropWhile_cons_of_neg (Bool.eq_false_iff.mp hbelongs)] at hdrop
      cases hdrop
      rw [List.takeWhile_cons_of_neg (Bool.eq_false_iff.mp hbelongs)]
      rw [belongs] at hbelongs
      rw [if_neg (Bool.eq_false_iff.mp hbelongs), List.map_nil, List.append_nil]
      rfl

/-- The lines of a text are read up to the end of the file. -/
theorem helpLines_end_apply {indent : Nat} : ∀ {rest : List (List Char)} {fuel : Nat}
    {found : List (List Char)} {s : Scan τ}, s.file.rest = rest → rest.length < fuel →
    (∀ line ∈ rest, belongs indent line = true) →
    helpLines dialect indent fuel found s = (do
      perform (passEnd s.file.fault)
      pure (found ++ rest.map (HelpText.body indent), none) :
        Parsing τ (List (List Char) × Option (List Char)))
      (ahead (if dialect.readsAhead then 0 else rest.length) [] s)
  | [], fuel + 1, found, s, hrest, _, _ => by
    have hzero : (if dialect.readsAhead then 0 else ([] : List (List Char)).length) = 0 :=
      ite_self 0
    rw [helpLines, readline_end_bind_apply hrest, hzero, ahead_zero hrest, List.map_nil,
      List.append_nil]
  | _, 0, _, _, _, hfuel, _ => absurd hfuel (Nat.not_lt_zero _)
  | next :: rest, fuel + 1, found, s, hrest, hfuel, hall => by
    have hbelongs := hall next List.mem_cons_self
    rw [belongs] at hbelongs
    rw [helpLines, readline_bind_apply hrest]
    dsimp only
    rw [ite_count_apply, if_pos hbelongs, @helpLines_end_apply indent rest fuel _ _ rfl
      (Nat.lt_of_succ_lt_succ hfuel) fun l hl => hall l (List.mem_cons_of_mem _ hl), ahead_taken,
      List.append_assoc]
    cases dialect.readsAhead with
    | true => rfl
    | false =>
      rw [if_neg Bool.false_ne_true, if_neg Bool.false_ne_true, if_neg Bool.false_ne_true,
        List.length_cons, Nat.add_comm 1]
      rfl

/-! ### The text of a node -/

section
variable {n : NodeId} {help : HelpText} {rest : List (List Char)} {fault : Option Text.Fault}

/-- Nothing is left after a help text at the end of the file. -/
theorem takeHelp_end (hread : HelpText.read rest = help) (hrest : rest.drop help.lines = []) :
    Reading.takeHelp dialect n ⟨rest, fault⟩ = (do
      countLines help.lines
      passEnd fault
      countLines (if dialect.readsAhead then 1 else 0)
      setHelp n help
      pure []) := by
  unfold Reading.takeHelp
  dsimp only
  rw [hread, hrest]
  cases dialect.readsAhead <;> rfl

/-- A line is left after any other help text. -/
theorem takeHelp_line {line : List Char} {more : List (List Char)}
    (hread : HelpText.read rest = help) (hrest : rest.drop help.lines = line :: more) :
    Reading.takeHelp dialect n ⟨rest, fault⟩ = (do
      countLines help.lines
      setHelp n help
      pure (line :: more)) := by
  unfold Reading.takeHelp
  dsimp only
  rw [hread, hrest]
  rfl

theorem warnOwner_apply (warning : String → Warning) (w : Workspace) :
    warnOwner n warning w = match (w.model.node n).entry.item? with
      | some i => warn (warning (w.model.owner i)) w
      | none => .error .misplaced w := by
  show ((match (w.model.node n).entry.item? with
    | some i => Pure.pure i
    | none => throw .misplaced : Reading Item) >>= fun i => _) w = _
  cases (w.model.node n).entry.item? <;> rfl

/-- A help text is given to its node whatever the number of the line is. -/
theorem setHelp_atLine (n : NodeId) (help : HelpText) (k : Nat) (w : Workspace) :
    setHelp n help (w.atLine k) = match setHelp n help w with
      | .ok a w' => .ok a (w'.atLine k)
      | .error failure w' => .error failure (w'.atLine k) := by
  unfold setHelp
  split
  · have howner : warnOwner n .emptyHelp (w.atLine k) = match warnOwner n .emptyHelp w with
        | .ok a w' => .ok a (w'.atLine k)
        | .error failure w' => .error failure (w'.atLine k) := by
      rw [warnOwner_apply, warnOwner_apply]
      show (match (w.model.node n).entry.item? with | some i => _ | none => _) = _
      cases (w.model.node n).entry.item? <;> rfl
    rw [bind_apply, bind_apply, howner]
    cases warnOwner n Warning.emptyHelp w <;> rfl
  · rfl

end

section
variable [Watcher τ] {watching : String → Watching τ (List Tree)} {layout : Layout} {n : NodeId}
  {help : HelpText} {rest : List (List Char)}

/-- The line after a help text is kept, or the statement that it makes. -/
theorem follows_keepAfterHelp (line : List Char) (h : Plain s) :
    Follows (keepAfterHelp dialect (some line)) s
      (atLine dialect watching s.file layout line s.file.rest) fun _ s' next => Goes s s' ∧
        (s'.held = none ∨ s'.raw = none) ∧ left s' ≤ s.file.rest.length + 1 ∧
        next = resume dialect watching layout s' := by
  unfold keepAfterHelp
  dsimp only
  split
  · rw [← bind_assoc]
    refine .bind (follows_counted line) ?_
    rintro given s₁ _ ⟨hgoes, -, hraw, hle, rfl⟩
    have hraw' : s₁.raw = none := hraw.trans h.raw
    refine .update rfl ⟨⟨hgoes.file, hgoes.links⟩, .inr hraw', ?_, rfl⟩
    simp only [left, hraw', Option.toList_some, Option.toList_none, List.length_nil,
      List.length_singleton]
    omega
  · refine .update rfl ⟨⟨rfl, rfl⟩, .inl h.held, ?_, by rw [resume, h.held]⟩
    simp [left, h.held]

/-- A help text at the end of the file. -/
theorem follows_help_end (hplain : Plain s) (hread : HelpText.read s.file.rest = help)
    (hrest : s.file.rest.drop help.lines = []) (k k' : Nat)
    (hcount : k + k' = help.lines + if dialect.readsAhead then 1 else 0)
    {parsing : Parsing τ Unit} (hparsing : parsing s = (do
      perform (passEnd s.file.fault)
      count k'
      perform (setHelp n help)) (ahead k [] s)) :
    Follows parsing s (do
      let rest ← watch (Reading.takeHelp dialect n ⟨s.file.rest, s.file.fault⟩)
      atLines dialect watching s.file layout rest)
      fun _ s' next => Goes s s' ∧ (s'.held = none ∨ s'.raw = none) ∧ left s' ≤ left s ∧
        next = resume dialect watching layout s' := by
  rw [takeHelp_end hread hrest]
  cases hfault : s.file.fault with
  | some fault =>
    rw [hfault] at hparsing
    exact .of_error (s.workspace.place.spot.line + help.lines) hparsing rfl
  | none =>
    rw [hfault] at hparsing
    simp only [watch_bind, watch_pure, bind_assoc, pure_bind]
    have hset : Follows (perform (setHelp n help))
        (ahead (help.lines + if dialect.readsAhead then 1 else 0) [] s) (do
          watch (setHelp n help)
          atLines dialect watching s.file layout []) fun _ s' next => Goes s s' ∧
            (s'.held = none ∨ s'.raw = none) ∧ left s' ≤ left s ∧
            next = resume dialect watching layout s' := by
      refine .perform fun _ w _ => ⟨⟨rfl, rfl⟩, .inl hplain.held, ?_, ?_⟩
      · exact Nat.add_le_add_right (Nat.add_le_add_right (Nat.zero_le _) _) _
      · simp only [resume, ahead, hplain.held, hplain.raw]
        rfl
    refine hset.of_eq ?_ ?_
    · rw [hparsing, ← hcount, ← ahead_ahead k' k [] [] s]
      rfl
    · simp only [ahead, ← Nat.add_assoc]
      rfl

/-- A help text before another line. -/
theorem follows_help_line {line : List Char} {more : List (List Char)} (hplain : Plain s)
    (hread : HelpText.read s.file.rest = help)
    (hrest : s.file.rest.drop help.lines = line :: more)
    {parsing : Parsing τ Unit} (hparsing : parsing s = (do
      perform (setHelp n help)
      keepAfterHelp dialect (some line)) (ahead (help.lines + 1) more s)) :
    Follows parsing s (do
      let rest ← watch (Reading.takeHelp dialect n ⟨s.file.rest, s.file.fault⟩)
      atLines dialect watching s.file layout rest)
      fun _ s' next => Goes s s' ∧ (s'.held = none ∨ s'.raw = none) ∧ left s' ≤ left s ∧
        next = resume dialect watching layout s' := by
  have hlength : more.length + 1 ≤ s.file.rest.length := by
    have hle := congrArg List.length hrest
    rw [List.length_drop, List.length_cons] at hle
    omega
  rw [takeHelp_line hread hrest]
  simp only [watch_bind, watch_pure, bind_assoc, pure_bind, atLines_cons]
  -- the help text is given while the line after it is counted already, and before it is counted
  have hset : setHelp n help (ahead (help.lines + 1) more s).workspace = _ :=
    setHelp_atLine n help (s.workspace.place.spot.line + (help.lines + 1))
      (ahead help.lines more s).workspace
  cases hresult : setHelp n help (ahead help.lines more s).workspace with
  | error failure w =>
    rw [hresult] at hset
    refine .of_error w.place.spot.line (?_ : parsing s = .error failure { s with
      workspace := w.atLine (s.workspace.place.spot.line + (help.lines + 1))
      file.rest := more }) ?_
    · rw [hparsing, bind_apply, perform, hset]
      rfl
    · rw [bind_apply]
      show (watch (setHelp n help) >>= _) ⟨(ahead help.lines more s).workspace, s.trace⟩ = _
      rw [bind_apply, watch, hresult]
      rfl
  | ok a w =>
    have hline : w.place.spot.line = s.workspace.place.spot.line + help.lines := by
      have hsame : setHelp n help (ahead help.lines more s).workspace = _ :=
        setHelp_atLine n help (s.workspace.place.spot.line + help.lines)
          (ahead help.lines more s).workspace
      rw [hresult] at hsame
      injection hsame with _ hw
      rw [hw]
      rfl
    rw [hresult] at hset
    obtain ⟨s', hs'⟩ : ∃ s', s' = { s with
        workspace := w.atLine (s.workspace.place.spot.line + (help.lines + 1))
        file.rest := more } := ⟨_, rfl⟩
    have hkeep : Follows (keepAfterHelp dialect (some line)) s'
        (atLine dialect watching s'.file layout line s'.file.rest) _ :=
      follows_keepAfterHelp line (by subst hs'; exact ⟨hplain.held, hplain.raw⟩)
    subst hs'
    refine .of_eq (hkeep.mono ?_) ?_ ?_
    · rintro _ s' next ⟨hgoes, hkept, hle, heq⟩
      refine ⟨⟨hgoes.file, hgoes.links⟩, hkept, Nat.le_trans hle ?_, heq⟩
      exact Nat.le_trans hlength (Nat.le_trans (Nat.le_add_right _ _) (Nat.le_add_right _ _))
    · rw [hparsing, bind_apply, perform, hset]
      rfl
    · rw [bind_apply]
      show (watch (setHelp n help) >>= _) ⟨(ahead help.lines more s).workspace, s.trace⟩ = _
      rw [bind_apply, watch, hresult]
      show atLine dialect watching s.file layout line more
        ⟨{ w with place.spot.line := w.place.spot.line + 1 }, s.trace⟩ = _
      rw [hline]
      rfl

/-- An empty help text is warned about. -/
theorem emptyHelp_eq (k : Nat) (line : Option (List Char)) :
    emptyHelp dialect n line = (do
      perform (setHelp n ⟨"", k⟩)
      keepAfterHelp dialect line : Parsing τ Unit) := by
  have hset : setHelp n ⟨"", k⟩ = (do
      warnOwner n .emptyHelp
      fillHelp n "") := rfl
  unfold emptyHelp
  rw [hset, perform_bind, bind_assoc]

/-- The help text of some lines, each without its indentation. -/
theorem setHelp_filled {first : List Char} (hfilled : Text.allBlank first = false)
    (hindent : HelpText.indentation first ≠ 0) (lines : List (List Char)) (k : Nat) :
    setHelp n ⟨String.ofList (Text.trimRight
        (HelpText.body (HelpText.indentation first) first :: lines).flatten), k⟩ =
      fillHelp n (String.ofList (Text.trimRight
        (HelpText.body (HelpText.indentation first) first :: lines).flatten)) := by
  unfold setHelp
  dsimp only
  rw [List.flatten_cons, HelpText.text_ne hfilled hindent, if_neg Bool.false_ne_true]
  rfl

theorem helpFrom_none (fuel k : Nat) :
    helpFrom dialect n fuel none = (perform (setHelp n ⟨"", k⟩) : Parsing τ Unit) := by
  rw [helpFrom, emptyHelp_eq k]
  exact bind_pure _

theorem helpFrom_unindented {first : List Char} (h : HelpText.indentation first = 0) (fuel k : Nat) :
    helpFrom dialect n fuel (some first) = (do
      perform (setHelp n ⟨"", k⟩)
      keepAfterHelp dialect (some first) : Parsing τ Unit) := by
  rw [helpFrom]
  dsimp only
  rw [if_pos h, emptyHelp_eq k]

/-- The text that a line and others after it make, without their indentation. -/
def textOf (first : List Char) (lines : List (List Char)) : String :=
  String.ofList (Text.trimRight
    ((first :: lines).map (HelpText.body (HelpText.indentation first))).flatten)

/-- What is done once the lines of a help text are read. -/
theorem helpFrom_indented {first : List Char} (hindent : HelpText.indentation first ≠ 0)
    (fuel : Nat) : helpFrom dialect n fuel (some first) =
      (do
        let (lines, after) ← helpLines dialect (HelpText.indentation first) fuel
          [HelpText.body (HelpText.indentation first) first]
        count (if dialect.readsAhead then lines.length else 0)
        perform (fillHelp n (String.ofList (Text.trimRight lines.flatten)))
        keepAfterHelp dialect after : Parsing τ Unit) := by
  rw [helpFrom]
  dsimp only
  rw [if_neg hindent]
  cases dialect.readsAhead <;> rfl

/-- The lines of a help text, if the file ends with it. -/
theorem helpFrom_end {first : List Char} (hfilled : Text.allBlank first = false)
    (hindent : HelpText.indentation first ≠ 0) {fuel : Nat} (hfuel : s.file.rest.length < fuel)
    (hall : ∀ line ∈ s.file.rest, belongs (HelpText.indentation first) line = true) (k : Nat) :
    helpFrom dialect n fuel (some first) s = (do
      perform (passEnd s.file.fault)
      count (if dialect.readsAhead then s.file.rest.length + 1 else 0)
      perform (setHelp n ⟨textOf first s.file.rest, k⟩))
      (ahead (if dialect.readsAhead then 0 else s.file.rest.length) [] s) := by
  have hset := setHelp_filled (n := n) hfilled hindent
    (s.file.rest.map (HelpText.body (HelpText.indentation first))) k
  rw [helpFrom_indented hindent fuel, bind_apply, helpLines_end_apply rfl hfuel hall,
    bind_apply, bind_apply, textOf, List.map_cons, hset]
  cases perform (passEnd s.file.fault) (ahead _ [] s) with
  | error failure s' => rfl
  | ok _ s' =>
    show (do
      count _
      perform _
      pure PUnit.unit : Parsing τ Unit) s' = _
    rw [bind_pure]
    simp

/-- The lines of any other help text. -/
theorem helpFrom_line {first line : List Char} {left : List (List Char)}
    (hfilled : Text.allBlank first = false) (hindent : HelpText.indentation first ≠ 0) {fuel : Nat}
    (hfuel : s.file.rest.length < fuel)
    (hleft : s.file.rest.dropWhile (belongs (HelpText.indentation first)) = line :: left)
    {lines : List (List Char)}
    (hlines : s.file.rest.takeWhile (belongs (HelpText.indentation first)) = lines) (k : Nat) :
    helpFrom dialect n fuel (some first) s = (do
      perform (setHelp n ⟨textOf first lines, k⟩)
      keepAfterHelp dialect (some line)) (ahead (lines.length + 1) left s) := by
  have hset := setHelp_filled (n := n) hfilled hindent
    (lines.map (HelpText.body (HelpText.indentation first))) k
  rw [helpFrom_indented hindent fuel, bind_apply, helpLines_apply rfl hfuel hleft, hlines,
    textOf, List.map_cons, hset]
  dsimp only
  rw [bind_apply, count_apply]
  dsimp only
  rw [ahead_ahead]
  cases dialect.readsAhead <;> simp

/-! The text that some lines start with. -/

theorem read_blank (h : rest.dropWhile Text.allBlank = []) :
    HelpText.read rest = ⟨"", rest.length⟩ := by
  rw [HelpText.read, h]
  dsimp only
  rw [List.takeWhile_eq_self_iff.mpr (List.dropWhile_eq_nil_iff.mp h)]

theorem read_unindented {first : List Char} {more : List (List Char)}
    (h : rest.dropWhile Text.allBlank = first :: more) (hindent : HelpText.indentation first = 0) :
    HelpText.read rest = ⟨"", (rest.takeWhile Text.allBlank).length⟩ := by
  rw [HelpText.read, h]
  dsimp only
  rw [if_pos hindent]

theorem read_indented {first : List Char} {more lines : List (List Char)}
    (h : rest.dropWhile Text.allBlank = first :: more) (hindent : HelpText.indentation first ≠ 0)
    (hlines : more.takeWhile (belongs (HelpText.indentation first)) = lines) :
    HelpText.read rest =
      ⟨textOf first lines, (rest.takeWhile Text.allBlank).length + 1 + lines.length⟩ := by
  subst hlines
  rw [HelpText.read, h]
  dsimp only
  rw [if_neg hindent]
  rfl

/-- The lines of a help text are those that the reader in one pass takes. -/
theorem follows_takeHelp (hplain : Plain s) : Follows (takeHelp dialect n) s (do
      let rest ← watch (Reading.takeHelp dialect n ⟨s.file.rest, s.file.fault⟩)
      atLines dialect watching s.file layout rest)
      fun _ s' next => Goes s s' ∧ (s'.held = none ∨ s'.raw = none) ∧ left s' ≤ left s ∧
        next = resume dialect watching layout s' := by
  refine .bind_get ?_
  have hsplit := List.takeWhile_append_dropWhile (p := Text.allBlank) (l := s.file.rest)
  cases hdrop : s.file.rest.dropWhile Text.allBlank with
  | nil =>
    refine follows_help_end hplain (read_blank hdrop) List.drop_length s.file.rest.length
      (if dialect.readsAhead then 1 else 0) rfl ?_
    rw [bind_apply, firstFilled_end_apply rfl (Nat.lt_succ_self _)
      (List.dropWhile_eq_nil_iff.mp hdrop), bind_apply, bind_apply]
    cases perform (passEnd s.file.fault) (ahead s.file.rest.length [] s) with
    | error failure s' => rfl
    | ok _ s' =>
      dsimp only
      rw [← helpFrom_none (s.file.rest.length + 1)]
      cases dialect.readsAhead <;> rfl
  | cons first more =>
    have hfilled : Text.allBlank first = false := by
      have hhead := List.head?_dropWhile_not Text.allBlank s.file.rest
      rw [hdrop] at hhead
      simpa using hhead
    generalize hblanks : (s.file.rest.takeWhile Text.allBlank).length = blanks
    -- the first line of the text is found, and the lines of the text are looked for after it
    have hfirst : (firstFilled dialect (s.file.rest.length + 1) >>=
        helpFrom dialect n (s.file.rest.length + 1)) s =
          helpFrom dialect n (s.file.rest.length + 1) (some first) (ahead (blanks + 1) more s) := by
      rw [bind_apply, firstFilled_apply rfl (Nat.lt_succ_self _) hdrop, hblanks]
    have hlength : more.length < s.file.rest.length + 1 := by
      have := congrArg List.length hsplit
      rw [hdrop, List.length_append, List.length_cons] at this
      omega
    have hleft (k : Nat) : s.file.rest.drop (blanks + k) = (first :: more).drop k := by
      rw [← List.drop_drop, ← hdrop, ← hblanks]
      congr 1
      exact (congrArg (List.drop _) hsplit).symm.trans List.drop_left
    by_cases hindent : HelpText.indentation first = 0
    · have hread := read_unindented hdrop hindent
      rw [hblanks] at hread
      refine follows_help_line hplain hread (hleft 0) ?_
      exact hfirst.trans (congrFun (helpFrom_unindented hindent _ _) _)
    · have hlines := List.takeWhile_append_dropWhile
        (p := belongs (HelpText.indentation first)) (l := more)
      have hread := read_indented hdrop hindent rfl
      rw [hblanks] at hread
      cases hafter : more.dropWhile (belongs (HelpText.indentation first)) with
      | nil =>
        rw [hafter, List.append_nil] at hlines
        rw [hlines, Nat.add_assoc] at hread
        have hrest : s.file.rest.drop (blanks + (1 + more.length)) = [] := by
          rw [hleft, Nat.add_comm, List.drop_succ_cons, List.drop_length]
        refine follows_help_end hplain hread hrest
          (blanks + 1 + if dialect.readsAhead then 0 else more.length)
          (if dialect.readsAhead then more.length + 1 else 0) ?_ ?_
        · cases dialect.readsAhead
          · simp; omega
          · simp; omega
        · refine hfirst.trans ((helpFrom_end hfilled hindent hlength
            (List.dropWhile_eq_nil_iff.mp hafter) (blanks + (1 + more.length))).trans ?_)
          rw [ahead_ahead]
          rfl
      | cons line after =>
        rw [Nat.add_assoc] at hread
        have hrest : s.file.rest.drop (blanks + (1 +
            (more.takeWhile (belongs (HelpText.indentation first))).length)) = line :: after := by
          rw [hleft, Nat.add_comm, List.drop_succ_cons, ← hafter]
          exact (congrArg (List.drop _) hlines).symm.trans List.drop_left
        refine follows_help_line hplain hread hrest ?_
        refine hfirst.trans ((helpFrom_line hfilled hindent hlength hafter rfl (blanks + (1 +
          (more.takeWhile (belongs (HelpText.indentation first))).length))).trans ?_)
        rw [ahead_ahead, ← Nat.add_assoc, ← Nat.add_assoc]
        rfl

/-- A help text is read as by the reader in one pass. -/
theorem follows_parseHelp (hplain : Plain s) : Follows (parseHelp dialect n) s (do
      let rest ← watch (Reading.readHelp dialect n ⟨s.file.rest, s.file.fault⟩)
      atLines dialect watching s.file layout rest)
      fun _ s' next => Goes s s' ∧ (s'.held = none ∨ s'.raw = none) ∧ left s' ≤ left s ∧
        next = resume dialect watching layout s' := by
  refine .bind_look ?_
  by_cases hhelp : (s.workspace.model.node n).help.isSome
  · rw [if_pos hhelp, if_pos hhelp, watch_bind, bind_assoc]
    refine .perform_bind fun _ w => .mono (follows_takeHelp ⟨hplain.held, hplain.raw⟩) ?_
    exact fun _ s' _ h => ⟨⟨h.1.file, h.1.links⟩, h.2⟩
  · rw [if_neg hhelp, if_neg hhelp]
    exact follows_takeHelp hplain

end

end Parsing
end Kconfig
