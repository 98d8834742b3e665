import Kconfig.Proofs.Reading.Handled
import Kconfig.Proofs.Reading.Unread
/-!
Following the reader in one pass.

The parser asks for physical lines, takes some of them too early and keeps those; the reader in one
pass has the lines that are left before it and looks at each of them once. What the parser does from
a state, the reader does from the lines that this state still stands for: those left in the file, and
before them the line that is kept. Counting is the same as well, though in another order around help
texts.
-/
namespace Kconfig

/-- What the parser and the reader in one pass have in common. -/
def Scan.watched {τ : Type} (s : Scan τ) : Reading.Watched τ := ⟨s.workspace, s.trace⟩

namespace Parsing
open Reading
variable {α β γ τ : Type}

/-- Running the watched action is running what it leads to after the parser is done; if the parser
fails, the watched action fails as well, at the same line or another one of the file. -/
def Follows (parsing : Parsing τ α) (s : Scan τ) (watching : Watching τ β)
    (Q : α → Scan τ → Watching τ β → Prop) : Prop :=
  match parsing s with
  | .ok a s' => ∃ next, watching s.watched = next s'.watched ∧ Q a s' next
  | .error failure s' =>
    ∃ k, watching s.watched = .error failure ⟨s'.workspace.atLine k, s'.trace⟩

namespace Follows
variable {s : Scan τ} {watching : Watching τ β} {Q : α → Scan τ → Watching τ β → Prop}

theorem pure {a : α} (h : Q a s watching) : Follows (Pure.pure a) s watching Q := ⟨_, rfl, h⟩

/-- Both may have come to another state already. -/
theorem of_eq {parsing parsing' : Parsing τ α} {watching' : Watching τ β} {s' : Scan τ}
    (h : Follows parsing' s' watching' Q) (hparsing : parsing s = parsing' s')
    (hwatching : watching s.watched = watching' s'.watched) : Follows parsing s watching Q := by
  unfold Follows at h ⊢
  rwa [hparsing, hwatching]

/-- Both fail, be it at different lines. -/
theorem of_error {parsing : Parsing τ α} {failure : Failure} {s' : Scan τ} (k : Nat)
    (hparsing : parsing s = .error failure s')
    (hwatching : watching s.watched = .error failure ⟨s'.workspace.atLine k, s'.trace⟩) :
    Follows parsing s watching Q := by
  unfold Follows
  rw [hparsing]
  exact ⟨k, hwatching⟩

theorem mono {parsing : Parsing τ α} {Q' : α → Scan τ → Watching τ β → Prop}
    (h : Follows parsing s watching Q) (hQ : ∀ a s' next, Q a s' next → Q' a s' next) :
    Follows parsing s watching Q' := by
  unfold Follows at h ⊢
  split at h
  · obtain ⟨next, heq, h⟩ := h
    exact ⟨next, heq, hQ _ _ _ h⟩
  · exact h

theorem bind {parsing : Parsing τ α} {rest : α → Parsing τ γ}
    {Q' : γ → Scan τ → Watching τ β → Prop} (h : Follows parsing s watching Q)
    (hrest : ∀ a s' next, Q a s' next → Follows (rest a) s' next Q') :
    Follows (parsing >>= rest) s watching Q' := by
  unfold Follows at h ⊢
  rw [bind_apply]
  cases hparsing : parsing s with
  | ok a s' =>
    rw [hparsing] at h
    obtain ⟨next, heq, h⟩ := h
    rw [heq]
    exact hrest a s' next h
  | error failure s' =>
    rw [hparsing] at h
    exact h

/-- What is watched may go on. -/
theorem after {parsing : Parsing τ α} {rest : β → Watching τ γ}
    (h : Follows parsing s watching Q) : Follows parsing s (watching >>= rest)
      fun a s' next => ∃ q, Q a s' q ∧ next = q >>= rest := by
  unfold Follows at h ⊢
  split at h
  · obtain ⟨q, heq, h⟩ := h
    exact ⟨q >>= rest, by rw [bind_apply, bind_apply, heq], q, h, rfl⟩
  · obtain ⟨k, heq⟩ := h
    exact ⟨k, by rw [bind_apply, heq]⟩

theorem bind_get {rest : Scan τ → Parsing τ γ} {Q : γ → Scan τ → Watching τ β → Prop}
    (h : Follows (rest s) s watching Q) : Follows (MonadState.get >>= rest) s watching Q := h

/-- Both look at the workspace. -/
theorem bind_look {rest : Scan τ → Parsing τ γ} {action : Workspace → Reading α}
    {next : α → Watching τ β} {Q : γ → Scan τ → Watching τ β → Prop}
    (h : Follows (rest s) s (watch (action s.workspace) >>= next) Q) :
    Follows (MonadState.get >>= rest) s (watch (MonadState.get >>= action) >>= next) Q := h

theorem update_bind {f : Scan τ → Scan τ} {rest : PUnit → Parsing τ γ}
    {Q : γ → Scan τ → Watching τ β → Prop} (hf : (f s).watched = s.watched)
    (h : Follows (rest ⟨⟩) (f s) watching Q) : Follows (modify f >>= rest) s watching Q := by
  have heq : (modify f >>= rest) s = rest ⟨⟩ (f s) := rfl
  unfold Follows at h ⊢
  rw [heq, ← hf]
  exact h

theorem update {f : Scan τ → Scan τ} {Q : PUnit → Scan τ → Watching τ β → Prop}
    (hf : (f s).watched = s.watched) (h : Q ⟨⟩ (f s) watching) :
    Follows (modify f) s watching Q := ⟨watching, by rw [← hf], h⟩

/-- Both perform the same action on the workspace. -/
theorem perform {action : Reading α} {rest : α → Watching τ β}
    (h : ∀ a w, action s.workspace = .ok a w → Q a { s with workspace := w } (rest a)) :
    Follows (perform action) s (watch action >>= rest) Q := by
  unfold Follows Parsing.perform
  rw [bind_apply]
  unfold watch
  cases haction : action s.workspace with
  | ok a w =>
    simp only [Scan.watched, haction]
    exact ⟨rest a, rfl, h a w haction⟩
  | error failure w =>
    simp only [Scan.watched, haction]
    exact ⟨w.place.spot.line, rfl⟩

theorem perform_bind {action : Reading α} {next : α → Parsing τ γ} {rest : α → Watching τ β}
    {Q : γ → Scan τ → Watching τ β → Prop}
    (h : ∀ a w, Follows (next a) { s with workspace := w } (rest a) Q) :
    Follows (Parsing.perform action >>= next) s (watch action >>= rest) Q := by
  refine .bind (Q := fun a s' q => ∃ w, s' = { s with workspace := w } ∧ q = rest a)
    (.perform fun a w _ => ⟨w, rfl, rfl⟩) ?_
  rintro a _ _ ⟨w, rfl, rfl⟩
  exact h a w

/-- Both tell of a line. -/
theorem note_bind [Watcher τ] {text : List Char} {next : PUnit → Parsing τ γ}
    {rest : PUnit → Watching τ β} {Q : γ → Scan τ → Watching τ β → Prop}
    (h : ∀ trace, Follows (next ⟨⟩) { s with trace } (rest ⟨⟩) Q) :
    Follows (Parsing.note text >>= next) s
      (Reading.note s.file.name s.file.lines text s.file.rest >>= rest) Q := h _

end Follows

/-! ### The lines of a file in one pass -/

/-- What an action does before is of no interest. -/
theorem yields_after {σ : Type} {action : EStateM Failure σ α} {next : α → EStateM Failure σ β}
    {s : σ} {Q : β → σ → Prop} (h : ∀ a s', Yields (next a) s' Q) : Yields (action >>= next) s Q :=
  .bind (Q := fun _ _ => True) (fun _ _ _ => trivial) fun a s' _ => h a s'

theorem yields_joinLines (fault : Option Text.Fault) : ∀ (more : List (List Char))
    (line : List Char) (w : Workspace), Yields (joinLines fault line more) w
      fun joined _ => joined.2.length ≤ more.length
  | [], line, w => by
    unfold joinLines
    split
    · exact .pure (Nat.le_refl _)
    · exact yields_after fun _ _ => yields_after fun _ _ => .pure (Nat.le_refl _)
  | next :: more, line, w => by
    unfold joinLines
    split
    · exact .pure (Nat.le_refl _)
    · exact yields_after fun _ w' =>
        (yields_joinLines fault more _ w').mono fun _ _ h => Nat.le_succ_of_le h

theorem yields_takeHelp (dialect : Dialect) (n : NodeId) (rest : Remaining) (w : Workspace) :
    Yields (Reading.takeHelp dialect n rest) w fun more _ => more.length ≤ rest.lines.length := by
  have hset : ∀ w, Yields (do
      setHelp n (HelpText.read rest.lines)
      pure (rest.lines.drop (HelpText.read rest.lines).lines) : Reading (List (List Char))) w
      fun more _ => more.length ≤ rest.lines.length := fun w => yields_after fun _ _ =>
    .pure (List.length_drop ▸ Nat.sub_le _ _)
  unfold Reading.takeHelp
  refine yields_after fun _ w₁ => ?_
  dsimp only
  split
  · refine yields_after fun _ w₂ => ?_
    split
    · exact yields_after fun _ _ => hset _
    · exact hset _
  · exact hset _

theorem yields_readHelp (dialect : Dialect) (n : NodeId) (rest : Remaining) (w : Workspace) :
    Yields (readHelp dialect n rest) w fun more _ => more.length ≤ rest.lines.length := by
  refine .bind_get ?_
  split
  · exact yields_after fun _ _ => yields_takeHelp dialect n rest _
  · exact yields_takeHelp dialect n rest _

@[simp] theorem watch_pure (a : α) : watch (pure a) = (pure a : Watching τ α) := rfl

theorem watch_bind (action : Reading α) (next : α → Reading β) :
    watch (action >>= next) = (watch action >>= fun a => watch (next a) : Watching τ β) := by
  funext s
  rw [bind_apply]
  unfold watch
  rw [bind_apply]
  cases action s.workspace <;> rfl

theorem perform_bind (action : Reading α) (next : α → Reading β) :
    perform (action >>= next) = (perform action >>= fun a => perform (next a) : Parsing τ β) := by
  funext s
  rw [bind_apply]
  unfold perform
  rw [bind_apply]
  cases action s.workspace <;> rfl

theorem yields_watch {action : Reading α} {Q : α → Prop}
    (h : ∀ w, Yields action w fun a _ => Q a) (s : Watched τ) :
    Yields (watch action) s fun a _ => Q a := by
  intro a s' ha
  unfold watch at ha
  cases haction : action s.workspace with
  | ok b w =>
    rw [haction] at ha
    cases ha
    exact h _ _ _ haction
  | error failure w =>
    rw [haction] at ha
    cases ha

section
variable [Watcher τ] (dialect : Dialect) (watching : String → Watching τ (List Tree))
  (file : OpenFile)

/-- The trees of a file, from the lines on that are left. -/
def atLines (layout : Layout) (left : List (List Char)) : Watching τ (List Tree) := do
  watchEnd (← watchLines dialect file.name file.lines watching file.fault (left.length + 1) layout
    left)

/-- The trees of a file, from the statement of a line on. -/
def atStatement (layout : Layout) (text : List Char) (rest : List (List Char))
    (given : Option Statement) : Watching τ (List Tree) := do
  let (layout, rest) ←
    watchStatement dialect file.name file.lines watching file.fault layout text rest given
  atLines dialect watching file layout rest

/-- The trees of a file, from a line on that is counted. -/
def atLine (layout : Layout) (line : List Char) (more : List (List Char)) :
    Watching τ (List Tree) := do
  let joined ← watch (joinLines file.fault line more)
  Reading.note file.name file.lines joined.1 joined.2
  let given ← watch (dialect.readLine joined.1)
  atStatement dialect watching file layout joined.1 joined.2 given

end

section
variable [Watcher τ] {dialect : Dialect} {watching : String → Watching τ (List Tree)}
  {file : OpenFile} {layout : Layout}

theorem yields_watchLine {name : String} {lines : List (List Char)} (fault : Option Text.Fault)
    (line : List Char) (more : List (List Char)) (s : Watched τ) :
    Yields (watchLine name lines fault line more) s
      fun joined _ => joined.2.length ≤ more.length :=
  yields_after fun _ s' => .bind (yields_watch (yields_joinLines fault more line) s')
    fun _ _ h => yields_after fun _ _ => .pure h

theorem yields_watchEntry {name : String} {lines : List (List Char)} (layout : Layout)
    (text : List Char) (rest : List (List Char)) (statement : Statement) (s : Watched τ) :
    Yields (watchEntry name lines watching layout text rest statement) s fun p _ => p.2 = rest :=
  yields_after fun _ _ => yields_after fun _ _ => .pure rfl

/-- A statement takes no lines but those of a help text. -/
theorem yields_watchStatement {name : String} {lines : List (List Char)}
    (fault : Option Text.Fault) (layout : Layout) (text : List Char) (rest : List (List Char))
    (given : Option Statement) (s : Watched τ) :
    Yields (watchStatement dialect name lines watching fault layout text rest given) s
      fun p _ => p.2.length ≤ rest.length := by
  have hentry : ∀ (layout : Layout) (statement : Statement) (s : Watched τ),
      Yields (watchEntry name lines watching layout text rest statement) s
        fun p _ => p.2.length ≤ rest.length := fun layout statement s =>
    (yields_watchEntry layout text rest statement s).mono fun _ _ h => Nat.le_of_eq (congrArg _ h)
  unfold watchStatement
  split
  · exact .pure (Nat.le_refl _)
  · split
    · exact hentry _ _ _
    · refine yields_after fun _ s₁ => ?_
      split
      · exact .bind (yields_watch (yields_readHelp dialect _ _) s₁) fun _ _ h => .pure h
      · split
        · exact yields_after fun _ _ => .pure (Nat.le_refl _)
        · exact yields_after fun _ _ => hentry _ _ _

/-- As long as there is fuel for all lines that are left, more of it does not matter. -/
theorem watchLines_fuel {name : String} {lines : List (List Char)} {fault : Option Text.Fault} :
    ∀ (fuel fuel' : Nat) (layout : Layout) (left : List (List Char)) (s : Watched τ),
      left.length < fuel → left.length < fuel' →
      watchLines dialect name lines watching fault fuel layout left s =
        watchLines dialect name lines watching fault fuel' layout left s
  | 0, _, _, _, _, h, _ => absurd h (Nat.not_lt_zero _)
  | _, 0, _, _, _, _, h => absurd h (Nat.not_lt_zero _)
  | _ + 1, _ + 1, _, [], _, _, _ => rfl
  | fuel + 1, fuel' + 1, layout, line :: more, s, h, h' => by
    refine (yields_watchLine fault line more s).bind_congr fun (text, rest) s₁ hrest => ?_
    refine Yields.bind_congr (Q := fun _ _ => True) (fun _ _ _ => trivial) fun given s₂ _ => ?_
    refine (yields_watchStatement fault layout text rest given s₂).bind_congr
      fun (layout, left) s₃ hleft => ?_
    have hle : left.length ≤ more.length := Nat.le_trans hleft hrest
    exact watchLines_fuel fuel fuel' layout left s₃
      (Nat.lt_of_le_of_lt hle (Nat.lt_of_succ_lt_succ h))
      (Nat.lt_of_le_of_lt hle (Nat.lt_of_succ_lt_succ h'))

theorem atLines_nil : atLines dialect watching file layout [] = (do
    watch (passEnd file.fault)
    watchEnd (← watch (closeEntry layout))) := bind_assoc ..

theorem atLines_cons (line : List Char) (more : List (List Char)) :
    atLines dialect watching file layout (line :: more) = (do
      watch (countLines 1)
      atLine dialect watching file layout line more) := by
  funext s
  have hlines : atLines dialect watching file layout (line :: more) = (do
      let joined ← watchLine file.name file.lines file.fault line more
      let given ← watch (dialect.readLine joined.1)
      let (layout, rest) ← watchStatement dialect file.name file.lines watching file.fault layout
        joined.1 joined.2 given
      watchEnd (← watchLines dialect file.name file.lines watching file.fault (more.length + 1)
        layout rest)) := by
    simp only [atLines, watchLines, bind_assoc, List.length_cons]
  have hline : (do
      watch (countLines 1)
      atLine dialect watching file layout line more : Watching τ (List Tree)) = (do
      let joined ← watchLine file.name file.lines file.fault line more
      let given ← watch (dialect.readLine joined.1)
      let (layout, rest) ← watchStatement dialect file.name file.lines watching file.fault layout
        joined.1 joined.2 given
      atLines dialect watching file layout rest) := by
    simp only [atLine, atStatement, watchLine, bind_assoc, pure_bind]
  rw [hlines, hline]
  refine (yields_watchLine file.fault line more s).bind_congr fun joined s₁ hrest => ?_
  refine Yields.bind_congr (Q := fun _ _ => True) (fun _ _ _ => trivial) fun given s₂ _ => ?_
  refine (yields_watchStatement file.fault layout joined.1 joined.2 given s₂).bind_congr
    fun (layout, left) s₃ hleft => ?_
  dsimp only [atLines]
  rw [bind_apply, bind_apply, watchLines_fuel (more.length + 1) (left.length + 1) _ _ _
    (Nat.lt_succ_of_le (Nat.le_trans hleft hrest)) (Nat.lt_succ_self _)]

end

/-! ### Physical lines -/

theorem readline_bind_apply {s : Scan τ} {next : Option (List Char) → Parsing τ γ}
    {line : List Char} {rest : List (List Char)} (hrest : s.file.rest = line :: rest) :
    (readline >>= next) s = next (some line) { s with file.rest := rest } := by
  unfold readline
  rw [bind_apply, bind_apply]
  dsimp only [MonadState.get, getThe, MonadStateOf.get, EStateM.get]
  rw [hrest]
  rfl

theorem readline_end_bind_apply {s : Scan τ} {next : Option (List Char) → Parsing τ γ}
    (hrest : s.file.rest = []) : (readline >>= next) s =
      (perform (passEnd s.file.fault) >>= fun _ => next none) s := by
  unfold readline
  rw [bind_apply, bind_apply]
  dsimp only [MonadState.get, getThe, MonadStateOf.get, EStateM.get]
  rw [hrest]
  dsimp only
  rw [bind_apply, bind_apply]
  cases perform (passEnd s.file.fault) s <;> rfl

namespace Follows
variable {s : Scan τ} {watching : Watching τ β} {next : Option (List Char) → Parsing τ γ}
  {Q : γ → Scan τ → Watching τ β → Prop}

/-- A line that is there is taken from the file. -/
theorem readline_bind {line : List Char} {rest : List (List Char)}
    (hrest : s.file.rest = line :: rest)
    (h : Follows (next (some line)) { s with file.rest := rest } watching Q) :
    Follows (readline >>= next) s watching Q :=
  h.of_eq (readline_bind_apply hrest) rfl

/-- After the last line there is none, or reading fails. -/
theorem end_bind {next : PUnit → Parsing τ γ} {rest : PUnit → Watching τ β}
    (h : s.file.fault = none → Follows (next ⟨⟩) s (rest ⟨⟩) Q) :
    Follows (Parsing.perform (passEnd s.file.fault) >>= next) s
      (watch (passEnd s.file.fault) >>= rest) Q := by
  cases hfault : s.file.fault with
  | none => exact h hfault
  | some fault => exact ⟨s.workspace.place.spot.line, rfl⟩

theorem readline_end_bind {rest : PUnit → Watching τ β} (hrest : s.file.rest = [])
    (h : s.file.fault = none → Follows (next none) s (rest ⟨⟩) Q) :
    Follows (readline >>= next) s (watch (passEnd s.file.fault) >>= rest) Q :=
  (end_bind h).of_eq (readline_end_bind_apply hrest) rfl

end Follows

/-- A line is joined with those that continue it. -/
theorem follows_joined : ∀ (fuel : Nat) (line : List Char) {s : Scan τ}
    {next : List Char × List (List Char) → Watching τ β}, fuel = s.file.rest.length →
    Follows (joined (fuel + 1) line) s (watch (joinLines s.file.fault line s.file.rest) >>= next)
      fun text s' q => ∃ w rest, s' = { s with workspace := w, file.rest := rest } ∧
        rest.length ≤ s.file.rest.length ∧ q = next (text, rest) := by
  intro fuel line s next hfuel
  unfold joined
  cases hcontinued : continued? line with
  | none =>
    refine .pure ⟨s.workspace, s.file.rest, rfl, Nat.le_refl _, ?_⟩
    cases s.file.rest <;> simp only [joinLines, hcontinued, watch_pure, pure_bind]
  | some start =>
    cases hrest : s.file.rest with
    | nil =>
      obtain rfl : fuel = 0 := by rw [hfuel, hrest, List.length_nil]
      simp only [joinLines, hcontinued, watch_bind, watch_pure, bind_assoc, pure_bind]
      refine .readline_end_bind hrest fun _ => .perform_bind fun _ w => .pure ⟨w, [], ?_⟩
      exact ⟨by rw [← hrest], Nat.le_refl _, by rw [Option.getD_none, List.append_nil]⟩
    | cons following more =>
      obtain ⟨fuel, rfl⟩ : ∃ n, fuel = n + 1 := ⟨more.length, by rw [hfuel, hrest]; rfl⟩
      simp only [joinLines, hcontinued, watch_bind, bind_assoc]
      refine .readline_bind hrest (.perform_bind fun _ w => ?_)
      rw [hrest] at hfuel
      refine (follows_joined fuel (start ++ following) (Nat.succ.inj hfuel)).mono ?_
      rintro text _ _ ⟨w', rest, rfl, hle, rfl⟩
      exact ⟨w', rest, rfl, Nat.le_succ_of_le hle, rfl⟩

theorem follows_finished (line : List Char) {s : Scan τ}
    {next : List Char × List (List Char) → Watching τ β} :
    Follows (finished line) s (watch (joinLines s.file.fault line s.file.rest) >>= next)
      fun text s' q => ∃ w rest, s' = { s with workspace := w, file.rest := rest } ∧
        rest.length ≤ s.file.rest.length ∧ q = next (text, rest) :=
  .bind_get (follows_joined _ line rfl)

/-! ### Lines that are kept -/

/-- How many lines are to come at most. -/
def left (s : Scan τ) : Nat :=
  s.file.rest.length + s.held.toList.length + s.raw.toList.length

/-- No line is kept. -/
structure Plain (s : Scan τ) : Prop where
  held : s.held = none
  raw : s.raw = none

/-- The parser went on in a file, and linked no nodes. -/
structure Goes (s s' : Scan τ) : Prop where
  file : s'.file = { s.file with rest := s'.file.rest }
  links : s'.links = s.links

theorem Goes.refl (s : Scan τ) : Goes s s := ⟨rfl, rfl⟩

theorem Goes.trans {s s' s'' : Scan τ} (h : Goes s s') (h' : Goes s' s'') : Goes s s'' := by
  refine ⟨?_, h'.links.trans h.links⟩
  rw [h'.file, h.file]

section
variable [Watcher τ] {dialect : Dialect} {watching : String → Watching τ (List Tree)}
  {layout : Layout} {s : Scan τ}

/-- The trees of a file, from where the parser is in it. -/
def resume (dialect : Dialect) (watching : String → Watching τ (List Tree)) (layout : Layout)
    (s : Scan τ) : Watching τ (List Tree) :=
  match s.held, s.raw with
  | some line, _ =>
    atStatement dialect watching s.file layout line.text s.file.rest line.statement
  | none, some line => atLine dialect watching s.file layout line s.file.rest
  | none, none => atLines dialect watching s.file layout s.file.rest

theorem resume_held {line : Line} (h : s.held = some line) : resume dialect watching layout s =
    atStatement dialect watching s.file layout line.text s.file.rest line.statement := by
  rw [resume, h]

theorem resume_raw {line : List Char} (hheld : s.held = none) (hraw : s.raw = some line) :
    resume dialect watching layout s =
      atLine dialect watching s.file layout line s.file.rest := by
  rw [resume, hheld, hraw]

theorem resume_plain (h : Plain s) : resume dialect watching layout s =
    atLines dialect watching s.file layout s.file.rest := by
  rw [resume, h.held, h.raw]

/-- A line that is counted is joined and read. -/
theorem follows_counted (line : List Char) : Follows (do readText dialect (← finished line)) s
    (atLine dialect watching s.file layout line s.file.rest) fun given s' q => Goes s s' ∧
      s'.held = s.held ∧ s'.raw = s.raw ∧ s'.file.rest.length ≤ s.file.rest.length ∧
      q = atStatement dialect watching s'.file layout given.text s'.file.rest given.statement := by
  refine .bind (follows_finished line) ?_
  rintro text _ _ ⟨w, rest, rfl, hle, rfl⟩
  refine .note_bind fun trace => .perform_bind fun statement w' => .pure ?_
  exact ⟨⟨rfl, rfl⟩, rfl, rfl, hle, rfl⟩

/-- The next line is the one that the reader in one pass comes to. -/
theorem follows_nextLine (h : s.held = none ∨ s.raw = none) :
    Follows (nextLine dialect) s (resume dialect watching layout s)
      fun given s' q => Goes s s' ∧ Plain s' ∧ match given with
        | none => s'.file.rest = [] ∧ s'.file.fault = none ∧
            q = (watch (closeEntry layout) >>= watchEnd)
        | some line => left s' < left s ∧ q =
            atStatement dialect watching s'.file layout line.text s'.file.rest line.statement := by
  refine .bind_get ?_
  cases hheld : s.held with
  | some line =>
    have hraw : s.raw = none := h.resolve_left (by rw [hheld]; exact Option.some_ne_none line)
    rw [resume_held hheld]
    refine .update_bind rfl (.pure ⟨⟨rfl, rfl⟩, ⟨rfl, hraw⟩, ?_, rfl⟩)
    simp only [left, hheld, Option.toList_some, Option.toList_none, List.length_nil,
      List.length_singleton]
    omega
  | none =>
    -- what is left to do once a line is taken and counted
    have hcounted : ∀ {s' : Scan τ} (line : List Char), Goes s s' → Plain s' →
        s'.file.rest.length < left s →
        Follows (do return some (← readText dialect (← finished line))) s'
          (atLine dialect watching s'.file layout line s'.file.rest)
          fun given s'' q => Goes s s'' ∧ Plain s'' ∧ match given with
            | none => s''.file.rest = [] ∧ s''.file.fault = none ∧
                q = (watch (closeEntry layout) >>= watchEnd)
            | some line => left s'' < left s ∧ q =
                atStatement dialect watching s''.file layout line.text s''.file.rest
                  line.statement := by
      intro s' line hgoes hplain hlt
      rw [← bind_assoc]
      refine .bind (follows_counted line) ?_
      rintro given s'' _ ⟨hgoes', hheld', hraw', hle, rfl⟩
      refine .pure ⟨hgoes.trans hgoes', ⟨hheld'.trans hplain.held, hraw'.trans hplain.raw⟩, ?_, rfl⟩
      rw [left, hheld', hraw', hplain.held, hplain.raw]
      exact Nat.lt_of_le_of_lt hle hlt
    dsimp only
    unfold readLogical
    simp only [bind_assoc, map_eq_pure_bind]
    refine .bind_get ?_
    cases hraw : s.raw with
    | some line =>
      rw [resume_raw hheld hraw]
      simp only [bind_assoc, pure_bind]
      refine .update_bind rfl (hcounted line ⟨rfl, rfl⟩ ⟨hheld, rfl⟩ ?_)
      rw [left, hheld, hraw]
      exact Nat.lt_succ_self _
    | none =>
      rw [resume_plain ⟨hheld, hraw⟩]
      simp only [bind_assoc]
      cases hrest : s.file.rest with
      | nil =>
        rw [atLines_nil]
        refine .readline_end_bind hrest fun hfault => ?_
        exact .pure ⟨.refl s, ⟨hheld, hraw⟩, hrest, hfault, rfl⟩
      | cons line more =>
        rw [atLines_cons]
        refine .readline_bind hrest ?_
        simp only [bind_assoc, pure_bind]
        refine .perform_bind fun _ w => ?_
        refine hcounted line ⟨rfl, rfl⟩ ⟨hheld, hraw⟩ ?_
        rw [left, hheld, hraw, hrest]
        exact Nat.lt_succ_self _

end

end Parsing
end Kconfig
