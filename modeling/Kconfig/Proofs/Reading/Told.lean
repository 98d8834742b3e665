import Kconfig.Proofs.Action
import Kconfig.Reading.Files
/-!
Who is told of the lines.

The parser tells of each line that it handles, and nothing that it does depends on what comes of
that: when those who are told are forgotten, it is the parser that tells nobody.
-/
namespace Kconfig

/-- A state without those who are told of the lines. -/
def Scan.bare {τ : Type} (s : Scan τ) : Scan Unit :=
  ⟨s.workspace, s.file, s.links, s.raw, s.held, ()⟩

namespace Parsing
variable {α β τ : Type}

def bare : EStateM.Result Failure (Scan τ) α → EStateM.Result Failure (Scan Unit) α
  | .ok a s => .ok a s.bare
  | .error failure s => .error failure s.bare

/-- When those who are told are forgotten, one does what the other does. -/
def Ignores (τ : Type) (told : Parsing τ α) (untold : Parsing Unit α) : Prop :=
  ∀ s, bare (told s) = untold s.bare

namespace Ignores
variable {told told' : Parsing τ α} {untold untold' : Parsing Unit α}

theorem pure (a : α) : Ignores τ (Pure.pure a) (Pure.pure a) := fun _ => rfl

theorem throw (failure : Failure) :
    Ignores τ (MonadExcept.throw failure : Parsing τ α) (MonadExcept.throw failure) :=
  fun _ => rfl

theorem perform (action : Reading α) :
    Ignores τ (Parsing.perform action) (Parsing.perform action) := by
  intro s
  unfold Parsing.perform
  dsimp only [Scan.bare]
  cases action s.workspace <;> rfl

theorem bind {next : α → Parsing τ β} {next' : α → Parsing Unit β} (h : Ignores τ told untold)
    (hnext : ∀ a, Ignores τ (next a) (next' a)) : Ignores τ (told >>= next) (untold >>= next') := by
  intro s
  rw [bind_apply, bind_apply, ← h s]
  cases told s with
  | ok a s' => exact hnext a s'
  | error failure s' => rfl

theorem map (f : α → β) (h : Ignores τ told untold) : Ignores τ (f <$> told) (f <$> untold) := by
  rw [map_eq_pure_bind, map_eq_pure_bind]
  exact h.bind fun a => pure (f a)

theorem bind_get {next : Scan τ → Parsing τ α} {next' : Scan Unit → Parsing Unit α}
    (h : ∀ s, Ignores τ (next s) (next' s.bare)) :
    Ignores τ (MonadState.get >>= next) (MonadState.get >>= next') := fun s => h s s

theorem update {f : Scan τ → Scan τ} {f' : Scan Unit → Scan Unit}
    (h : ∀ s, (f s).bare = f' s.bare) : Ignores τ (modify f) (modify f') := by
  intro s
  rw [modify_apply, modify_apply, ← h s]
  rfl

theorem ite {c : Prop} [Decidable c] (h : Ignores τ told untold) (h' : Ignores τ told' untold') :
    Ignores τ (if c then told else told') (if c then untold else untold') := by
  split
  · exact h
  · exact h'

end Ignores

/-! ### What tells nobody -/

theorem ignores_count (n : Nat) : Ignores τ (count n) (count n) := .perform _

theorem ignores_readline : Ignores τ readline readline := by
  refine .bind_get fun ⟨_, ⟨_, _, rest, _⟩, _, _, _, _⟩ => ?_
  cases rest with
  | nil => exact .bind (.perform _) fun _ => .pure _
  | cons line rest => exact .bind (.update fun _ => rfl) fun _ => .pure _

theorem ignores_joined : ∀ (fuel : Nat) (line : List Char),
    Ignores τ (joined fuel line) (joined fuel line)
  | 0, _ => .pure _
  | fuel + 1, line => by
    unfold joined
    cases Reading.continued? line with
    | none => exact .pure _
    | some start =>
      exact .bind ignores_readline fun _ => .bind (ignores_count 1) fun _ => ignores_joined fuel _

theorem ignores_finished (line : List Char) : Ignores τ (finished line) (finished line) :=
  .bind_get fun _ => ignores_joined _ _

theorem ignores_readLogical : Ignores τ readLogical readLogical := by
  refine .bind_get fun ⟨_, _, _, raw, _, _⟩ => ?_
  cases raw with
  | some line => exact .bind (.update fun _ => rfl) fun _ => .map _ (ignores_finished line)
  | none =>
    refine .bind ignores_readline fun line => ?_
    cases line with
    | none => exact .pure _
    | some line => exact .bind (ignores_count 1) fun _ => .map _ (ignores_finished line)

theorem ignores_giveBack (line : Line) : Ignores τ (giveBack line) (giveBack line) :=
  .update fun _ => rfl

theorem ignores_firstFilled (dialect : Dialect) : ∀ fuel : Nat,
    Ignores τ (firstFilled dialect fuel) (firstFilled dialect fuel)
  | 0 => .pure _
  | fuel + 1 => by
    unfold firstFilled
    refine .bind ignores_readline fun line => ?_
    cases line with
    | none => exact .ite (.bind (ignores_count 1) fun _ => .pure _) (.pure _)
    | some line =>
      have hrest := Ignores.ite (c := Text.allBlank line) (ignores_firstFilled dialect fuel)
        (.pure (some line))
      exact .ite (.bind (ignores_count 1) fun _ => hrest) hrest

theorem ignores_helpLines (dialect : Dialect) (indent : Nat) :
    ∀ (fuel : Nat) (found : List (List Char)),
    Ignores τ (helpLines dialect indent fuel found) (helpLines dialect indent fuel found)
  | 0, _ => .pure _
  | fuel + 1, found => by
    refine .bind ignores_readline fun line => ?_
    cases line with
    | none => exact .pure _
    | some line =>
      have hrest := Ignores.ite (c := (Text.allBlank line || indent ≤ HelpText.indentation line) = true)
        (ignores_helpLines dialect indent fuel (found ++ [HelpText.body indent line]))
        (.pure (found, some line))
      exact .ite hrest (.bind (ignores_count 1) fun _ => hrest)

theorem ignores_setLinks (n : NodeId) (f : Links → Links) :
    Ignores τ (setLinks n f) (setLinks n f) := .update fun _ => rfl

theorem ignores_create (parent : NodeId) (statement : Statement) :
    Ignores τ (create parent statement) (create parent statement) :=
  .bind (.perform _) fun _ => .bind (.update fun _ => rfl) fun _ => .pure _

theorem ignores_parseBelow {parse : BlockKind → Parsing τ NodeId}
    {parse' : BlockKind → Parsing Unit NodeId} (h : ∀ kind, Ignores τ (parse kind) (parse' kind))
    (statement : Statement) (n : NodeId) :
    Ignores τ (parseBelow parse statement n) (parseBelow parse' statement n) := by
  unfold parseBelow
  cases statement.block? with
  | none => exact .pure _
  | some kind => exact .bind (h kind) fun _ => ignores_setLinks n _

theorem ignores_parseFiles {readFile : FileReader τ} {readFile' : FileReader Unit}
    (h : ∀ path parent prev, Ignores τ (readFile path parent prev) (readFile' path parent prev))
    (parent : NodeId) : ∀ (paths : List String) (prev : NodeId),
    Ignores τ (parseFiles readFile parent paths prev) (parseFiles readFile' parent paths prev)
  | [], _ => .pure _
  | path :: paths, _ => .bind (h path parent _) fun _ => ignores_parseFiles h parent paths _

/-! ### Lines that are told of -/

section
variable [Watcher τ]

/-- That it is told of a line is forgotten. -/
theorem ignores_note (text : List Char) : Ignores τ (note text) (note text) :=
  .update fun _ => rfl

variable (dialect : Dialect)

theorem ignores_readText (text : List Char) :
    Ignores τ (readText dialect text) (readText dialect text) :=
  .bind (ignores_note text) fun _ => .bind (.perform _) fun _ => .pure _

theorem ignores_nextLine : Ignores τ (nextLine dialect) (nextLine dialect) := by
  refine .bind_get fun ⟨_, _, _, _, held, _⟩ => ?_
  cases held with
  | some line => exact .bind (.update fun _ => rfl) fun _ => .pure _
  | none =>
    refine .bind ignores_readLogical fun text => ?_
    cases text with
    | none => exact .pure _
    | some text => exact .map _ (ignores_readText dialect text)

theorem ignores_keepAfterHelp (line : Option (List Char)) :
    Ignores τ (keepAfterHelp dialect line) (keepAfterHelp dialect line) := by
  cases line with
  | none => exact .pure _
  | some line =>
    refine .ite ?_ (.update fun _ => rfl)
    exact .bind (ignores_finished line) fun _ => .bind (ignores_readText dialect _) fun _ =>
      ignores_giveBack _

theorem ignores_emptyHelp (n : NodeId) (line : Option (List Char)) :
    Ignores τ (emptyHelp dialect n line) (emptyHelp dialect n line) :=
  .bind (.perform _) fun _ => .bind (.perform _) fun _ => ignores_keepAfterHelp dialect line

theorem ignores_helpFrom (n : NodeId) (fuel : Nat) (line : Option (List Char)) :
    Ignores τ (helpFrom dialect n fuel line) (helpFrom dialect n fuel line) := by
  cases line with
  | none => exact ignores_emptyHelp dialect n none
  | some line =>
    refine .ite (ignores_emptyHelp dialect n _) (.bind (ignores_helpLines dialect _ _ _) ?_)
    rintro ⟨lines, after⟩
    have hrest : Ignores τ (do
        perform (Reading.fillHelp n (String.ofList (Text.trimRight lines.flatten)))
        keepAfterHelp dialect after) (do
        perform (Reading.fillHelp n (String.ofList (Text.trimRight lines.flatten)))
        keepAfterHelp dialect after) :=
      .bind (.perform _) fun _ => ignores_keepAfterHelp dialect after
    exact .ite (.bind (ignores_count _) fun _ => hrest) hrest

theorem ignores_parseHelp (n : NodeId) :
    Ignores τ (parseHelp dialect n) (parseHelp dialect n) := by
  have htake : Ignores τ (takeHelp dialect n) (takeHelp dialect n) :=
    .bind_get fun _ => .bind (ignores_firstFilled dialect _) fun _ => ignores_helpFrom dialect n _ _
  exact .bind_get fun _ => .ite (.bind (.perform _) fun _ => htake) htake

theorem ignores_parseProps (n : NodeId) : ∀ fuel : Nat,
    Ignores τ (parseProps dialect n fuel) (parseProps dialect n fuel)
  | 0 => .throw _
  | fuel + 1 => by
    have hnext := ignores_parseProps n fuel
    unfold parseProps
    refine .bind (ignores_nextLine dialect) fun line => ?_
    cases line with
    | none => exact .pure _
    | some line =>
      dsimp only
      cases line.statement with
      | none => exact hnext
      | some statement =>
        refine .bind (ignores_note _) fun _ => ?_
        have hother := Ignores.ite (c := statement.isProperty = true)
          (.bind (.perform (Reading.addProperty n statement)) fun _ => hnext) (ignores_giveBack line)
        cases statement with
        | help => exact .bind (ignores_parseHelp dialect n) fun _ => hnext
        | _ => exact hother

theorem ignores_parseOwn (statement : Statement) (n : NodeId) (fuel : Nat) :
    Ignores τ (parseOwn dialect statement n fuel) (parseOwn dialect statement n fuel) :=
  .ite (.bind (ignores_parseProps dialect n fuel) fun _ => .perform _) (.pure _)

section
variable {readFile : FileReader τ} {readFile' : FileReader Unit}

theorem ignores_parseBlock
    (h : ∀ path parent prev, Ignores τ (readFile path parent prev) (readFile' path parent prev)) :
    ∀ (fuel : Nat) (kind : Option BlockKind) (parent prev : NodeId),
    Ignores τ (parseBlock dialect readFile fuel kind parent prev)
      (parseBlock dialect readFile' fuel kind parent prev)
  | 0, _, _, _ => .throw _
  | fuel + 1, kind, parent, prev => by
    have hnext := fun kind parent prev => ignores_parseBlock h fuel kind parent prev
    unfold parseBlock
    refine .bind (ignores_nextLine dialect) fun line => ?_
    cases line with
    | none =>
      cases kind with
      | none => exact .pure _
      | some kind => exact .perform _
    | some line =>
      dsimp only
      cases line.statement with
      | none => exact hnext _ _ _
      | some statement =>
        refine .bind (ignores_note _) fun _ => ?_
        cases statement with
        | source isRelative isRequired path =>
          exact .bind (.perform _) fun paths => .bind (ignores_parseFiles h parent paths prev)
            fun _ => hnext _ _ _
        | close closed tail =>
          have hrest : Ignores τ (do perform tail; setNext prev none; pure prev)
              (do perform tail; setNext prev none; pure prev) :=
            .bind (.perform _) fun _ => .bind (ignores_setLinks prev _) fun _ => .pure _
          exact .ite (.bind (.perform _) fun _ => hrest) hrest
        | mainmenu prompt => exact .bind (.perform _) fun _ => hnext _ _ _
        | _ =>
          exact .bind (ignores_create parent _) fun n => .bind (ignores_parseOwn dialect _ n fuel)
            fun _ => .bind (ignores_parseBelow (fun _ => hnext _ n n) _ n) fun _ =>
              .bind (ignores_setLinks prev _) fun _ => hnext _ _ _

theorem ignores_parseContent
    (h : ∀ path parent prev, Ignores τ (readFile path parent prev) (readFile' path parent prev))
    (parent prev : NodeId) : Ignores τ (parseContent dialect readFile parent prev)
      (parseContent dialect readFile' parent prev) :=
  .bind_get fun _ => ignores_parseBlock dialect h _ _ _ _

end

theorem ignores_parseFileAt : ∀ (depth : Nat) (path : String) (parent prev : NodeId),
    Ignores τ (parseFileAt dialect depth path parent prev)
      (parseFileAt dialect depth path parent prev)
  | 0, _, _, _ => .throw _
  | depth + 1, _, _, _ => .bind_get fun _ => .bind (.perform _) fun _ =>
    .bind (.update fun _ => rfl) fun _ =>
      .bind (ignores_parseContent dialect (ignores_parseFileAt depth) _ _) fun _ =>
        .bind (.perform _) fun _ => .bind (.update fun _ => rfl) fun _ => .pure _

/-- Whoever is told of the lines, the top file is read alike. -/
theorem ignores_parseTop : Ignores τ (parseTop dialect) (parseTop dialect) :=
  .bind (ignores_parseContent dialect (ignores_parseFileAt dialect _) _ _) fun last =>
    .bind (ignores_setLinks 0 _) fun _ => .bind (ignores_setLinks last _) fun _ =>
      ignores_setLinks 0 _

end
end Parsing
end Kconfig
