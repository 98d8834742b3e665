import Kconfig.Proofs.Model.Grown
import Kconfig.Proofs.Reading.HelpTexts
/-!
The parser and the reader in one pass.

The parser calls itself for each block and for each file, where the reader in one pass keeps the open
blocks on a stack; the parser links nodes where the reader makes trees. From line to line both do the
same to the workspace, and what the links have grown by when a block or a file ends are the trees
that the reader has then.
-/
namespace Kconfig

namespace Reading

/-- The layout with the node of an entry. -/
def Layout.enter (layout : Layout) (statement : Statement) (n : NodeId) : Layout :=
  match statement.block? with
  | none => layout.add n
  | some kind => layout.push kind n (if statement.takesProperties then some n else none)

end Reading

/-- Whether a statement is none of those that give no node for another reason than being wrong: it
ends no block, includes no files and says no title. -/
def Statement.isPlain : Statement → Bool
  | .close .. | .source .. | .mainmenu _ => false
  | _ => true

namespace Parsing
open Reading
variable {τ : Type} {dialect : Dialect} {s s' : Scan τ}

theorem watchPlace_of_isPlain {watching : String → Watching τ (List Tree)} {layout : Layout}
    {statement : Statement} (h : statement.isPlain = true) :
    watchPlace watching layout statement = (do
      let n ← watch (addEntry statement)
      pure (layout.enter statement n)) := by
  have hplace : place (fun _ => pure []) layout statement = (do
      let n ← addEntry statement
      pure (layout.enter statement n)) := by
    cases statement with
    | config | menu | comment | choice | block =>
      simp only [place, addEntry, bind_assoc, pure_bind]
      rfl
    | source | close | mainmenu => cases h
    | _ => rfl
  cases statement with
  | source | close | mainmenu => cases h
  | _ => exact (congrArg watch hplace).trans (watch_bind ..)

/-- One line at most is kept. -/
def Kept (s : Scan τ) : Prop := s.held = none ∨ s.raw = none

theorem Plain.kept (h : Plain s) : Kept s := .inl h.held

section
variable [Watcher τ] {watching : String → Watching τ (List Tree)} {file : OpenFile}
  {layout : Layout} {n : NodeId} {text : List Char} {rest : List (List Char)}
  {statement : Statement}

/-! ### The statement of a line -/

theorem atStatement_none : atStatement dialect watching file layout text rest none =
    atLines dialect watching file layout rest := pure_bind ..

theorem atStatement_help (h : layout.entry = some n) :
    atStatement dialect watching file layout text rest (some .help) = (do
      Reading.note file.name file.lines text rest
      let rest ← watch (readHelp dialect n ⟨rest, file.fault⟩)
      atLines dialect watching file layout rest) := by
  simp only [atStatement, watchStatement, h, bind_assoc, pure_bind]

theorem atStatement_property (h : layout.entry = some n) (hhelp : statement ≠ .help)
    (hproperty : statement.isProperty = true) :
    atStatement dialect watching file layout text rest (some statement) = (do
      Reading.note file.name file.lines text rest
      watch (addProperty n statement)
      atLines dialect watching file layout rest) := by
  cases statement with
  | help => exact absurd rfl hhelp
  | config | menu | comment | mainmenu | choice | source | block | close | stray => cases hproperty
  | _ => simp only [atStatement, watchStatement, h, bind_assoc, pure_bind, hproperty, if_true]

theorem atStatement_entry (h : layout.entry = none) :
    atStatement dialect watching file layout text rest (some statement) = (do
      Reading.note file.name file.lines text rest
      let layout ← watchPlace watching layout statement
      atLines dialect watching file layout rest) := by
  simp only [atStatement, watchStatement, h, watchEntry, bind_assoc, pure_bind]

/-- A statement that is no property ends the entry before it. -/
theorem atStatement_other (h : layout.entry = some n) (hproperty : statement.isProperty = false) :
    atStatement dialect watching file layout text rest (some statement) = (do
      Reading.note file.name file.lines text rest
      watch (warnPromptless n)
      atStatement dialect watching file { layout with entry := none } text rest
        (some statement)) := by
  have hclose : closeEntry layout = (do
      warnPromptless n
      pure { layout with entry := none }) := by rw [closeEntry, h]
  have hentry : atStatement dialect watching file { layout with entry := none } text rest
      (some statement) = _ := atStatement_entry rfl
  rw [hentry]
  cases statement with
  | config | menu | comment | mainmenu | choice | source | block | close | stray =>
    simp only [atStatement, watchStatement, h, hclose, watchEntry, watch_bind, watch_pure,
      bind_assoc, pure_bind, hproperty, Bool.false_eq_true, if_false]
  | _ => cases hproperty

/-! ### Steps that read no lines -/

/-- Only the workspace and what was told are others. -/
structure Same (s s' : Scan τ) : Prop where
  file : s'.file = s.file
  links : s'.links = s.links
  held : s'.held = s.held
  raw : s'.raw = s.raw

namespace Same
variable {s'' : Scan τ}

omit [Watcher τ]

theorem trans (h : Same s s') (h' : Same s' s'') : Same s s'' :=
  ⟨h'.file.trans h.file, h'.links.trans h.links, h'.held.trans h.held, h'.raw.trans h.raw⟩

theorem goes (h : Same s s') : Goes s s' := ⟨by rw [h.file], h.links⟩

theorem plain (h : Same s s') (hplain : Plain s) : Plain s' :=
  ⟨h.held.trans hplain.held, h.raw.trans hplain.raw⟩

theorem left_eq (h : Same s s') : left s' = left s := by
  rw [left, left, h.file, h.held, h.raw]

end Same

section
variable {α β γ : Type} {Q : γ → Scan τ → Watching τ β → Prop}

omit [Watcher τ] in
theorem follows_perform_ok {action : Reading α} {next : α → Parsing τ γ} {rest : α → Watching τ β}
    (h : ∀ a s', action s.workspace = .ok a s'.workspace → Same s s' →
      Follows (next a) s' (rest a) Q) :
    Follows (perform action >>= next) s (watch action >>= rest) Q := by
  refine .bind (Q := fun a s' q => action s.workspace = .ok a s'.workspace ∧ Same s s' ∧
    q = rest a) (.perform fun a w hok => ⟨hok, ⟨rfl, rfl, rfl, rfl⟩, rfl⟩) ?_
  rintro a s' _ ⟨hok, hsame, rfl⟩
  exact h a s' hok hsame

omit [Watcher τ] in
theorem follows_perform {action : Reading α} {next : α → Parsing τ γ} {rest : α → Watching τ β}
    (h : ∀ a s', Same s s' → Follows (next a) s' (rest a) Q) :
    Follows (perform action >>= next) s (watch action >>= rest) Q :=
  follows_perform_ok fun a s' _ => h a s'

theorem follows_note {next : PUnit → Parsing τ γ} {rest : PUnit → Watching τ β}
    (h : ∀ s', Same s s' → Follows (next ⟨⟩) s' (rest ⟨⟩) Q) :
    Follows (note text >>= next) s
      (Reading.note s.file.name s.file.lines text s.file.rest >>= rest) Q :=
  .note_bind fun _ => h _ ⟨rfl, rfl, rfl, rfl⟩

end

/-! ### Properties -/

/-- The properties of a node are taken, and the entry ends. -/
theorem follows_parseProps (n : NodeId) : ∀ (fuel : Nat) {layout : Layout} {s : Scan τ},
    layout.entry = some n → Kept s → left s < fuel →
    Follows (parseProps dialect n fuel) s (resume dialect watching layout s) fun _ s' next =>
      Goes s s' ∧ Kept s' ∧ left s' ≤ left s ∧ next = (do
        watch (warnPromptless n)
        resume dialect watching { layout with entry := none } s')
  | 0, _, _, _, _, hfuel => absurd hfuel (Nat.not_lt_zero _)
  | fuel + 1, layout, s, hentry, hkept, hfuel => by
    have hclose : closeEntry layout = (do
        warnPromptless n
        pure { layout with entry := none }) := by rw [closeEntry, hentry]
    unfold parseProps
    refine .bind (follows_nextLine hkept) ?_
    rintro given s₁ _ ⟨hgoes, hplain, hgiven⟩
    cases given with
    | none =>
      obtain ⟨hrest, hfault, rfl⟩ := hgiven
      have hleft : left s₁ = 0 := by simp [left, hplain.held, hplain.raw, hrest]
      refine .pure ⟨hgoes, hplain.kept, hleft ▸ Nat.zero_le _, ?_⟩
      rw [resume_plain hplain, hrest, atLines_nil, hfault, hclose]
      simp only [watch_bind, watch_pure, bind_assoc, pure_bind, passEnd, closeEntry]
    | some line =>
      obtain ⟨hlt, rfl⟩ := hgiven
      have hle : left s₁ < fuel := Nat.lt_of_lt_of_le hlt (Nat.le_of_lt_succ hfuel)
      -- what is left to do after the line
      have ih : ∀ {s₂ : Scan τ}, Goes s₁ s₂ → Kept s₂ → left s₂ ≤ left s₁ →
          Follows (parseProps dialect n fuel) s₂ (resume dialect watching layout s₂)
            fun _ s' next => Goes s s' ∧ Kept s' ∧ left s' ≤ left s ∧ next = (do
              watch (warnPromptless n)
              resume dialect watching { layout with entry := none } s') := by
        intro s₂ hgoes' hkept' hle'
        refine (follows_parseProps n fuel hentry hkept' (Nat.lt_of_le_of_lt hle' hle)).mono ?_
        rintro _ s' _ ⟨hgoes'', hkept'', hle'', rfl⟩
        exact ⟨(hgoes.trans hgoes').trans hgoes'', hkept'',
          Nat.le_trans hle'' (Nat.le_trans hle' (Nat.le_of_lt hlt)), rfl⟩
      dsimp only
      cases hstatement : line.statement with
      | none =>
        rw [atStatement_none, ← resume_plain hplain]
        exact ih (.refl s₁) hplain.kept (Nat.le_refl _)
      | some statement =>
        dsimp only
        by_cases hhelp : statement = .help
        · subst hhelp
          rw [atStatement_help hentry]
          refine follows_note fun s₂ hsame => ?_
          rw [← hsame.file]
          refine .bind (follows_parseHelp (hsame.plain hplain)) ?_
          rintro _ s₃ _ ⟨hgoes', hkept', hle', rfl⟩
          exact ih (hsame.goes.trans hgoes') hkept' (hsame.left_eq ▸ hle')
        · by_cases hproperty : statement.isProperty = true
          · rw [atStatement_property hentry hhelp hproperty]
            refine follows_note fun s₂ hsame => ?_
            split
            · exact absurd rfl hhelp
            · rw [if_pos hproperty]
              refine follows_perform fun _ s₃ hsame' => ?_
              have hsame := hsame.trans hsame'
              have hplain := hsame.plain hplain
              rw [← hsame.file, ← resume_plain hplain]
              exact ih hsame.goes hplain.kept (Nat.le_of_eq hsame.left_eq)
          · rw [atStatement_other hentry (Bool.not_eq_true _ ▸ hproperty)]
            refine follows_note fun s₂ hsame => ?_
            split
            · exact absurd rfl hhelp
            · rw [if_neg hproperty, ← hstatement]
              refine .update rfl ⟨⟨?_, hsame.links.trans hgoes.links⟩, ?_, ?_, ?_⟩
              · exact (hgoes.trans hsame.goes).file
              · exact .inr (hsame.plain hplain).raw
              · rw [← hsame.left_eq, left, (hsame.plain hplain).held, (hsame.plain hplain).raw] at hlt
                rw [left, (hsame.plain hplain).raw]
                exact hlt
              · rw [← hsame.file]
                rfl

/-- The properties of an entry are taken, if it may have some. -/
theorem follows_parseOwn {fuel : Nat} (hkept : Kept s) (hfuel : left s < fuel) :
    Follows (parseOwn dialect statement n fuel) s (resume dialect watching
      { layout with entry := if statement.takesProperties then some n else none } s)
      fun _ s' next => Goes s s' ∧ Kept s' ∧ left s' ≤ left s ∧
        next = resume dialect watching { layout with entry := none } s' := by
  unfold parseOwn
  split
  · refine .bind (follows_parseProps n fuel rfl hkept hfuel) ?_
    rintro _ s₁ _ ⟨hgoes, hkept₁, hle, rfl⟩
    exact .perform fun _ w _ => ⟨⟨hgoes.file, hgoes.links⟩, hkept₁, hle, rfl⟩
  · exact .pure ⟨.refl s, hkept, Nat.le_refl _, rfl⟩

/-! ### Blocks -/

/-- A reader of files does what its watched counterpart does, and links the nodes of the trees. -/
def Reads (readFile : FileReader τ) (watching : String → Watching τ (List Tree)) : Prop :=
  ∀ (path : String) (parent prev : NodeId) {s : Scan τ}, Plain s →
    Follows (readFile path parent prev) s (watching path) fun last s' next => s'.file = s.file ∧
      Plain s' ∧ ∃ ts, next = pure ts ∧ Grows parent prev s.links ts last s'.links

omit [Watcher τ] in
/-- The files of an inclusion are read one after the other. -/
theorem follows_parseFiles {readFile : FileReader τ} (hread : Reads readFile watching)
    (parent : NodeId) : ∀ (paths : List String) (prev : NodeId) (trees : List Tree) {s : Scan τ},
    Plain s → Follows (parseFiles readFile parent paths prev) s
      (ForIn.forIn paths trees fun path (trees : List Tree) => do
        let more ← watching path
        pure (.yield (more.reverse ++ trees)))
      fun last s' next => s'.file = s.file ∧ Plain s' ∧
        ∃ ts, next = pure (ts.reverse ++ trees) ∧ Grows parent prev s.links ts last s'.links
  | [], prev, trees, s, hplain => .pure ⟨rfl, hplain, [], rfl, .nil _ _ _⟩
  | path :: paths, prev, trees, s, hplain => by
    unfold parseFiles
    rw [List.forIn_cons, bind_assoc]
    refine .bind (hread path parent prev hplain).after ?_
    rintro mid s₁ _ ⟨_, ⟨hfile, hplain₁, ts, rfl, hgrows⟩, rfl⟩
    simp only [pure_bind]
    refine (follows_parseFiles hread parent paths mid (ts.reverse ++ trees) hplain₁).mono ?_
    rintro last s₂ _ ⟨hfile', hplain₂, us, rfl, hgrows'⟩
    refine ⟨hfile'.trans hfile, hplain₂, ts ++ us, ?_, hgrows.append hgrows'⟩
    rw [List.reverse_append, List.append_assoc]

/-- How a block or a file ends: the trees that came are put behind those before them, and those of a
block below its node. The last of a block leads nowhere. -/
def Ended (dialect : Dialect) (watching : String → Watching τ (List Tree)) (layout : Layout)
    (ts : List Tree) (last : NodeId) (links : Array Links) (s : Scan τ)
    (next : Watching τ (List Tree)) : Prop :=
  match layout.levels with
  | [] => s.links = links ∧ next = pure (layout.trees.reverse ++ ts)
  | level :: levels => s.links = links.modify last ({ · with next := none }) ∧
      next = resume dialect watching
        { levels, trees := .node level.node (layout.trees.reverse ++ ts) :: level.before } s

theorem Ended.append {ts us : List Tree} {last : NodeId} {links : Array Links}
    {next : Watching τ (List Tree)}
    (h : Ended dialect watching { layout with trees := ts.reverse ++ layout.trees } us last links s
      next) : Ended dialect watching layout (ts ++ us) last links s next := by
  unfold Ended at h ⊢
  rw [List.reverse_append, List.reverse_reverse, List.append_assoc] at h
  exact h

/-- A block or a file was read from one moment to another. -/
structure Ends (dialect : Dialect) (watching : String → Watching τ (List Tree)) (layout : Layout)
    (parent prev : NodeId) (s : Scan τ) (last : NodeId) (s' : Scan τ)
    (next : Watching τ (List Tree)) : Prop where
  file : s'.file = { s.file with rest := s'.file.rest }
  plain : Plain s'
  left : left s' ≤ left s
  trees : ∃ ts links, Grows parent prev s.links ts last links ∧
    Ended dialect watching layout ts last links s' next

/-- What came before is part of what was read. -/
theorem Ends.after {parent prev last : NodeId} {t : Scan τ} {next : Watching τ (List Tree)}
    (hgoes : Goes s s') (hle : Parsing.left s' ≤ Parsing.left s)
    (h : Ends dialect watching layout parent prev s' last t next) :
    Ends dialect watching layout parent prev s last t next := by
  obtain ⟨ts, links, hgrows, hended⟩ := h.trees
  refine ⟨?_, h.plain, Nat.le_trans h.left hle, ts, links, hgoes.links ▸ hgrows, hended⟩
  rw [h.file, hgoes.file]

omit [Watcher τ] in
theorem closeEntry_of_none (h : layout.entry = none) : closeEntry layout = pure layout := by
  obtain ⟨entry, levels, trees⟩ := layout
  cases h
  rfl

/-- An entry that takes no properties and opens no block is none. -/
theorem entry_of_addEntry {w w' : Workspace} (h : addEntry statement w = .ok n w') :
    statement.takesProperties = true ∨ statement.block?.isSome = true := by
  cases statement with
  | config | menu | comment | choice => exact .inl rfl
  | block => exact .inr rfl
  | _ => cases h

theorem enter_of_entry (layout : Layout)
    (h : statement.takesProperties = true ∨ statement.block?.isSome = true) :
    layout.enter statement n = { layout.enter statement n with
      entry := if statement.takesProperties then some n else none } := by
  unfold Layout.enter
  cases hblock : statement.block? with
  | none =>
    rw [hblock] at h
    rw [if_pos (h.resolve_right Bool.false_ne_true)]
    rfl
  | some kind => rfl

/-- A statement brought some trees, which whatever comes next stands behind. -/
structure Steps (dialect : Dialect) (watching : String → Watching τ (List Tree)) (layout : Layout)
    (parent prev : NodeId) (s : Scan τ) (mid : NodeId) (s' : Scan τ)
    (next : Watching τ (List Tree)) : Prop where
  file : s'.file = { s.file with rest := s'.file.rest }
  kept : Kept s'
  left : left s' ≤ left s
  trees : ∃ ts, (∀ {us last links}, Grows parent mid s'.links us last links →
      Grows parent prev s.links (ts ++ us) last links) ∧
    next = resume dialect watching { layout with trees := ts.reverse ++ layout.trees } s'

namespace Steps
variable {parent prev mid : NodeId} {t : Scan τ} {next : Watching τ (List Tree)}

theorem after (hsame : Same s s') (h : Steps dialect watching layout parent prev s' mid t next) :
    Steps dialect watching layout parent prev s mid t next := by
  obtain ⟨hfile, hkept, hle, ts, hgrows, rfl⟩ := h
  refine ⟨hsame.file ▸ hfile, hkept, hsame.left_eq ▸ hle, ts, ?_, rfl⟩
  exact fun h => hsame.links ▸ hgrows h

/-- The rest of the block comes behind these trees. -/
theorem follows (h : Steps dialect watching layout parent prev s mid t next)
    {parsing : Parsing τ NodeId}
    (hrest : ∀ layout', layout'.entry = layout.entry → layout'.levels = layout.levels →
      Follows parsing t (resume dialect watching layout' t)
        (Ends dialect watching layout' parent mid t)) :
    Follows parsing t next (Ends dialect watching layout parent prev s) := by
  obtain ⟨hfile, hkept, hle, ts, hgrows, rfl⟩ := h
  refine (hrest { layout with trees := ts.reverse ++ layout.trees } rfl rfl).mono
    fun last s' next h => ?_
  obtain ⟨us, links, hgrows', hended⟩ := h.trees
  refine ⟨?_, h.plain, Nat.le_trans h.left hle, ts ++ us, links, hgrows hgrows', hended.append⟩
  rw [h.file, hfile]

end Steps

variable {readFile : FileReader τ} {parent prev : NodeId}

/-- The files that a line includes bring their trees. -/
theorem follows_source (hread : Reads readFile watching) (isRelative isRequired : Bool)
    (path : Reading String) (hplain : Plain s) :
    Follows (do
        let paths ← perform do sourcesOf isRelative isRequired (← path)
        parseFiles readFile parent paths prev) s (do
        let layout ← watchPlace watching layout (.source isRelative isRequired path)
        atLines dialect watching s.file layout s.file.rest)
      (Steps dialect watching layout parent prev s) := by
  unfold watchPlace
  rw [perform_bind]
  simp only [bind_assoc, pure_bind]
  refine follows_perform fun path s₁ hsame => follows_perform fun paths s₂ hsame' => ?_
  have hsame := hsame.trans hsame'
  refine .mono (follows_parseFiles hread parent paths prev layout.trees
    (hsame.plain hplain)).after ?_
  rintro mid s₃ _ ⟨_, ⟨hfile, hplain₃, ts, rfl, hgrows⟩, rfl⟩
  refine ⟨by rw [hfile, hsame.file], hplain₃.kept, ?_, ts, ?_, ?_⟩
  · rw [← hsame.left_eq]
    simp only [left, hplain₃.held, hplain₃.raw, (hsame.plain hplain).held,
      (hsame.plain hplain).raw, hfile, Nat.le_refl]
  · exact fun h => (hsame.links ▸ hgrows).append h
  · rw [pure_bind, resume_plain hplain₃, hfile, hsame.file]

/-- The title brings no trees. -/
theorem follows_mainmenu (prompt : Reading String) (hplain : Plain s) :
    Follows (do
        perform (setTitle prompt)
        pure prev) s (do
        let layout ← watchPlace watching layout (.mainmenu prompt)
        atLines dialect watching s.file layout s.file.rest)
      (Steps dialect watching layout parent prev s) := by
  have hplace : watchPlace watching layout (.mainmenu prompt) = (do
      watch (setTitle prompt)
      pure layout) := by
    simp only [watchPlace, place, setTitle, watch_bind, watch_pure, bind_assoc]
  rw [hplace, bind_assoc]
  refine follows_perform fun _ s₁ hsame => .pure ?_
  refine ⟨hsame.goes.file, (hsame.plain hplain).kept, Nat.le_of_eq hsame.left_eq, [], ?_, ?_⟩
  · exact fun h => hsame.links ▸ h
  · rw [pure_bind, resume_plain (hsame.plain hplain), hsame.file]
    rfl

/-- An entry brings one tree: its node, with what stands below it. -/
theorem follows_entry {fuel : Nat} {parse : BlockKind → NodeId → Parsing τ NodeId}
    (hparse : ∀ {kind n layout s}, layout.entry = none →
      layout.levels.head?.map Level.kind = some kind → Kept s → left s < fuel →
      Follows (parse kind n) s (resume dialect watching layout s)
        (Ends dialect watching layout n n s))
    (hentry : layout.entry = none) (hplain : Plain s) (hfuel : left s < fuel)
    (hstatement : statement.isPlain = true) :
    Follows (do
        let n ← create parent statement
        parseOwn dialect statement n fuel
        parseBelow (parse · n) statement n
        setNext prev (some n)
        pure n) s (do
        let layout ← watchPlace watching layout statement
        atLines dialect watching s.file layout s.file.rest)
      (Steps dialect watching layout parent prev s) := by
  rw [watchPlace_of_isPlain hstatement]
  unfold create
  simp only [bind_assoc, pure_bind]
  refine follows_perform_ok fun n s₁ hok hsame => .update_bind rfl ?_
  have hplain₁ := hsame.plain hplain
  -- the node is there, and has no links but the one to its parent
  obtain ⟨s₂, hs₂⟩ : ∃ s₂, s₂ = { s₁ with links := s₁.links.push { parent := some parent } } :=
    ⟨_, rfl⟩
  have hplain₂ : Plain s₂ := hs₂ ▸ ⟨hplain₁.held, hplain₁.raw⟩
  have hfile₂ : s₂.file = s.file := hs₂ ▸ hsame.file
  have hlinks₂ : s₂.links = s.links.push { parent := some parent } := hs₂ ▸ hsame.links ▸ rfl
  have hleft₂ : left s₂ = left s := hs₂ ▸ hsame.left_eq
  rw [← hs₂, ← hfile₂, ← resume_plain hplain₂, enter_of_entry layout (entry_of_addEntry hok)]
  refine .bind (follows_parseOwn hplain₂.kept (hleft₂ ▸ hfuel)) ?_
  rintro _ s₃ _ ⟨hgoes, hkept₃, hle, rfl⟩
  have hfile₃ : s₃.file = { s.file with rest := s₃.file.rest } := by rw [hgoes.file, hfile₂]
  rw [hleft₂] at hle
  have hlinks₃ := hgoes.links.trans hlinks₂
  unfold parseBelow
  cases hblock : statement.block? with
  | none =>
    simp only [pure_bind]
    refine .update_bind rfl (.pure ⟨hfile₃, hkept₃, hle, [.node n []], fun h => .leaf ?_, ?_⟩)
    · exact hlinks₃ ▸ h
    · rw [Layout.enter, hblock]
      obtain ⟨entry, levels, trees⟩ := layout
      cases hentry
      rfl
  | some kind =>
    simp only [bind_assoc]
    refine .bind (hparse rfl (by rw [Layout.enter, hblock]; rfl) hkept₃
      (Nat.lt_of_le_of_lt hle hfuel)) ?_
    rintro inner s₄ next ⟨hfile, hplain₄, hle', ts, links, hgrows, hended⟩
    rw [Ended, Layout.enter, hblock] at hended
    obtain ⟨hlinks₄, rfl⟩ := hended
    refine .update_bind rfl (.update_bind rfl (.pure ⟨?_, hplain₄.kept, Nat.le_trans hle' hle,
      [.node n ts], fun h => .block (hlinks₃ ▸ hgrows) ?_, ?_⟩))
    · show s₄.file = _
      rw [hfile, hfile₃]
    · exact hlinks₄ ▸ h
    · obtain ⟨entry, levels, trees⟩ := layout
      cases hentry
      rfl

/-- A line that ends the innermost block ends it, and no other line does. -/
theorem follows_close {kind : Option BlockKind} (parent prev : NodeId) (closed : BlockKind)
    (tail : Reading Unit) (hkind : layout.levels.head?.map Level.kind = kind) (hplain : Plain s) :
    Follows (do
        if kind ≠ some closed then perform (problem (.noOpenBlock closed))
        perform tail
        setNext prev none
        pure prev) s (do
        let layout ← watchPlace watching layout (.close closed tail)
        atLines dialect watching s.file layout s.file.rest)
      (Ends dialect watching layout parent prev s) := by
  obtain ⟨entry, levels, trees⟩ := layout
  cases levels with
  | nil =>
    obtain rfl : kind = none := hkind.symm
    exact .of_error s.workspace.place.spot.line rfl rfl
  | cons level levels =>
    obtain rfl : kind = some level.kind := hkind.symm
    unfold watchPlace place
    dsimp only
    by_cases hclosed : level.kind = closed
    · have hsame : ¬some level.kind ≠ some closed := fun h => h (congrArg some hclosed)
      rw [if_neg hsame, if_neg fun h => h hclosed, watch_bind, bind_assoc]
      refine follows_perform fun _ s₁ hsame => .update_bind rfl (.pure ?_)
      have hplain₁ := hsame.plain hplain
      refine ⟨hsame.goes.file, ⟨hplain₁.held, hplain₁.raw⟩, Nat.le_of_eq hsame.left_eq, [], s.links,
        .nil _ _ _, ?_, ?_⟩
      · rw [← hsame.links]
      · rw [watch_pure, pure_bind, List.append_nil, ← hsame.file]
        exact (resume_plain (s := { s₁ with links := _ }) ⟨hplain₁.held, hplain₁.raw⟩).symm
    · have hother : some level.kind ≠ some closed := fun h => hclosed (Option.some.inj h)
      rw [if_pos hother, if_pos hclosed]
      exact .of_error s.workspace.place.spot.line rfl rfl

/-- The entries of a block or a file become trees, and the nodes are linked. -/
theorem follows_parseBlock (hread : Reads readFile watching) : ∀ (fuel : Nat)
    {kind : Option BlockKind} {parent prev : NodeId} {layout : Layout} {s : Scan τ},
    layout.entry = none → layout.levels.head?.map Level.kind = kind → Kept s → left s < fuel →
    Follows (parseBlock dialect readFile fuel kind parent prev) s (resume dialect watching layout s)
      (Ends dialect watching layout parent prev s)
  | 0, _, _, _, _, _, _, _, _, hfuel => absurd hfuel (Nat.not_lt_zero _)
  | fuel + 1, kind, parent, prev, layout, s, hentry, hkind, hkept, hfuel => by
    unfold parseBlock
    refine .bind (follows_nextLine hkept) ?_
    rintro given s₁ _ ⟨hgoes, hplain, hgiven⟩
    cases given with
    | none =>
      obtain ⟨hrest, hfault, rfl⟩ := hgiven
      have hleft : left s₁ = 0 := by simp [left, hplain.held, hplain.raw, hrest]
      rw [closeEntry_of_none hentry, watch_pure, pure_bind]
      unfold watchEnd
      obtain ⟨entry, levels, trees⟩ := layout
      cases levels with
      | nil =>
        cases hkind
        refine .pure ⟨hgoes.file, hplain, hleft ▸ Nat.zero_le _, [], s₁.links, ?_, rfl, ?_⟩
        · exact hgoes.links ▸ .nil _ _ _
        · rw [List.append_nil]
      | cons level levels =>
        cases hkind
        exact .of_error s₁.workspace.place.spot.line rfl rfl
    | some line =>
      obtain ⟨hlt, rfl⟩ := hgiven
      have hle : left s₁ < fuel := Nat.lt_of_lt_of_le hlt (Nat.le_of_lt_succ hfuel)
      -- what is left to do after some trees
      have ih : ∀ {mid : NodeId} {s₂ : Scan τ} {next : Watching τ (List Tree)},
          Steps dialect watching layout parent prev s₁ mid s₂ next →
          Follows (parseBlock dialect readFile fuel kind parent mid) s₂ next
            (Ends dialect watching layout parent prev s) := by
        refine fun h => (h.follows fun layout' hentry' hlevels => ?_).mono fun _ _ _ h =>
          h.after hgoes (Nat.le_of_lt hlt)
        exact follows_parseBlock hread fuel (hentry'.trans hentry) (hlevels ▸ hkind) h.kept
          (Nat.lt_of_le_of_lt h.left hle)
      dsimp only
      cases hstatement : line.statement with
      | none =>
        rw [atStatement_none, ← resume_plain hplain]
        exact ih ⟨by rw [hgoes.file], hplain.kept, Nat.le_refl _, [], id, rfl⟩
      | some statement =>
        rw [atStatement_entry hentry]
        refine follows_note fun s₂ hsame => ?_
        have hplain₂ := hsame.plain hplain
        rw [← hsame.file]
        by_cases hentries : statement.isPlain = true
        · have hnext := (follows_entry (fun h h' => follows_parseBlock hread fuel h h') hentry
            hplain₂ (hsame.left_eq ▸ hle) hentries).bind fun _ _ _ h => ih (h.after hsame)
          simp only [bind_assoc, pure_bind] at hnext
          split
          · cases hentries
          · cases hentries
          · cases hentries
          · exact hnext
        · cases statement with
          | source isRelative isRequired path =>
            dsimp only
            rw [← bind_assoc]
            exact .bind (follows_source hread _ _ path hplain₂) fun _ _ _ h => ih (h.after hsame)
          | mainmenu prompt =>
            have hnext := (follows_mainmenu prompt hplain₂).bind fun _ _ _ h => ih (h.after hsame)
            simp only [bind_assoc, pure_bind] at hnext
            exact hnext
          | close closed tail =>
            exact (follows_close parent prev closed tail hkind hplain₂).mono fun _ _ _ h =>
              (h.after hsame.goes (Nat.le_of_eq hsame.left_eq)).after hgoes (Nat.le_of_lt hlt)
          | _ => exact absurd rfl hentries

/-! ### Files -/

/-- The lines of a file that was opened become trees. -/
theorem follows_parseContent (hread : Reads readFile watching) (parent prev : NodeId)
    {name : String} {content : Files.Content} (hplain : Plain s)
    (hfile : s.file = .start name content) :
    Follows (parseContent dialect readFile parent prev) s
      (watchContent dialect name watching content) fun last s' next => Plain s' ∧
        ∃ ts, next = pure ts ∧ Grows parent prev s.links ts last s'.links := by
  have hcontent : watchContent dialect name watching content =
      resume dialect watching {} s := by
    rw [resume_plain hplain, hfile]
    rfl
  have hleft : left s < s.file.rest.length + 1 := by
    rw [left, hplain.held, hplain.raw]
    exact Nat.lt_succ_self _
  rw [hcontent]
  have hblock : Follows (parseBlock dialect readFile _ none parent prev) s
      (resume dialect watching {} s) _ :=
    follows_parseBlock hread _ rfl rfl hplain.kept hleft
  refine .bind_get (hblock.mono ?_)
  rintro last s' _ ⟨-, hplain', -, ts, links, hgrows, rfl, rfl⟩
  exact ⟨hplain', ts, rfl, hgrows⟩

/-- Files that others include are read as by the reader in one pass. -/
theorem reads_parseFileAt : ∀ depth : Nat,
    Reads (parseFileAt dialect depth : Parsing.FileReader τ) (watchFileAt dialect depth)
  | 0, _, _, _, s, _ => .of_error s.workspace.place.spot.line rfl rfl
  | depth + 1, path, parent, prev, s, hplain => by
    have hgrown : Follows (parseFileAt dialect (depth + 1) path parent prev) s (do
        let content ← watch (enterFile path)
        let trees ← watchContent dialect
          (nameInTree s.workspace.host.files s.workspace.settings.srctree path)
          (watchFileAt dialect depth) content
        watch leaveFile
        pure trees) fun last s' next => s'.file = s.file ∧ Plain s' ∧
          ∃ ts, next = pure ts ∧ Grows parent prev s.links ts last s'.links := by
      unfold parseFileAt
      refine .bind_get (follows_perform fun content s₁ hsame => .update_bind rfl ?_)
      have hplain₁ := hsame.plain hplain
      refine .bind (follows_parseContent (s := { s₁ with file := .start _ content })
        (reads_parseFileAt depth) parent prev ⟨hplain₁.held, hplain₁.raw⟩ rfl).after ?_
      rintro last s₂ _ ⟨_, ⟨hplain₂, ts, rfl, hgrows⟩, rfl⟩
      rw [pure_bind]
      refine follows_perform fun _ s₃ hsame' => .update_bind rfl (.pure ?_)
      have hplain₃ := hsame'.plain hplain₂
      refine ⟨rfl, ⟨hplain₃.held, hplain₃.raw⟩, ts, rfl, ?_⟩
      rw [hsame'.links, ← hsame.links]
      exact hgrows
    exact hgrown.of_eq rfl rfl

/-- What parsing comes to: the links lead through the trees that the reader in one pass gives. -/
theorem follows_parseTop (w : Workspace) (name : String) (content : Files.Content) (trace : τ) :
    Follows (parseTop dialect) (scan w name content trace)
      (watchContent dialect name (watchFileAt dialect includeLimit) content)
      fun _ s' next => ∃ ts, next = pure ts ∧ Model.Connects s'.links ts := by
  unfold parseTop
  refine .bind (follows_parseContent (reads_parseFileAt includeLimit) 0 0 ⟨rfl, rfl⟩ rfl) ?_
  rintro last s' _ ⟨-, ts, rfl, hgrows⟩
  exact .update_bind rfl (.update_bind rfl (.update rfl ⟨ts, rfl, last, s'.links, hgrows, rfl⟩))

end
end Parsing

namespace Reading
variable {dialect : Dialect} {name : String} {w w' : Workspace} {ts : List Tree}
  {table : Array Links} {failure : Failure}

/-- Parsing and reading in one pass come to the same, but for the line where they fail. -/
theorem parse_spec (dialect : Dialect) (name : String) (content : Files.Content) (w : Workspace) :
    match readContent dialect (readFileAt dialect includeLimit) content w with
    | .ok ts w' => ∃ table, parse dialect name content w = .ok table w' ∧ Model.Connects table ts
    | .error failure w' => ∃ k, parse dialect name content w = .error failure (w'.atLine k) := by
  have hwatches : forget (watchContent dialect name (watchFileAt dialect includeLimit) content
      ⟨w, ()⟩) = readContent dialect (readFileAt dialect includeLimit) content w :=
    watches_content (watches_fileAt _) name content ⟨w, ()⟩
  have hfollows := @Parsing.follows_parseTop _ dialect _ w name content ()
  unfold Parsing.Follows at hfollows
  rw [← hwatches]
  unfold parse
  cases hparse : Parsing.parseTop dialect (Parsing.scan w name content ()) with
  | ok a s =>
    rw [hparse] at hfollows
    obtain ⟨_, heq, ts, rfl, hconnects⟩ := hfollows
    rw [show watchContent dialect name _ content ⟨w, ()⟩ = _ from heq]
    exact ⟨s.links, rfl, hconnects⟩
  | error failure s =>
    rw [hparse] at hfollows
    obtain ⟨k, heq⟩ := hfollows
    rw [show watchContent dialect name _ content ⟨w, ()⟩ = _ from heq]
    exact ⟨s.workspace.place.spot.line, rfl⟩

/-- The same from the top file on. -/
theorem readLinks_spec (dialect : Dialect) (name : String) (w : Workspace) :
    match readFiles dialect name w with
    | .ok ts w' => ∃ table, readLinks dialect name w = .ok table w' ∧ Model.Connects table ts
    | .error failure w' => ∃ k, readLinks dialect name w = .error failure (w'.atLine k) := by
  unfold readFiles readLinks
  rw [bind_apply, bind_apply]
  dsimp only [MonadState.get, getThe, MonadStateOf.get, EStateM.get]
  cases w.host.files.read (Files.join w.settings.srctree name) with
  | error condition => exact ⟨w.place.spot.line, rfl⟩
  | ok content => exact parse_spec dialect name content w

/-- The links that are read lead through the trees that the reader in one pass gives. -/
theorem readLinks_of_ok (h : readFiles dialect name w = .ok ts w') :
    ∃ table, readLinks dialect name w = .ok table w' ∧ Model.Connects table ts := by
  have hspec := readLinks_spec dialect name w
  rwa [h] at hspec

theorem readLinks_of_error (h : readFiles dialect name w = .error failure w') :
    ∃ k, readLinks dialect name w = .error failure (w'.atLine k) := by
  have hspec := readLinks_spec dialect name w
  rwa [h] at hspec

theorem readFiles_of_readLinks (h : readLinks dialect name w = .ok table w') :
    ∃ ts, readFiles dialect name w = .ok ts w' ∧ Model.Connects table ts := by
  cases hfiles : readFiles dialect name w with
  | ok ts w₁ =>
    obtain ⟨table', htable, hconnects⟩ := readLinks_of_ok hfiles
    cases h.symm.trans htable
    exact ⟨ts, rfl, hconnects⟩
  | error failure w₁ =>
    obtain ⟨k, herror⟩ := readLinks_of_error hfiles
    cases h.symm.trans herror

/-- What holds after the reader in one pass holds after the parser, as far as it is not about the
line where reading fails. -/
theorem meets_readLinks {Q : List Tree → Workspace → Prop} {F : Failure → Workspace → Prop}
    (h : Meets (readFiles dialect name) w Q F)
    (hline : ∀ failure w' k, F failure w' → F failure (w'.atLine k)) :
    Meets (readLinks dialect name) w (fun table w' => ∃ ts, Q ts w' ∧ Model.Connects table ts) F := by
  unfold Meets at h ⊢
  cases hfiles : readFiles dialect name w with
  | ok ts w₁ =>
    rw [hfiles] at h
    obtain ⟨table, htable, hconnects⟩ := readLinks_of_ok hfiles
    rw [htable]
    exact ⟨ts, h, hconnects⟩
  | error failure w₁ =>
    rw [hfiles] at h
    obtain ⟨k, herror⟩ := readLinks_of_error hfiles
    rw [herror]
    exact hline _ _ k h

end Reading
end Kconfig
