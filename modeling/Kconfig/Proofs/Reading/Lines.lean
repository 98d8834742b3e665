import Kconfig.Proofs.Reading.Steady
import Kconfig.Proofs.Text.Lines
import Kconfig.Reading.Files
/-!
Both notations of lines give sound statements.

Whatever a line says, the parts of its statement read names, expand references, or fail. The name of
an entry is never that of a constant.
-/
namespace Kconfig
variable {α β : Type} {P : List Entry → Prop} {known : Nat}

/-! ### The notation of line forms -/

theorem steady_operand (token : List Char) : Moves Steady (operand token) := by
  unfold operand
  split
  · exact .throw _
  · refine .ite (.bind (Reading.steady_of_aside (Reading.aloof_expandEnv _).aside) fun _ => ?_)
      (Reading.steady_word _)
    exact Reading.steady_constant _

theorem Nested.steady_resolve (n : Nested) : Moves Steady n.resolve :=
  Kept.resolve (P := Moves Steady)
    { operand := fun s => .map _ (steady_operand s)
      pure := fun _ => .pure _
      noSuchIndex := .throw _
      illTyped := .throw _
      problem := Reading.steady_problem
      not := fun hx => .map _ hx
      both := fun hx hy hf => .bind hx fun a => .bind hy fun b => hf a b } n


namespace Statement

theorem steady_textPart (s : List Char) : Moves Steady (textPart s) :=
  .map _ (Reading.steady_of_aside (Reading.aloof_expandEnv _).aside)

theorem steady_conditionPart (cond : Option Nested) : Moves Steady (conditionPart cond) := by
  cases cond with
  | none => exact .pure _
  | some cond => exact cond.steady_resolve

theorem promptOf_sound (captured : List Char × Option Nested) : (promptOf captured).Sound :=
  ⟨steady_textPart _, steady_conditionPart _⟩

theorem steady_boundsPart (low high : List Char) : Moves Steady (boundsPart low high) :=
  .bind (steady_operand low) fun _ => .bind (steady_operand high) fun _ => .pure _

/-- A text that is neither `n` nor `y` names a symbol. -/
theorem ofList_proper {name : List Char} (h : ¬(name = ['n'] ∨ name = ['y'])) :
    String.ofList name ≠ "n" ∧ String.ofList name ≠ "y" :=
  ⟨Text.ofList_ne fun hn => h (.inl hn), Text.ofList_ne fun hy => h (.inr hy)⟩

theorem steady_namedSymbol (p : Problem) (name : List Char) :
    Moves Steady (namedSymbol p name) := by
  unfold namedSymbol
  split
  · exact Reading.steady_problem _
  · next h => exact Reading.steady_symbol (ofList_proper h)

theorem namedSymbol_sound (isMenuconfig : Bool) (p : Problem) (name : List Char) :
    (Statement.config isMenuconfig (namedSymbol p name)).Sound known := by
  intro w s w' hw _ h
  unfold namedSymbol at h
  split at h
  · exact nomatch h
  · next hname => exact Reading.symbol_ok hw (ofList_proper hname) h

/-- What a form captures makes a sound statement. -/
theorem ofCaptured_sound (captured : Captured) : (ofCaptured captured).Sound known := by
  cases captured with
  | config keyword name => exact namedSymbol_sound _ _ name
  | menu | comment | mainmenu | source => exact steady_textPart _
  | choice | close | env | flag => exact .pure _
  | block expr | depends expr | visible expr => exact expr.steady_resolve
  | type keyword captured =>
    intro part hpart
    obtain ⟨prompt, -, rfl⟩ := Option.map_eq_some_iff.mp hpart
    exact promptOf_sound _
  | prompt => exact promptOf_sound _
  | default expr cond => exact ⟨expr.steady_resolve, steady_conditionPart cond⟩
  | select keyword name cond =>
    unfold ofCaptured
    dsimp only
    split <;> exact ⟨steady_namedSymbol _ _, steady_conditionPart cond⟩
  | range low high cond => exact ⟨steady_boundsPart low high, steady_conditionPart cond⟩
  | optional | help => exact trivial

/-- The action is steady, and what it gives, if it gives something, is a sound statement. -/
def GivesSound (action : Reading (Option Statement)) : Prop :=
  ∀ w given w', action w = .ok given w' →
    Steady w w' ∧ ∀ statement, given = some statement → ∀ known, statement.Sound known

namespace GivesSound

theorem bind {action : Reading α} {next : α → Reading (Option Statement)}
    (h : Moves Steady action) (hnext : ∀ a, GivesSound (next a)) : GivesSound (action >>= next) := by
  intro w given w' hgiven
  obtain ⟨a, w₁, ha, hgiven⟩ := bind_ok hgiven
  obtain ⟨hsteady, hsound⟩ := hnext a w₁ given w' hgiven
  exact ⟨Onward.trans (h w a w₁ ha) hsteady, hsound⟩

theorem none : GivesSound (pure none) := by
  intro w given w' h
  injection h with hgiven hw
  subst hgiven hw
  exact ⟨Onward.refl w, fun _ h => nomatch h⟩

theorem some {statement : Statement} (h : ∀ known, statement.Sound known) :
    GivesSound (pure (some statement)) := by
  intro w given w' hgiven
  injection hgiven with hgiven hw
  subst hgiven hw
  exact ⟨Onward.refl w, fun _ hs => Option.some.inj hs ▸ h⟩

theorem problem (p : Problem) : GivesSound (Reading.problem p) := fun _ _ _ h => nomatch h

theorem ite {c : Prop} [Decidable c] {action action' : Reading (Option Statement)}
    (h : GivesSound action) (h' : GivesSound action') :
    GivesSound (if c then action else action') := by
  split
  · exact h
  · exact h'

end GivesSound

/-- A line in the second notation gives a sound statement. -/
theorem readFormLine_givesSound (expression : Infix) (line : List Char) :
    GivesSound (readFormLine expression line) := by
  have hcode : ∀ problem code, GivesSound (finishForm expression problem code) := by
    intro problem code
    unfold finishForm
    split
    · next captured _ => exact .some fun known => ofCaptured_sound captured
    · exact .problem _
  have hform : ∀ code word, GivesSound (finishFormLine expression line code word) := fun code word =>
    .ite (.ite (.bind (Reading.steady_of_aside (Macro.aloof_expandText _).aside) fun _ => hcode _ _)
        (.bind (.pure _) fun _ => hcode _ _))
      (.bind (Reading.steady_of_aside (Macro.aloof_readAssignment _).aside) fun _ => .none)
  refine .bind (Reading.steady_of_aside (Reading.aloof_beginLine _).aside) fun _ => ?_
  exact .ite .none (.ite (.bind (Reading.steady_problem _) fun _ => hform _ _) (hform _ _))

end Statement

/-! ### The notation of tokens -/

namespace Token
open Reading

/-- The token is no symbol, or one of the first symbols. -/
def Within (known : Nat) (t : Token) : Prop := ∀ s, t = .symbol s → s < known

theorem Within.mono {k k' : Nat} {t : Token} (h : t.Within k) (hle : k ≤ k') : t.Within k' :=
  fun s hs => Nat.lt_of_lt_of_le (h s hs) hle

theorem aloof_readQuoted (quote : Char) (s : List Char) : Aloof (readQuoted quote s) := by
  unfold readQuoted
  refine .ite (.bind (Macro.aloof_readString _ _) fun _ => .bind (aloof_expandEnv _) fun _ =>
    .pure _) ?_
  split
  · exact .pure _
  · exact aloof_problem _

/-- The action is steady, and gives what comes from symbols of the model. -/
def Gives (Q : Nat → α → Prop) (action : Reading α) : Prop :=
  ∀ w a w', Ready w → action w = .ok a w' → WentOn w w' ∧ Q w'.model.symbols.size a

namespace Gives
variable {Q : Nat → α → Prop} {Q' : Nat → β → Prop}

theorem pure {a : α} (h : ∀ known, Q known a) : Gives Q (Pure.pure a) := by
  intro w b w' hw hb
  injection hb with ha hw'
  subst ha hw'
  exact ⟨⟨hw, rfl, Nat.le_refl _⟩, h _⟩

theorem problem (p : Problem) : Gives Q (Reading.problem p) := fun _ _ _ _ h => nomatch h

theorem after {action : Reading β} {next : β → Reading α} (h : Moves Steady action)
    (hnext : ∀ b, Gives Q (next b)) : Gives Q (action >>= next) := by
  intro w a w' hw ha
  obtain ⟨b, w₁, hb, ha⟩ := bind_ok ha
  have h₁ := h w b w₁ hb hw trivial
  obtain ⟨h₂, hQ⟩ := hnext b w₁ a w' h₁.1 ha
  exact ⟨⟨h₂.1, h₂.2.1.trans h₁.2.1, Nat.le_trans h₁.2.2 h₂.2.2⟩, hQ⟩

theorem map {f : β → α} {action : Reading β} (h : Gives Q' action)
    (hf : ∀ known b, Q' known b → Q known (f b)) :
    Gives Q (action >>= fun b => Pure.pure (f b)) := by
  intro w a w' hw ha
  obtain ⟨b, w₁, hb, ha⟩ := bind_ok ha
  injection ha with ha hw'
  subst ha hw'
  obtain ⟨h₁, hQ⟩ := h w b w₁ hw hb
  exact ⟨h₁, hf _ b hQ⟩

theorem seq {γ : Type} {Q'' : Nat → γ → Prop} {action : Reading β} {next : β → Reading γ}
    {f : β → γ → α} (h : Gives Q' action)
    (hmono : ∀ known known' b, known ≤ known' → Q' known b → Q' known' b)
    (hnext : ∀ b, Gives Q'' (next b))
    (hf : ∀ known b c, Q' known b → Q'' known c → Q known (f b c)) :
    Gives Q (do
      let b ← action
      let c ← next b
      Pure.pure (f b c)) := by
  intro w a w' hw ha
  obtain ⟨b, w₁, hb, ha⟩ := bind_ok ha
  obtain ⟨c, w₂, hc, ha⟩ := bind_ok ha
  injection ha with ha hw'
  subst ha hw'
  obtain ⟨h₁, hQ'⟩ := h w b w₁ hw hb
  obtain ⟨h₂, hQ''⟩ := hnext b w₁ c w₂ h₁.1 hc
  exact ⟨⟨h₂.1, h₂.2.1.trans h₁.2.1, Nat.le_trans h₁.2.2 h₂.2.2⟩,
    hf _ b c (hmono _ _ b h₂.2.2 hQ') hQ''⟩

end Gives

/-- A token and the text after it, the token within the model. -/
abbrev FirstWithin (known : Nat) (p : Token × List Char) : Prop := p.1.Within known

theorem within_of_ne {t : Token} (h : ∀ s, t ≠ .symbol s) (known : Nat) : t.Within known :=
  fun s hs => absurd hs (h s)

theorem gives_word (name : String) : Gives (fun known s => s < known) (Reading.word name) :=
  fun _ _ _ hw h => word_ok hw h

theorem gives_constant (text : String) :
    Gives (fun known s => s < known) (Reading.constant text) := fun _ _ _ hw h => constant_ok hw h

theorem within_symbol (known : Nat) (s : SymbolId) (h : s < known) :
    (Token.symbol s).Within known := by
  intro t ht
  obtain rfl := Token.symbol.inj ht
  exact h

theorem gives_readWord (previous : Token) (word s : List Char) :
    Gives FirstWithin (readWord previous word s) := by
  unfold readWord
  dsimp only
  split
  · exact .pure fun known => within_of_ne (by simp) known
  · split
    · have htext : ∀ (text : String) (rest : List Char),
          Gives FirstWithin (Pure.pure (Token.text text, rest)) := fun text rest =>
        .pure fun known => within_of_ne (by simp) known
      split
      · exact .after .get fun _ => .after (steady_of_aside (aloof_warnHere _).aside) fun _ => htext _ _
      · exact htext _ _
    · split
      · exact .after (steady_of_aside (Macro.aloof_readName _).aside) fun (name, rest) =>
          .map (gives_word _) fun known s hs => within_symbol known s hs
      · exact .map (gives_word _) fun known s hs => within_symbol known s hs

theorem operator?_ne {s rest : List Char} {t : Token} (h : operator? s = some (t, rest)) :
    ∀ i, t ≠ .symbol i := by
  unfold operator? at h
  split at h
  all_goals first
    | injection h with h
      injection h with ht
      rw [← ht]
      simp
    | exact nomatch h

theorem gives_readOther (first previous : Token) (c : Char) (s : List Char) :
    Gives FirstWithin (readOther first previous c s) := by
  unfold readOther
  split
  · refine .after (steady_of_aside (aloof_readQuoted _ _).aside) fun (body, rest) => ?_
    simp only [pure_bind]
    split
    · exact .pure fun known => within_of_ne (by simp) known
    · exact .map (gives_constant _) fun known s hs => within_symbol known s hs
  · split
    · next token rest hop => exact .pure fun known => within_of_ne (operator?_ne hop) known
    · exact .problem _

theorem gives_readRest (first : Token) : ∀ (fuel : Nat) (previous : Token) (s : List Char),
    Gives (fun known ts => ∀ t ∈ ts, Token.Within known t) (readRest first fuel previous s)
  | 0, _, _ => .pure fun _ _ h => absurd h List.not_mem_nil
  | _ + 1, _, [] => .pure fun _ _ h => absurd h List.not_mem_nil
  | fuel + 1, previous, c :: s => by
    have hrest : ∀ p : Token × List Char, Gives (fun known ts => ∀ t ∈ ts, Token.Within known t)
        (readRest first fuel p.1 p.2) := fun p => gives_readRest first fuel p.1 p.2
    have hcons : ∀ (known : Nat) (p : Token × List Char) (ts : List Token), p.1.Within known →
        (∀ t ∈ ts, Token.Within known t) → ∀ t ∈ p.1 :: ts, Token.Within known t :=
      fun known p ts hp hts => List.forall_mem_cons.mpr ⟨hp, hts⟩
    have hmono : ∀ (known known' : Nat) (p : Token × List Char), known ≤ known' →
        p.1.Within known → p.1.Within known' := fun _ _ _ hle h => h.mono hle
    rw [readRest]
    dsimp only
    split
    · exact .pure fun _ _ h => absurd h List.not_mem_nil
    · split
      · exact .seq (gives_readOther _ _ _ _) hmono hrest hcons
      · exact .seq (gives_readWord _ _ _) hmono hrest hcons

theorem gives_readLine (line : List Char) :
    Gives (fun known ts => ∀ t ∈ ts, Token.Within known t) (readLine line) := by
  refine .after (steady_of_aside (aloof_beginLine _).aside) fun _ => ?_
  have hnil : Gives (fun known ts => ∀ t ∈ ts, Token.Within known t) (Pure.pure []) :=
    .pure fun _ _ h => absurd h List.not_mem_nil
  dsimp only
  split
  · split
    · exact hnil
    · exact .problem _
  · split
    · refine .map (gives_readRest _ _ _ _) fun known ts hts => List.forall_mem_cons.mpr ⟨?_, hts⟩
      exact within_of_ne (by simp) known
    · split
      · refine .pure fun known => List.forall_mem_cons.mpr ⟨?_, fun _ h => absurd h List.not_mem_nil⟩
        exact within_of_ne (by simp) known
      · exact .after (steady_of_aside (Macro.aloof_readAssignment _).aside) fun _ => hnil

end Token

namespace Statement
open Token

theorem steady_part (e : Except Problem α) : Moves Steady (part e) := by
  cases e with
  | ok a => exact .pure a
  | error p => exact Reading.steady_problem p

theorem steady_variableSymbol (p : Problem) (tokens : List Token) :
    Moves Steady (variableSymbol p tokens) := by
  unfold variableSymbol
  split
  · exact .bind .get fun _ => .ite (Reading.steady_problem _) (.pure _)
  · exact Reading.steady_problem _

/-- The symbol that an entry names is one of the tokens, and no constant. -/
theorem variableSymbol_ok {p : Problem} {tokens : List Token} {w w' : Workspace} {s : SymbolId}
    (h : variableSymbol p tokens w = .ok s w') :
    w' = w ∧ .symbol s ∈ tokens ∧ (w.model.symbol s).isConstant = false := by
  unfold variableSymbol at h
  split at h
  · next t more =>
    obtain ⟨_, _, hget, h⟩ := bind_ok h
    injection hget with hw hw'
    subst hw hw'
    split at h
    · exact nomatch h
    · next hconst =>
      injection h with ht hw'
      subst ht hw'
      exact ⟨rfl, List.mem_cons_self .., by simpa using hconst⟩
  · exact nomatch h

theorem promptPart_sound (tokens : List Token) : (promptPart tokens).Sound := by
  unfold promptPart
  split
  · exact ⟨.pure _, steady_part _⟩
  · exact ⟨Reading.steady_problem _, .pure _⟩

theorem config_sound {isMenuconfig : Bool} {rest : List Token}
    (hrest : ∀ t ∈ rest, Token.Within known t) : (Statement.config isMenuconfig do
      let s ← variableSymbol .badName rest
      part (takeEnd (rest.drop 1))
      pure s).Sound known := by
  intro w s w' hw hknown h
  obtain ⟨t, w₁, hsymbol, h⟩ := bind_ok h
  obtain ⟨_, w₂, hend, h⟩ := bind_ok h
  injection h with hs hw'
  subst hs hw'
  obtain ⟨rfl, hmem, hconst⟩ := variableSymbol_ok hsymbol
  have hsame : w₂ = w₁ := by
    cases htake : takeEnd (rest.drop 1) with
    | ok a =>
      rw [htake] at hend
      injection hend with _ hw
      exact hw.symm
    | error p =>
      rw [htake] at hend
      exact nomatch hend
  rw [hsame]
  exact ⟨⟨hw, rfl, Nat.le_refl _⟩, Nat.lt_of_lt_of_le (hrest _ hmem t rfl) hknown, hconst⟩

theorem ofKeyword_sound {k : Keyword} {rest : List Token}
    (hrest : ∀ t ∈ rest, Token.Within known t) : (ofKeyword k rest).Sound known := by
  cases k with
  | config => exact config_sound hrest
  | menuconfig => exact config_sound hrest
  | menu => exact steady_part _
  | comment => exact steady_part _
  | mainmenu => exact steady_part _
  | choice => exact .ite (.pure _) (.map _ (steady_part _))
  | source isRelative isRequired => exact steady_part _
  | ifWord => exact steady_part _
  | endmenu => exact steady_part _
  | endchoice => exact steady_part _
  | endif => exact steady_part _
  | type t =>
    intro part hpart
    split at hpart
    · cases hpart
    · obtain rfl := Option.some.inj hpart
      exact promptPart_sound _
  | prompt => exact promptPart_sound _
  | depends =>
    show Moves Steady _
    split
    · exact steady_part _
    · exact Reading.steady_problem _
  | visible =>
    show Moves Steady _
    split
    · exact steady_part _
    · exact Reading.steady_problem _
  | select => exact ⟨steady_variableSymbol _ _, steady_part _⟩
  | imply => exact ⟨steady_variableSymbol _ _, steady_part _⟩
  | default => exact ⟨steady_part _, steady_part _⟩
  | range => exact ⟨steady_part _, steady_part _⟩
  | option => exact steady_part _
  | optional => exact trivial
  | help => exact trivial
  | on => exact trivial
  | env => exact trivial
  | defconfigList => exact trivial
  | allnoconfigY => exact trivial

theorem ofTokens_sound {tokens : List Token} (h : ∀ t ∈ tokens, Token.Within known t)
    {statement : Statement} (hs : ofTokens tokens = some statement) :
    statement.Sound known := by
  unfold ofTokens at hs
  split at hs
  · exact nomatch hs
  · next k rest =>
    obtain rfl := Option.some.inj hs
    exact ofKeyword_sound fun t ht => h t (List.mem_cons_of_mem _ ht)
  · obtain rfl := Option.some.inj hs
    exact trivial

end Statement

/-- A notation whose lines give sound statements. -/
def Dialect.Sound (dialect : Dialect) : Prop :=
  ∀ line w given w', Ready w → dialect.readLine line w = .ok given w' → WentOn w w' ∧
    ∀ statement, given = some statement → statement.Sound w'.model.symbols.size

theorem Dialect.tokens_sound : Dialect.tokens.Sound := by
  intro line w given w' hw h
  change (Token.readLine line >>= fun tokens => pure (Statement.ofTokens tokens)) w = _ at h
  obtain ⟨tokens, w₁, htokens, h⟩ := bind_ok h
  injection h with hgiven hw'
  subst hgiven hw'
  obtain ⟨hsteady, hwithin⟩ := Token.gives_readLine line w tokens w₁ hw htokens
  exact ⟨hsteady, fun statement hs => Statement.ofTokens_sound hwithin hs⟩

theorem Dialect.forms_sound (expression : Infix) : (Dialect.forms expression).Sound := by
  intro line w given w' hw h
  obtain ⟨hsteady, hsound⟩ := Statement.readFormLine_givesSound expression line w given w' h
  exact ⟨hsteady hw trivial, fun statement hs => hsound statement hs _⟩

end Kconfig
