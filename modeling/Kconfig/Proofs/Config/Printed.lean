import Kconfig.Config.Evaluate
import Kconfig.Proofs.Config.Selected
import Kconfig.Proofs.Reading.ByHand
import Kconfig.Proofs.Values.Mentioned
/-!
What an expression is written as has its value.

A loaded configuration goes through acts, and expressions are given to it by hand. Whatever text is
given, the known symbols stay told apart by their names, and nothing is remembered about others. So
the text of an expression over symbols that can be named is read as an expression of the same value.
-/
namespace Kconfig

/-- What can be done with a loaded configuration: acts, and expressions that are given by hand. -/
inductive Event where
  | act (a : Act)
  | evaluate (text : String)

/-- Does what an event says. -/
def Event.perform : Event → Configuring Unit
  | .act a => a.perform
  | .evaluate text => do discard <| Configuring.evaluate text

theorem Configuring.outcome_follow {α : Type} (p : Plan α) (c : Configuration) :
    outcome (follow p c) = outcome (Evaluating.follow c.model c.user p ⟨c.memory, c.journal⟩) := by
  rw [follow_apply]
  cases Evaluating.follow c.model c.user p ⟨c.memory, c.journal⟩ <;> rfl

theorem Configuring.follow_congr {α : Type} {p p' : Plan α} {c : Configuration}
    (h : Evaluating.follow c.model c.user p ⟨c.memory, c.journal⟩ =
      Evaluating.follow c.model c.user p' ⟨c.memory, c.journal⟩) : follow p c = follow p' c := by
  rw [follow_apply, h, ← follow_apply]

namespace Configuration
variable {c c' : Configuration} {known : Nat} {e : Expr}

/-- The configuration after events, each of which may have failed. -/
def afterAll (c : Configuration) (events : List Event) : Configuration :=
  events.foldl (fun c event => stateAfter (event.perform c)) c

/-- No file is read, so many symbols are known, and nothing is remembered about others. -/
structure Calm (known : Nat) (c : Configuration) : Prop where
  closed : c.toWorkspace.ClosedWith known
  within : c.memory.symbols.size ≤ known

/-- The configuration at a text that is given by hand. -/
def atText (c : Configuration) (text : String) : Configuration :=
  { c with place.spot := { c.place.spot with file := none, text := text } }

/-- A text was read by hand: some symbols may have been mentioned, and nothing else was done. -/
def HasRead (c : Configuration) (text : String) (c' : Configuration) : Prop :=
  ∃ w, (c.atText text).toWorkspace.Mentions w ∧ c' = { c with toWorkspace := w }

/-! ### Events -/

/-- Steps make no symbol known and remember nothing. -/
theorem kept_calm (known : Nat) : Kept (Calm known) := by
  intro c c' hstep hc
  have hforget : ∀ i : Item, (c.memory.forgetFrom c.dependents i).symbols.size ≤ known := fun i =>
    (Nat.le_of_eq (Memory.size_forgetFrom ..)).trans hc.within
  cases hstep with
  | note h =>
    refine ⟨hc.closed.aside ⟨h.model, h.isOpen, by rw [h.host]⟩, ?_⟩
    rw [h.memory]
    exact hc.within
  | value s g _ =>
    refine ⟨hc.closed.aside ⟨rfl, rfl, rfl⟩, ?_⟩
    show (c.remembered s).symbols.size ≤ known
    unfold remembered
    split
    · exact hforget _
    · exact hc.within
  | select s ch a _ _ _ => exact ⟨hc.closed.aside ⟨rfl, rfl, rfl⟩, hforget _⟩
  | mode ch g => exact ⟨hc.closed.aside ⟨rfl, rfl, rfl⟩, hforget _⟩
  | unselect ch => exact ⟨hc.closed.aside ⟨rfl, rfl, rfl⟩, hforget _⟩

theorem keptByFiles_calm (known : Nat) : KeptByFiles (Calm known) :=
  fun _ _ hc => ⟨hc.closed.aside ⟨rfl, rfl, rfl⟩, hc.within⟩

/-- Asking remembers nothing about symbols that are not known. -/
theorem keeps_calm_follow {α : Type} (p : Plan α) : Keeps (Calm known) (Configuring.follow p) := by
  intro c hc
  have hkept := Evaluating.keeps_within_follow (m := c.model) (u := c.user) p
    ⟨c.memory, c.journal⟩ hc.within
  unfold KeepsAt at hkept ⊢
  rw [Configuring.stateAfter_follow]
  exact ⟨hc.closed.aside ⟨rfl, rfl, rfl⟩, hkept⟩

/-- Whatever reading keeps of the workspace stays. -/
theorem keeps_calm_reading {α : Type} {action : Reading α}
    (h : Keeps (Workspace.ClosedWith known) action) :
    Keeps (Calm known) (Configuring.reading action) := by
  intro c hc
  have hkept := h c.toWorkspace hc.closed
  unfold KeepsAt at hkept ⊢
  rw [Configuring.reading_apply]
  cases haction : action c.toWorkspace <;>
  · rw [haction] at hkept
    exact ⟨hkept, hc.within⟩

theorem keeps_calm_evaluate (text : String) : Keeps (Calm known) (Configuring.evaluate text) :=
  .bind (.update fun _ hc => ⟨hc.closed.aside ⟨rfl, rfl, rfl⟩, hc.within⟩) fun _ =>
    .bind (keeps_calm_reading (Reading.keeps_expression text)) fun _ =>
      .bind .get fun _ => keeps_calm_follow _

/-- No event makes a symbol known, or remembers something about others. -/
theorem Calm.afterAll (hc : c.Calm known) (events : List Event) : (c.afterAll events).Calm known := by
  refine Lists.foldl_keeps (Calm known) (fun c event hc => ?_) events hc
  change KeepsAt (Calm known) c event.perform
  cases event with
  | act a =>
    exact keeps_perform (kept_calm known) (keptByFiles_calm known) keeps_calm_follow a c hc
  | evaluate text =>
    exact Keeps.bind (keeps_calm_evaluate text) (fun _ => .pure _) c hc

/-! ### Texts of expressions -/

/-- Where a text is read makes no difference to what is asked. -/
theorem outcome_atText (c : Configuration) (text : String) :
    outcome (Configuring.holds e (c.atText text)) = outcome (Configuring.holds e c) := by
  show outcome (Configuring.follow (c.model.holds e) (c.atText text)) =
    outcome (Configuring.follow (c.model.holds e) c)
  rw [Configuring.outcome_follow, Configuring.outcome_follow]
  rfl

/-- What an expression is written as has the value of the expression, once its names were read. -/
theorem Calm.evaluate_exprText (hc : c.Calm known) (h : ∀ i ∈ e.items, c.model.Nameable i) :
    ∃ c', c.HasRead (c.model.exprText e) c' ∧
      Configuring.evaluate (c.model.exprText e) c = Configuring.holds e c' ∧
      ((∀ s, .symbol s ∈ e.items → s < known) → c' = c.atText (c.model.exprText e)) := by
  let c₀ : Configuration := { c with place.spot.file := none }
  have haside : Aside c.toWorkspace c₀.toWorkspace := ⟨rfl, rfl, rfl⟩
  have hclosed : c₀.toWorkspace.Closed := (hc.closed.aside haside).toClosed
  obtain ⟨e', w, hread, hreads⟩ := Reading.expression_rereads (w := c₀.toWorkspace) hclosed h
  refine ⟨{ c with toWorkspace := w }, ⟨w, hreads.mentions, rfl⟩, ?_, fun hknown => ?_⟩
  · have hreading : Configuring.reading (Reading.expression (c.model.exprText e)) c₀ =
        .ok e'.regrouped { c with toWorkspace := w } := by
      rw [Configuring.reading_apply]
      rw [show Reading.expression (c.model.exprText e) c₀.toWorkspace = _ from hread]
    have hwithin : Evaluating.Within w.model.known ⟨c.memory, w.journal⟩ := by
      have hknown : w.model.known = known := hreads.mentions.known.trans hc.closed.known
      rw [hknown]
      exact hc.within
    have hsame := Evaluating.agree_holds (u := c.user) hreads.mentions.closed.indexed hreads.alike
      ⟨c.memory, w.journal⟩ hwithin
    show (Configuring.reading (Reading.expression (c.model.exprText e)) >>= Configuring.holds) c₀ = _
    rw [bind_apply, hreading]
    show Configuring.follow (w.model.holds e'.regrouped) { c with toWorkspace := w } =
      Configuring.follow (w.model.holds e) { c with toWorkspace := w }
    rw [Model.holds_regrouped]
    exact Configuring.follow_congr hsame.symm
  · obtain rfl := hreads.known fun s hs => hc.closed.known.symm ▸ hknown s hs
    rfl

end Configuration

/-! ### Loaded configurations -/

/-- All symbols of a settled model are known, each by its own name. -/
theorem Model.Read.indexed {m : Model} {blocks : List Tree} {table : Array Links} (h : m.Read blocks) :
    (m.settle blocks table).Indexed := by
  have hname : ∀ s, ((m.settle blocks table).symbol s).name = (m.symbol s).name := fun s =>
    (h.names_settle s).1
  have hconst : ∀ s, ((m.settle blocks table).symbol s).isConstant = (m.symbol s).isConstant := fun s =>
    (h.names_settle s).2.1
  have hknown : (m.settle blocks table).known = m.symbols.size := h.known_settle.trans h.raw.known
  have hsize : (m.settle blocks table).symbols.size = m.symbols.size := h.size_settle
  constructor
  case no =>
    rw [hname, hconst, h.raw.symbol_no]
    exact ⟨rfl, rfl⟩
  case yes =>
    rw [hname, hconst, h.raw.symbol_yes]
    exact ⟨rfl, rfl⟩
  case two_le =>
    rw [hknown]
    exact h.raw.two_le
  case known_le => rw [hknown, hsize]
  case unique =>
    intro s t hs ht
    rw [hknown] at hs ht
    rw [hname, hname, hconst, hconst]
    exact h.raw.unique s t hs ht
  case proper =>
    intro s hs
    rw [hsize] at hs
    rw [hconst, hname]
    exact h.raw.proper s hs
  case mentioned =>
    intro s hs hlt
    rw [hknown] at hs
    rw [hsize] at hlt
    exact absurd hlt (Nat.not_lt_of_le hs)

/-- After loading all symbols are known, and nothing is remembered. -/
theorem Load.calm_of_load {host : Host} {options : LoadOptions} {c : Configuration} {w : Workspace}
    (hload : load host options = .ok c w) : c.Calm w.model.symbols.size := by
  have hopen := isOpen_of_load hload
  obtain ⟨m, ⟨blocks, table, hread, hsettle, hlinked⟩, -, rfl⟩ := load_ok hload
  have hindexed : w.model.Indexed := hsettle ▸ hread.indexed
  have hknown : w.model.known = w.model.symbols.size := by
    rw [hsettle, hread.known_settle, hread.size_settle, hread.raw.known]
  exact ⟨⟨⟨hopen, hindexed⟩, hknown⟩, Nat.le_of_eq Array.size_replicate⟩

/-- After any events, an expression that is written out and given by hand has the value that it has
once its names were read, and this fails as it fails. When all its symbols are those of the loaded
model, that is its value now. And where reading comes to an end, there is a value. -/
theorem evaluate_exprText_afterAll {host : Host} {options : LoadOptions} {c : Configuration}
    {w : Workspace} (hload : Load.load host options = .ok c w) (events : List Event) {e : Expr}
    (h : ∀ i ∈ e.items, (c.afterAll events).model.Nameable i) :
    let now := c.afterAll events
    let text := now.model.exprText e
    (∃ c', now.HasRead text c' ∧ Configuring.evaluate text now = Configuring.holds e c' ∧
      (c'.Answering → ∃ b c'', Configuring.evaluate text now = .ok b c'')) ∧
    ((∀ s, .symbol s ∈ e.items → s < w.model.symbols.size) →
      outcome (Configuring.evaluate text now) = outcome (Configuring.holds e now) ∧
      (now.Answering → ∃ b c₁ c₂, Configuring.evaluate text now = .ok b c₁ ∧
        Configuring.holds e now = .ok b c₂)) := by
  intro now text
  have hcalm : now.Calm w.model.symbols.size := (Load.calm_of_load hload).afterAll events
  obtain ⟨c', hread, heval, hknown⟩ := hcalm.evaluate_exprText h
  refine ⟨⟨c', hread, heval, fun hanswering => ?_⟩, fun hall => ?_⟩
  · rw [heval]
    exact hanswering.follow _
  · have hsame : outcome (Configuring.evaluate text now) = outcome (Configuring.holds e now) := by
      rw [heval, hknown hall]
      exact now.outcome_atText text
    refine ⟨hsame, fun hanswering => ?_⟩
    obtain ⟨b, c₂, hholds⟩ : ∃ b c₂, Configuring.holds e now = .ok b c₂ :=
      hanswering.follow (now.model.holds e)
    rw [hholds] at hsame
    cases heval : Configuring.evaluate text now with
    | error f c₁ =>
      rw [heval] at hsame
      exact nomatch hsame
    | ok b' c₁ =>
      rw [heval] at hsame
      obtain rfl : b' = b := Except.ok.inj hsame
      exact ⟨b', c₁, c₂, rfl, hholds⟩

/-- A text with quotes in it, which is compared with a constant. -/
def quotedDefault : Host where
  files.entries := [(["work", "Kconfig"], .file (.text
    "config A\n\tbool \"a\"\nconfig S\n\tstring \"s\"\n\tdefault \"x \\\"y\\\"\"\nconfig B\n\tbool\n\tdefault y if S = \"x \\\"y\\\"\"\n"))]

/-- A name that is not known is given by hand, and the bool is set. -/
def mentionAndSet : List Event := [.evaluate "A && FRESH != 0", .act (.setSymbol 2 (.number 0))]

/-- An expression with groups, and with the constant. -/
def groupedExpr : Expr :=
  .and (.or (.symbol 2) (.compare .equal (.symbol 3) (.symbol 4)))
    (.not (.and (.symbol 2) (.not (.symbol 5))))

theorem quotedDefault_evaluate : ∃ c w c₁, Load.load quotedDefault {} = .ok c w ∧
    let now := c.afterAll mentionAndSet
    (∀ i ∈ groupedExpr.items, now.model.Nameable i) ∧
      Configuring.evaluate (now.model.exprText groupedExpr) now = .ok true c₁ := by
  have hchecked : ((outcome (Load.load quotedDefault {})).toOption.any fun c =>
      decide ((∀ i ∈ groupedExpr.items, (c.afterAll mentionAndSet).model.Nameable i) ∧
        c.model.symbols.size = 6 ∧
        (outcome (Configuring.holds groupedExpr (c.afterAll mentionAndSet))).toOption =
          some true)) = true := by decide +kernel
  obtain ⟨c, w, hload⟩ := ok_of_succeeds (r := Load.load quotedDefault {}) (by decide +kernel)
  rw [hload] at hchecked
  obtain ⟨hnameable, hsize, hholds⟩ := of_decide_eq_true hchecked
  have hknown : ∀ s, .symbol s ∈ groupedExpr.items → s < w.model.symbols.size := by
    intro s hs
    obtain rfl := Load.eq_ofWorkspace_of_load hload
    have hsize : w.model.symbols.size = 6 := hsize
    rw [hsize]
    have hitems : ∀ i ∈ groupedExpr.items, i ∈ (List.range 6).map .symbol := by decide
    obtain ⟨t, ht, heq⟩ := List.mem_map.mp (hitems _ hs)
    obtain rfl := Item.symbol.inj heq
    exact List.mem_range.mp ht
  obtain ⟨-, hsame⟩ := evaluate_exprText_afterAll hload mentionAndSet hnameable
  have hsame := (hsame hknown).1
  cases heval : Configuring.evaluate ((c.afterAll mentionAndSet).model.exprText groupedExpr)
      (c.afterAll mentionAndSet) with
  | error f c₁ =>
    rw [heval] at hsame
    rw [← hsame] at hholds
    exact nomatch hholds
  | ok b c₁ =>
    rw [heval] at hsame
    rw [← hsame] at hholds
    obtain rfl : b = true := Option.some.inj hholds
    exact ⟨c, w, c₁, hload, hnameable, heval⟩

end Kconfig
