import Kconfig.Model.Dependents
import Kconfig.Proofs.Values.Valuation
/-!
What answers hang on.

The rule of a question asks about the items that the question's own item reads, and about itself.
Two kinds of questions go further: a choice looks at the symbols that it may select, and a visible
member of a choice looks at the selection. The warning about a forced symbol asks further questions
still, whose answers no value needs, so `valueRule` leaves them out.
-/
namespace Kconfig

namespace Plan
variable {α β : Type} {P P' : Query → Prop}

/-- Whatever the answers, the plan asks questions of one kind only. -/
def AsksOnly (P : Query → Prop) (p : Plan α) : Prop := ∀ v, ∀ q ∈ p.asked v, P q

namespace AsksOnly

theorem pure (a : α) : (Pure.pure a : Plan α).AsksOnly P :=
  fun _ _ h => absurd h List.not_mem_nil

theorem tell (w : Warning) : (Plan.tell w).AsksOnly P :=
  fun _ _ h => absurd h List.not_mem_nil

theorem bind {p : Plan α} {f : α → Plan β} (hp : p.AsksOnly P) (hf : ∀ a, (f a).AsksOnly P) :
    (p >>= f).AsksOnly P := by
  intro v q hq
  rw [asked_bind] at hq
  rcases List.mem_append.mp hq with hq | hq
  · exact hp v q hq
  · exact hf _ v q hq

theorem ask {q : Query} {next : q.Answer → Plan α} (hq : P q) (hnext : ∀ a, (next a).AsksOnly P) :
    (Plan.ask q next).AsksOnly P := by
  intro v q' hq'
  rcases List.mem_cons.mp hq' with rfl | hq'
  · exact hq
  · exact hnext _ v q' hq'

theorem ite {c : Prop} [Decidable c] {p p' : Plan α} (hp : p.AsksOnly P) (hp' : p'.AsksOnly P) :
    (if c then p else p').AsksOnly P := by
  split
  · exact hp
  · exact hp'

theorem mono {p : Plan α} (hp : p.AsksOnly P) (h : ∀ q, P q → P' q) : p.AsksOnly P' :=
  fun v q hq => h q (hp v q hq)

theorem text {i : Item} (h : P (.text i)) : (Plan.text i).AsksOnly P := ask h fun _ => pure _

theorem level {i : Item} (h : P (.level i)) : (Plan.level i).AsksOnly P := ask h fun _ => pure _

theorem visible {i : Item} (h : P (.visible i)) : (Plan.visible i).AsksOnly P :=
  ask h fun _ => pure _

end AsksOnly
end Plan

namespace Model
open Plan
variable {m : Model} {u u' : UserValues} {v : Valuation} {P : Query → Prop}

/-! ### Rules without the questions of warnings -/

/-- `freeLevel` without the warning. -/
def plainLevel (m : Model) (u : UserValues) (s : SymbolId) (isVisible : Bool) :
    Plan (Written Bool) := do
  let own ← m.ownLevel u s isVisible
  if ← m.holds (m.symbol s).revDep then return ⟨true, true⟩ else return own

/-- The rule of a question without the questions that are asked for warnings. -/
def valueRule (m : Model) (u : UserValues) : (q : Query) → Plan q.Answer
  | .level (.symbol s) =>
    if s = noId ∨ s = yesId then return ⟨s = yesId, false⟩
    else if (m.symbol s).type ≠ .bool then return ⟨false, false⟩
    else do
      let isVisible ← visible (.symbol s)
      match (m.symbol s).choice with
      | some c => memberLevel s c isVisible
      | none => m.plainLevel u s isVisible
  | q => m.rule u q

theorem plainLevel_result (s : SymbolId) (isVisible : Bool) :
    (m.plainLevel u s isVisible).result v = (m.freeLevel u s isVisible).result v := by
  simp only [plainLevel, freeLevel, result_bind, result_ite, result_pure]
  split
  · split <;> simp
  · rfl

theorem plainLevel_asked {s : SymbolId} {isVisible : Bool} {q : Query}
    (h : q ∈ (m.plainLevel u s isVisible).asked v) :
    q ∈ (m.freeLevel u s isVisible).asked v := by
  have hrest : ∀ own : Written Bool, (if (m.holds (m.symbol s).revDep).result v = true then
      (pure ⟨true, true⟩ : Plan (Written Bool)) else pure own).asked v = [] := by
    intro own
    split <;> rfl
  simp only [plainLevel, asked_bind, hrest, List.append_nil] at h
  simp only [freeLevel, asked_bind]
  rcases List.mem_append.mp h with h | h
  · exact List.mem_append_left _ h
  · exact List.mem_append_right _ (List.mem_append_left _ h)

/-- A question has the same answer without the questions of warnings. -/
theorem valueRule_result (q : Query) : (m.valueRule u q).result v = (m.rule u q).result v := by
  unfold valueRule
  split
  · next s =>
    simp only [rule, levelRule]
    split
    · rfl
    · by_cases hu : (m.symbol s).type = .unknown
      · simp [hu]
      · by_cases hb : (m.symbol s).type = .bool
        · simp only [hb]
          cases (m.symbol s).choice with
          | some c => simp
          | none => simp [plainLevel_result]
        · simp [hu, hb]
  · rfl

/-- Leaving out the questions of warnings leaves questions of the rule. -/
theorem valueRule_asked {q q' : Query} (h : q' ∈ (m.valueRule u q).asked v) :
    q' ∈ (m.rule u q).asked v := by
  unfold valueRule at h
  split at h
  · next s =>
    simp only [rule, levelRule]
    split at h
    · exact absurd h List.not_mem_nil
    · split at h
      · exact absurd h List.not_mem_nil
      · next hn hb =>
        have hb : (m.symbol s).type = .bool := by simpa using hb
        simp only [if_neg hn, hb]
        cases hc : (m.symbol s).choice with
        | some c => simpa [hc] using h
        | none =>
          simp only [hc, asked_bind] at h
          simp only [reduceCtorEq, if_false, ne_eq, not_true_eq_false, asked_bind]
          rcases List.mem_append.mp h with h | h
          · exact List.mem_append_left _ h
          · exact List.mem_append_right _ (plainLevel_asked h)
  · exact h

namespace Solves

theorem eq_value (hv : m.Solves u v) (q : Query) : v q = (m.valueRule u q).result v := by
  rw [valueRule_result]
  exact hv.eq_result q

/-- What holds of a question whenever it holds of those that its value hangs on holds of all. -/
theorem induct_value (hv : m.Solves u v) {P : Query → Prop}
    (h : ∀ q, (∀ q' ∈ (m.valueRule u q).asked v, P q') → P q) (q : Query) : P q :=
  hv.induct (fun q hq => h q fun q' hq' => hq q' (valueRule_asked hq')) q

end Solves

/-- The answer to a question is the one that the rule gives for a user's values. -/
def Obeys (m : Model) (u : UserValues) (v : Valuation) (q : Query) : Prop :=
  v q = (m.valueRule u q).result v

/-- Answers that obey the rules of a user are the answers that the rules give. -/
theorem Solves.eq_of_obeys {v' : Valuation} (hv : m.Solves u v) (h : ∀ q, m.Obeys u v' q) :
    v' = v := by
  funext q
  induction q using hv.induct_value with
  | h q ih => rw [h q, hv.eq_value q, (agree ih).1]

/-! ### Questions about what an item reads -/

/-- Questions about the items of a list. -/
def About (items : List Item) (q : Query) : Prop := q.item ∈ items

theorem About.mono {items items' : List Item} (h : ∀ i ∈ items, i ∈ items') (q : Query) :
    About items q → About items' q := h q.item

theorem numberOf_asks (i : Item) {items : List Item} (h : i ∈ items) :
    (m.numberOf i).AsksOnly (About items) := by
  unfold numberOf
  split
  · exact .bind (.level h) fun _ => .pure _
  · exact .bind (.text h) fun _ => .pure _

theorem textOrder_asks (a b : Item) : (textOrder a b).AsksOnly (About [a, b]) :=
  .bind (.text (List.mem_cons_self ..)) fun _ =>
    .bind (.text (List.mem_cons_of_mem _ (List.mem_cons_self ..))) fun _ => .pure _

theorem itemOrder_asks (a b : Item) : (m.itemOrder a b).AsksOnly (About [a, b]) := by
  unfold itemOrder
  refine .ite (textOrder_asks a b) (.bind (numberOf_asks a (List.mem_cons_self ..)) fun x => ?_)
  cases x with
  | none => exact textOrder_asks a b
  | some x =>
    refine .bind (numberOf_asks b (List.mem_cons_of_mem _ (List.mem_cons_self ..))) fun y => ?_
    cases y with
    | none => exact textOrder_asks a b
    | some y => exact .pure _

/-- An expression asks about its items. -/
theorem holds_asks (e : Expr) : (m.holds e).AsksOnly (About e.items) := by
  induction e with
  | item i => exact .level (List.mem_cons_self ..)
  | compare r a b => exact .bind (itemOrder_asks a b) fun _ => .pure _
  | not e ih => exact .bind ih fun _ => .pure _
  | and a b iha ihb =>
    have ha : (m.holds a).AsksOnly (About (Expr.and a b).items) :=
      iha.mono (About.mono fun i hi => List.mem_append_left _ hi)
    have hb : (m.holds b).AsksOnly (About (Expr.and a b).items) :=
      ihb.mono (About.mono fun i hi => List.mem_append_right _ hi)
    exact .bind ha fun _ => .ite hb (.pure _)
  | or a b iha ihb =>
    have ha : (m.holds a).AsksOnly (About (Expr.or a b).items) :=
      iha.mono (About.mono fun i hi => List.mem_append_left _ hi)
    have hb : (m.holds b).AsksOnly (About (Expr.or a b).items) :=
      ihb.mono (About.mono fun i hi => List.mem_append_right _ hi)
    exact .bind ha fun _ => .ite (.pure _) hb

theorem holds_asks_in {e : Expr} {items : List Item} (h : ∀ i ∈ e.items, i ∈ items) :
    (m.holds e).AsksOnly (About items) := (holds_asks e).mono (About.mono h)

/-- The first active property is one of the list, and its condition holds. -/
theorem firstActive_result {α : Type} : ∀ {ps : List (Guarded α)} {p : Guarded α},
    (m.firstActive ps).result v = some p → p ∈ ps ∧ (m.holds p.cond).result v = true
  | [], _, h => nomatch h
  | p' :: ps, p, h => by
    simp only [firstActive, result_bind, result_ite, result_pure] at h
    split at h
    · next hp =>
      obtain rfl := Option.some.inj h
      exact ⟨List.mem_cons_self .., hp⟩
    · obtain ⟨hmem, hp⟩ := firstActive_result h
      exact ⟨List.mem_cons_of_mem _ hmem, hp⟩

/-- Looking for an active property asks about the conditions, and then whatever is asked with one of
the properties at hand, or with none. -/
theorem firstActive_bind_asks {α β : Type} {ps : List (Guarded α)}
    {f : Option (Guarded α) → Plan β}
    (hconds : ∀ p ∈ ps, (m.holds p.cond).AsksOnly P) (hnone : (f none).AsksOnly P)
    (hsome : ∀ p ∈ ps, (f (some p)).AsksOnly P) : (m.firstActive ps >>= f).AsksOnly P := by
  have hfirst : ∀ ps' : List (Guarded α), (∀ p ∈ ps', p ∈ ps) →
      (m.firstActive ps').AsksOnly P := by
    intro ps' hps'
    induction ps' with
    | nil => exact .pure _
    | cons p ps' ih =>
      refine .bind (hconds p (hps' p (List.mem_cons_self ..))) fun _ => ?_
      exact .ite (.pure _) (ih fun p' hp' => hps' p' (List.mem_cons_of_mem _ hp'))
  intro v q hq
  rw [asked_bind] at hq
  rcases List.mem_append.mp hq with hq | hq
  · exact hfirst ps (fun _ h => h) v q hq
  · cases hp : (m.firstActive ps).result v with
    | none =>
      rw [hp] at hq
      exact hnone v q hq
    | some p =>
      rw [hp] at hq
      exact hsome p (firstActive_result hp).1 v q hq

theorem anyHolds_asks {items : List Item} : ∀ {es : List Expr},
    (∀ e ∈ es, ∀ i ∈ e.items, i ∈ items) → (m.anyHolds es).AsksOnly (About items)
  | [], _ => .pure _
  | e :: _, h =>
    .bind (holds_asks_in (h e (List.mem_cons_self ..))) fun _ =>
      .bind (anyHolds_asks fun e' he' => h e' (List.mem_cons_of_mem _ he')) fun _ => .pure _

theorem anyHolds_result : ∀ {es : List Expr}, (m.anyHolds es).result v = true →
    ∃ e ∈ es, (m.holds e).result v = true
  | [], h => nomatch h
  | e :: es, h => by
    simp only [anyHolds, result_bind, result_pure, Bool.or_eq_true] at h
    rcases h with h | h
    · exact ⟨e, List.mem_cons_self .., h⟩
    · obtain ⟨e', hmem, he'⟩ := anyHolds_result h
      exact ⟨e', List.mem_cons_of_mem _ hmem, he'⟩

theorem visibility_asks (i : Item) : (m.visibility i).AsksOnly (About (m.reads i)) := by
  refine anyHolds_asks fun e he j hj => List.mem_append_left _ ?_
  exact List.mem_flatMap.mpr ⟨e, he, hj⟩

/-- A symbol without a prompt is not visible, whatever is answered. -/
theorem visibility_of_promptless (v : Valuation) {s : SymbolId}
    (h : ((m.symbol s).nodes.any fun n => (m.node n).prompt.isSome) = false) :
    (m.visibility (.symbol s)).result v = false := by
  refine Bool.eq_false_iff.mpr fun hvisible => ?_
  obtain ⟨e, he, -⟩ := anyHolds_result hvisible
  obtain ⟨n, hn, hprompt⟩ := List.mem_filterMap.mp he
  obtain ⟨p, hp, -⟩ := Option.map_eq_some_iff.mp hprompt
  have hsome : (m.node n).prompt.isSome = true := by
    rw [hp]
    rfl
  exact List.any_eq_false.mp h n hn hsome

theorem Solves.hidden_of_promptless (hv : m.Solves u v) {s : SymbolId}
    (h : ((m.symbol s).nodes.any fun n => (m.node n).prompt.isSome) = false) :
    v (.visible (.symbol s)) = false :=
  (hv.eq_result _).trans (visibility_of_promptless v h)

/-- The text of a bool is that of a level. -/
theorem Solves.level_text (hv : m.Solves u v) {s : SymbolId}
    (htype : (m.symbol s).type = .bool) :
    (v (.text (.symbol s))).value = "n" ∨ (v (.text (.symbol s))).value = "y" := by
  rw [hv.eq_result (.text (.symbol s))]
  simp only [rule, textRule, htype, result_ask, result_pure]
  cases (v (.level (.symbol s))).value
  · exact .inl rfl
  · exact .inr rfl

/-- A symbol without a type is not written. -/
theorem Solves.unwritten_of_unknown (hv : m.Solves u v) {s : SymbolId}
    (htype : (m.symbol s).type = .unknown) : (v (.text (.symbol s))).isWritten = false := by
  rw [hv.eq_result (.text (.symbol s))]
  simp [rule, textRule, htype]

section SymbolReads
variable {s : SymbolId}

/-- The parts of a symbol that its value is made from are among what it reads. -/
theorem mem_reads_symbol {i : Item}
    (h : (∃ p ∈ (m.symbol s).defaults, i ∈ p.value.items ++ p.cond.items) ∨
      i ∈ (m.symbol s).revDep.items ∨ i ∈ (m.symbol s).weakRevDep.items ∨
      (∃ p ∈ (m.symbol s).ranges, i ∈ Item.symbol p.value.low :: .symbol p.value.high ::
        p.cond.items) ∨
      i ∈ (m.symbol s).directDep.items) : i ∈ m.reads (.symbol s) := by
  refine List.mem_append_right _ ?_
  simp only [List.mem_append, List.mem_flatMap, or_assoc]
  simpa only [List.mem_append] using h

theorem activeRange_asks : (m.activeRange s).AsksOnly (About (m.reads (.symbol s))) := by
  have hrange : ∀ p ∈ (m.symbol s).ranges, ∀ i ∈ Item.symbol p.value.low ::
      .symbol p.value.high :: p.cond.items, i ∈ m.reads (.symbol s) :=
    fun p hp i hi => mem_reads_symbol <| .inr <| .inr <| .inr <| .inl ⟨p, hp, hi⟩
  refine firstActive_bind_asks (fun p hp => ?_) (.pure _) fun p hp => ?_
  · exact holds_asks_in fun i hi => hrange p hp i <|
      List.mem_cons_of_mem _ (List.mem_cons_of_mem _ hi)
  · have hlow := hrange p hp _ (List.mem_cons_self ..)
    have hhigh := hrange p hp _ (List.mem_cons_of_mem _ (List.mem_cons_self ..))
    exact .bind (.text hlow) fun _ => .bind (.text hhigh) fun _ => .pure _

theorem mem_reads_default {p : Guarded Expr} (hp : p ∈ (m.symbol s).defaults) {i : Item}
    (hi : i ∈ p.value.items ++ p.cond.items) : i ∈ m.reads (.symbol s) :=
  mem_reads_symbol <| .inl ⟨p, hp, hi⟩

/-- Looking for the default that holds asks about what the symbol reads. -/
theorem defaults_bind_asks {β : Type} {f : Option (Guarded Expr) → Plan β}
    (hnone : (f none).AsksOnly (About (m.reads (.symbol s))))
    (hsome : ∀ p ∈ (m.symbol s).defaults, (f (some p)).AsksOnly (About (m.reads (.symbol s)))) :
    (m.firstActive (m.symbol s).defaults >>= f).AsksOnly (About (m.reads (.symbol s))) := by
  refine firstActive_bind_asks (fun p hp => ?_) hnone hsome
  exact holds_asks_in fun i hi => mem_reads_default hp (List.mem_append_right _ hi)

theorem activeDefault_asks : (m.activeDefault s).AsksOnly (About (m.reads (.symbol s))) := by
  refine defaults_bind_asks (.pure _) fun p hp => ?_
  obtain ⟨value, cond⟩ := p
  cases value with
  | item i =>
    refine .bind (.text ?_) fun _ => .pure _
    exact mem_reads_default hp (List.mem_append_left _ (List.mem_cons_self ..))
  | _ => exact .pure _

theorem defaultNumber_asks (range : Option (Int × Int)) (isVisible : Bool) :
    (m.defaultNumber s range isVisible).AsksOnly (About (m.reads (.symbol s))) := by
  refine .bind activeDefault_asks fun default => ?_
  dsimp only
  split
  · exact .pure _
  · split
    · exact .bind (.tell _) fun _ => .pure _
    · exact .pure _

theorem userNumber_asks (range : Option (Int × Int)) (given : String) :
    (m.userNumber s range given).AsksOnly P := by
  unfold userNumber
  dsimp only
  split
  · exact .pure _
  · exact .ite (.pure _) (.bind (.tell _) fun _ => .pure _)

end SymbolReads

/-! ### Questions that a value hangs on -/

/-- Simpler questions about the item of a question, and questions about what the item reads. -/
def Near (m : Model) (q q' : Query) : Prop :=
  q'.item = q.item ∧ q'.rank < q.rank ∨ q'.item ∈ m.reads q.item

theorem near_of_about {q : Query} {i : Item} (hi : i = q.item) (q' : Query)
    (h : About (m.reads i) q') : m.Near q q' := .inr (hi ▸ h)

theorem holds_near {q : Query} {e : Expr} (h : ∀ j ∈ e.items, j ∈ m.reads q.item) :
    (m.holds e).AsksOnly (m.Near q) := (holds_asks_in h).mono (near_of_about rfl)

theorem near_visible {q : Query} (h : 0 < q.rank) : m.Near q (.visible q.item) := .inl ⟨rfl, h⟩

theorem near_level {q : Query} (h : 1 < q.rank) : m.Near q (.level q.item) := .inl ⟨rfl, h⟩

theorem numberText_near (s : SymbolId) :
    (m.numberText u s).AsksOnly (m.Near (.text (.symbol s))) := by
  refine .bind (.visible (near_visible Nat.two_pos)) fun isVisible => ?_
  refine .bind (activeRange_asks.mono (near_of_about rfl)) fun range => ?_
  have hdefault : (m.defaultNumber s range isVisible).AsksOnly (m.Near (.text (.symbol s))) :=
    (defaultNumber_asks range isVisible).mono (near_of_about rfl)
  dsimp only
  split
  · refine .bind (userNumber_asks range _) fun kept => ?_
    cases kept with
    | none => exact hdefault
    | some kept => exact .pure _
  · exact hdefault

theorem stringText_near (s : SymbolId) :
    (m.stringText u s).AsksOnly (m.Near (.text (.symbol s))) := by
  refine .bind (.visible (near_visible Nat.two_pos)) fun isVisible => ?_
  split
  · exact .pure _
  · refine .bind (activeDefault_asks.mono (near_of_about rfl)) fun default => ?_
    cases default <;> exact .pure _

theorem textRule_near (i : Item) : (m.textRule u i).AsksOnly (m.Near (.text i)) := by
  unfold textRule
  split
  · exact .ask (near_level Nat.one_lt_two) fun _ => .pure _
  · split
    · exact .ask (near_level Nat.one_lt_two) fun _ => .pure _
    · exact .pure _
    · exact .bind (stringText_near _) fun _ => .pure _
    · exact .bind (numberText_near _) fun _ => .pure _
    · exact .bind (numberText_near _) fun _ => .pure _

theorem ownLevel_near (s : SymbolId) (isVisible : Bool) :
    (m.ownLevel u s isVisible).AsksOnly (m.Near (.level (.symbol s))) := by
  have hweak : (m.holds (m.symbol s).weakRevDep).AsksOnly (About (m.reads (.symbol s))) :=
    holds_asks_in fun i hi => mem_reads_symbol (.inr (.inr (.inl hi)))
  have hdirect : (m.holds (m.symbol s).directDep).AsksOnly (About (m.reads (.symbol s))) :=
    holds_asks_in fun i hi => mem_reads_symbol (.inr (.inr (.inr (.inr hi))))
  unfold ownLevel
  dsimp only
  split
  · exact .pure _
  · refine AsksOnly.mono (defaults_bind_asks ?_ fun p hp => ?_) (near_of_about rfl)
    · exact .bind (.pure _) fun _ => .bind hweak fun _ =>
        .ite (.bind hdirect fun _ => .ite (.pure _) (.pure _)) (.pure _)
    · refine .bind (holds_asks_in fun i hi => mem_reads_default hp ?_) fun _ =>
        .bind hweak fun _ => .ite (.bind hdirect fun _ => .ite (.pure _) (.pure _)) (.pure _)
      exact List.mem_append_left _ hi

theorem plainLevel_near (s : SymbolId) (isVisible : Bool) :
    (m.plainLevel u s isVisible).AsksOnly (m.Near (.level (.symbol s))) := by
  refine .bind (ownLevel_near s isVisible) fun own => ?_
  refine .bind (holds_near fun i hi => mem_reads_symbol (.inr (.inl hi))) fun _ => ?_
  exact .ite (.pure _) (.pure _)

theorem assignableRule_near (i : Item) :
    (m.assignableRule i).AsksOnly (m.Near (.assignable i)) := by
  unfold assignableRule
  split
  · exact .bind (.visible (near_visible Nat.two_pos)) fun _ => .pure _
  · next s =>
    refine .ite (.pure _) (.bind (.visible (near_visible Nat.two_pos)) fun isVisible => ?_)
    split
    · exact .bind (holds_near fun i hi => mem_reads_symbol (.inr (.inl hi))) fun _ => .pure _
    · exact .pure _

/-- A value hangs on its own item and on what that reads, but for the selection of a choice and the
level of a visible member. -/
theorem valueRule_near {q q' : Query} (hselection : ∀ c, q ≠ .selection c)
    (hmember : ∀ s c, q = .level (.symbol s) → (m.symbol s).choice = some c →
      v (.visible (.symbol s)) = false)
    (hq' : q' ∈ (m.valueRule u q).asked v) : m.Near q q' := by
  cases q with
  | selection c => exact absurd rfl (hselection c)
  | visible i => exact .inr (visibility_asks i v q' hq')
  | text i => exact textRule_near i v q' hq'
  | assignable i => exact assignableRule_near i v q' hq'
  | level i =>
    cases i with
    | choice c =>
      have hnear : m.Near (.level (.choice c)) (.visible (.choice c)) := near_visible Nat.one_pos
      exact AsksOnly.bind (.visible hnear) (fun _ => .pure _) v q' hq'
    | symbol s =>
      rw [valueRule] at hq'
      split at hq'
      · exact absurd hq' List.not_mem_nil
      · split at hq'
        · exact absurd hq' List.not_mem_nil
        · rw [asked_bind, asked_visible, result_visible] at hq'
          rcases List.mem_append.mp hq' with hq' | hq'
          · obtain rfl := List.mem_singleton.mp hq'
            exact near_visible (q := .level (.symbol s)) Nat.one_pos
          · cases hc : (m.symbol s).choice with
            | some c =>
              rw [hmember s c rfl hc] at hq'
              simp [hc, memberLevel] at hq'
            | none =>
              rw [hc] at hq'
              exact plainLevel_near s _ v q' hq'

/-- The symbols that a choice may select: the user's selection, defaults and members. -/
def MaySelect (m : Model) (u : UserValues) (c : ChoiceId) (s : SymbolId) : Prop :=
  u.selection c = some s ∨ (∃ p ∈ (m.choice c).defaults, p.value = .symbol s) ∨
    s ∈ (m.choice c).members

/-- Questions that the selection of a choice hangs on: about the choice and what it reads, and
whether the symbols that it may select are visible. -/
def OfSelection (m : Model) (u : UserValues) (c : ChoiceId) (q : Query) : Prop :=
  m.Near (.selection c) q ∨ ∃ s, q = .visible (.symbol s) ∧ m.MaySelect u c s

theorem defaultSelection_asks {c : ChoiceId} : ∀ {ps : List (Guarded Expr)},
    (∀ p ∈ ps, p ∈ (m.choice c).defaults) →
    (m.defaultSelection ps).AsksOnly (m.OfSelection u c)
  | [], _ => .pure _
  | p :: ps, h => by
    have hrest := defaultSelection_asks (c := c) fun p' hp' => h p' (List.mem_cons_of_mem _ hp')
    have hp := h p (List.mem_cons_self ..)
    have hcond : (m.holds p.cond).AsksOnly (m.OfSelection u c) := by
      refine (holds_near fun i hi => List.mem_append_right _ ?_).mono fun q hq => .inl hq
      exact List.mem_flatMap.mpr ⟨p, hp, hi⟩
    unfold defaultSelection
    split
    · next s hs =>
      refine .bind hcond fun _ => .ite (.bind (.visible ?_) fun _ => .ite (.pure _) hrest) hrest
      exact .inr ⟨s, rfl, .inr (.inl ⟨p, hp, hs⟩)⟩
    · exact hrest

theorem firstVisible_asks {c : ChoiceId} : ∀ {ss : List SymbolId},
    (∀ s ∈ ss, s ∈ (m.choice c).members) → (firstVisible ss).AsksOnly (m.OfSelection u c)
  | [], _ => .pure _
  | s :: ss, h => by
    have hrest := firstVisible_asks (c := c) fun s' hs' => h s' (List.mem_cons_of_mem _ hs')
    refine .bind (.visible (.inr ⟨s, rfl, .inr (.inr (h s (List.mem_cons_self ..)))⟩)) fun _ => ?_
    exact .ite (.pure _) hrest

theorem ownSelection_asks (c : ChoiceId) :
    (m.ownSelection c).AsksOnly (m.OfSelection u c) := by
  refine .bind (defaultSelection_asks fun _ h => h) fun chosen => ?_
  cases chosen with
  | none => exact firstVisible_asks fun _ h => h
  | some s => exact .pure _

/-- The selection of a choice hangs on nothing else. -/
theorem selectionRule_asks (c : ChoiceId) :
    (m.selectionRule u c).AsksOnly (m.OfSelection u c) := by
  refine .bind (.level (.inl (near_level Nat.one_lt_two))) fun level => ?_
  split
  · split
    · next s hs =>
      refine .bind (.visible (.inr ⟨s, rfl, .inl hs⟩)) fun _ => ?_
      exact .ite (.pure _) (ownSelection_asks c)
    · exact ownSelection_asks c
  · exact .pure _

/-- The level of a member hangs on its visibility and, when it is visible, on the selection. -/
theorem memberLevel_asked {s : SymbolId} {c : ChoiceId} {isVisible : Bool} {q : Query}
    (h : q ∈ (memberLevel s c isVisible).asked v) : isVisible = true ∧ q = .selection c := by
  unfold memberLevel at h
  split at h
  · next hvisible =>
    simp only [asked_bind, asked_selection, asked_pure, List.append_nil, List.mem_singleton] at h
    exact ⟨hvisible, h⟩
  · exact absurd h List.not_mem_nil

end Model
end Kconfig
