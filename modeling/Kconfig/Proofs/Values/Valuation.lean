import Kconfig.Proofs.Lists
import Kconfig.Proofs.Values.Plan
/-!
The values that user values give.

Values terminate when every question is answered at some depth. Then one valuation gives all the
answers, it is the fixed point of the rules, and whatever is proved of an answer from the questions
that its rule asks holds of every answer. The depth that evaluation allows for is never too small:
every level of it answers a question that the levels below do not, and there are fewer questions
about the items of a model than levels.
-/
namespace Kconfig

/-- How far the questions about an item build on each other. -/
def Query.rank : Query → Nat
  | .visible _ => 0
  | .level _ => 1
  | .text _ | .assignable _ | .selection _ => 2

theorem Query.rank_le (q : Query) : q.rank ≤ 2 := by
  cases q <;> simp [rank]

namespace Model

/-- Every question has an answer at some depth. -/
def Terminates (m : Model) (u : UserValues) : Prop :=
  ∀ q, ∃ depth, (recomputeAt m u depth q).isSome

/-- The valuation gives every question the answer that the rules give. -/
def Solves (m : Model) (u : UserValues) (v : Valuation) : Prop :=
  ∀ q, ∃ depth, recomputeAt m u depth q = some (v q)

variable {m : Model} {u : UserValues} {v : Valuation} {q q' : Query}

theorem recomputeAt_succ {depth : Nat} {q : Query} {a : q.Answer}
    (h : recomputeAt m u depth q = some a) : recomputeAt m u (depth + 1) q = some a := by
  induction depth generalizing q with
  | zero => exact absurd h (by simp [recomputeAt])
  | succ depth ih => exact Plan.run_mono (fun _ _ => ih) h

theorem recomputeAt_le {depth depth' : Nat} (hle : depth ≤ depth') {q : Query} {a : q.Answer}
    (h : recomputeAt m u depth q = some a) : recomputeAt m u depth' q = some a := by
  induction hle with
  | refl => exact h
  | step _ ih => exact recomputeAt_succ ih

theorem Terminates.solution (h : m.Terminates u) : ∃ v, m.Solves u v := by
  obtain ⟨depth, hdepth⟩ := Classical.axiomOfChoice h
  exact ⟨fun q => (recomputeAt m u (depth q) q).get (hdepth q),
    fun q => ⟨depth q, (Option.some_get (hdepth q)).symm⟩⟩

namespace Solves

/-- Answers do not hang on the depth at which they are found. -/
theorem eq_of_recomputeAt (hv : m.Solves u v) {depth : Nat} {q : Query} {a : q.Answer}
    (h : recomputeAt m u depth q = some a) : a = v q := by
  obtain ⟨depth', h'⟩ := hv q
  have h₁ := recomputeAt_le (Nat.le_max_left depth depth') h
  have h₂ := recomputeAt_le (Nat.le_max_right depth depth') h'
  exact Option.some.inj (h₁.symm.trans h₂)

/-- A question is answered one level above the questions that its rule asks. -/
theorem recomputeAt_succ_iff (hv : m.Solves u v) {depth : Nat} {q : Query} :
    recomputeAt m u (depth + 1) q = some (v q) ↔
      ∀ q' ∈ (m.rule u q).asked v, recomputeAt m u depth q' = some (v q') := by
  have hknown : ∀ q a, recomputeAt m u depth q = some a → a = v q := fun _ _ =>
    hv.eq_of_recomputeAt
  constructor
  · intro h
    exact ((Plan.run_eq_some_iff hknown).mp h).1
  · intro h
    have hres : recomputeAt m u (depth + 1) q = some ((m.rule u q).result v) :=
      (Plan.run_eq_some_iff hknown).mpr ⟨h, rfl⟩
    rw [hres, hv.eq_of_recomputeAt hres]

/-- The valuation is a fixed point of the rules. -/
theorem eq_result (hv : m.Solves u v) (q : Query) : v q = (m.rule u q).result v := by
  obtain ⟨depth, h⟩ := hv q
  have h := recomputeAt_succ h
  exact ((Plan.run_eq_some_iff fun q a => hv.eq_of_recomputeAt).mp h).2

/-- What holds of a question whenever it holds of those that its rule asks holds of all. -/
theorem induct (hv : m.Solves u v) {P : Query → Prop}
    (h : ∀ q, (∀ q' ∈ (m.rule u q).asked v, P q') → P q) (q : Query) : P q := by
  obtain ⟨depth, hq⟩ := hv q
  induction depth generalizing q with
  | zero => exact absurd hq (by simp [recomputeAt])
  | succ depth ih =>
    exact h q fun q' hq' => ih q' (hv.recomputeAt_succ_iff.mp hq q' hq')

theorem unique {v' : Valuation} (hv : m.Solves u v) (hv' : m.Solves u v') : v' = v := by
  funext q
  obtain ⟨depth, h⟩ := hv' q
  exact hv.eq_of_recomputeAt h

end Solves

/-! ### Items whose values never change -/

/-- The item has no node, and is no symbol with a type of its own: its values never change. -/
def Fixed (m : Model) : Item → Prop
  | .symbol s => (m.symbol s).nodes = [] ∧
      ((m.symbol s).type = .unknown ∨ (m.symbol s).type = .bool ∧ (s = noId ∨ s = yesId))
  | .choice c => (m.choice c).nodes = []

/-- The answers about items whose values never change. -/
def fixedAnswer (m : Model) : (q : Query) → q.Answer
  | .text (.symbol s) =>
    ⟨if (m.symbol s).type = .bool then levelWord (s = yesId) else (m.symbol s).name, false⟩
  | .text (.choice _) => ⟨levelWord false, false⟩
  | .level (.symbol s) => ⟨s = yesId, false⟩
  | .level (.choice _) => ⟨false, false⟩
  | .visible _ => false
  | .assignable _ => []
  | .selection _ => none

theorem itemNodes_of_fixed {i : Item} (h : m.Fixed i) : m.itemNodes i = [] := by
  cases i with
  | symbol s => exact h.1
  | choice c => exact h

theorem visibility_of_fixed {i : Item} (h : m.Fixed i) : m.visibility i = pure false := by
  rw [visibility, itemNodes_of_fixed h]
  rfl

theorem levelRule_of_fixed {s : SymbolId} (h : m.Fixed (.symbol s)) :
    m.levelRule u (.symbol s) = pure ⟨s = yesId, false⟩ := by
  obtain ⟨-, ht | ⟨-, hs⟩⟩ := h
  · by_cases hs : s = noId ∨ s = yesId
    · simp [levelRule, hs]
    · have hy : s ≠ yesId := fun h => hs (Or.inr h)
      simp [levelRule, ht, hy]
  · simp [levelRule, hs]

/-- The valuation gives the answers about such items. -/
def Fixes (m : Model) (v : Valuation) : Prop := ∀ q, m.Fixed q.item → v q = m.fixedAnswer q

/-- An answer about an item that never changes is known as soon as its visibility and level are. -/
theorem result_of_fixed (hq : m.Fixed q.item) (hvisible : v (.visible q.item) = false)
    (hlevel : v (.level q.item) = m.fixedAnswer (.level q.item)) :
    (m.rule u q).result v = m.fixedAnswer q := by
  cases q with
  | visible i =>
    show (m.visibility i).result v = false
    rw [visibility_of_fixed (i := i) hq]
    rfl
  | selection c =>
    have hlevel : v (.level (.choice c)) = ⟨false, false⟩ := hlevel
    simp [rule, selectionRule, hlevel, fixedAnswer]
  | level i =>
    cases i with
    | choice c =>
      have hvisible : v (.visible (.choice c)) = false := hvisible
      simp [rule, levelRule, hvisible, fixedAnswer]
    | symbol s =>
      show (m.levelRule u (.symbol s)).result v = _
      rw [levelRule_of_fixed hq]
      rfl
  | text i =>
    cases i with
    | choice c =>
      have hlevel : v (.level (.choice c)) = ⟨false, false⟩ := hlevel
      simp [rule, textRule, hlevel, fixedAnswer]
    | symbol s =>
      have hlevel : v (.level (.symbol s)) = ⟨s = yesId, false⟩ := hlevel
      rcases hq.2 with ht | ⟨ht, -⟩
      · simp [rule, textRule, ht, fixedAnswer]
      · simp [rule, textRule, ht, hlevel, fixedAnswer]
  | assignable i =>
    have hvisible : v (.visible i) = false := hvisible
    cases i with
    | choice c => simp [rule, assignableRule, hvisible, fixedAnswer]
    | symbol s => simp [rule, assignableRule, hvisible, fixedAnswer]

theorem Fixes.result (hv : m.Fixes v) (hq : m.Fixed q.item) :
    (m.rule u q).result v = m.fixedAnswer q :=
  result_of_fixed hq (hv (.visible q.item) hq) (hv (.level q.item) hq)

/-- The rules for an item that never changes ask nothing but simpler questions about it. -/
theorem asked_of_fixed (hv : m.Fixes v) (hq : m.Fixed q.item) (h : q' ∈ (m.rule u q).asked v) :
    q'.item = q.item ∧ q'.rank < q.rank := by
  have hlevel := hv (.level q.item) hq
  cases q with
  | visible i =>
    rw [rule, visibility_of_fixed (i := i) hq] at h
    exact absurd h List.not_mem_nil
  | selection c =>
    have hlevel : v (.level (.choice c)) = ⟨false, false⟩ := hlevel
    obtain rfl : q' = .level (.choice c) := by simpa [rule, selectionRule, hlevel] using h
    exact ⟨rfl, Nat.lt_succ_self 1⟩
  | level i =>
    cases i with
    | choice c =>
      obtain rfl : q' = .visible (.choice c) := by simpa [rule, levelRule] using h
      exact ⟨rfl, Nat.one_pos⟩
    | symbol s =>
      rw [rule, levelRule_of_fixed hq] at h
      exact absurd h List.not_mem_nil
  | text i =>
    cases i with
    | choice c =>
      obtain rfl : q' = .level (.choice c) := by simpa [rule, textRule] using h
      exact ⟨rfl, Nat.lt_succ_self 1⟩
    | symbol s =>
      rcases hq.2 with ht | ⟨ht, -⟩
      · simp [rule, textRule, ht] at h
      · obtain rfl : q' = .level (.symbol s) := by simpa [rule, textRule, ht] using h
        exact ⟨rfl, Nat.lt_succ_self 1⟩
  | assignable i =>
    cases i with
    | choice c =>
      obtain rfl : q' = .visible (.choice c) := by simpa [rule, assignableRule] using h
      exact ⟨rfl, Nat.two_pos⟩
    | symbol s =>
      have hvisible : v (.visible (.symbol s)) = false := hv (.visible (.symbol s)) hq
      rcases hq.2 with ht | ⟨ht, -⟩
      · simp [rule, assignableRule, ht] at h
      · obtain rfl : q' = .visible (.symbol s) := by
          simpa [rule, assignableRule, ht, hvisible] using h
        exact ⟨rfl, Nat.two_pos⟩

/-- Questions about such items are answered at once. -/
theorem recomputeAt_of_rank_lt : ∀ {depth : Nat} {q : Query}, m.Fixed q.item → q.rank < depth →
    recomputeAt m u depth q = some (m.fixedAnswer q)
  | depth + 1, q, hq, hrank => by
    have hfixes : m.Fixes m.fixedAnswer := fun _ _ => rfl
    rw [recomputeAt, ← hfixes.result (u := u) hq]
    refine Plan.run_of_asked fun q' hq' => ?_
    obtain ⟨hitem, hless⟩ := asked_of_fixed hfixes hq hq'
    exact recomputeAt_of_rank_lt (hitem ▸ hq) (Nat.lt_of_lt_of_le hless (Nat.le_of_lt_succ hrank))

theorem recomputeAt_of_fixed {q : Query} (h : m.Fixed q.item) :
    recomputeAt m u 3 q = some (m.fixedAnswer q) :=
  recomputeAt_of_rank_lt h (Nat.lt_succ_of_le q.rank_le)

/-- Whatever the user gives, the answers about such items are the same. -/
theorem Solves.fixes (hv : m.Solves u v) : m.Fixes v := fun _ h =>
  (hv.eq_of_recomputeAt (recomputeAt_of_fixed h)).symm

theorem Solves.eq_of_fixed (hv : m.Solves u v) {q : Query} (h : m.Fixed q.item) :
    v q = m.fixedAnswer q := hv.fixes q h

/-! ### The depth that evaluation allows for -/

/-- The questions about the symbols and choices of a model. -/
def queries (m : Model) : List Query :=
  (List.range m.symbols.size).flatMap (fun s => let i := Item.symbol s
    [.text i, .level i, .visible i, .assignable i]) ++
  (List.range m.choices.size).flatMap (fun c => let i := Item.choice c
    [.text i, .level i, .visible i, .assignable i, .selection c])

theorem length_queries_le (m : Model) :
    m.queries.length ≤ 5 * (m.symbols.size + m.choices.size) := by
  simp only [queries, List.length_append, List.length_flatMap, List.length_cons, List.length_nil,
    List.map_const', List.sum_replicate_nat, List.length_range]
  omega

theorem symbol_of_size_le {s : SymbolId} (h : m.symbols.size ≤ s) : m.symbol s = default := by
  rw [Model.symbol, Array.getElem?_eq_none h]
  rfl

theorem choice_of_size_le {c : ChoiceId} (h : m.choices.size ≤ c) : m.choice c = default := by
  rw [Model.choice, Array.getElem?_eq_none h]
  rfl

theorem mem_queries_symbol {s : SymbolId} (h : s < m.symbols.size) :
    Query.text (.symbol s) ∈ m.queries ∧ Query.level (.symbol s) ∈ m.queries ∧
      Query.visible (.symbol s) ∈ m.queries ∧ Query.assignable (.symbol s) ∈ m.queries := by
  simp [queries, h]

theorem mem_queries_choice {c : ChoiceId} (h : c < m.choices.size) :
    Query.text (.choice c) ∈ m.queries ∧ Query.level (.choice c) ∈ m.queries ∧
      Query.visible (.choice c) ∈ m.queries ∧ Query.assignable (.choice c) ∈ m.queries ∧
      Query.selection c ∈ m.queries := by
  simp [queries, h]

theorem fixed_of_size_le {s : SymbolId} (h : m.symbols.size ≤ s) : m.Fixed (.symbol s) := by
  rw [Fixed, symbol_of_size_le h]
  exact ⟨rfl, Or.inl rfl⟩

theorem fixed_choice_of_size_le {c : ChoiceId} (h : m.choices.size ≤ c) :
    m.Fixed (.choice c) := by
  rw [Fixed, choice_of_size_le h]
  rfl

theorem mem_queries_of_not_fixed {q : Query} (h : ¬ m.Fixed q.item) : q ∈ m.queries := by
  have hsymbol : ∀ s, ¬ m.Fixed (.symbol s) → s < m.symbols.size := fun s hs =>
    Nat.lt_of_not_le fun hle => hs (fixed_of_size_le hle)
  have hchoice : ∀ c, ¬ m.Fixed (.choice c) → c < m.choices.size := fun c hc =>
    Nat.lt_of_not_le fun hle => hc (fixed_choice_of_size_le hle)
  rcases q with (s | c) | (s | c) | (s | c) | (s | c) | c
  · exact (mem_queries_symbol (hsymbol s h)).1
  · exact (mem_queries_choice (hchoice c h)).1
  · exact (mem_queries_symbol (hsymbol s h)).2.1
  · exact (mem_queries_choice (hchoice c h)).2.1
  · exact (mem_queries_symbol (hsymbol s h)).2.2.1
  · exact (mem_queries_choice (hchoice c h)).2.2.1
  · exact (mem_queries_symbol (hsymbol s h)).2.2.2
  · exact (mem_queries_choice (hchoice c h)).2.2.2.1
  · exact (mem_queries_choice (hchoice c h)).2.2.2.2

/-- Values terminate when every question about the items of the model is answered. -/
theorem Terminates.of_queries (h : ∀ q ∈ m.queries, (recompute m u q).isSome) :
    m.Terminates u := by
  intro q
  by_cases hfixed : m.Fixed q.item
  · exact ⟨3, by rw [recomputeAt_of_fixed hfixed]; rfl⟩
  · exact ⟨m.depthOfQueries, h q (mem_queries_of_not_fixed hfixed)⟩

/-- Answers that are found level by level: a level keeps what the one below it has and makes the rest
from that alone, and the third one has the answers about items that never change. -/
structure Levels (m : Model) (answer : Nat → (q : Query) → Option q.Answer) : Prop where
  keeps : ∀ depth q a, answer depth q = some a → answer (depth + 1) q = some a
  next : ∀ depth depth', answer depth = answer depth' → answer (depth + 1) = answer (depth' + 1)
  fixed : ∀ q, m.Fixed q.item → (answer 3 q).isSome

namespace Levels
variable {answer : Nat → (q : Query) → Option q.Answer} {depth depth' : Nat} {q : Query}

theorem keeps_le (h : m.Levels answer) (hle : depth ≤ depth') {a : q.Answer}
    (ha : answer depth q = some a) : answer depth' q = some a := by
  induction hle with
  | refl => exact ha
  | step _ ih => exact h.keeps _ q a ih

/-- A level that adds nothing is the last one. -/
theorem eq_of_last (h : m.Levels answer) (hlast : answer depth = answer (depth + 1))
    (hle : depth ≤ depth') : answer depth' = answer depth := by
  induction hle with
  | refl => rfl
  | step _ ih => exact (h.next _ _ ih).trans hlast.symm

/-- A level that adds something answers a new question about the items of the model. -/
theorem countP_lt (h : m.Levels answer) (hdepth : 3 ≤ depth)
    (hnew : answer depth ≠ answer (depth + 1)) :
    m.queries.countP (fun q => (answer depth q).isSome) <
      m.queries.countP (fun q => (answer (depth + 1) q).isSome) := by
  obtain ⟨q, hq⟩ : ∃ q, answer depth q ≠ answer (depth + 1) q :=
    Classical.byContradiction fun hno => hnew <| funext fun q =>
      Classical.byContradiction fun hq => hno ⟨q, hq⟩
  have hopen : answer depth q = none := by
    cases ha : answer depth q with
    | none => rfl
    | some a => exact absurd (ha.trans (h.keeps depth q a ha).symm) hq
  have hmem : q ∈ m.queries := by
    refine mem_queries_of_not_fixed fun hfixed => ?_
    obtain ⟨a, ha⟩ := Option.isSome_iff_exists.mp (h.fixed q hfixed)
    exact nomatch hopen.symm.trans (h.keeps_le hdepth ha)
  refine Lists.countP_lt (x := q) (fun q' hq' => ?_) ?_ ?_ m.queries hmem
  · obtain ⟨a, ha⟩ := Option.isSome_iff_exists.mp hq'
    rw [h.keeps depth q' a ha]
    rfl
  · rw [hopen]
    rfl
  · rw [hopen] at hq
    exact Option.isSome_iff_ne_none.mpr (Ne.symm hq)

/-- What any level answers is answered at the depth that evaluation allows for. -/
theorem bounded (h : m.Levels answer) {a : q.Answer} (ha : answer depth q = some a) :
    answer m.depthOfQueries q = some a := by
  have hsteps : ∀ n, answer (3 + n) = answer (3 + n + 1) ∨
      n ≤ m.queries.countP fun q => (answer (3 + n) q).isSome := by
    intro n
    induction n with
    | zero => exact .inr (Nat.zero_le _)
    | succ n ih =>
      by_cases hlast : answer (3 + n) = answer (3 + n + 1)
      · exact .inl (h.next _ _ hlast)
      · exact .inr (Nat.lt_of_le_of_lt (ih.resolve_left hlast)
          (h.countP_lt (Nat.le_add_right 3 n) hlast))
  let n := 5 * (m.symbols.size + m.choices.size) + 2
  have hdepth : 3 + n = m.depthOfQueries := by
    simp only [n, depthOfQueries]
    omega
  have hlast : answer m.depthOfQueries = answer (m.depthOfQueries + 1) := by
    rcases hsteps n with hlast | hcount
    · exact hdepth ▸ hlast
    · have hlength := m.length_queries_le
      have hle := Nat.le_trans hcount List.countP_le_length
      omega
  rcases Nat.le_total depth m.depthOfQueries with hle | hle
  · exact h.keeps_le hle ha
  · rw [← h.eq_of_last hlast hle]
    exact ha

end Levels

theorem levels_recomputeAt (m : Model) (u : UserValues) : m.Levels (recomputeAt m u) where
  keeps _ _ _ := recomputeAt_succ
  next _ _ h := by
    funext q
    rw [recomputeAt, recomputeAt, h]
  fixed q hq := by
    rw [recomputeAt_of_fixed hq]
    rfl

/-- Evaluation never runs out of depth: where values terminate, recomputing gives every answer. -/
theorem Solves.recompute_eq (hv : m.Solves u v) (q : Query) : recompute m u q = some (v q) := by
  obtain ⟨depth, h⟩ := hv q
  exact (m.levels_recomputeAt u).bounded h

theorem Terminates.recompute_isSome (h : m.Terminates u) (q : Query) :
    (recompute m u q).isSome := by
  obtain ⟨v, hv⟩ := h.solution
  rw [hv.recompute_eq q]
  rfl

end Model
end Kconfig
