import Kconfig.Proofs.Reading.Property
/-!
Expressions in groups, one list for each level of operators.

What a text starts with at a level is told by a relation, without saying how it is found: operands
of the level below stand between the signs of the level, and make one list. An expression is in
groups when these lists are taken. Going from level to level takes them, as every operand is shorter
than the text or of a tighter level.
-/
namespace Kconfig
open Grammar

/-- Whether operands are joined at a level by the signs between them. -/
def Grammar.Level.Joins (level : Level) : Prop :=
  level = .relation ∨ level = .conjunction ∨ level = .disjunction

instance (level : Level) : Decidable level.Joins := inferInstanceAs (Decidable (_ ∨ _ ∨ _))

/-- The list that a text starts with at a level, and the text after it. -/
inductive Groups : Level → List Char → List Nested → List Char → Prop
  | symbol {s t rest : List Char} : symbol? s = some (t, rest) → Groups .atom s [.text t] rest
  | parens {s inner after rest : List Char} {parts : List Nested} : symbol? s = none →
      sign? "(" s = some inner → Groups .disjunction inner parts after →
      sign? ")" after = some rest → Groups .atom s [grouped parts] rest
  | negated {s more rest : List Char} {parts : List Nested} : negation? s = some more →
      Groups .negation more parts rest →
      Groups .negation s [.group [.text ['!'], grouped parts]] rest
  | plain {s rest : List Char} {parts : List Nested} : negation? s = none →
      Groups .relation s parts rest → Groups .negation s [grouped parts] rest
  | last {level : Level} {s rest : List Char} {parts : List Nested} : level.Joins →
      Groups level.below s parts rest → level.sign? rest = none →
      Groups level s [grouped parts] rest
  | more {level : Level} {s after next rest sign : List Char} {parts parts' : List Nested} :
      level.Joins → Groups level.below s parts after →
      level.sign? after = some (sign, next) → Groups level next parts' rest →
      Groups level s (grouped parts :: .text sign :: parts') rest

/-- The expressions that are taken are the groups that texts start with. -/
def Infix.Groups (expression : Infix) : Prop :=
  ∀ s parts rest, Kconfig.Groups .disjunction s parts rest →
    expression s = some (grouped parts, rest)

namespace Grammar
variable {s rest t : List Char} {level : Level}

/-! ### What is taken is no empty text -/

theorem length_skip_le (s : List Char) : (skip s).length ≤ s.length :=
  (List.dropWhile_sublist isGap).length_le

theorem length_of_sign? {sign : String} (hsign : sign.length ≠ 0) (h : sign? sign s = some rest) :
    rest.length < s.length := by
  have hskip := length_skip_le s
  rw [sign?] at h
  split at h
  · next hstarts =>
    have hle := (List.isPrefixOf_iff_prefix.mp hstarts).length_le
    rw [String.length_toList] at hle
    cases h
    rw [List.length_drop]
    omega
  · exact nomatch h

theorem length_of_relation? {r : Relation} (h : relation? s = some (r, rest)) :
    rest.length < s.length := by
  have hskip := length_skip_le s
  unfold relation? at h
  split at h
  all_goals cases h
  all_goals
    next heq =>
    rw [heq] at hskip
    simp only [List.length_cons] at hskip
    omega

theorem length_of_negation? (h : negation? s = some rest) : rest.length < s.length := by
  have hskip := length_skip_le s
  unfold negation? at h
  split at h
  · exact nomatch h
  · next heq =>
    cases h
    rw [heq] at hskip
    exact hskip
  · exact nomatch h

theorem length_of_level_sign? (h : level.sign? s = some (t, rest)) : rest.length < s.length := by
  cases level with
  | atom | negation => exact nomatch h
  | relation =>
    obtain ⟨⟨r, rest'⟩, hrelation, h⟩ := Option.map_eq_some_iff.mp h
    cases h
    exact length_of_relation? hrelation
  | conjunction | disjunction =>
    obtain ⟨rest', hsign, h⟩ := Option.map_eq_some_iff.mp h
    cases h
    exact length_of_sign? (by decide) hsign

theorem length_of_body? {quote : Char} {b : List Char} (h : body? quote s = some (b, rest)) :
    rest.length < s.length := by
  fun_induction body? quote s generalizing b rest with
  | case1 => exact nomatch h
  | case2 s => exact nomatch h
  | case3 c s hc ih =>
    obtain ⟨⟨b', rest'⟩, hbody, h⟩ := Option.map_eq_some_iff.mp h
    cases h
    have hlt := ih hbody
    simp only [List.length_cons]
    omega
  | case4 s hnot =>
    cases h
    simp
  | case5 => exact nomatch h
  | case6 c s hnot hc hslash ih =>
    obtain ⟨⟨b', rest'⟩, hbody, h⟩ := Option.map_eq_some_iff.mp h
    cases h
    exact Nat.lt_of_lt_of_le (ih hbody) (by simp)

theorem length_of_symbol? (h : symbol? s = some (t, rest)) : rest.length < s.length := by
  have hskip := length_skip_le s
  unfold symbol? at h
  split at h
  · exact nomatch h
  · next c more heq =>
    rw [heq, List.length_cons] at hskip
    split at h
    · obtain ⟨⟨b, rest'⟩, hbody, h⟩ := Option.map_eq_some_iff.mp h
      cases h
      have hlt := length_of_body? hbody
      omega
    · dsimp only at h
      split at h
      · exact nomatch h
      · next hword =>
        cases h
        have hpos : ((c :: more).takeWhile isSymbolChar).length ≠ 0 := fun hnil =>
          hword (by simp [List.length_eq_zero_iff.mp hnil])
        rw [List.length_drop, List.length_cons]
        omega

theorem length_of_groups {parts : List Nested} (h : Groups level s parts rest) :
    rest.length < s.length := by
  induction h with
  | symbol hsymbol => exact length_of_symbol? hsymbol
  | parens _ hopening _ hclosing ih =>
    have h₁ := length_of_sign? (by decide) hopening
    have h₂ := length_of_sign? (by decide) hclosing
    omega
  | negated hnegation _ ih => exact Nat.lt_trans ih (length_of_negation? hnegation)
  | plain _ _ ih | last _ _ _ ih => exact ih
  | more _ _ hsign _ ih ih' =>
    have hlength := length_of_level_sign? hsign
    omega

/-! ### From level to level -/

/-- How many steps a level is above the tightest one. -/
def Level.height : Level → Nat
  | .atom => 1
  | .relation => 3
  | .negation => 4
  | .conjunction => 6
  | .disjunction => 8

theorem Level.Joins.height (h : level.Joins) : level.below.height + 2 = level.height := by
  rcases h with rfl | rfl | rfl <;> rfl

/-- With fuel for every character and every level, the list is found. -/
def Finds (level : Level) (s : List Char) (parts : List Nested) (rest : List Char) : Prop :=
  ∀ fuel, 8 * s.length + level.height ≤ fuel →
    groupAt fuel level s = some (grouped parts, rest) ∧
      (level.Joins → partsAt fuel level s = some (parts, rest))

section
variable {parts parts' : List Nested} {more after next : List Char} {fuel : Nat}

theorem groupAt_joins (hlevel : level.Joins) : groupAt (fuel + 1) level s =
    (partsAt fuel level s).map fun (parts, s) => (grouped parts, s) := by
  rcases hlevel with rfl | rfl | rfl <;> rw [groupAt] <;> exact nofun

/-- Where no operands are joined, it is enough to find one with one step less. -/
theorem finds_of_groupAt (hlevel : ¬ level.Joins)
    (h : ∀ fuel, 8 * s.length + level.height ≤ fuel + 1 →
      groupAt (fuel + 1) level s = some (grouped parts, rest)) : Finds level s parts rest := by
  intro fuel hfuel
  have hpos : 0 < level.height := by cases level <;> decide
  obtain ⟨fuel, rfl⟩ : ∃ f, fuel = f + 1 := Nat.exists_eq_add_one.mpr (by omega)
  exact ⟨h fuel hfuel, fun hjoins => absurd hjoins hlevel⟩

/-- Where a level joins, it is enough to find the list with one step less. -/
theorem finds_of_partsAt (hlevel : level.Joins)
    (h : ∀ fuel, 8 * s.length + level.height ≤ fuel + 1 →
      partsAt fuel level s = some (parts, rest)) : Finds level s parts rest := by
  intro fuel hfuel
  have hheight := hlevel.height
  obtain ⟨fuel, rfl⟩ : ∃ f, fuel = f + 1 := Nat.exists_eq_add_one.mpr (by omega)
  refine ⟨?_, fun _ => h _ (by omega)⟩
  rw [groupAt_joins hlevel, h fuel hfuel]
  rfl

theorem finds_parens (hnone : symbol? s = none) (hopening : sign? "(" s = some more)
    (hfinds : Finds .disjunction more parts after) (hclosing : sign? ")" after = some rest) :
    Finds .atom s [grouped parts] rest := by
  refine finds_of_groupAt (by decide) fun fuel hfuel => ?_
  have hlength := length_of_sign? (by decide) hopening
  simp only [Level.height] at hfuel
  rw [groupAt, hnone]
  dsimp only
  rw [hopening]
  dsimp only [Option.bind_eq_bind, Option.bind_some]
  rw [(hfinds fuel (by simp only [Level.height]; omega)).1]
  dsimp only [Option.bind_some]
  rw [hclosing]
  rfl

theorem finds_last (hlevel : level.Joins) (hfinds : Finds level.below s parts rest)
    (hnone : level.sign? rest = none) : Finds level s [grouped parts] rest := by
  refine finds_of_partsAt hlevel fun fuel hfuel => ?_
  have hheight := hlevel.height
  obtain ⟨fuel, rfl⟩ : ∃ f, fuel = f + 1 := Nat.exists_eq_add_one.mpr (by omega)
  rw [partsAt, (hfinds fuel (by omega)).1]
  dsimp only [Option.bind_eq_bind, Option.bind_some]
  rw [hnone]
  rfl

theorem finds_more (hlevel : level.Joins) (hlength : next.length < s.length)
    (hfinds : Finds level.below s parts after) (hsign : level.sign? after = some (t, next))
    (hfinds' : Finds level next parts' rest) :
    Finds level s (grouped parts :: .text t :: parts') rest := by
  refine finds_of_partsAt hlevel fun fuel hfuel => ?_
  have hheight := hlevel.height
  obtain ⟨fuel, rfl⟩ : ∃ f, fuel = f + 1 := Nat.exists_eq_add_one.mpr (by omega)
  rw [partsAt, (hfinds fuel (by omega)).1]
  dsimp only [Option.bind_eq_bind, Option.bind_some]
  rw [hsign]
  dsimp only
  rw [(hfinds' fuel (by omega)).2 hlevel]
  rfl

end

/-- The list that a text starts with is found from level to level. -/
theorem finds_of_groups {parts : List Nested} (h : Groups level s parts rest) :
    Finds level s parts rest := by
  induction h with
  | symbol hsymbol =>
    refine finds_of_groupAt (by decide) fun fuel _ => ?_
    rw [groupAt, hsymbol]
    rfl
  | parens hnone hopening _ hclosing ih => exact finds_parens hnone hopening ih hclosing
  | negated hnegation _ ih =>
    refine finds_of_groupAt (by decide) fun fuel hfuel => ?_
    have hlength := length_of_negation? hnegation
    simp only [Level.height] at hfuel
    rw [groupAt, hnegation]
    dsimp only
    rw [(ih fuel (by simp only [Level.height]; omega)).1]
    rfl
  | plain hnone _ ih =>
    refine finds_of_groupAt (by decide) fun fuel hfuel => ?_
    simp only [Level.height] at hfuel
    rw [groupAt, hnone]
    exact (ih fuel (by simp only [Level.height]; omega)).1
  | last hlevel _ hnone ih => exact finds_last hlevel ih hnone
  | more hlevel hparts hsign _ ih ih' =>
    exact finds_more hlevel (Nat.lt_trans (length_of_level_sign? hsign) (length_of_groups hparts))
      ih hsign ih'

/-- Going from level to level takes the groups that texts start with. -/
theorem groups_ofLevels : ofLevels.Groups :=
  fun _ _ _ h => (finds_of_groups h _ (Nat.le_refl _)).1

end Grammar

/-! ### The expressions of lists -/

namespace Nested
variable {s t rest : List Char}

/-- A list of operands means what it means as a list of its own. -/
theorem resolve_grouped (parts : List Nested) : (grouped parts).resolve = resolveAll parts := by
  rcases parts with _ | ⟨part, _ | ⟨sign, more⟩⟩
  · rw [grouped, resolve]
    intro _ h
    cases h
  · rw [grouped, resolveAll]
  · rw [grouped, resolve]
    intro _ h
    cases h

theorem ne_of_symbol? (h : symbol? s = some (t, rest)) : t ≠ ['!'] := by
  unfold symbol? at h
  split at h
  · exact nomatch h
  · next c more _ =>
    split at h
    · obtain ⟨⟨b, rest'⟩, -, h⟩ := Option.map_eq_some_iff.mp h
      cases h
      simp
    · dsimp only at h
      split at h
      · exact nomatch h
      · cases h
        intro heq
        have hmem : '!' ∈ (c :: more).takeWhile isSymbolChar := heq ▸ List.mem_singleton_self _
        exact absurd (List.all_eq_true.mp List.all_takeWhile _ hmem) (by decide)

/-- No operand is the sign of a negation. -/
theorem isText_of_groups {level : Level} {parts : List Nested} (h : Groups level s parts rest) :
    (grouped parts).isText "!" = false := by
  induction h with
  | symbol hsymbol => exact beq_eq_false_iff_ne.mpr (ne_of_symbol? hsymbol)
  | parens _ _ _ _ ih | plain _ _ ih | last _ _ _ ih => exact ih
  | negated | more => rfl

/-- There is one operand more than there are signs. -/
theorem odd_of_groups {level : Level} {parts : List Nested} (h : Groups level s parts rest) :
    parts.length % 2 = 1 := by
  induction h with
  | symbol | parens | negated | plain | last => rfl
  | more _ _ _ _ _ ih =>
    rw [List.length_cons, List.length_cons]
    omega

end Nested
end Kconfig
