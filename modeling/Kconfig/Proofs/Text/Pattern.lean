import Kconfig.Text.Pattern
/-!
Patterns that are texts.

A text all of whose characters mean themselves is read as the pattern that matches exactly this
text: matching goes on after it where the text stands, and ends everywhere else.
-/
namespace Kconfig.Pattern
variable {α : Type}

theorem single_has (c d : Char) : (CharSet.single c).has d = (c == d) := by
  have hspan : (CharPart.span c.toNat c.toNat).has d = (c == d) := by
    rw [CharPart.has, Bool.eq_iff_iff, Bool.and_eq_true, decide_eq_true_eq, decide_eq_true_eq,
      beq_iff_eq]
    constructor
    · rintro ⟨hle, hge⟩
      exact Char.toNat_inj.mp (Nat.le_antisymm hle hge)
    · rintro rfl
      exact ⟨Nat.le_refl _, Nat.le_refl _⟩
  rw [CharSet.has, CharSet.single, List.any_cons, List.any_nil, Bool.or_false, hspan, Bool.bne_false]

/-- A text is matched exactly where it stands. -/
theorem run_literal (rest : List Char → Option α) : ∀ (s : List Char) (here : Point),
    (literal s).run (fun p => rest p.left) here =
      if s.isPrefixOf here.left then rest (here.left.drop s.length) else none
  | [], _ => rfl
  | c :: s, ⟨before, []⟩ => rfl
  | c :: s, ⟨before, d :: t⟩ => by
    have hrest := run_literal rest s ⟨some d, t⟩
    rw [literal, sequence] at hrest ⊢
    rw [List.map_cons, List.foldr_cons, run, run]
    simp only [single_has, List.isPrefixOf, Bool.and_eq_true, beq_iff_eq, hrest, List.length_cons,
      List.drop_succ_cons]
    by_cases hcd : c = d
    · simp only [hcd, if_true, true_and]
    · rw [if_neg hcd, if_neg fun h => hcd h.1]

/-- The first sign of a text that starts with a character for itself. -/
theorem sign?_of_meansItself {c : Char} (h : meansItself c = true) (s : List Char) :
    sign? (c :: s) = some (.item (.one (.single c)), s) := by
  unfold sign?
  split
  case h_17 heq =>
    cases heq
    rfl
  all_goals
    rename_i heq
    cases heq <;> exact absurd h (by decide)

theorem read?_of_meansItself : ∀ (s : List Char) (fuel : Nat) (o : Open), s.length ≤ fuel →
    (∀ c ∈ s, meansItself c = true) → read? fuel [o] s =
      some [{ o with items := s.reverse.map (fun c => (.one (.single c), true)) ++ o.items }]
  | [], fuel, o, _, _ => by cases fuel <;> rfl
  | c :: s, 0, _, hfuel, _ => absurd hfuel (Nat.not_succ_le_zero _)
  | c :: s, fuel + 1, o, hfuel, h => by
    have hs := read?_of_meansItself s fuel (o.add (.one (.single c)) true)
      (Nat.le_of_succ_le_succ hfuel) fun d hd => h d (List.mem_cons_of_mem _ hd)
    rw [read?, sign?_of_meansItself (h c List.mem_cons_self)]
    · show read? fuel [o.add (.one (.single c)) true] s = _
      rw [hs, List.reverse_cons, List.map_append, List.append_assoc]
      rfl
    · exact List.cons_ne_nil _ _

/-- A text whose characters mean themselves is the pattern of itself. -/
theorem ofText?_of_plain {s : String} (h : Plain s) :
    ofText? s.toList = some (literal s.toList) := by
  rw [ofText?, read?_of_meansItself _ _ _ (Nat.le_refl _) h]
  simp [Open.pattern, Open.current, literal, Function.comp_def]

end Kconfig.Pattern
