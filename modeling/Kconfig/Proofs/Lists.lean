import Mathlib.Algebra.GroupWithZero.Nat
/-!
Folds and counts over lists, and the elements of an array of which one is changed.
-/
namespace Kconfig.Lists
variable {α β : Type}

/-- What a check of the elements finds out, looking at no others of their type. -/
theorem forall_of_all {P : α → Prop} [DecidablePred P] {xs : List α}
    (h : (xs.all fun x => decide (P x)) = true) : ∀ x ∈ xs, P x := fun x hx =>
  of_decide_eq_true (List.all_eq_true.mp h x hx)

/-- A fold keeps what each of its steps keeps. -/
theorem foldl_keeps {f : β → α → β} (P : β → Prop) (hP : ∀ b x, P b → P (f b x)) :
    ∀ (xs : List α) {b : β}, P b → P (xs.foldl f b)
  | [], _, h => h
  | x :: xs, b, h => foldl_keeps P hP xs (hP b x h)

/-- A fold reaches what one of its elements gives and no element takes away. -/
theorem foldl_reaches {f : β → α → β} (Q P : β → Prop) {a : α} (hQ : ∀ b x, Q b → Q (f b x))
    (hP : ∀ b x, P b → P (f b x)) (ha : ∀ b, Q b → P (f b a)) :
    ∀ (xs : List α) {b : β}, Q b → a ∈ xs → P (xs.foldl f b)
  | [], _, _, h => absurd h List.not_mem_nil
  | x :: xs, b, hb, h => by
    rw [List.foldl_cons]
    rcases List.mem_cons.mp h with rfl | h
    · exact foldl_keeps P hP xs (ha b hb)
    · exact foldl_reaches Q P hQ hP ha xs (hQ b x hb) h

/-- More elements are of a wider kind when one of them is of that kind only. -/
theorem countP_lt {p p' : α → Bool} (hle : ∀ x, p x → p' x) {x : α} (hx : p x = false)
    (hx' : p' x) : ∀ xs : List α, x ∈ xs → xs.countP p < xs.countP p'
  | [], h => absurd h List.not_mem_nil
  | y :: ys, h => by
    have hys : ys.countP p ≤ ys.countP p' := List.countP_mono_left fun z _ => hle z
    rcases List.mem_cons.mp h with rfl | h
    · rw [List.countP_cons_of_neg (by simp [hx]), List.countP_cons_of_pos hx']
      omega
    · have ih := countP_lt hle hx hx' ys h
      cases hy : p y with
      | true =>
        rw [List.countP_cons_of_pos hy, List.countP_cons_of_pos (hle y hy)]
        exact Nat.succ_lt_succ ih
      | false =>
        rw [List.countP_cons_of_neg (by simp [hy]), List.countP_cons]
        exact Nat.lt_of_lt_of_le ih (Nat.le_add_right _ _)

theorem filterMap_cons_toList {α β : Type} (f : α → Option β) (x : α) (xs : List α) :
    (x :: xs).filterMap f = (f x).toList ++ xs.filterMap f := by
  cases h : f x <;> simp [h]

/-- An element of an array after one is changed was there, or comes from one that was. -/
theorem mem_modify {xs : Array α} {i : Nat} {f : α → α} {x : α} (h : x ∈ xs.modify i f) :
    x ∈ xs ∨ ∃ y, xs[i]? = some y ∧ x = f y := by
  obtain ⟨j, hj, rfl⟩ := Array.mem_iff_getElem.mp h
  rw [Array.size_modify] at hj
  rw [Array.getElem_modify]
  split
  · next hij =>
    subst hij
    exact .inr ⟨xs[i], Array.getElem?_eq_getElem hj, rfl⟩
  · exact .inl (Array.getElem_mem hj)

/-- A sum changes as one of its summands does. -/
theorem sum_map_modify (f : α → α) (g : α → Nat) : ∀ {xs : List α} {i : Nat} (h : i < xs.length),
    ((xs.modify i f).map g).sum + g xs[i] = (xs.map g).sum + g (f xs[i])
  | x :: xs, 0, _ => by
    rw [List.modify_zero_cons, List.map_cons, List.map_cons, List.sum_cons, List.sum_cons,
      List.getElem_cons_zero]
    omega
  | x :: xs, i + 1, h => by
    have ih := sum_map_modify f g (Nat.lt_of_succ_lt_succ h)
    rw [List.modify_succ_cons, List.map_cons, List.map_cons, List.sum_cons, List.sum_cons,
      List.getElem_cons_succ]
    omega

end Kconfig.Lists
