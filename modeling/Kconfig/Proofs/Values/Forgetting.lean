import Kconfig.Proofs.Values.Coherence
/-!
Forgetting reaches everything that may have changed.

Forgetting goes from an item to its dependents as long as their visibility is remembered. Each such
step forgets an item that was known, so the fuel suffices. In the end all answers about some items
are gone and those about all others are as before, and no dependent of a forgotten item is known.
-/
namespace Kconfig
namespace Memory
variable {m : Model} {d : Dependents} {k k' : Memory} {i j : Item}

/-! ### How many items are known -/

/-- The items that a memory has room for. -/
def roomFor (k : Memory) : List Item :=
  (List.range k.symbols.size).map .symbol ++ (List.range k.choices.size).map .choice

/-- How many items have a remembered visibility. -/
def known (k : Memory) : Nat := k.roomFor.countP k.knows

theorem mem_roomFor (h : k.knows i) : i ∈ k.roomFor := by
  cases i with
  | symbol s =>
    refine List.mem_append_left _ (List.mem_map_of_mem (List.mem_range.mpr ?_))
    refine Nat.lt_of_not_le fun hle => ?_
    simp [knows, get?, Memory.symbol, Array.getElem?_eq_none hle] at h
  | choice c =>
    refine List.mem_append_right _ (List.mem_map_of_mem (List.mem_range.mpr ?_))
    refine Nat.lt_of_not_le fun hle => ?_
    simp [knows, get?, Memory.choice, Array.getElem?_eq_none hle] at h

theorem roomFor_forget (k : Memory) (i : Item) : (k.forget i).roomFor = k.roomFor := by
  cases i <;> simp [roomFor, forget, modifySymbol, modifyChoice]

theorem knows_forget (k : Memory) (i j : Item) :
    (k.forget i).knows j = (k.knows j && decide (j ≠ i)) := by
  rw [knows, get?_forget, knows]
  by_cases h : j = i
  · simp [Query.item, h]
  · simp [Query.item, h]

theorem known_forget_lt (h : k.knows i) : (k.forget i).known < k.known := by
  rw [known, roomFor_forget]
  refine Lists.countP_lt ?_ (x := i) ?_ h _ (mem_roomFor h)
  · intro j hj
    rw [knows_forget, Bool.and_eq_true] at hj
    exact hj.1
  · rw [knows_forget, decide_eq_false (fun hne => hne rfl), Bool.and_false]

theorem known_le : k.known ≤ k.symbols.size + k.choices.size := by
  have h : k.known ≤ k.roomFor.length := List.countP_le_length
  simpa [roomFor] using h

/-! ### What forgetting leaves -/

/-- The answers about an item are the same in two memories. -/
def Same (k k' : Memory) (j : Item) : Prop := ∀ q : Query, q.item = j → k'.get? q = k.get? q

/-- There are no answers about an item. -/
def Gone (k : Memory) (j : Item) : Prop := ∀ q : Query, q.item = j → k.get? q = none

theorem Gone.not_knows (h : k.Gone j) : k.knows j = false := by
  rw [knows, h (.visible j) rfl]
  rfl

theorem gone_forget (k : Memory) (i : Item) : (k.forget i).Gone i := by
  intro q hq
  rw [get?_forget, if_pos hq]

theorem same_forget (k : Memory) (h : j ≠ i) : k.Same (k.forget i) j := by
  intro q hq
  rw [get?_forget, if_neg (hq ▸ h)]

/-- What is left of a memory `k` when items were forgotten, each of them known: the answers about
every other item, and no dependent of a forgotten one is known. -/
structure Left (d : Dependents) (k k' : Memory) : Prop where
  room : k'.roomFor = k.roomFor
  sizes : k'.symbols.size = k.symbols.size ∧ k'.choices.size = k.choices.size
  answers : ∀ j, k.Same k' j ∨ k'.Gone j ∧ k.knows j
  closed : ∀ x, k.knows x → k'.knows x = false → ∀ j ∈ d.of x, k'.knows j = false

namespace Left

theorem refl (d : Dependents) (k : Memory) : Left d k k :=
  ⟨rfl, ⟨rfl, rfl⟩, fun _ => .inl fun _ _ => rfl, fun x h h' => by simp [h] at h'⟩

theorem knows_of_knows (h : Left d k k') (hj : k'.knows j) : k.knows j := by
  rcases h.answers j with hsame | ⟨-, hj⟩
  · rw [knows, ← hsame (.visible j) rfl]
    exact hj
  · exact hj

theorem known_le (h : Left d k k') : k'.known ≤ k.known := by
  rw [known, h.room, known]
  exact List.countP_mono_left fun j _ hj => h.knows_of_knows hj

theorem trans {k'' : Memory} (h : Left d k k') (h' : Left d k' k'') : Left d k k'' := by
  refine ⟨h'.room.trans h.room, ⟨h'.sizes.1.trans h.sizes.1, h'.sizes.2.trans h.sizes.2⟩,
    fun j => ?_, fun x hx hx'' j hj => ?_⟩
  · rcases h'.answers j with hsame' | ⟨hgone, hknown⟩
    · rcases h.answers j with hsame | ⟨hgone, hknown⟩
      · exact .inl fun q hq => (hsame' q hq).trans (hsame q hq)
      · exact .inr ⟨fun q hq => (hsame' q hq).trans (hgone q hq), hknown⟩
    · exact .inr ⟨hgone, h.knows_of_knows hknown⟩
  · by_cases hx' : k'.knows x
    · exact h'.closed x hx' hx'' j hj
    · have hj' := h.closed x hx (Bool.eq_false_iff.mpr hx') j hj
      refine Bool.eq_false_iff.mpr fun hj'' => ?_
      rw [h'.knows_of_knows hj''] at hj'
      exact nomatch hj'

end Left

/-- A memory from which an item and what depends on it were forgotten. -/
structure Forgot (d : Dependents) (i : Item) (k k' : Memory) : Prop where
  left : Left d (k.forget i) k'
  dependents : ∀ j ∈ d.of i, k'.knows j = false

theorem Forgot.gone (h : Forgot d i k k') : k'.Gone i := by
  intro q hq
  rcases h.left.answers i with hsame | ⟨hgone, -⟩
  · rw [hsame q hq]
    exact gone_forget k i q hq
  · exact hgone q hq

theorem Forgot.left_of_knows (h : Forgot d i k k') (hi : k.knows i) : Left d k k' := by
  refine ⟨h.left.room.trans (roomFor_forget k i), ?_, fun j => ?_, fun x hx hx' j hj => ?_⟩
  · have hsizes := h.left.sizes
    cases i <;> simpa [forget, modifySymbol, modifyChoice] using hsizes
  · by_cases hj : j = i
    · exact .inr ⟨hj ▸ h.gone, hj ▸ hi⟩
    · rcases h.left.answers j with hsame | ⟨hgone, hknown⟩
      · exact .inl fun q hq => (hsame q hq).trans (same_forget k hj q hq)
      · rw [knows_forget, Bool.and_eq_true] at hknown
        exact .inr ⟨hgone, hknown.1⟩
  · by_cases hxi : x = i
    · exact h.dependents j (hxi ▸ hj)
    · refine h.left.closed x ?_ hx' j hj
      rw [knows_forget, hx, decide_eq_true hxi]
      rfl

/-- Forgetting with more fuel than items are known forgets the item and what depends on it. -/
theorem forgot_forgetFor (d : Dependents) : ∀ (fuel : Nat) (k : Memory) (i : Item),
    (k.forget i).known < fuel → Forgot d i k (forgetFor d fuel k i)
  | 0, _, _, h => nomatch h
  | fuel + 1, k, i, hfuel => by
    -- along the dependents of the item, with what is left after some of them
    suffices h : ∀ (js : List Item) (k₁ : Memory), Left d (k.forget i) k₁ →
        let k₂ := js.foldl (fun k j => if k.knows j then forgetFor d fuel k j else k) k₁
        Left d k₁ k₂ ∧ ∀ j ∈ js, k₂.knows j = false by
      obtain ⟨hleft, hknows⟩ := h (d.of i) (k.forget i) (.refl ..)
      exact ⟨hleft, hknows⟩
    intro js
    induction js with
    | nil => exact fun k₁ _ => ⟨.refl .., fun _ h => absurd h List.not_mem_nil⟩
    | cons j js ih =>
      intro k₁ hk₁
      rw [List.foldl_cons]
      obtain ⟨hleft, hj⟩ : Left d k₁ (if k₁.knows j then forgetFor d fuel k₁ j else k₁) ∧
          (if k₁.knows j then forgetFor d fuel k₁ j else k₁).knows j = false := by
        split
        · next hknown =>
          have hlt := known_forget_lt hknown
          have hle := hk₁.known_le
          have hforgot := forgot_forgetFor d fuel k₁ j (by omega)
          exact ⟨hforgot.left_of_knows hknown, hforgot.gone.not_knows⟩
        · next hunknown => exact ⟨.refl .., Bool.eq_false_iff.mpr hunknown⟩
      obtain ⟨hrest, hjs⟩ := ih _ (hk₁.trans hleft)
      refine ⟨hleft.trans hrest, List.forall_mem_cons.mpr ⟨?_, hjs⟩⟩
      refine Bool.eq_false_iff.mpr fun hknown => ?_
      rw [hrest.knows_of_knows hknown] at hj
      exact nomatch hj

theorem forgot_forgetFrom (d : Dependents) (k : Memory) (i : Item) :
    Forgot d i k (k.forgetFrom d i) := by
  refine forgot_forgetFor d _ k i (Nat.lt_succ_of_le ?_)
  have hle : (k.forget i).known ≤ _ := known_le
  cases i <;> simpa [forget, modifySymbol, modifyChoice] using hle

end Memory
end Kconfig
