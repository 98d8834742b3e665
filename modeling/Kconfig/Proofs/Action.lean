/-!
What actions keep, and where they lead.

An action works on a state and gives a result or fails; in both cases the state that it leaves is
what comes after. `Keeps P` says that whatever happens, `P` still holds. `Moves R` says that an
action that succeeds leads from a state to one that `R` allows, and nothing about failures. `Yields`
says the same about one state and the result, and `Ends` that an action succeeds, and how. `Throws`
says what an action can fail with, and `Sure` that there is nothing; `Fails` says that from one
state an action does fail. `Safe P` says that from the states with `P` an action succeeds and keeps
`P`, and `Meets` what holds after an action from one state when it succeeds, and what when it fails.
`Guards P F` says that from the states with `P` an action keeps `P` or fails as `F` says.
-/
namespace Kconfig
variable {ε σ α β : Type} {P : σ → Prop}

/-- Two actions one after the other. -/
theorem bind_apply (action : EStateM ε σ α) (next : α → EStateM ε σ β) (s : σ) :
    (action >>= next) s = match action s with
      | .ok a s' => next a s'
      | .error e s' => .error e s' := by
  show EStateM.bind action next s = _
  rw [EStateM.bind]
  cases action s <;> rfl

theorem modify_apply (f : σ → σ) (s : σ) :
    (modify f : EStateM ε σ PUnit) s = .ok ⟨⟩ (f s) := rfl

/-- An action with what is done when it fails. -/
theorem tryCatch_apply (action : EStateM ε σ α) (handle : ε → EStateM ε σ α) (s : σ) :
    MonadExcept.tryCatch action handle s = match action s with
      | .ok a s' => .ok a s'
      | .error e s' => handle e s' := by
  show EStateM.tryCatch action handle s = _
  unfold EStateM.tryCatch
  cases action s <;> rfl

/-- The state after an action, whether it failed or not. -/
def stateAfter : EStateM.Result ε σ α → σ
  | .ok _ s => s
  | .error _ s => s

/-- What an action gives, or why it fails. -/
def outcome : EStateM.Result ε σ α → Except ε α
  | .ok a _ => .ok a
  | .error e _ => .error e

/-- Only the result changes when another one is given at the end. -/
theorem stateAfter_bind_pure (action : EStateM ε σ α) (f : α → β) (s : σ) :
    stateAfter ((action >>= fun a => pure (f a)) s) = stateAfter (action s) := by
  rw [bind_apply]
  cases action s <;> rfl

/-- After the action, from the given state, a property holds, also when the action fails. -/
def KeepsAt (P : σ → Prop) (s : σ) (action : EStateM ε σ α) : Prop := P (stateAfter (action s))

namespace KeepsAt

/-- What holds after an action holds after what keeps it. -/
theorem bind {action : EStateM ε σ α} {next : α → EStateM ε σ β} {s : σ} (h : KeepsAt P s action)
    (hnext : ∀ a s', P s' → KeepsAt P s' (next a)) : KeepsAt P s (action >>= next) := by
  unfold KeepsAt at h ⊢
  rw [bind_apply]
  cases haction : action s with
  | ok a s' =>
    rw [haction] at h
    exact hnext a s' h
  | error e s' =>
    rw [haction] at h
    exact h

theorem update_bind {f : σ → σ} {next : PUnit → EStateM ε σ β} {s : σ}
    (h : KeepsAt P (f s) (next ⟨⟩)) : KeepsAt P s (modify f >>= next) := h

end KeepsAt

/-- The action leaves a property of the state as it was, also when it fails. -/
def Keeps (P : σ → Prop) (action : EStateM ε σ α) : Prop :=
  ∀ s, P s → KeepsAt P s action

namespace Keeps

theorem pure (a : α) : Keeps P (Pure.pure a : EStateM ε σ α) := fun _ h => h

theorem throw (e : ε) : Keeps P (MonadExcept.throw e : EStateM ε σ α) := fun _ h => h

theorem get : Keeps P (MonadState.get : EStateM ε σ σ) := fun _ h => h

theorem update {f : σ → σ} (h : ∀ s, P s → P (f s)) :
    Keeps P (modify f : EStateM ε σ PUnit) := h

theorem bind {action : EStateM ε σ α} {next : α → EStateM ε σ β} (h : Keeps P action)
    (hnext : ∀ a, Keeps P (next a)) : Keeps P (action >>= next) :=
  fun s hs => (h s hs).bind hnext

/-- An action may use that its state is the one that was looked at. -/
theorem bind_get {next : σ → EStateM ε σ β} (h : ∀ s, P s → KeepsAt P s (next s)) :
    Keeps P (MonadState.get >>= next) := h

/-- A state that was looked at is replaced. -/
theorem get_set {f : σ → σ} {next : σ → EStateM ε σ β} (h : ∀ s, P s → P (f s))
    (hnext : ∀ s, Keeps P (next s)) :
    Keeps P (MonadState.get >>= fun s => MonadStateOf.set (f s) >>= fun _ => next s) :=
  fun s hs => hnext s (f s) (h s hs)

theorem and {Q : σ → Prop} {action : EStateM ε σ α} (h : Keeps P action) (h' : Keeps Q action) :
    Keeps (fun s => P s ∧ Q s) action := fun s hs => ⟨h s hs.1, h' s hs.2⟩

theorem tryCatch {action : EStateM ε σ α} {handle : ε → EStateM ε σ α} (h : Keeps P action)
    (hhandle : ∀ e, Keeps P (handle e)) : Keeps P (MonadExcept.tryCatch action handle) := by
  intro s hs
  have hs' := h s hs
  unfold KeepsAt at hs' ⊢
  rw [tryCatch_apply]
  cases haction : action s with
  | ok a s' =>
    rw [haction] at hs'
    exact hs'
  | error e s' =>
    rw [haction] at hs'
    exact hhandle e s' hs'

theorem ite {c : Prop} [Decidable c] {action action' : EStateM ε σ α} (h : Keeps P action)
    (h' : Keeps P action') : Keeps P (if c then action else action') := by
  split
  · exact h
  · exact h'

theorem forM {f : α → EStateM ε σ PUnit} (h : ∀ a, Keeps P (f a)) :
    ∀ xs : List α, Keeps P (xs.forM f)
  | [] => pure _
  | x :: xs => bind (h x) fun _ => forM h xs

theorem forIn {f : α → β → EStateM ε σ (ForInStep β)} (h : ∀ a b, Keeps P (f a b)) :
    ∀ (xs : List α) (b : β), Keeps P (ForIn.forIn xs b f)
  | [], b => pure b
  | x :: xs, b => by
    rw [List.forIn_cons]
    refine bind (h x b) fun step => ?_
    cases step with
    | done b => exact pure b
    | yield b => exact forIn h xs b

theorem foldlM {f : β → α → EStateM ε σ β} (h : ∀ b a, Keeps P (f b a)) :
    ∀ (xs : List α) (b : β), Keeps P (xs.foldlM f b)
  | [], b => pure b
  | x :: xs, b => bind (h b x) fun b => foldlM h xs b

end Keeps

/-- What two actions one after the other do when they succeed. -/
theorem bind_ok {action : EStateM ε σ α} {next : α → EStateM ε σ β} {s s'' : σ} {b : β}
    (h : (action >>= next) s = .ok b s'') : ∃ a s', action s = .ok a s' ∧ next a s' = .ok b s'' := by
  rw [bind_apply] at h
  cases haction : action s with
  | ok a s' =>
    rw [haction] at h
    exact ⟨a, s', rfl, h⟩
  | error e s' =>
    rw [haction] at h
    exact nomatch h

/-- After some elements a loop goes on with the others. -/
theorem forM_append_of_ok {f : α → EStateM ε σ PUnit} : ∀ (xs ys : List α) {s s' : σ},
    xs.forM f s = .ok ⟨⟩ s' → (xs ++ ys).forM f s = ys.forM f s'
  | [], ys, s, s', h => by
    obtain rfl : s = s' := by
      injection h
    rfl
  | x :: xs, ys, s, s', h => by
    change (f x >>= fun _ => xs.forM f) s = _ at h
    obtain ⟨_, s₁, hx, hxs⟩ := bind_ok h
    show (f x >>= fun _ => (xs ++ ys).forM f) s = _
    rw [bind_apply, hx]
    exact forM_append_of_ok xs ys hxs

/-- Whether an action succeeded. -/
def succeeds : EStateM.Result ε σ α → Bool
  | .ok .. => true
  | .error .. => false

theorem ok_of_succeeds {r : EStateM.Result ε σ α} (h : succeeds r = true) :
    ∃ a s, r = .ok a s := by
  cases r with
  | ok a s => exact ⟨a, s, rfl⟩
  | error e s => exact nomatch h

/-- Whether an action succeeded, and what it gave and left passes a check. -/
def passes (check : α → σ → Bool) : EStateM.Result ε σ α → Bool
  | .ok a s => check a s
  | .error .. => false

theorem ok_of_passes {check : α → σ → Bool} {r : EStateM.Result ε σ α}
    (h : passes check r = true) : ∃ a s, r = .ok a s ∧ check a s = true := by
  cases r with
  | ok a s => exact ⟨a, s, rfl, h⟩
  | error e s => exact absurd h Bool.false_ne_true

/-- From the given state the action succeeds, and what it gives and leaves has a property. -/
def Ends (action : EStateM ε σ α) (s : σ) (Q : α → σ → Prop) : Prop :=
  ∃ a s', action s = .ok a s' ∧ Q a s'

namespace Ends
variable {s : σ} {Q : α → σ → Prop} {Q' : β → σ → Prop}

theorem pure {a : α} (h : Q a s) : Ends (Pure.pure a : EStateM ε σ α) s Q := ⟨a, s, rfl, h⟩

theorem bind {action : EStateM ε σ α} {next : α → EStateM ε σ β} (h : Ends action s Q)
    (hnext : ∀ a s', Q a s' → Ends (next a) s' Q') : Ends (action >>= next) s Q' := by
  obtain ⟨a, s', haction, hQ⟩ := h
  obtain ⟨b, s'', hb, hQ'⟩ := hnext a s' hQ
  refine ⟨b, s'', ?_, hQ'⟩
  rw [bind_apply, haction]
  exact hb

theorem bind_get {next : σ → EStateM ε σ β} (h : Ends (next s) s Q') :
    Ends (MonadState.get >>= next) s Q' := h

theorem mono {action : EStateM ε σ α} {Q' : α → σ → Prop} (h : Ends action s Q)
    (hQ : ∀ a s', Q a s' → Q' a s') : Ends action s Q' := by
  obtain ⟨a, s', haction, h⟩ := h
  exact ⟨a, s', haction, hQ a s' h⟩

/-- What the action keeps holds of what it leaves. -/
theorem keeping {action : EStateM ε σ α} (h : Ends action s Q) (hP : Keeps P action)
    (hs : P s) : Ends action s fun a s' => P s' ∧ Q a s' := by
  obtain ⟨a, s', ha, hQ⟩ := h
  have hs' := hP s hs
  unfold KeepsAt at hs'
  rw [ha] at hs'
  exact ⟨a, s', ha, hs', hQ⟩

theorem forM {f : α → EStateM ε σ PUnit} (h : ∀ a s, P s → Ends (f a) s fun _ => P) :
    ∀ (xs : List α) {s : σ}, P s → Ends (xs.forM f) s fun _ => P
  | [], _, hs => pure hs
  | x :: xs, _, hs => bind (h x _ hs) fun _ _ hs' => forM h xs hs'

/-- A loop that goes on to its end. -/
theorem forIn {f : α → PUnit → EStateM ε σ (ForInStep PUnit)}
    (h : ∀ a s, P s → Ends (f a ⟨⟩) s fun step s' => step = .yield ⟨⟩ ∧ P s') :
    ∀ (xs : List α) {s : σ}, P s → Ends (ForIn.forIn xs ⟨⟩ f) s fun _ => P
  | [], _, hs => pure hs
  | x :: xs, _, hs => by
    rw [List.forIn_cons]
    refine bind (h x _ hs) fun step s' hstep => ?_
    obtain ⟨rfl, hs'⟩ := hstep
    exact forIn h xs hs'

end Ends

/-- If the action succeeds from the given state, what it gives and leaves has a property. -/
def Yields (action : EStateM ε σ α) (s : σ) (Q : α → σ → Prop) : Prop :=
  ∀ a s', action s = .ok a s' → Q a s'

namespace Yields
variable {s : σ} {Q Q' : α → σ → Prop} {Q'' : β → σ → Prop}

theorem pure {a : α} (h : Q a s) : Yields (Pure.pure a : EStateM ε σ α) s Q := by
  intro b s' hb
  injection hb with hb hs
  exact hb ▸ hs ▸ h

theorem throw (e : ε) : Yields (MonadExcept.throw e : EStateM ε σ α) s Q :=
  fun _ _ h => nomatch h

theorem update {f : σ → σ} {Q : PUnit → σ → Prop} (h : Q ⟨⟩ (f s)) :
    Yields (modify f : EStateM ε σ PUnit) s Q := by
  intro a s' ha
  injection ha with _ hs
  exact hs ▸ h

theorem mono {action : EStateM ε σ α} (h : Yields action s Q) (hQ : ∀ a s', Q a s' → Q' a s') :
    Yields action s Q' := fun a s' ha => hQ a s' (h a s' ha)

theorem bind {action : EStateM ε σ α} {next : α → EStateM ε σ β} (h : Yields action s Q)
    (hnext : ∀ a s', Q a s' → Yields (next a) s' Q'') : Yields (action >>= next) s Q'' := by
  intro b s'' hb
  obtain ⟨a, s', ha, hb⟩ := bind_ok hb
  exact hnext a s' (h a s' ha) b s'' hb

theorem bind_get {next : σ → EStateM ε σ β} (h : Yields (next s) s Q'') :
    Yields (MonadState.get >>= next) s Q'' := h

/-- What comes next has to agree only where the action leads. -/
theorem bind_congr {action : EStateM ε σ α} {next next' : α → EStateM ε σ β}
    (h : Yields action s Q) (hnext : ∀ a s', Q a s' → next a s' = next' a s') :
    (action >>= next) s = (action >>= next') s := by
  rw [bind_apply, bind_apply]
  cases haction : action s with
  | ok a s' => exact hnext a s' (h a s' haction)
  | error e s' => rfl

/-- What the action keeps holds of what it leaves. -/
theorem keeping {action : EStateM ε σ α} (h : Yields action s Q) (hP : Keeps P action)
    (hs : P s) : Yields action s fun a s' => P s' ∧ Q a s' := by
  intro a s' ha
  have hs' := hP s hs
  unfold KeepsAt at hs'
  rw [ha] at hs'
  exact ⟨hs', h a s' ha⟩

/-- A loop that goes on to its end, with what holds after a part of the elements. -/
theorem forIn {f : α → PUnit → EStateM ε σ (ForInStep PUnit)} {I : List α → σ → Prop}
    (h : ∀ done x s, I done s →
      Yields (f x ⟨⟩) s fun step s' => step = .yield ⟨⟩ ∧ I (done ++ [x]) s') :
    ∀ (xs : List α) {done : List α} {s : σ}, I done s →
      Yields (ForIn.forIn xs ⟨⟩ f) s fun _ => I (done ++ xs)
  | [], done, _, hs => pure (by rwa [List.append_nil])
  | x :: xs, done, _, hs => by
    rw [List.forIn_cons]
    refine bind (h done x _ hs) fun step s' hstep => ?_
    obtain ⟨rfl, hs'⟩ := hstep
    rw [List.append_cons]
    exact forIn h xs hs'

end Yields

/-- A relation between states that holds along some steps when it holds along each of them. -/
class Onward (R : σ → σ → Prop) : Prop where
  refl : ∀ s, R s s
  trans : ∀ {s s' s''}, R s s' → R s' s'' → R s s''

/-- The action leads only to states that the relation allows, if it succeeds. -/
def Moves (R : σ → σ → Prop) (action : EStateM ε σ α) : Prop :=
  ∀ s a s', action s = .ok a s' → R s s'

namespace Moves
variable {R R' : σ → σ → Prop}

theorem yields {action : EStateM ε σ α} (h : Moves R action) (s : σ) :
    Yields action s fun _ => R s := h s

theorem mono {action : EStateM ε σ α} (h : Moves R action) (hR : ∀ s s', R s s' → R' s s') :
    Moves R' action := fun s a s' ha => hR s s' (h s a s' ha)

theorem throw (e : ε) : Moves R (MonadExcept.throw e : EStateM ε σ α) :=
  fun _ _ _ h => nomatch h

theorem update {f : σ → σ} (h : ∀ s, R s (f s)) : Moves R (modify f : EStateM ε σ PUnit) := by
  intro s a s' ha
  obtain ⟨rfl, rfl⟩ : PUnit.unit = a ∧ f s = s' := by
    injection ha with h₁ h₂
    exact ⟨h₁, h₂⟩
  exact h s

/-- The state that was looked at is still there. -/
theorem bind_get {next : σ → EStateM ε σ β}
    (h : ∀ s b s', next s s = .ok b s' → R s s') : Moves R (MonadState.get >>= next) := by
  intro s b s' hb
  exact h s b s' hb

theorem ite {c : Prop} [Decidable c] {action action' : EStateM ε σ α} (h : Moves R action)
    (h' : Moves R action') : Moves R (if c then action else action') := by
  split
  · exact h
  · exact h'

variable [Onward R]

theorem pure (a : α) : Moves R (Pure.pure a : EStateM ε σ α) := by
  intro s b s' h
  obtain rfl : s = s' := by
    injection h
  exact Onward.refl s

theorem get : Moves R (MonadState.get : EStateM ε σ σ) := by
  intro s b s' h
  obtain rfl : s = s' := by
    injection h
  exact Onward.refl s

theorem bind {action : EStateM ε σ α} {next : α → EStateM ε σ β} (h : Moves R action)
    (hnext : ∀ a, Moves R (next a)) : Moves R (action >>= next) := by
  intro s b s'' hb
  obtain ⟨a, s', ha, hb⟩ := bind_ok hb
  exact Onward.trans (h s a s' ha) (hnext a s' b s'' hb)

theorem map {action : EStateM ε σ α} (f : α → β) (h : Moves R action) :
    Moves R (f <$> action) := bind h fun a => pure (f a)

theorem forM {f : α → EStateM ε σ PUnit} (h : ∀ a, Moves R (f a)) :
    ∀ xs : List α, Moves R (xs.forM f)
  | [] => pure _
  | x :: xs => bind (h x) fun _ => forM h xs

theorem forIn {f : α → β → EStateM ε σ (ForInStep β)} (h : ∀ a b, Moves R (f a b)) :
    ∀ (xs : List α) (b : β), Moves R (ForIn.forIn xs b f)
  | [], b => pure b
  | x :: xs, b => by
    rw [List.forIn_cons]
    refine bind (h x b) fun step => ?_
    cases step with
    | done b => exact pure b
    | yield b => exact forIn h xs b

end Moves

/-- If the action fails, the failure has a property. -/
def Throws (Q : ε → Prop) (action : EStateM ε σ α) : Prop :=
  ∀ s e s', action s = .error e s' → Q e

namespace Throws
variable {Q : ε → Prop}

theorem pure (a : α) : Throws Q (Pure.pure a : EStateM ε σ α) := fun _ _ _ h => nomatch h

theorem get : Throws Q (MonadState.get : EStateM ε σ σ) := fun _ _ _ h => nomatch h

theorem update (f : σ → σ) : Throws Q (modify f : EStateM ε σ PUnit) := fun _ _ _ h => nomatch h

theorem throw {e : ε} (h : Q e) : Throws Q (MonadExcept.throw e : EStateM ε σ α) := by
  intro s e' s' he
  obtain ⟨rfl, -⟩ : e = e' ∧ s = s' := by
    injection he with h₁ h₂
    exact ⟨h₁, h₂⟩
  exact h

theorem bind {action : EStateM ε σ α} {next : α → EStateM ε σ β} (h : Throws Q action)
    (hnext : ∀ a, Throws Q (next a)) : Throws Q (action >>= next) := by
  intro s e s'' he
  rw [bind_apply] at he
  cases haction : action s with
  | ok a s' =>
    rw [haction] at he
    exact hnext a s' e s'' he
  | error e' s' =>
    rw [haction] at he
    injection he with he
    exact he ▸ h s e' s' haction

theorem ite {c : Prop} [Decidable c] {action action' : EStateM ε σ α} (h : Throws Q action)
    (h' : Throws Q action') : Throws Q (if c then action else action') := by
  split
  · exact h
  · exact h'

theorem forM {f : α → EStateM ε σ PUnit} (h : ∀ a, Throws Q (f a)) :
    ∀ xs : List α, Throws Q (xs.forM f)
  | [] => pure _
  | x :: xs => bind (h x) fun _ => forM h xs

theorem forIn {f : α → β → EStateM ε σ (ForInStep β)} (h : ∀ a b, Throws Q (f a b)) :
    ∀ (xs : List α) (b : β), Throws Q (ForIn.forIn xs b f)
  | [], b => pure b
  | x :: xs, b => by
    rw [List.forIn_cons]
    refine bind (h x b) fun step => ?_
    cases step with
    | done b => exact pure b
    | yield b => exact forIn h xs b

theorem mono {Q' : ε → Prop} {action : EStateM ε σ α} (h : Throws Q action)
    (hQ : ∀ e, Q e → Q' e) : Throws Q' action := fun s e s' he => hQ e (h s e s' he)

end Throws

/-- The action never fails. -/
abbrev Sure (action : EStateM ε σ α) : Prop := Throws (fun _ => False) action

namespace Sure
variable {action : EStateM ε σ α}

/-- What the action gives and leaves when it succeeds, it gives and leaves. -/
theorem ends (h : Sure action) {s : σ} {Q : α → σ → Prop} (hQ : Yields action s Q) :
    Ends action s Q := by
  cases haction : action s with
  | ok a s' => exact ⟨a, s', haction, hQ a s' haction⟩
  | error e s' => exact (h s e s' haction).elim

theorem keeps (h : Sure action) (hP : ∀ s, P s → Yields action s fun _ => P) : Keeps P action := by
  intro s hs
  obtain ⟨a, s', haction, hs'⟩ := h.ends (hP s hs)
  unfold KeepsAt
  rw [haction]
  exact hs'

end Sure

/-- What an action gives and leaves is what it does when it succeeds. -/
theorem Ends.yields {action : EStateM ε σ α} {s : σ} {Q : α → σ → Prop} (h : Ends action s Q) :
    Yields action s Q := by
  obtain ⟨a, s', haction, hQ⟩ := h
  intro b s'' hb
  obtain ⟨rfl, rfl⟩ : a = b ∧ s' = s'' := by
    injection haction.symm.trans hb with h₁ h₂
    exact ⟨h₁, h₂⟩
  exact hQ

/-- What an action gives and leaves when it succeeds, if it does. -/
theorem Ends.yielding {action : EStateM ε σ α} {s : σ} {Q Q' : α → σ → Prop} (h : Ends action s Q)
    (h' : Yields action s Q') : Ends action s Q' := by
  obtain ⟨a, s', haction, -⟩ := h
  exact ⟨a, s', haction, h' a s' haction⟩

/-- From the given state the action fails for a reason. -/
def Fails (action : EStateM ε σ α) (s : σ) (e : ε) : Prop := ∃ s', action s = .error e s'

namespace Fails
variable {s : σ} {e : ε}

theorem throw (e : ε) : Fails (MonadExcept.throw e : EStateM ε σ α) s e := ⟨s, rfl⟩

theorem bind {action : EStateM ε σ α} {next : α → EStateM ε σ β} (h : Fails action s e) :
    Fails (action >>= next) s e := by
  obtain ⟨s', haction⟩ := h
  exact ⟨s', by rw [bind_apply, haction]⟩

theorem bind_get {next : σ → EStateM ε σ β} (h : Fails (next s) s e) :
    Fails (MonadState.get >>= next) s e := h

/-- The first action succeeds and the next one fails. -/
theorem after {action : EStateM ε σ α} {next : α → EStateM ε σ β} {Q : α → σ → Prop}
    (h : Ends action s Q) (hnext : ∀ a s', Q a s' → Fails (next a) s' e) :
    Fails (action >>= next) s e := by
  obtain ⟨a, s', haction, hQ⟩ := h
  obtain ⟨s'', hfails⟩ := hnext a s' hQ
  exact ⟨s'', by rw [bind_apply, haction]; exact hfails⟩

end Fails

/-- From states with the property the action succeeds, and leaves the property as it was. -/
def Safe (P : σ → Prop) (action : EStateM ε σ α) : Prop := ∀ s, P s → Ends action s fun _ => P

namespace Safe

theorem pure (a : α) : Safe P (Pure.pure a : EStateM ε σ α) := fun _ hs => .pure hs

theorem get : Safe P (MonadState.get : EStateM ε σ σ) := fun s hs => ⟨s, s, rfl, hs⟩

theorem update {f : σ → σ} (h : ∀ s, P s → P (f s)) : Safe P (modify f : EStateM ε σ PUnit) :=
  fun s hs => ⟨⟨⟩, f s, rfl, h s hs⟩

theorem bind {action : EStateM ε σ α} {next : α → EStateM ε σ β} (h : Safe P action)
    (hnext : ∀ a, Safe P (next a)) : Safe P (action >>= next) :=
  fun s hs => (h s hs).bind fun a s' hs' => hnext a s' hs'

theorem ite {c : Prop} [Decidable c] {action action' : EStateM ε σ α} (h : Safe P action)
    (h' : Safe P action') : Safe P (if c then action else action') := by
  split
  · exact h
  · exact h'

/-- What never fails is safe if it keeps the property. -/
theorem of_sure {action : EStateM ε σ α} (h : Sure action) (hP : Keeps P action) : Safe P action :=
  fun _ hs => ((h.ends (Q := fun _ _ => True) fun _ _ _ => trivial).keeping hP hs).mono
    fun _ _ h => h.1

theorem keeps {action : EStateM ε σ α} (h : Safe P action) : Keeps P action := by
  intro s hs
  obtain ⟨a, s', haction, hs'⟩ := h s hs
  unfold KeepsAt
  rw [haction]
  exact hs'

theorem forM {f : α → EStateM ε σ PUnit} (h : ∀ a, Safe P (f a)) (xs : List α) :
    Safe P (xs.forM f) := fun _ hs => Ends.forM (fun a s hs => h a s hs) xs hs

theorem foldlM {f : β → α → EStateM ε σ β} (h : ∀ b a, Safe P (f b a)) :
    ∀ (xs : List α) (b : β), Safe P (xs.foldlM f b)
  | [], b => pure b
  | x :: xs, b => bind (h b x) fun b => foldlM h xs b

end Safe

/-- What holds after the action from the given state: one thing if it succeeds, and another one if
it fails. -/
def Meets (action : EStateM ε σ α) (s : σ) (Q : α → σ → Prop) (F : ε → σ → Prop) : Prop :=
  match action s with
  | .ok a s' => Q a s'
  | .error e s' => F e s'

namespace Meets
variable {s : σ} {Q : α → σ → Prop} {F : ε → σ → Prop}

theorem pure {a : α} (h : Q a s) : Meets (Pure.pure a : EStateM ε σ α) s Q F := h

theorem throw {e : ε} (h : F e s) : Meets (MonadExcept.throw e : EStateM ε σ α) s Q F := h

theorem update {f : σ → σ} {Q : PUnit → σ → Prop} (h : Q ⟨⟩ (f s)) :
    Meets (modify f : EStateM ε σ PUnit) s Q F := h

theorem of_ends {action : EStateM ε σ α} (h : Ends action s Q) : Meets action s Q F := by
  obtain ⟨a, s', haction, hQ⟩ := h
  unfold Meets
  rw [haction]
  exact hQ

/-- What is kept holds either way. -/
theorem of_keeps {action : EStateM ε σ α} (h : Keeps P action) (hs : P s) :
    Meets action s (fun _ => P) fun _ => P := by
  have hs' := h s hs
  unfold KeepsAt at hs'
  unfold Meets
  cases haction : action s with
  | ok a s' =>
    rw [haction] at hs'
    exact hs'
  | error e s' =>
    rw [haction] at hs'
    exact hs'

theorem mono {action : EStateM ε σ α} {Q' : α → σ → Prop} {F' : ε → σ → Prop}
    (h : Meets action s Q F) (hQ : ∀ a s', Q a s' → Q' a s') (hF : ∀ e s', F e s' → F' e s') :
    Meets action s Q' F' := by
  unfold Meets at h ⊢
  cases haction : action s with
  | ok a s' =>
    rw [haction] at h
    exact hQ a s' h
  | error e s' =>
    rw [haction] at h
    exact hF e s' h

theorem of_ok {action : EStateM ε σ α} (h : Meets action s Q F) {a : α} {s' : σ}
    (hok : action s = .ok a s') : Q a s' := by
  unfold Meets at h
  rwa [hok] at h

theorem of_error {action : EStateM ε σ α} (h : Meets action s Q F) {e : ε} {s' : σ}
    (herror : action s = .error e s') : F e s' := by
  unfold Meets at h
  rwa [herror] at h

/-- What holds of what the action gives, if it succeeds. -/
theorem yielding {action : EStateM ε σ α} {Q' : α → σ → Prop} (h : Meets action s Q F)
    (h' : Yields action s Q') : Meets action s (fun a s' => Q a s' ∧ Q' a s') F := by
  unfold Meets at h ⊢
  cases haction : action s with
  | ok a s' =>
    rw [haction] at h
    exact ⟨h, h' a s' haction⟩
  | error e s' =>
    rw [haction] at h
    exact h

/-- What the action keeps holds of what it leaves. -/
theorem keeping {action : EStateM ε σ α} (h : Meets action s Q F) (hP : Keeps P action) (hs : P s) :
    Meets action s (fun a s' => P s' ∧ Q a s') fun e s' => P s' ∧ F e s' := by
  have hs' := hP s hs
  unfold KeepsAt at hs'
  unfold Meets at h ⊢
  cases haction : action s with
  | ok a s' =>
    rw [haction] at h hs'
    exact ⟨hs', h⟩
  | error e s' =>
    rw [haction] at h hs'
    exact ⟨hs', h⟩

theorem bind {action : EStateM ε σ α} {next : α → EStateM ε σ β} {Q' : β → σ → Prop}
    (h : Meets action s Q F) (hnext : ∀ a s', Q a s' → Meets (next a) s' Q' F) :
    Meets (action >>= next) s Q' F := by
  unfold Meets at h ⊢
  rw [bind_apply]
  cases haction : action s with
  | ok a s' =>
    rw [haction] at h
    exact hnext a s' h
  | error e s' =>
    rw [haction] at h
    exact h

theorem bind_get {next : σ → EStateM ε σ β} {Q' : β → σ → Prop} (h : Meets (next s) s Q' F) :
    Meets (MonadState.get >>= next) s Q' F := h

/-- A state that was looked at is replaced. -/
theorem get_set {f : σ → σ} {next : σ → EStateM ε σ β} {Q' : β → σ → Prop}
    (h : Meets (next s) (f s) Q' F) :
    Meets (MonadState.get >>= fun s => MonadStateOf.set (f s) >>= fun _ => next s) s Q' F := h

end Meets

/-- From states with the property the action keeps it, or fails with what `F` says. -/
def Guards (P : σ → Prop) (F : ε → σ → Prop) (action : EStateM ε σ α) : Prop :=
  ∀ s, P s → Meets action s (fun _ => P) F

namespace Guards
variable {F : ε → σ → Prop}

theorem pure (a : α) : Guards P F (Pure.pure a : EStateM ε σ α) := fun _ hs => .pure hs

theorem throw {e : ε} (h : ∀ s, P s → F e s) :
    Guards P F (MonadExcept.throw e : EStateM ε σ α) := h

theorem get : Guards P F (MonadState.get : EStateM ε σ σ) := fun _ hs => hs

theorem update {f : σ → σ} (h : ∀ s, P s → P (f s)) :
    Guards P F (modify f : EStateM ε σ PUnit) := h

theorem bind {action : EStateM ε σ α} {next : α → EStateM ε σ β} (h : Guards P F action)
    (hnext : ∀ a, Guards P F (next a)) : Guards P F (action >>= next) :=
  fun s hs => (h s hs).bind fun a s' hs' => hnext a s' hs'

/-- An action may use that its state is the one that was looked at. -/
theorem bind_get {next : σ → EStateM ε σ β}
    (h : ∀ s, P s → Meets (next s) s (fun _ => P) F) : Guards P F (MonadState.get >>= next) := h

/-- A state that was looked at is replaced. -/
theorem get_set {f : σ → σ} {next : σ → EStateM ε σ β} (h : ∀ s, P s → P (f s))
    (hnext : ∀ s, Guards P F (next s)) :
    Guards P F (MonadState.get >>= fun s => MonadStateOf.set (f s) >>= fun _ => next s) :=
  fun s hs => .get_set (hnext s (f s) (h s hs))

theorem map {action : EStateM ε σ α} (f : α → β) (h : Guards P F action) :
    Guards P F (f <$> action) := bind h fun a => pure (f a)

theorem ite {c : Prop} [Decidable c] {action action' : EStateM ε σ α} (h : Guards P F action)
    (h' : Guards P F action') : Guards P F (if c then action else action') := by
  split
  · exact h
  · exact h'

theorem forM {f : α → EStateM ε σ PUnit} (h : ∀ a, Guards P F (f a)) :
    ∀ xs : List α, Guards P F (xs.forM f)
  | [] => pure _
  | x :: xs => bind (h x) fun _ => forM h xs

theorem forIn {f : α → β → EStateM ε σ (ForInStep β)} (h : ∀ a b, Guards P F (f a b)) :
    ∀ (xs : List α) (b : β), Guards P F (ForIn.forIn xs b f)
  | [], b => pure b
  | x :: xs, b => by
    rw [List.forIn_cons]
    refine bind (h x b) fun step => ?_
    cases step with
    | done b => exact pure b
    | yield b => exact forIn h xs b

end Guards
end Kconfig
