import Mathlib.Data.List.Chain
import Mathlib.Data.List.Nodup
import Mathlib.Logic.Function.Iterate
import Kconfig.Proofs.Model.Search
/-!
The loops that the search finds are loops, and the search ends.

An item that the search meets while it is open is one that the search came through. On the way back
from there the search collects the items in between, each of which it had left for the one before,
until it is back at the item that it met again: only then the loop is complete. Entering a choice
from a member and a member from a choice do not undo each other, so such a pair alone is no loop.

Every call of the search that calls others opens an item that was unseen. So calls are never nested
deeper than there are unseen items, and one more, and what deeper calls would do makes no difference.
-/
namespace Kconfig
namespace Model

variable {m : Model} {d : Dependents} {i j : Item} {a b : Approach} {loop rest : List Item}
  {first : Item} {k k' : Marks}

/-! ### Loops -/

/-- One of the items is a choice and the other one a member of it. -/
def Together (m : Model) : Item → Item → Prop
  | .symbol s, .choice c | .choice c, .symbol s => s ∈ (m.choice c).members
  | _, _ => False

/-- The one item depends on the other one: it is among its dependents, or they are a choice and a
member of it. -/
def DependsOn (m : Model) (d : Dependents) (i j : Item) : Prop := i ∈ d.of j ∨ m.Together i j

/-- Different items, each of which but the last depends on the next one, and the last one on the
first. Two items are a loop only if one of them is among the dependents of the other: that they are
a choice and a member of it is not enough. -/
structure IsLoop (m : Model) (d : Dependents) (loop : List Item) : Prop where
  nonempty : loop ≠ []
  nodup : loop.Nodup
  chain : loop.IsChain (m.DependsOn d)
  closed : ∀ first ∈ loop.head?, ∀ last ∈ loop.getLast?, m.DependsOn d last first
  proper : ∀ i j, loop = [i, j] → i ∈ d.of j ∨ j ∈ d.of i

/-! ### Steps -/

/-- Where the search goes from a symbol and from a choice. -/
theorem mem_steps : (j, b) ∈ m.steps d a i ↔
    match i with
    | .symbol s => j ∈ d.of (.symbol s) ∧ b = .dependent ∨
        ∃ c, (m.symbol s).choice = some c ∧ a ≠ .member ∧ j = .choice c ∧ b = .owner s
    | .choice c => ∃ s ∈ (m.choice c).members, a ≠ .owner s ∧ j = .symbol s ∧ b = .member := by
  cases i with
  | symbol s =>
    simp only [steps, List.mem_append, List.mem_map, Prod.mk.injEq]
    refine or_congr ⟨?_, ?_⟩ ?_
    · rintro ⟨_, hj, rfl, rfl⟩
      exact ⟨hj, rfl⟩
    · rintro ⟨hj, rfl⟩
      exact ⟨j, hj, rfl, rfl⟩
    · cases (m.symbol s).choice with
      | none => simp
      | some c => by_cases ha : a = .member <;> simp [ha]
  | choice c =>
    simp only [steps, List.mem_map, List.mem_filter, decide_eq_true_eq, Prod.mk.injEq]
    constructor
    · rintro ⟨s, ⟨hs, ha⟩, rfl, rfl⟩
      exact ⟨s, hs, ha, rfl, rfl⟩
    · rintro ⟨s, hs, ha, rfl, rfl⟩
      exact ⟨s, ⟨hs, ha⟩, rfl, rfl⟩

/-- What the search goes to depends on what it comes from. -/
theorem Sound.dependsOn_of_step (hm : m.Sound) (h : (j, b) ∈ m.steps d a i) :
    m.DependsOn d j i := by
  cases i with
  | symbol s =>
    rcases mem_steps.mp h with ⟨hj, -⟩ | ⟨c, hc, -, rfl, -⟩
    · exact .inl hj
    · exact .inr (hm.member s c hc).1
  | choice c =>
    obtain ⟨s, hs, -, rfl, -⟩ := mem_steps.mp h
    exact .inr hs

/-- A step and a step back use the dependents once: from a choice the search does not go back to the
member that it came from, nor from a member to the choice. -/
theorem mem_dependents_of_steps (h : (j, b) ∈ m.steps d a i) {b' : Approach}
    (hback : (i, b') ∈ m.steps d b j) : i ∈ d.of j ∨ j ∈ d.of i := by
  cases i with
  | symbol s =>
    rcases mem_steps.mp h with ⟨hj, -⟩ | ⟨c, -, -, rfl, rfl⟩
    · exact .inr hj
    · obtain ⟨t, -, ht, heq, -⟩ := mem_steps.mp hback
      exact absurd (congrArg Approach.owner (Item.symbol.inj heq)) ht
  | choice c =>
    obtain ⟨s, -, -, rfl, rfl⟩ := mem_steps.mp h
    rcases mem_steps.mp hback with ⟨hi, -⟩ | ⟨_, -, hmember, -, -⟩
    · exact .inl hi
    · exact absurd rfl hmember

/-! ### The way back -/

/-- The items that the search went through from an item up to the first one of the list, which it
gives on its way back. -/
inductive Trail (m : Model) (d : Dependents) : Item → Approach → List Item → Prop
  | again (i : Item) (a : Approach) : m.Trail d i a [i]
  | step {i j : Item} {a b : Approach} {loop : List Item} (hstep : (j, b) ∈ m.steps d a i)
      (h : m.Trail d j b loop) : m.Trail d i a (loop ++ [i])

theorem Trail.getLast? (h : m.Trail d i a loop) : loop.getLast? = some i := by
  cases h with
  | again => rfl
  | step => exact List.getLast?_concat

theorem Trail.isChain (hm : m.Sound) (h : m.Trail d i a loop) :
    loop.IsChain (m.DependsOn d) := by
  induction h with
  | again => exact .singleton _
  | step hstep h ih =>
    refine List.isChain_append.mpr ⟨ih, .singleton _, fun x hx y hy => ?_⟩
    obtain rfl := Option.some.inj (h.getLast?.symm.trans hx)
    obtain rfl := Option.some.inj hy
    exact hm.dependsOn_of_step hstep

/-- A trail of two items is one step. -/
theorem Trail.step_of_pair (h : m.Trail d i a [first, j]) : j = i ∧ ∃ b, (first, b) ∈ m.steps d a i := by
  generalize hloop : [first, j] = loop at h
  cases h with
  | again => cases hloop
  | step hstep h =>
    have hloop : [first] ++ [j] = _ ++ [_] := hloop
    obtain ⟨hloop, hj⟩ := List.append_inj' hloop rfl
    subst hloop
    obtain rfl := Option.some.inj h.getLast?
    exact ⟨(List.cons.inj hj).1, _, hstep⟩

/-- A way back from one of some steps to an open item, through items that had not been seen. -/
structure WayBack (m : Model) (d : Dependents) (starts : List (Item × Approach)) (k : Marks)
    (first : Item) (rest : List Item) : Prop where
  isOpen : k.get first = .open
  unseen : ∀ i ∈ rest, k.get i = .unseen
  nodup : rest.Nodup
  trail : ∃ x ∈ starts, m.Trail d x.1 x.2 (first :: rest)

namespace WayBack
variable {starts starts' : List (Item × Approach)}

theorem nodup_cons (h : m.WayBack d starts k first rest) : (first :: rest).Nodup := by
  refine List.nodup_cons.mpr ⟨fun hmem => ?_, h.nodup⟩
  exact nomatch h.isOpen.symm.trans (h.unseen first hmem)

theorem mono (h : m.WayBack d starts k first rest) (hstarts : starts ⊆ starts') :
    m.WayBack d starts' k first rest :=
  let ⟨x, hx, htrail⟩ := h.trail
  { h with trail := ⟨x, hstarts hx, htrail⟩ }

/-- What is open or unseen after other items were done was so before. -/
theorem earlier {P : Item → Prop} (h : m.WayBack d starts k' first rest) (hk : Explored P k k') :
    m.WayBack d starts k first rest where
  isOpen := (hk.stillOpen first).mp h.isOpen
  unseen i hi := by
    have hi := h.unseen i hi
    cases hget : k.get i with
    | unseen => rfl
    | «open» => exact nomatch hi.symm.trans ((hk.stillOpen i).mpr hget)
    | done => exact nomatch hi.symm.trans (hk.done i hget)
  nodup := h.nodup
  trail := h.trail

/-- Back at the item that was met again, the loop is complete. -/
theorem isLoop (hm : m.Sound) (h : m.WayBack d (m.steps d a i) k i rest) :
    m.IsLoop d (i :: rest) := by
  obtain ⟨⟨j, b⟩, hstep, htrail⟩ := h.trail
  refine ⟨List.cons_ne_nil _ _, h.nodup_cons, htrail.isChain hm, fun first hfirst last hlast => ?_,
    fun i' j' hloop => ?_⟩
  · obtain rfl := Option.some.inj hfirst
    obtain rfl := Option.some.inj (htrail.getLast?.symm.trans hlast)
    exact hm.dependsOn_of_step hstep
  · cases hloop
    obtain ⟨rfl, b', hback⟩ := htrail.step_of_pair
    exact mem_dependents_of_steps hstep hback

/-- Further back: the search came from an item that it had opened. -/
theorem back (h : m.WayBack d (m.steps d a i) (k.set .open i) first rest) (hi : k.get i = .unseen)
    (hne : first ≠ i) : m.WayBack d [(i, a)] k first (rest ++ [i]) := by
  have hget := k.get_set .open (i := i) (Marks.hasRoom_of_get (by rw [hi]; decide))
  have hother : ∀ j ∈ rest, i ≠ j ∧ k.get j = .unseen := by
    intro j hj
    have hunseen := h.unseen j hj
    rw [hget] at hunseen
    split at hunseen
    · exact nomatch hunseen
    · next hij => exact ⟨hij, hunseen⟩
  obtain ⟨⟨j, b⟩, hstep, htrail⟩ := h.trail
  refine ⟨?_, fun j hj => ?_, ?_, (i, a), List.mem_singleton_self _, .step hstep htrail⟩
  · have hopen := h.isOpen
    rwa [hget, if_neg hne.symm] at hopen
  · rcases List.mem_append.mp hj with hj | hj
    · exact (hother j hj).2
    · exact List.mem_singleton.mp hj ▸ hi
  · refine List.nodup_append.mpr ⟨h.nodup, List.nodup_singleton i, fun j hj l hl => ?_⟩
    rw [List.mem_singleton.mp hl]
    exact (hother j hj).1.symm

end WayBack

/-! ### What the search finds -/

/-- What a search gives: nothing, when it leaves no item open that was not; or a way back. -/
def Found (m : Model) (d : Dependents) (starts : List (Item × Approach)) (k : Marks) :
    List Item → Marks → Prop
  | [], k' => Explored (fun _ => True) k k'
  | first :: rest, _ => m.WayBack d starts k first rest

/-- Searching from one item after the other, when the search from each of them finds loops. -/
theorem finds_searchAll {f : Item → Approach → Search (List Item)} :
    ∀ (starts : List (Item × Approach)) (k : Marks),
      (∀ x ∈ starts, ∀ k, Meets (f x.1 x.2) k (m.Found d [x] k) fun loop _ => m.IsLoop d loop) →
      Meets (searchAll f starts) k (m.Found d starts k) fun loop _ => m.IsLoop d loop
  | [], _, _ => .pure (.refl fun _ _ => trivial)
  | x :: starts, k, hf => by
    rw [searchAll_cons]
    refine (hf x (List.mem_cons_self ..) k).bind fun loop k₁ hfound => ?_
    cases loop with
    | nil =>
      refine (finds_searchAll starts k₁ fun y hy => hf y (List.mem_cons_of_mem _ hy)).mono
        (fun loop k₂ hfound' => ?_) fun _ _ h => h
      cases loop with
      | nil => exact Explored.trans hfound hfound'
      | cons first rest =>
        exact (WayBack.earlier hfound' hfound).mono (List.subset_cons_self _ _)
    | cons first rest =>
      exact .pure (WayBack.mono hfound (List.cons_subset_cons x (List.nil_subset starts)))

/-- What the search finds from an item, however deep its calls may be nested. -/
theorem finds_search (hm : m.Sound) : ∀ (fuel : Nat) (i : Item) (a : Approach) (k : Marks),
    Meets (m.search d fuel i a) k (m.Found d [(i, a)] k) fun loop _ => m.IsLoop d loop
  | 0, _, _, _ => .pure (.refl fun _ _ => trivial)
  | fuel + 1, i, a, k => by
    unfold search visit
    refine .bind_get ?_
    cases hi : k.get i with
    | done => exact .pure (.refl fun _ _ => trivial)
    | «open» =>
      exact .pure ⟨hi, fun _ h => absurd h List.not_mem_nil, List.nodup_nil, (i, a),
        List.mem_singleton_self _, .again i a⟩
    | unseen =>
      refine .bind (Q := fun _ k₁ => k₁ = k.set .open i) (.update rfl) fun _ k₁ hk₁ => ?_
      subst hk₁
      refine (finds_searchAll _ _ fun x _ => finds_search hm fuel x.1 x.2).bind
        fun loop k₂ hfound => ?_
      cases loop with
      | nil =>
        refine .bind (Q := fun _ k₃ => k₃ = k₂.set .done i) (.update rfl) fun _ k₃ hk₃ => ?_
        subst hk₃
        exact .pure (Explored.close hi hfound trivial)
      | cons first rest =>
        dsimp only
        split
        · next heq =>
          subst heq
          exact .throw (WayBack.isLoop hm hfound)
        · next hne => exact .pure (WayBack.back hfound hi hne)

/-- What the search for loops finds is a loop. -/
theorem Sound.isLoop_of_findLoop? (hm : m.Sound) (h : m.findLoop? d = some loop) :
    m.IsLoop d loop := by
  unfold findLoop? findLoopBy at h
  dsimp only at h
  split at h
  · next loop' k' hrun =>
    obtain rfl := Option.some.inj h
    have hfound := finds_searchAll (m := m) (d := d)
      (m.defined.map fun s => (Item.symbol s, Approach.dependent)) m.noneSeen
      fun x _ => finds_search hm (m.symbols.size + m.choices.size + 2) x.1 x.2
    rw [EStateM.run] at hrun
    exact hfound.of_error hrun
  · exact nomatch h

/-! ### The search ends -/

namespace Marks

theorem set_of_not_hasRoom (k : Marks) (mark : Mark) (hi : ¬ k.HasRoom i) : k.set mark i = k := by
  cases i with
  | symbol s =>
    have hs : k.symbols.size ≤ s := Nat.le_of_not_lt hi
    rw [set, Array.setIfInBounds_eq_of_size_le hs]
  | choice c =>
    have hc : k.choices.size ≤ c := Nat.le_of_not_lt hi
    rw [set, Array.setIfInBounds_eq_of_size_le hc]

/-- No item becomes unseen when another mark is set. -/
theorem unseen_set_le {mark : Mark} (hmark : mark ≠ .unseen) (k : Marks) (i : Item) :
    (k.set mark i).unseen ≤ k.unseen := by
  by_cases hi : k.HasRoom i
  · unfold unseen
    rw [all_set]
    refine List.countP_mono_left fun j _ hj => ?_
    have hj := of_decide_eq_true hj
    rw [get_set k mark hi] at hj
    split at hj
    · exact absurd hj hmark
    · exact decide_eq_true hj
  · rw [set_of_not_hasRoom k mark hi]

end Marks

/-- However the search goes on, it makes no item unseen. -/
abbrev NoNewUnseen (again : Item → Approach → Search (List Item)) : Prop :=
  ∀ n i a, Keeps (fun k => k.unseen ≤ n) (again i a)

theorem keeps_unseen_searchAll {f : Item → Approach → Search (List Item)} (hf : NoNewUnseen f)
    (n : Nat) : ∀ starts : List (Item × Approach),
      Keeps (fun k => k.unseen ≤ n) (searchAll f starts)
  | [] => .pure _
  | (i, a) :: starts => by
    rw [searchAll_cons]
    exact .bind (hf n i a) fun _ => .ite (keeps_unseen_searchAll hf n starts) (.pure _)

theorem noNewUnseen_visit {f : Item → Approach → Search (List Item)} (hf : NoNewUnseen f) :
    NoNewUnseen (m.visit d f) := by
  intro n i a
  have hset : ∀ {mark : Mark}, mark ≠ .unseen →
      Keeps (fun k => k.unseen ≤ n) (modify (·.set mark i) : Search PUnit) := fun hmark =>
    .update fun k hk => Nat.le_trans (Marks.unseen_set_le hmark k i) hk
  unfold visit
  refine .bind .get fun k => ?_
  split
  · exact .pure _
  · exact .pure _
  · refine .bind (hset nofun) fun _ => .bind (keeps_unseen_searchAll hf n _) fun loop => ?_
    split
    · exact .bind (hset nofun) fun _ => .pure _
    · exact .ite (.throw _) (.pure _)

theorem noNewUnseen_search : ∀ fuel : Nat, NoNewUnseen (m.search d fuel)
  | 0 => fun _ _ _ => .pure _
  | fuel + 1 => noNewUnseen_visit (noNewUnseen_search fuel)

/-- The two searches do the same as long as fewer than `n` items are unseen. -/
def Agree (n : Nat) (f g : Item → Approach → Search (List Item)) : Prop :=
  ∀ i a k, k.unseen < n → f i a k = g i a k

variable {f g : Item → Approach → Search (List Item)} {n : Nat}

theorem Agree.searchAll (h : Agree n f g) (hg : NoNewUnseen g) :
    ∀ (starts : List (Item × Approach)) (k : Marks), k.unseen < n →
      Model.searchAll f starts k = Model.searchAll g starts k
  | [], _, _ => rfl
  | (i, a) :: starts, k, hk => by
    rw [searchAll_cons, searchAll_cons, bind_apply, bind_apply, h i a k hk]
    have hkept := hg k.unseen i a k (Nat.le_refl _)
    unfold KeepsAt at hkept
    cases hresult : g i a k with
    | error loop k' => rfl
    | ok loop k' =>
      rw [hresult] at hkept
      cases loop with
      | nil => exact h.searchAll hg starts k' (Nat.lt_of_le_of_lt hkept hk)
      | cons first rest => rfl

/-- A call that goes on has opened an item that was unseen. -/
theorem Agree.visit (h : Agree n f g) (hg : NoNewUnseen g) :
    Agree (n + 1) (m.visit d f) (m.visit d g) := by
  intro i a k hk
  unfold Model.visit
  rw [bind_apply, bind_apply]
  dsimp only [MonadState.get, getThe, MonadStateOf.get, EStateM.get]
  cases hi : k.get i with
  | done => rfl
  | «open» => rfl
  | unseen =>
    have hless : (k.set .open i).unseen < n :=
      Nat.lt_of_lt_of_le (Marks.unseen_set_open hi) (Nat.le_of_lt_succ hk)
    show (Model.searchAll f _ >>= _) (k.set .open i) = (Model.searchAll g _ >>= _) (k.set .open i)
    rw [bind_apply, bind_apply, h.searchAll hg _ _ hless]

/-- Calls are not nested deeper than there are unseen items, and one more: what calls beyond that
depth would do does not matter. -/
theorem agree_iterate_visit (beyond : Item → Approach → Search (List Item)) :
    ∀ n : Nat, Agree n ((m.visit d)^[n] beyond) (m.search d n)
  | 0 => fun _ _ _ hk => absurd hk (Nat.not_lt_zero _)
  | n + 1 => by
    rw [Function.iterate_succ_apply']
    exact (agree_iterate_visit beyond n).visit (noNewUnseen_search n)

/-- In every graph the search for loops ends: so many calls inside each other are enough, and what
deeper ones would do makes no difference. -/
theorem findLoop?_ends (m : Model) (d : Dependents)
    (beyond : Item → Approach → Search (List Item)) : m.findLoop? d =
      m.findLoopBy ((m.visit d)^[m.symbols.size + m.choices.size + 2] beyond) := by
  have hagree := agree_iterate_visit (m := m) (d := d) beyond (m.symbols.size + m.choices.size + 2)
  have hsame := hagree.searchAll (noNewUnseen_search _)
    (m.defined.map fun s => (Item.symbol s, Approach.dependent)) m.noneSeen m.unseen_noneSeen_lt
  unfold findLoop? findLoopBy
  dsimp only
  rw [EStateM.run, EStateM.run, hsame]

end Model
end Kconfig
