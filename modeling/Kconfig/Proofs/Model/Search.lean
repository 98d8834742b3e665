import Kconfig.Proofs.Action
import Kconfig.Proofs.Values.Dependents
import Kconfig.Proofs.Values.Entering
/-!
The search for loops is thorough.

The search goes from a symbol to its dependents and from a choice to its members, and marks an item
as done when it comes back from it. When no loop is found, whatever holds of an item as soon as it
holds of all items that the search goes to from there holds of every item: the items were done in an
order that shows it. A choice that is entered from a member is not left to that member again, but
then everything that depends on the member is done already.
-/
namespace Kconfig
open Dependents

namespace Model

namespace Marks
variable {k : Marks} {i j : Item} {mark : Mark}

/-- Whether marks have room for an item. -/
def HasRoom (k : Marks) : Item → Prop
  | .symbol s => s < k.symbols.size
  | .choice c => c < k.choices.size

theorem get_set (k : Marks) (mark : Mark) {i : Item} (hi : k.HasRoom i) (j : Item) :
    (k.set mark i).get j = if i = j then mark else k.get j := by
  cases i with
  | symbol s =>
    cases j with
    | symbol t =>
      have hs : s < k.symbols.size := hi
      simp only [set, get, Array.getElem?_setIfInBounds, Item.symbol.injEq]
      split
      · next h => simp
      · rfl
    | choice c => rw [if_neg nofun]; rfl
  | choice c =>
    cases j with
    | symbol t => rw [if_neg nofun]; rfl
    | choice e =>
      have hc : c < k.choices.size := hi
      simp only [set, get, Array.getElem?_setIfInBounds, Item.choice.injEq]
      split
      · next h => simp
      · rfl

/-- What is not done has room. -/
theorem hasRoom_of_get (h : k.get i ≠ .done) : k.HasRoom i := by
  cases i with
  | symbol s =>
    refine Nat.lt_of_not_le fun hle => h ?_
    simp only [get]
    rw [Array.getElem?_eq_none hle]
    rfl
  | choice c =>
    refine Nat.lt_of_not_le fun hle => h ?_
    simp only [get]
    rw [Array.getElem?_eq_none hle]
    rfl

/-- All items that marks have room for. -/
def all (k : Marks) : List Item :=
  (List.range k.symbols.size).map .symbol ++ (List.range k.choices.size).map .choice

theorem mem_all (h : k.HasRoom i) : i ∈ k.all := by
  cases i with
  | symbol s => exact List.mem_append_left _ (List.mem_map_of_mem (List.mem_range.mpr h))
  | choice c => exact List.mem_append_right _ (List.mem_map_of_mem (List.mem_range.mpr h))

/-- How many items have not been seen. -/
def unseen (k : Marks) : Nat := k.all.countP fun i => k.get i = .unseen

theorem all_set (k : Marks) (mark : Mark) (i : Item) : (k.set mark i).all = k.all := by
  cases i <;> simp [set, all]

theorem unseen_set_open (h : k.get i = .unseen) : (k.set .open i).unseen < k.unseen := by
  have hroom := hasRoom_of_get (h ▸ by decide : k.get i ≠ .done)
  unfold unseen
  rw [all_set]
  refine Lists.countP_lt (fun j hj => ?_) (x := i) ?_ (decide_eq_true h) _ (mem_all hroom)
  · have hj := of_decide_eq_true hj
    rw [get_set k _ hroom] at hj
    split at hj
    · exact nomatch hj
    · exact decide_eq_true hj
  · rw [get_set k _ hroom, if_pos rfl]
    rfl

theorem unseen_le_length (k : Marks) : k.unseen ≤ k.symbols.size + k.choices.size := by
  have hlength : k.all.length = k.symbols.size + k.choices.size := by simp [all]
  exact hlength ▸ List.countP_le_length

end Marks

variable {m : Model} {d : Dependents} {P : Item → Prop}

/-- Whatever holds of all items that the search goes to from an item holds of the item. -/
structure Inductive (m : Model) (d : Dependents) (P : Item → Prop) : Prop where
  symbol : ∀ s, (∀ j ∈ d.of (.symbol s), P j) → P (.symbol s)
  choice : ∀ c, (∀ s ∈ (m.choice c).members, P (.symbol s)) → P (.choice c)

/-- The items that are done have the property. -/
def AllDone (P : Item → Prop) (k : Marks) : Prop := ∀ i, k.get i = .done → P i

/-- More items are done, with the property, and the same ones are open. -/
structure Explored (P : Item → Prop) (k k' : Marks) : Prop where
  all : k'.all = k.all
  stillOpen : ∀ i, k'.get i = .open ↔ k.get i = .open
  done : ∀ i, k.get i = .done → k'.get i = .done
  allDone : AllDone P k'

theorem Explored.refl {k : Marks} (h : AllDone P k) : Explored P k k :=
  ⟨rfl, fun _ => Iff.rfl, fun _ h => h, h⟩

theorem Explored.trans {k k' k'' : Marks} (h : Explored P k k') (h' : Explored P k' k'') :
    Explored P k k'' :=
  ⟨h'.all.trans h.all, fun i => (h'.stillOpen i).trans (h.stillOpen i),
    fun i hi => h'.done i (h.done i hi), h'.allDone⟩

theorem Explored.unseen_le {k k' : Marks} (h : Explored P k k') : k'.unseen ≤ k.unseen := by
  unfold Marks.unseen
  rw [h.all]
  refine List.countP_mono_left fun i _ hi => ?_
  have hi := of_decide_eq_true hi
  cases hk : k.get i with
  | unseen => rfl
  | «open» =>
    rw [(h.stillOpen i).mpr hk] at hi
    exact nomatch hi
  | done =>
    rw [h.done i hk] at hi
    exact nomatch hi

/-- An item that was opened is done when all is that was searched from there. -/
theorem Explored.close {k k' : Marks} {i : Item} (hi : k.get i = .unseen)
    (h : Explored P (k.set .open i) k') (hP : P i) : Explored P k (k'.set .done i) := by
  have hget := k.get_set .open (Marks.hasRoom_of_get (k := k) (i := i) (by rw [hi]; decide))
  have hopen : k'.get i = .open := (h.stillOpen i).mpr (by rw [hget, if_pos rfl])
  have hget' := k'.get_set .done (Marks.hasRoom_of_get (by rw [hopen]; decide))
  refine ⟨?_, fun j => ?_, fun j hj => ?_, fun j hj => ?_⟩
  · rw [Marks.all_set, h.all, Marks.all_set]
  · rw [hget']
    split
    · next hij => rw [← hij, hi]; exact ⟨nofun, nofun⟩
    · next hij => rw [h.stillOpen j, hget, if_neg hij]
  · rw [hget']
    split
    · rfl
    · next hij => exact h.done j (by rwa [hget, if_neg hij])
  · rw [hget'] at hj
    split at hj
    · next hij => exact hij ▸ hP
    · exact h.allDone j hj

/-- A search with room for `n` unseen items: without a loop it leaves items done; a loop that it
gives starts with an item that was open. -/
def Explores (P : Item → Prop) (n : Nat) (reached : List Item) (action : Search (List Item)) :
    Prop :=
  ∀ k loop k', k.unseen < n → AllDone P k → action k = .ok loop k' →
    (loop = [] → Explored P k k' ∧ ∀ i ∈ reached, k'.get i = .done) ∧
      ∀ first more, loop = first :: more → k.get first = .open

theorem Explores.nil (n : Nat) : Explores P n [] (pure []) := by
  intro k loop k' _ hk h
  injection h with hloop hk'
  subst hloop hk'
  exact ⟨fun _ => ⟨.refl hk, fun _ h => absurd h List.not_mem_nil⟩, nofun⟩

/-- One search after the other; the later one may use that the first one came back. -/
theorem Explores.next {n : Nat} {xs ys : List Item} {action next : Search (List Item)}
    (h : Explores P n xs action) (hnext : (∀ i ∈ xs, P i) → Explores P n ys next) :
    Explores P n (xs ++ ys) (do
      let loop ← action
      if loop.isEmpty then next else pure loop) := by
  intro k loop k'' hn hk hrun
  obtain ⟨loop₁, k', haction, hrun⟩ := bind_ok hrun
  obtain ⟨hnone, hsome⟩ := h k loop₁ k' hn hk haction
  cases loop₁ with
  | nil =>
    obtain ⟨hexplored, hxs⟩ := hnone rfl
    obtain ⟨hnone', hsome'⟩ := hnext (fun i hi => hexplored.allDone i (hxs i hi)) k' loop k''
      (Nat.lt_of_le_of_lt hexplored.unseen_le hn) hexplored.allDone hrun
    refine ⟨fun hloop => ?_, fun first more hloop => ?_⟩
    · obtain ⟨hexplored', hys⟩ := hnone' hloop
      refine ⟨hexplored.trans hexplored', fun i hi => ?_⟩
      exact (List.mem_append.mp hi).elim (fun hi => hexplored'.done i (hxs i hi)) (hys i)
    · exact (hexplored.stillOpen first).mp (hsome' first more hloop)
  | cons first more =>
    injection hrun with hloop hk''
    subst hloop hk''
    refine ⟨nofun, fun first' more' heq => ?_⟩
    exact hsome first' more' heq

theorem searchAll_cons (f : Item → Approach → Search (List Item)) (i : Item) (a : Approach)
    (steps : List (Item × Approach)) : searchAll f ((i, a) :: steps) = (do
      let loop ← f i a
      if loop.isEmpty then searchAll f steps else pure loop) := by
  rw [searchAll]

/-- Searching from one item after the other. -/
theorem explores_searchAll {n : Nat} {f : Item → Approach → Search (List Item)} :
    ∀ steps : List (Item × Approach), (∀ x ∈ steps, Explores P n [x.1] (f x.1 x.2)) →
      Explores P n (steps.map (·.1)) (searchAll f steps)
  | [], _ => .nil n
  | (i, a) :: steps, h => by
    rw [searchAll_cons]
    have hfirst : Explores P n [i] (f i a) := h (i, a) (List.mem_cons_self ..)
    exact hfirst.next fun _ =>
      explores_searchAll steps fun x hx => h x (List.mem_cons_of_mem _ hx)

theorem searchAll_append (f : Item → Approach → Search (List Item)) :
    ∀ xs ys : List (Item × Approach), searchAll f (xs ++ ys) = (do
      let loop ← searchAll f xs
      if loop.isEmpty then searchAll f ys else pure loop)
  | [], ys => by
    funext k
    rw [List.nil_append, bind_apply]
    rfl
  | (i, a) :: xs, ys => by
    funext k
    rw [List.cons_append, searchAll_cons, searchAll_cons, bind_apply, bind_apply, bind_apply,
      searchAll_append f xs ys]
    cases f i a k with
    | ok loop k' =>
      dsimp only
      cases loop with
      | nil => rfl
      | cons first more => rfl
    | error loop k' => rfl

/-- When an item is entered from a member, what depends on the member is done. -/
def Approach.Prepared (d : Dependents) (P : Item → Prop) : Approach → Prop
  | .owner s => ∀ j ∈ d.of (.symbol s), P j
  | _ => True

/-- The steps from an item are searched thoroughly, and the item needs no more than them. -/
theorem explores_steps (hP : m.Inductive d P) {n : Nat}
    {f : Item → Approach → Search (List Item)}
    (hf : ∀ i a, a.Prepared d P → Explores P n [i] (f i a)) {i : Item} {a : Approach}
    (ha : a.Prepared d P) :
    ∃ reached, Explores P n reached (searchAll f (m.steps d a i)) ∧
      ((∀ j ∈ reached, P j) → P i) := by
  cases i with
  | symbol s =>
    have hmem : ∀ j ∈ d.of (.symbol s),
        j ∈ ((d.of (.symbol s)).map (·, Approach.dependent)).map (·.1) := by
      intro j hj
      exact List.mem_map.mpr ⟨_, List.mem_map_of_mem hj, rfl⟩
    rw [steps, searchAll_append]
    refine ⟨_, Explores.next (explores_searchAll _ fun x hx => ?_)
      (fun hdone => explores_searchAll _ fun x hx => ?_), fun hreached => hP.symbol s fun j hj => ?_⟩
    · obtain ⟨j, -, rfl⟩ := List.mem_map.mp hx
      exact hf j .dependent trivial
    · refine hf x.1 x.2 ?_
      split at hx
      · split at hx
        · exact absurd hx List.not_mem_nil
        · obtain rfl := List.mem_singleton.mp hx
          exact fun j hj => hdone j (hmem j hj)
      · exact absurd hx List.not_mem_nil
    · exact hreached j (List.mem_append_left _ (hmem j hj))
  | choice c =>
    refine ⟨_, explores_searchAll _ fun x hx => ?_, fun hreached => hP.choice c fun s hs => ?_⟩
    · obtain ⟨s, -, rfl⟩ := List.mem_map.mp hx
      exact hf (.symbol s) .member trivial
    · by_cases howner : a = .owner s
      · rw [howner] at ha
        exact hP.symbol s ha
      · refine hreached _ (List.mem_map.mpr ⟨(.symbol s, .member), List.mem_map.mpr ⟨s, ?_, rfl⟩, rfl⟩)
        exact List.mem_filter.mpr ⟨hs, decide_eq_true howner⟩

/-- With enough fuel the search from an item is thorough. -/
theorem explores_search (hP : m.Inductive d P) :
    ∀ (fuel : Nat) (i : Item) (a : Approach), a.Prepared d P →
      Explores P fuel [i] (search m d fuel i a)
  | 0, _, _, _ => fun _ _ _ hn _ _ => absurd hn (Nat.not_lt_zero _)
  | fuel + 1, i, a, ha => by
    intro k loop k₃ hn hk hrun
    obtain ⟨reached, hsteps, hneeds⟩ := explores_steps hP (explores_search hP fuel) (i := i) ha
    unfold search visit at hrun
    obtain ⟨_, _, hget, hrun⟩ := bind_ok hrun
    injection hget with h₁ h₂
    subst h₁ h₂
    cases hi : k.get i with
    | done =>
      rw [hi] at hrun
      injection hrun with hloop hk₃
      subst hloop hk₃
      refine ⟨fun _ => ⟨.refl hk, fun j hj => ?_⟩, nofun⟩
      rw [List.mem_singleton.mp hj]
      exact hi
    | «open» =>
      rw [hi] at hrun
      injection hrun with hloop hk₃
      subst hloop hk₃
      refine ⟨nofun, fun first more heq => ?_⟩
      rw [← (List.cons.inj heq).1]
      exact hi
    | unseen =>
      rw [hi] at hrun
      have hroom := Marks.hasRoom_of_get (k := k) (i := i) (by rw [hi]; decide)
      obtain ⟨_, k₁, hopen, hrun⟩ := bind_ok hrun
      injection hopen with _ hk₁
      subst hk₁
      obtain ⟨loop₁, k₂, hsearch, hrun⟩ := bind_ok hrun
      have hget := k.get_set .open hroom
      have hdone : AllDone P (k.set .open i) := by
        intro j hj
        rw [hget] at hj
        split at hj
        · exact nomatch hj
        · exact hk j hj
      have hless : (k.set .open i).unseen < fuel :=
        Nat.lt_of_lt_of_le (Marks.unseen_set_open hi) (Nat.le_of_lt_succ hn)
      obtain ⟨hnone, hsome⟩ := hsteps _ _ _ hless hdone hsearch
      cases loop₁ with
      | nil =>
        obtain ⟨hexplored, hreached⟩ := hnone rfl
        obtain ⟨_, k', hclose, hrun⟩ := bind_ok hrun
        injection hclose with _ hk'
        subst hk'
        injection hrun with hloop hk₃
        subst hloop hk₃
        have hiOpen : k₂.get i = .open := (hexplored.stillOpen i).mpr (by rw [hget, if_pos rfl])
        have hget' := k₂.get_set .done (Marks.hasRoom_of_get (by rw [hiOpen]; decide))
        have hPi : P i := hneeds fun j hj => hexplored.allDone j (hreached j hj)
        refine ⟨fun _ => ⟨hexplored.close hi hPi, fun j hj => ?_⟩, nofun⟩
        rw [List.mem_singleton.mp hj, hget', if_pos rfl]
      | cons first more =>
        dsimp only at hrun
        split at hrun
        · exact nomatch hrun
        · next hne =>
          injection hrun with hloop hk₃
          subst hloop hk₃
          refine ⟨nofun, fun first' more' heq => ?_⟩
          rw [← (List.cons.inj heq).1]
          have hopen := hsome first more rfl
          rwa [hget, if_neg fun h => hne h.symm] at hopen

/-- The model has no such symbol or choice. -/
def Lacks (m : Model) : Item → Prop
  | .symbol s => m.symbols.size ≤ s
  | .choice c => m.choices.size ≤ c

theorem get_noneSeen (m : Model) (i : Item) :
    m.noneSeen.get i = .unseen ∨ m.noneSeen.get i = .done ∧ m.Lacks i := by
  cases i with
  | symbol s =>
    by_cases h : s < m.symbols.size
    · exact .inl (by simp [noneSeen, Marks.get, h])
    · exact .inr ⟨by simp [noneSeen, Marks.get, h], Nat.le_of_not_lt h⟩
  | choice c =>
    by_cases h : c < m.choices.size
    · exact .inl (by simp [noneSeen, Marks.get, h])
    · exact .inr ⟨by simp [noneSeen, Marks.get, h], Nat.le_of_not_lt h⟩

/-- The search has room for all items that are unseen at first. -/
theorem unseen_noneSeen_lt (m : Model) :
    m.noneSeen.unseen < m.symbols.size + m.choices.size + 2 := by
  have hle := m.noneSeen.unseen_le_length
  simp only [noneSeen, Array.size_replicate] at hle
  exact Nat.lt_of_le_of_lt hle (by omega)

/-- When no loop is found, what the search goes along shows a property of all defined symbols. -/
theorem holds_of_findLoop? (hloop : m.findLoop? d = none) (hP : m.Inductive d P)
    (hlacks : ∀ i, m.Lacks i → P i) {s : SymbolId} (hs : s ∈ m.defined) : P (.symbol s) := by
  have hstart : AllDone P m.noneSeen := by
    intro i hi
    rcases m.get_noneSeen i with hunseen | ⟨-, hlack⟩
    · rw [hunseen] at hi
      exact nomatch hi
    · exact hlacks i hlack
  have hexplores := explores_searchAll (P := P)
    (m.defined.map fun s => (Item.symbol s, Approach.dependent)) fun x hx => by
      obtain ⟨t, -, rfl⟩ := List.mem_map.mp hx
      exact explores_search hP (m.symbols.size + m.choices.size + 2) (.symbol t) .dependent trivial
  unfold findLoop? findLoopBy at hloop
  dsimp only at hloop
  split at hloop
  · exact nomatch hloop
  · next loop k' hrun =>
    obtain ⟨hnone, hsome⟩ := hexplores m.noneSeen loop k' m.unseen_noneSeen_lt hstart hrun
    cases loop with
    | nil =>
      obtain ⟨hexplored, hreached⟩ := hnone rfl
      refine hexplored.allDone _ (hreached _ ?_)
      exact List.mem_map.mpr ⟨_, List.mem_map_of_mem hs, rfl⟩
    | cons first more =>
      have hopen := hsome first more rfl
      rcases m.get_noneSeen first with hget | ⟨hget, -⟩ <;>
      · rw [hget] at hopen
        exact nomatch hopen

/-! ### The search among readers -/

/-- The search goes from one item to another, along readers. -/
def Leads (m : Model) : Item → Item → Prop
  | .symbol s, j => j ∈ m.readers.of (.symbol s)
  | .choice c, j => ∃ s ∈ (m.choice c).members, j = .symbol s

theorem size_readers (m : Model) : m.readers.ofSymbols.size = m.symbols.size := by
  have hnone : (⟨.replicate m.symbols.size [], .replicate m.choices.size []⟩ :
      Dependents).ofSymbols.size = m.symbols.size := Array.size_replicate
  refine Lists.foldl_keeps (fun d : Dependents => d.ofSymbols.size = m.symbols.size)
    (readers_step_keeps _ fun d on j h => ?_) m.items hnone
  cases on with
  | symbol s => exact Array.size_modify.trans h
  | choice c => exact h

theorem readers_of_lacks {s : SymbolId} (hs : m.symbols.size ≤ s) :
    m.readers.of (.symbol s) = [] := by
  simp only [Dependents.of]
  rw [Array.getElem?_eq_none (m.size_readers ▸ hs)]
  rfl

/-- Only items of the model read. -/
theorem mem_items_of_mem_readers {i j : Item} (h : j ∈ m.readers.of i) : j ∈ m.items := by
  have hadd : ∀ (d : Dependents) (on k : Item), k ∈ m.items →
      (∀ i, ∀ j ∈ d.of i, j ∈ m.items) → ∀ i, ∀ j ∈ (d.add on k).of i, j ∈ m.items := by
    intro d on k hk hd i j hj
    rcases mem_of_add hj with hj | rfl
    · exact hd i j hj
    · exact hk
  have hreaders : ∀ i, ∀ j ∈ m.readers.of i, j ∈ m.items := by
    refine List.foldlRecOn (motive := fun d : Dependents => ∀ i, ∀ j ∈ d.of i, j ∈ m.items)
      m.items _ ?_ fun d hd k hk => ?_
    · intro i j hj
      cases i with
      | symbol s =>
        simp only [Dependents.of, Array.getElem?_replicate] at hj
        split at hj <;> exact absurd hj List.not_mem_nil
      | choice c =>
        simp only [Dependents.of, Array.getElem?_replicate] at hj
        split at hj <;> exact absurd hj List.not_mem_nil
    · refine Lists.foldl_keeps (fun d : Dependents => ∀ i, ∀ j ∈ d.of i, j ∈ m.items)
        (fun d on hd => ?_) _ hd
      split
      · exact hd
      · exact hadd d on k hk hd
  exact hreaders i j h

theorem symbol_mem_items {s : SymbolId} : .symbol s ∈ m.items ↔ s ∈ m.defined := by
  simp [items]

/-- When no loop is found, whatever the search goes to from an item ends somewhere. -/
theorem Sound.acc_leads (hm : m.Sound) (hloop : m.findLoop? m.readers = none) {i : Item}
    (hi : i ∈ m.items) : Acc (fun j i => m.Leads i j) i := by
  have hP : m.Inductive m.readers (Acc fun j i => m.Leads i j) := by
    constructor
    · exact fun s hs => ⟨_, fun j hj => hs j hj⟩
    · rintro c hc
      refine ⟨_, ?_⟩
      rintro _ ⟨s, hs, rfl⟩
      exact hc s hs
  have hlacks : ∀ i, m.Lacks i → Acc (fun j i => m.Leads i j) i := by
    intro i hi
    cases i with
    | symbol s =>
      refine hP.symbol s fun j hj => ?_
      rw [readers_of_lacks hi] at hj
      exact absurd hj List.not_mem_nil
    | choice c =>
      refine hP.choice c fun s hs => ?_
      rw [choice_of_size_le hi] at hs
      exact absurd hs List.not_mem_nil
  have hsymbol : ∀ s ∈ m.defined, Acc (fun j i => m.Leads i j) (.symbol s) := fun s hs =>
    holds_of_findLoop? hloop hP hlacks hs
  cases i with
  | symbol s => exact hsymbol s (symbol_mem_items.mp hi)
  | choice c => exact hP.choice c fun s hs => hsymbol s (hm.memberDefined c s hs)

/-- What the search goes to is an item of the model. -/
theorem Sound.mem_items_of_leads (hm : m.Sound) {i j : Item} (h : m.Leads i j) : j ∈ m.items := by
  cases i with
  | symbol s => exact mem_items_of_mem_readers h
  | choice c =>
    obtain ⟨s, hs, rfl⟩ := h
    exact symbol_mem_items.mpr (hm.memberDefined c s hs)

/-- When no loop is found, the search goes from no item back to it. -/
theorem Sound.no_loop_leads (hm : m.Sound) (hloop : m.findLoop? m.readers = none) (i : Item) :
    ¬ Relation.TransGen m.Leads i i := by
  intro hi
  have hmem : i ∈ m.items := by
    cases hi with
    | single h => exact hm.mem_items_of_leads h
    | tail _ h => exact hm.mem_items_of_leads h
  exact no_loop_of_acc (hm.acc_leads hloop hmem) hi

end Model
end Kconfig
