import Kconfig.Proofs.Model.Sound
import Kconfig.Proofs.Values.Support
/-!
Dependents hold what answers hang on.

`readers` lists every item under each item that it reads, and `addMembers` lists every choice under
its members. In a sound model, whose choices are kept tidy, an answer therefore hangs on its own
item, on items whose values never change, and on items that its own item is a dependent of.
-/
namespace Kconfig

namespace Dependents
variable {d : Dependents} {i j on dependent : Item}

/-- Putting a dependent under one entry of a table leaves what the entries hold. -/
private theorem mem_modify {table : Array (List Item)} {k n : Nat} (h : j ∈ table[n]?.getD []) :
    j ∈ (table.modify k fun items =>
      if items.contains dependent then items else items ++ [dependent])[n]?.getD [] := by
  rw [Array.getElem?_modify]
  split
  · cases hn : table[n]? with
    | none => simp [hn] at h
    | some items =>
      rw [hn] at h
      show j ∈ if items.contains dependent then items else items ++ [dependent]
      split
      · exact h
      · exact List.mem_append_left _ h
  · exact h

private theorem mem_modify_self {table : Array (List Item)} {n : Nat} (h : n < table.size) :
    dependent ∈ (table.modify n fun items =>
      if items.contains dependent then items else items ++ [dependent])[n]?.getD [] := by
  rw [Array.getElem?_modify, if_pos rfl, Array.getElem?_eq_getElem h]
  show dependent ∈ if table[n].contains dependent then table[n] else table[n] ++ [dependent]
  split
  · next hin => exact List.contains_iff_mem.mp hin
  · exact List.mem_append_right _ (List.mem_cons_self ..)

private theorem mem_of_modify {table : Array (List Item)} {k n : Nat}
    (h : j ∈ (table.modify k fun items =>
      if items.contains dependent then items else items ++ [dependent])[n]?.getD []) :
    j ∈ table[n]?.getD [] ∨ j = dependent := by
  rw [Array.getElem?_modify] at h
  split at h
  · cases hn : table[n]? with
    | none => simp [hn] at h
    | some items =>
      rw [hn] at h
      change j ∈ if items.contains dependent then items else items ++ [dependent] at h
      split at h
      · exact .inl h
      · exact (List.mem_append.mp h).imp_right List.mem_singleton.mp
  · exact .inl h

/-- A further dependent is the only new one. -/
theorem mem_of_add (h : j ∈ (d.add on dependent).of i) : j ∈ d.of i ∨ j = dependent := by
  cases on with
  | symbol t =>
    cases i with
    | symbol s => exact mem_of_modify h
    | choice c => exact .inl h
  | choice t =>
    cases i with
    | symbol s => exact .inl h
    | choice c => exact mem_of_modify h

/-- Whether dependents have room for an item. -/
def HasRoom : Item → Dependents → Prop
  | .symbol s, d => s < d.ofSymbols.size
  | .choice c, d => c < d.ofChoices.size

/-- Whether dependents list one item under another. -/
def Lists (j i : Item) (d : Dependents) : Prop := j ∈ d.of i

theorem Lists.add (h : Lists j i d) : Lists j i (d.add on dependent) := by
  cases on with
  | symbol t =>
    cases i with
    | symbol s => exact mem_modify h
    | choice c => exact h
  | choice t =>
    cases i with
    | symbol s => exact h
    | choice c => exact mem_modify h

theorem Lists.self (h : HasRoom on d) : Lists dependent on (d.add on dependent) := by
  cases on with
  | symbol s => exact mem_modify_self h
  | choice c => exact mem_modify_self h

theorem HasRoom.add (h : HasRoom i d) : HasRoom i (d.add on dependent) := by
  cases on <;> cases i <;> simpa [Dependents.add, HasRoom] using h

end Dependents

namespace Model
open Plan Dependents Kconfig.Lists
variable {m : Model} {u : UserValues} {v : Valuation}

theorem hasRoom_empty {i : Item} (h : ¬ m.Fixed i) : HasRoom i
    ⟨.replicate m.symbols.size [], .replicate m.choices.size []⟩ := by
  cases i with
  | symbol s =>
    simpa [HasRoom] using Nat.lt_of_not_le fun hle => h (fixed_of_size_le hle)
  | choice c =>
    simpa [HasRoom] using Nat.lt_of_not_le fun hle => h (fixed_choice_of_size_le hle)

/-- Listing an item under what it reads keeps what adding a dependent keeps. -/
theorem readers_step_keeps (P : Dependents → Prop) (hP : ∀ d on j, P d → P (d.add on j)) :
    ∀ d i, P d → P ((m.reads i).foldl
      (fun d on => if m.isConstant on then d else d.add on i) d) := by
  intro d i h
  refine foldl_keeps P (fun d on h => ?_) (m.reads i) h
  split
  · exact h
  · exact hP d on i h

/-- An item is listed under everything that it reads and that can change. -/
theorem mem_readers {i j : Item} (hj : j ∈ m.items) (hi : i ∈ m.reads j) (hfixed : ¬ m.Fixed i)
    (hconst : m.isConstant i = false) : j ∈ m.readers.of i := by
  refine foldl_reaches (HasRoom i) (Lists j i) ?_ ?_ ?_ m.items (hasRoom_empty hfixed) hj
  · exact readers_step_keeps _ fun d on j h => h.add
  · exact readers_step_keeps _ fun d on j h => h.add
  · intro d hd
    refine foldl_reaches (HasRoom i) (Lists j i) ?_ ?_ ?_ (m.reads j) hd hi
    · intro d on h
      split
      · exact h
      · exact h.add
    · intro d on h
      split
      · exact h
      · exact h.add
    · intro d hd
      rw [hconst]
      exact .self hd

/-- What the evaluation forgets along: readers, and choices under their members. -/
def dependents (m : Model) : Dependents := m.addMembers m.readers

theorem mem_dependents_of_reads {i j : Item} (hj : j ∈ m.items) (hi : i ∈ m.reads j)
    (hfixed : ¬ m.Fixed i) (hconst : m.isConstant i = false) : j ∈ m.dependents.of i := by
  refine foldl_keeps (Lists j i) (fun d c h => ?_) m.definedChoices
    (mem_readers hj hi hfixed hconst)
  exact foldl_keeps (Lists j i) (fun d s h => h.add) (m.choice c).members h

theorem mem_dependents_of_member {s : SymbolId} {c : ChoiceId} (hc : c ∈ m.definedChoices)
    (hs : s ∈ (m.choice c).members) (hfixed : ¬ m.Fixed (.symbol s)) :
    Item.choice c ∈ m.dependents.of (.symbol s) := by
  have hstart : HasRoom (.symbol s) m.readers :=
    foldl_keeps (HasRoom _) (readers_step_keeps _ fun d on j h => h.add) m.items
      (hasRoom_empty hfixed)
  refine foldl_reaches (HasRoom (.symbol s)) (Lists (.choice c) (.symbol s)) ?_ ?_ ?_
    m.definedChoices hstart hc
  · exact fun d c' h => foldl_keeps (HasRoom _) (fun d s h => h.add) _ h
  · exact fun d c' h => foldl_keeps (Lists _ _) (fun d s h => h.add) _ h
  · intro d hd
    refine foldl_reaches (HasRoom (.symbol s)) (Lists (.choice c) (.symbol s)) ?_ ?_ ?_
      (m.choice c).members hd hs
    · exact fun d s h => h.add
    · exact fun d s h => h.add
    · exact fun d hd => .self hd

/-! ### What an answer hangs on -/

variable (hm : m.Sound)
include hm

theorem Sound.dependent_of_near {q q' : Query} (hi : ¬ m.Fixed q.item) (hq' : m.Near q q') :
    q'.item = q.item ∨ m.Fixed q'.item ∨ q.item ∈ m.dependents.of q'.item := by
  rcases hq' with ⟨hq, -⟩ | hq
  · exact .inl hq
  · by_cases hfixed : m.Fixed q'.item
    · exact .inr (.inl hfixed)
    · exact .inr <| .inr <|
        mem_dependents_of_reads (hm.mem_items hi) hq hfixed (hm.not_constant hfixed)

theorem Sound.holds_no (hv : m.Fixes v) : (m.holds .no).result v = false := by
  show (v (.level (.symbol noId))).value = false
  rw [hv (.level (.symbol noId)) hm.noFixed]
  rfl

/-- A visible symbol whose prompts stand inside a choice reads the choice. -/
theorem Sound.choice_mem_reads (hv : m.Fixes v) {s : SymbolId} {c : ChoiceId}
    (hprompts : ∀ n ∈ (m.symbol s).nodes, (m.node n).prompt.isSome →
      ((m.linksOf n).parent.map fun n => (m.node n).entry) = some (.choice c))
    (hvisible : (m.visibility (.symbol s)).result v = true) :
    Item.choice c ∈ m.reads (.symbol s) := by
  obtain ⟨e, he, hholds⟩ := anyHolds_result hvisible
  obtain ⟨n, hn, hprompt⟩ := List.mem_filterMap.mp he
  obtain ⟨p, hp, rfl⟩ := Option.map_eq_some_iff.mp hprompt
  rcases hm.inside n c p (hprompts n hn (by rw [hp]; rfl)) hp with hno | hmem
  · rw [hno, hm.holds_no hv] at hholds
    exact absurd hholds Bool.false_ne_true
  · exact List.mem_append_left _ (List.mem_flatMap.mpr ⟨_, he, hmem⟩)

/-- An answer hangs on its own item, on items whose values never change, and on items that its own
item is a dependent of, but for the selection of a choice that looks at what is not its member, and
for a member that looks at the selection without reading the choice. -/
theorem Sound.dependent_unless (hv : m.Fixes v) {q q' : Query}
    (hq' : q' ∈ (m.valueRule u q).asked v) :
    q'.item = q.item ∨ m.Fixed q'.item ∨ q.item ∈ m.dependents.of q'.item ∨
      (∃ c s, q = .selection c ∧ q' = .visible (.symbol s) ∧ m.MaySelect u c s ∧
        s ∉ (m.choice c).members) ∨
      ∃ s c, q = .level (.symbol s) ∧ q' = .selection c ∧ (m.symbol s).choice = some c ∧
        v (.visible (.symbol s)) = true ∧ Item.choice c ∉ m.reads (.symbol s) := by
  by_cases hfixed : m.Fixed q.item
  · exact .inl (asked_of_fixed hv hfixed (valueRule_asked hq')).1
  have hlisted {R : Prop} (hnear : m.Near q q') : q'.item = q.item ∨ m.Fixed q'.item ∨
      q.item ∈ m.dependents.of q'.item ∨ R :=
    (hm.dependent_of_near hfixed hnear).imp_right fun h => h.imp_right .inl
  by_cases hselection : ∃ c, q = .selection c
  · obtain ⟨c, rfl⟩ := hselection
    rcases selectionRule_asks c v q' hq' with hnear | ⟨s, rfl, hs⟩
    · exact hlisted hnear
    · by_cases hmem : s ∈ (m.choice c).members
      · by_cases hfixed' : m.Fixed (.symbol s)
        · exact .inr (.inl hfixed')
        · exact .inr <| .inr <| .inl <|
            mem_dependents_of_member (hm.definedChoice c hfixed) hmem hfixed'
      · exact .inr (.inr (.inr (.inl ⟨c, s, rfl, rfl, hs, hmem⟩)))
  · by_cases hmember : ∀ s c, q = .level (.symbol s) → (m.symbol s).choice = some c →
        v (.visible (.symbol s)) = false
    · exact hlisted (valueRule_near (fun c hc => hselection ⟨c, hc⟩) hmember hq')
    · -- a visible member looks at the selection of its choice
      obtain ⟨s, c, rfl, hc, hvisible⟩ : ∃ s c, q = .level (.symbol s) ∧
          (m.symbol s).choice = some c ∧ v (.visible (.symbol s)) = true := by
        simpa using hmember
      rw [valueRule] at hq'
      split at hq'
      · exact absurd hq' List.not_mem_nil
      · split at hq'
        · exact absurd hq' List.not_mem_nil
        · simp only [asked_bind, asked_visible, result_visible, hc] at hq'
          rcases List.mem_append.mp hq' with hq' | hq'
          · obtain rfl := List.mem_singleton.mp hq'
            exact .inl rfl
          · obtain ⟨-, rfl⟩ := memberLevel_asked hq'
            by_cases hreads : Item.choice c ∈ m.reads (.symbol s)
            · exact hlisted (.inr hreads)
            · exact .inr (.inr (.inr (.inr ⟨s, c, rfl, rfl, hc, hvisible, hreads⟩)))

/-- An answer hangs on its own item, on items whose values never change, and on items that its own
item is a dependent of, if a choice selects none but its members, and a member that looks at the
selection reads the choice. -/
theorem Sound.dependent_of (hv : m.Fixes v) {q q' : Query}
    (hselects : ∀ c s, q = .selection c → m.MaySelect u c s → s ∈ (m.choice c).members)
    (hlooks : ∀ s c, q = .level (.symbol s) → (m.symbol s).choice = some c →
      v (.visible (.symbol s)) = true → Item.choice c ∈ m.reads (.symbol s))
    (hq' : q' ∈ (m.valueRule u q).asked v) :
    q'.item = q.item ∨ m.Fixed q'.item ∨ q.item ∈ m.dependents.of q'.item := by
  refine (hm.dependent_unless hv hq').imp_right fun h => h.imp_right fun h => ?_
  rcases h with h | ⟨c, s, hq, -, hs, hout⟩ | ⟨s, c, hq, -, hc, hvisible, hout⟩
  · exact h
  · exact absurd (hselects c s hq hs) hout
  · exact absurd (hlooks s c hq hc hvisible) hout

/-- So it is in tidy models. -/
theorem Sound.dependent (ht : m.Tidy) (hu : m.Permits u) (hv : m.Solves u v) {q q' : Query}
    (hq' : q' ∈ (m.valueRule u q).asked v) :
    q'.item = q.item ∨ m.Fixed q'.item ∨ q.item ∈ m.dependents.of q'.item := by
  refine hm.dependent_of hv.fixes (fun c s _ hs => ?_) (fun s c _ hc hvisible => ?_) hq'
  · rcases hs with hs | ⟨p, hp, hs⟩ | hs
    · exact (hm.member s c (hu.selection c s hs).1).1
    · exact (hm.member s c (ht.default c p hp s hs)).1
    · exact hs
  · rw [hv.eq_result] at hvisible
    exact hm.choice_mem_reads hv.fixes (ht.prompt c s (hm.member s c hc).1) hvisible

end Model
end Kconfig
