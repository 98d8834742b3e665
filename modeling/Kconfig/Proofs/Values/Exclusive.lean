import Kconfig.Proofs.Model.Properties
import Kconfig.Proofs.Values.Backing
/-!
A choice selects one of its members.

The rules for a choice and its members give at most one of them the level `y`, when the members are
bools of this choice only. What a choice prefers is looked for in order: the user's selection, the
defaults, the members. The questions about selection, visibility and level of the members hang on
items that know their dependents as soon as this one choice is tidy, so they are backed whatever
the other choices are like.
-/
namespace Kconfig
open Plan

namespace Model
variable {m : Model} {u u' : UserValues} {v : Valuation} {c : ChoiceId} {s : SymbolId}

/-- A bool choice whose members are bools that belong to no other choice and have prompts only
inside it, and whose defaults are members. -/
structure Exclusive (m : Model) (c : ChoiceId) : Prop where
  type : (m.choice c).type = .bool
  bool : ∀ s ∈ (m.choice c).members, (m.symbol s).type = .bool
  only : ∀ s ∈ (m.choice c).members, ∀ d, s ∈ (m.choice d).members → d = c
  prompt : ∀ s ∈ (m.choice c).members, ∀ n ∈ (m.symbol s).nodes, (m.node n).prompt.isSome →
    ((m.linksOf n).parent.map fun n => (m.node n).entry) = some (.choice c)
  default : ∀ p ∈ (m.choice c).defaults, ∀ s, p.value = .symbol s → s ∈ (m.choice c).members

theorem Exclusive.owner (hx : m.Exclusive c) (hm : m.Sound) (ho : m.Owned)
    (hs : s ∈ (m.choice c).members) : (m.symbol s).choice = some c := by
  have hlt : s < m.symbols.size := Nat.lt_of_not_le fun hle =>
    (hm.defined s).mp (hm.memberDefined c s hs) (fixed_of_size_le hle).1
  obtain ⟨d, hd⟩ := Option.isSome_iff_exists.mp (ho c s hs hlt)
  rw [hd, hx.only s hs d (hm.member s d hd).1]

/-! ### What a choice prefers -/

/-- The symbol of a default that holds, if it is visible. -/
def shownDefault? (m : Model) (v : Valuation) (p : Guarded Expr) : Option SymbolId :=
  match p.value with
  | .item (.symbol s) =>
    if (m.holds p.cond).result v && v (.visible (.symbol s)) then some s else none
  | _ => none

/-- What a choice selects when it is in use: the user's selection if it is visible, else the first
default that holds and is visible, else the first visible member. -/
def preferred? (m : Model) (u : UserValues) (v : Valuation) (c : ChoiceId) : Option SymbolId :=
  ((u.selection c).filter fun s => v (.visible (.symbol s))).or
    (((m.choice c).defaults.findSome? (m.shownDefault? v)).or
      ((m.choice c).members.find? fun s => v (.visible (.symbol s))))

theorem defaultSelection_result : ∀ ps : List (Guarded Expr),
    (m.defaultSelection ps).result v = ps.findSome? (m.shownDefault? v)
  | [] => rfl
  | p :: ps => by
    have hrest := defaultSelection_result ps
    rw [List.findSome?_cons, ← hrest, defaultSelection]
    split
    · next s hvalue =>
      rw [shownDefault?, hvalue]
      cases hcond : (m.holds p.cond).result v <;> cases hs : v (.visible (.symbol s)) <;>
        simp [hcond, hs]
    · next hvalue =>
      have hnone : m.shownDefault? v p = none := by
        unfold shownDefault?
        split
        · next s hs => exact absurd hs (hvalue s)
        · rfl
      rw [hnone]

theorem firstVisible_result : ∀ ss : List SymbolId,
    (firstVisible ss).result v = ss.find? fun s => v (.visible (.symbol s))
  | [] => rfl
  | s :: ss => by
    rw [firstVisible, List.find?_cons]
    cases hs : v (.visible (.symbol s)) <;> simp [hs, firstVisible_result ss]

theorem ownSelection_result (m : Model) (v : Valuation) (c : ChoiceId) :
    (m.ownSelection c).result v =
      ((m.choice c).defaults.findSome? (m.shownDefault? v)).or
        ((m.choice c).members.find? fun s => v (.visible (.symbol s))) := by
  rw [ownSelection, result_bind, defaultSelection_result]
  cases (m.choice c).defaults.findSome? (m.shownDefault? v) with
  | some s => rfl
  | none => exact firstVisible_result _

/-- A choice selects what it prefers when it is in use, and nothing otherwise. -/
theorem selectionRule_eq (m : Model) (u : UserValues) (v : Valuation) (c : ChoiceId) :
    (m.selectionRule u c).result v =
      if (v (.level (.choice c))).value then m.preferred? u v c else none := by
  rw [selectionRule, preferred?, ← ownSelection_result]
  cases hlevel : (v (.level (.choice c))).value with
  | false => simp [hlevel]
  | true =>
    cases hselection : u.selection c with
    | none => simp [hlevel]
    | some s => cases hs : v (.visible (.symbol s)) <;> simp [hlevel, hs, Option.filter]

/-- What an exclusive choice prefers is a visible member. -/
theorem Exclusive.of_preferred (hx : m.Exclusive c)
    (hu : ∀ s, u.selection c = some s → s ∈ (m.choice c).members)
    (h : m.preferred? u v c = some s) :
    s ∈ (m.choice c).members ∧ v (.visible (.symbol s)) = true := by
  rw [preferred?, Option.or_eq_some_iff, Option.or_eq_some_iff] at h
  rcases h with h | ⟨-, h | ⟨-, h⟩⟩
  · obtain ⟨hselection, hs⟩ := Option.filter_eq_some_iff.mp h
    exact ⟨hu s hselection, hs⟩
  · obtain ⟨p, hp, hs⟩ := List.exists_of_findSome?_eq_some h
    unfold shownDefault? at hs
    split at hs
    · next t ht =>
      split at hs
      · next hshown =>
        obtain rfl := Option.some.inj hs
        exact ⟨hx.default p hp t ht, (Bool.and_eq_true_iff.mp hshown).2⟩
      · exact nomatch hs
    · exact nomatch hs
  · exact ⟨List.mem_of_find?_eq_some h, List.find?_some h⟩

/-- With a visible member there is something to prefer. -/
theorem preferred_isSome (u : UserValues) (hs : s ∈ (m.choice c).members)
    (hvisible : v (.visible (.symbol s)) = true) : (m.preferred? u v c).isSome := by
  have hfind : ((m.choice c).members.find? fun s => v (.visible (.symbol s))).isSome :=
    List.find?_isSome.mpr ⟨s, hs, hvisible⟩
  simp [preferred?, hfind]

/-! ### One selected member -/

/-- A choice that is in use and has a visible member selects exactly one member, which is visible
and the one that it prefers; any other choice selects none. -/
structure SelectsOne (m : Model) (u : UserValues) (v : Valuation) (c : ChoiceId) : Prop where
  one : (v (.level (.choice c))).value = true →
    (∃ s ∈ (m.choice c).members, v (.visible (.symbol s)) = true) →
    ∃ s ∈ (m.choice c).members, v (.visible (.symbol s)) = true ∧
      v (.selection c) = some s ∧ m.preferred? u v c = some s ∧
      ∀ t ∈ (m.choice c).members, (v (.level (.symbol t))).value = true ↔ t = s
  none : ((v (.level (.choice c))).value = false ∨
      ∀ s ∈ (m.choice c).members, v (.visible (.symbol s)) = false) →
    v (.selection c) = none ∧
      ∀ s ∈ (m.choice c).members, (v (.level (.symbol s))).value = false

/-- Questions about what a choice selects, and which of its members are visible and selected. -/
def Concerns (m : Model) (c : ChoiceId) (q : Query) : Prop :=
  q = .selection c ∨
    ∃ s ∈ (m.choice c).members, q = .level (.symbol s) ∨ q = .visible (.symbol s)

/-- A member is `y` when it is visible and selected. -/
theorem Exclusive.level_member (hx : m.Exclusive c) (hm : m.Sound) (ho : m.Owned)
    (hv : ∀ q, m.Concerns c q → v q = (m.rule u q).result v)
    (hs : s ∈ (m.choice c).members) :
    (v (.level (.symbol s))).value = (v (.visible (.symbol s)) && v (.selection c) == some s) := by
  have hdefined : (m.symbol s).nodes ≠ [] := (hm.defined s).mp (hm.memberDefined c s hs)
  have hconstant : ¬ (s = noId ∨ s = yesId) := by
    rintro (rfl | rfl)
    · exact hdefined hm.noFixed.1
    · exact hdefined hm.yesFixed.1
  rw [hv (.level (.symbol s)) (.inr ⟨s, hs, .inl rfl⟩)]
  cases hvisible : v (.visible (.symbol s)) <;>
    simp [rule, levelRule, hconstant, hx.bool s hs, hx.owner hm ho hs, memberLevel, hvisible]

/-- When the answers about an exclusive choice obey the rules, it selects one of its members. -/
theorem Exclusive.selectsOne (hx : m.Exclusive c) (hm : m.Sound) (ho : m.Owned)
    (hu : ∀ s, u.selection c = some s → s ∈ (m.choice c).members)
    (hv : ∀ q, m.Concerns c q → v q = (m.rule u q).result v) : m.SelectsOne u v c := by
  have hselection : v (.selection c) =
      if (v (.level (.choice c))).value then m.preferred? u v c else none := by
    rw [hv (.selection c) (.inl rfl)]
    exact selectionRule_eq m u v c
  have hlevel := fun s (hs : s ∈ (m.choice c).members) => hx.level_member hm ho hv hs
  refine ⟨fun hmode ⟨t, ht, hshown⟩ => ?_, fun hnone => ?_⟩
  · rw [if_pos hmode] at hselection
    obtain ⟨s, hs⟩ := Option.isSome_iff_exists.mp (preferred_isSome u ht hshown)
    obtain ⟨hmem, hvisible⟩ := hx.of_preferred hu hs
    refine ⟨s, hmem, hvisible, hselection.trans hs, hs, fun t ht => ?_⟩
    rw [hlevel t ht, hselection, hs, Bool.and_eq_true, beq_iff_eq, Option.some.injEq]
    constructor
    · exact fun h => h.2.symm
    · rintro rfl
      exact ⟨hvisible, rfl⟩
  · have hselected : v (.selection c) = none := by
      rcases hnone with hmode | hhidden
      · rw [hselection, hmode]
        rfl
      · rw [hselection]
        split
        · cases hs : m.preferred? u v c with
          | none => rfl
          | some s =>
            obtain ⟨hmem, hvisible⟩ := hx.of_preferred hu hs
            exact nomatch hvisible.symm.trans (hhidden s hmem)
        · rfl
    refine ⟨hselected, fun s hs => ?_⟩
    rw [hlevel s hs, hselected]
    exact Bool.and_false _

/-! ### Such questions stay backed -/

/-- Of what the user gives, the rules about an exclusive choice take the selection only. -/
theorem Exclusive.valueRule_eq (hx : m.Exclusive c) (hm : m.Sound) (ho : m.Owned) {q : Query}
    (hq : m.Concerns c q) (hselection : q = .selection c → u'.selection c = u.selection c) :
    m.valueRule u' q = m.valueRule u q := by
  have hmember : ∀ s ∈ (m.choice c).members, q.item = .symbol s →
      m.valueRule u' q = m.valueRule u q := fun s hs hitem =>
    valueRule_of_member hitem (hx.bool s hs) (hx.owner hm ho hs)
  rcases hq with rfl | ⟨s, hs, rfl | rfl⟩
  · refine valueRule_congr (fun s hs => nomatch hs) fun d hd => ?_
    obtain rfl : c = d := Item.choice.inj hd
    exact hselection rfl
  · exact hmember s hs rfl
  · exact hmember s hs rfl

/-- Backed questions about an exclusive choice hang on items that know their dependents. -/
theorem Exclusive.dependent (hx : m.Exclusive c) (hm : m.Sound) (ho : m.Owned) {k : Memory}
    (hu : ∀ s, u.selection c = some s → s ∈ (m.choice c).members)
    (hk : k.Backed m u (m.Concerns c)) {q q' : Query} (hq : m.Concerns c q)
    (hsome : (k.get? q).isSome) (hq' : q' ∈ (m.valueRule u q).asked (k.said m)) :
    q'.item = q.item ∨ m.Fixed q'.item ∨ q.item ∈ m.dependents.of q'.item := by
  refine hm.dependent_of hk.constant.fixes (fun d s hd hs => ?_) (fun s d hs hd hvisible => ?_) hq'
  · subst hd
    rcases hq with hq | ⟨t, -, hq | hq⟩
    · obtain rfl : d = c := Query.selection.inj hq
      rcases hs with hs | ⟨p, hp, hs⟩ | hs
      · exact hu s hs
      · exact hx.default p hp s hs
      · exact hs
    · exact nomatch hq
    · exact nomatch hq
  · subst hs
    have hmem : s ∈ (m.choice c).members := by
      rcases hq with hq | ⟨t, ht, hq | hq⟩
      · exact nomatch hq
      · obtain rfl : s = t := Item.symbol.inj (Query.level.inj hq)
        exact ht
      · exact nomatch hq
    obtain rfl : c = d := Option.some.inj ((hx.owner hm ho hmem).symm.trans hd)
    -- that the member is visible is remembered, and backed by its prompts
    refine hm.choice_mem_reads hk.constant.fixes (hx.prompt s hmem) ?_
    have hfixed : ¬ m.Fixed (.symbol s) := fun hfixed =>
      (hm.defined s).mp (hm.memberDefined c s hmem) hfixed.1
    have hasked : .visible (.symbol s) ∈ (m.valueRule u (.level (.symbol s))).asked (k.said m) := by
      have hconstant : ¬ (s = noId ∨ s = yesId) := by
        rintro (rfl | rfl)
        · exact hfixed hm.noFixed
        · exact hfixed hm.yesFixed
      simp [valueRule, hconstant, hx.bool s hmem]
    obtain ⟨a, ha⟩ := Option.isSome_iff_exists.mp ((hk.settled _ hq hsome _ hasked).resolve_left hfixed)
    change k.get? (.visible (.symbol s)) = some a at ha
    rw [Memory.said_of_get? ha] at hvisible
    exact (hk.right (.visible (.symbol s)) a (.inr ⟨s, hmem, .inr rfl⟩) ha).symm.trans hvisible

end Model
end Kconfig
