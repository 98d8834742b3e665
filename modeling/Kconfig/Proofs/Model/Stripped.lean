import Kconfig.Proofs.Model.Propagation
/-!
Conditions without the dependency that was joined last.

A settled condition is one of a few things: the dependency alone, a condition joined with it, a
condition joined with what makes menus visible and the dependency, or `n`; and any condition, where
the dependency is `y`. From each of these either exactly the dependency is taken off or nothing, and
joined with the dependency again it comes to the same: with the answers of any valuation, and also
when answers are missing, so that neither is known where the other is not.
-/
namespace Kconfig
open Plan

namespace Expr
variable {dep e : Expr}

/-- What a condition can be after a dependency was joined last. -/
inductive EndsIn : Expr → Expr → Prop
  | whole {dep : Expr} : EndsIn dep dep
  | free {e : Expr} : EndsIn e yes
  | never {dep : Expr} : EndsIn no dep
  | joined {dep : Expr} (a : Expr) : EndsIn (.and a dep) dep
  | shown {dep : Expr} (a visible : Expr) : EndsIn (.and a (.and visible dep)) dep

theorem endsIn_conj (a dep : Expr) : (a.conj dep).EndsIn dep := by
  unfold conj
  split
  · exact .whole
  · split
    · next h =>
      rw [h]
      exact .free
    · split
      · exact .never
      · exact .joined a

/-- So it is for a prompt, whose condition gets what makes the menus around it visible before. -/
theorem endsIn_conj_visible (a visible dep : Expr) :
    (a.conj (visible.conj dep)).EndsIn dep := by
  by_cases hdep : dep = yes
  · rw [hdep]
    exact .free
  by_cases ha : a = yes
  · rw [conj, if_pos ha]
    exact endsIn_conj visible dep
  by_cases hvisible : visible = yes
  · rw [hvisible, conj.eq_def yes, if_pos rfl]
    exact endsIn_conj a dep
  by_cases hno : visible = no ∨ dep = no
  · have hnever : visible.conj dep = no := by rw [conj, if_neg hvisible, if_neg hdep, if_pos hno]
    rw [hnever, conj, if_neg ha, if_neg (by decide), if_pos (.inr rfl)]
    exact .never
  · have hboth : visible.conj dep = .and visible dep := by
      rw [conj, if_neg hvisible, if_neg hdep, if_neg hno]
    have hother : Expr.and visible dep ≠ yes := fun h => Expr.noConfusion h
    rw [hboth, conj, if_neg ha, if_neg hother]
    split
    · exact .never
    · exact .shown a visible

/-- Of any expression either exactly what stands last is taken off, or nothing. -/
theorem without_cases (e dep : Expr) :
    e = dep ∧ e.without dep = yes ∨ e = .and (e.without dep) dep ∨ e.without dep = e := by
  unfold without
  split
  · next h => exact .inl ⟨h, rfl⟩
  · split
    · split
      · next h =>
        rw [h]
        exact .inr (.inl rfl)
      · exact .inr (.inr rfl)
    · exact .inr (.inr rfl)

end Expr

namespace Model
variable {m : Model} {dep e : Expr} {ask : (q : Query) → Option q.Answer}

/-! ### Conditions under partial answers -/

/-- Whether an expression holds, as far as there are answers. -/
def holdsBy (m : Model) (ask : (q : Query) → Option q.Answer) (e : Expr) : Option Bool :=
  (m.holds e).run ask fun _ => some ()

/-- The answers about the constants `n` and `y` are there and say what they are. -/
structure Constants (ask : (q : Query) → Option q.Answer) : Prop where
  no : (ask (.level (.symbol noId))).map (·.value) = some false
  yes : (ask (.level (.symbol yesId))).map (·.value) = some true

theorem holdsBy_item (i : Item) : m.holdsBy ask (.item i) = (ask (.level i)).map (·.value) :=
  Option.map_eq_bind.symm

theorem holdsBy_and (a b : Expr) : m.holdsBy ask (.and a b) =
    (m.holdsBy ask a).bind fun x => if x then m.holdsBy ask b else some false := by
  have hrun := run_bind (m.holds a) (fun x => if x then m.holds b else pure false) ask
  rw [holdsBy, holds]
  refine hrun.trans ?_
  rw [holdsBy]
  congr 1
  funext x
  cases x <;> rfl

theorem holdsBy_no (h : Constants ask) : m.holdsBy ask .no = some false :=
  (holdsBy_item _).trans h.no

theorem holdsBy_yes (h : Constants ask) : m.holdsBy ask .yes = some true :=
  (holdsBy_item _).trans h.yes

/-- A valuation gives all answers. -/
theorem holdsBy_some (v : Valuation) (e : Expr) :
    m.holdsBy (fun q => some (v q)) e = some (m.holdsAt v e) := run_of_asked fun _ _ => rfl

theorem Constants.of_plain {v : Valuation} (hv : v.Plain) : Constants fun q => some (v q) :=
  ⟨congrArg some hv.no, congrArg some hv.yes⟩

theorem holdsBy_self (e : Expr) : m.holdsBy ask (.and e e) = m.holdsBy ask e := by
  rw [holdsBy_and]
  cases m.holdsBy ask e with
  | none => rfl
  | some x => cases x <;> rfl

theorem holdsBy_assoc (a b c : Expr) :
    m.holdsBy ask (.and (.and a b) c) = m.holdsBy ask (.and a (.and b c)) := by
  simp only [holdsBy_and, Option.bind_assoc]
  congr 1
  funext x
  cases x <;> rfl

/-- To join what stands last once more changes nothing. -/
theorem holdsBy_and_last (a b : Expr) :
    m.holdsBy ask (.and (.and a b) b) = m.holdsBy ask (.and a b) := by
  rw [holdsBy_assoc, holdsBy_and, holdsBy_self, ← holdsBy_and]

/-- A condition without the dependency that was joined last, joined with it again, holds as far as
the condition itself does. -/
theorem holdsBy_without (h : Constants ask) (he : e.EndsIn dep) :
    m.holdsBy ask (.and (e.without dep) dep) = m.holdsBy ask e := by
  rcases Expr.without_cases e dep with ⟨rfl, hwithout⟩ | hlast | hwithout
  · rw [hwithout, holdsBy_and, holdsBy_yes h]
    rfl
  · rw [← hlast]
  · rw [hwithout]
    cases he with
    | whole => exact holdsBy_self dep
    | free =>
      rw [holdsBy_and, holdsBy_yes h]
      cases m.holdsBy ask e with
      | none => rfl
      | some x => cases x <;> rfl
    | never =>
      rw [holdsBy_and, holdsBy_no h]
      rfl
    | joined a => exact holdsBy_and_last a dep
    | shown a visible =>
      rw [holdsBy_assoc, holdsBy_and, holdsBy_and_last, ← holdsBy_and]

/-- Under any valuation it does so all the way. -/
theorem holdsAt_without {v : Valuation} (hv : v.Plain) (he : e.EndsIn dep) :
    m.holdsAt v (.and (e.without dep) dep) = m.holdsAt v e := by
  have h := holdsBy_without (m := m) (Constants.of_plain hv) he
  rw [holdsBy_some, holdsBy_some] at h
  exact Option.some.inj h

end Model

/-! ### Nodes of settled models -/

/-- The conditions of a node's properties have its dependency joined last. -/
structure MenuNode.DependsLast (node : MenuNode) : Prop where
  prompt : ∀ p ∈ node.prompt, p.cond.EndsIn node.dep
  defaults : ∀ p ∈ node.defaults, p.cond.EndsIn node.dep
  ranges : ∀ p ∈ node.ranges, p.cond.EndsIn node.dep
  selects : ∀ p ∈ node.selects, p.cond.EndsIn node.dep
  implies : ∀ p ∈ node.implies, p.cond.EndsIn node.dep

theorem Guarded.endsIn_under {α : Type} {dep : Expr} {properties : List (Guarded α)} :
    ∀ p ∈ properties.map (·.under dep), p.cond.EndsIn dep := by
  intro p hp
  obtain ⟨p, -, rfl⟩ := List.mem_map.mp hp
  exact Expr.endsIn_conj p.cond dep

theorem MenuNode.dependsLast_inherit {node : MenuNode} (h : node.entry.item?.isSome)
    (around : Surroundings) : (node.inherit around).DependsLast := by
  unfold MenuNode.inherit
  dsimp only
  split
  case h_3 hentry | h_4 hentry | h_5 hentry =>
    rw [hentry] at h
    exact nomatch h
  all_goals
    refine ⟨fun p hp => ?_, Guarded.endsIn_under, Guarded.endsIn_under, Guarded.endsIn_under,
      Guarded.endsIn_under⟩
    obtain ⟨p, -, rfl⟩ := Option.map_eq_some_iff.mp hp
    exact Expr.endsIn_conj_visible p.cond around.visible _

/-- In a settled model this holds of every node of a symbol or choice. -/
theorem Model.Read.dependsLast {m : Model} {blocks : List Tree} {table : Array Links}
    (h : m.Read blocks) {i : Item} {n : NodeId}
    (hn : n ∈ (m.settle blocks table).itemNodes i) :
    ((m.settle blocks table).node n).DependsLast ∧
      ((m.settle blocks table).node n).entry.item? = some i := by
  obtain ⟨hmem, hitem⟩ := h.mem_forestIds_of_item hn
  obtain ⟨above, hstands⟩ := Tree.forestIds_stand blocks hmem
  rw [h.node_settle, h.node_inherited hstands, Model.entry_inherit]
  exact ⟨MenuNode.dependsLast_inherit (by rw [hitem]; rfl) _, hitem⟩

end Kconfig
