import Mathlib.Data.List.Basic
import Mathlib.Data.List.Nodup
import Kconfig.Menu.Item
import Kconfig.Proofs.Lists
/-!
Menu items are put together from their rows.

Every row says which item it stands under, and the items are what one gets by looking for the rows
of each item again and again. If rows stand only under rows with smaller numbers, then the items
have all of the rows, each of them once and under the item that it names, and beside each other
they stand in the order of the rows.
-/
namespace Kconfig
open Model (Rows)

variable {rows : Rows} {under : Option NodeId} {p : NodeId} {fuel : Nat}

namespace MenuItem

mutual

/-- The rows of an item under a node and of what is below it, with the nodes they stand under. -/
def placed (under : Option NodeId) : MenuItem → Rows
  | .mk row below => (under, row) :: placedAll (some row.node) below

/-- The rows of items under a node and of what is below them. -/
def placedAll (under : Option NodeId) : List MenuItem → Rows
  | [] => []
  | i :: is => placed under i ++ placedAll under is

end

theorem placedAll_map {α : Type} (f : α → MenuItem) (xs : List α) :
    placedAll under (xs.map f) = xs.flatMap fun x => placed under (f x) := by
  induction xs with
  | nil => rfl
  | cons x xs ih => rw [List.map_cons, placedAll, ih, List.flatMap_cons]

theorem itemsToJson_eq (is : List MenuItem) : itemsToJson is = is.map toJson := by
  induction is with
  | nil => rfl
  | cons i is ih => rw [itemsToJson, ih, List.map_cons]

/-- As JSON, what is below a choice is its options, and what is below another item its children. -/
theorem field?_toJson (row : ItemRow) (below : List MenuItem) :
    (toJson (.mk row below)).field? "children" =
        some (.arr (if row.kind = .choice then [] else below.map toJson)) ∧
      (toJson (.mk row below)).field? "options" =
        if row.kind = .choice then some (.arr (below.map toJson)) else none := by
  rw [toJson, itemsToJson_eq]
  cases hkind : row.kind <;> exact ⟨rfl, rfl⟩

/-- The rows of the items that are put together under a node. -/
def assembled (fuel : Nat) (rows : Rows) (under : Option NodeId) : Rows :=
  placedAll under (assemble fuel rows under)

/-- Each row under a node is followed by those under it. -/
theorem assembled_succ : assembled (fuel + 1) rows under =
    (rows.filter (·.1 == under)).flatMap fun x => x :: assembled fuel rows (some x.2.node) := by
  rw [assembled, assemble, placedAll_map]
  refine List.flatMap_congr fun x hx => ?_
  obtain rfl : x.1 = under := eq_of_beq (List.mem_filter.mp hx).2
  rfl

end MenuItem

/-- Rows of different nodes that stand only under rows of nodes with smaller numbers. -/
structure Model.Rows.Rising (rows : Rows) : Prop where
  nodup : (rows.map (·.2.node)).Nodup
  lt : ∀ x ∈ rows, ∀ p, x.1 = some p → p < x.2.node
  mem : ∀ x ∈ rows, ∀ p, x.1 = some p → ∃ y ∈ rows, y.2.node = p

namespace MenuItem
open Model.Rows

/-- What is put together under a node are rows, and they stand under it or under larger ones. -/
theorem mem_assembled (h : rows.Rising) : ∀ {fuel : Nat} {under : Option NodeId},
    ∀ x ∈ assembled fuel rows under, x ∈ rows ∧ ∀ p, under = some p → ∃ q, x.1 = some q ∧ p ≤ q
  | 0, _, x, hx => absurd hx List.not_mem_nil
  | fuel + 1, under, x, hx => by
    rw [assembled_succ] at hx
    obtain ⟨y, hy, hplaced⟩ := List.mem_flatMap.mp hx
    obtain ⟨hrow, hunder⟩ := List.mem_filter.mp hy
    obtain rfl : y.1 = under := eq_of_beq hunder
    rcases List.mem_cons.mp hplaced with rfl | hplaced
    · exact ⟨hrow, fun p hp => ⟨p, hp, Nat.le_refl p⟩⟩
    · obtain ⟨hmem, hbelow⟩ := mem_assembled h x hplaced
      obtain ⟨q, hq, hle⟩ := hbelow y.2.node rfl
      exact ⟨hmem, fun p hp => ⟨q, hq, Nat.le_trans (Nat.le_of_lt (h.lt y hrow p hp)) hle⟩⟩

/-- What is put together under a row's node does not stand beside the row. -/
theorem ne_of_mem_assembled (h : rows.Rising) {y : Option NodeId × ItemRow} (hy : y ∈ rows)
    {x : Option NodeId × ItemRow} (hx : x ∈ assembled fuel rows (some y.2.node)) : x.1 ≠ y.1 := by
  intro heq
  obtain ⟨q, hq, hle⟩ := (mem_assembled h x hx).2 _ rfl
  exact absurd (h.lt y hy q (heq ▸ hq)) (Nat.not_lt.mpr hle)

/-- Right under a node stand the rows that name it. -/
theorem filter_assembled_self (h : rows.Rising) :
    (assembled (fuel + 1) rows under).filter (·.1 == under) = rows.filter (·.1 == under) := by
  have hself : ∀ y ∈ rows.filter (·.1 == under),
      (y :: assembled fuel rows (some y.2.node)).filter (·.1 == under) = [y] := by
    intro y hy
    obtain ⟨hmem, hunder⟩ := List.mem_filter.mp hy
    have hnone : (assembled fuel rows (some y.2.node)).filter (·.1 == under) = [] := by
      refine List.filter_eq_nil_iff.mpr fun x hx hbeside => ?_
      exact ne_of_mem_assembled h hmem hx ((eq_of_beq hbeside).trans (eq_of_beq hunder).symm)
    rw [List.filter_cons, if_pos hunder, hnone]
  rw [assembled_succ, List.filter_flatMap, List.flatMap_congr hself, List.flatMap_singleton']

/-- Whether a node has a number larger than that of another, or there is no other. -/
def isAfter (under : Option NodeId) (x : Option NodeId × ItemRow) : Bool :=
  under.all (· < x.2.node)

/-- The rows under a row come with every place where the row itself stands. -/
theorem filter_assembled (h : rows.Rising) : ∀ {fuel : Nat} {under : Option NodeId},
    rows.countP (isAfter under) < fuel → under ≠ some p →
      (assembled fuel rows under).filter (·.1 == some p) =
        ((assembled fuel rows under).filter (·.2.node == p)).flatMap
          fun _ => rows.filter (·.1 == some p)
  | 0, _, hfuel, _ => absurd hfuel (Nat.not_lt_zero _)
  | fuel + 1, under, hfuel, hne => by
    rw [assembled_succ, List.filter_flatMap, List.filter_flatMap, List.flatMap_assoc]
    refine List.flatMap_congr fun y hy => ?_
    obtain ⟨hmem, hunder⟩ := List.mem_filter.mp hy
    obtain rfl : y.1 = under := eq_of_beq hunder
    rw [List.filter_cons_of_neg (by simpa using hne)]
    -- the rows that are still ahead get fewer on the way down
    have hless : rows.countP (isAfter (some y.2.node)) < rows.countP (isAfter y.1) := by
      refine Lists.countP_lt (fun x hx => ?_) (x := y) (by simp [isAfter]) ?_ rows hmem
      · rw [isAfter, Option.all_eq_true]
        intro p hp
        have hx : y.2.node < x.2.node := by simpa [isAfter] using hx
        exact decide_eq_true (Nat.lt_trans (h.lt y hmem p hp) hx)
      · rw [isAfter, Option.all_eq_true]
        exact fun p hp => decide_eq_true (h.lt y hmem p hp)
    have hrest : rows.countP (isAfter (some y.2.node)) < fuel := by omega
    by_cases hp : y.2.node = p
    · subst hp
      obtain ⟨more, rfl⟩ := Nat.exists_eq_succ_of_ne_zero (Nat.ne_zero_of_lt hrest)
      have hnone : (assembled (more + 1) rows (some y.2.node)).filter
          (·.2.node == y.2.node) = [] := by
        refine List.filter_eq_nil_iff.mpr fun x hx hself => ?_
        obtain ⟨hmem', hbelow⟩ := mem_assembled h x hx
        obtain ⟨q, hq, hle⟩ := hbelow _ rfl
        have hlt := h.lt x hmem' q hq
        rw [eq_of_beq hself] at hlt
        exact absurd hlt (Nat.not_lt.mpr hle)
      rw [filter_assembled_self h, List.filter_cons_of_pos (by simp), hnone]
      simp
    · rw [List.filter_cons_of_neg (by simpa using hp)]
      exact filter_assembled h hrest fun heq => hp (Option.some.inj heq)

/-- The row of a node is the only one. -/
theorem filter_node (h : rows.Rising) {x : Option NodeId × ItemRow} (hx : x ∈ rows) :
    rows.filter (·.2.node == x.2.node) = [x] := by
  obtain ⟨before, after, heq⟩ := List.append_of_mem hx
  have hnodup := h.nodup
  rw [heq, List.map_append, List.map_cons, List.nodup_append] at hnodup
  obtain ⟨-, hafter, hbefore⟩ := hnodup
  have hnone : ∀ y ∈ before, ¬ (y.2.node == x.2.node) = true := fun y hy hsame =>
    hbefore _ (List.mem_map_of_mem hy) _ (List.mem_cons_self ..) (eq_of_beq hsame)
  have hnone' : ∀ y ∈ after, ¬ (y.2.node == x.2.node) = true := fun y hy hsame =>
    (List.nodup_cons.mp hafter).1 (eq_of_beq hsame ▸ List.mem_map_of_mem hy)
  rw [heq, List.filter_append, List.filter_cons, if_pos (beq_self_eq_true _),
    List.filter_eq_nil_iff.mpr hnone, List.filter_eq_nil_iff.mpr hnone']
  rfl

/-- Where the rows under one node are right, so are those of the nodes among them. -/
theorem filter_node_of_filter_under (h : rows.Rising) {placed : Rows}
    (hsub : ∀ y ∈ placed, y ∈ rows) {x : Option NodeId × ItemRow} (hx : x ∈ rows)
    (hunder : placed.filter (·.1 == x.1) = rows.filter (·.1 == x.1)) :
    placed.filter (·.2.node == x.2.node) = [x] := by
  -- a row of the node is the row itself, and stands under the same node
  have hrefine : ∀ {ys : Rows}, (∀ y ∈ ys, y ∈ rows) → ys.filter (·.2.node == x.2.node) =
      (ys.filter (·.1 == x.1)).filter (·.2.node == x.2.node) := by
    intro ys hys
    rw [List.filter_filter]
    refine List.filter_congr fun y hy => ?_
    cases hsame : y.2.node == x.2.node with
    | false => rw [Bool.false_and]
    | true =>
      have hmem : y ∈ rows.filter (·.2.node == x.2.node) := List.mem_filter.mpr ⟨hys y hy, hsame⟩
      rw [filter_node h hx] at hmem
      rw [List.mem_singleton.mp hmem, beq_self_eq_true, Bool.true_and]
  rw [hrefine hsub, hunder, ← hrefine fun _ hy => hy, filter_node h hx]

/-- Only rows are put together. -/
theorem mem_rows_of_placed (h : rows.Rising) :
    ∀ x ∈ placedAll none (ofRows rows), x ∈ rows := fun x hx => (mem_assembled h x hx).1

/-- Under every node stand the rows that name it, in their order. -/
theorem filter_placed (h : rows.Rising) :
    ∀ under, (placedAll none (ofRows rows)).filter (·.1 == under) = rows.filter (·.1 == under) := by
  rintro (_ | p)
  · exact filter_assembled_self h
  · induction p using Nat.strongRecOn with
    | ind p ih =>
      have hfuel : rows.countP (isAfter none) < rows.length + 1 :=
        Nat.lt_succ_of_le List.countP_le_length
      have hplaced : (placedAll none (ofRows rows)).filter (·.1 == some p) = _ :=
        filter_assembled h hfuel nofun
      rw [hplaced]
      by_cases hp : ∃ x ∈ rows, x.2.node = p
      · obtain ⟨x, hx, rfl⟩ := hp
        have hunder : (placedAll none (ofRows rows)).filter (·.1 == x.1) =
            rows.filter (·.1 == x.1) := by
          cases hq : x.1 with
          | none => exact filter_assembled_self h
          | some q => exact ih q (h.lt x hx q hq)
        have hself := filter_node_of_filter_under h (mem_rows_of_placed h) hx hunder
        rw [ofRows, ← assembled] at hself
        rw [hself]
        simp
      · have hnone : rows.filter (·.1 == some p) = [] :=
          List.filter_eq_nil_iff.mpr fun x hx hunder => hp (h.mem x hx p (eq_of_beq hunder))
        rw [hnone]
        simp

/-- The items are those of the rows, each of them once. -/
theorem nodes_placed (h : rows.Rising) :
    ((placedAll none (ofRows rows)).map (·.2.node)).Perm (rows.map (·.2.node)) := by
  refine List.perm_iff_count.mpr fun n => ?_
  rw [List.count_eq_countP, List.count_eq_countP, List.countP_map, List.countP_map,
    List.countP_eq_length_filter, List.countP_eq_length_filter]
  by_cases hn : ∃ x ∈ rows, x.2.node = n
  · obtain ⟨x, hx, rfl⟩ := hn
    have hplaced := filter_node_of_filter_under h (mem_rows_of_placed h) hx (filter_placed h x.1)
    exact congrArg List.length (hplaced.trans (filter_node h hx).symm)
  · have hnone : ∀ ys : Rows, (∀ y ∈ ys, y ∈ rows) → ys.filter ((· == n) ∘ (·.2.node)) = [] :=
      fun ys hys => List.filter_eq_nil_iff.mpr fun y hy hsame => hn ⟨y, hys y hy, eq_of_beq hsame⟩
    rw [hnone _ (mem_rows_of_placed h), hnone _ fun _ hy => hy]

end MenuItem

end Kconfig
