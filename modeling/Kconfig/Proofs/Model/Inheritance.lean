import Kconfig.Proofs.Model.Passes
import Kconfig.Proofs.Model.Raw
/-!
What a node inherits is decided by the nodes above it.

Inheriting goes down a forest and changes one node after the other. When no node stands twice in
the forest, a node is changed once, and what it inherits then can be worked out from the raw nodes
above it: from the surroundings of the outermost one inwards.
-/
namespace Kconfig

/-- A node stands among trees, below the given nodes, the innermost one first. -/
inductive Tree.Stands : List Tree → List NodeId → NodeId → Prop
  | root {ts : List Tree} {n : NodeId} {children : List Tree} (h : .node n children ∈ ts) :
    Stands ts [] n
  | under {ts : List Tree} {k : NodeId} {children : List Tree} {above : List NodeId} {n : NodeId}
    (hk : .node k children ∈ ts) (h : Stands children above n) : Stands ts (above ++ [k]) n

namespace Tree
variable {ts us : List Tree} {above : List NodeId} {n : NodeId}

theorem Stands.mono (h : Stands ts above n) (hsub : ∀ t ∈ ts, t ∈ us) : Stands us above n := by
  cases h with
  | root h => exact .root (hsub _ h)
  | under hk h => exact .under (hsub _ hk) h

/-- A node that stands among trees stands in one of them. -/
theorem Stands.exists_mem (h : Stands ts above n) : ∃ t ∈ ts, Stands [t] above n := by
  cases h with
  | root h => exact ⟨_, h, .root (List.mem_singleton_self _)⟩
  | under hk h => exact ⟨_, hk, .under (List.mem_singleton_self _) h⟩

theorem mem_forestIds_of_mem {t : Tree} : ∀ {ts : List Tree}, t ∈ ts → n ∈ t.ids → n ∈ forestIds ts
  | u :: us, ht, hn => by
    rw [forestIds]
    rcases List.mem_cons.mp ht with rfl | ht
    · exact List.mem_append_left _ hn
    · exact List.mem_append_right _ (mem_forestIds_of_mem ht hn)

theorem id_mem_ids (t : Tree) : t.id ∈ t.ids := by
  cases t with
  | node id children =>
    rw [ids]
    exact List.mem_cons_self ..

/-- What stands among trees is one of their nodes. -/
theorem Stands.mem (h : Stands ts above n) : n ∈ forestIds ts := by
  induction h with
  | root h =>
    refine mem_forestIds_of_mem h ?_
    rw [ids]
    exact List.mem_cons_self ..
  | under hk _ ih =>
    refine mem_forestIds_of_mem hk ?_
    rw [ids]
    exact List.mem_cons_of_mem _ ih

/-- So is what it stands below. -/
theorem Stands.above_mem (h : Stands ts above n) {k : NodeId} (hk : k ∈ above) :
    k ∈ forestIds ts := by
  induction h with
  | root h => exact absurd hk List.not_mem_nil
  | under hmem _ ih =>
    refine mem_forestIds_of_mem hmem ?_
    rw [ids]
    rcases List.mem_append.mp hk with hk | hk
    · exact List.mem_cons_of_mem _ (ih hk)
    · rw [List.mem_singleton.mp hk]
      exact List.mem_cons_self ..

mutual

theorem ids_stand {n : NodeId} : ∀ t : Tree, n ∈ t.ids → ∃ above, Stands [t] above n
  | .node id children, h => by
    rw [ids] at h
    rcases List.mem_cons.mp h with rfl | h
    · exact ⟨[], .root (List.mem_singleton_self _)⟩
    · obtain ⟨above, habove⟩ := forestIds_stand children h
      exact ⟨above ++ [id], .under (List.mem_singleton_self _) habove⟩

/-- Every node stands somewhere. -/
theorem forestIds_stand {n : NodeId} :
    ∀ ts : List Tree, n ∈ forestIds ts → ∃ above, Stands ts above n
  | [], h => by
    rw [forestIds] at h
    exact absurd h List.not_mem_nil
  | t :: ts, h => by
    rw [forestIds] at h
    rcases List.mem_append.mp h with h | h
    · obtain ⟨above, habove⟩ := ids_stand t h
      refine ⟨above, habove.mono fun u hu => ?_⟩
      rw [List.mem_singleton.mp hu]
      exact List.mem_cons_self ..
    · obtain ⟨above, habove⟩ := forestIds_stand ts h
      exact ⟨above, habove.mono fun u hu => List.mem_cons_of_mem _ hu⟩

end
end Tree

namespace Model
variable {m : Model} {outer : Surroundings} {n : NodeId}

/-- What nodes take from the raw nodes above them, the innermost one first. -/
def around (m : Model) (outer : Surroundings) : List NodeId → Surroundings
  | [] => outer
  | k :: above => ((m.node k).inherit (m.around outer above)).inside (m.around outer above)

theorem around_append (outer : Surroundings) (inner above : List NodeId) :
    m.around outer (inner ++ above) = m.around (m.around outer above) inner := by
  induction inner with
  | nil => rfl
  | cons k inner ih => rw [List.cons_append, around, around, ih]

/-! ### What inheriting changes -/

theorem entry_inherit (node : MenuNode) : (node.inherit outer).entry = node.entry := by
  unfold MenuNode.inherit
  dsimp only
  split <;> rfl

/-- Only nodes change, and their number stays. -/
structure Inherits (m m' : Model) : Prop where
  rest : m' = { m with nodes := m'.nodes }
  entries : m'.entries = m.entries

theorem Inherits.refl (m : Model) : m.Inherits m := ⟨rfl, rfl⟩

theorem Inherits.trans {m m' m'' : Model} (h : m.Inherits m') (h' : m'.Inherits m'') :
    m.Inherits m'' := by
  refine ⟨?_, h'.entries.trans h.entries⟩
  rw [h'.rest, h.rest]

theorem Inherits.size {m m' : Model} (h : m.Inherits m') : m'.nodes.size = m.nodes.size := by
  rw [← length_entries, ← length_entries, h.entries]

mutual

theorem inherits_inheritTree (m : Model) (outer : Surroundings) :
    ∀ t : Tree, m.Inherits (m.inheritTree outer t)
  | .node id children => by
    rw [inheritTree]
    have hset : m.Inherits (m.setNode id (MenuNode.inherit outer)) :=
      ⟨rfl, entries_setNode entry_inherit⟩
    exact hset.trans (inherits_inheritForest _ _ children)

theorem inherits_inheritForest (m : Model) (outer : Surroundings) :
    ∀ ts : List Tree, m.Inherits (m.inheritForest outer ts)
  | [] => by
    rw [inheritForest]
    exact .refl m
  | t :: ts => by
    rw [inheritForest]
    exact (inherits_inheritTree m outer t).trans (inherits_inheritForest _ outer ts)

end

mutual

theorem node_inheritTree_of_not_mem {n : NodeId} (m : Model) (outer : Surroundings) :
    ∀ t : Tree, n ∉ t.ids → (m.inheritTree outer t).node n = m.node n
  | .node id children, h => by
    rw [Tree.ids, List.mem_cons, not_or] at h
    rw [inheritTree, node_inheritForest_of_not_mem _ _ children h.2, node_setNode,
      if_neg fun heq => h.1 heq.1.symm]

/-- Other nodes stay as they are. -/
theorem node_inheritForest_of_not_mem {n : NodeId} (m : Model) (outer : Surroundings) :
    ∀ ts : List Tree, n ∉ Tree.forestIds ts → (m.inheritForest outer ts).node n = m.node n
  | [], _ => by rw [inheritForest]
  | t :: ts, h => by
    rw [Tree.forestIds, List.mem_append, not_or] at h
    rw [inheritForest, node_inheritForest_of_not_mem _ outer ts h.2,
      node_inheritTree_of_not_mem m outer t h.1]

end

/-- The surroundings of a forest are worked out from nodes of the forest. -/
theorem around_congr {m m' : Model} (outer : Surroundings) {above : List NodeId}
    (h : ∀ k ∈ above, m'.node k = m.node k) : m'.around outer above = m.around outer above := by
  induction above with
  | nil => rfl
  | cons k above ih =>
    rw [around, around, h k (List.mem_cons_self ..), ih fun j hj => h j (List.mem_cons_of_mem _ hj)]

mutual

theorem node_inheritTree {n : NodeId} :
    ∀ (t : Tree) {above : List NodeId} (m : Model) (outer : Surroundings), t.ids.Nodup →
      (∀ k ∈ t.ids, k < m.nodes.size) → Tree.Stands [t] above n →
      (m.inheritTree outer t).node n = (m.node n).inherit (m.around outer above)
  | .node id children, _, m, outer, hnodup, hlt, h => by
    rw [Tree.ids, List.nodup_cons] at hnodup
    have hid : id < m.nodes.size := hlt id (by
      rw [Tree.ids]
      exact List.mem_cons_self ..)
    have hself : (m.setNode id (MenuNode.inherit outer)).node id = (m.node id).inherit outer := by
      rw [node_setNode, if_pos ⟨rfl, hid⟩]
    rw [inheritTree, hself]
    cases h with
    | root h =>
      obtain ⟨rfl, -⟩ := Tree.node.inj (List.mem_singleton.mp h)
      rw [node_inheritForest_of_not_mem _ _ _ hnodup.1, hself]
      rfl
    | under hk h =>
      obtain ⟨rfl, rfl⟩ := Tree.node.inj (List.mem_singleton.mp hk).symm
      have hother : ∀ j ∈ Tree.forestIds children,
          (m.setNode id (MenuNode.inherit outer)).node j = m.node j := by
        intro j hj
        rw [node_setNode, if_neg]
        rintro ⟨rfl, -⟩
        exact hnodup.1 hj
      rw [node_inheritForest children _ _ hnodup.2 _ h, hother n h.mem, around_append,
        around_congr _ fun k hk => hother k (h.above_mem hk)]
      · rfl
      · intro k hk
        rw [(show m.Inherits (m.setNode _ _) from ⟨rfl, entries_setNode entry_inherit⟩).size]
        exact hlt k (by
          rw [Tree.ids]
          exact List.mem_cons_of_mem _ hk)

/-- A node inherits what the nodes above it give. -/
theorem node_inheritForest {n : NodeId} :
    ∀ (ts : List Tree) {above : List NodeId} (m : Model) (outer : Surroundings),
      (Tree.forestIds ts).Nodup →
      (∀ k ∈ Tree.forestIds ts, k < m.nodes.size) → Tree.Stands ts above n →
      (m.inheritForest outer ts).node n = (m.node n).inherit (m.around outer above)
  | [], _, _, _, _, _, h => nomatch h.mem
  | t :: ts, above, m, outer, hnodup, hlt, h => by
    rw [Tree.forestIds, List.nodup_append] at hnodup
    obtain ⟨ht, hts, hdisjoint⟩ := hnodup
    have hsize : (m.inheritTree outer t).nodes.size = m.nodes.size :=
      (inherits_inheritTree m outer t).size
    rw [inheritForest]
    obtain ⟨u, hu, hstands⟩ := h.exists_mem
    rcases List.mem_cons.mp hu with hut | hu
    · obtain rfl := hut.symm
      have hn : n ∈ t.ids := by simpa [Tree.forestIds] using hstands.mem
      rw [node_inheritForest_of_not_mem _ _ _ fun hmem => hdisjoint n hn n hmem rfl]
      exact node_inheritTree t m outer ht (fun k hk => hlt k (by
        rw [Tree.forestIds]
        exact List.mem_append_left _ hk)) hstands
    · have hother : ∀ j ∈ Tree.forestIds ts, (m.inheritTree outer t).node j = m.node j :=
        fun j hj => node_inheritTree_of_not_mem m outer t fun hmem => hdisjoint j hmem j hj rfl
      have hstands' : Tree.Stands ts above n := hstands.mono fun v hv => by
        rw [List.mem_singleton.mp hv]
        exact hu
      rw [node_inheritForest ts _ outer hts (fun k hk => hsize ▸ hlt k (by
        rw [Tree.forestIds]
        exact List.mem_append_right _ hk)) hstands', hother n hstands'.mem,
        around_congr _ fun k hk => hother k (hstands'.above_mem hk)]

end
end Model
end Kconfig
