import Kconfig.Proofs.Model.Strung
/-!
The outline keeps every node inside its choices.

Nodes go under symbols, and leave nodes that dissolve, but neither is ever a choice. So a node of
the outline stands below the same choices as it does among the blocks; in particular the choice
right above it in the menu tree is the innermost one around it in the files.
-/
namespace Kconfig
namespace Model
variable {m : Model} {ts : List Tree} {above : List NodeId} {n : NodeId}

/-- The choices among nodes. -/
def choicesIn (m : Model) (nodes : List NodeId) : List ChoiceId :=
  nodes.filterMap fun n => (m.node n).entry.choice?

theorem choicesIn_append (m : Model) (ks ns : List NodeId) :
    m.choicesIn (ks ++ ns) = m.choicesIn ks ++ m.choicesIn ns := List.filterMap_append

theorem choicesIn_of_none {k : NodeId} (hk : (m.node k).entry.choice? = none) :
    m.choicesIn [k] = [] := by
  simp [choicesIn, hk]

/-- The node stands among the trees, below certain choices. -/
def StandsIn (m : Model) (ts : List Tree) (choices : List ChoiceId) (n : NodeId) : Prop :=
  ∃ above, Tree.Stands ts above n ∧ m.choicesIn above = choices

variable {us : List Tree} {choices : List ChoiceId}

theorem StandsIn.mono (h : m.StandsIn ts choices n) (hsub : ∀ t ∈ ts, t ∈ us) :
    m.StandsIn us choices n := by
  obtain ⟨above, hstands, hchoices⟩ := h
  exact ⟨above, hstands.mono hsub, hchoices⟩

theorem StandsIn.under {k : NodeId} {children : List Tree} (h : m.StandsIn children choices n)
    (hk : .node k children ∈ ts) : m.StandsIn ts (choices ++ m.choicesIn [k]) n := by
  obtain ⟨above, hstands, rfl⟩ := h
  exact ⟨above ++ [k], .under hk hstands, choicesIn_append m above [k]⟩

/-- A node that is no choice does not count. -/
theorem StandsIn.under_of_none {k : NodeId} {children : List Tree}
    (h : m.StandsIn children choices n) (hk : .node k children ∈ ts)
    (hnone : (m.node k).entry.choice? = none) : m.StandsIn ts choices n := by
  have hin := h.under hk
  rwa [choicesIn_of_none hnone, List.append_nil] at hin

theorem StandsIn.of_cons {t : Tree} (h : m.StandsIn (t :: ts) choices n) :
    m.StandsIn [t] choices n ∨ m.StandsIn ts choices n := by
  obtain ⟨above, hstands, hchoices⟩ := h
  obtain ⟨u, hu, hone⟩ := hstands.exists_mem
  rcases List.mem_cons.mp hu with rfl | hu
  · exact .inl ⟨above, hone, hchoices⟩
  · refine .inr ⟨above, hone.mono fun v hv => ?_, hchoices⟩
    rw [List.mem_singleton.mp hv]
    exact hu

/-- A node of one tree is its root, or stands below it. -/
theorem StandsIn.of_node {k : NodeId} {children : List Tree}
    (h : m.StandsIn [.node k children] choices n) :
    n = k ∧ choices = [] ∨
      ∃ inner, m.StandsIn children inner n ∧ choices = inner ++ m.choicesIn [k] := by
  obtain ⟨above, hstands, rfl⟩ := h
  cases hstands with
  | root hmem => exact .inl ⟨(Tree.node.inj (List.mem_singleton.mp hmem)).1, rfl⟩
  | under hk hstands =>
    obtain ⟨rfl, rfl⟩ := Tree.node.inj (List.mem_singleton.mp hk)
    exact .inr ⟨_, ⟨_, hstands, rfl⟩, choicesIn_append m _ _⟩

theorem standsIn_root (m : Model) {t : Tree} (ht : t ∈ ts) : m.StandsIn ts [] t.id := by
  cases t with
  | node id children => exact ⟨[], .root ht, rfl⟩

theorem mem_single_of_mem {t : Tree} (ht : t ∈ ts) : ∀ u ∈ [t], u ∈ ts := by
  intro u hu
  rw [List.mem_singleton.mp hu]
  exact ht

theorem choice?_of_symbolOf? {s : SymbolId} (h : m.symbolOf? n = some s) :
    (m.node n).entry.choice? = none := by
  unfold symbolOf? at h
  cases hentry : (m.node n).entry <;> simp_all [Entry.choice?]

theorem choice?_of_isDissolved (h : m.isDissolved n = true) :
    (m.node n).entry.choice? = none := by
  unfold isDissolved at h
  cases hentry : (m.node n).entry <;> simp_all [Entry.choice?]

/-- Dissolving moves no node out of a choice. -/
theorem standsIn_unwrap : ∀ {ts : List Tree},
    m.StandsIn (ts.flatMap m.unwrap) choices n → m.StandsIn ts choices n
  | [], h => h
  | ⟨k, children⟩ :: ts, h => by
    have hself : ∀ {us}, (∀ u ∈ us, u ∈ children) → (m.node k).entry.choice? = none →
        m.StandsIn us choices n → m.StandsIn (.node k children :: ts) choices n := fun hus hnone h =>
      (h.mono hus).under_of_none (List.mem_cons_self ..) hnone
    obtain ⟨above, hstands, hchoices⟩ := h
    obtain ⟨u, hu, hstands⟩ := hstands.exists_mem
    have hin : m.StandsIn [u] choices n := ⟨above, hstands, hchoices⟩
    rw [List.flatMap_cons] at hu
    rcases List.mem_append.mp hu with hu | hu
    · unfold unwrap at hu
      split at hu
      · next hdissolves =>
        have hnone := choice?_of_isDissolved hdissolves
        split at hu
        · exact hself (mem_single_of_mem hu) hnone hin
        · rcases List.mem_cons.mp hu with rfl | hu
          · rcases hin.of_node with ⟨rfl, rfl⟩ | ⟨inner, ⟨above, hstands, -⟩, -⟩
            · exact standsIn_root m (List.mem_cons_self ..)
            · exact absurd hstands.mem List.not_mem_nil
          · exact hself (mem_single_of_mem hu) hnone hin
      · rw [List.mem_singleton.mp hu] at hin
        exact hin.mono (mem_single_of_mem (List.mem_cons_self ..))
    · exact (standsIn_unwrap (hin.mono (mem_single_of_mem hu))).mono fun u hu =>
        List.mem_cons_of_mem _ hu

/-- Nesting under symbols moves no node into or out of a choice. -/
theorem standsIn_nest : ∀ {ts : List Tree}, m.StandsIn (m.nest ts) choices n →
    m.StandsIn ts choices n
  | [], h => h
  | t :: ts, h => by
    have hrest : ∀ {us}, (∀ u ∈ us, u ∈ m.nest ts) → m.StandsIn us choices n →
        m.StandsIn (t :: ts) choices n := fun hus h =>
      (standsIn_nest (h.mono hus)).mono fun u hu => List.mem_cons_of_mem _ hu
    unfold nest at h
    dsimp only at h
    split at h
    · next s hs =>
      rcases h.of_cons with h | h
      · rcases h.of_node with ⟨rfl, rfl⟩ | ⟨inner, hin, hchoices⟩
        · exact standsIn_root m (List.mem_cons_self ..)
        · rw [choicesIn_of_none (choice?_of_symbolOf? hs), List.append_nil] at hchoices
          rw [← hchoices] at hin
          exact hrest (List.takeWhile_sublist _).subset (standsIn_unwrap hin)
      · exact hrest (List.dropWhile_sublist _).subset h
    · rcases h.of_cons with h | h
      · exact h.mono (mem_single_of_mem (List.mem_cons_self ..))
      · exact hrest (fun u hu => hu) h

mutual

theorem standsIn_outlineTree : ∀ (t : Tree) {choices : List ChoiceId},
    m.StandsIn [m.outlineTree t] choices n → m.StandsIn [t] choices n
  | .node id children, choices, h => by
    rw [outlineTree] at h
    rcases h.of_node with ⟨rfl, rfl⟩ | ⟨inner, hin, rfl⟩
    · exact standsIn_root m (t := .node n children) (List.mem_singleton_self _)
    · exact (standsIn_outlineForest children (standsIn_nest (standsIn_unwrap hin))).under
        (List.mem_singleton_self _)

theorem standsIn_outlineForest : ∀ (ts : List Tree) {choices : List ChoiceId},
    m.StandsIn (m.outlineForest ts) choices n → m.StandsIn ts choices n
  | [], _, h => by
    rw [outlineForest] at h
    exact h
  | t :: ts, choices, h => by
    rw [outlineForest] at h
    rcases h.of_cons with h | h
    · exact (standsIn_outlineTree t h).mono (mem_single_of_mem (List.mem_cons_self ..))
    · exact (standsIn_outlineForest ts h).mono fun u hu => List.mem_cons_of_mem _ hu

end

/-- A node of the menu tree stands below the same choices among the blocks. -/
theorem standsIn_outline (h : m.StandsIn (m.outline ts) choices n) : m.StandsIn ts choices n :=
  standsIn_outlineForest ts (standsIn_nest (standsIn_unwrap h))

/-- The menu tree has no other nodes than the blocks. -/
theorem mem_forestIds_of_outline (h : n ∈ Tree.forestIds (m.outline ts)) :
    n ∈ Tree.forestIds ts := by
  obtain ⟨above, hstands⟩ := Tree.forestIds_stand _ h
  obtain ⟨above', hstands', -⟩ := standsIn_outline ⟨above, hstands, rfl⟩
  exact hstands'.mem

/-! ### Links -/

mutual

theorem stands_of_hung : ∀ (t : Tree) {p : NodeId} {after : Option NodeId},
    Tree.Hung m.linksOf p after t → n ∈ t.ids →
      (m.linksOf n).parent = some p ∧ Tree.Stands [t] [] n ∨
        ∃ k above, (m.linksOf n).parent = some k ∧ Tree.Stands [t] (k :: above) n
  | .node id children, p, after, h, hn => by
    rw [Tree.ids] at hn
    have ht : Tree.node id children ∈ [Tree.node id children] := List.mem_singleton_self _
    rcases List.mem_cons.mp hn with rfl | hn
    · exact .inl ⟨congrArg Links.parent h.1, .root ht⟩
    · rcases stands_of_strung children h.2 hn with ⟨hl, hs⟩ | ⟨k, above, hl, hs⟩
      · exact .inr ⟨id, [], hl, .under ht hs⟩
      · exact .inr ⟨k, above ++ [id], hl, .under ht hs⟩

/-- The parent of a node is the innermost node that it stands below. -/
theorem stands_of_strung : ∀ (ts : List Tree) {p : NodeId} {after : Option NodeId},
    Tree.Strung m.linksOf p after ts → n ∈ Tree.forestIds ts →
      (m.linksOf n).parent = some p ∧ Tree.Stands ts [] n ∨
        ∃ k above, (m.linksOf n).parent = some k ∧ Tree.Stands ts (k :: above) n
  | [], _, _, _, hn => by
    rw [Tree.forestIds] at hn
    exact absurd hn List.not_mem_nil
  | t :: ts, p, after, h, hn => by
    rw [Tree.forestIds] at hn
    rcases List.mem_append.mp hn with hn | hn
    · have hsub : ∀ u ∈ [t], u ∈ t :: ts := mem_single_of_mem (List.mem_cons_self ..)
      rcases stands_of_hung t h.1 hn with ⟨hl, hs⟩ | ⟨k, above, hl, hs⟩
      · exact .inl ⟨hl, hs.mono hsub⟩
      · exact .inr ⟨k, above, hl, hs.mono hsub⟩
    · have hsub : ∀ u ∈ ts, u ∈ t :: ts := fun u hu => List.mem_cons_of_mem _ hu
      rcases stands_of_strung ts h.2 hn with ⟨hl, hs⟩ | ⟨k, above, hl, hs⟩
      · exact .inl ⟨hl, hs.mono hsub⟩
      · exact .inr ⟨k, above, hl, hs.mono hsub⟩

end

end Model
end Kconfig
