import Kconfig.Proofs.Model.Outline
import Kconfig.Proofs.Model.Sound
import Kconfig.Proofs.Model.Straightened
/-!
The outline has every node of the files but the blocks, in the order of the files.

Only blocks are left out, and only a node whose own tree is empty takes others under it: among the
blocks nothing stands below a symbol. So the nodes of the outline are those of the blocks, one after
the other, as long as one only looks at nodes that are no blocks. Blocks have no prompts, so they
dissolve wherever they stand, and none of them is left.
-/
namespace Kconfig
namespace Model
variable {m : Model} {p : NodeId → Bool}

/-- Nothing stands below a symbol. -/
def LeafSymbols (m : Model) (ns : List NodeId) : Prop := ∀ n ∈ ns, m.symbolOf? n = none

/-- The nodes of trees that pass a test, in order. -/
def passing (p : NodeId → Bool) (ts : List Tree) : List NodeId := (Tree.forestIds ts).filter p

theorem passing_append (ts us : List Tree) : passing p (ts ++ us) = passing p ts ++ passing p us := by
  rw [passing, Tree.forestIds_append, List.filter_append]
  rfl

theorem passing_cons (n : NodeId) (children ts : List Tree) :
    passing p (.node n children :: ts) =
      (if p n then [n] else []) ++ passing p children ++ passing p ts := by
  rw [passing, Tree.forestIds, Tree.ids, List.cons_append, List.filter_cons, List.filter_append]
  split <;> rfl

theorem symbolOf?_of_block {n : NodeId} (h : m.isBlock n = true) : m.symbolOf? n = none := by
  have hblock : (m.node n).entry = .block := of_decide_eq_true h
  rw [symbolOf?, hblock]

/-! ### What is no block stays in place -/

/-- The test looks at nodes that are no blocks. -/
def NoBlocks (m : Model) (p : NodeId → Bool) : Prop := ∀ n, m.isBlock n = true → p n = false

/-- Dissolving loses blocks only. -/
theorem passing_unwrap (hp : m.NoBlocks p) : ∀ ts : List Tree,
    passing p (ts.flatMap m.unwrap) = passing p ts
  | [] => rfl
  | ⟨n, children⟩ :: ts => by
    rw [List.flatMap_cons, passing_append, passing_unwrap hp ts, passing_cons]
    congr 1
    unfold unwrap
    split
    · split
      · next hblock =>
        rw [hp n hblock]
        rfl
      · rw [passing_cons]
        exact congrArg (· ++ _) (List.append_nil _)
    · rw [passing_cons]
      exact List.append_nil _

/-- Nesting loses nothing, when nothing stands below the symbols yet. -/
theorem passing_nest (hp : m.NoBlocks p) : ∀ {ts : List Tree},
    (∀ t ∈ ts, (m.symbolOf? t.id).isSome → t.children = []) →
      passing p (m.nest ts) = passing p ts
  | [], _ => rfl
  | ⟨n, children⟩ :: ts, h => by
    have hrest := passing_nest hp fun t ht => h t (List.mem_cons_of_mem _ ht)
    unfold nest
    dsimp only
    split
    · next s hs =>
      have hsome : (m.symbolOf? n).isSome = true := by
        rw [show m.symbolOf? n = some s from hs]
        rfl
      obtain rfl : children = [] := h _ (List.mem_cons_self ..) hsome
      rw [passing_cons, passing_cons, passing_unwrap hp, List.append_assoc, ← passing_append,
        List.takeWhile_append_dropWhile, hrest]
      exact congrArg (· ++ _) (List.append_nil _).symm
    · rw [passing_cons, passing_cons, hrest]

/-- A tree whose root defines a symbol is its root. -/
theorem children_eq_nil {t : Tree} (h : m.LeafSymbols t.parents)
    (hsome : (m.symbolOf? t.id).isSome) : t.children = [] := by
  cases t with
  | node n children =>
    cases children with
    | nil => rfl
    | cons t ts =>
      have hnone := h n (List.mem_append_left _ (List.mem_singleton_self _))
      rw [show m.symbolOf? (Tree.id (.node n (t :: ts))) = none from hnone] at hsome
      exact nomatch hsome

theorem id_outlineTree (t : Tree) : (m.outlineTree t).id = t.id := by
  cases t
  rfl

theorem outlineForest_leaves : ∀ {ts : List Tree}, m.LeafSymbols (Tree.forestParents ts) →
    ∀ t ∈ m.outlineForest ts, (m.symbolOf? t.id).isSome → t.children = []
  | [], _, t, ht, _ => by
    rw [outlineForest] at ht
    exact absurd ht List.not_mem_nil
  | u :: us, h, t, ht, hsome => by
    rw [outlineForest] at ht
    rw [Tree.forestParents] at h
    rcases List.mem_cons.mp ht with rfl | ht
    · rw [id_outlineTree] at hsome
      have hnil := children_eq_nil (fun n hn => h n (List.mem_append_left _ hn)) hsome
      cases u with
      | node n children =>
        obtain rfl : children = [] := hnil
        simp [outlineTree, outlineForest, nest, Tree.children]
    · exact outlineForest_leaves (fun n hn => h n (List.mem_append_right _ hn)) t ht hsome

mutual

theorem passing_outlineTree (hp : m.NoBlocks p) : ∀ t : Tree, m.LeafSymbols t.parents →
    passing p [m.outlineTree t] = passing p [t]
  | .node n children, h => by
    rw [Tree.parents] at h
    have hchildren : m.LeafSymbols (Tree.forestParents children) := fun k hk =>
      h k (List.mem_append_right _ hk)
    rw [outlineTree, passing_cons, passing_cons, passing_unwrap hp,
      passing_nest hp (outlineForest_leaves hchildren), passing_outlineForest hp children hchildren]

theorem passing_outlineForest (hp : m.NoBlocks p) : ∀ ts : List Tree,
    m.LeafSymbols (Tree.forestParents ts) → passing p (m.outlineForest ts) = passing p ts
  | [], _ => by rw [outlineForest]
  | t :: ts, h => by
    rw [Tree.forestParents] at h
    have ht := passing_outlineTree hp t fun n hn => h n (List.mem_append_left _ hn)
    have hts := passing_outlineForest hp ts fun n hn => h n (List.mem_append_right _ hn)
    rw [outlineForest, ← List.singleton_append (l := m.outlineForest ts),
      ← List.singleton_append (l := ts), passing_append, passing_append, ht, hts]

end

theorem passing_outline (hp : m.NoBlocks p) {ts : List Tree}
    (h : m.LeafSymbols (Tree.forestParents ts)) : passing p (m.outline ts) = passing p ts := by
  rw [outline, passing_unwrap hp, passing_nest hp (outlineForest_leaves h),
    passing_outlineForest hp ts h]

/-- The menu tree defines the symbols that the blocks define, in the same order. -/
theorem symbolNodes_outline {ts : List Tree} (h : m.LeafSymbols (Tree.forestParents ts)) :
    m.symbolNodes (m.outline ts) = m.symbolNodes ts := by
  refine passing_outline (fun n hblock => ?_) h
  rw [symbolOf?_of_block hblock]
  rfl

/-! ### No block is left -/

/-- No block stands among the trees. -/
def Clear (m : Model) (ts : List Tree) : Prop := ∀ n ∈ Tree.forestIds ts, m.isBlock n = false

/-- No block stands below the roots of the trees. -/
def ClearBelow (m : Model) (ts : List Tree) : Prop := ∀ t ∈ ts, m.Clear t.children

theorem Clear.append {ts us : List Tree} (ht : m.Clear ts) (hu : m.Clear us) :
    m.Clear (ts ++ us) := by
  intro n hn
  rw [Tree.forestIds_append] at hn
  exact (List.mem_append.mp hn).elim (ht n) (hu n)

theorem Clear.cons {n : NodeId} {children ts : List Tree} (hn : m.isBlock n = false)
    (hc : m.Clear children) (ht : m.Clear ts) : m.Clear (.node n children :: ts) := by
  intro k hk
  rw [Tree.forestIds, Tree.ids, List.cons_append] at hk
  rcases List.mem_cons.mp hk with rfl | hk
  · exact hn
  · exact (List.mem_append.mp hk).elim (hc k) (ht k)

/-- When the roots have been dissolved, no block is left. -/
theorem clear_unwrap (hm : m.UntitledBlocks) : ∀ {ts : List Tree}, m.ClearBelow ts →
    m.Clear (ts.flatMap m.unwrap)
  | [], _ => fun _ hn => absurd hn List.not_mem_nil
  | ⟨n, children⟩ :: ts, h => by
    have hbelow : m.Clear children := h _ (List.mem_cons_self ..)
    rw [List.flatMap_cons]
    refine Clear.append ?_ (clear_unwrap hm fun t ht => h t (List.mem_cons_of_mem _ ht))
    unfold unwrap
    split
    · split
      · exact hbelow
      · next hblock =>
        exact .cons (eq_false_of_ne_true hblock) (fun _ hk => absurd hk List.not_mem_nil) hbelow
    · next hstays =>
      have hblock : m.isBlock n = false :=
        eq_false_of_ne_true fun hblock => hstays (isDissolved_of_isBlock hm hblock)
      exact .cons hblock hbelow fun _ hk => absurd hk List.not_mem_nil

/-- What goes under a symbol is dissolved on the way. -/
theorem clearBelow_nest (hm : m.UntitledBlocks) : ∀ {ts : List Tree}, m.ClearBelow ts →
    m.ClearBelow (m.nest ts)
  | [], h => h
  | t :: ts, h => by
    have hrest := clearBelow_nest hm fun u hu => h u (List.mem_cons_of_mem _ hu)
    unfold nest
    dsimp only
    split
    · intro u hu
      rcases List.mem_cons.mp hu with rfl | hu
      · exact clear_unwrap hm fun v hv => hrest v ((List.takeWhile_sublist _).subset hv)
      · exact hrest u ((List.dropWhile_sublist _).subset hu)
    · intro u hu
      rcases List.mem_cons.mp hu with rfl | hu
      · exact h u (List.mem_cons_self ..)
      · exact hrest u hu

mutual

theorem clear_outlineTree (hm : m.UntitledBlocks) : ∀ t : Tree, m.Clear (m.outlineTree t).children
  | .node _ children => clear_unwrap hm (clearBelow_nest hm (clearBelow_outlineForest hm children))

theorem clearBelow_outlineForest (hm : m.UntitledBlocks) : ∀ ts : List Tree,
    m.ClearBelow (m.outlineForest ts)
  | [], t, ht => by
    rw [outlineForest] at ht
    exact absurd ht List.not_mem_nil
  | t :: ts, u, hu => by
    rw [outlineForest] at hu
    rcases List.mem_cons.mp hu with rfl | hu
    · exact clear_outlineTree hm t
    · exact clearBelow_outlineForest hm ts u hu

end

/-- The menu tree has the nodes of the files without the blocks, in the same order. -/
theorem forestIds_outline (hm : m.UntitledBlocks) {ts : List Tree}
    (h : m.LeafSymbols (Tree.forestParents ts)) :
    Tree.forestIds (m.outline ts) = (Tree.forestIds ts).filter (!m.isBlock ·) := by
  have hclear : m.Clear (m.outline ts) := clear_unwrap hm (clearBelow_nest hm
    (clearBelow_outlineForest hm ts))
  have hpassing : passing (!m.isBlock ·) (m.outline ts) = Tree.forestIds (m.outline ts) :=
    List.filter_eq_self.mpr fun n hn => by rw [hclear n hn]; rfl
  rw [← hpassing]
  exact passing_outline (fun n hblock => by rw [hblock]; rfl) h

end Model
end Kconfig
