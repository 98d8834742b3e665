import Kconfig.Proofs.Model.Waiting
import Mathlib.Data.List.Perm.Subperm
/-!
The trees that nesting gives, and what is done to them when they stand below a finished node.

The links are straightened in place: what comes out is the trees unwrapped, and a choice then gets
their roots as members.
-/
namespace Kconfig
namespace Model
variable {m M : Model} {n p : NodeId} {ts us : List Tree}

/-! ### What nesting gives -/

theorem firstId?_nest (M : Model) (ts : List Tree) : Tree.firstId? (M.nest ts) = Tree.firstId? ts := by
  cases ts with
  | nil => rfl
  | cons t ts =>
    unfold nest
    dsimp only
    split <;> rfl

theorem firstId?_outlineForest (M : Model) (ts : List Tree) :
    Tree.firstId? (M.outlineForest ts) = Tree.firstId? ts := by
  cases ts with
  | nil => rfl
  | cons t ts =>
    rw [outlineForest, Tree.firstId?_cons, Tree.firstId?_cons, id_outlineTree]

/-- The trees that the links lead through when trees of blocks have been finalized. -/
def nested (M : Model) (ts : List Tree) : List Tree := M.nest (M.outlineForest ts)

theorem firstId?_nested (M : Model) (ts : List Tree) :
    Tree.firstId? (M.nested ts) = Tree.firstId? ts := by
  rw [nested, firstId?_nest, firstId?_outlineForest]

theorem nested_of_symbol {s : SymbolId} (h : M.symbolOf? n = some s) (ts : List Tree) :
    M.nested (.node n [] :: ts) =
      .node n (((M.nested ts).takeWhile (M.follows s)).flatMap M.unwrap) ::
        (M.nested ts).dropWhile (M.follows s) := by
  rw [nested, outlineForest, nest, id_outlineTree]
  simp only [Tree.id, h]
  rfl

theorem nested_of_none {children : List Tree} (h : M.symbolOf? n = none) (ts : List Tree) :
    M.nested (.node n children :: ts) =
      .node n ((M.nested children).flatMap M.unwrap) :: M.nested ts := by
  rw [nested, outlineForest, nest, id_outlineTree]
  simp only [Tree.id, h]
  rw [outlineTree]
  rfl

/-- What is below the roots of nested trees is neat. -/
def NeatBelow (M : Model) (ts : List Tree) : Prop := ∀ t ∈ ts, M.Neat t.children

theorem neatBelow_nest (hM : M.UntitledBlocks) : ∀ {ts : List Tree}, M.NeatBelow ts →
    M.NeatBelow (M.nest ts)
  | [], h => h
  | t :: ts, h => by
    have hrest := neatBelow_nest hM fun u hu => h u (List.mem_cons_of_mem _ hu)
    unfold nest
    dsimp only
    split
    · intro u hu
      rcases List.mem_cons.mp hu with rfl | hu
      · exact neat_flatMap_unwrap hM fun v hv _ => hrest v ((List.takeWhile_sublist _).subset hv)
      · exact hrest u ((List.dropWhile_sublist _).subset hu)
    · intro u hu
      rcases List.mem_cons.mp hu with rfl | hu
      · exact h u (List.mem_cons_self ..)
      · exact hrest u hu

mutual

theorem neat_outlineTree (hM : M.UntitledBlocks) : ∀ t : Tree, M.Neat (M.outlineTree t).children
  | .node _ children => by
    rw [outlineTree]
    exact neat_flatMap_unwrap hM fun t ht _ =>
      neatBelow_nest hM (neatBelow_outlineForest hM children) t ht

theorem neatBelow_outlineForest (hM : M.UntitledBlocks) : ∀ ts : List Tree,
    M.NeatBelow (M.outlineForest ts)
  | [], t, ht => by
    rw [outlineForest] at ht
    exact absurd ht List.not_mem_nil
  | t :: ts, u, hu => by
    rw [outlineForest] at hu
    rcases List.mem_cons.mp hu with rfl | hu
    · exact neat_outlineTree hM t
    · exact neatBelow_outlineForest hM ts u hu

end

theorem neatBelow_nested (hM : M.UntitledBlocks) (ts : List Tree) : M.NeatBelow (M.nested ts) :=
  neatBelow_nest hM (neatBelow_outlineForest hM ts)

theorem mem_forestIds_nested {k : NodeId} (h : k ∈ Tree.forestIds (M.nested ts)) :
    k ∈ Tree.forestIds ts := by
  obtain ⟨above, hstands⟩ := Tree.forestIds_stand _ h
  obtain ⟨above', hstands', -⟩ :=
    standsIn_outlineForest ts (standsIn_nest ⟨above, hstands, rfl⟩)
  exact hstands'.mem

theorem mem_forestIds_unwrap (M : Model) {us : List Tree} :
    ∀ k ∈ Tree.forestIds (us.flatMap M.unwrap), k ∈ Tree.forestIds us := by
  induction us with
  | nil => exact fun _ hk => hk
  | cons t us ih =>
    intro k hk
    rw [List.flatMap_cons, Tree.forestIds_append] at hk
    rw [Tree.forestIds]
    refine (List.mem_append.mp hk).imp (fun hk => ?_) (ih k) |> List.mem_append.mpr
    obtain ⟨id, children⟩ := t
    unfold unwrap at hk
    rw [Tree.ids]
    split at hk
    · split at hk
      · exact List.mem_cons_of_mem _ hk
      · rw [Tree.forestIds_cons] at hk
        exact hk
    · rw [Tree.forestIds_cons, Tree.forestIds, List.append_nil] at hk
      exact hk

/-- Trees whose nodes have inherited are unwrapped below a node. -/
theorem exists_straighten_of_inherited (hM : M.UntitledBlocks)
    (hnode : ∀ k ∈ Tree.forestIds us, m.node k = M.node k) (hneat : M.NeatBelow us)
    (h : m.Chain n none us) (hn : n ∉ Tree.forestIds us)
    (hfirst : (m.linksOf n).first = Tree.firstId? us) (hlt : n < m.table.size)
    (hsize : (Tree.forestIds us).length ≤ m.nodes.size) :
    ∃ m', m.straighten n = some m' ∧ Rewires (n :: Tree.forestIds us) m m' ∧
      m'.Chain n none (us.flatMap M.unwrap) ∧ m'.Empties us (us.flatMap M.unwrap) ∧
      m'.linksOf n = { m.linksOf n with first := Tree.firstId? (us.flatMap M.unwrap) } := by
  have hroot : ∀ t ∈ us, m.node t.id = M.node t.id := fun t ht =>
    hnode t.id (Tree.mem_forestIds_of_mem ht (Tree.id_mem_ids t))
  have hchild : ∀ t ∈ us, ∀ u ∈ t.children, m.node u.id = M.node u.id := by
    intro t ht u hu
    refine hnode u.id (Tree.mem_forestIds_of_mem ht ?_)
    cases t with
    | node id children =>
      rw [Tree.ids]
      exact List.mem_cons_of_mem _ (Tree.mem_forestIds_of_mem hu (Tree.id_mem_ids u))
  have hunwrap : us.flatMap m.unwrap = us.flatMap M.unwrap := by
    refine List.flatMap_congr fun t ht => ?_
    rw [unwrap, unwrap, isDissolved, isDissolved, isBlock, isBlock, hroot t ht]
  rw [← hunwrap]
  refine exists_straighten (fun t ht hblock => ?_) h (fun t ht _ u hu => ?_) hn hfirst hlt hsize
  · rw [isDissolved, hroot t ht]
    rw [isBlock, hroot t ht] at hblock
    exact isDissolved_of_isBlock hM hblock
  · rw [isDissolved, isBlock, hchild t ht u hu]
    exact hneat t ht u hu

/-! ### Finishing a node -/

theorem Chain.length_le {after : Option NodeId} (h : m.Chain p after us)
    (hsub : ∀ k ∈ Tree.forestIds us, k ∈ Tree.forestIds ts) :
    (Tree.forestIds us).length ≤ (Tree.forestIds ts).length :=
  (List.subperm_of_subset h.nodup hsub).length_le

/-- A node that is no choice's is finished as it is; a choice's gets the nodes below it. -/
theorem finishChoice_eq (h : m.Chain n none us)
    (hfirst : (m.linksOf n).first = Tree.firstId? us) (hsize : us.length ≤ m.nodes.size) :
    m.finishChoice n = some (m.addToChoice n (us.map Tree.id)) := by
  unfold finishChoice
  cases hentry : (m.node n).entry with
  | choice c =>
    rw [hfirst, h.beside_firstId? hsize]
    rfl
  | _ =>
    dsimp only
    rw [addToChoice_of_choice? (by rw [hentry]; rfl)]

/-- What is below a node is done, and straightened; then the node is finished. -/
theorem exists_finish (hM : M.UntitledBlocks)
    (hnode : ∀ k ∈ Tree.forestIds us, m.node k = M.node k) (hneat : M.NeatBelow us)
    (h : m.Chain n none us) (hn : n ∉ Tree.forestIds us)
    (hfirst : (m.linksOf n).first = Tree.firstId? us) (hlt : n < m.table.size)
    (hsize : (Tree.forestIds us).length ≤ m.nodes.size) :
    ∃ m₁, (m.straighten n >>= (·.finishChoice n)) =
        some (m₁.addToChoice n ((us.flatMap M.unwrap).map Tree.id)) ∧
      Rewires (n :: Tree.forestIds us) m m₁ ∧ m₁.Chain n none (us.flatMap M.unwrap) ∧
      m₁.Empties us (us.flatMap M.unwrap) ∧
      m₁.linksOf n = { m.linksOf n with first := Tree.firstId? (us.flatMap M.unwrap) } := by
  obtain ⟨m₁, hstraighten, hm₁, hchain, hempties, hlinks⟩ :=
    exists_straighten_of_inherited hM hnode hneat h hn hfirst hlt hsize
  refine ⟨m₁, ?_, hm₁, hchain, hempties, hlinks⟩
  have hcount : (us.flatMap M.unwrap).length ≤ m₁.nodes.size := by
    rw [hm₁.nodes]
    exact Nat.le_trans (length_le_forestIds _)
      (Nat.le_trans (hchain.length_le (mem_forestIds_unwrap M)) hsize)
  rw [hstraighten]
  exact finishChoice_eq hchain (congrArg Links.first hlinks) hcount

end Model
end Kconfig
