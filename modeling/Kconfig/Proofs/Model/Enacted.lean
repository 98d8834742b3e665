import Kconfig.Proofs.Model.Order
import Kconfig.Proofs.Model.Properties
/-!
The order in which symbols and choices get their properties.

While the trees of blocks are finalized, a node adds to its symbol when it is come to, and to its
choice when what is below it is done. The two kinds of additions do not get in each other's way, so
one may as well let all nodes add to symbols first and to choices after that.
-/
namespace Kconfig
namespace Model
variable {m K M : Model} {n c : NodeId} {below : List NodeId} {ts us : List Tree}

/-! ### Additions that commute -/

/-- The change neither looks at the choice and the type of a symbol nor touches them. -/
structure IsApart (g : Symbol → Symbol) : Prop where
  choice : ∀ (sym : Symbol) choice, g { sym with choice } = { g sym with choice }
  type : ∀ (sym : Symbol) type, g { sym with type } = { g sym with type }

theorem IsApart.keepsType {g : Symbol → Symbol} (h : IsApart g) (sym : Symbol) :
    (g sym).type = sym.type := by
  have hself := congrArg Symbol.type (h.type sym sym.type)
  exact hself

theorem setSymbol_comm {s t : SymbolId} {f g : Symbol → Symbol}
    (h : ∀ sym, f (g sym) = g (f sym)) :
    (m.setSymbol s f).setSymbol t g = (m.setSymbol t g).setSymbol s f := by
  have hsymbols : (m.symbols.modify s f).modify t g = (m.symbols.modify t g).modify s f := by
    refine Array.ext_getElem? fun i => ?_
    simp only [Array.getElem?_modify]
    by_cases hs : s = i <;> by_cases ht : t = i <;> simp [hs, ht]
    cases m.symbols[i]? with
    | none => rfl
    | some sym => exact congrArg some (h sym).symm
  exact congrArg (fun symbols => { m with symbols }) hsymbols

theorem foldl_setSymbol_comm {f g : Symbol → Symbol} {t : SymbolId}
    (h : ∀ sym, f (g sym) = g (f sym)) : ∀ (ss : List SymbolId) (m : Model),
      ss.foldl (fun m s => m.setSymbol s f) (m.setSymbol t g) =
        (ss.foldl (fun m s => m.setSymbol s f) m).setSymbol t g
  | [], _ => rfl
  | s :: ss, m => by
    rw [List.foldl_cons, List.foldl_cons, setSymbol_comm fun sym => (h sym).symm,
      foldl_setSymbol_comm h ss]

theorem type_setSymbol {g : Symbol → Symbol} (h : IsApart g) (m : Model) (t s : SymbolId) :
    ((m.setSymbol t g).symbol s).type = (m.symbol s).type := by
  rw [symbol_setSymbol]
  split
  · exact h.keepsType _
  · rfl

theorem shareType_setSymbol {g : Symbol → Symbol} (h : IsApart g) (m : Model) (t : SymbolId)
    (c : ChoiceId) : (m.setSymbol t g).shareType c = (m.shareType c).setSymbol t g := by
  have htype : (m.setSymbol t g).sharedType c = m.sharedType c := by
    have htypes : (fun s => ((m.setSymbol t g).symbol s).type) = fun s => (m.symbol s).type :=
      funext (type_setSymbol h m t)
    unfold sharedType
    rw [htypes]
    rfl
  unfold shareType
  rw [htype]
  refine foldl_setSymbol_comm (f := takeType (m.sharedType c)) (g := g) (t := t) (fun sym => ?_)
    (m.choice c).members (m.setChoice c ({ · with type := m.sharedType c }))
  unfold takeType
  rw [h.keepsType sym]
  split
  · exact (h.type sym _).symm
  · rfl

/-- What is added to a choice does not hang on what is added to symbols. -/
theorem addToChoice_setSymbol {g : Symbol → Symbol} (h : IsApart g) (m : Model) (t : SymbolId)
    (n : NodeId) (below : List NodeId) :
    (m.setSymbol t g).addToChoice n below = (m.addToChoice n below).setSymbol t g := by
  unfold addToChoice
  dsimp only
  cases hentry : (m.node n).entry with
  | choice c =>
    have hentry' : ((m.setSymbol t g).node n).entry = .choice c := hentry
    rw [hentry']
    dsimp only
    rw [← shareType_setSymbol h]
    refine congrArg (shareType · c) ?_
    exact foldl_setSymbol_comm (f := ({ · with choice := some c })) (g := g) (t := t)
      (fun sym => (h.choice sym (some c)).symm) (below.filterMap m.symbolOf?)
      (m.setChoice c fun ch => { ch with
        directDep := ch.directDep.disj (m.node n).dep
        defaults := ch.defaults ++ (m.node n).defaults
        members := ch.members ++ below.filterMap m.symbolOf? })
  | _ =>
    have hentry' : ((m.setSymbol t g).node n).entry = _ := hentry
    rw [hentry']

theorem nodes_foldl_setSymbol (f : Symbol → Symbol) (ss : List SymbolId) (m : Model) :
    (ss.foldl (fun m s => m.setSymbol s f) m).nodes = m.nodes :=
  Lists.foldl_keeps (f := fun m s => setSymbol m s f) (fun m' : Model => m'.nodes = m.nodes)
    (fun _ _ h => h) ss rfl

theorem nodes_addToChoice (m : Model) (n : NodeId) (below : List NodeId) :
    (m.addToChoice n below).nodes = m.nodes := by
  unfold addToChoice
  dsimp only
  split
  · exact (nodes_foldl_setSymbol _ _ _).trans (nodes_foldl_setSymbol _ _ _)
  · rfl

theorem nodes_addToSymbol (m : Model) (n : NodeId) : (m.addToSymbol n).nodes = m.nodes := by
  rw [(gathers_addToSymbol m n).rest]

theorem addToChoice_force {s : SymbolId} {targets : List (Guarded SymbolId)}
    {change : (Expr → Expr) → Symbol → Symbol} (h : ∀ f, IsApart (change f)) :
    ∀ m : Model, (force s targets change m).addToChoice n below =
      force s targets change (m.addToChoice n below) := by
  unfold force
  induction targets with
  | nil => exact fun _ => rfl
  | cons p targets ih =>
    intro m
    rw [List.foldl_cons, List.foldl_cons, ih, addToChoice_setSymbol (h _)]

/-- A node adds to its symbol the same before and after another one adds to its choice. -/
theorem addToSymbol_addToChoice (m : Model) (n : NodeId) (below : List NodeId) (k : NodeId) :
    (m.addToChoice n below).addToSymbol k = (m.addToSymbol k).addToChoice n below := by
  have hnode : (m.addToChoice n below).node k = m.node k := by
    rw [node, node, nodes_addToChoice]
  unfold addToSymbol
  dsimp only
  rw [hnode]
  cases (m.node k).entry with
  | symbol s =>
    dsimp only
    rw [addToChoice_force fun _ => ⟨fun _ _ => rfl, fun _ _ => rfl⟩,
      addToChoice_force fun _ => ⟨fun _ _ => rfl, fun _ _ => rfl⟩,
      addToChoice_setSymbol ⟨fun _ _ => rfl, fun _ _ => rfl⟩]
  | _ => rfl

theorem foldl_addToSymbol_addToChoice : ∀ (ks : List NodeId) (m : Model) (n : NodeId)
    (below : List NodeId),
    ks.foldl addToSymbol (m.addToChoice n below) = (ks.foldl addToSymbol m).addToChoice n below
  | [], _, _, _ => rfl
  | k :: ks, m, n, below => by
    rw [List.foldl_cons, List.foldl_cons, addToSymbol_addToChoice,
      foldl_addToSymbol_addToChoice ks]

/-! ### Additions node by node -/

/-- The nodes right below a node of the menu tree. -/
def childIds (M : Model) (children : List Tree) : List NodeId := (M.outline children).map Tree.id

mutual

/-- What the nodes of a tree of blocks add, in the order in which they are finalized. -/
def enact (M K : Model) : Tree → Model
  | .node id children =>
    (enactForest M (K.addToSymbol id) children).addToChoice id (M.childIds children)

def enactForest (M K : Model) : List Tree → Model
  | [] => K
  | t :: ts => enactForest M (enact M K t) ts

end

mutual

/-- What the nodes of a tree of blocks add to choices. -/
def join (M K : Model) : Tree → Model
  | .node id children => (joinForest M K children).addToChoice id (M.childIds children)

def joinForest (M K : Model) : List Tree → Model
  | [] => K
  | t :: ts => joinForest M (join M K t) ts

end

theorem enactForest_append (M K : Model) (ts us : List Tree) :
    enactForest M K (ts ++ us) = enactForest M (enactForest M K ts) us := by
  induction ts generalizing K with
  | nil => rfl
  | cons t ts ih => rw [List.cons_append, enactForest, enactForest, ih]

mutual

theorem foldl_addToSymbol_join (M : Model) : ∀ (t : Tree) (ks : List NodeId) (K : Model),
    ks.foldl addToSymbol (join M K t) = join M (ks.foldl addToSymbol K) t
  | .node id children, ks, K => by
    rw [join, join, foldl_addToSymbol_addToChoice, foldl_addToSymbol_joinForest M children]

theorem foldl_addToSymbol_joinForest (M : Model) : ∀ (ts : List Tree) (ks : List NodeId) (K : Model),
    ks.foldl addToSymbol (joinForest M K ts) = joinForest M (ks.foldl addToSymbol K) ts
  | [], _, _ => rfl
  | t :: ts, ks, K => by
    rw [joinForest, joinForest, foldl_addToSymbol_joinForest M ts, foldl_addToSymbol_join M t]

end

mutual

theorem enact_eq (M : Model) : ∀ (t : Tree) (K : Model),
    enact M K t = join M (t.ids.foldl addToSymbol K) t
  | .node id children, K => by
    rw [enact, join, enactForest_eq M children, Tree.ids, List.foldl_cons]

/-- The nodes may as well add to symbols first. -/
theorem enactForest_eq (M : Model) : ∀ (ts : List Tree) (K : Model),
    enactForest M K ts = joinForest M ((Tree.forestIds ts).foldl addToSymbol K) ts
  | [], _ => rfl
  | t :: ts, K => by
    rw [enactForest, joinForest, enactForest_eq M ts, enact_eq M t, foldl_addToSymbol_join,
      Tree.forestIds, List.foldl_append]

end

/-! ### Choices are filled from the outline -/

/-- A node that is no choice's adds nothing to choices. -/
theorem addToChoice_of_choice? (h : (m.node n).entry.choice? = none) (below : List NodeId) :
    m.addToChoice n below = m := by
  unfold addToChoice
  cases hentry : (m.node n).entry <;> simp_all [Entry.choice?]

mutual

theorem nodes_fillChoices : ∀ (t : Tree) (K : Model), (K.fillChoices t).nodes = K.nodes
  | .node id children, K => by
    rw [fillChoices, nodes_addToChoice, nodes_fillChoicesForest children]

theorem nodes_fillChoicesForest : ∀ (ts : List Tree) (K : Model),
    (K.fillChoicesForest ts).nodes = K.nodes
  | [], _ => rfl
  | t :: ts, K => by
    rw [fillChoicesForest, nodes_fillChoicesForest ts, nodes_fillChoices t]

end

theorem fillChoicesForest_append (K : Model) (ts us : List Tree) :
    K.fillChoicesForest (ts ++ us) = (K.fillChoicesForest ts).fillChoicesForest us := by
  induction ts generalizing K with
  | nil => rfl
  | cons t ts ih => rw [List.cons_append, fillChoicesForest, fillChoicesForest, ih]

theorem isDissolved_congr (h : K.nodes = M.nodes) (n : NodeId) :
    K.isDissolved n = M.isDissolved n := by
  rw [isDissolved, isDissolved, node, node, h]

theorem symbolOf?_congr (h : K.nodes = M.nodes) (n : NodeId) :
    K.symbolOf? n = M.symbolOf? n := by
  rw [symbolOf?, symbolOf?, node, node, h]

/-- Trees that dissolve have no choice to fill at their root. -/
theorem fillChoicesForest_unwrap (h : K.nodes = M.nodes) (t : Tree) :
    K.fillChoicesForest (M.unwrap t) = K.fillChoices t := by
  obtain ⟨n, children⟩ := t
  unfold unwrap
  split
  · next hdissolved =>
    have hself : ∀ (K' : Model) (below : List NodeId), K'.nodes = M.nodes →
        K'.addToChoice n below = K' := fun K' below hK' =>
      addToChoice_of_choice? (choice?_of_isDissolved
        ((isDissolved_congr hK' n).trans hdissolved)) below
    have hchildren : (K.fillChoicesForest children).nodes = M.nodes :=
      (nodes_fillChoicesForest children K).trans h
    split
    · rw [fillChoices, hself _ _ hchildren]
      rfl
    · rw [fillChoicesForest, fillChoices, fillChoices, fillChoicesForest, Tree.id,
        hself _ _ hchildren, hself _ _ h]
      rfl
  · rfl

theorem fillChoicesForest_flatMap_unwrap : ∀ (ts : List Tree) {K : Model}, K.nodes = M.nodes →
    K.fillChoicesForest (ts.flatMap M.unwrap) = K.fillChoicesForest ts
  | [], _, _ => rfl
  | t :: ts, K, h => by
    rw [List.flatMap_cons, fillChoicesForest_append, fillChoicesForest_unwrap h,
      fillChoicesForest_flatMap_unwrap ts ((nodes_fillChoices t K).trans h)]
    rfl

/-- Nesting moves trees under symbols, which are no choices and have nothing else below them. -/
theorem fillChoicesForest_nest : ∀ {ts : List Tree} {K : Model}, K.nodes = M.nodes →
    (∀ t ∈ ts, (M.symbolOf? t.id).isSome → t.children = []) →
      K.fillChoicesForest (M.nest ts) = K.fillChoicesForest ts
  | [], _, _, _ => rfl
  | ⟨n, children⟩ :: ts, K, h, hleaves => by
    have hrest := fun {K : Model} (h : K.nodes = M.nodes) =>
      fillChoicesForest_nest h fun t ht => hleaves t (List.mem_cons_of_mem _ ht)
    unfold nest
    dsimp only
    split
    · next s hs =>
      have hs : M.symbolOf? n = some s := hs
      obtain rfl : children = [] := hleaves _ (List.mem_cons_self ..) (by
        rw [show M.symbolOf? (Tree.id (.node n children)) = some s from hs]
        rfl)
      have hself : ∀ (K' : Model) (below : List NodeId), K'.nodes = M.nodes →
          K'.addToChoice n below = K' := fun K' below hK' =>
        addToChoice_of_choice? (choice?_of_symbolOf? ((symbolOf?_congr hK' n).trans hs)) below
      rw [fillChoicesForest, fillChoices, Tree.id, fillChoicesForest_flatMap_unwrap _ h,
        hself _ _ ((nodes_fillChoicesForest _ K).trans h), ← fillChoicesForest_append,
        List.takeWhile_append_dropWhile, hrest h, fillChoicesForest, fillChoices,
        hself _ _ ((nodes_fillChoicesForest _ K).trans h), fillChoicesForest]
    · rw [fillChoicesForest, fillChoicesForest, hrest ((nodes_fillChoices _ K).trans h)]

mutual

theorem fillChoices_outlineTree : ∀ (t : Tree) {K : Model}, K.nodes = M.nodes →
    M.LeafSymbols t.parents → K.fillChoices (M.outlineTree t) = join M K t
  | .node id children, K, h, hleaves => by
    rw [Tree.parents] at hleaves
    have hchildren : M.LeafSymbols (Tree.forestParents children) := fun k hk =>
      hleaves k (List.mem_append_right _ hk)
    rw [outlineTree, fillChoices, join, fillChoicesForest_flatMap_unwrap _ h,
      fillChoicesForest_nest h (outlineForest_leaves hchildren),
      fillChoicesForest_outlineForest children h hchildren]
    rfl

theorem fillChoicesForest_outlineForest : ∀ (ts : List Tree) {K : Model}, K.nodes = M.nodes →
    M.LeafSymbols (Tree.forestParents ts) →
      K.fillChoicesForest (M.outlineForest ts) = joinForest M K ts
  | [], _, _, _ => rfl
  | t :: ts, K, h, hleaves => by
    rw [Tree.forestParents] at hleaves
    rw [outlineForest, fillChoicesForest, joinForest,
      fillChoices_outlineTree t h fun k hk => hleaves k (List.mem_append_left _ hk)]
    refine fillChoicesForest_outlineForest ts ?_ fun k hk => hleaves k (List.mem_append_right _ hk)
    rw [← fillChoices_outlineTree t h fun k hk => hleaves k (List.mem_append_left _ hk),
      nodes_fillChoices, h]

end

/-- The choices are filled the same from the outline of the blocks. -/
theorem fillChoicesForest_outline (h : K.nodes = M.nodes)
    (hleaves : M.LeafSymbols (Tree.forestParents ts)) :
    K.fillChoicesForest (M.outline ts) = joinForest M K ts := by
  rw [outline, fillChoicesForest_flatMap_unwrap _ h,
    fillChoicesForest_nest h (outlineForest_leaves hleaves),
    fillChoicesForest_outlineForest ts h hleaves]

end Model
end Kconfig
