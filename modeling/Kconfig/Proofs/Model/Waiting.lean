import Kconfig.Proofs.Model.Enacted
import Mathlib.Data.List.Basic
/-!
Trees that wait to be finalized, and trees that are done.

While a node is finalized, the trees beside it wait: they are strung as they were read, their roots
have inherited, and the nodes below these have not. What was finalized has inherited and added to
symbols and choices, and only links of its own nodes were written, so what waits goes on waiting.
-/
namespace Kconfig
namespace Model
variable {m m' m'' K M : Model} {n p : NodeId} {ns below : List NodeId} {ts us : List Tree}
  {visible : Expr}

/-! ### Models that are alike but for nodes, links and tree -/

/-- The model is another one, but for nodes, links and tree. -/
def Shows (K m : Model) : Prop := ∃ nodes table tree, m = { K with nodes, table, tree }

namespace Shows

theorem setSymbol (h : Shows K m) (s : SymbolId) (f : Symbol → Symbol) :
    Shows (K.setSymbol s f) (m.setSymbol s f) := by
  obtain ⟨nodes, table, tree, rfl⟩ := h
  exact ⟨nodes, table, tree, rfl⟩

theorem setChoice (h : Shows K m) (c : ChoiceId) (f : Choice → Choice) :
    Shows (K.setChoice c f) (m.setChoice c f) := by
  obtain ⟨nodes, table, tree, rfl⟩ := h
  exact ⟨nodes, table, tree, rfl⟩

theorem foldl_setSymbol {α : Type} {g : α → SymbolId} {f : α → Symbol → Symbol} :
    ∀ (xs : List α) {K m : Model}, Shows K m →
      Shows (xs.foldl (fun m x => m.setSymbol (g x) (f x)) K)
        (xs.foldl (fun m x => m.setSymbol (g x) (f x)) m)
  | [], _, _, h => h
  | x :: xs, _, _, h => foldl_setSymbol xs (h.setSymbol (g x) (f x))

/-- A node adds the same to symbols. -/
theorem addToSymbol (h : Shows K m) (hn : m.node n = K.node n) :
    Shows (K.addToSymbol n) (m.addToSymbol n) := by
  unfold Model.addToSymbol
  dsimp only
  rw [hn]
  cases (K.node n).entry with
  | symbol s => exact foldl_setSymbol _ (foldl_setSymbol _ (h.setSymbol s _))
  | _ => exact h

theorem shareType (h : Shows K m) (c : ChoiceId) : Shows (K.shareType c) (m.shareType c) := by
  have htype : m.sharedType c = K.sharedType c := by
    obtain ⟨nodes, table, tree, rfl⟩ := h
    rfl
  have hmembers : (m.choice c).members = (K.choice c).members := by
    obtain ⟨nodes, table, tree, rfl⟩ := h
    rfl
  unfold Model.shareType
  rw [htype, hmembers]
  exact foldl_setSymbol (g := id) (f := fun _ => takeType (K.sharedType c)) _
    (h.setChoice c ({ · with type := K.sharedType c }))

/-- A node adds the same to choices. -/
theorem addToChoice (h : Shows K m) (hn : m.node n = K.node n)
    (hbelow : ∀ k ∈ below, m.node k = K.node k) :
    Shows (K.addToChoice n below) (m.addToChoice n below) := by
  have hmembers : below.filterMap m.symbolOf? = below.filterMap K.symbolOf? :=
    List.filterMap_congr fun k hk => by rw [symbolOf?, symbolOf?, hbelow k hk]
  unfold Model.addToChoice
  dsimp only
  rw [hn, hmembers]
  cases (K.node n).entry with
  | choice c =>
    exact (foldl_setSymbol (g := id) (f := fun _ sym => { sym with choice := some c }) _
      (h.setChoice c _)).shareType c
  | _ => exact h

theorem rewires (h : Shows K m) (hm : Rewires ns m m') : Shows K m' := by
  obtain ⟨nodes, table, tree, rfl⟩ := h
  exact ⟨nodes, m'.table, tree, hm.rest⟩

theorem inheritAll (h : Shows K m) (around : Surroundings) (ns : List NodeId) :
    Shows K (m.inheritAll around ns) := by
  refine Lists.foldl_keeps (fun m : Model => Shows K m) (fun m' n h => ?_) ns h
  obtain ⟨nodes, table, tree, rfl⟩ := h
  exact ⟨nodes.modify n (MenuNode.inherit around), table, tree, rfl⟩

theorem eq (h : Shows K m) (hnodes : m.nodes = K.nodes) (htable : m.table = K.table) :
    { m with tree := K.tree } = K := by
  obtain ⟨nodes, table, tree, rfl⟩ := h
  obtain rfl : nodes = K.nodes := hnodes
  obtain rfl : table = K.table := htable
  rfl

end Shows

/-! ### Inheriting at one level -/

variable {around : Surroundings}

theorem size_setNode (m : Model) (n : NodeId) (f : MenuNode → MenuNode) :
    (m.setNode n f).nodes.size = m.nodes.size := Array.size_modify

theorem inheritAll_keeps (m : Model) (around : Surroundings) (ns : List NodeId) :
    (m.inheritAll around ns).table = m.table ∧
      (m.inheritAll around ns).nodes.size = m.nodes.size := by
  refine Lists.foldl_keeps
    (fun m' : Model => m'.table = m.table ∧ m'.nodes.size = m.nodes.size) (fun m' n h => ?_) ns
    ⟨rfl, rfl⟩
  exact ⟨h.1, (size_setNode m' n _).trans h.2⟩

theorem linksOf_inheritAll (m : Model) (around : Surroundings) (ns : List NodeId) (n : NodeId) :
    (m.inheritAll around ns).linksOf n = m.linksOf n := by
  rw [linksOf, linksOf, (inheritAll_keeps m around ns).1]

theorem node_inheritAll_of_not_mem : ∀ {ns : List NodeId} {m : Model}, n ∉ ns →
    (m.inheritAll around ns).node n = m.node n
  | [], _, _ => rfl
  | k :: ns, m, h => by
    rw [List.mem_cons, not_or] at h
    have hrest := node_inheritAll_of_not_mem
      (m := m.setNode k (MenuNode.inherit around)) h.2
    exact hrest.trans (by rw [node_setNode, if_neg fun hk => h.1 hk.1.symm])

theorem node_inheritAll : ∀ {ns : List NodeId} {m : Model}, ns.Nodup →
    n < m.nodes.size → n ∈ ns → (m.inheritAll around ns).node n = (m.node n).inherit around
  | k :: ns, m, hnodup, hlt, hn => by
    obtain ⟨hk, hnodup⟩ := List.nodup_cons.mp hnodup
    rcases List.mem_cons.mp hn with rfl | hn
    · refine (node_inheritAll_of_not_mem (m := m.setNode n (MenuNode.inherit around)) hk).trans ?_
      rw [node_setNode, if_pos ⟨rfl, hlt⟩]
    · have hrest := node_inheritAll
        (m := m.setNode k (MenuNode.inherit around)) hnodup
        (Nat.lt_of_lt_of_eq hlt (size_setNode m k _).symm) hn
      refine hrest.trans ?_
      rw [node_setNode, if_neg]
      rintro ⟨rfl, -⟩
      exact hk hn

/-! ### Trees that wait -/

mutual

/-- What is below the root of a tree has still to inherit what it has in the end. -/
def Awaits (M m : Model) (visible : Expr) : Tree → Prop
  | .node id children => AwaitsFrom M m ((M.node id).inside { visible }) children

/-- Trees have still to inherit from around them what they have in the end. -/
def AwaitsFrom (M m : Model) (around : Surroundings) : List Tree → Prop
  | [] => True
  | t :: ts => M.node t.id = (m.node t.id).inherit around ∧ Awaits M m around.visible t ∧
      AwaitsFrom M m around ts

end

mutual

theorem awaits_congr : ∀ (t : Tree) {visible : Expr},
    (∀ n ∈ Tree.forestIds t.children, m'.node n = m.node n) → Awaits M m visible t →
      Awaits M m' visible t
  | .node _ children, _, h, ht => awaitsFrom_congr children h ht

theorem awaitsFrom_congr : ∀ (ts : List Tree) {around : Surroundings},
    (∀ n ∈ Tree.forestIds ts, m'.node n = m.node n) → AwaitsFrom M m around ts →
      AwaitsFrom M m' around ts
  | [], _, _, _ => trivial
  | .node n children :: ts, _, h, ⟨hroot, hbelow, hrest⟩ => by
    rw [Tree.forestIds_cons] at h
    refine ⟨?_, awaits_congr (.node n children)
      (fun k hk => h k (List.mem_cons_of_mem _ (List.mem_append_left _ hk))) hbelow,
      awaitsFrom_congr ts
        (fun k hk => h k (List.mem_cons_of_mem _ (List.mem_append_right _ hk))) hrest⟩
    rw [show m'.node (Tree.id (.node n children)) = m.node n from h n (List.mem_cons_self ..)]
    exact hroot

end

mutual

theorem awaits_of_stands : ∀ (t : Tree) {around : Surroundings},
    M.node t.id = (m.node t.id).inherit around →
      (∀ above n, Tree.Stands t.children above n →
        M.node n = (m.node n).inherit (m.around (m.around around [t.id]) above)) →
      Awaits M m around.visible t
  | .node id children, around, hroot, h => by
    have hinside : (M.node id).inside { visible := around.visible } = m.around around [id] := by
      rw [show M.node id = (m.node id).inherit around from hroot]
      rfl
    rw [Awaits, hinside]
    exact awaitsFrom_of_stands children h

/-- Trees wait for what the nodes above them give. -/
theorem awaitsFrom_of_stands : ∀ (ts : List Tree) {around : Surroundings},
    (∀ above n, Tree.Stands ts above n → M.node n = (m.node n).inherit (m.around around above)) →
      AwaitsFrom M m around ts
  | [], _, _ => trivial
  | .node id children :: ts, around, h => by
    have hroot := h [] id (.root (List.mem_cons_self ..))
    refine ⟨hroot, awaits_of_stands (.node id children) hroot fun above n hn => ?_,
      awaitsFrom_of_stands ts fun above n hn => h above n (hn.mono fun _ ht =>
        List.mem_cons_of_mem _ ht)⟩
    rw [← around_append]
    exact h _ n (.under (List.mem_cons_self ..) hn)

end

theorem AwaitsFrom.mem : ∀ {ts : List Tree}, AwaitsFrom M m around ts → ∀ t ∈ ts,
    M.node t.id = (m.node t.id).inherit around ∧ Awaits M m around.visible t
  | _ :: ts, h, t, ht => by
    rcases List.mem_cons.mp ht with rfl | ht
    · exact ⟨h.1, h.2.1⟩
    · exact AwaitsFrom.mem h.2.2 t ht

/-- Trees of blocks that wait to be finalized: their roots have inherited. -/
structure Waits (M : Model) (visible : Expr) (p : NodeId) (ts : List Tree) (m : Model) : Prop where
  chain : m.Chain p none ts
  roots : ∀ t ∈ ts, m.node t.id = M.node t.id
  below : ∀ t ∈ ts, Awaits M m visible t
  leaves : M.LeafSymbols (Tree.forestParents ts)
  lt : ∀ n ∈ Tree.forestIds ts, n < m.nodes.size
  room : (Tree.forestIds ts).length ≤ m.nodes.size

/-- Trees of blocks that have been finalized: their nodes have inherited and added to symbols and
choices, and only their links were written. -/
structure Done (M : Model) (ts : List Tree) (m m' : Model) : Prop
    extends Relinks (Tree.forestIds ts) m m' where
  shows : ∀ {K}, K.nodes = M.nodes → Shows K m → Shows (enactForest M K ts) m'
  inherited : ∀ n ∈ Tree.forestIds ts, m'.node n = M.node n
  kept : ∀ n ∉ Tree.forestIds ts, m'.node n = m.node n
  count : m'.nodes.size = m.nodes.size

mutual

theorem nodes_enact (M : Model) : ∀ (t : Tree) (K : Model), (enact M K t).nodes = K.nodes
  | .node id children, K => by
    rw [enact, nodes_addToChoice, nodes_enactForest M children, nodes_addToSymbol]

theorem nodes_enactForest (M : Model) : ∀ (ts : List Tree) (K : Model),
    (enactForest M K ts).nodes = K.nodes
  | [], _ => rfl
  | t :: ts, K => by rw [enactForest, nodes_enactForest M ts, nodes_enact M t]

end

namespace Done

theorem nil (M m : Model) : Done M [] m m where
  toRelinks := (Rewires.refl _ m).toRelinks
  shows _ h := h
  inherited _ h := absurd h List.not_mem_nil
  kept _ _ := rfl
  count := rfl

theorem append (h : Done M ts m m') (h' : Done M us m' m'') : Done M (ts ++ us) m m'' where
  toRelinks := by
    rw [Tree.forestIds_append]
    exact (h.toRelinks.mono fun n hn => List.mem_append_left _ hn).trans
      (h'.toRelinks.mono fun n hn => List.mem_append_right _ hn)
  shows hK hm := by
    rw [enactForest_append]
    exact h'.shows ((nodes_enactForest M ts _).trans hK) (h.shows hK hm)
  inherited n hn := by
    rw [Tree.forestIds_append] at hn
    by_cases hus : n ∈ Tree.forestIds us
    · exact h'.inherited n hus
    · rw [h'.kept n hus, h.inherited n ((List.mem_append.mp hn).resolve_right hus)]
  kept n hn := by
    rw [Tree.forestIds_append, List.mem_append, not_or] at hn
    rw [h'.kept n hn.2, h.kept n hn.1]
  count := h'.count.trans h.count

/-- The links of nodes that were come to may be written again. -/
theorem rewires (h : Done M ts m m') (hm : Rewires ns m' m'')
    (hns : ∀ n ∈ ns, n ∈ Tree.forestIds ts) : Done M ts m m'' where
  toRelinks := h.toRelinks.trans (hm.toRelinks.mono hns)
  shows hK hm' := (h.shows hK hm').rewires hm
  inherited n hn := (hm.node n).trans (h.inherited n hn)
  kept n hn := (hm.node n).trans (h.kept n hn)
  count := by rw [hm.nodes, h.count]

end Done

/-- Trees that are not come to go on waiting. -/
theorem Waits.later (us : List Tree) (h : Waits M visible p (us ++ ts) m) (hdone : Done M us m m') :
    Waits M visible p ts m' := by
  obtain ⟨-, hchain, hdisjoint⟩ := Chain.append_iff.mp h.chain
  have hkept : ∀ n ∈ Tree.forestIds ts, m'.node n = m.node n := fun n hn =>
    hdone.kept n fun hmem => hdisjoint n hmem hn
  have hroom := h.room
  rw [Tree.forestIds_append, List.length_append] at hroom
  constructor
  case chain => exact hchain.relinks hdone.toRelinks fun n hn hmem => hdisjoint n hmem hn
  case roots =>
    intro t ht
    rw [hkept _ (Tree.mem_forestIds_of_mem ht (Tree.id_mem_ids t))]
    exact h.roots t (List.mem_append_right _ ht)
  case below =>
    intro t ht
    refine awaits_congr t (fun n hn => hkept n (Tree.mem_forestIds_of_mem ht ?_))
      (h.below t (List.mem_append_right _ ht))
    cases t with
    | node id children =>
      rw [Tree.ids]
      exact List.mem_cons_of_mem _ hn
  case leaves =>
    intro n hn
    refine h.leaves n ?_
    rw [Tree.forestParents_append]
    exact List.mem_append_right _ hn
  case lt =>
    intro n hn
    rw [hdone.count]
    refine h.lt n ?_
    rw [Tree.forestIds_append]
    exact List.mem_append_right _ hn
  case room =>
    rw [hdone.count]
    omega

/-! ### What begins and ends waiting -/

theorem sublist_forestIds : ∀ ts : List Tree, (ts.map Tree.id).Sublist (Tree.forestIds ts)
  | [] => .slnil
  | .node n children :: ts => by
    rw [List.map_cons, Tree.forestIds_cons]
    exact ((sublist_forestIds ts).trans (List.sublist_append_right _ _)).cons_cons n

/-- What is below a tree's root is no tree's root. -/
theorem not_mem_roots {t : Tree} {k : NodeId} : ∀ {ts : List Tree}, (Tree.forestIds ts).Nodup →
    t ∈ ts → k ∈ Tree.forestIds t.children → k ∉ ts.map Tree.id
  | .node n children :: ts, hnodup, ht, hk => by
    rw [Tree.forestIds_cons, List.nodup_cons, List.nodup_append, List.mem_append, not_or] at hnodup
    obtain ⟨⟨hn, hn'⟩, -, hrest, hdisjoint⟩ := hnodup
    rw [List.map_cons, List.mem_cons, not_or]
    rcases List.mem_cons.mp ht with rfl | hrestt
    · refine ⟨ne_of_mem_of_not_mem hk hn, fun hmem => ?_⟩
      exact hdisjoint k hk k ((sublist_forestIds ts).subset hmem) rfl
    · refine ⟨ne_of_mem_of_not_mem (Tree.mem_forestIds_of_mem hrestt ?_) hn',
        not_mem_roots hrest hrestt hk⟩
      obtain ⟨id, below⟩ := t
      rw [Tree.ids]
      exact List.mem_cons_of_mem _ hk

/-- Trees wait when their roots have inherited. -/
theorem waits_inheritAll (hchain : m.Chain p none ts) (hawaits : AwaitsFrom M m around ts)
    (hleaves : M.LeafSymbols (Tree.forestParents ts))
    (hlt : ∀ k ∈ Tree.forestIds ts, k < m.nodes.size)
    (hroom : (Tree.forestIds ts).length ≤ m.nodes.size) :
    Waits M around.visible p ts (m.inheritAll around (ts.map Tree.id)) := by
  obtain ⟨htable, hsize⟩ := inheritAll_keeps m around (ts.map Tree.id)
  have hroots := hchain.nodup.sublist (sublist_forestIds ts)
  constructor
  case chain =>
    exact hchain.relinks ⟨congrArg Array.size htable, fun k _ =>
      linksOf_inheritAll m around _ k⟩ fun _ _ => List.not_mem_nil
  case roots =>
    intro t ht
    rw [(hawaits.mem t ht).1]
    exact node_inheritAll hroots (hlt _ (Tree.mem_forestIds_of_mem ht (Tree.id_mem_ids t)))
      (List.mem_map_of_mem ht)
  case below =>
    intro t ht
    refine awaits_congr t (fun k hk => node_inheritAll_of_not_mem fun hmem => ?_) (hawaits.mem t ht).2
    exact not_mem_roots hchain.nodup ht hk hmem
  case leaves => exact hleaves
  case lt => exact fun k hk => hsize ▸ hlt k hk
  case room => exact hsize ▸ hroom

/-- Nodes may have inherited before they were finalized. -/
theorem Done.of_inheritAll (hns : ∀ n ∈ ns, n ∈ Tree.forestIds ts)
    (h : Done M ts (m.inheritAll around ns) m') : Done M ts m m' where
  toRelinks := by
    obtain ⟨htable, -⟩ := inheritAll_keeps m around ns
    refine ⟨h.size.trans (congrArg Array.size htable), fun k hk => ?_⟩
    rw [h.others k hk, linksOf_inheritAll]
  shows hK hm := h.shows hK (hm.inheritAll around ns)
  inherited := h.inherited
  kept k hk := by
    rw [h.kept k hk, node_inheritAll_of_not_mem fun hmem => hk (hns k hmem)]
  count := h.count.trans (inheritAll_keeps m around ns).2

theorem entry_of_symbolOf? {s : SymbolId} (h : m.symbolOf? n = some s) :
    (m.node n).entry = .symbol s := by
  unfold symbolOf? at h
  cases hentry : (m.node n).entry <;> simp_all

theorem addToSymbol_of_none (h : m.symbolOf? n = none) : m.addToSymbol n = m := by
  unfold symbolOf? at h
  unfold addToSymbol
  cases hentry : (m.node n).entry <;> simp_all

theorem table_addToChoice (m : Model) (n : NodeId) (below : List NodeId) :
    (m.addToChoice n below).table = m.table := by
  have hfold : ∀ (f : Symbol → Symbol) (ss : List SymbolId) (m : Model),
      (ss.foldl (fun m s => m.setSymbol s f) m).table = m.table := fun f ss m =>
    Lists.foldl_keeps (f := fun m s => setSymbol m s f) (fun m' : Model => m'.table = m.table)
      (fun _ _ h => h) ss rfl
  unfold addToChoice
  dsimp only
  split
  · exact (hfold _ _ _).trans (hfold _ _ _)
  · rfl

theorem relinks_addToChoice (m : Model) (n : NodeId) (below : List NodeId) :
    Relinks [] m (m.addToChoice n below) := by
  refine ⟨by rw [table_addToChoice], fun k _ => ?_⟩
  rw [linksOf, linksOf, table_addToChoice]

theorem node_addToChoice (m : Model) (n : NodeId) (below : List NodeId) (k : NodeId) :
    (m.addToChoice n below).node k = m.node k := by
  rw [node, node, nodes_addToChoice]

/-- A symbol's node adds to its symbol. -/
theorem done_addToSymbol {s : SymbolId} (hs : M.symbolOf? n = some s) (hnode : m.node n = M.node n) :
    Done M [.node n []] m (m.addToSymbol n) where
  toRelinks := by
    have hrest := (gathers_addToSymbol m n).rest
    refine ⟨by rw [hrest], fun k _ => ?_⟩
    rw [linksOf, linksOf, hrest]
  shows hK hm := by
    have hself : ∀ K' : Model, K'.nodes = M.nodes → ∀ below, K'.addToChoice n below = K' :=
      fun K' hK' below => addToChoice_of_choice? (choice?_of_symbolOf?
        ((symbolOf?_congr hK' n).trans hs)) below
    rw [enactForest, enact, enactForest, enactForest, hself _ ((nodes_addToSymbol _ _).trans hK)]
    refine hm.addToSymbol (hnode.trans ?_)
    rw [node, node, hK]
  inherited k hk := by
    obtain rfl : k = n := by
      rw [Tree.forestIds_cons] at hk
      simpa [Tree.forestIds] using hk
    rw [node, nodes_addToSymbol]
    exact hnode
  kept k _ := by rw [node, node, nodes_addToSymbol]
  count := by rw [nodes_addToSymbol]

end Model
end Kconfig
