import Kconfig.Proofs.Model.Nested
/-!
Finalizing in place gives what the separate passes give.

Finalizing the first of the trees that wait takes some of the others under it and leaves the rest
waiting; the links then lead through the trees that nesting gives. A symbol takes the trees after it
one by one, each finalized first, as long as they are shown only when it holds.
-/
namespace Kconfig
namespace Model
variable {m m' m'' M : Model} {n p : NodeId} {ts : List Tree} {visible : Expr}

/-! ### What finalizing one node gives -/

/-- What finalizing the first of some trees gives: it has taken some of the others under it. -/
structure Advances (M : Model) (p : NodeId) (t : Tree) (ts : List Tree) (m m' : Model) (t' : Tree)
    (used rest : List Tree) : Prop where
  split : ts = used ++ rest
  nested : M.nested (t :: ts) = t' :: M.nested rest
  chain : m'.Chain p none (t' :: rest)
  done : Done M (t :: used) m m'
  ids : ∀ n ∈ t'.ids, n ∈ Tree.forestIds (t :: used)
  empties : m'.Empties (t :: used) [t']

theorem Advances.id {t t' : Tree} {used rest : List Tree}
    (h : Advances M p t ts m m' t' used rest) : t'.id = t.id := by
  have hfirst := firstId?_nested M (t :: ts)
  rw [h.nested] at hfirst
  exact Option.some.inj hfirst

/-- The node that the trees so far taken under a node end with. -/
def lastOr (n : NodeId) (ts : List Tree) : NodeId := (ts.getLast?.map Tree.id).getD n

/-- While a symbol takes nodes under it: the trees that it has taken are strung behind its node and
below it, and the others after them. -/
structure Takes (M : Model) (visible : Expr) (p n : NodeId) (got ts : List Tree) (m : Model) :
    Prop where
  waits : Waits M visible p ts m
  chain : m.Chain n (Tree.firstId? ts) got
  links : m.linksOf n = ⟨some p, none, (Tree.firstId? got).or (Tree.firstId? ts)⟩
  lt : n < m.table.size
  notGot : n ∉ Tree.forestIds got
  notWaiting : n ∉ Tree.forestIds ts
  disjoint : ∀ k ∈ Tree.forestIds got, k ∉ Tree.forestIds ts

/-- The trees that a symbol takes under it: those that follow it, and no more. -/
structure Taken (M : Model) (visible : Expr) (s : SymbolId) (p n : NodeId) (got ts : List Tree)
    (m m' : Model) (more used rest : List Tree) : Prop extends
    Takes M visible p n (got ++ more) rest m' where
  split : ts = used ++ rest
  nested : M.nested ts = more ++ M.nested rest
  follow : ∀ t ∈ more, M.follows s t = true
  stop : ∀ t ∈ (M.nested rest).head?, M.follows s t = false
  done : Done M used m m'
  ids : ∀ n ∈ Tree.forestIds more, n ∈ Tree.forestIds used
  empties : m'.Empties used more

/-! ### While a symbol takes nodes under it -/

section
variable {got : List Tree}

theorem lastOr_concat (n : NodeId) (ts : List Tree) (t : Tree) : lastOr n (ts ++ [t]) = t.id := by
  rw [lastOr, List.getLast?_concat]
  rfl

theorem lastOr_mem (n : NodeId) (h : got ≠ []) : got.getLast?.map Tree.id = some (lastOr n got) := by
  rw [lastOr, List.getLast?_eq_some_getLast h]
  rfl

/-- The node that the walk has come to is linked to the first of those that wait. -/
theorem Takes.next (h : Takes M visible p n got ts m) :
    (m.linksOf (lastOr n got)).next = Tree.firstId? ts := by
  by_cases hgot : got = []
  · subst hgot
    rw [show lastOr n [] = n from rfl, h.links]
    rfl
  · exact h.chain.next_last (lastOr_mem n hgot)

/-- That node is none of those that wait. -/
theorem Takes.last_notWaiting (h : Takes M visible p n got ts m) :
    lastOr n got ∉ Tree.forestIds ts := by
  by_cases hgot : got = []
  · subst hgot
    exact h.notWaiting
  · exact h.disjoint _ (Tree.mem_forestIds_of_getLast? (lastOr_mem n hgot))

theorem follows_congr {t u : Tree} (s : SymbolId) (h : t.id = u.id) :
    M.follows s t = M.follows s u := by
  rw [follows, follows, h]

theorem Taken.refl {s : SymbolId} (h : Takes M visible p n got ts m)
    (hstop : ∀ t ∈ (M.nested ts).head?, M.follows s t = false) :
    Taken M visible s p n got ts m m [] [] ts where
  toTakes := by
    rw [List.append_nil]
    exact h
  split := rfl
  nested := rfl
  follow _ ht := absurd ht List.not_mem_nil
  stop := hstop
  done := .nil M m
  ids _ hn := absurd hn List.not_mem_nil
  empties _ hk := absurd hk List.not_mem_nil

/-- The first of the trees that wait goes under the symbol when it has been finalized. -/
theorem Takes.advance {k t' : Tree} {used rest : List Tree} (h : Takes M visible p n got (k :: ts) m)
    (hadv : Advances M p k ts m m' t' used rest) :
    Takes M visible p n (got ++ [t']) rest (m'.setLinks k.id ({ · with parent := some n })) := by
  have hid := hadv.id
  obtain ⟨hsplit, -, hchain, hdone, hids, -⟩ := hadv
  subst hsplit
  have hwhole : k :: (used ++ rest) = (k :: used) ++ rest := rfl
  have hset := Rewires.setLinks m' k.id ({ · with parent := some n })
  have hkused : k.id ∈ Tree.forestIds (k :: used) :=
    Tree.mem_forestIds_of_mem (List.mem_cons_self ..) (Tree.id_mem_ids k)
  have hused : ∀ j ∈ Tree.forestIds (k :: used), j ∈ Tree.forestIds (k :: (used ++ rest)) := by
    intro j hj
    rw [hwhole, Tree.forestIds_append]
    exact List.mem_append_left _ hj
  have hrest : ∀ j ∈ Tree.forestIds rest, j ∈ Tree.forestIds (k :: (used ++ rest)) := by
    intro j hj
    rw [hwhole, Tree.forestIds_append]
    exact List.mem_append_right _ hj
  have hdone' : Done M (k :: used) m (m'.setLinks k.id ({ · with parent := some n })) :=
    hdone.rewires hset fun j hj => by
      rw [List.mem_singleton.mp hj]
      exact hkused
  have ht'ids : Tree.forestIds [t'] = t'.ids := by
    rw [Tree.forestIds, Tree.forestIds, List.append_nil]
  have hwaits := Waits.later (k :: used) (hwhole ▸ h.waits) hdone'
  obtain ⟨-, -, hdisjoint⟩ := Chain.append_iff.mp (show m'.Chain p none ([t'] ++ rest) from hchain)
  constructor
  case waits => exact hwaits
  case chain =>
    refine Chain.append_iff.mpr ⟨?_, ?_, fun j hj hj' => ?_⟩
    · rw [Tree.firstId?_cons, hid]
      exact h.chain.relinks hdone'.toRelinks fun j hj hj' => h.disjoint j hj (hused j hj')
    · obtain ⟨id, children⟩ := t'
      obtain rfl : id = k.id := hid
      have hhead := hchain.head
      refine .cons ⟨?_, ?_, ?_, .nil _ _ _, hhead.notBelow, List.not_mem_nil, fun _ _ =>
        List.not_mem_nil⟩
      · rw [linksOf_setLinks_self hhead.lt, hhead.links, Option.or_none]
        rfl
      · exact hset.size ▸ hhead.lt
      · exact hhead.below.setLinks hhead.notBelow
    · rw [ht'ids] at hj'
      exact h.disjoint j hj (hused j (hids j hj'))
  case links =>
    rw [hdone'.others n fun hn => h.notWaiting (hused n hn), h.links, Tree.firstId?_append,
      Tree.firstId?_cons, Tree.firstId?_cons, hid]
    cases Tree.firstId? got <;> rfl
  case lt => exact hdone'.size ▸ h.lt
  case notGot =>
    rw [Tree.forestIds_append, List.mem_append, not_or, ht'ids]
    exact ⟨h.notGot, fun hn => h.notWaiting (hused n (hids n hn))⟩
  case notWaiting => exact fun hn => h.notWaiting (hrest n hn)
  case disjoint =>
    intro j hj hj'
    rw [Tree.forestIds_append] at hj
    rcases List.mem_append.mp hj with hj | hj
    · exact h.disjoint j hj (hrest j hj')
    · exact hdisjoint j hj hj'

/-- A tree more that goes under the symbol. -/
theorem Taken.cons {s : SymbolId} {k t' : Tree} {used₁ rest₁ more used₂ rest : List Tree}
    (hwaits : Waits M visible p (k :: ts) m)
    (hadv : Advances M p k ts m m' t' used₁ rest₁) (hfollows : M.follows s k = true)
    (h : Taken M visible s p n (got ++ [t']) rest₁
      (m'.setLinks k.id ({ · with parent := some n })) m'' more used₂ rest) :
    Taken M visible s p n got (k :: ts) m m'' (t' :: more) (k :: used₁ ++ used₂) rest where
  toTakes := by
    rw [List.append_cons]
    exact h.toTakes
  split := by
    rw [hadv.split, h.split]
    exact (List.append_assoc (k :: used₁) used₂ rest).symm
  nested := by rw [hadv.nested, h.nested, List.cons_append]
  follow t ht := by
    rcases List.mem_cons.mp ht with rfl | ht
    · rw [follows_congr s hadv.id]
      exact hfollows
    · exact h.follow t ht
  stop := h.stop
  done := by
    refine (hadv.done.rewires (.setLinks m' k.id _) fun j hj => ?_).append h.done
    rw [List.mem_singleton.mp hj]
    exact Tree.mem_forestIds_of_mem (List.mem_cons_self ..) (Tree.id_mem_ids k)
  ids j hj := by
    rw [Tree.forestIds_append]
    rw [Tree.forestIds] at hj
    rcases List.mem_append.mp hj with hj | hj
    · exact List.mem_append_left _ (hadv.ids j hj)
    · exact List.mem_append_right _ (h.ids j hj)
  empties := by
    have hchain := hwaits.chain
    rw [hadv.split, ← List.cons_append] at hchain
    obtain ⟨-, -, hdisjoint⟩ := Chain.append_iff.mp hchain
    have hset : m'.setLinks k.id ({ · with parent := some n }) |>.Empties (k :: used₁) [t'] := by
      refine hadv.empties.relinks (Rewires.setLinks m' k.id _).toRelinks fun j _ hnot hj => hnot ?_
      rw [List.mem_singleton.mp hj, ← hadv.id]
      exact Tree.mem_forestIds_of_mem (List.mem_cons_self ..) (Tree.id_mem_ids t')
    refine (hset.relinks h.done.toRelinks fun j hj _ hmem => hdisjoint j hj ?_).append h.empties
    rw [h.split, Tree.forestIds_append]
    exact List.mem_append_left _ hmem

/-- What was taken is put below the symbol's node. -/
theorem Takes.tuck (h : Takes M visible p n got ts m) :
    Rewires (n :: Tree.forestIds got) m (m.tuck n (lastOr n got)) ∧
      (m.tuck n (lastOr n got)).Chain n none got ∧
      (m.tuck n (lastOr n got)).linksOf n = ⟨some p, Tree.firstId? got, Tree.firstId? ts⟩ := by
  by_cases hgot : got = []
  · subst hgot
    rw [show m.tuck n (lastOr n []) = m from if_pos rfl]
    exact ⟨.refl _ _, .nil _ _ _, h.links⟩
  · have hlast := lastOr_mem n hgot
    have hmem := Tree.mem_forestIds_of_getLast? hlast
    have hne : lastOr n got ≠ n := fun heq => h.notGot (heq ▸ hmem)
    obtain ⟨first, hfirst⟩ : ∃ first, Tree.firstId? got = some first := by
      cases got with
      | nil => exact absurd rfl hgot
      | cons t got => exact ⟨t.id, rfl⟩
    let m₁ := m.setLinks n ({ · with first := (m.linksOf n).next })
    let m₂ := m₁.setLinks n ({ · with next := (m₁.linksOf (lastOr n got)).next })
    have hm₁ : Rewires [n] m m₁ := .setLinks m n _
    have hm₂ : Rewires [n] m m₂ := hm₁.trans (.setLinks m₁ n _)
    have hlt₁ : n < m₁.table.size := hm₁.size ▸ h.lt
    have hnext : (m₁.linksOf (lastOr n got)).next = Tree.firstId? ts := by
      rw [linksOf_setLinks_of_ne hne.symm]
      exact h.next
    have hchain : m₂.Chain n (Tree.firstId? ts) got := h.chain.relinks hm₂.toRelinks fun k hk hk' =>
      h.notGot (List.mem_singleton.mp hk' ▸ hk)
    rw [show m.tuck n (lastOr n got) = m₂.setLinks (lastOr n got) ({ · with next := none }) from
      if_neg hne]
    refine ⟨?_, hchain.setNext hlast, ?_⟩
    · refine (hm₂.mono fun k hk => ?_).trans ((Rewires.setLinks m₂ _ _).mono fun k hk => ?_)
      · rw [List.mem_singleton.mp hk]
        exact List.mem_cons_self ..
      · rw [List.mem_singleton.mp hk]
        exact List.mem_cons_of_mem _ hmem
    · rw [linksOf_setLinks_of_ne hne, linksOf_setLinks_self hlt₁, linksOf_setLinks_self h.lt, hnext,
        h.links, hfirst]
      rfl

end

/-! ### All nodes -/

/-- A node that is no symbol's, before it is finalized: its children are strung below it, and none
of them has inherited. -/
structure Opens (M : Model) (visible : Expr) (n : NodeId) (children : List Tree) (m : Model) :
    Prop where
  noSymbol : M.symbolOf? n = none
  node : m.node n = M.node n
  first : (m.linksOf n).first = Tree.firstId? children
  ltTable : n < m.table.size
  notBelow : n ∉ Tree.forestIds children
  chain : m.Chain n none children
  below : AwaitsFrom M m ((M.node n).inside { visible }) children
  leaves : M.LeafSymbols (Tree.forestParents children)
  lt : ∀ k ∈ Tree.forestIds children, k < m.nodes.size
  room : (Tree.forestIds children).length ≤ m.nodes.size

/-- A symbol has nothing below it while it waits. -/
theorem Waits.children_eq_nil {s : SymbolId} {children : List Tree}
    (h : Waits M visible p (.node n children :: ts) m) (hs : M.symbolOf? n = some s) :
    children = [] := by
  refine Model.children_eq_nil (t := .node n children) (fun k hk => h.leaves k ?_) ?_
  · rw [Tree.forestParents]
    exact List.mem_append_left _ hk
  · rw [show M.symbolOf? (Tree.id (.node n children)) = some s from hs]
    rfl

theorem Waits.roomBeside {t : Tree} (h : Waits M visible p (t :: ts) m) :
    (Tree.forestIds ts).length ≤ m.nodes.size := by
  have hroom := h.room
  rw [Tree.forestIds, List.length_append] at hroom
  omega

/-- A symbol that has added to its properties goes on to take the nodes after it. -/
theorem Waits.takes {s : SymbolId} (h : Waits M visible p (.node n [] :: ts) m)
    (hs : M.symbolOf? n = some s) : Takes M visible p n [] ts (m.addToSymbol n) := by
  have hhead := h.chain.head
  have hdone := done_addToSymbol hs (h.roots _ (List.mem_cons_self ..))
  have hlinks : (m.addToSymbol n).linksOf n = m.linksOf n := by
    rw [linksOf, linksOf, (gathers_addToSymbol m n).rest]
  constructor
  case waits => exact Waits.later [.node n []] h hdone
  case chain => exact .nil _ _ _
  case links =>
    rw [hlinks, hhead.links, Option.or_none]
    rfl
  case lt => exact hdone.size ▸ hhead.lt
  case notGot => exact List.not_mem_nil
  case notWaiting => exact hhead.notBeside
  case disjoint => exact fun _ hk => absurd hk List.not_mem_nil

/-- A node that is no symbol's, before it is finalized. -/
theorem Waits.opens {children : List Tree} (h : Waits M visible p (.node n children :: ts) m)
    (hs : M.symbolOf? n = none) : Opens M visible n children m := by
  have hhead := h.chain.head
  have hbelow : ∀ k ∈ Tree.forestIds children, k ∈ Tree.forestIds (.node n children :: ts) := by
    rw [Tree.forestIds_cons]
    exact fun k hk => List.mem_cons_of_mem _ (List.mem_append_left _ hk)
  constructor
  case noSymbol => exact hs
  case node => exact h.roots _ (List.mem_cons_self ..)
  case first => rw [hhead.links]
  case ltTable => exact hhead.lt
  case notBelow => exact hhead.notBelow
  case chain => exact hhead.below
  case below => exact h.below _ (List.mem_cons_self ..)
  case leaves =>
    intro k hk
    refine h.leaves k ?_
    rw [Tree.forestParents, Tree.parents]
    exact List.mem_append_left _ (List.mem_append_right _ hk)
  case lt => exact fun k hk => h.lt k (hbelow k hk)
  case room => exact Nat.le_trans (hhead.below.length_le hbelow) h.room

theorem finalizeNode_of_none {fuel : Nat} (h : m.symbolOf? n = none) :
    m.finalizeNode visible n (fuel + 1) = (match (m.linksOf n).first with
      | none => some m
      | some first => do
        let around := (m.node n).inside { visible }
        let ns ← m.beside m.nodes.size (some first)
        (m.inheritAll around ns).finalizeAll around.visible (some first) fuel) >>=
      fun m => m.straighten n >>= (·.finishChoice n) := by
  unfold symbolOf? at h
  rw [finalizeNode]
  cases hentry : (m.node n).entry with
  | symbol s =>
    rw [hentry] at h
    exact nomatch h
  | _ =>
    cases (m.linksOf n).first with
    | none => rfl
    | some first => simp only [bind_assoc]

/-- The nodes below such a node inherit and are finalized, when they can be. -/
theorem Opens.exists_below {children : List Tree} {fuel : Nat} (h : Opens M visible n children m)
    (hall : ∀ m', Waits M ((M.node n).inside { visible }).visible n children m' →
      ∃ m'', m'.finalizeAll ((M.node n).inside { visible }).visible (Tree.firstId? children) fuel =
          some m'' ∧ m''.Chain n none (M.nested children) ∧
        m''.Empties children (M.nested children) ∧ Done M children m' m'') :
    ∃ m', (match (m.linksOf n).first with
        | none => some m
        | some first => do
          let around := (m.node n).inside { visible }
          let ns ← m.beside m.nodes.size (some first)
          (m.inheritAll around ns).finalizeAll around.visible (some first) fuel) = some m' ∧
      m'.Chain n none (M.nested children) ∧ m'.Empties children (M.nested children) ∧
      Done M children m m' := by
  rw [h.first, h.node]
  cases children with
  | nil => exact ⟨m, rfl, .nil _ _ _, fun _ hk => absurd hk List.not_mem_nil, .nil M m⟩
  | cons t children =>
    obtain ⟨m', hall, hchain', hempties, hdone⟩ :=
      hall _ (waits_inheritAll h.chain h.below h.leaves h.lt h.room)
    refine ⟨m', ?_, hchain', hempties, .of_inheritAll (fun k hk => ?_) hdone⟩
    · have hbeside := h.chain.beside_firstId? (Nat.le_trans (length_le_forestIds _) h.room)
      rw [Tree.firstId?_cons] at hbeside hall ⊢
      dsimp only
      rw [hbeside, ← hall]
      rfl
    · obtain ⟨u, hu, rfl⟩ := List.mem_map.mp hk
      exact Tree.mem_forestIds_of_mem hu (Tree.id_mem_ids u)

/-- What is done to the nodes below such a node, and then to the node itself. -/
theorem Done.finish {children : List Tree} (hs : M.symbolOf? n = none) (hnode : m.node n = M.node n)
    (hnotBelow : n ∉ Tree.forestIds children) (h : Done M children m m')
    (hm : Rewires (n :: Tree.forestIds (M.nested children)) m' m'') :
    Done M [.node n children] m (m''.addToChoice n (M.childIds children)) := by
  have hids : Tree.forestIds [.node n children] = n :: Tree.forestIds children := by
    rw [Tree.forestIds_cons, Tree.forestIds, List.append_nil]
  have hsub : ∀ k ∈ n :: Tree.forestIds (M.nested children), k ∈ n :: Tree.forestIds children :=
    List.cons_subset_cons n fun k hk => mem_forestIds_nested hk
  have hnodes : ∀ k ∈ n :: Tree.forestIds children, m''.node k = M.node k := by
    intro k hk
    rw [hm.node]
    rcases List.mem_cons.mp hk with rfl | hk
    · rw [h.kept k hnotBelow, hnode]
    · exact h.inherited k hk
  constructor
  case toRelinks =>
    rw [hids]
    exact ((h.toRelinks.mono fun k hk => List.mem_cons_of_mem _ hk).trans
      (hm.toRelinks.mono hsub)).trans
      ((relinks_addToChoice m'' n _).mono fun k hk => absurd hk List.not_mem_nil)
  case shows =>
    intro K hK hshows
    have hself : K.addToSymbol n = K := addToSymbol_of_none ((symbolOf?_congr hK n).trans hs)
    have hnode' : ∀ k ∈ n :: Tree.forestIds children,
        m''.node k = (enactForest M K children).node k := by
      intro k hk
      rw [hnodes k hk, Model.node, Model.node, nodes_enactForest, hK]
    rw [enactForest, enactForest, enact, hself]
    refine ((h.shows hK hshows).rewires hm).addToChoice (hnode' n (List.mem_cons_self ..))
      fun k hk => hnode' k (List.mem_cons_of_mem _ ?_)
    exact mem_forestIds_of_outline ((sublist_forestIds _).subset hk)
  case inherited =>
    rw [hids]
    intro k hk
    rw [node_addToChoice, hnodes k hk]
  case kept =>
    rw [hids]
    intro k hk
    rw [node_addToChoice, hm.node, h.kept k fun hmem => hk (List.mem_cons_of_mem _ hmem)]
  case count => rw [nodes_addToChoice, hm.nodes, h.count]

/-- Finalizing such a node gives the outline of what is below it. -/
theorem Opens.exists_finalizeNode {children : List Tree} {fuel : Nat} (hM : M.UntitledBlocks)
    (h : Opens M visible n children m)
    (hall : ∀ m', Waits M ((M.node n).inside { visible }).visible n children m' →
      ∃ m'', m'.finalizeAll ((M.node n).inside { visible }).visible (Tree.firstId? children) fuel =
          some m'' ∧ m''.Chain n none (M.nested children) ∧
        m''.Empties children (M.nested children) ∧ Done M children m' m'') :
    ∃ m', m.finalizeNode visible n (fuel + 1) = some m' ∧ m'.Chain n none (M.outline children) ∧
      m'.Empties children (M.outline children) ∧
      m'.linksOf n = { m.linksOf n with first := Tree.firstId? (M.outline children) } ∧
      Done M [.node n children] m m' := by
  obtain ⟨m₁, hbelow, hchain, hempties, hdone⟩ := h.exists_below hall
  have hlinks : m₁.linksOf n = m.linksOf n := hdone.others n h.notBelow
  obtain ⟨m₂, hfinish, hm₂, hchain₂, hempties₂, hlinks₂⟩ := exists_finish
    hM (fun k hk => hdone.inherited k (mem_forestIds_nested hk)) (neatBelow_nested hM children)
    hchain (fun hn => h.notBelow (mem_forestIds_nested hn))
    (by rw [hlinks, h.first, firstId?_nested]) (hdone.size ▸ h.ltTable)
    (hdone.count ▸ Nat.le_trans (hchain.length_le fun _ hk => mem_forestIds_nested hk) h.room)
  refine ⟨m₂.addToChoice n (M.childIds children), ?_, ?_, ?_, ?_,
    hdone.finish h.noSymbol h.node h.notBelow hm₂⟩
  · have hnone : m.symbolOf? n = none := by
      rw [symbolOf?, h.node]
      exact h.noSymbol
    rw [finalizeNode_of_none hnone, hbelow]
    exact hfinish
  · exact hchain₂.relinks (relinks_addToChoice m₂ n _) fun _ _ => List.not_mem_nil
  · refine (hempties.trans hm₂.toRelinks (fun k hk hnot => ?_) hempties₂).relinks
      (relinks_addToChoice m₂ n _) fun _ _ _ => List.not_mem_nil
    rintro (_ | ⟨_, hmem⟩)
    · exact h.notBelow hk
    · exact hnot hmem
  · rw [(relinks_addToChoice m₂ n _).others n List.not_mem_nil, hlinks₂, hlinks]
    rfl

/-- What a symbol has taken is what nesting puts under it. -/
theorem Taken.nested_of_symbol {s : SymbolId} {more used rest : List Tree}
    (hs : M.symbolOf? n = some s) (h : Taken M visible s p n [] ts m m' more used rest) :
    M.nested (.node n [] :: ts) = .node n (more.flatMap M.unwrap) :: M.nested rest := by
  have hrest : (M.nested rest).takeWhile (M.follows s) = [] ∧
      (M.nested rest).dropWhile (M.follows s) = M.nested rest := by
    cases hcases : M.nested rest with
    | nil => exact ⟨rfl, rfl⟩
    | cons u us => simp [h.stop u (by rw [hcases]; rfl)]
  rw [Model.nested_of_symbol hs, h.nested, List.takeWhile_append_of_pos h.follow,
    List.dropWhile_append_of_pos h.follow, hrest.1, hrest.2, List.append_nil]

/-- What a symbol's node is when the nodes that it takes have been found: they go under it. -/
theorem Taken.advances {s : SymbolId} {m₁ : Model} {more used rest : List Tree}
    (hM : M.UntitledBlocks) (hs : M.symbolOf? n = some s) (hnode : m.node n = M.node n)
    (hroom : (Tree.forestIds ts).length ≤ m.nodes.size)
    (h : Taken M visible s p n [] ts (m.addToSymbol n) m₁ more used rest) :
    ∃ m', ((m₁.tuck n (lastOr n more)).straighten n >>= (·.finishChoice n)) = some m' ∧
      Advances M p (.node n []) ts m m' (.node n (more.flatMap M.unwrap)) used rest := by
  obtain ⟨htuck, hchain, hlinks⟩ := h.toTakes.tuck
  rw [List.nil_append] at htuck hchain hlinks
  have hids : Tree.forestIds (.node n [] :: used) = n :: Tree.forestIds used := Tree.forestIds_cons ..
  have hmore : ∀ k ∈ n :: Tree.forestIds more, k ∈ Tree.forestIds (.node n [] :: used) := by
    rw [hids]
    exact List.cons_subset_cons n fun k hk => h.ids k hk
  have hdone : Done M (.node n [] :: used) m (m₁.tuck n (lastOr n more)) :=
    ((done_addToSymbol hs hnode).append h.done).rewires htuck hmore
  have hsub : ∀ t ∈ more, t ∈ M.nested ts := fun t ht => by
    rw [h.nested]
    exact List.mem_append_left _ ht
  have hsize : (Tree.forestIds more).length ≤ (m₁.tuck n (lastOr n more)).nodes.size := by
    rw [hdone.count]
    refine Nat.le_trans (hchain.length_le fun k hk => ?_) hroom
    rw [h.split, Tree.forestIds_append]
    exact List.mem_append_left _ (h.ids k hk)
  obtain ⟨m', hfinish, hm', hchain', hempties', hlinks'⟩ := exists_finish hM
    (fun k hk => hdone.inherited k (hmore k (List.mem_cons_of_mem _ hk)))
    (fun t ht => neatBelow_nested hM ts t (hsub t ht)) hchain h.notGot (congrArg Links.first hlinks)
    (htuck.size ▸ h.lt) hsize
  have hdone' : Done M (.node n [] :: used) m m' := hdone.rewires hm' hmore
  have hunwrap : ∀ k ∈ Tree.forestIds (more.flatMap M.unwrap), k ∈ Tree.forestIds more :=
    mem_forestIds_unwrap M
  have hlater : ∀ k ∈ Tree.forestIds rest, k ∉ n :: Tree.forestIds more := by
    rintro k hk (_ | ⟨_, hmem⟩)
    · exact h.notWaiting hk
    · exact h.disjoint k hmem hk
  have hbeside : m'.Chain p none rest :=
    (h.waits.chain.relinks htuck.toRelinks hlater).relinks hm'.toRelinks hlater
  refine ⟨m', ?_, h.split, h.nested_of_symbol hs, .cons ?_, hdone', ?_, ?_⟩
  · rw [hfinish, addToChoice_of_choice?]
    rw [hdone'.inherited n (hmore n (List.mem_cons_self ..))]
    exact choice?_of_symbolOf? hs
  · refine ⟨?_, hdone'.size ▸ ?_, hchain', hbeside, fun hn => h.notGot (hunwrap n hn), h.notWaiting,
      fun k hk => h.disjoint k (hunwrap k hk)⟩
    · rw [hlinks', hlinks, Option.or_none]
    · rw [← h.done.size.trans (done_addToSymbol hs hnode).size]
      exact h.lt
  · rw [Tree.ids, hids]
    exact List.cons_subset_cons n fun k hk => h.ids k (hunwrap k hk)
  · intro k hk hnot
    rw [hids] at hk
    rw [Tree.forestIds_cons, List.mem_cons, not_or, Tree.forestIds, List.append_nil] at hnot
    have hk := (List.mem_cons.mp hk).resolve_left hnot.1
    by_cases hmem : k ∈ Tree.forestIds more
    · exact hempties' k hmem hnot.2
    · have hother : k ∉ n :: Tree.forestIds more := by
        rw [List.mem_cons, not_or]
        exact ⟨hnot.1, hmem⟩
      rw [hm'.others k hother, htuck.others k hother]
      exact h.empties k hk hmem

mutual

/-- Finalizing the first of the trees that wait. -/
theorem exists_finalizeNode (hM : M.UntitledBlocks) : ∀ (fuel : Nat) {m : Model} {visible : Expr}
    {p : NodeId} {t : Tree} {ts : List Tree}, Waits M visible p (t :: ts) m →
      2 * (Tree.forestIds (t :: ts)).length ≤ fuel →
      ∃ m' t' used rest, m.finalizeNode visible t.id fuel = some m' ∧
        Advances M p t ts m m' t' used rest
  | 0, _, _, _, .node n children, ts, _, hfuel => by
    rw [Tree.forestIds_cons, List.length_cons] at hfuel
    omega
  | fuel + 1, m, visible, p, .node n children, ts, h, hfuel => by
    have hhead := h.chain.head
    have hnode : m.node n = M.node n := h.roots _ (List.mem_cons_self ..)
    rw [Tree.forestIds_cons, List.length_cons, List.length_append] at hfuel
    cases hs : M.symbolOf? n with
    | some s =>
      obtain rfl : children = [] := h.children_eq_nil hs
      obtain ⟨m₁, more, used, rest, htake, htaken⟩ :=
        exists_takeFollowers hM fuel (s := s) (h.takes hs)
          (show 2 * (Tree.forestIds ts).length + 1 ≤ fuel by omega)
      obtain ⟨m', hfinish, hadv⟩ := htaken.advances hM hs hnode h.roomBeside
      refine ⟨m', _, used, rest, ?_, hadv⟩
      have hentry : (m.node n).entry = .symbol s := by
        rw [hnode]
        exact entry_of_symbolOf? hs
      rw [finalizeNode, Tree.id, hentry, ← hfinish]
      simp only [bind, Option.bind]
      rw [show lastOr n [] = n from rfl, List.nil_append] at htake
      rw [htake]
    | none =>
      obtain ⟨m', hfinalize, hchain, hempties, hlinks, hdone⟩ := (h.opens hs).exists_finalizeNode hM
        fun m' hwaits => exists_finalizeAll hM fuel hwaits (by omega)
      have hids : Tree.forestIds [.node n children] = n :: Tree.forestIds children := by
        rw [Tree.forestIds_cons, Tree.forestIds, List.append_nil]
      have houtline : ∀ k ∈ Tree.forestIds (M.outline children), k ∈ Tree.forestIds children :=
        fun k hk => mem_forestIds_of_outline hk
      refine ⟨m', .node n (M.outline children), [], ts, hfinalize, rfl, nested_of_none hs ts,
        .cons ⟨?_, hdone.size ▸ hhead.lt, hchain, ?_, fun hn => hhead.notBelow (houtline n hn),
          hhead.notBeside, fun k hk => hhead.disjoint k (houtline k hk)⟩, hdone, ?_, hempties.node⟩
      · rw [hlinks, hhead.links]
      · refine hhead.beside.relinks hdone.toRelinks fun k hk hmem => ?_
        rw [hids] at hmem
        rcases List.mem_cons.mp hmem with rfl | hmem
        · exact hhead.notBeside hk
        · exact hhead.disjoint k hmem hk
      · rw [Tree.ids, hids]
        exact List.cons_subset_cons n houtline

/-- A symbol takes those of the trees that wait that are shown only when it holds. -/
theorem exists_takeFollowers (hM : M.UntitledBlocks) : ∀ (fuel : Nat) {m : Model} {visible : Expr}
    {p n : NodeId} {s : SymbolId} {got ts : List Tree}, Takes M visible p n got ts m →
      2 * (Tree.forestIds ts).length + 1 ≤ fuel →
      ∃ m' more used rest, m.takeFollowers visible s n (lastOr n got) fuel =
          some (m', lastOr n (got ++ more)) ∧
        Taken M visible s p n got ts m m' more used rest
  | 0, _, _, _, _, _, _, _, _, hfuel => absurd hfuel (Nat.not_succ_le_zero _)
  | fuel + 1, m, visible, p, n, s, got, [], h, _ => by
    refine ⟨m, [], [], [], ?_, .refl h fun _ ht => nomatch ht⟩
    rw [takeFollowers, h.next, List.append_nil]
    rfl
  | fuel + 1, m, visible, p, n, s, got, k :: ts, h, hfuel => by
    have hroot : m.isShownWith s k.id = M.follows s k := by
      rw [follows, isShownWith, isShownWith, h.waits.roots k (List.mem_cons_self ..)]
    by_cases hfollows : M.follows s k = true
    · obtain ⟨m₁, t', used₁, rest₁, hnode, hadv⟩ :=
        exists_finalizeNode hM fuel h.waits (Nat.le_of_succ_le_succ hfuel)
      have hlast : (m₁.linksOf (lastOr n got)).next = some k.id := by
        have hfull : ∀ j ∈ Tree.forestIds (k :: used₁), j ∈ Tree.forestIds (k :: ts) := by
          intro j hj
          rw [hadv.split, ← List.cons_append, Tree.forestIds_append]
          exact List.mem_append_left _ hj
        rw [hadv.done.others _ fun hmem => h.last_notWaiting (hfull _ hmem), h.next]
        rfl
      have hrest : 2 * (Tree.forestIds rest₁).length + 1 ≤ fuel := by
        obtain ⟨id, children⟩ := k
        rw [hadv.split, Tree.forestIds_cons, Tree.forestIds_append, List.length_cons,
          List.length_append, List.length_append] at hfuel
        omega
      obtain ⟨m₂, more, used₂, rest, htake, htaken⟩ :=
        exists_takeFollowers hM fuel (s := s) (h.advance hadv) hrest
      refine ⟨m₂, t' :: more, k :: used₁ ++ used₂, rest, ?_, .cons h.waits hadv hfollows htaken⟩
      rw [takeFollowers, h.next, Tree.firstId?_cons]
      dsimp only
      rw [hroot, if_pos hfollows, hnode, List.append_cons, ← htake, lastOr_concat, hadv.id]
      simp only [bind, Option.bind, hlast]
    · rw [Bool.not_eq_true] at hfollows
      refine ⟨m, [], [], k :: ts, ?_, .refl h fun t ht => ?_⟩
      · rw [takeFollowers, h.next, Tree.firstId?_cons, List.append_nil]
        dsimp only
        rw [hroot, hfollows]
        rfl
      · rw [← hfollows]
        refine follows_congr s ?_
        have hfirst := firstId?_nested M (k :: ts)
        rw [Tree.firstId?, show (M.nested (k :: ts)).head? = some t from ht] at hfirst
        exact Option.some.inj hfirst

/-- Finalizing all of the trees that wait. -/
theorem exists_finalizeAll (hM : M.UntitledBlocks) : ∀ (fuel : Nat) {m : Model} {visible : Expr}
    {p : NodeId} {ts : List Tree}, Waits M visible p ts m →
      2 * (Tree.forestIds ts).length + 1 ≤ fuel →
      ∃ m', m.finalizeAll visible (Tree.firstId? ts) fuel = some m' ∧
        m'.Chain p none (M.nested ts) ∧ m'.Empties ts (M.nested ts) ∧ Done M ts m m'
  | 0, _, _, _, _, _, hfuel => absurd hfuel (Nat.not_succ_le_zero _)
  | fuel + 1, m, _, _, [], _, _ => ⟨m, by rw [Tree.firstId?_nil, finalizeAll], .nil _ _ _,
      fun _ hk => absurd hk List.not_mem_nil, .nil M m⟩
  | fuel + 1, m, visible, p, t :: ts, h, hfuel => by
    obtain ⟨m₁, t', used, rest, hnode, hadv⟩ :=
      exists_finalizeNode hM fuel h (Nat.le_of_succ_le_succ hfuel)
    have hid := hadv.id
    obtain ⟨rfl, hnested, hchain, hdone, -, hempties⟩ := hadv
    obtain ⟨id, children⟩ := t'
    have hrest : 2 * (Tree.forestIds rest).length + 1 ≤ fuel := by
      obtain ⟨k, below⟩ := t
      rw [Tree.forestIds_cons, Tree.forestIds_append, List.length_cons, List.length_append,
        List.length_append] at hfuel
      omega
    obtain ⟨-, -, hdisjoint⟩ :=
      Chain.append_iff.mp (show m.Chain p none ((t :: used) ++ rest) from h.chain)
    obtain ⟨m₂, hall, hchain₂, hempties₂, hdone₂⟩ :=
      exists_finalizeAll hM fuel (Waits.later (t :: used) h hdone) hrest
    refine ⟨m₂, ?_, ?_, ?_, hdone.append hdone₂⟩
    · have hnext : (m₁.linksOf t.id).next = Tree.firstId? rest := by
        rw [← hid, Tree.id, hchain.head.links, Option.or_none]
      rw [Tree.firstId?_cons, finalizeAll, hnode, ← hall, ← hnext]
      rfl
    · rw [hnested]
      exact hchain.skip hdone₂.toRelinks hchain₂ (fun k hk => mem_forestIds_nested hk)
        (firstId?_nested M rest)
    · rw [hnested]
      exact (hempties.relinks hdone₂.toRelinks fun k hk _ => hdisjoint k hk).append hempties₂

end

end Model
end Kconfig
