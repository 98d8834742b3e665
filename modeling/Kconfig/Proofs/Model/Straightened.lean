import Kconfig.Proofs.Model.Strung
/-!
Putting the nodes below a node in order.

Flattening goes along a chain and puts what is below a node that dissolves into the chain, right
after that node; then the blocks are taken out of the chain. Together this unwraps every tree of the
chain: the nodes are those of the trees, only linked differently.
-/
namespace Kconfig
namespace Model
variable {m m' : Model} {n p : NodeId} {ns : List NodeId} {after : Option NodeId}
  {ts us : List Tree}

/-! ### Moving nodes out -/

/-- The roots of a chain get another parent. -/
theorem exists_adopt {q : NodeId} : ∀ {ts : List Tree} {m : Model} {first : NodeId} {fuel : Nat},
    m.Chain q none ts → Tree.firstId? ts = some first → ts.length ≤ fuel →
      ∃ m' last, m.adopt (some p) fuel first = some (m', last) ∧ ts.getLast?.map Tree.id = some last ∧
        Rewires (Tree.forestIds ts) m m' ∧ m'.Chain p none ts
  | .node n children :: ts, m, first, fuel + 1, h, hfirst, hfuel => by
    obtain rfl : n = first := Option.some.inj hfirst
    have hhead := h.head
    have hlinks : (m.setLinks n ({ · with parent := some p })).linksOf n =
        ⟨some p, Tree.firstId? children, Tree.firstId? ts⟩ := by
      rw [linksOf_setLinks_self hhead.lt, hhead.links, Option.or_none]
    have hset := Rewires.setLinks m n ({ · with parent := some p })
    have hwhole : Rewires (Tree.forestIds (.node n children :: ts)) m
        (m.setLinks n ({ · with parent := some p })) := hset.mono fun k hk => by
      rw [Tree.forestIds_cons, List.mem_singleton.mp hk]
      exact List.mem_cons_self ..
    rw [adopt, hlinks]
    cases ts with
    | nil =>
      refine ⟨_, n, rfl, rfl, hwhole, .cons ⟨hlinks, ?_, ?_, .nil _ _ _, hhead.notBelow,
        List.not_mem_nil, fun _ _ => List.not_mem_nil⟩⟩
      · exact Nat.lt_of_lt_of_eq hhead.lt hset.size.symm
      · exact hhead.below.setLinks hhead.notBelow
    | cons t ts =>
      obtain ⟨m', last, hadopt, hlast, hm', hchain⟩ :=
        exists_adopt (hhead.beside.setLinks (f := ({ · with parent := some p })) hhead.notBeside)
          rfl (Nat.le_of_succ_le_succ hfuel)
      refine ⟨m', last, hadopt, hlast, hwhole.trans (hm'.mono fun k hk => ?_),
        .cons ⟨?_, ?_, ?_, hchain, hhead.notBelow, hhead.notBeside, hhead.disjoint⟩⟩
      · rw [Tree.forestIds_cons]
        exact List.mem_cons_of_mem _ (List.mem_append_right _ hk)
      · rw [hm'.others n hhead.notBeside, hlinks, Option.or_none]
      · rw [hm'.size, hset.size]
        exact hhead.lt
      · exact (hhead.below.setLinks hhead.notBelow).relinks hm'.toRelinks hhead.disjoint

/-- The trees below the first node of a chain are put right after it. -/
theorem exists_moveOut {children : List Tree} {first : NodeId}
    (h : m.Chain p after (.node n children :: ts)) (hfirst : Tree.firstId? children = some first)
    (hfuel : children.length ≤ m.nodes.size) :
    ∃ m', m.moveOut n first = some m' ∧ Rewires (n :: Tree.forestIds children) m m' ∧
      m'.Chain p after (.node n [] :: (children ++ ts)) := by
  have hhead := h.head
  obtain ⟨m₁, last, hadopt, hlast, hm₁, hchain₁⟩ :=
    exists_adopt (p := p) hhead.below hfirst hfuel
  have hlinks₁ : m₁.linksOf n = ⟨some p, some first, (Tree.firstId? ts).or after⟩ := by
    rw [hm₁.others n hhead.notBelow, hhead.links, hfirst]
  -- The last child leads to the nodes that came after their parent.
  let m₂ := m₁.setLinks last ({ · with next := (Tree.firstId? ts).or after })
  have hlastMem := Tree.mem_forestIds_of_getLast? hlast
  have hne : last ≠ n := by
    rintro rfl
    exact hhead.notBelow hlastMem
  have hchain₂ : m₂.Chain p ((Tree.firstId? ts).or after) children := hchain₁.setNext hlast
  have hm₂ : Rewires (n :: Tree.forestIds children) m m₂ := by
    refine (hm₁.mono fun k hk => List.mem_cons_of_mem _ hk).trans
      ((Rewires.setLinks m₁ last _).mono fun k hk => ?_)
    rw [List.mem_singleton.mp hk]
    exact List.mem_cons_of_mem _ hlastMem
  have hbeside₂ : m₂.Chain p after ts := by
    refine hhead.beside.relinks hm₂.toRelinks fun k hk hmem => ?_
    rcases List.mem_cons.mp hmem with rfl | hmem
    · exact hhead.notBeside hk
    · exact hhead.disjoint k hmem hk
  have hwhole := Chain.append_iff.mpr ⟨hchain₂, hbeside₂, hhead.disjoint⟩
  have hnotin : n ∉ Tree.forestIds (children ++ ts) := by
    rw [Tree.forestIds_append, List.mem_append, not_or]
    exact ⟨hhead.notBelow, hhead.notBeside⟩
  have hlt : n < m₂.table.size := hm₂.size ▸ hhead.lt
  refine ⟨m₂.setLinks n fun links => { links with next := links.first, first := none }, ?_,
    hm₂.trans ((Rewires.setLinks m₂ n _).mono fun k hk => ?_), .cons ⟨?_, ?_, .nil _ _ _,
      hwhole.setLinks hnotin, List.not_mem_nil, hnotin, fun _ h => absurd h List.not_mem_nil⟩⟩
  · rw [moveOut, hhead.links]
    simp only [Option.bind_eq_bind, hadopt, Option.bind_some, hlinks₁]
    rfl
  · rw [List.mem_singleton.mp hk]
    exact List.mem_cons_self ..
  · rw [linksOf_setLinks_self hlt, linksOf_setLinks_of_ne hne, hlinks₁, Tree.firstId?_append, hfirst]
    rfl
  · exact Nat.lt_of_lt_of_eq hlt (Rewires.setLinks m₂ n _).size.symm

/-! ### Flattening -/

/-- A tree, or its root and what was below it. -/
def spread (m : Model) (t : Tree) : List Tree :=
  if m.isDissolved t.id then .node t.id [] :: t.children else [t]

/-- No block is a root, and below the roots that dissolve is nothing. -/
def Neat (m : Model) (ts : List Tree) : Prop :=
  ∀ t ∈ ts, m.isBlock t.id = false ∧ (m.isDissolved t.id → t.children = [])

theorem firstId?_flatMap_spread (m : Model) (ts : List Tree) :
    Tree.firstId? (ts.flatMap m.spread) = Tree.firstId? ts := by
  cases ts with
  | nil => rfl
  | cons t ts =>
    rw [List.flatMap_cons, Tree.firstId?_append, spread]
    split <;> rfl

theorem Rewires.spread (h : Rewires ns m m') : m'.spread = m.spread := by
  funext t
  rw [Model.spread, Model.spread, h.isDissolved]

theorem Rewires.neat (h : Rewires ns m m') (hts : m.Neat ts) : m'.Neat ts := by
  intro t ht
  rw [h.isBlock, h.isDissolved]
  exact hts t ht

/-- Trees that are neat, before trees below whose dissolving roots are neat ones. -/
theorem Neat.append (h : m.Neat us) (hts : ∀ t ∈ ts, m.isDissolved t.id → m.Neat t.children) :
    ∀ t ∈ us ++ ts, m.isDissolved t.id → m.Neat t.children := by
  intro t ht hdissolved
  rcases List.mem_append.mp ht with ht | ht
  · rw [(h t ht).2 hdissolved]
    exact fun _ h => absurd h List.not_mem_nil
  · exact hts t ht hdissolved

/-- Roots that dissolve leave nothing behind when nothing is below them. -/
theorem flatMap_spread_of_neat (h : m.Neat ts) : ts.flatMap m.spread = ts := by
  induction ts with
  | nil => rfl
  | cons t ts ih =>
    rw [List.flatMap_cons, ih fun u hu => h u (List.mem_cons_of_mem _ hu), spread]
    split
    · next hdissolved =>
      have hnil := (h t (List.mem_cons_self ..)).2 hdissolved
      cases t with
      | node n children =>
        obtain rfl : children = [] := hnil
        rfl
    · rfl

theorem forestIds_spread (m : Model) (t : Tree) : Tree.forestIds (m.spread t) = t.ids := by
  obtain ⟨n, children⟩ := t
  unfold spread
  split
  · rw [Tree.forestIds_cons]
    rfl
  · rw [Tree.forestIds, Tree.forestIds, List.append_nil]

theorem forestIds_flatMap_spread (m : Model) (ts : List Tree) :
    Tree.forestIds (ts.flatMap m.spread) = Tree.forestIds ts := by
  induction ts with
  | nil => rfl
  | cons t ts ih =>
    rw [List.flatMap_cons, Tree.forestIds_append, ih, forestIds_spread, Tree.forestIds]

theorem length_le_forestIds (ts : List Tree) : ts.length ≤ (Tree.forestIds ts).length := by
  induction ts with
  | nil => exact Nat.zero_le _
  | cons t ts ih =>
    obtain ⟨n, children⟩ := t
    rw [Tree.forestIds_cons, List.length_cons, List.length_cons, List.length_append]
    omega

/-- Flattening spreads every tree of a chain. -/
theorem exists_flatten : ∀ (fuel : Nat) {ts : List Tree} {m : Model}, m.Chain p none ts →
    (∀ t ∈ ts, m.isDissolved t.id → m.Neat t.children) → (Tree.forestIds ts).length ≤ fuel →
      (Tree.forestIds ts).length ≤ m.nodes.size →
      ∃ m', m.flatten fuel (Tree.firstId? ts) = some m' ∧ Rewires (Tree.forestIds ts) m m' ∧
        m'.Chain p none (ts.flatMap m.spread)
  | _, [], m, h, _, _, _ => ⟨m, by rw [Tree.firstId?_nil, flatten], .refl _ _, h⟩
  | 0, .node n children :: ts, _, _, _, hfuel, _ => by
    rw [Tree.forestIds_cons] at hfuel
    exact absurd hfuel (Nat.not_succ_le_zero _)
  | fuel + 1, .node n children :: ts, m, h, hneat, hfuel, hsize => by
    have hhead := h.head
    have hlast : ∀ t ∈ ts, m.isDissolved t.id → m.Neat t.children := fun t ht =>
      hneat t (List.mem_cons_of_mem _ ht)
    rw [Tree.forestIds_cons, List.length_cons, List.length_append] at hfuel hsize
    rw [Tree.firstId?_node, flatten, List.flatMap_cons]
    have hstays : m.spread (.node n children) = [.node n children] →
        ∃ m', m.flatten fuel (m.linksOf n).next = some m' ∧
          Rewires (Tree.forestIds (.node n children :: ts)) m m' ∧
          m'.Chain p none (m.spread (.node n children) ++ ts.flatMap m.spread) := by
      intro hspread
      obtain ⟨m', hflatten, hm', hchain⟩ :=
        exists_flatten fuel hhead.beside hlast (by omega) (by omega)
      refine ⟨m', ?_, hm'.mono fun k hk => ?_, ?_⟩
      · rw [hhead.links, Option.or_none]
        exact hflatten
      · rw [Tree.forestIds_cons]
        exact List.mem_cons_of_mem _ (List.mem_append_right _ hk)
      · rw [hspread]
        exact h.skip hm'.toRelinks hchain (fun k hk => forestIds_flatMap_spread m ts ▸ hk)
          (firstId?_flatMap_spread m ts)
    rw [hhead.links]
    by_cases hdissolved : m.isDissolved n = true
    · cases children with
      | nil => exact hstays (by rw [spread]; exact if_pos hdissolved)
      | cons c cs =>
        obtain ⟨m₁, hmove, hm₁, hchain₁⟩ := exists_moveOut h (Tree.firstId?_cons c cs)
          (Nat.le_trans (length_le_forestIds (c :: cs)) (by omega))
        have hcs : m.Neat (c :: cs) := hneat _ (List.mem_cons_self ..) hdissolved
        -- What was below the node is gone through next; it is neat, so it stays as it is.
        have hneat₁ : ∀ t ∈ c :: cs ++ ts, m₁.isDissolved t.id → m₁.Neat t.children :=
          fun t ht hdissolved' => hm₁.neat (hcs.append hlast t ht (hm₁.isDissolved t.id ▸ hdissolved'))
        have hlength : (Tree.forestIds (c :: cs ++ ts)).length =
            (Tree.forestIds (c :: cs)).length + (Tree.forestIds ts).length := by
          rw [Tree.forestIds_append, List.length_append]
        have hnodes : m₁.nodes.size = m.nodes.size := by rw [hm₁.nodes]
        obtain ⟨m', hflatten, hm', hchain⟩ := exists_flatten fuel hchain₁.head.beside
          hneat₁ (by omega) (by omega)
        refine ⟨m', ?_, ?_, ?_⟩
        · simp only [Tree.firstId?_cons, if_pos hdissolved, hmove, Option.bind_eq_bind,
            Option.bind_some]
          rw [hchain₁.head.links, Option.or_none]
          exact hflatten
        · refine (hm₁.mono fun k hk => ?_).trans (hm'.mono fun k hk => ?_)
          · rw [Tree.forestIds_cons]
            exact List.cons_subset_cons _ (List.subset_append_left _ _) hk
          · rw [Tree.forestIds_append] at hk
            rw [Tree.forestIds_cons]
            exact List.mem_cons_of_mem _ hk
        · rw [hm₁.spread] at hchain
          have hwhole := hchain₁.skip hm'.toRelinks hchain
            (fun k hk => forestIds_flatMap_spread m (c :: cs ++ ts) ▸ hk)
            (firstId?_flatMap_spread m (c :: cs ++ ts))
          rw [List.flatMap_append, flatMap_spread_of_neat hcs] at hwhole
          rw [show m.spread (.node n (c :: cs)) = .node n [] :: (c :: cs) from if_pos hdissolved]
          exact hwhole
    · have hspread : m.spread (.node n children) = [.node n children] := if_neg hdissolved
      obtain ⟨m', hflatten, hrest⟩ := hstays hspread
      refine ⟨m', ?_, hrest⟩
      cases children with
      | nil => exact hflatten
      | cons c cs =>
        simp only [Tree.firstId?_cons, if_neg hdissolved]
        exact hflatten

/-! ### Taking out blocks -/

/-- Whether a tree is a block. -/
def isBlockTree (m : Model) (t : Tree) : Bool := m.isBlock t.id

theorem passBlocks_firstId? : ∀ {ts : List Tree} {fuel : Nat}, m.Chain p none ts →
    ts.length ≤ fuel →
      m.passBlocks fuel (Tree.firstId? ts) = some (Tree.firstId? (ts.dropWhile m.isBlockTree))
  | [], _, _, _ => by rw [Tree.firstId?_nil, passBlocks]; rfl
  | .node n children :: ts, fuel + 1, h, hfuel => by
    have hhead := h.head
    rw [Tree.firstId?_node, passBlocks, List.dropWhile_cons]
    by_cases hblock : m.isBlock n = true
    · rw [if_pos hblock, if_pos (show m.isBlockTree (.node n children) = true from hblock),
        hhead.links, Option.or_none]
      exact passBlocks_firstId? hhead.beside (Nat.le_of_succ_le_succ hfuel)
    · rw [if_neg hblock, if_neg (show ¬ m.isBlockTree (.node n children) = true from hblock)]
      rfl

/-- The chain from the first tree on that is no block. -/
theorem Chain.dropBlocks (h : m.Chain p none ts) : m.Chain p none (ts.dropWhile m.isBlockTree) := by
  have hwhole := List.takeWhile_append_dropWhile (p := m.isBlockTree) (l := ts)
  rw [← hwhole] at h
  exact (append_iff.mp h).2.1

theorem forestIds_dropBlocks_subset (ts : List Tree) :
    ∀ k ∈ Tree.forestIds (ts.dropWhile m.isBlockTree), k ∈ Tree.forestIds ts := by
  intro k hk
  rw [← List.takeWhile_append_dropWhile (p := m.isBlockTree) (l := ts), Tree.forestIds_append]
  exact List.mem_append_right _ hk

theorem isBlock_of_dropBlocks {t : Tree} (h : t ∈ (ts.dropWhile m.isBlockTree).head?) :
    m.isBlock t.id = false := by
  have hnot := List.head?_dropWhile_not m.isBlockTree ts
  rw [show (ts.dropWhile m.isBlockTree).head? = some t from h] at hnot
  simpa [isBlockTree] using hnot

theorem filter_dropBlocks (m : Model) (ts : List Tree) :
    (ts.dropWhile m.isBlockTree).filter (!m.isBlockTree ·) = ts.filter (!m.isBlockTree ·) := by
  induction ts with
  | nil => rfl
  | cons t ts ih =>
    rw [List.dropWhile_cons]
    split
    · next hblock => rw [ih, List.filter_cons_of_neg (by rw [hblock]; exact Bool.false_ne_true)]
    · rfl

theorem firstId?_filter (m : Model) (ts : List Tree) :
    Tree.firstId? (ts.filter (!m.isBlockTree ·)) =
      Tree.firstId? (ts.dropWhile m.isBlockTree) := by
  induction ts with
  | nil => rfl
  | cons t ts ih =>
    rw [List.dropWhile_cons]
    split
    · next hblock => rw [List.filter_cons_of_neg (by rw [hblock]; exact Bool.false_ne_true), ih]
    · next hblock =>
      rw [List.filter_cons_of_pos (by rw [eq_false_of_ne_true hblock]; rfl)]
      rfl

theorem mem_forestIds_of_filter {q : Tree → Bool} : ∀ {ts : List Tree} {k : NodeId},
    k ∈ Tree.forestIds (ts.filter q) → k ∈ Tree.forestIds ts
  | ts, k, hk => by
    obtain ⟨above, hstands⟩ := Tree.forestIds_stand _ hk
    exact (hstands.mono fun t ht => (List.mem_filter.mp ht).1).mem

/-- Each node of a chain is linked to the next one that is no block. -/
theorem exists_unlinkBlocks : ∀ (fuel : Nat) {ts : List Tree} {m : Model}, m.Chain p none ts →
    (∀ t ∈ ts.head?, m.isBlock t.id = false) → ts.length ≤ fuel → ts.length ≤ m.nodes.size →
      ∃ m', m.unlinkBlocks fuel (Tree.firstId? ts) = some m' ∧ Rewires (Tree.forestIds ts) m m' ∧
        m'.Chain p none (ts.filter (!m.isBlockTree ·))
  | _, [], m, h, _, _, _ => ⟨m, by rw [Tree.firstId?_nil, unlinkBlocks], .refl _ _, h⟩
  | fuel + 1, .node n children :: ts, m, h, hfirst, hfuel, hsize => by
    have hhead := h.head
    rw [List.length_cons] at hfuel hsize
    let next := Tree.firstId? (ts.dropWhile m.isBlockTree)
    let m₁ := m.setLinks n ({ · with next })
    have hm₁ : Rewires [n] m m₁ := .setLinks m n _
    have htree₁ : m₁.isBlockTree = m.isBlockTree := funext fun t => hm₁.isBlock t.id
    have hnotin : n ∉ Tree.forestIds (ts.dropWhile m.isBlockTree) := fun hn =>
      hhead.notBeside (forestIds_dropBlocks_subset ts n hn)
    have hlength : (ts.dropWhile m.isBlockTree).length ≤ ts.length :=
      (List.dropWhile_sublist _).length_le
    have hhead₁ : ∀ t ∈ (ts.dropWhile m.isBlockTree).head?, m₁.isBlock t.id = false := by
      intro t ht
      rw [hm₁.isBlock]
      exact isBlock_of_dropBlocks ht
    obtain ⟨m', hunlink, hm', hchain⟩ := exists_unlinkBlocks fuel
      (hhead.beside.dropBlocks.setLinks (f := ({ · with next })) hnotin) hhead₁ (by omega)
      (Nat.le_trans hlength (Nat.le_of_succ_le hsize))
    have hblock : m.isBlock n = false := hfirst (.node n children) rfl
    refine ⟨m', ?_, ?_, ?_⟩
    · rw [Tree.firstId?_node, unlinkBlocks, hhead.links, Option.or_none,
        passBlocks_firstId? hhead.beside (Nat.le_of_succ_le hsize)]
      exact hunlink
    · refine (hm₁.mono fun k hk => ?_).trans (hm'.mono fun k hk => ?_)
      · rw [Tree.forestIds_cons, List.mem_singleton.mp hk]
        exact List.mem_cons_self ..
      · rw [Tree.forestIds_cons]
        exact List.mem_cons_of_mem _ (List.mem_append_right _ (forestIds_dropBlocks_subset ts k hk))
    · rw [htree₁, filter_dropBlocks] at hchain
      rw [List.filter_cons_of_pos (by
        rw [show m.isBlockTree (.node n children) = false from hblock]
        rfl)]
      have hbelow : m'.Chain n none children :=
        (hhead.below.setLinks hhead.notBelow).relinks hm'.toRelinks
        fun k hk hk' => hhead.disjoint k hk (forestIds_dropBlocks_subset ts k hk')
      refine .cons ⟨?_, ?_, hbelow, hchain, hhead.notBelow,
        fun hn => hhead.notBeside (mem_forestIds_of_filter hn),
        fun k hk hk' => hhead.disjoint k hk (mem_forestIds_of_filter hk')⟩
      · rw [hm'.others n hnotin, linksOf_setLinks_self hhead.lt, hhead.links, Option.or_none,
          Option.or_none, firstId?_filter]
      · rw [hm'.size, hm₁.size]
        exact hhead.lt

/-- No node gets another one below it. -/
theorem first_unlinkBlocks : ∀ {fuel : Nat} {start : Option NodeId} {m m' : Model},
    m.unlinkBlocks fuel start = some m' → ∀ k, (m'.linksOf k).first = (m.linksOf k).first
  | 0, none, _, _, h, _ | _ + 1, none, _, _, h, _ => by
    rw [unlinkBlocks] at h
    rw [Option.some.inj h]
  | 0, some _, _, _, h, _ => by
    rw [unlinkBlocks] at h
    exact nomatch h
  | fuel + 1, some n, m, m', h, k => by
    rw [unlinkBlocks] at h
    obtain ⟨next, -, h⟩ := Option.bind_eq_some_iff.mp h
    rw [first_unlinkBlocks h k, linksOf_setLinks]
    split <;> rfl

/-! ### What is left out -/

/-- The nodes of trees that other trees do not have, have nothing below them. -/
def Empties (m : Model) (ts us : List Tree) : Prop :=
  ∀ k ∈ Tree.forestIds ts, k ∉ Tree.forestIds us → (m.linksOf k).first = none

theorem Chain.first_of_mem {t : Tree} : ∀ {ts : List Tree}, m.Chain p after ts → t ∈ ts →
    (m.linksOf t.id).first = Tree.firstId? t.children
  | .node n children :: ts, h, ht => by
    rcases List.mem_cons.mp ht with rfl | ht
    · rw [Tree.id, h.head.links]
      rfl
    · exact h.head.beside.first_of_mem ht

theorem Empties.relinks (h : m.Empties ts us) (hm : Relinks ns m m')
    (hother : ∀ k ∈ Tree.forestIds ts, k ∉ Tree.forestIds us → k ∉ ns) : m'.Empties ts us := by
  intro k hk hnot
  rw [hm.others k (hother k hk hnot)]
  exact h k hk hnot

/-- What is left out in two steps, the second of which relinks only what the first one kept. -/
theorem Empties.trans {vs : List Tree} (h : m.Empties ts us) (hm : Relinks ns m m')
    (hother : ∀ k ∈ Tree.forestIds ts, k ∉ Tree.forestIds us → k ∉ ns) (h' : m'.Empties us vs) :
    m'.Empties ts vs := by
  intro k hk hnot
  by_cases hmem : k ∈ Tree.forestIds us
  · exact h' k hmem hnot
  · exact h.relinks hm hother k hk hmem

theorem Empties.append {vs ws : List Tree} (h : m.Empties ts us) (h' : m.Empties vs ws) :
    m.Empties (ts ++ vs) (us ++ ws) := by
  intro k hk hnot
  rw [Tree.forestIds_append] at hk hnot
  rw [List.mem_append, not_or] at hnot
  exact (List.mem_append.mp hk).elim (fun hk => h k hk hnot.1) fun hk => h' k hk hnot.2

theorem Empties.node (h : m.Empties ts us) : m.Empties [.node n ts] [.node n us] := by
  intro k hk hnot
  rw [Tree.forestIds_cons, Tree.forestIds, List.append_nil] at hk hnot
  rw [List.mem_cons, not_or] at hnot
  exact h k ((List.mem_cons.mp hk).resolve_left hnot.1) hnot.2

/-- When blocks have nothing below them, leaving them out leaves out nothing else. -/
theorem empties_filter (h : m.Chain p after ts)
    (hbare : ∀ t ∈ ts, m.isBlock t.id = true → t.children = []) :
    m.Empties ts (ts.filter (!m.isBlockTree ·)) := by
  intro k hk hnot
  obtain ⟨above, hstands⟩ := Tree.forestIds_stand ts hk
  obtain ⟨t, ht, hone⟩ := hstands.exists_mem
  by_cases hblock : m.isBlock t.id = true
  · obtain ⟨n, children⟩ := t
    obtain rfl : children = [] := hbare _ ht hblock
    have hkn : k = n := by simpa [Tree.forestIds, Tree.ids] using hone.mem
    rw [hkn]
    exact h.first_of_mem ht
  · refine absurd (hone.mono fun u hu => ?_).mem hnot
    rw [List.mem_singleton.mp hu]
    exact List.mem_filter.mpr ⟨ht, by simpa [isBlockTree] using hblock⟩

/-! ### Both together -/

/-- Blocks have no prompts. -/
def UntitledBlocks (m : Model) : Prop := ∀ n, m.isBlock n = true → (m.node n).prompt = none

/-- A block dissolves. -/
theorem isDissolved_of_isBlock (hm : m.UntitledBlocks) (h : m.isBlock n = true) :
    m.isDissolved n = true := by
  have hentry : (m.node n).entry = .block := of_decide_eq_true h
  unfold isDissolved
  dsimp only
  rw [hm n h, hentry]
  rfl

/-- Trees that are spread and lose their blocks are unwrapped. -/
theorem filter_flatMap_spread (hm : ∀ t ∈ ts, m.isBlock t.id = true → m.isDissolved t.id = true)
    (h : ∀ t ∈ ts, m.isDissolved t.id → m.Neat t.children) :
    (ts.flatMap m.spread).filter (!m.isBlockTree ·) = ts.flatMap m.unwrap := by
  induction ts with
  | nil => rfl
  | cons t ts ih =>
    rw [List.flatMap_cons, List.flatMap_cons, List.filter_append,
      ih (fun u hu => hm u (List.mem_cons_of_mem _ hu)) fun u hu => h u (List.mem_cons_of_mem _ hu)]
    congr 1
    unfold spread unwrap
    split
    · next hdissolved =>
      have hchildren : t.children.filter (!m.isBlockTree ·) = t.children :=
        List.filter_eq_self.mpr fun u hu => by
          rw [show m.isBlockTree u = false from
            (h t (List.mem_cons_self ..) hdissolved u hu).1]
          rfl
      split
      · next hblock =>
        rw [List.filter_cons_of_neg (by
          rw [show m.isBlockTree (.node t.id []) = true from hblock]
          exact Bool.false_ne_true), hchildren]
      · next hblock =>
        rw [List.filter_cons_of_pos (by
          rw [show m.isBlockTree (.node t.id []) = false from eq_false_of_ne_true hblock]
          rfl), hchildren]
    · next hstays =>
      rw [List.filter_cons_of_pos (by
        rw [show m.isBlockTree t = false from
          eq_false_of_ne_true fun hblock => hstays (hm t (List.mem_cons_self ..) hblock)]
        rfl)]
      rfl

/-- What is unwrapped is neat. -/
theorem neat_flatMap_unwrap (hm : m.UntitledBlocks)
    (h : ∀ t ∈ ts, m.isDissolved t.id → m.Neat t.children) : m.Neat (ts.flatMap m.unwrap) := by
  intro u hu
  obtain ⟨t, ht, hu⟩ := List.mem_flatMap.mp hu
  unfold unwrap at hu
  split at hu
  · next hdissolved =>
    split at hu
    · exact h t ht hdissolved u hu
    · next hblock =>
      rcases List.mem_cons.mp hu with rfl | hu
      · exact ⟨eq_false_of_ne_true hblock, fun _ => rfl⟩
      · exact h t ht hdissolved u hu
  · next hstays =>
    rw [List.mem_singleton.mp hu]
    exact ⟨eq_false_of_ne_true fun hblock => hstays (isDissolved_of_isBlock hm hblock),
      fun hdissolved => absurd hdissolved hstays⟩

/-- After flattening nothing is below a block. -/
theorem children_of_spread (hm : ∀ t ∈ ts, m.isBlock t.id = true → m.isDissolved t.id = true)
    (hneat : ∀ t ∈ ts, m.isDissolved t.id → m.Neat t.children) {u : Tree}
    (hu : u ∈ ts.flatMap m.spread) (hblock : m.isBlock u.id = true) : u.children = [] := by
  obtain ⟨t, ht, hu⟩ := List.mem_flatMap.mp hu
  unfold spread at hu
  split at hu
  · next hdissolved =>
    rcases List.mem_cons.mp hu with rfl | hu
    · rfl
    · rw [(hneat t ht hdissolved u hu).1] at hblock
      exact nomatch hblock
  · next hstays =>
    obtain rfl := List.mem_singleton.mp hu
    exact absurd (hm u ht hblock) hstays

/-- The trees below a node are unwrapped. -/
theorem exists_straighten (hm : ∀ t ∈ ts, m.isBlock t.id = true → m.isDissolved t.id = true)
    (h : m.Chain n none ts)
    (hneat : ∀ t ∈ ts, m.isDissolved t.id → m.Neat t.children) (hn : n ∉ Tree.forestIds ts)
    (hfirst : (m.linksOf n).first = Tree.firstId? ts) (hlt : n < m.table.size)
    (hsize : (Tree.forestIds ts).length ≤ m.nodes.size) :
    ∃ m', m.straighten n = some m' ∧ Rewires (n :: Tree.forestIds ts) m m' ∧
      m'.Chain n none (ts.flatMap m.unwrap) ∧ m'.Empties ts (ts.flatMap m.unwrap) ∧
      m'.linksOf n = { m.linksOf n with first := Tree.firstId? (ts.flatMap m.unwrap) } := by
  cases ts with
  | nil =>
    refine ⟨m, by rw [straighten, hfirst]; rfl, .refl _ _, h, fun _ hk => absurd hk List.not_mem_nil,
      ?_⟩
    rw [List.flatMap_nil, ← hfirst]
  | cons t ts =>
    obtain ⟨m₁, hflatten, hm₁, hchain₁⟩ := exists_flatten _ h hneat hsize hsize
    rw [Tree.firstId?_cons] at hflatten
    have hids := forestIds_flatMap_spread m (t :: ts)
    have hspread : ((t :: ts).flatMap m.spread).length ≤ m₁.nodes.size := by
      rw [hm₁.nodes]
      exact Nat.le_trans (length_le_forestIds _) (hids ▸ hsize)
    have htree₁ : m₁.isBlockTree = m.isBlockTree := funext fun t => hm₁.isBlock t.id
    let vs := ((t :: ts).flatMap m.spread).dropWhile m₁.isBlockTree
    let m₂ := m₁.setLinks n ({ · with first := Tree.firstId? vs })
    have hlinks₁ : m₁.linksOf n = m.linksOf n := hm₁.others n hn
    have hlt₁ : n < m₁.table.size := hm₁.size ▸ hlt
    have hnvs : n ∉ Tree.forestIds vs := fun hmem =>
      hn (hids ▸ forestIds_dropBlocks_subset _ n hmem)
    have hm₂ : Rewires [n] m₁ m₂ := .setLinks m₁ n _
    have htree₂ : m₂.isBlockTree = m.isBlockTree :=
      (funext fun t => hm₂.isBlock t.id : m₂.isBlockTree = m₁.isBlockTree).trans htree₁
    have hlength : vs.length ≤ m₂.nodes.size :=
      Nat.le_trans (List.dropWhile_sublist _).length_le (hm₂.nodes ▸ hspread)
    have hhead₂ : ∀ u ∈ vs.head?, m₂.isBlock u.id = false := by
      intro u hu
      rw [hm₂.isBlock]
      exact isBlock_of_dropBlocks hu
    obtain ⟨m', hunlink, hm', hchain⟩ :=
      exists_unlinkBlocks _ (hchain₁.dropBlocks.setLinks hnvs) hhead₂
        (Nat.le_trans (List.dropWhile_sublist _).length_le hspread) hlength
    rw [htree₂, htree₁, filter_dropBlocks, filter_flatMap_spread hm hneat] at hchain
    have hbare : ∀ u ∈ (t :: ts).flatMap m.spread, m₁.isBlock u.id = true → u.children = [] :=
      fun u hu hblock => children_of_spread hm hneat hu (hm₁.isBlock u.id ▸ hblock)
    refine ⟨m', ?_, ?_, hchain, fun k hk hnot => ?_, ?_⟩
    · rw [straighten, hfirst]
      simp only [Tree.firstId?_cons, hflatten, Option.bind_eq_bind, Option.bind_some]
      rw [removeBlocks, hlinks₁, hfirst, ← firstId?_flatMap_spread m,
        passBlocks_firstId? hchain₁ hspread]
      exact hunlink
    · refine (hm₁.mono fun k hk => List.mem_cons_of_mem _ hk).trans
        (((hm₂.mono fun k hk => ?_).trans (hm'.mono fun k hk => ?_)))
      · rw [List.mem_singleton.mp hk]
        exact List.mem_cons_self ..
      · exact List.mem_cons_of_mem _ (hids ▸ forestIds_dropBlocks_subset _ k hk)
    · have hempty := empties_filter hchain₁ hbare k (hids ▸ hk)
      rw [htree₁, filter_flatMap_spread hm hneat] at hempty
      rw [first_unlinkBlocks hunlink k, linksOf_setLinks_of_ne (ne_of_mem_of_not_mem hk hn).symm]
      exact hempty hnot
    · rw [hm'.others n hnvs, linksOf_setLinks_self hlt₁, hlinks₁,
        ← filter_flatMap_spread hm hneat, firstId?_filter, ← htree₁]

end Model
end Kconfig
