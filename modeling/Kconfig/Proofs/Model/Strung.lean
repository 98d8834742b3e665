import Kconfig.Model.Links
import Kconfig.Proofs.Model.Inheritance
import Kconfig.Proofs.Model.Trees
/-!
Links that stand for trees.

Trees are strung below a node when the links of their nodes lead through them: each root has that
node above it, the first of its children below it, and the next root beside it. What is strung is
kept by changes to the links of other nodes.
-/
namespace Kconfig
namespace Tree
variable {f g : NodeId → Links} {p : NodeId} {after : Option NodeId}

mutual

/-- The links of a tree lead through it, and from it to a node beside it. -/
def Hung (f : NodeId → Links) (p : NodeId) (after : Option NodeId) : Tree → Prop
  | .node id children => f id = ⟨some p, firstId? children, after⟩ ∧ Strung f id none children

/-- The links of trees side by side lead through them, and from the last to a node beside it. -/
def Strung (f : NodeId → Links) (p : NodeId) (after : Option NodeId) : List Tree → Prop
  | [] => True
  | t :: ts => Hung f p ((firstId? ts).or after) t ∧ Strung f p after ts

end

@[simp] theorem firstId?_nil : firstId? [] = none := rfl

theorem firstId?_node (n : NodeId) (children ts : List Tree) :
    firstId? (.node n children :: ts) = some n := rfl

@[simp] theorem firstId?_cons (t : Tree) (ts : List Tree) : firstId? (t :: ts) = some t.id := rfl

theorem firstId?_append (ts us : List Tree) :
    firstId? (ts ++ us) = (firstId? ts).or (firstId? us) := by
  cases ts <;> rfl

theorem forestIds_cons (n : NodeId) (children ts : List Tree) :
    forestIds (.node n children :: ts) = n :: (forestIds children ++ forestIds ts) := by
  rw [forestIds, ids, List.cons_append]

mutual

theorem hung_congr : ∀ (t : Tree) {after : Option NodeId} {p : NodeId},
    (∀ n ∈ t.ids, g n = f n) → Hung f p after t → Hung g p after t
  | .node id children, after, p, h, ht => by
    rw [ids] at h
    refine ⟨(h id (List.mem_cons_self ..)).trans ht.1, ?_⟩
    exact strung_congr children (fun n hn => h n (List.mem_cons_of_mem _ hn)) ht.2

/-- Only the links of the nodes of the trees count. -/
theorem strung_congr : ∀ (ts : List Tree) {after : Option NodeId} {p : NodeId},
    (∀ n ∈ forestIds ts, g n = f n) → Strung f p after ts → Strung g p after ts
  | [], _, _, _, _ => trivial
  | t :: ts, _, _, h, ht => by
    rw [forestIds] at h
    exact ⟨hung_congr t (fun n hn => h n (List.mem_append_left _ hn)) ht.1,
      strung_congr ts (fun n hn => h n (List.mem_append_right _ hn)) ht.2⟩

end

mutual

theorem hung_unique : ∀ (t : Tree) {after : Option NodeId} {p : NodeId},
    Hung f p after t → Hung g p after t → ∀ n ∈ t.ids, f n = g n
  | .node id children, after, p, h, h' => by
    intro n hn
    rw [ids, List.mem_cons] at hn
    rcases hn with rfl | hn
    · exact h.1.trans h'.1.symm
    · exact strung_unique children h.2 h'.2 n hn

/-- The trees say what the links of their nodes are. -/
theorem strung_unique : ∀ (ts : List Tree) {after : Option NodeId} {p : NodeId},
    Strung f p after ts → Strung g p after ts → ∀ n ∈ forestIds ts, f n = g n
  | [], _, _, _, _ => fun _ hn => absurd hn List.not_mem_nil
  | t :: ts, _, _, h, h' => by
    intro n hn
    rw [forestIds, List.mem_append] at hn
    exact hn.elim (hung_unique t h.1 h'.1 n) (strung_unique ts h.2 h'.2 n)

end

theorem strung_append : ∀ (ts : List Tree) {us : List Tree},
    Strung f p after (ts ++ us) ↔
      Strung f p ((firstId? us).or after) ts ∧ Strung f p after us
  | [], us => by simp [Strung]
  | t :: ts, us => by
    rw [List.cons_append, Strung, Strung, strung_append ts, firstId?_append, Option.or_assoc,
      and_assoc]

theorem mem_forestIds_of_getLast? {ts : List Tree} {last : NodeId}
    (h : ts.getLast?.map Tree.id = some last) : last ∈ forestIds ts := by
  obtain ⟨t, ht, rfl⟩ := Option.map_eq_some_iff.mp h
  exact mem_forestIds_of_mem (List.mem_of_getLast? ht) (id_mem_ids t)

end Tree

namespace Model
variable {m m' m'' : Model} {n p : NodeId} {ns ks : List NodeId} {ts us : List Tree}
  {after : Option NodeId}

/-! ### Changes to links -/

theorem linksOf_setLinks (m : Model) (n k : NodeId) (f : Links → Links) :
    (m.setLinks n f).linksOf k =
      if n = k ∧ k < m.table.size then f (m.linksOf k) else m.linksOf k := by
  rw [linksOf, setLinks, Array.getElem?_modify]
  by_cases hnk : n = k
  · by_cases hk : k < m.table.size
    · simp [hnk, hk, linksOf]
    · simp [hnk, hk, linksOf]
  · simp [hnk, linksOf]

theorem linksOf_setLinks_self {f : Links → Links} (h : n < m.table.size) :
    (m.setLinks n f).linksOf n = f (m.linksOf n) := by
  rw [linksOf_setLinks, if_pos ⟨rfl, h⟩]

theorem linksOf_setLinks_of_ne {k : NodeId} {f : Links → Links} (h : n ≠ k) :
    (m.setLinks n f).linksOf k = m.linksOf k := by
  rw [linksOf_setLinks, if_neg fun hnk => h hnk.1]

/-- Only the links of some nodes are others. -/
structure Relinks (ns : List NodeId) (m m' : Model) : Prop where
  size : m'.table.size = m.table.size
  others : ∀ k ∉ ns, m'.linksOf k = m.linksOf k

/-- The model is another one, but for the links of some nodes. -/
structure Rewires (ns : List NodeId) (m m' : Model) : Prop extends Relinks ns m m' where
  rest : m' = { m with table := m'.table }

theorem Relinks.mono (h : Relinks ns m m') (hsub : ∀ n ∈ ns, n ∈ ks) : Relinks ks m m' :=
  ⟨h.size, fun k hk => h.others k fun hmem => hk (hsub k hmem)⟩

theorem Relinks.trans (h : Relinks ns m m') (h' : Relinks ns m' m'') : Relinks ns m m'' :=
  ⟨h'.size.trans h.size, fun k hk => (h'.others k hk).trans (h.others k hk)⟩

namespace Rewires

theorem refl (ns : List NodeId) (m : Model) : Rewires ns m m := ⟨⟨rfl, fun _ _ => rfl⟩, rfl⟩

theorem mono (h : Rewires ns m m') (hsub : ∀ n ∈ ns, n ∈ ks) : Rewires ks m m' :=
  ⟨h.toRelinks.mono hsub, h.rest⟩

theorem trans (h : Rewires ns m m') (h' : Rewires ns m' m'') : Rewires ns m m'' := by
  refine ⟨h.toRelinks.trans h'.toRelinks, ?_⟩
  rw [h'.rest, h.rest]

theorem setLinks (m : Model) (n : NodeId) (f : Links → Links) :
    Rewires [n] m (m.setLinks n f) := by
  refine ⟨⟨Array.size_modify, fun k hk => linksOf_setLinks_of_ne ?_⟩, rfl⟩
  rintro rfl
  exact hk (List.mem_singleton_self _)

theorem nodes (h : Rewires ns m m') : m'.nodes = m.nodes := by rw [h.rest]

theorem node (h : Rewires ns m m') (n : NodeId) : m'.node n = m.node n := by
  rw [Model.node, Model.node, h.nodes]

theorem isBlock (h : Rewires ns m m') (n : NodeId) : m'.isBlock n = m.isBlock n := by
  rw [Model.isBlock, Model.isBlock, h.node]

theorem isDissolved (h : Rewires ns m m') (n : NodeId) : m'.isDissolved n = m.isDissolved n := by
  rw [Model.isDissolved, Model.isDissolved, h.node]

end Rewires

/-! ### Chains -/

/-- Trees are strung below a node, and each of their nodes stands there once. -/
structure Chain (m : Model) (p : NodeId) (after : Option NodeId) (ts : List Tree) : Prop where
  strung : Tree.Strung m.linksOf p after ts
  nodup : (Tree.forestIds ts).Nodup
  lt : ∀ n ∈ Tree.forestIds ts, n < m.table.size

/-- The first tree of a chain, with what is known of its root, and the rest of the chain. -/
structure Chain.Head (m : Model) (p : NodeId) (after : Option NodeId) (n : NodeId)
    (children ts : List Tree) : Prop where
  links : m.linksOf n = ⟨some p, Tree.firstId? children, (Tree.firstId? ts).or after⟩
  lt : n < m.table.size
  below : m.Chain n none children
  beside : m.Chain p after ts
  notBelow : n ∉ Tree.forestIds children
  notBeside : n ∉ Tree.forestIds ts
  disjoint : ∀ k ∈ Tree.forestIds children, k ∉ Tree.forestIds ts

namespace Chain
variable {children : List Tree}

theorem nil (m : Model) (p : NodeId) (after : Option NodeId) : m.Chain p after [] :=
  ⟨trivial, List.nodup_nil, fun _ h => absurd h List.not_mem_nil⟩

theorem head (h : m.Chain p after (.node n children :: ts)) : Head m p after n children ts := by
  obtain ⟨⟨⟨hlinks, hchildren⟩, hrest⟩, hnodup, hlt⟩ := h
  rw [Tree.forestIds_cons] at hnodup hlt
  obtain ⟨hn, hnodup⟩ := List.nodup_cons.mp hnodup
  rw [List.mem_append, not_or] at hn
  obtain ⟨hnodupC, hnodupR, hdisjoint⟩ := List.nodup_append.mp hnodup
  refine ⟨hlinks, hlt n (List.mem_cons_self ..), ⟨hchildren, hnodupC, fun k hk => ?_⟩,
    ⟨hrest, hnodupR, fun k hk => ?_⟩, hn.1, hn.2, fun k hk hk' => hdisjoint k hk k hk' rfl⟩
  · exact hlt k (List.mem_cons_of_mem _ (List.mem_append_left _ hk))
  · exact hlt k (List.mem_cons_of_mem _ (List.mem_append_right _ hk))

theorem cons (h : Head m p after n children ts) : m.Chain p after (.node n children :: ts) := by
  refine ⟨⟨⟨h.links, h.below.strung⟩, h.beside.strung⟩, ?_, ?_⟩
  · rw [Tree.forestIds_cons, List.nodup_cons, List.mem_append, not_or, List.nodup_append]
    exact ⟨⟨h.notBelow, h.notBeside⟩, h.below.nodup, h.beside.nodup,
      fun k hk j hj hkj => h.disjoint k hk (hkj ▸ hj)⟩
  · rw [Tree.forestIds_cons]
    intro k hk
    rcases List.mem_cons.mp hk with rfl | hk
    · exact h.lt
    · exact (List.mem_append.mp hk).elim (h.below.lt k) (h.beside.lt k)

theorem append_iff : m.Chain p after (ts ++ us) ↔
    m.Chain p ((Tree.firstId? us).or after) ts ∧ m.Chain p after us ∧
      ∀ k ∈ Tree.forestIds ts, k ∉ Tree.forestIds us := by
  constructor
  · rintro ⟨hstrung, hnodup, hlt⟩
    rw [Tree.forestIds_append] at hnodup hlt
    obtain ⟨hts, hus⟩ := (Tree.strung_append ts).mp hstrung
    obtain ⟨hnodupT, hnodupU, hdisjoint⟩ := List.nodup_append.mp hnodup
    exact ⟨⟨hts, hnodupT, fun k hk => hlt k (List.mem_append_left _ hk)⟩,
      ⟨hus, hnodupU, fun k hk => hlt k (List.mem_append_right _ hk)⟩,
      fun k hk hk' => hdisjoint k hk k hk' rfl⟩
  · rintro ⟨hts, hus, hdisjoint⟩
    refine ⟨(Tree.strung_append ts).mpr ⟨hts.strung, hus.strung⟩, ?_, ?_⟩
    · rw [Tree.forestIds_append, List.nodup_append]
      exact ⟨hts.nodup, hus.nodup, fun k hk j hj hkj => hdisjoint k hk (hkj ▸ hj)⟩
    · rw [Tree.forestIds_append]
      exact fun k hk => (List.mem_append.mp hk).elim (hts.lt k) (hus.lt k)

/-- What becomes of the links of other nodes does not matter to a chain. -/
theorem congr (h : m.Chain p after ts) (hsize : m.table.size ≤ m'.table.size)
    (hsame : ∀ n ∈ Tree.forestIds ts, m'.linksOf n = m.linksOf n) : m'.Chain p after ts :=
  ⟨Tree.strung_congr ts hsame h.strung, h.nodup, fun n hn => Nat.lt_of_lt_of_le (h.lt n hn) hsize⟩

/-- Changes to the links of other nodes keep a chain. -/
theorem relinks (h : m.Chain p after ts) (hm : Relinks ns m m')
    (hother : ∀ n ∈ Tree.forestIds ts, n ∉ ns) : m'.Chain p after ts :=
  h.congr (Nat.le_of_eq hm.size.symm) fun n hn => hm.others n (hother n hn)

theorem setLinks (h : m.Chain p after ts) {f : Links → Links} (hn : n ∉ Tree.forestIds ts) :
    (m.setLinks n f).Chain p after ts := by
  refine h.relinks (Rewires.setLinks m n f).toRelinks fun k hk hmem => hn ?_
  rwa [← List.mem_singleton.mp hmem]

/-- The last node of a chain can be linked to any other node. -/
theorem setNext {last : NodeId} {next : Option NodeId} : ∀ {ts : List Tree} {m : Model},
    m.Chain p after ts → ts.getLast?.map Tree.id = some last →
      (m.setLinks last ({ · with next })).Chain p next ts
  | [.node n children], m, h, hlast => by
    obtain rfl : n = last := Option.some.inj hlast
    have hhead := h.head
    refine cons ⟨?_, ?_, ?_, nil _ _ _, hhead.notBelow, List.not_mem_nil, fun _ _ =>
      List.not_mem_nil⟩
    · rw [linksOf_setLinks_self hhead.lt, hhead.links]
      rfl
    · exact Nat.lt_of_lt_of_eq hhead.lt (Rewires.setLinks m n _).size.symm
    · exact hhead.below.setLinks hhead.notBelow
  | .node n children :: t :: ts, m, h, hlast => by
    have hhead := h.head
    have hrest : (m.setLinks last ({ · with next })).Chain p next (t :: ts) :=
      hhead.beside.setNext (List.getLast?_cons_cons ▸ hlast)
    have hmem : last ∈ Tree.forestIds (t :: ts) :=
      Tree.mem_forestIds_of_getLast? (List.getLast?_cons_cons ▸ hlast)
    have hne : last ≠ n := by
      rintro rfl
      exact hhead.notBeside hmem
    refine cons ⟨?_, ?_, ?_, hrest, hhead.notBelow, hhead.notBeside, hhead.disjoint⟩
    · rw [linksOf_setLinks_of_ne hne, hhead.links]
      rfl
    · exact Nat.lt_of_lt_of_eq hhead.lt (Rewires.setLinks m last _).size.symm
    · exact hhead.below.setLinks fun hlastC => hhead.disjoint last hlastC hmem

/-- The last node of a chain is linked to what comes after the chain. -/
theorem next_last {last : NodeId} : ∀ {ts : List Tree}, m.Chain p after ts →
    ts.getLast?.map Tree.id = some last → (m.linksOf last).next = after
  | [.node n children], h, hlast => by
    obtain rfl : n = last := Option.some.inj hlast
    rw [h.head.links]
    rfl
  | .node _ _ :: _ :: _, h, hlast => h.head.beside.next_last (List.getLast?_cons_cons ▸ hlast)

/-- Going along the links of a chain leads through its roots. -/
theorem beside_firstId? : ∀ {ts : List Tree} {fuel : Nat}, m.Chain p none ts → ts.length ≤ fuel →
    m.beside fuel (Tree.firstId? ts) = some (ts.map Tree.id)
  | [], _, _, _ => by rw [Tree.firstId?_nil, Model.beside]; rfl
  | .node n children :: ts, fuel + 1, h, hfuel => by
    rw [Tree.firstId?_node, Model.beside, h.head.links, Option.or_none,
      h.head.beside.beside_firstId? (Nat.le_of_succ_le_succ hfuel)]
    rfl

/-- The chain whose first root stays as it is. -/
theorem skip {children vs : List Tree} (h : m.Chain p after (.node n children :: ts))
    (hm : Relinks (Tree.forestIds ts) m m') (hvs : m'.Chain p after vs)
    (hids : ∀ k ∈ Tree.forestIds vs, k ∈ Tree.forestIds ts)
    (hfirst : Tree.firstId? vs = Tree.firstId? ts) : m'.Chain p after (.node n children :: vs) := by
  have hhead := h.head
  refine .cons ⟨?_, hm.size ▸ hhead.lt, hhead.below.relinks hm hhead.disjoint, hvs, hhead.notBelow,
    fun hn => hhead.notBeside (hids n hn), fun k hk hk' => hhead.disjoint k hk (hids k hk')⟩
  rw [hm.others n hhead.notBeside, hhead.links, hfirst]

/-- The trees that stand for a chain are read off its links. -/
theorem treesFrom_firstId? : ∀ {fuel : Nat} {p : NodeId} {ts : List Tree}, m.Chain p none ts →
    (Tree.forestIds ts).length ≤ fuel → m.treesFrom fuel (Tree.firstId? ts) = some ts
  | _, _, [], _, _ => by rw [Tree.firstId?_nil, treesFrom]
  | 0, _, .node n children :: ts, _, hfuel => by
    rw [Tree.forestIds_cons] at hfuel
    exact absurd hfuel (Nat.not_succ_le_zero _)
  | fuel + 1, p, .node n children :: ts, h, hfuel => by
    rw [Tree.forestIds_cons, List.length_cons, List.length_append] at hfuel
    rw [Tree.firstId?_node, treesFrom, h.head.links, Option.or_none,
      treesFrom_firstId? h.head.below (by omega), treesFrom_firstId? h.head.beside (by omega)]
    rfl

end Chain

/-- The links lead from the top node through trees, where each node stands once. -/
structure Rooted (m : Model) (ts : List Tree) : Prop where
  top : m.linksOf 0 = ⟨none, Tree.firstId? ts, none⟩
  size : m.table.size = m.nodes.size
  chain : m.Chain 0 none ts

/-- The links lead from the top node through the menu tree, and nothing is below other nodes. -/
structure Linked (m : Model) : Prop extends m.Rooted m.tree where
  bare : ∀ n ∉ 0 :: m.order, (m.linksOf n).first = none

end Model
end Kconfig
