import Kconfig.Model.Iteration
import Mathlib.Data.List.Perm.Subperm
import Kconfig.Proofs.Model.Propagation
/-!
Nothing is lost, doubled or moved between the files and the menu tree.

The walk along the links goes through the trees in order: what it leads to from the last node below
a node is what it leads to from that node when nothing stands below it. The trees have the nodes of
the files without the blocks, so the walk visits just these, in the order of their numbers.
-/
namespace Kconfig

namespace Tree

theorem head?_forestIds : ∀ ts : List Tree, (forestIds ts).head? = firstId? ts
  | [] => rfl
  | .node _ _ :: _ => rfl

/-- Where a node leads is in order: the first node below it and the node beside it are among certain
nodes; the first has it as its parent, and the other has its parent. -/
def Tied (f : NodeId → Links) (ns : List NodeId) (n : NodeId) : Prop :=
  (∀ k, (f n).first = some k → k ∈ ns ∧ (f k).parent = some n) ∧
    ∀ k, (f n).next = some k → k ∈ ns ∧ (f k).parent = (f n).parent

/-- The first of some trees side by side has the node above them as its parent. -/
theorem Strung.first {f : NodeId → Links} {p k : NodeId} {after : Option NodeId} :
    ∀ {ts : List Tree}, Strung f p after ts → firstId? ts = some k →
      k ∈ forestIds ts ∧ (f k).parent = some p
  | .node id children :: ts, h, hk => by
    obtain rfl : id = k := Option.some.inj hk
    refine ⟨?_, congrArg Links.parent h.1.1⟩
    rw [forestIds_cons]
    exact List.mem_cons_self ..

mutual

theorem tied_of_hung {f : NodeId → Links} {ns : List NodeId} : ∀ (t : Tree) {p : NodeId}
    {after : Option NodeId}, Hung f p after t → (∀ n ∈ t.ids, n ∈ ns) →
      (∀ k, after = some k → k ∈ ns ∧ (f k).parent = some p) → ∀ n ∈ t.ids, Tied f ns n
  | .node id children, p, after, ⟨hlinks, hchildren⟩, hsub, hafter, n, hn => by
    rw [ids] at hsub hn
    have hbelow : ∀ k ∈ forestIds children, k ∈ ns := fun k hk => hsub k (List.mem_cons_of_mem _ hk)
    rcases List.mem_cons.mp hn with rfl | hn
    · rw [Tied, hlinks]
      refine ⟨fun k hk => ?_, hafter⟩
      obtain ⟨hmem, hparent⟩ := hchildren.first hk
      exact ⟨hbelow k hmem, hparent⟩
    · exact tied_of_strung children hchildren hbelow (fun k hk => nomatch hk) n hn

/-- Strung links are in order. -/
theorem tied_of_strung {f : NodeId → Links} {ns : List NodeId} : ∀ (ts : List Tree) {p : NodeId}
    {after : Option NodeId}, Strung f p after ts → (∀ n ∈ forestIds ts, n ∈ ns) →
      (∀ k, after = some k → k ∈ ns ∧ (f k).parent = some p) → ∀ n ∈ forestIds ts, Tied f ns n
  | [], _, _, _, _, _, n, hn => by
    rw [forestIds] at hn
    exact absurd hn List.not_mem_nil
  | t :: ts, p, after, ⟨htree, hforest⟩, hsub, hafter, n, hn => by
    rw [forestIds] at hsub hn
    have hbeside : ∀ k ∈ forestIds ts, k ∈ ns := fun k hk => hsub k (List.mem_append_right _ hk)
    rcases List.mem_append.mp hn with hn | hn
    · refine tied_of_hung t htree (fun k hk => hsub k (List.mem_append_left _ hk))
        (fun k hk => ?_) n hn
      cases hfirst : firstId? ts with
      | none =>
        rw [hfirst] at hk
        exact hafter k hk
      | some j =>
        rw [hfirst] at hk
        obtain rfl := Option.some.inj hk
        obtain ⟨hmem, hparent⟩ := hforest.first hfirst
        exact ⟨hbeside j hmem, hparent⟩
    · exact tied_of_strung ts hforest hbeside hafter n hn

end

end Tree

namespace Model
variable {m : Model} {n : NodeId}

/-! ### The links of a model -/

/-- The numbers of the menu nodes are different, and none is that of the top node. -/
def Distinct (m : Model) : Prop := (0 :: m.order).Nodup

/-- The links of the top node and of those in the menu tree are in order. -/
theorem tied_of_linked (hroot : m.Linked) (hn : n ∈ 0 :: m.order) :
    Tree.Tied m.linksOf m.order n := by
  rcases List.mem_cons.mp hn with rfl | hn
  · rw [Tree.Tied, hroot.top]
    exact ⟨fun k hk => hroot.chain.strung.first hk, fun k hk => nomatch hk⟩
  · exact Tree.tied_of_strung m.tree hroot.chain.strung (fun _ hk => hk) (fun _ hk => nomatch hk) n
      hn

/-- The nodes that one comes to from the first node below a node by going on to the next. -/
inductive Below (m : Model) (x : NodeId) : NodeId → Prop where
  | first {n : NodeId} (hn : (m.linksOf x).first = some n) : Below m x n
  | next {n k : NodeId} (h : Below m x n) (hk : (m.linksOf n).next = some k) : Below m x k

/-- The nodes that one comes to from the top node along any links. -/
inductive Reachable (m : Model) : NodeId → Prop where
  | top : Reachable m 0
  | first {n k : NodeId} (h : Reachable m n) (hk : (m.linksOf n).first = some k) : Reachable m k
  | next {n k : NodeId} (h : Reachable m n) (hk : (m.linksOf n).next = some k) : Reachable m k
  | parent {n k : NodeId} (h : Reachable m n) (hk : (m.linksOf n).parent = some k) : Reachable m k

/-- Links lead to no other nodes than the top node and those of the menu tree. -/
theorem mem_of_reachable (hroot : m.Linked) (h : m.Reachable n) : n ∈ 0 :: m.order := by
  induction h with
  | top => exact List.mem_cons_self ..
  | first _ hk ih => exact List.mem_cons_of_mem _ ((tied_of_linked hroot ih).1 _ hk).1
  | next _ hk ih => exact List.mem_cons_of_mem _ ((tied_of_linked hroot ih).2 _ hk).1
  | parent _ hk ih =>
    rcases List.mem_cons.mp ih with rfl | ih
    · rw [hroot.top] at hk
      exact nomatch hk
    · rcases stands_of_strung m.tree hroot.chain.strung ih with ⟨hp, -⟩ | ⟨p, above, hp, hstands⟩
      · rw [Option.some.inj (hk.symm.trans hp)]
        exact List.mem_cons_self ..
      · rw [Option.some.inj (hk.symm.trans hp)]
        exact List.mem_cons_of_mem _ (hstands.above_mem (List.mem_cons_self ..))

/-- What is below a node has it as its parent, and stands in the menu tree. -/
theorem parent_of_below (hroot : m.Linked) {x : NodeId} (h : m.Below x n) :
    n ∈ m.order ∧ (m.linksOf n).parent = some x := by
  induction h with
  | first hn =>
    have hx : x ∈ 0 :: m.order := by
      refine Decidable.of_not_not fun hnot => ?_
      rw [hroot.bare x hnot] at hn
      exact nomatch hn
    exact (tied_of_linked hroot hx).1 _ hn
  | next _ hk ih =>
    obtain ⟨hmem, hparent⟩ := (tied_of_linked hroot (List.mem_cons_of_mem _ ih.1)).2 _ hk
    exact ⟨hmem, hparent.trans ih.2⟩

/-! ### The walk -/

/-- Each node leads to the one after it, and the last one to `rest`. -/
def Route (m : Model) (rest : Option NodeId) : List NodeId → Prop
  | [] => True
  | n :: ns => m.nodeAfter n = some (ns.head?.or rest) ∧ Route m rest ns

theorem Route.append {rest : Option NodeId} : ∀ {ks ns : List NodeId},
    m.Route (ns.head?.or rest) ks → m.Route rest ns → m.Route rest (ks ++ ns)
  | [], _, _, hns => hns
  | k :: ks, ns, hks, hns => by
    refine ⟨hks.1.trans ?_, hks.2.append hns⟩
    cases ks <;> rfl

/-- Where one goes from a node does not hang on how many nodes more may be passed. -/
theorem leaveWithin_le {rest : Option NodeId} : ∀ {most : Nat} {n : NodeId} {more : Nat},
    m.leaveWithin most n = some rest → most ≤ more → m.leaveWithin more n = some rest
  | 0, _, _, h, _ => by cases h
  | most + 1, n, 0, _, hle => absurd hle (Nat.not_succ_le_zero _)
  | most + 1, n, more + 1, h, hle => by
    unfold leaveWithin at h ⊢
    dsimp only at h ⊢
    cases hnext : (m.linksOf n).next with
    | some k =>
      rw [hnext] at h
      exact h
    | none =>
      rw [hnext] at h
      cases hparent : (m.linksOf n).parent with
      | some p =>
        rw [hparent] at h
        exact leaveWithin_le h (Nat.le_of_succ_le_succ hle)
      | none =>
        rw [hparent] at h
        exact h

mutual

theorem route_tree {rest : Option NodeId} : ∀ (t : Tree) {p : NodeId} {after : Option NodeId}
    {passed : Nat}, Tree.Hung m.linksOf p after t → m.leaveWithin passed t.id = some rest →
      passed + t.ids.length ≤ m.longestWay + 1 → m.Route rest t.ids
  | .node id children, p, after, passed, ⟨hself, hbelow⟩, hleave, hroom => by
    rw [Tree.ids, List.length_cons] at hroom
    refine ⟨?_, route_forest children hbelow hleave (by omega)⟩
    rw [nodeAfter, hself, Tree.head?_forestIds]
    cases hfirst : Tree.firstId? children with
    | some k => rfl
    | none => exact leaveWithin_le hleave (by omega)

/-- Trees side by side lead through their nodes to where one goes when one leaves the node above
them. -/
theorem route_forest {rest : Option NodeId} : ∀ (ts : List Tree) {p : NodeId} {passed : Nat},
    Tree.Strung m.linksOf p none ts → m.leaveWithin passed p = some rest →
      passed + (Tree.forestIds ts).length ≤ m.longestWay → m.Route rest (Tree.forestIds ts)
  | [], _, _, _, _, _ => trivial
  | .node id children :: ts, p, passed, ⟨htree, hforest⟩, hleave, hroom => by
    rw [Tree.forestIds, List.length_append] at hroom
    have hrest := route_forest ts hforest hleave (by omega)
    have hid : m.leaveWithin (passed + 1) id = some ((Tree.firstId? ts).or rest) := by
      rw [leaveWithin, htree.1, Option.or_none]
      cases hnext : Tree.firstId? ts with
      | some k => rfl
      | none => exact hleave
    refine Route.append ?_ hrest
    rw [Tree.head?_forestIds]
    exact route_tree (.node id children) htree hid (by omega)

end

/-- The menu tree has fewer nodes than a way can lead through. -/
theorem length_order_lt (hroot : m.Linked) : m.order.length < m.longestWay := by
  have hle : m.order.length ≤ (List.range m.nodes.size).length := by
    refine (List.subperm_of_subset hroot.chain.nodup fun n hn => ?_).length_le
    rw [← hroot.size]
    exact List.mem_range.mpr (hroot.chain.lt n hn)
  rw [List.length_range] at hle
  exact Nat.lt_succ_of_le hle

/-- From the top node the links lead through the whole menu tree and then to an end. -/
theorem route_order (hroot : m.Linked) : m.Route none (0 :: m.order) := by
  have hleave : m.leaveWithin 1 0 = some none := by rw [leaveWithin, hroot.top]
  have hroom : 1 + (Tree.forestIds m.tree).length ≤ m.longestWay := by
    have hlt := length_order_lt hroot
    rw [order] at hlt
    omega
  refine ⟨?_, route_forest m.tree hroot.chain.strung hleave hroom⟩
  rw [nodeAfter, hroot.top, order, Tree.head?_forestIds]
  cases hfirst : Tree.firstId? m.tree with
  | some k => rfl
  | none => exact leaveWithin_le hleave (by omega)

/-- A walk through different nodes visits each of them. -/
theorem iterate_all : ∀ {most : Nat} {ns : List NodeId} {n : NodeId} {seen : List SymbolId},
    ns.length < most → m.Route none (n :: ns) → m.iterateWithin false most seen n = some ns
  | 0, _, _, _, hroom, _ => absurd hroom (Nat.not_lt_zero _)
  | most + 1, [], n, seen, _, h => by
    rw [iterateWithin, h.1]
    rfl
  | most + 1, k :: ns, n, seen, hroom, h => by
    rw [iterateWithin, h.1]
    simp only [List.head?_cons, Option.some_or, Option.bind_eq_bind, Option.bind_some,
      iterate_all (Nat.lt_of_succ_lt_succ hroom) h.2, Bool.false_and]
    cases m.symbolOf? k <;> rfl

/-- Whether a node is about a symbol whose first node it is not. -/
def repeats (m : Model) (n : NodeId) : Bool :=
  match m.symbolOf? n with
  | some s => (m.symbol s).nodes.head? ≠ some n
  | none => false

/-- The nodes of each symbol are all that are about it, in order. -/
def Gathered (m : Model) : Prop :=
  ∀ s, (m.symbol s).nodes = m.order.filter fun n => m.symbolOf? n = some s

/-- A model in which walks go through the whole menu tree and come to each symbol at its first node
first. -/
structure Walkable (m : Model) : Prop where
  linked : m.Linked
  distinct : m.Distinct
  gathered : m.Gathered

theorem repeats_iff (hm : m.Distinct) (hnodes : m.Gathered) {pre post : List NodeId} {s : SymbolId}
    (horder : m.order = pre ++ n :: post) (hs : m.symbolOf? n = some s) :
    m.repeats n = true ↔ ∃ k ∈ pre, m.symbolOf? k = some s := by
  have hnotin : n ∉ pre := fun hn => by
    have hnodup := (List.nodup_cons.mp hm).2
    rw [horder] at hnodup
    exact (List.nodup_append.mp hnodup).2.2 n hn n (List.mem_cons_self ..) rfl
  rw [repeats, hs]
  dsimp only
  rw [hnodes, horder, List.filter_append, List.filter_cons_of_pos (by simpa using hs)]
  cases hpre : pre.filter fun n => m.symbolOf? n = some s with
  | nil =>
    rw [List.filter_eq_nil_iff] at hpre
    simpa using hpre
  | cons k ks =>
    have hk : k ∈ pre ∧ m.symbolOf? k = some s := by
      have hmem : k ∈ pre.filter fun n => m.symbolOf? n = some s := by
        rw [hpre]
        exact List.mem_cons_self ..
      simpa using List.mem_filter.mp hmem
    refine iff_of_true ?_ ⟨k, hk⟩
    have hne : k ≠ n := fun heq => hnotin (heq ▸ hk.1)
    simpa using hne

/-- What has been seen are the symbols of certain nodes. -/
def Seen (m : Model) (seen : List SymbolId) (ns : List NodeId) : Prop :=
  ∀ s, s ∈ seen ↔ ∃ n ∈ ns, m.symbolOf? n = some s

namespace Seen
variable {seen : List SymbolId} {ns : List NodeId} {s : SymbolId}

theorem start : m.Seen [] [] := fun s => by simp

/-- A node of no symbol adds nothing. -/
theorem pass (h : m.Seen seen ns) (hs : m.symbolOf? n = none) : m.Seen seen (ns ++ [n]) := by
  intro t
  simp [h t, hs, or_and_right, exists_or]

/-- After a node of a symbol that symbol has been seen, and those seen before. -/
theorem insert (h : m.Seen seen ns) (hs : m.symbolOf? n = some s) :
    m.Seen (s :: seen) (ns ++ [n]) := by
  intro t
  rw [List.mem_cons]
  simp only [List.mem_append, List.mem_singleton, or_and_right, exists_or, ← h t,
    exists_eq_left, hs, Option.some.injEq]
  rw [or_comm, eq_comm (a := t)]

/-- A node of a symbol that was seen adds nothing. -/
theorem again (h : m.Seen seen ns) (hs : m.symbolOf? n = some s) (hmem : s ∈ seen) :
    m.Seen seen (ns ++ [n]) := by
  intro t
  rw [← h.insert hs t, List.mem_cons, or_iff_right_of_imp]
  rintro rfl
  exact hmem

/-- A symbol was seen at the nodes before if the node is not its first one. -/
theorem mem_iff (h : m.Seen seen ns) (hm : m.Walkable) {post : List NodeId}
    (horder : m.order = ns ++ n :: post) (hs : m.symbolOf? n = some s) :
    s ∈ seen ↔ m.repeats n = true :=
  (h s).trans (repeats_iff hm.distinct hm.gathered horder hs).symm

end Seen

/-- The walk that visits symbols once: what has been seen are the symbols of the nodes before. -/
theorem iterate_unique (hm : m.Walkable) : ∀ (ns pre : List NodeId)
    {n : NodeId} {seen : List SymbolId} {most : Nat}, m.order = pre ++ ns → ns.length < most →
      m.Seen seen pre → m.Route none (n :: ns) →
      m.iterateWithin true most seen n = some (ns.filter (!m.repeats ·))
  | _, _, _, _, 0, _, hroom, _, _ => absurd hroom (Nat.not_lt_zero _)
  | [], _, n, seen, most + 1, _, _, _, h => by
    rw [iterateWithin, h.1]
    rfl
  | k :: ns, pre, n, seen, most + 1, horder, hroom, hseen, h => by
    have hroom' := Nat.lt_of_succ_lt_succ hroom
    have horder' : m.order = (pre ++ [k]) ++ ns := by rw [horder, List.append_assoc]; rfl
    rw [iterateWithin, h.1]
    simp only [List.head?_cons, Option.some_or, Option.bind_eq_bind, Option.bind_some,
      Bool.true_and]
    cases hs : m.symbolOf? k with
    | none =>
      have hrepeats : m.repeats k = false := by rw [repeats, hs]
      rw [List.filter_cons_of_pos (by rw [hrepeats]; rfl)]
      dsimp only
      rw [iterate_unique hm _ _ horder' hroom' (hseen.pass hs) h.2]
      rfl
    | some s =>
      have hrepeats := hseen.mem_iff hm horder hs
      dsimp only
      by_cases hmem : s ∈ seen
      · rw [if_pos (List.contains_iff_mem.mpr hmem),
          List.filter_cons_of_neg (by rw [hrepeats.mp hmem]; exact Bool.false_ne_true),
          iterate_unique hm _ _ horder' hroom' (hseen.again hs hmem) h.2]
      · have hfirst : m.repeats k = false := eq_false_of_ne_true fun h => hmem (hrepeats.mpr h)
        rw [if_neg (mt List.contains_iff_mem.mp hmem),
          List.filter_cons_of_pos (by rw [hfirst]; rfl),
          iterate_unique hm _ _ horder' hroom' (hseen.insert hs) h.2]
        rfl

/-! ### Settled models -/

/-- The menu nodes are the nodes of the files, no more and no fewer, in their order. -/
structure Complete (m : Model) : Prop where
  all : m.nodeIter false = some ((List.range m.nodes.size).filter fun n =>
    n ≠ 0 ∧ (m.node n).entry ≠ .block)
  unique : ∃ ns, m.nodeIter false = some ns ∧ m.nodeIter true = some (ns.filter (!m.repeats ·))
  nodes : ∀ s, (m.symbol s).nodes =
    (List.range m.nodes.size).filter fun n => m.symbolOf? n = some s
  noBlock : ∀ n, m.Reachable n → (m.node n).entry ≠ .block
  parent : ∀ x n, m.Below x n → (m.linksOf n).parent = some x

namespace Read
variable {blocks : List Tree} {table : Array Links} (h : m.Read blocks)
include h

theorem nodesSize_settle : (m.settle blocks table).nodes.size = m.nodes.size := by
  rw [← length_entries, ← length_entries, h.entries_settle]

theorem isBlock_inherited (n : NodeId) :
    (m.inherited blocks).isBlock n = (m.settle blocks table).isBlock n := by
  rw [isBlock, isBlock, h.node_settle]

/-- The nodes of the menu tree are the nodes of the files that are no blocks. -/
theorem order_settle : (m.settle blocks table).order =
    (List.range (m.settle blocks table).nodes.size).filter fun n =>
      n ≠ 0 ∧ ((m.settle blocks table).node n).entry ≠ .block := by
  rw [order, h.tree_settle, forestIds_outline h.untitledBlocks h.leafSymbols_inherited,
    h.nodesSize_settle, ← h.zero_cons_ids, List.filter_cons_of_neg (by simp)]
  refine List.filter_congr fun n hn => ?_
  have hpos : n ≠ 0 := Nat.ne_of_gt (h.pos hn)
  rw [@isBlock_inherited m blocks table h n, isBlock]
  simp [hpos]

theorem distinct : (m.settle blocks table).Distinct := by
  rw [Distinct, h.order_settle]
  refine List.nodup_cons.mpr ⟨fun hmem => ?_, List.nodup_range.filter _⟩
  simpa using List.mem_filter.mp hmem

theorem gathered_settle : (m.settle blocks table).Gathered := by
  intro s
  rw [h.nodes_eq_filter, h.order_settle, List.filter_filter]
  refine List.filter_congr fun n _ => ?_
  cases hs : decide ((m.settle blocks table).symbolOf? n = some s) with
  | false => rw [Bool.false_and]
  | true =>
    have hsymbol := of_decide_eq_true hs
    have hpos : n ≠ 0 := by
      rintro rfl
      rw [symbolOf?, h.node_settle, h.node_inherited_zero, h.entry_zero] at hsymbol
      cases hsymbol
    have hblock : ((m.settle blocks table).node n).entry ≠ .block := fun hblock => by
      rw [symbolOf?, hblock] at hsymbol
      cases hsymbol
    rw [Bool.true_and, decide_eq_true ⟨hpos, hblock⟩]

theorem walkable (hroot : (m.settle blocks table).Linked) : (m.settle blocks table).Walkable :=
  ⟨hroot, h.distinct, h.gathered_settle⟩

theorem complete (hroot : (m.settle blocks table).Linked) : (m.settle blocks table).Complete := by
  have hroom := length_order_lt hroot
  have hall : (m.settle blocks table).nodeIter false = some (m.settle blocks table).order :=
    iterate_all hroom (route_order hroot)
  refine ⟨hall.trans (congrArg some h.order_settle), ⟨_, hall, ?_⟩, h.nodes_eq_filter,
    fun n hn => ?_, fun x n hn => (parent_of_below hroot hn).2⟩
  · exact iterate_unique (h.walkable hroot) _ [] rfl hroom .start (route_order hroot)
  · rcases List.mem_cons.mp (mem_of_reachable hroot hn) with rfl | hmem
    · rw [h.node_settle, h.node_inherited_zero, h.entry_zero]
      exact nofun
    · rw [h.order_settle] at hmem
      exact (of_decide_eq_true (List.mem_filter.mp hmem).2).2

end Read

/-- However the files are read, finalizing ends, and all of their nodes but the blocks are in the menu
tree. -/
theorem finalize_complete {host : Host} {options : LoadOptions} {version : Int}
    {dialect : Dialect} (hdialect : Load.dialectOf host version = .ok dialect) {links : Array Links}
    {w : Workspace} (hfiles : Reading.readLinks dialect options.name
      (Load.start host options version) = .ok links w) :
    ∃ m, (w.model.withLinks links).finalize = some m ∧ m.entries = w.model.entries ∧
      m.Complete := by
  have hready : Ready (Load.start host options version) :=
    ⟨rfl, Load.raw_start host options version⟩
  obtain ⟨blocks, hblocks, hconnects⟩ := Reading.readFiles_of_readLinks hfiles
  have hread := Load.read_of_readFiles (Load.dialectOf_sound hdialect) hready rfl hblocks
  obtain ⟨table, hfinalize, hroot⟩ := hread.exists_finalize_withLinks hconnects
  have hplant := hread.withLinks links
  exact ⟨_, hfinalize, hplant.entries_settle, hplant.complete hroot⟩

/-- A symbol that is defined twice, the second time inside a block and under a symbol. -/
def definedTwice : Host where
  files.entries := [(["work", "Kconfig"], .file (.text
    ("config A\n\tbool \"a\"\nif A\nconfig B\n\tbool\nconfig A\n\tdefault y\nendif\n" ++
      "comment \"c\"\n")))]

theorem definedTwice_complete : ∃ links w m,
    Reading.readLinks .tokens "Kconfig" (Load.start definedTwice {} 1) = .ok links w ∧
      (w.model.withLinks links).finalize = some m ∧ m.entries = w.model.entries ∧
      m.Complete := by
  obtain ⟨links, w, hfiles⟩ := ok_of_succeeds
    (r := Reading.readLinks .tokens "Kconfig" (Load.start definedTwice {} 1)) (by decide +kernel)
  have hdialect : Load.dialectOf definedTwice 1 = .ok .tokens := rfl
  obtain ⟨m, hfinalize⟩ := @finalize_complete definedTwice {} 1 .tokens hdialect links w hfiles
  exact ⟨links, w, m, hfiles, hfinalize⟩

end Model

/-- Walks go through the whole menu tree of a loaded model. -/
theorem Load.walkable_of_load {host : Host} {options : LoadOptions} {c : Configuration}
    {w : Workspace} (hload : load host options = .ok c w) : w.model.Walkable := by
  obtain ⟨m, ⟨blocks, table, hread, hsettle, hlinked⟩, -⟩ := load_ok hload
  rw [hsettle] at hlinked ⊢
  exact hread.walkable hlinked

end Kconfig
