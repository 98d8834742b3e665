import Kconfig.Proofs.Config.Direct
import Kconfig.Proofs.Menu.Assembly
import Kconfig.Proofs.Model.FirstPlaces
/-!
What a menu shows, and where.

The nodes that are shown are met in the order of the files. Those with an item get one row each, and
the row stands under the item of the node right above, if this one has an item. Else it stands at
the top, also where a node further up has an item: right below a symbol without a type or a choice
that is not `y`, an item leaves the menus around it.
-/
namespace Kconfig
open Plan
open Model (Rows)

variable {m : Model} {v : Valuation} {showsAll : Bool} {n : NodeId} {rows : Rows}

theorem Plan.result_foldlM {α β : Type} (f : β → α → Plan β) : ∀ (xs : List α) (b : β),
    (xs.foldlM f b).result v = xs.foldl (fun b x => (f b x).result v) b
  | [], _ => rfl
  | x :: xs, b => by
    rw [List.foldlM_cons, result_bind, result_foldlM f xs, List.foldl_cons]

namespace Model

/-! ### Nodes that are shown -/

mutual

/-- The nodes of a tree that are shown: its root if it is seen, or a symbol that something is shown
below, and then those below it. -/
def shownIn (m : Model) (v : Valuation) (showsAll : Bool) : Tree → List NodeId
  | .node n children =>
    let below := shownAmong m v showsAll children
    if showsAll || (m.isSeen n).result v || (m.symbolOf? n).isSome && !below.isEmpty then n :: below
    else []

/-- The nodes of trees side by side that are shown. -/
def shownAmong (m : Model) (v : Valuation) (showsAll : Bool) : List Tree → List NodeId
  | [] => []
  | t :: ts => shownIn m v showsAll t ++ shownAmong m v showsAll ts

end

/-- All nodes that are shown. -/
def shown (m : Model) (v : Valuation) (showsAll : Bool) : List NodeId :=
  m.shownAmong v showsAll m.tree

mutual

theorem shownIn_sublist : ∀ t : Tree, (m.shownIn v showsAll t).Sublist t.ids
  | .node n children => by
    rw [shownIn, Tree.ids]
    split
    · exact (shownAmong_sublist children).cons_cons n
    · exact List.nil_sublist _

theorem shownAmong_sublist : ∀ ts : List Tree,
    (m.shownAmong v showsAll ts).Sublist (Tree.forestIds ts)
  | [] => List.nil_sublist _
  | t :: ts => by
    rw [shownAmong, Tree.forestIds]
    exact (shownIn_sublist t).append (shownAmong_sublist ts)

end

/-- What a tree that is shown at some level adds to the menu: its root, and what is shown below,
unless this is shown beside it. -/
def shownAt (m : Model) (v : Valuation) (showsAll : Bool) (t : Tree) : List NodeId :=
  t.id :: if (m.symbolOf? t.id).isNone then m.shownAmong v showsAll t.children else []

theorem shownTree_result (n : NodeId) (children : List Tree) :
    (m.shownTree showsAll (.node n children)).result v =
      if (m.symbolOf? n).isSome && !children.isEmpty then
        if showsAll || (m.isSeen n).result v ||
            !((m.shownForest showsAll children).result v).isEmpty then
          .node n children :: (m.shownForest showsAll children).result v
        else []
      else if showsAll || (m.isSeen n).result v then [.node n children] else [] := by
  rw [shownTree]
  cases showsAll
  · rw [if_neg Bool.false_ne_true, result_bind, result_ite, result_bind]
    rfl
  · rw [if_pos rfl, result_bind, result_ite, result_bind]
    rfl

theorem isEmpty_flatMap_shownAt (ts : List Tree) :
    (ts.flatMap (m.shownAt v showsAll)).isEmpty = ts.isEmpty := by
  cases ts <;> rfl

mutual

theorem flatMap_shownTree : ∀ t : Tree,
    ((m.shownTree showsAll t).result v).flatMap (m.shownAt v showsAll) = m.shownIn v showsAll t
  | .node n children => by
    have hbelow := flatMap_shownForest children
    have hempty : (((m.shownForest showsAll children).result v).flatMap
        (m.shownAt v showsAll)).isEmpty = _ := isEmpty_flatMap_shownAt _
    rw [hbelow] at hempty
    rw [shownTree_result, shownIn, ← hempty]
    generalize (showsAll || (m.isSeen n).result v) = isSeen
    cases hsymbol : (m.symbolOf? n).isSome with
    | false =>
      -- what is below is shown on its own
      have hnone : (m.symbolOf? n).isNone = true := by simpa using hsymbol
      cases isSeen <;> simp [shownAt, Tree.id, Tree.children, hnone]
    | true =>
      have hnone : (m.symbolOf? n).isNone = false := by simpa using hsymbol
      cases hchildren : children.isEmpty with
      | true =>
        obtain rfl := List.isEmpty_iff.mp hchildren
        cases isSeen <;> simp [shownAt, Tree.id, hnone, shownAmong]
      | false =>
        cases hshown : isSeen || !(m.shownAmong v showsAll children).isEmpty <;>
          simp [shownAt, Tree.id, hnone, hbelow, hshown]

/-- What is shown at a level and below adds up to all that is shown. -/
theorem flatMap_shownForest : ∀ ts : List Tree,
    ((m.shownForest showsAll ts).result v).flatMap (m.shownAt v showsAll) =
      m.shownAmong v showsAll ts
  | [] => rfl
  | t :: ts => by
    rw [shownForest, result_bind, result_bind, result_pure, List.flatMap_append,
      flatMap_shownTree t, flatMap_shownForest ts, shownAmong]

end

mutual

theorem length_children_of_shownTree : ∀ (t : Tree), ∀ u ∈ (m.shownTree showsAll t).result v,
    (Tree.forestIds u.children).length < t.ids.length
  | .node n children, u, hu => by
    rw [shownTree_result] at hu
    rw [Tree.ids, List.length_cons]
    have hroot : ∀ u : Tree, u = .node n children →
        (Tree.forestIds u.children).length < (Tree.forestIds children).length + 1 := by
      rintro _ rfl
      exact Nat.lt_succ_self _
    split at hu
    · split at hu
      · rcases List.mem_cons.mp hu with hu | hu
        · exact hroot u hu
        · exact Nat.lt_succ_of_lt (length_children_of_shownForest children u hu)
      · exact absurd hu List.not_mem_nil
    · split at hu
      · exact hroot u (List.mem_singleton.mp hu)
      · exact absurd hu List.not_mem_nil

/-- Trees that are shown at a level have fewer nodes below them than the level has. -/
theorem length_children_of_shownForest : ∀ (ts : List Tree),
    ∀ u ∈ (m.shownForest showsAll ts).result v,
    (Tree.forestIds u.children).length < (Tree.forestIds ts).length
  | [], u, hu => absurd hu List.not_mem_nil
  | t :: ts, u, hu => by
    rw [shownForest, result_bind, result_bind, result_pure] at hu
    rw [Tree.forestIds, List.length_append]
    rcases List.mem_append.mp hu with hu | hu
    · exact Nat.lt_add_right _ (length_children_of_shownTree t u hu)
    · exact Nat.lt_add_left _ (length_children_of_shownForest ts u hu)

end

/-! ### Rows -/

/-- The rows with that of a node, as the answers make it. -/
def withRow (m : Model) (v : Valuation) (rows : Rows) (n : NodeId) : Rows :=
  (m.addRow rows n).result v

/-- Rows are added for the nodes that are shown, one after the other. -/
theorem addRows_result : ∀ {fuel : Nat} {ts : List Tree} {rows : Rows},
    (Tree.forestIds ts).length ≤ fuel →
      (m.addRows showsAll fuel rows ts).result v =
        (m.shownAmong v showsAll ts).foldl (m.withRow v) rows
  | 0, ts, rows, hfuel => by
    have hnone : m.shownAmong v showsAll ts = [] := by
      have hids := List.length_eq_zero_iff.mp (Nat.le_zero.mp hfuel)
      exact List.sublist_nil.mp (hids ▸ shownAmong_sublist ts)
    rw [hnone]
    rfl
  | fuel + 1, ts, rows, hfuel => by
    rw [addRows, result_bind, result_foldlM, ← flatMap_shownForest, List.foldl_flatMap]
    refine List.foldl_ext _ _ _ fun rows t ht => ?_
    have hroom : (Tree.forestIds t.children).length ≤ fuel :=
      Nat.le_of_lt_succ (Nat.lt_of_lt_of_le (length_children_of_shownForest ts t ht) hfuel)
    rw [result_bind, result_ite, addRows_result hroom, result_pure, shownAt, List.foldl_cons]
    cases (m.symbolOf? t.id).isNone with
    | false => rfl
    | true =>
      cases hchildren : t.children <;> rfl

/-- Whether a node has an item when it is shown: it has a prompt, its symbol a type, and its choice
is `y`. -/
def hasItem (m : Model) (v : Valuation) (n : NodeId) : Bool :=
  (m.node n).prompt.isSome && match (m.node n).entry with
    | .menu | .comment => true
    | .choice ch => (v (.level (.choice ch))).value
    | .symbol s => (m.symbol s).type != .unknown
    | .block => false

/-- The row of a node is about the node, and the node has one if it has an item. -/
theorem row_result (n : NodeId) :
    (∀ row, (m.row n).result v = some row → row.node = n) ∧
      ((m.row n).result v).isSome = m.hasItem v n := by
  have hsome : ∀ row : ItemRow, row.node = n →
      ∀ row', some row = some row' → row'.node = n := fun row hrow row' heq =>
    Option.some.inj heq ▸ hrow
  unfold row hasItem
  dsimp only
  cases (m.node n).prompt with
  | none => exact ⟨nofun, rfl⟩
  | some p =>
    rw [Option.isSome_some, Bool.true_and]
    dsimp only
    cases (m.node n).entry with
    | menu | comment => exact ⟨hsome _ rfl, rfl⟩
    | block => exact ⟨nofun, rfl⟩
    | choice ch =>
      dsimp only
      rw [result_bind, result_ite, result_bind, result_level]
      cases (v (.level (.choice ch))).value with
      | true => exact ⟨hsome _ rfl, rfl⟩
      | false => exact ⟨nofun, rfl⟩
    | symbol s =>
      dsimp only
      cases (m.symbol s).type with
      | unknown => exact ⟨nofun, rfl⟩
      | bool | string => exact ⟨hsome _ rfl, rfl⟩
      | int | hex =>
        dsimp only
        rw [result_bind, result_bind]
        exact ⟨hsome _ rfl, rfl⟩

/-- The nodes that have an item, in the order of the files. -/
def menuNodes (m : Model) (v : Valuation) (showsAll : Bool) : List NodeId :=
  (m.shown v showsAll).filter (m.hasItem v)

/-- The node whose item that of a node stands under. -/
def itemAbove (m : Model) (v : Valuation) (showsAll : Bool) (n : NodeId) : Option NodeId :=
  (m.linksOf n).parent.filter (· ∈ m.menuNodes v showsAll)

/-- The row of a node in its place. -/
def placedRow (m : Model) (v : Valuation) (showsAll : Bool) (n : NodeId) :
    Option (Option NodeId × ItemRow) :=
  ((m.row n).result v).map fun row => (m.itemAbove v showsAll n, row)

theorem isSome_placedRow : (m.placedRow v showsAll n).isSome = m.hasItem v n := by
  rw [placedRow, Option.isSome_map, (row_result n).2]

theorem node_of_placedRow {x : Option NodeId × ItemRow} (h : m.placedRow v showsAll n = some x) :
    x.2.node = n := by
  obtain ⟨row, hrow, rfl⟩ := Option.map_eq_some_iff.mp h
  exact (row_result n).1 row hrow

/-- Rows in their places are those of the nodes that have an item. -/
theorem nodes_placedRow (ns : List NodeId) :
    (ns.filterMap (m.placedRow v showsAll)).map (·.2.node) = ns.filter (m.hasItem v) := by
  induction ns with
  | nil => rfl
  | cons n ns ih =>
    have hitem : (m.placedRow v showsAll n).isSome = m.hasItem v n := isSome_placedRow
    rw [List.filter_cons, ← hitem]
    cases hrow : m.placedRow v showsAll n with
    | none => simpa [hrow] using ih
    | some x => simpa [hrow, node_of_placedRow hrow] using ih

/-- A node finds the row of its parent among the rows before it. -/
theorem withRow_placedRow {before : List NodeId}
    (hparent : ∀ p, (m.linksOf n).parent = some p →
      (p ∈ before.filter (m.hasItem v) ↔ p ∈ m.menuNodes v showsAll)) :
    m.withRow v (before.filterMap (m.placedRow v showsAll)) n =
      (before ++ [n]).filterMap (m.placedRow v showsAll) := by
  have hnodes : (before.filterMap (m.placedRow v showsAll)).map (·.2.node) = _ :=
    nodes_placedRow before
  rw [List.filterMap_append, withRow, addRow, result_bind]
  cases hrow : (m.row n).result v with
  | none => simp [placedRow, hrow]
  | some row =>
    have habove : ((m.linksOf n).parent.filter fun p =>
        (before.filterMap (m.placedRow v showsAll)).any fun r => r.2.node == p) =
          m.itemAbove v showsAll n := by
      rw [itemAbove]
      cases hlink : (m.linksOf n).parent with
      | none => rfl
      | some p =>
        have hany : ((before.filterMap (m.placedRow v showsAll)).any fun r => r.2.node == p) =
            decide (p ∈ m.menuNodes v showsAll) := by
          have hbefore := hparent p hlink
          rw [← hnodes, List.mem_map] at hbefore
          rw [Bool.eq_iff_iff, List.any_eq_true, decide_eq_true_iff, ← hbefore]
          simp only [beq_iff_eq]
        rw [Option.filter_some, Option.filter_some, hany]
    have hlast : [n].filterMap (m.placedRow v showsAll) = [(m.itemAbove v showsAll n, row)] := by
      simp [placedRow, hrow]
    rw [hlast, ← habove]
    rfl

/-! ### Where nodes stand -/

/-- The menu nodes are numbered in their order, after the top node. -/
def Ascending (m : Model) : Prop := (0 :: m.order).Pairwise (· < ·)

theorem Ascending.distinct (h : m.Ascending) : m.Distinct := h.imp Nat.ne_of_lt

theorem Read.ascending {blocks : List Tree} {table : Array Links} (h : m.Read blocks) :
    (m.settle blocks table).Ascending := by
  rw [Ascending, h.order_settle]
  refine List.pairwise_cons.mpr ⟨fun n hn => ?_, List.pairwise_lt_range.filter _⟩
  have hpositive := of_decide_eq_true (List.mem_filter.mp hn).2
  exact Nat.pos_of_ne_zero hpositive.1

end Model

namespace Tree
variable {ts : List Tree} {above : List NodeId} {k p : NodeId}

theorem ids_sublist_of_mem {t : Tree} : ∀ {ts : List Tree}, t ∈ ts → t.ids.Sublist (forestIds ts)
  | u :: us, ht => by
    rw [forestIds]
    rcases List.mem_cons.mp ht with rfl | ht
    · exact List.sublist_append_left _ _
    · exact (ids_sublist_of_mem ht).trans (List.sublist_append_right _ _)

/-- What a node stands below comes before it. -/
theorem Stands.sublist (h : Stands ts above n) : ∀ k ∈ above, [k, n].Sublist (forestIds ts) := by
  induction h with
  | root h => exact fun k hk => absurd hk List.not_mem_nil
  | under hmem h ih =>
    intro k hk
    refine List.Sublist.trans ?_ (ids_sublist_of_mem hmem)
    rw [ids]
    rcases List.mem_append.mp hk with hk | hk
    · exact (ih k hk).cons _
    · rw [List.mem_singleton.mp hk]
      exact (List.singleton_sublist.mpr h.mem).cons_cons _

theorem Strung.of_mem {f : NodeId → Links} {after : Option NodeId} {children : List Tree} :
    ∀ {ts : List Tree}, Strung f p after ts → .node k children ∈ ts →
      (f k).parent = some p ∧ Strung f k none children
  | t :: ts, ⟨htree, hforest⟩, hk => by
    rcases List.mem_cons.mp hk with rfl | hk
    · exact ⟨congrArg Links.parent htree.1, htree.2⟩
    · exact hforest.of_mem hk

/-- The parent of a node is the innermost node that it stands below. -/
theorem Strung.parent {f : NodeId → Links} {after : Option NodeId} (hf : Strung f p after ts)
    (h : Stands ts above n) : (f n).parent = some (above.headD p) := by
  induction h generalizing p after with
  | root h => exact (hf.of_mem h).1
  | @under ts k children above n hmem _ ih =>
    rw [ih (hf.of_mem hmem).2]
    cases above <;> rfl

/-- A node stands in one tree only. -/
theorem eq_of_mem_ids {t u : Tree} : ∀ {ts : List Tree}, (forestIds ts).Nodup → t ∈ ts → u ∈ ts →
    n ∈ t.ids → n ∈ u.ids → t = u
  | w :: ws, hnodup, ht, hu, hnt, hnu => by
    rw [forestIds, List.nodup_append] at hnodup
    obtain ⟨-, hws, hdisjoint⟩ := hnodup
    rcases List.mem_cons.mp ht with rfl | htail
    · rcases List.mem_cons.mp hu with rfl | hutail
      · rfl
      · exact absurd rfl (hdisjoint n hnt n (mem_forestIds_of_mem hutail hnu))
    · rcases List.mem_cons.mp hu with rfl | hutail
      · exact absurd rfl (hdisjoint n hnu n (mem_forestIds_of_mem htail hnt))
      · exact eq_of_mem_ids hws htail hutail hnt hnu

end Tree

namespace Model
variable {above : List NodeId}

theorem mem_shownAmong {ts : List Tree} :
    n ∈ m.shownAmong v showsAll ts ↔ ∃ t ∈ ts, n ∈ m.shownIn v showsAll t := by
  induction ts with
  | nil => simp [shownAmong]
  | cons t ts ih => simp [shownAmong, ih]

/-- What a node that is shown stands below is shown too. -/
theorem shown_of_stands {ts : List Tree} (h : Tree.Stands ts above n)
    (hnodup : (Tree.forestIds ts).Nodup) (hn : n ∈ m.shownAmong v showsAll ts) :
    ∀ k ∈ above, k ∈ m.shownAmong v showsAll ts := by
  induction h with
  | root h => exact fun k hk => absurd hk List.not_mem_nil
  | @under ts j children above n hmem h ih =>
    have hchildren : (j :: Tree.forestIds children).Nodup := by
      have hsub := Tree.ids_sublist_of_mem hmem
      rw [Tree.ids] at hsub
      exact hnodup.sublist hsub
    obtain ⟨t, ht, hn⟩ := mem_shownAmong.mp hn
    obtain rfl : t = .node j children := by
      refine Tree.eq_of_mem_ids hnodup ht hmem ((shownIn_sublist t).subset hn) ?_
      rw [Tree.ids]
      exact List.mem_cons_of_mem _ h.mem
    have hsub : ∀ k ∈ m.shownIn v showsAll (.node j children), k ∈ m.shownAmong v showsAll ts :=
      fun k hk => mem_shownAmong.mpr ⟨_, ht, hk⟩
    rw [shownIn] at hn hsub
    split at hn
    · next hshown =>
      rw [if_pos hshown] at hsub
      have hbelow : n ∈ m.shownAmong v showsAll children := by
        refine (List.mem_cons.mp hn).resolve_left fun heq => ?_
        exact (List.nodup_cons.mp hchildren).1 (heq ▸ h.mem)
      intro k hk
      rcases List.mem_append.mp hk with hk | hk
      · exact hsub k (List.mem_cons_of_mem _ (ih (List.nodup_cons.mp hchildren).2 hbelow k hk))
      · exact hsub k (List.mem_singleton.mp hk ▸ List.mem_cons_self ..)
    · exact absurd hn List.not_mem_nil

theorem shown_sublist_order : (m.shown v showsAll).Sublist m.order := shownAmong_sublist m.tree

/-- A row in the menu is that of a node that is shown, in its place. -/
theorem of_mem_rows {x : Option NodeId × ItemRow}
    (hx : x ∈ (m.shown v showsAll).filterMap (m.placedRow v showsAll)) :
    x.2.node ∈ m.shown v showsAll ∧ x.1 = m.itemAbove v showsAll x.2.node ∧
      (m.row x.2.node).result v = some x.2 := by
  obtain ⟨n, hn, hplaced⟩ := List.mem_filterMap.mp hx
  have hnode := node_of_placedRow hplaced
  obtain ⟨row, hrow, rfl⟩ := Option.map_eq_some_iff.mp hplaced
  rw [hnode]
  exact ⟨hn, rfl, hrow⟩

theorem parent_of_stands (hlinked : m.Linked) (h : Tree.Stands m.tree above n) :
    (m.linksOf n).parent = some (above.headD 0) := hlinked.chain.strung.parent h

section Ascending
variable (hm : m.Ascending) (hlinked : m.Linked)
include hm

theorem pairwise_shown : (m.shown v showsAll).Pairwise (· < ·) :=
  (List.pairwise_cons.mp hm).2.sublist shown_sublist_order

theorem nodup_menuNodes : (m.menuNodes v showsAll).Nodup :=
  ((pairwise_shown hm).imp Nat.ne_of_lt).filter _

include hlinked

theorem parent_lt {p : NodeId} (hn : n ∈ m.order) (hp : (m.linksOf n).parent = some p) :
    p < n := by
  obtain ⟨hpositive, hordered⟩ := List.pairwise_cons.mp hm
  obtain ⟨above, habove⟩ := Tree.forestIds_stand m.tree hn
  rw [parent_of_stands hlinked habove] at hp
  obtain rfl := Option.some.inj hp
  cases above with
  | nil => exact hpositive n hn
  | cons k above =>
    have hpair := hordered.sublist (habove.sublist k (List.mem_cons_self ..))
    exact (List.pairwise_cons.mp hpair).1 n (List.mem_cons_self ..)

/-- After some nodes that are shown, the rows of the others follow in their places. -/
theorem foldl_withRow : ∀ {ns before : List NodeId}, m.shown v showsAll = before ++ ns →
    ns.foldl (m.withRow v) (before.filterMap (m.placedRow v showsAll)) =
      (m.shown v showsAll).filterMap (m.placedRow v showsAll)
  | [], before, hshown => by rw [hshown, List.append_nil, List.foldl_nil]
  | n :: ns, before, hshown => by
    have hmem : n ∈ m.shown v showsAll := hshown ▸ List.mem_append_right _ (List.mem_cons_self ..)
    have hordered : (before ++ n :: ns).Pairwise (· < ·) := hshown ▸ pairwise_shown hm
    rw [List.foldl_cons, withRow_placedRow fun p hp => ?_, foldl_withRow (by rw [hshown]; simp)]
    -- the parent comes before the node, so its row is there if it has one
    have hlt := parent_lt hm hlinked (shown_sublist_order.subset hmem) hp
    rw [menuNodes, hshown, List.filter_append, List.mem_append, iff_self_or, List.mem_filter]
    intro hlater
    obtain ⟨-, hlater', -⟩ := List.pairwise_append.mp hordered
    rcases List.mem_cons.mp hlater.1 with rfl | hp
    · exact absurd hlt (Nat.lt_irrefl _)
    · exact absurd hlt (Nat.lt_asymm ((List.pairwise_cons.mp hlater').1 p hp))

/-- The rows are those of the nodes that are shown, in their places. -/
theorem rows_result (hsize : m.order.length ≤ m.nodes.size) : (m.rows showsAll).result v =
    (m.shown v showsAll).filterMap (m.placedRow v showsAll) := by
  have hall : m.shown v showsAll = [] ++ m.shown v showsAll := rfl
  rw [rows, addRows_result hsize]
  exact foldl_withRow hm hlinked hall

/-- They stand under rows before them. -/
theorem rising_rows :
    Rows.Rising ((m.shown v showsAll).filterMap (m.placedRow v showsAll)) := by
  refine ⟨?_, fun x hx p hp => ?_, fun x hx p hp => ?_⟩
  · rw [nodes_placedRow]
    exact nodup_menuNodes hm
  · obtain ⟨hn, habove, -⟩ := of_mem_rows hx
    rw [habove] at hp
    exact parent_lt hm hlinked (shown_sublist_order.subset hn) (Option.filter_eq_some_iff.mp hp).1
  · rw [(of_mem_rows hx).2.1] at hp
    have hitem := of_decide_eq_true (Option.filter_eq_some_iff.mp hp).2
    rw [menuNodes, ← nodes_placedRow] at hitem
    exact List.mem_map.mp hitem

end Ascending

/-! ### The menu -/

/-- The node right above has no item, but one further up has. -/
def Skips (m : Model) (v : Valuation) (showsAll : Bool) (above : List NodeId) : Prop :=
  (∃ k ∈ above, k ∈ m.menuNodes v showsAll) ∧ ∀ k, above.head? = some k → k ∉ m.menuNodes v showsAll

/-- The item right above is the nearest one, unless one is skipped. -/
theorem filter_head?_eq_find? (above : List NodeId) :
    above.head?.filter (· ∈ m.menuNodes v showsAll) = above.find? (· ∈ m.menuNodes v showsAll) ↔
      ¬ m.Skips v showsAll above := by
  cases above with
  | nil => exact iff_of_true rfl fun ⟨⟨k, hk, _⟩, _⟩ => absurd hk List.not_mem_nil
  | cons k above =>
    rw [List.head?_cons, Option.filter_some, List.find?_cons]
    by_cases hk : k ∈ m.menuNodes v showsAll
    · rw [decide_eq_true hk]
      exact iff_of_true rfl fun ⟨_, hno⟩ => hno k rfl hk
    · rw [decide_eq_false hk, if_neg Bool.false_ne_true, eq_comm, List.find?_eq_none]
      refine ⟨fun hnone ⟨⟨j, hj, hitem⟩, _⟩ => ?_, fun hskips j hj hitem => ?_⟩
      · rcases List.mem_cons.mp hj with rfl | hj
        · exact hk hitem
        · exact hnone j hj (decide_eq_true hitem)
      · refine hskips ⟨⟨j, List.mem_cons_of_mem _ hj, of_decide_eq_true hitem⟩, fun i hi => ?_⟩
        exact Option.some.inj hi ▸ hk

/-- A menu has the items that it should have, where they stand. -/
structure Arranges (m : Model) (v : Valuation) (showsAll : Bool) (menu : List MenuItem) : Prop where
  /-- The nodes that are shown and have an item have it once, and no others have one. -/
  nodes : ((MenuItem.placedAll none menu).map (·.2.node)).Perm (m.menuNodes v showsAll)
  nodup : (m.menuNodes v showsAll).Nodup
  row : ∀ x ∈ MenuItem.placedAll none menu, (m.row x.2.node).result v = some x.2
  /-- Side by side items stand in the order of their nodes. -/
  ordered : ∀ under,
    (((MenuItem.placedAll none menu).filter (·.1 == under)).map (·.2.node)).Pairwise (· < ·)
  above : ∀ n ∈ m.menuNodes v showsAll, (∃ above, Tree.Stands m.tree above n) ∧
    ∀ above, Tree.Stands m.tree above n → ∀ k ∈ above, k ∈ m.shown v showsAll
  /-- An item stands under that of the node right above, and else at the top. -/
  parent : ∀ x ∈ MenuItem.placedAll none menu, ∀ above, Tree.Stands m.tree above x.2.node →
    x.1 = above.head?.filter (· ∈ m.menuNodes v showsAll)
  /-- This is the nearest item above, unless one is skipped. -/
  nearest : ∀ x ∈ MenuItem.placedAll none menu, ∀ above, Tree.Stands m.tree above x.2.node →
    (x.1 = above.find? (· ∈ m.menuNodes v showsAll) ↔ ¬ m.Skips v showsAll above)

theorem arranges_ofRows (hm : m.Ascending) (hlinked : m.Linked) : m.Arranges v showsAll
    (MenuItem.ofRows ((m.shown v showsAll).filterMap (m.placedRow v showsAll))) := by
  have hrising : Rows.Rising ((m.shown v showsAll).filterMap (m.placedRow v showsAll)) :=
    rising_rows hm hlinked
  have hrow := MenuItem.mem_rows_of_placed hrising
  have hperm := MenuItem.nodes_placed hrising
  rw [nodes_placedRow] at hperm
  have hparent : ∀ x ∈ (m.shown v showsAll).filterMap (m.placedRow v showsAll),
      ∀ above, Tree.Stands m.tree above x.2.node →
        x.1 = above.head?.filter (· ∈ m.menuNodes v showsAll) := by
    intro x hx above habove
    rw [(of_mem_rows hx).2.1, itemAbove, parent_of_stands hlinked habove]
    cases above with
    | cons k above => rfl
    | nil =>
      -- the top node has no item
      have htop : 0 ∉ m.menuNodes v showsAll := fun hmem =>
        (List.nodup_cons.mp hm.distinct).1
          (shown_sublist_order.subset (List.mem_of_mem_filter hmem))
      exact if_neg (by simpa using htop)
  refine ⟨hperm, nodup_menuNodes hm, fun x hx => (of_mem_rows (hrow x hx)).2.2, fun under => ?_,
    fun n hn => ?_, fun x hx => hparent x (hrow x hx), fun x hx above habove => ?_⟩
  case refine_1 =>
    rw [MenuItem.filter_placed hrising]
    have hordered : (m.menuNodes v showsAll).Pairwise (· < ·) := (pairwise_shown hm).filter _
    rw [menuNodes, ← nodes_placedRow] at hordered
    exact hordered.sublist (List.filter_sublist.map _)
  case refine_2 =>
    have hshown := List.mem_of_mem_filter hn
    exact ⟨Tree.forestIds_stand m.tree (shown_sublist_order.subset hshown), fun above habove =>
      shown_of_stands habove (List.nodup_cons.mp hm.distinct).2 hshown⟩
  case refine_3 =>
    rw [hparent x (hrow x hx) above habove]
    exact filter_head?_eq_find? above

end Model

/-- The menu after any history. Where reading comes to an end, the menu is built, from the rows of
the nodes that are shown and have an item. It has each of these once, in the order of their nodes
side by side, and under the item of the node right above or else at the top; this is the nearest
item above unless the node right above has none while one further up has. In JSON what is under a
choice is its options, and what is under another item its children. -/
theorem menu_after_acts {host : Host} {options : LoadOptions} {c : Configuration} {w : Workspace}
    (hload : Load.load host options = .ok c w) (acts : List Act)
    (hanswering : (c.after acts).Answering) :
    (∃ v, (c.after acts).Says v ∧ ∀ showsAll,
      Ends (Configuring.follow (w.model.rows showsAll)) (c.after acts) fun rows _ =>
        rows.map (·.2.node) = w.model.menuNodes v showsAll ∧
          w.model.Arranges v showsAll (MenuItem.ofRows rows)) ∧
    ∀ row below, (MenuItem.mk row below).toJson.field? "children" =
        some (.arr (if row.kind = .choice then [] else below.map MenuItem.toJson)) ∧
      (MenuItem.mk row below).toJson.field? "options" =
        if row.kind = .choice then some (.arr (below.map MenuItem.toJson)) else none := by
  obtain ⟨v, hsaid, -⟩ := hanswering.exists_saying
  obtain ⟨m, ⟨blocks, table, hread, hsettle, hlinked⟩, -⟩ := Load.load_ok hload
  have hascending : w.model.Ascending := hsettle ▸ hread.ascending
  have hsize : w.model.order.length ≤ w.model.nodes.size := by
    rw [hsettle, hread.order_settle]
    exact Nat.le_trans (List.length_filter_le _ _) (Nat.le_of_eq List.length_range)
  refine ⟨⟨v, hsaid, fun showsAll => ?_⟩, MenuItem.field?_toJson⟩
  refine (hsaid.ends_follow _).mono fun rows _ hrows => ?_
  rw [hrows, Model.rows_result hascending hlinked hsize]
  exact ⟨Model.nodes_placedRow _, Model.arranges_ofRows hascending hlinked⟩

/-- A menu with a symbol that has no type, and a symbol below this one. -/
def untypedInMenu : Host where
  files.entries := [(["work", "Kconfig"], .file (.text
    "menu \"m\"\nconfig U\n\tprompt \"u\"\nconfig C\n\tbool \"c\"\n\tdepends on U != n\nendmenu\n"))]

/-- The symbol stands at the top, beside the menu that it is in. -/
theorem untypedInMenu_arranged : ∃ c w v, Load.load untypedInMenu {} = .ok c w ∧
    let later := c.after [.setSymbol 3 (.number 2)]
    later.Answering ∧ later.Says v ∧
    Ends (Configuring.follow (w.model.rows false)) later (fun rows _ =>
      rows.map (fun x => (x.1, x.2.node)) = [(none, 1), (none, 3)] ∧
        w.model.Arranges v false (MenuItem.ofRows rows)) ∧
    Tree.Stands w.model.tree [2, 1] 3 ∧ w.model.Skips v false [2, 1] := by
  have hchecked : passes (fun c w =>
      decide (w.model.choices.size = 0) &&
      decide ((w.model.tree.map fun t => (t.id, t.children.map fun t =>
        (t.id, t.children.map Tree.id))) = [(1, [(2, [3])])]) &&
      passes (fun rows _ => rows.map (fun x => (x.1, x.2.node)) == [(none, 1), (none, 3)])
        (Configuring.follow (w.model.rows false) (c.after [.setSymbol 3 (.number 2)])))
      (Load.load untypedInMenu {}) = true := by decide +kernel
  obtain ⟨c, w, hload, hchecked⟩ := ok_of_passes hchecked
  simp only [Bool.and_eq_true] at hchecked
  obtain ⟨⟨hno, htree⟩, hrows⟩ := hchecked
  have hanswering := Load.answering_of_no_choices hload (of_decide_eq_true hno)
    [.setSymbol 3 (.number 2)]
  obtain ⟨⟨v, hsaid, hmenu⟩, -⟩ := menu_after_acts hload _ hanswering
  obtain ⟨rows, c', hfollow, hnodes, harranges⟩ := hmenu false
  rw [hfollow] at hrows
  have hplaces : rows.map (fun x => (x.1, x.2.node)) = [(none, 1), (none, 3)] := eq_of_beq hrows
  have hstands : Tree.Stands w.model.tree [2, 1] 3 := by
    obtain ⟨⟨_, children⟩, htree, hmenu⟩ := List.map_eq_singleton_iff.mp (of_decide_eq_true htree)
    obtain ⟨rfl, hmenu⟩ := Prod.mk.inj hmenu
    obtain ⟨⟨_, children⟩, rfl, hsymbol⟩ := List.map_eq_singleton_iff.mp hmenu
    obtain ⟨rfl, hsymbol⟩ := Prod.mk.inj hsymbol
    obtain ⟨⟨_, children⟩, rfl, rfl⟩ := List.map_eq_singleton_iff.mp hsymbol
    rw [htree]
    have hmem : ∀ t : Tree, t ∈ [t] := fun t => List.mem_singleton_self t
    show Tree.Stands _ (([] ++ [2]) ++ [1]) 3
    exact .under (hmem _) (.under (hmem _) (.root (hmem _)))
  have hmenuNodes : w.model.menuNodes v false = [1, 3] := by
    have hsnd := congrArg (List.map Prod.snd) hplaces
    rw [List.map_map] at hsnd
    exact hnodes.symm.trans hsnd
  refine ⟨c, w, v, hload, hanswering, hsaid, ⟨rows, c', hfollow, hplaces, harranges⟩, hstands, ?_⟩
  unfold Model.Skips
  rw [hmenuNodes]
  decide

end Kconfig
