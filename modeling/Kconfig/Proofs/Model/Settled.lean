import Kconfig.Proofs.Model.Finalized
import Kconfig.Proofs.Model.Grown
/-!
Settled models.

Finalizing what was read ends, and gives a settled model: its nodes are the raw ones with what they
inherit, its symbols the raw ones with what they have from the nodes, and its tree the outline of the
blocks, which its links lead through. From that a settled model is sound: what was known of items and
nodes while reading is still so, and what stands inside a choice has the choice in its condition.
-/
namespace Kconfig

namespace Expr
variable {c : ChoiceId} {a b : Expr}

/-- The expression never holds, or has the choice in it. -/
def Needs (c : ChoiceId) (e : Expr) : Prop := e = .no ∨ .choice c ∈ e.items

theorem needs_conj_right (h : b.Needs c) : (a.conj b).Needs c := by
  unfold conj
  split
  · exact h
  · split
    · next hb =>
      subst hb
      rcases h with h | h
      · exact nomatch h
      · simp [items] at h
    · split
      · exact .inl rfl
      · next hno =>
        rcases h with h | h
        · exact absurd (.inr h) hno
        · exact .inr (List.mem_append_right _ h)

theorem needs_choice (c : ChoiceId) : (Expr.item (.choice c)).Needs c :=
  .inr (List.mem_singleton_self _)

theorem fromSymbols_symbol (s : SymbolId) : (symbol s).FromSymbols := by
  intro d hd
  obtain rfl := List.mem_singleton.mp hd
  exact ⟨s, rfl⟩

/-- A symbol with a condition is one operand that starts with the symbol, unless it is `y`. -/
theorem fromSymbols_conj {s : SymbolId} (hs : s ≠ yesId) (cond : Expr) :
    ((symbol s).conj cond).FromSymbols := by
  unfold conj
  rw [if_neg fun h => hs (Item.symbol.inj (Expr.item.inj h))]
  split
  · exact fromSymbols_symbol s
  · split
    · exact fromSymbols_symbol noId
    · intro d hd
      obtain rfl := List.mem_singleton.mp hd
      exact ⟨s, rfl⟩

theorem fromSymbols_disj (ha : a.FromSymbols) (hb : b.FromSymbols) :
    (a.disj b).FromSymbols := by
  unfold disj
  split
  · exact hb
  · split
    · exact ha
    · split
      · exact fromSymbols_symbol yesId
      · exact fun d hd => (List.mem_append.mp hd).elim (ha d) (hb d)

end Expr

namespace Model
variable {m : Model} {blocks : List Tree} {table : Array Links} {n : NodeId}

theorem mem_firstOccurrences {α : Type} [BEq α] [LawfulBEq α] {x : α} {xs : List α} (h : x ∈ xs) :
    x ∈ firstOccurrences xs := by
  refine List.mem_reverse.mpr (Lists.foldl_reaches (fun _ => True) (x ∈ ·) (fun _ _ _ => trivial)
    (fun seen y hx => ?_) (fun seen _ => ?_) xs trivial h)
  · split
    · exact hx
    · exact List.mem_cons_of_mem _ hx
  · split
    · next hseen => exact List.contains_iff_mem.mp hseen
    · exact List.mem_cons_self ..

theorem mem_of_firstOccurrences {α : Type} [BEq α] {x : α} {xs : List α}
    (h : x ∈ firstOccurrences xs) : x ∈ xs := by
  refine List.foldlRecOn (motive := fun seen : List α => ∀ y ∈ seen, y ∈ xs) xs _
    (fun _ hy => absurd hy List.not_mem_nil) (fun seen hseen y hy z hz => ?_) x
    (List.mem_reverse.mp h)
  split at hz
  · exact hseen z hz
  · rcases List.mem_cons.mp hz with rfl | hz
    · exact hy
    · exact hseen z hz

theorem nodup_firstOccurrences {α : Type} [BEq α] [LawfulBEq α] (xs : List α) :
    (firstOccurrences xs).Nodup := by
  refine (List.reverse_perm _).nodup_iff.mpr <| List.foldlRecOn (motive := List.Nodup) xs _
    List.nodup_nil fun seen hseen x _ => ?_
  split
  · exact hseen
  · next hnew =>
    exact List.nodup_cons.mpr ⟨fun hmem => hnew (List.contains_iff_mem.mpr hmem), hseen⟩

/-- A raw model and its blocks: every node but the top one stands in them once, in order, and none
below a symbol. -/
structure Read (m : Model) (blocks : List Tree) : Prop where
  raw : m.Raw
  ids : Tree.forestIds blocks = List.range' 1 (m.nodes.size - 1)
  leaves : m.LeafSymbols (Tree.forestParents blocks)

/-- What the top node gives to the nodes below it. -/
abbrev top (m : Model) : Surroundings := (m.node 0).inside {}

/-- The model whose nodes have inherited. -/
abbrev inherited (m : Model) (blocks : List Tree) : Model := m.inheritForest m.top blocks

namespace Read

theorem nodup (h : m.Read blocks) : (Tree.forestIds blocks).Nodup := by
  rw [h.ids]
  exact List.nodup_range'

theorem lt (h : m.Read blocks) (hn : n ∈ Tree.forestIds blocks) : n < m.nodes.size := by
  have hlt : ∀ k size : Nat, 1 ≤ k ∧ k < 1 + (size - 1) → k < size := by omega
  rw [h.ids, List.mem_range'_1] at hn
  exact hlt n _ hn

theorem pos (h : m.Read blocks) (hn : n ∈ Tree.forestIds blocks) : 0 < n := by
  rw [h.ids, List.mem_range'_1] at hn
  exact hn.1

theorem node_inherited (h : m.Read blocks) {above : List NodeId}
    (hn : Tree.Stands blocks above n) :
    (m.inherited blocks).node n = (m.node n).inherit (m.around m.top above) :=
  node_inheritForest blocks m m.top h.nodup (fun _ hk => h.lt hk) hn

theorem node_inherited_zero (h : m.Read blocks) : (m.inherited blocks).node 0 = m.node 0 :=
  node_inheritForest_of_not_mem m m.top blocks fun hmem => Nat.lt_irrefl 0 (h.pos hmem)

end Read

theorem inherits_inherited (m : Model) (blocks : List Tree) : m.Inherits (m.inherited blocks) :=
  inherits_inheritForest m m.top blocks

/-- The entries say which node is about what, also after inheriting. -/
theorem entry_inherited (h : m.Read blocks) (n : NodeId) :
    ((m.inherited blocks).node n).entry = (m.node n).entry := by
  by_cases hn : n ∈ Tree.forestIds blocks
  · obtain ⟨above, hstands⟩ := Tree.forestIds_stand blocks hn
    rw [h.node_inherited hstands, entry_inherit]
  · rw [inherited, node_inheritForest_of_not_mem _ _ _ hn]

/-- The inherited model with its tree and links. -/
abbrev outlined (m : Model) (blocks : List Tree) (table : Array Links) : Model :=
  { m.inherited blocks with tree := (m.inherited blocks).outline blocks, table }

/-- The outlined model, whose symbols have what they have from the nodes. -/
def filled (m : Model) (blocks : List Tree) (table : Array Links) : Model :=
  (List.range m.nodes.size).foldl addToSymbol (m.outlined blocks table)

theorem settle_eq (m : Model) (blocks : List Tree) (table : Array Links) :
    m.settle blocks table =
      (m.filled blocks table).fillChoicesForest ((m.inherited blocks).outline blocks) := by
  rw [filled, ← (inherits_inherited m blocks).size]
  rfl

theorem gathers_filled (m : Model) (blocks : List Tree) (table : Array Links) :
    (m.outlined blocks table).Gathers (m.filled blocks table) := gathers_foldl_addToSymbol _ _

theorem entries_filled (m : Model) (blocks : List Tree) (table : Array Links) :
    (m.filled blocks table).entries = m.entries := by
  have hentries : (m.filled blocks table).entries = (m.inherited blocks).entries := by
    rw [entries, (gathers_filled m blocks table).rest]
    rfl
  exact hentries.trans (inherits_inherited m blocks).entries

namespace Read

/-- Symbols with what they have from the nodes. -/
theorem symbol_filled (s : SymbolId) (hs : s < m.symbols.size) :
    (m.filled blocks table).symbol s =
      (m.inherited blocks).gathered s (List.range m.nodes.size) (m.symbol s) := by
  have hsymbols : (m.inherited blocks).symbols = m.symbols := by
    rw [(inherits_inherited m blocks).rest]
  have hsize : s < (m.outlined blocks table).symbols.size := hsymbols ▸ hs
  rw [filled, symbol_foldl_addToSymbol _ hsize,
    gathered_congr (m := m.inherited blocks) rfl]
  exact congrArg (gathered _ s _) (congrArg (fun syms => syms[s]?.getD default) hsymbols)

theorem choices_filled (m : Model) (blocks : List Tree) (table : Array Links) :
    (m.filled blocks table).choices = m.choices := by
  rw [(gathers_filled m blocks table).rest, outlined, (inherits_inherited m blocks).rest]

/-- Choices have no members before they are filled. -/
theorem members_filled (h : m.Read blocks) (c : ChoiceId) :
    ((m.filled blocks table).choice c).members = [] := by
  have hmembers : ((m.filled blocks table).choice c).members = (m.choice c).members :=
    congrArg (fun chs => (chs[c]?.getD default).members) (choices_filled m blocks table)
  rw [hmembers, (h.raw.bareChoice c).members]

theorem joins (h : m.Read blocks) : (m.filled blocks table).Joins (m.settle blocks table) := by
  have hentries := entries_filled m blocks table
  rw [settle_eq]
  refine .of_fillChoicesForest _ (fun c hc => ?_) (fun c s hs => ?_) fun n hn => ?_
  · rw [hentries] at hc
    rw [choices_filled]
    exact h.raw.choiceEntry c hc
  · rw [h.members_filled] at hs
    exact absurd hs List.not_mem_nil
  · rw [hentries, length_entries]
    exact h.lt (mem_forestIds_of_outline hn)

theorem entries_settle (h : m.Read blocks) : (m.settle blocks table).entries = m.entries :=
  h.joins.entries.trans (entries_filled m blocks table)

theorem nodes_settle (h : m.Read blocks) :
    (m.settle blocks table).nodes = (m.inherited blocks).nodes := by
  rw [h.joins.rest, (gathers_filled m blocks table).rest]

theorem tree_settle (h : m.Read blocks) :
    (m.settle blocks table).tree = (m.inherited blocks).outline blocks := by
  rw [h.joins.rest, (gathers_filled m blocks table).rest]

theorem table_settle (h : m.Read blocks) : (m.settle blocks table).table = table := by
  rw [h.joins.rest, (gathers_filled m blocks table).rest]

theorem linksOf_settle (h : m.Read blocks) {m' : Model} (n : NodeId) :
    (m.settle blocks m'.table).linksOf n = m'.linksOf n := by
  rw [linksOf, linksOf, h.table_settle]

theorem node_settle (h : m.Read blocks) (n : NodeId) :
    (m.settle blocks table).node n = (m.inherited blocks).node n :=
  congrArg (fun nodes => nodes[n]?.getD default) h.nodes_settle

theorem size_settle (h : m.Read blocks) :
    (m.settle blocks table).symbols.size = m.symbols.size := by
  rw [h.joins.symbols, (gathers_filled m blocks table).size, outlined,
    (inherits_inherited m blocks).rest]

theorem known_settle (h : m.Read blocks) : (m.settle blocks table).known = m.known := by
  rw [h.joins.rest, (gathers_filled m blocks table).rest, outlined,
    (inherits_inherited m blocks).rest]

/-- A settled symbol is the raw one with what it has from the nodes, its choice, and its type. -/
theorem symbol_settle (h : m.Read blocks) {s : SymbolId} (hs : s < m.symbols.size) :
    (m.settle blocks table).symbol s =
      { (m.inherited blocks).gathered s (List.range m.nodes.size) (m.symbol s) with
        choice := ((m.settle blocks table).symbol s).choice
        type := ((m.settle blocks table).symbol s).type } := by
  rw [h.joins.symbol s, symbol_filled s hs]

theorem symbol_filled_of_le (h : m.Read blocks) {s : SymbolId} (hs : m.symbols.size ≤ s) :
    (m.filled blocks table).symbol s = m.symbol s := by
  have hsize : (m.filled blocks table).symbols.size = m.symbols.size :=
    h.joins.symbols.symm.trans h.size_settle
  rw [symbol_of_size_le hs, symbol_of_size_le (hsize ▸ hs)]

/-- What a symbol is called and where its nodes are stays. -/
theorem names_settle (h : m.Read blocks) (s : SymbolId) :
    ((m.settle blocks table).symbol s).name = (m.symbol s).name ∧
      ((m.settle blocks table).symbol s).isConstant = (m.symbol s).isConstant ∧
      ((m.settle blocks table).symbol s).nodes = (m.symbol s).nodes := by
  rw [h.joins.symbol s]
  by_cases hs : s < m.symbols.size
  · rw [symbol_filled s hs]
    exact ⟨rfl, rfl, rfl⟩
  · rw [h.symbol_filled_of_le (Nat.le_of_not_lt hs)]
    exact ⟨rfl, rfl, rfl⟩

theorem nodes_choice_settle (h : m.Read blocks) (c : ChoiceId) :
    ((m.settle blocks table).choice c).nodes = (m.choice c).nodes := by
  rw [(h.joins.choice c).2]
  exact congrArg (fun chs => (chs[c]?.getD default).nodes) (choices_filled m blocks table)

/-- Symbols without a node keep the type that they had. -/
theorem type_settle (h : m.Read blocks) {s : SymbolId} (hs : .symbol s ∉ m.entries) :
    ((m.settle blocks table).symbol s).type = (m.symbol s).type := by
  have hfilled : ((m.filled blocks table).symbol s).type = (m.symbol s).type := by
    by_cases hlt : s < m.symbols.size
    · rw [symbol_filled s hlt]
      rfl
    · rw [h.symbol_filled_of_le (Nat.le_of_not_lt hlt)]
  rcases h.joins.typed s with heq | hmem
  · exact heq.trans hfilled
  · exact absurd (entries_filled m blocks table ▸ hmem) hs

/-- A symbol has nodes if some node is about it. -/
theorem nodes_settle_eq_nil (h : m.Read blocks) (s : SymbolId) :
    ((m.settle blocks table).symbol s).nodes = [] ↔ .symbol s ∉ m.entries := by
  rw [(h.names_settle s).2.2, h.raw.symbolNodes s]
  exact placesIn_eq_nil

theorem dep_inherit (outer : Surroundings) (node : MenuNode) :
    (node.inherit outer).dep = node.dep.conj outer.dep := by
  unfold MenuNode.inherit
  dsimp only
  split <;> rfl

/-- What stands inside a choice inherits a condition with the choice in it. -/
theorem needs_around {c : ChoiceId} (outer : Surroundings) :
    ∀ above : List NodeId, (m.choicesIn above).head? = some c →
      (m.around outer above).dep.Needs c
  | [], hc => nomatch hc
  | k :: above, hc => by
    unfold around MenuNode.inside
    dsimp only
    rw [entry_inherit]
    unfold choicesIn at hc
    cases hentry : (m.node k).entry with
    | choice d =>
      rw [List.filterMap_cons, hentry] at hc
      obtain rfl := Option.some.inj hc
      exact Expr.needs_choice d
    | _ =>
      rw [List.filterMap_cons, hentry] at hc
      dsimp only
      rw [dep_inherit]
      exact Expr.needs_conj_right (needs_around outer above hc)

/-- What a node inherits goes into the condition of its prompt. -/
theorem needs_prompt {c : ChoiceId} {outer : Surroundings} (houter : outer.dep.Needs c)
    {node : MenuNode} {p : Prompt} (hp : (node.inherit outer).prompt = some p) : p.cond.Needs c := by
  have hdep : (node.dep.conj outer.dep).Needs c := Expr.needs_conj_right houter
  unfold MenuNode.inherit at hp
  dsimp only at hp
  split at hp
  all_goals
    obtain ⟨own, -, rfl⟩ := Option.map_eq_some_iff.mp hp
  · exact Expr.needs_conj_right (Expr.needs_conj_right hdep)
  · exact Expr.needs_conj_right (Expr.needs_conj_right hdep)
  · exact Expr.needs_conj_right hdep
  · exact Expr.needs_conj_right hdep
  · exact Expr.needs_conj_right hdep

theorem choicesIn_inherited (h : m.Read blocks) (ns : List NodeId) :
    (m.inherited blocks).choicesIn ns = m.choicesIn ns := by
  simp only [choicesIn, entry_inherited h]

/-- The parent of a node that stands inside a choice is not the top node. -/
theorem entry_zero (h : m.Read blocks) : (m.node 0).entry = .menu := by
  have htop := h.raw.top
  rw [List.head?_eq_getElem?, entry_of_lt] at htop
  · exact Option.some.inj htop
  · refine Nat.pos_of_ne_zero fun hzero => ?_
    rw [List.length_eq_zero_iff.mp hzero] at htop
    exact nomatch htop

theorem untitledBlocks (h : m.Read blocks) : (m.inherited blocks).UntitledBlocks := by
  intro n hblock
  have hentry : (m.node n).entry = .block := by
    rw [← entry_inherited h]
    exact of_decide_eq_true hblock
  have hprompt := h.raw.untitled n hentry
  by_cases hn : n ∈ Tree.forestIds blocks
  · obtain ⟨above, hstands⟩ := Tree.forestIds_stand blocks hn
    rw [h.node_inherited hstands, MenuNode.inherit, hentry, hprompt]
    rfl
  · rw [inherited, node_inheritForest_of_not_mem _ _ _ hn, hprompt]

theorem leafSymbols_inherited (h : m.Read blocks) :
    (m.inherited blocks).LeafSymbols (Tree.forestParents blocks) := by
  intro n hn
  rw [symbolOf?, entry_inherited h]
  exact h.leaves n hn

theorem size_pos (h : m.Read blocks) : 0 < m.nodes.size := by
  refine Nat.pos_of_ne_zero fun hzero => ?_
  have htop := h.raw.top
  rw [List.length_eq_zero_iff.mp ((length_entries m).trans hzero)] at htop
  exact nomatch htop

/-- The numbers of the nodes, the top node first. -/
theorem zero_cons_ids (h : m.Read blocks) :
    0 :: Tree.forestIds blocks = List.range m.nodes.size := by
  obtain ⟨size, hsize⟩ := Nat.exists_eq_succ_of_ne_zero (Nat.ne_of_gt h.size_pos)
  rw [h.ids, hsize, Nat.add_one_sub_one, List.range_eq_range', List.range'_succ]

/-- A node with a prompt stands in the menu tree, the top node excepted. -/
theorem mem_tree_of_prompt (h : m.Read blocks) {p : Prompt} (hzero : n ≠ 0)
    (hp : ((m.settle blocks table).node n).prompt = some p) :
    n ∈ Tree.forestIds (m.settle blocks table).tree := by
  rw [h.node_settle] at hp
  have hlt : n < m.nodes.size := by
    refine Nat.lt_of_not_le fun hle => ?_
    rw [node, Array.getElem?_eq_none ((inherits_inherited m blocks).size ▸ hle)] at hp
    cases hp
  have hmem : n ∈ Tree.forestIds blocks := by
    have hrange := List.mem_range.mpr hlt
    rw [← h.zero_cons_ids] at hrange
    exact (List.mem_cons.mp hrange).resolve_left hzero
  rw [h.tree_settle, forestIds_outline h.untitledBlocks h.leafSymbols_inherited]
  refine List.mem_filter.mpr ⟨hmem, ?_⟩
  cases hblock : (m.inherited blocks).isBlock n with
  | false => rfl
  | true =>
    rw [h.untitledBlocks n hblock] at hp
    cases hp

/-- What is below a choice in the menu tree has it for the innermost choice around it. -/
theorem stands_inside (h : m.Read blocks)
    (hroot : (m.settle blocks table).Linked) {c : ChoiceId}
    (hn : n ∈ Tree.forestIds (m.settle blocks table).tree)
    (hparent : (((m.settle blocks table).linksOf n).parent.map fun n => ((m.settle blocks table).node n).entry) =
      some (.choice c)) :
    ∃ above, Tree.Stands blocks above n ∧ (m.choicesIn above).head? = some c := by
  obtain ⟨k, hk, hentry⟩ := Option.map_eq_some_iff.mp hparent
  rw [h.node_settle, entry_inherited h] at hentry
  rcases stands_of_strung _ hroot.chain.strung hn with ⟨hzero, -⟩ | ⟨j, above, hj, hstands⟩
  · obtain rfl := Option.some.inj (hk.symm.trans hzero)
    rw [h.entry_zero] at hentry
    exact nomatch hentry
  · obtain rfl := Option.some.inj (hk.symm.trans hj)
    rw [h.tree_settle] at hstands
    obtain ⟨above', hstands', hchoices⟩ := standsIn_outline ⟨_, hstands, rfl⟩
    rw [h.choicesIn_inherited, h.choicesIn_inherited] at hchoices
    refine ⟨above', hstands', ?_⟩
    rw [hchoices, choicesIn, List.filterMap_cons, hentry]
    rfl

/-- A symbol without nodes has no dependency. -/
theorem directDep_of_not_mem (h : m.Read blocks) {s : SymbolId} (hs : .symbol s ∉ m.entries) :
    ((m.settle blocks table).symbol s).directDep = .no := by
  rw [h.joins.symbol s]
  by_cases hlt : s < m.symbols.size
  · have hgiven : (m.inherited blocks).given (fun node => [node.dep]) s
        (List.range m.nodes.size) = [] := by
      refine List.flatMap_eq_nil_iff.mpr fun n hn => if_neg fun hsymbol => hs ?_
      have hlength : n < (m.inherited blocks).entries.length := by
        rw [(inherits_inherited m blocks).entries, length_entries]
        exact List.mem_range.mp hn
      exact (inherits_inherited m blocks).entries ▸ symbolOf?_mem hlength hsymbol
    rw [symbol_filled s hlt]
    show List.foldl _ _ _ = _
    rw [hgiven, (h.raw.bare s).directDep]
    rfl
  · rw [h.symbol_filled_of_le (Nat.le_of_not_lt hlt)]
    exact (h.raw.bare s).directDep

/-- Symbols are forced by symbols. -/
theorem revDep_settle (h : m.Read blocks) (s : SymbolId) :
    ((m.settle blocks table).symbol s).revDep.FromSymbols := by
  have hno : Expr.no.FromSymbols := Expr.fromSymbols_symbol noId
  rw [h.joins.symbol s]
  by_cases hlt : s < m.symbols.size
  · rw [symbol_filled s hlt]
    show Expr.FromSymbols (List.foldl _ _ _)
    rw [(h.raw.bare s).revDep]
    refine List.foldlRecOn _ _ hno fun e he d hd => Expr.fromSymbols_disj he ?_
    obtain ⟨n, hn, hd⟩ := List.mem_flatMap.mp hd
    have hlength : n < (m.inherited blocks).entries.length := by
      rw [(inherits_inherited m blocks).entries, length_entries]
      exact List.mem_range.mp hn
    cases hsymbol : (m.inherited blocks).symbolOf? n with
    | none =>
      rw [hsymbol] at hd
      exact absurd hd List.not_mem_nil
    | some t =>
      rw [hsymbol] at hd
      obtain ⟨p, -, rfl⟩ := List.mem_map.mp hd
      refine Expr.fromSymbols_conj (fun hyes => ?_) _
      have hentry := (inherits_inherited m blocks).entries ▸ symbolOf?_mem hlength hsymbol
      have hconst := (h.raw.symbolEntry t hentry).2
      rw [hyes, h.raw.symbol_yes] at hconst
      exact nomatch hconst
  · rw [h.symbol_filled_of_le (Nat.le_of_not_lt hlt), (h.raw.bare s).revDep]
    exact hno

/-- The settled model is sound. -/
theorem sound (h : m.Read blocks)
    (hroot : (m.settle blocks table).Linked) :
    (m.settle blocks table).Sound := by
  have hdefinitions : (m.settle blocks table).definitions = m.definitions := by
    rw [h.joins.rest, (gathers_filled m blocks table).rest, outlined,
    (inherits_inherited m blocks).rest]
  have hchoiceDefinitions : (m.settle blocks table).choiceDefinitions = m.choiceDefinitions := by
    rw [h.joins.rest, (gathers_filled m blocks table).rest, outlined,
    (inherits_inherited m blocks).rest]
  have hchoice : ∀ c, .choice c ∈ m.entries → c ∈ (m.settle blocks table).definedChoices := by
    intro c hc
    refine mem_firstOccurrences ?_
    rw [hchoiceDefinitions, h.raw.choiceDefinitions]
    exact List.mem_filterMap.mpr ⟨_, hc, rfl⟩
  have hdefined : ∀ s, .symbol s ∈ m.entries → s ∈ (m.settle blocks table).defined := by
    intro s hs
    refine mem_firstOccurrences ?_
    rw [hdefinitions, h.raw.definitions]
    exact List.mem_filterMap.mpr ⟨_, hs, rfl⟩
  have hfixed : ∀ s, ((m.settle blocks table).symbol s).nodes = [] →
      (m.settle blocks table).Fixed (.symbol s) := by
    intro s hs
    have hnot := (h.nodes_settle_eq_nil s).mp hs
    refine ⟨hs, ?_⟩
    rw [h.type_settle hnot]
    by_cases htype : (m.symbol s).type = .unknown
    · exact .inl htype
    · rcases h.raw.typed s htype with rfl | rfl | hmem
      · exact .inr ⟨by rw [h.raw.symbol_no], .inl rfl⟩
      · exact .inr ⟨by rw [h.raw.symbol_yes], .inr rfl⟩
      · exact absurd hmem hnot
  have hconstant : ∀ s, (m.symbol s).isConstant → ((m.settle blocks table).symbol s).nodes = [] := by
    intro s hs
    refine (h.nodes_settle_eq_nil s).mpr fun hmem => ?_
    rw [(h.raw.symbolEntry s hmem).2] at hs
    cases hs
  constructor
  case fixed => exact hfixed
  case defined =>
    intro s
    constructor
    · intro hs hnodes
      have hs := mem_of_firstOccurrences hs
      rw [hdefinitions, h.raw.definitions] at hs
      obtain ⟨e, he, hsymbol⟩ := List.mem_filterMap.mp hs
      refine (h.nodes_settle_eq_nil s).mp hnodes ?_
      cases e <;> simp_all [Entry.symbol?]
    · exact fun hs => hdefined s
        (Decidable.of_not_not fun hnot => hs ((h.nodes_settle_eq_nil s).mpr hnot))
  case definedChoice =>
    intro c hc
    refine hchoice c (Decidable.of_not_not fun hnot => hc ?_)
    rw [h.nodes_choice_settle, h.raw.choiceNodes]
    exact placesIn_eq_nil.mpr hnot
  case constant =>
    intro s hs
    rw [(h.names_settle s).2.1] at hs
    exact hconstant s hs
  case member =>
    intro s c hc
    rcases h.joins.owned s c hc with hold | ⟨hmem, hentry⟩
    · have hnone : ((m.filled blocks table).symbol s).choice = none := by
        by_cases hlt : s < m.symbols.size
        · rw [symbol_filled s hlt]
          exact (h.raw.bare s).choice
        · rw [h.symbol_filled_of_le (Nat.le_of_not_lt hlt)]
          exact (h.raw.bare s).choice
      rw [hnone] at hold
      cases hold
    · exact ⟨hmem, hchoice c (entries_filled m blocks table ▸ hentry)⟩
  case memberDefined =>
    intro c s hs
    rcases h.joins.members c s hs with hold | hentry
    · rw [h.members_filled] at hold
      exact absurd hold List.not_mem_nil
    · exact hdefined s (entries_filled m blocks table ▸ hentry)
  case noFixed => exact hfixed noId (hconstant noId (by rw [h.raw.symbol_no]))
  case yesFixed => exact hfixed yesId (hconstant yesId (by rw [h.raw.symbol_yes]))
  case bare => exact fun s hs => h.directDep_of_not_mem ((h.nodes_settle_eq_nil s).mp hs)
  case forced => exact h.revDep_settle
  case inside =>
    intro n c p hparent hprompt
    have hzero : n ≠ 0 := by
      rintro rfl
      rw [hroot.top] at hparent
      cases hparent
    obtain ⟨above, hstands, hchoice⟩ :=
      h.stands_inside hroot (h.mem_tree_of_prompt hzero hprompt) hparent
    rw [h.node_settle, h.node_inherited hstands] at hprompt
    exact needs_prompt (needs_around m.top above hchoice) hprompt

/-- The members of choices know it. -/
theorem owned (h : m.Read blocks) : (m.settle blocks table).Owned := by
  rw [settle_eq]
  refine Owned.fillChoicesForest _ fun c s hs => ?_
  rw [h.members_filled] at hs
  exact absurd hs List.not_mem_nil

/-! ### Definitions in the menu tree -/

theorem symbolOf?_settle (h : m.Read blocks) (n : NodeId) :
    (m.settle blocks table).symbolOf? n = (m.inherited blocks).symbolOf? n := by
  rw [symbolOf?, symbolOf?, h.node_settle]

theorem symbolOf?_inherited (h : m.Read blocks) (n : NodeId) :
    (m.inherited blocks).symbolOf? n = m.symbolOf? n := by
  rw [symbolOf?, entry_inherited h, symbolOf?]

/-- The menu tree defines the symbols that the blocks define, in the same order. -/
theorem symbolNodes_settle (h : m.Read blocks) :
    (m.settle blocks table).symbolNodes (m.settle blocks table).tree = m.symbolNodes blocks := by
  have horder := symbolNodes_outline h.leafSymbols_inherited
  simp only [symbolNodes, h.symbolOf?_inherited] at horder
  simp only [symbolNodes, h.symbolOf?_settle, h.symbolOf?_inherited, h.tree_settle]
  exact horder

/-- A node that is no menu stands in the blocks. -/
theorem mem_forestIds_of_entry (h : m.Read blocks) {entry : Entry}
    (hn : m.entries[n]? = some entry) (hentry : entry ≠ .menu) :
    n ∈ Tree.forestIds blocks ∧ (m.node n).entry = entry := by
  have hlt := (List.getElem?_eq_some_iff.mp hn).1
  have hnode : (m.node n).entry = entry := Option.some.inj ((entry_of_lt hlt).symm.trans hn)
  refine ⟨?_, hnode⟩
  have hpos : n ≠ 0 := by
    rintro rfl
    exact hentry (hnode.symm.trans h.entry_zero)
  have hrange : ∀ k size : Nat, k ≠ 0 → k < size → 1 ≤ k ∧ k < 1 + (size - 1) := by omega
  rw [length_entries] at hlt
  rw [h.ids, List.mem_range'_1]
  exact hrange n _ hpos hlt

theorem mem_forestIds_of_symbol (h : m.Read blocks) {s : SymbolId}
    (hn : m.entries[n]? = some (.symbol s)) : n ∈ Tree.forestIds blocks ∧ m.symbolOf? n = some s := by
  obtain ⟨hmem, hentry⟩ := h.mem_forestIds_of_entry hn nofun
  exact ⟨hmem, by rw [symbolOf?, hentry]⟩

/-- The nodes of a symbol or choice stand in the blocks, and are about it. -/
theorem mem_forestIds_of_item (h : m.Read blocks) {i : Item}
    (hn : n ∈ (m.settle blocks table).itemNodes i) :
    n ∈ Tree.forestIds blocks ∧ (m.node n).entry.item? = some i := by
  cases i with
  | symbol s =>
    rw [itemNodes, (h.names_settle s).2.2, h.raw.symbolNodes] at hn
    obtain ⟨hmem, hentry⟩ := h.mem_forestIds_of_entry (mem_placesIn.mp hn) nofun
    exact ⟨hmem, by rw [hentry]; rfl⟩
  | choice c =>
    rw [itemNodes, h.nodes_choice_settle, h.raw.choiceNodes] at hn
    obtain ⟨hmem, hentry⟩ := h.mem_forestIds_of_entry (mem_placesIn.mp hn) nofun
    exact ⟨hmem, by rw [hentry]; rfl⟩

/-- In the settled model every symbol is defined in the menu tree, and found by its name. -/
theorem listed (h : m.Read blocks)
    (hroot : (m.settle blocks table).Linked) :
    (m.settle blocks table).Listed := by
  have hknown := @known_settle m blocks table h
  have hplaces : ∀ s ∈ (m.settle blocks table).defined, ∃ n,
      ((m.settle blocks table).symbol s).nodes.head? = some n ∧ m.entries[n]? = some (.symbol s) := by
    intro s hs
    have hnodes := ((h.sound hroot).defined s).mp hs
    rw [(h.names_settle s).2.2, h.raw.symbolNodes] at hnodes ⊢
    obtain ⟨n, ns, heq⟩ := List.exists_cons_of_ne_nil hnodes
    refine ⟨n, by rw [heq]; rfl, mem_placesIn.mp ?_⟩
    rw [heq]
    exact List.mem_cons_self ..
  refine ⟨?_, fun s hs => ?_, fun s hs => ?_⟩
  · rw [h.symbolNodes_settle]
    exact h.nodup.filter _
  · obtain ⟨n, hhead, hn⟩ := hplaces s hs
    obtain ⟨hmem, hsymbol⟩ := h.mem_forestIds_of_symbol hn
    refine ⟨n, ?_, hhead, ?_⟩
    · rw [h.symbolNodes_settle]
      exact List.mem_filter.mpr ⟨hmem, by rw [hsymbol]; rfl⟩
    · rw [h.symbolOf?_settle, h.symbolOf?_inherited, hsymbol]
  · obtain ⟨n, -, hn⟩ := hplaces s hs
    obtain ⟨hlt, hconst⟩ := h.raw.symbolEntry s (List.mem_of_getElem? hn)
    have hconst' : ((m.settle blocks table).symbol s).isConstant = false :=
      (h.names_settle s).2.1.trans hconst
    cases hfind : (m.settle blocks table).find? ((m.settle blocks table).symbol s).name false with
    | none =>
      refine absurd hconst' (find?_eq_none hfind ?_ rfl)
      rw [hknown, h.raw.known]
      exact hlt
    | some t =>
      obtain ⟨ht, hname, hfalse⟩ := find?_eq_some hfind
      rw [hknown, h.raw.known] at ht
      rw [(h.names_settle t).1, (h.names_settle s).1] at hname
      rw [(h.names_settle t).2.1] at hfalse
      rw [h.raw.unique t s ht hlt hname (hfalse.trans hconst.symm)]

/-! ### Finalizing -/

/-- The top node waits to be finalized, with all nodes below it. -/
theorem opens (h : m.Read blocks) (hroot : m.Rooted blocks) :
    Opens (m.inherited blocks) .yes 0 blocks m where
  noSymbol := by rw [symbolOf?, h.node_inherited_zero, h.entry_zero]
  node := h.node_inherited_zero.symm
  first := by rw [hroot.top]
  ltTable := hroot.size ▸ h.size_pos
  notBelow hmem := Nat.lt_irrefl 0 (h.pos hmem)
  chain := hroot.chain
  below := by
    rw [h.node_inherited_zero]
    exact awaitsFrom_of_stands blocks fun above n hn => h.node_inherited hn
  leaves := h.leafSymbols_inherited
  lt _ hk := h.lt hk
  room := by
    rw [h.ids, List.length_range']
    exact Nat.sub_le _ _

/-- What the top node and the nodes below it add comes to the settled model. -/
theorem enact_eq_settle (h : m.Read blocks) :
    enactForest (m.inherited blocks) (m.outlined blocks table) [.node 0 blocks] =
      m.settle blocks table := by
  have hids : Tree.forestIds [.node 0 blocks] = List.range m.nodes.size := by
    rw [Tree.forestIds_cons, Tree.forestIds, List.append_nil, h.zero_cons_ids]
  have hfilled : (m.filled blocks table).nodes = (m.inherited blocks).nodes := by
    rw [(gathers_filled m blocks table).rest]
  have hnode : ((m.filled blocks table).node 0).entry.choice? = none := by
    rw [node, hfilled, ← node, h.node_inherited_zero, h.entry_zero]
    rfl
  have hjoin : joinForest (m.inherited blocks) (m.filled blocks table) blocks =
      m.settle blocks table := by
    rw [settle_eq, fillChoicesForest_outline hfilled h.leafSymbols_inherited]
  rw [enactForest_eq, hids, ← filled, joinForest, joinForest, join, hjoin]
  refine addToChoice_of_choice? ?_ _
  rw [h.node_settle, h.node_inherited_zero, h.entry_zero]
  rfl

/-- Finalizing what was read ends and gives the settled model, whose links lead through its tree. -/
theorem exists_finalize (h : m.Read blocks) (hroot : m.Rooted blocks) :
    ∃ table, m.finalize = some (m.settle blocks table) ∧
      (m.settle blocks table).Linked := by
  have hids : Tree.forestIds [.node 0 blocks] = List.range m.nodes.size := by
    rw [Tree.forestIds_cons, Tree.forestIds, List.append_nil, h.zero_cons_ids]
  have hroom : (Tree.forestIds blocks).length + 1 = m.nodes.size := by
    rw [← List.length_cons (a := 0), h.zero_cons_ids, List.length_range]
  obtain ⟨fuel, hfuel⟩ : ∃ fuel, 2 * m.nodes.size = fuel + 1 :=
    Nat.exists_eq_succ_of_ne_zero (by omega)
  obtain ⟨m', hfinalize, hchain, hempties, hlinks, hdone⟩ := (h.opens hroot).exists_finalizeNode
    h.untitledBlocks fun m' hwaits => exists_finalizeAll h.untitledBlocks fuel hwaits (by omega)
  -- only the links are others than the passes give, so the model that comes out has them
  have hnodes : m'.nodes = (m.inherited blocks).nodes := by
    have hsize : m'.nodes.size = (m.inherited blocks).nodes.size :=
      hdone.count.trans (inherits_inherited m blocks).size.symm
    refine Array.ext hsize fun n hn hn' => ?_
    have hmem : n ∈ Tree.forestIds [.node 0 blocks] := by
      rw [hids]
      exact List.mem_range.mpr (hdone.count ▸ hn)
    have hnode := hdone.inherited n hmem
    rwa [node, node, Array.getElem?_eq_getElem hn, Array.getElem?_eq_getElem hn'] at hnode
  have hshows : Shows (m.settle blocks m'.table) m' := by
    rw [← h.enact_eq_settle]
    refine hdone.shows rfl ⟨m.nodes, m.table, m.tree, ?_⟩
    rw [outlined, (inherits_inherited m blocks).rest]
  have hfinal := hshows.eq (hnodes.trans h.nodes_settle.symm) h.table_settle.symm
  rw [h.tree_settle] at hfinal
  have houtline : ∀ k ∈ Tree.forestIds ((m.inherited blocks).outline blocks),
      k ∈ Tree.forestIds blocks := fun k hk => mem_forestIds_of_outline hk
  refine ⟨m'.table, ?_, ⟨?_, ?_, ?_⟩, ?_⟩
  · have hcount : (Tree.forestIds ((m.inherited blocks).outline blocks)).length ≤ m'.nodes.size := by
      rw [hdone.count]
      exact Nat.le_trans (hchain.length_le houtline) (h.opens hroot).room
    rw [finalize, hfuel, hfinalize, ← hfinal]
    show (m'.treesFrom m'.nodes.size (m'.linksOf 0).first).bind _ = _
    rw [hlinks]
    dsimp only
    rw [hchain.treesFrom_firstId? hcount]
    rfl
  · rw [h.linksOf_settle, hlinks, hroot.top, h.tree_settle]
  · rw [h.table_settle, h.nodes_settle, ← hnodes, hdone.count, ← hroot.size, hdone.size]
  · rw [h.tree_settle]
    exact hchain.relinks ⟨by rw [h.table_settle], fun k _ => h.linksOf_settle k⟩
      fun _ _ => List.not_mem_nil
  · intro n hn
    rw [order, h.tree_settle, List.mem_cons, not_or] at hn
    rw [h.linksOf_settle]
    by_cases hmem : n ∈ Tree.forestIds blocks
    · exact hempties n hmem hn.2
    · have hnot : n ∉ Tree.forestIds [.node 0 blocks] := by
        rw [hids, ← h.zero_cons_ids, List.mem_cons, not_or]
        exact ⟨hn.1, hmem⟩
      rw [hids, List.mem_range, ← hdone.count, Nat.not_lt] at hnot
      have hsize : m'.table.size = m'.nodes.size := by rw [hdone.size, hdone.count, hroot.size]
      rw [linksOf, Array.getElem?_eq_none (hsize ▸ hnot)]
      rfl

/-! ### Links -/

/-- What was read was read whatever the links are. -/
theorem withLinks (h : m.Read blocks) (table : Array Links) : (m.withLinks table).Read blocks := by
  obtain ⟨⟨known, no, yes, unique, symbolNodes, choiceNodes, definitions, choiceDefinitions,
    symbolEntry, choiceEntry, typed, bare, bareChoice, top, untitled, proper⟩, ids, leaves⟩ := h
  exact ⟨⟨known, no, yes, unique, symbolNodes, choiceNodes, definitions, choiceDefinitions,
    symbolEntry, choiceEntry, typed, bare, bareChoice, top, untitled, proper⟩, ids, leaves⟩

theorem rooted (h : m.Read blocks) {links : Array Links} (hlinks : Connects links blocks) :
    (m.withLinks links).Rooted blocks := rooted_of_connects hlinks h.ids h.size_pos

/-- What was read says what the links are that lead through the blocks. -/
theorem connects_unique (h : m.Read blocks) {links links' : Array Links}
    (hlinks : Connects links blocks) (hlinks' : Connects links' blocks) : links = links' := by
  have hroot := h.rooted hlinks
  have hroot' := h.rooted hlinks'
  refine Array.ext (hroot.size.trans hroot'.size.symm) fun n hn hn' => ?_
  have hsame : (m.withLinks links).linksOf n = (m.withLinks links').linksOf n := by
    have hmem : n ∈ 0 :: Tree.forestIds blocks := by
      rw [h.zero_cons_ids, List.mem_range]
      exact hroot.size ▸ hn
    rcases List.mem_cons.mp hmem with rfl | hmem
    · exact hroot.top.trans hroot'.top.symm
    · exact Tree.strung_unique blocks hroot.chain.strung hroot'.chain.strung n hmem
  simpa only [linksOf, Model.withLinks, Array.getElem?_eq_getElem hn,
    Array.getElem?_eq_getElem hn', Option.getD_some] using hsame

theorem rootTrees_withLinks (h : m.Read blocks) {links : Array Links}
    (hlinks : Connects links blocks) : (m.withLinks links).rootTrees = some blocks := by
  have hroot := h.rooted hlinks
  rw [rootTrees, hroot.top]
  refine hroot.chain.treesFrom_firstId? ?_
  rw [h.ids, List.length_range']
  exact Nat.sub_le _ _

/-- What was read is finalized when the links lead through the blocks. -/
theorem exists_finalize_withLinks (h : m.Read blocks) {links : Array Links}
    (hlinks : Connects links blocks) : ∃ table,
      (m.withLinks links).finalize = some ((m.withLinks links).settle blocks table) ∧
        ((m.withLinks links).settle blocks table).Linked :=
  (h.withLinks links).exists_finalize (h.rooted hlinks)

end Read

/-- The model was read from files and finalized. -/
def Settles (m m' : Model) : Prop :=
  ∃ blocks table, m.Read blocks ∧ m' = m.settle blocks table ∧ m'.Linked

theorem Read.finalize_withLinks (h : m.Read blocks) {links : Array Links}
    (hlinks : Connects links blocks) : ∃ m', (m.withLinks links).finalize = some m' ∧
      (m.withLinks links).Settles m' := by
  obtain ⟨table, hfinalize, hlinked⟩ := h.exists_finalize_withLinks hlinks
  exact ⟨_, hfinalize, blocks, table, h.withLinks links, rfl, hlinked⟩

theorem Settles.sound {m' : Model} (h : m.Settles m') : m'.Sound := by
  obtain ⟨blocks, table, hread, rfl, hlinked⟩ := h
  exact hread.sound hlinked

theorem Settles.listed {m' : Model} (h : m.Settles m') : m'.Listed := by
  obtain ⟨blocks, table, hread, rfl, hlinked⟩ := h
  exact hread.listed hlinked

end Model
end Kconfig
