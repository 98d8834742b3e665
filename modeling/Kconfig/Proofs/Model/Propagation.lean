import Kconfig.Proofs.Load.Model
import Kconfig.Proofs.Values.Plan
/-!
Dependencies reach the properties that they guard.

What a source block requires, all nodes inside it require, and so do their properties: a settled
condition holds exactly when the condition as it was written holds together with those of the blocks
around it, out to the innermost choice, whose level stands for everything outside it. Joining
conditions drops operands that cannot matter, which no valuation can see.
-/
namespace Kconfig

/-- The constants `n` and `y` are what they say. -/
structure Valuation.Plain (v : Valuation) : Prop where
  no : (v (.level (.symbol noId))).value = false
  yes : (v (.level (.symbol yesId))).value = true

namespace Model
variable {m : Model} {v : Valuation} {blocks : List Tree} {table : Array Links}

/-- Whatever the user gives, the constants are what they say. -/
theorem Solves.constants_plain {u : UserValues} (hv : m.Solves u v) : v.Plain := by
  refine ⟨?_, ?_⟩
  · rw [hv.eq_value]
    rfl
  · rw [hv.eq_value]
    rfl

/-! ### Conditions under a valuation -/

/-- Whether an expression holds under a valuation. -/
def holdsAt (m : Model) (v : Valuation) (e : Expr) : Bool := (m.holds e).result v

theorem holdsAt_no (hv : v.Plain) : m.holdsAt v .no = false := hv.no

theorem holdsAt_yes (hv : v.Plain) : m.holdsAt v .yes = true := hv.yes

theorem holdsAt_and (a b : Expr) :
    m.holdsAt v (.and a b) = (m.holdsAt v a && m.holdsAt v b) := by
  simp only [holdsAt, holds, Plan.result_bind, Plan.result_ite, Plan.result_pure]
  cases (m.holds a).result v <;> rfl

theorem holdsAt_or (a b : Expr) :
    m.holdsAt v (.or a b) = (m.holdsAt v a || m.holdsAt v b) := by
  simp only [holdsAt, holds, Plan.result_bind, Plan.result_ite, Plan.result_pure]
  cases (m.holds a).result v <;> rfl

theorem holdsAt_conj (hv : v.Plain) (a b : Expr) :
    m.holdsAt v (a.conj b) = (m.holdsAt v a && m.holdsAt v b) := by
  unfold Expr.conj
  split
  · next h => rw [h, holdsAt_yes hv, Bool.true_and]
  · split
    · next h => rw [h, holdsAt_yes hv, Bool.and_true]
    · split
      · next h =>
        rw [holdsAt_no hv]
        rcases h with h | h
        · rw [h, holdsAt_no hv, Bool.false_and]
        · rw [h, holdsAt_no hv, Bool.and_false]
      · exact holdsAt_and a b

theorem holdsAt_disj (hv : v.Plain) (a b : Expr) :
    m.holdsAt v (a.disj b) = (m.holdsAt v a || m.holdsAt v b) := by
  unfold Expr.disj
  split
  · next h => rw [h, holdsAt_no hv, Bool.false_or]
  · split
    · next h => rw [h, holdsAt_no hv, Bool.or_false]
    · split
      · next h =>
        rw [holdsAt_yes hv]
        rcases h with h | h
        · rw [h, holdsAt_yes hv, Bool.true_or]
        · rw [h, holdsAt_yes hv, Bool.or_true]
      · exact holdsAt_or a b

theorem holdsAt_foldl_disj (hv : v.Plain) (es : List Expr) (e : Expr) :
    m.holdsAt v (es.foldl Expr.disj e) = (m.holdsAt v e || es.any (m.holdsAt v)) := by
  induction es generalizing e with
  | nil => rw [List.foldl_nil, List.any_nil, Bool.or_false]
  | cons x es ih => rw [List.foldl_cons, ih, holdsAt_disj hv, List.any_cons, Bool.or_assoc]

/-! ### What the files require -/

/-- Whether what stands around a node holds, the innermost node first: the conditions of the nodes
as they were written, out to the innermost choice, whose level stands for everything outside it. -/
def outerHolds (m : Model) (holds : Expr → Bool) : List NodeId → Bool
  | [] => true
  | k :: above =>
    match (m.node k).entry with
    | .choice c => holds (.item (.choice c))
    | _ => holds (m.node k).dep && m.outerHolds holds above

/-- Whether a node's own dependencies hold, and those of what stands around it. -/
def depHolds (m : Model) (holds : Expr → Bool) (n : NodeId) (above : List NodeId) : Bool :=
  holds (m.node n).dep && m.outerHolds holds above

/-- Whether all menus around a node are visible. -/
def menusVisible (m : Model) (holds : Expr → Bool) (above : List NodeId) : Bool :=
  above.all fun k => (m.node k).entry ≠ .menu || holds (m.node k).visibleIf

/-- Properties with whether their conditions hold. -/
def judged {α : Type} (holds : Expr → Bool) (properties : List (Guarded α)) : List (α × Bool) :=
  properties.map fun p => (p.value, holds p.cond)

/-- Properties with whether their conditions hold together with a dependency. -/
def judgedUnder {α : Type} (holds : Expr → Bool) (dep : Bool) (properties : List (Guarded α)) :
    List (α × Bool) :=
  properties.map fun p => (p.value, holds p.cond && dep)

/-- Whether some node forces a symbol: its own symbol holds, and so does the condition. -/
def isForced (m : Model) (holds : Expr → Bool) (field : MenuNode → List (Guarded SymbolId))
    (s : SymbolId) : Bool :=
  (List.range m.nodes.size).any fun n =>
    match m.symbolOf? n with
    | some t => (field (m.node n)).any fun p => p.value = s && (holds (.symbol t) && holds p.cond)
    | none => false

/-- The settled model `m'` has the dependencies that the raw model `m` and its blocks require. Every
node below the top one stands among the blocks; what stands around it ends with the top node. -/
structure Propagates (m : Model) (blocks : List Tree) (v : Valuation) (m' : Model) : Prop where
  stands : ∀ n ∈ m'.order, ∃ above, Tree.Stands blocks above n
  dep : ∀ n above, Tree.Stands blocks above n →
    m'.holdsAt v (m'.node n).dep = m.depHolds (m'.holdsAt v) n (above ++ [0])
  /-- Prompts of symbols and choices also need the menus around them to be visible. -/
  prompt : ∀ n above, Tree.Stands blocks above n →
    ((m'.node n).prompt.map fun p => (p.text, m'.holdsAt v p.cond)) =
      (m.node n).prompt.map fun p => (p.text, m'.holdsAt v p.cond &&
        ((m.node n).entry.item?.isNone || m.menusVisible (m'.holdsAt v) (above ++ [0])) &&
          m.depHolds (m'.holdsAt v) n (above ++ [0]))
  properties : ∀ n above, Tree.Stands blocks above n → (m.node n).entry.item?.isSome →
    let holds := m'.holdsAt v
    let dep := m.depHolds holds n (above ++ [0])
    judged holds (m'.node n).defaults = judgedUnder holds dep (m.node n).defaults ∧
    judged holds (m'.node n).ranges = judgedUnder holds dep (m.node n).ranges ∧
    judged holds (m'.node n).selects = judgedUnder holds dep (m.node n).selects ∧
    judged holds (m'.node n).implies = judgedUnder holds dep (m.node n).implies
  nodes : ∀ s, (m'.symbol s).nodes =
    (List.range m'.nodes.size).filter fun n => m'.symbolOf? n = some s
  lists : ∀ s < m'.symbols.size, let sym := m'.symbol s
    sym.defaults = (sym.nodes.flatMap fun n => (m'.node n).defaults) ∧
    sym.ranges = (sym.nodes.flatMap fun n => (m'.node n).ranges) ∧
    sym.selects = (sym.nodes.flatMap fun n => (m'.node n).selects) ∧
    sym.implies = (sym.nodes.flatMap fun n => (m'.node n).implies)
  directDep : ∀ s < m'.symbols.size, m'.holdsAt v (m'.symbol s).directDep =
    (m'.symbol s).nodes.any fun n => m'.holdsAt v (m'.node n).dep
  revDep : ∀ s < m'.symbols.size,
    m'.holdsAt v (m'.symbol s).revDep = m'.isForced (m'.holdsAt v) (·.selects) s
  weakRevDep : ∀ s < m'.symbols.size,
    m'.holdsAt v (m'.symbol s).weakRevDep = m'.isForced (m'.holdsAt v) (·.implies) s

/-! ### Surroundings -/

/-- Any way of judging expressions that takes `conj` for what it says. -/
structure Judges (holds : Expr → Bool) : Prop where
  yes : holds .yes = true
  conj : ∀ a b, holds (a.conj b) = (holds a && holds b)

theorem judges_holdsAt (hv : v.Plain) : Judges (m.holdsAt v) := ⟨holdsAt_yes hv, holdsAt_conj hv⟩

variable {holds : Expr → Bool}

/-- What is inherited from around holds when what stands around holds. -/
theorem around_dep_holds (h : Judges holds) (htop : (m.node 0).entry = .menu) :
    ∀ above : List NodeId,
      holds (m.around m.top above).dep = m.outerHolds holds (above ++ [0])
  | [] => by
    simp [around, outerHolds, MenuNode.inside, htop]
  | k :: above => by
    have ih := around_dep_holds h htop above
    rw [List.cons_append, around, outerHolds]
    unfold MenuNode.inside
    dsimp only
    rw [entry_inherit]
    cases hentry : (m.node k).entry with
    | choice c => rfl
    | _ =>
      dsimp only
      rw [Read.dep_inherit, h.conj, ih]

/-- What stands around holds only if the innermost choice does. -/
theorem choice_of_outerHolds {c : ChoiceId} : ∀ {above : List NodeId},
    (m.choicesIn above).head? = some c → m.outerHolds holds (above ++ [0]) = true →
      holds (.item (.choice c)) = true
  | [], hc, _ => nomatch hc
  | k :: above, hc, hholds => by
    rw [List.cons_append, outerHolds] at hholds
    unfold choicesIn at hc
    cases hentry : (m.node k).entry with
    | choice d =>
      rw [List.filterMap_cons, hentry] at hc
      obtain rfl := Option.some.inj hc
      rw [hentry] at hholds
      exact hholds
    | _ =>
      rw [List.filterMap_cons, hentry] at hc
      rw [hentry] at hholds
      exact choice_of_outerHolds hc ((Bool.and_eq_true _ _).mp hholds).2

theorem visibleIf_inherit (outer : Surroundings) (node : MenuNode) :
    (node.inherit outer).visibleIf = node.visibleIf := by
  unfold MenuNode.inherit
  dsimp only
  split <;> rfl

/-- So for the menus around. -/
theorem around_visible_holds (h : Judges holds) (htop : (m.node 0).entry = .menu) :
    ∀ above : List NodeId,
      holds (m.around m.top above).visible = m.menusVisible holds (above ++ [0])
  | [] => by
    simp [around, menusVisible, MenuNode.inside, htop, h.yes, h.conj]
  | k :: above => by
    have ih := around_visible_holds h htop above
    rw [List.cons_append, around, menusVisible, List.all_cons]
    unfold MenuNode.inside
    dsimp only
    rw [entry_inherit, visibleIf_inherit]
    cases hentry : (m.node k).entry with
    | menu =>
      dsimp only
      rw [h.conj, ih, Bool.and_comm]
      rfl
    | _ => exact ih.trans (Bool.true_and _).symm

/-! ### What a node inherits -/

section Inherit
variable {outer : Surroundings} {node : MenuNode} {dep visible : Bool}

/-- A dependency on a list of properties. -/
theorem judged_under {α : Type} (h : Judges holds) {e : Expr} (he : holds e = dep)
    (ps : List (Guarded α)) : judged holds (ps.map (·.under e)) = judgedUnder holds dep ps := by
  simp [judged, judgedUnder, Guarded.under, h.conj, he]

theorem properties_inherit (h : Judges holds) (hitem : node.entry.item?.isSome)
    (hdep : holds (node.dep.conj outer.dep) = dep) :
    judged holds (node.inherit outer).defaults = judgedUnder holds dep node.defaults ∧
    judged holds (node.inherit outer).ranges = judgedUnder holds dep node.ranges ∧
    judged holds (node.inherit outer).selects = judgedUnder holds dep node.selects ∧
    judged holds (node.inherit outer).implies = judgedUnder holds dep node.implies := by
  unfold MenuNode.inherit
  dsimp only
  cases hentry : node.entry with
  | symbol s =>
    exact ⟨judged_under h hdep _, judged_under h hdep _, judged_under h hdep _,
      judged_under h hdep _⟩
  | choice c =>
    exact ⟨judged_under h hdep _, judged_under h hdep _, judged_under h hdep _,
      judged_under h hdep _⟩
  | _ =>
    rw [hentry] at hitem
    exact nomatch hitem

theorem prompt_inherit (h : Judges holds) (hdep : holds (node.dep.conj outer.dep) = dep)
    (hvisible : holds outer.visible = visible) :
    ((node.inherit outer).prompt.map fun p => (p.text, holds p.cond)) =
      node.prompt.map fun p =>
        (p.text, holds p.cond && (node.entry.item?.isNone || visible) && dep) := by
  unfold MenuNode.inherit
  dsimp only
  cases hentry : node.entry <;>
    simp [h.conj, ← hdep, hvisible, Entry.item?, Function.comp_def, Bool.and_assoc]

end Inherit

namespace Read
variable (h : m.Read blocks) (hv : v.Plain)
include h hv

theorem dep_settle {n : NodeId} {above : List NodeId} (hn : Tree.Stands blocks above n) :
    (m.settle blocks table).holdsAt v ((m.settle blocks table).node n).dep =
      m.depHolds ((m.settle blocks table).holdsAt v) n (above ++ [0]) := by
  have hj := judges_holdsAt (m := m.settle blocks table) hv
  rw [h.node_settle, h.node_inherited hn, dep_inherit, hj.conj, around_dep_holds hj h.entry_zero]
  rfl

omit hv in
/-- The nodes of a symbol are all that are about it, in order. -/
theorem nodes_eq_filter (s : SymbolId) :
    ((m.settle blocks table).symbol s).nodes =
      (List.range (m.settle blocks table).nodes.size).filter
        fun n => (m.settle blocks table).symbolOf? n = some s := by
  have hentries : (m.settle blocks table).entries = m.entries := h.entries_settle
  rw [(h.names_settle s).2.2, h.raw.symbolNodes, ← length_entries, hentries, placesIn]
  refine List.filter_congr fun n hn => ?_
  rw [decide_eq_decide, ← hentries, entry_of_lt (hentries ▸ List.mem_range.mp hn), symbolOf?]
  cases ((m.settle blocks table).node n).entry <;> simp

omit hv in
/-- What nodes give to the symbol that they are about, node by node. -/
theorem given_eq {α : Type} (field : MenuNode → List α) (s : SymbolId) :
    (m.inherited blocks).given field s (List.range m.nodes.size) =
      ((m.settle blocks table).symbol s).nodes.flatMap fun n => field ((m.settle blocks table).node n) := by
  have hsize : (m.settle blocks table).nodes.size = m.nodes.size := by
    rw [← length_entries, ← length_entries, h.entries_settle]
  rw [h.nodes_eq_filter, hsize, given]
  generalize List.range m.nodes.size = ns
  induction ns with
  | nil => rfl
  | cons n ns ih =>
    rw [List.flatMap_cons, ih, List.filter_cons, ← h.symbolOf?_settle, ← h.node_settle]
    split
    · next hs => rw [if_pos (decide_eq_true hs), List.flatMap_cons]
    · next hs => rw [if_neg (by simpa using hs), List.nil_append]

omit hv in
theorem lists_settle {s : SymbolId} (hs : s < (m.settle blocks table).symbols.size) :
    let sym := (m.settle blocks table).symbol s
    sym.defaults = (sym.nodes.flatMap fun n => ((m.settle blocks table).node n).defaults) ∧
    sym.ranges = (sym.nodes.flatMap fun n => ((m.settle blocks table).node n).ranges) ∧
    sym.selects = (sym.nodes.flatMap fun n => ((m.settle blocks table).node n).selects) ∧
    sym.implies = (sym.nodes.flatMap fun n => ((m.settle blocks table).node n).implies) := by
  have hbare := h.raw.bare s
  have hsymbol := @symbol_settle m blocks table h s (h.size_settle ▸ hs)
  refine ⟨?_, ?_, ?_, ?_⟩
  · rw [← h.given_eq (·.defaults), hsymbol, gathered, hbare.defaults, List.nil_append]
  · rw [← h.given_eq (·.ranges), hsymbol, gathered, hbare.ranges, List.nil_append]
  · rw [← h.given_eq (·.selects), hsymbol, gathered, hbare.selects, List.nil_append]
  · rw [← h.given_eq (·.implies), hsymbol, gathered, hbare.implies, List.nil_append]

theorem directDep_settle {s : SymbolId} (hs : s < (m.settle blocks table).symbols.size) :
    (m.settle blocks table).holdsAt v ((m.settle blocks table).symbol s).directDep =
      ((m.settle blocks table).symbol s).nodes.any fun n =>
        (m.settle blocks table).holdsAt v ((m.settle blocks table).node n).dep := by
  have hdep : ((m.settle blocks table).symbol s).directDep =
      (((m.settle blocks table).symbol s).nodes.flatMap fun n =>
        [((m.settle blocks table).node n).dep]).foldl Expr.disj .no := by
    rw [← h.given_eq (fun node => [node.dep]), h.symbol_settle (h.size_settle ▸ hs), gathered,
      (h.raw.bare s).directDep]
  rw [hdep, holdsAt_foldl_disj hv, holdsAt_no hv, Bool.false_or, List.any_flatMap]
  simp only [List.any_cons, List.any_nil, Bool.or_false]

/-- Some condition that forces a symbol holds when some node forces it. -/
theorem forcing_holds (field : MenuNode → List (Guarded SymbolId)) (s : SymbolId) :
    ((m.inherited blocks).forcing field s (List.range m.nodes.size)).any
        ((m.settle blocks table).holdsAt v) =
      (m.settle blocks table).isForced ((m.settle blocks table).holdsAt v) field s := by
  have hsize : (m.settle blocks table).nodes.size = m.nodes.size := by
    rw [← length_entries, ← length_entries, h.entries_settle]
  rw [forcing, isForced, hsize, List.any_flatMap]
  congr 1
  funext n
  rw [h.symbolOf?_settle, h.node_settle]
  cases (m.inherited blocks).symbolOf? n with
  | none => rfl
  | some t =>
    dsimp only
    rw [List.any_map, List.any_filter]
    congr 1
    funext p
    rw [Function.comp, holdsAt_conj hv]

theorem forced_settle {s : SymbolId} (hs : s < (m.settle blocks table).symbols.size) :
    (m.settle blocks table).holdsAt v ((m.settle blocks table).symbol s).revDep =
        (m.settle blocks table).isForced ((m.settle blocks table).holdsAt v) (·.selects) s ∧
      (m.settle blocks table).holdsAt v ((m.settle blocks table).symbol s).weakRevDep =
        (m.settle blocks table).isForced ((m.settle blocks table).holdsAt v) (·.implies) s := by
  have hsymbol := @symbol_settle m blocks table h s (h.size_settle ▸ hs)
  have hbare := h.raw.bare s
  constructor
  · rw [← h.forcing_holds hv, hsymbol, gathered, hbare.revDep, holdsAt_foldl_disj hv,
      holdsAt_no hv, Bool.false_or]
  · rw [← h.forcing_holds hv, hsymbol, gathered, hbare.weakRevDep, holdsAt_foldl_disj hv,
      holdsAt_no hv, Bool.false_or]

/-- Settling propagates what the blocks require. -/
theorem propagates : m.Propagates blocks v (m.settle blocks table) := by
  have hj := judges_holdsAt (m := m.settle blocks table) hv
  have hdep : ∀ n above, Tree.Stands blocks above n →
      (m.settle blocks table).holdsAt v ((m.node n).dep.conj (m.around m.top above).dep) =
        m.depHolds ((m.settle blocks table).holdsAt v) n (above ++ [0]) := by
    intro n above hn
    rw [← h.dep_settle hv hn, h.node_settle, h.node_inherited hn, dep_inherit]
  constructor
  case stands =>
    intro n hn
    rw [order, h.tree_settle] at hn
    exact Tree.forestIds_stand blocks (mem_forestIds_of_outline hn)
  case dep => exact fun n above hn => h.dep_settle hv hn
  case prompt =>
    intro n above hn
    rw [h.node_settle, h.node_inherited hn,
      prompt_inherit hj (hdep n above hn) (around_visible_holds hj h.entry_zero above)]
  case properties =>
    intro n above hn hitem
    rw [h.node_settle, h.node_inherited hn]
    exact properties_inherit hj hitem (hdep n above hn)
  case nodes => exact h.nodes_eq_filter
  case lists => exact fun s hs => h.lists_settle hs
  case directDep => exact fun s hs => h.directDep_settle hv hs
  case revDep => exact fun s hs => (h.forced_settle hv hs).1
  case weakRevDep => exact fun s hs => (h.forced_settle hv hs).2

/-- A prompt is shown only when what its node depends on holds. -/
theorem depHolds_of_shown {n : NodeId} {above : List NodeId} {p : Prompt}
    (hn : Tree.Stands blocks above n) (hp : ((m.settle blocks table).node n).prompt = some p)
    (hshown : (m.settle blocks table).holdsAt v p.cond = true) :
    m.depHolds ((m.settle blocks table).holdsAt v) n (above ++ [0]) = true := by
  have hpropagates : m.Propagates blocks v (m.settle blocks table) := h.propagates hv
  have hprompts := hpropagates.prompt n above hn
  rw [hp] at hprompts
  obtain ⟨p', -, hp'⟩ := Option.map_eq_some_iff.mp hprompts.symm
  have hcond := (Prod.mk.inj hp').2.trans hshown
  exact ((Bool.and_eq_true _ _).mp hcond).2

/-- A symbol whose prompts stand inside a choice is visible only when the choice is in use. -/
theorem choice_of_visible
    (hroot : (m.settle blocks table).Linked) {s : SymbolId}
    {c : ChoiceId} (hinside : ∀ n ∈ ((m.settle blocks table).symbol s).nodes,
      ((m.settle blocks table).node n).prompt.isSome →
        (((m.settle blocks table).linksOf n).parent.map
          fun n => ((m.settle blocks table).node n).entry) = some (.choice c))
    (hvisible : ((m.settle blocks table).visibility (.symbol s)).result v = true) :
    (v (.level (.choice c))).value = true := by
  obtain ⟨e, he, hshown⟩ := anyHolds_result hvisible
  obtain ⟨n, hn, hprompt⟩ := List.mem_filterMap.mp he
  obtain ⟨p, hp, rfl⟩ := Option.map_eq_some_iff.mp hprompt
  have hparent := hinside n hn (hp ▸ rfl)
  have hzero : n ≠ 0 := by
    rintro rfl
    rw [hroot.top] at hparent
    exact nomatch hparent
  obtain ⟨above, hstands, hchoice⟩ :=
    h.stands_inside hroot (h.mem_tree_of_prompt hzero hp) hparent
  have hdep := h.depHolds_of_shown hv hstands hp hshown
  have houter : m.outerHolds ((m.settle blocks table).holdsAt v) (above ++ [0]) = true :=
    ((Bool.and_eq_true _ _).mp hdep).2
  exact choice_of_outerHolds hchoice houter

/-- The direct dependencies of a visible symbol hold: its prompt needs what its node depends on. -/
theorem directDep_of_visible {s : SymbolId}
    (hvisible : ((m.settle blocks table).visibility (.symbol s)).result v = true) :
    (m.settle blocks table).holdsAt v ((m.settle blocks table).symbol s).directDep = true := by
  obtain ⟨e, he, hshown⟩ := anyHolds_result hvisible
  obtain ⟨n, hn, hprompt⟩ := List.mem_filterMap.mp he
  obtain ⟨p, hp, rfl⟩ := Option.map_eq_some_iff.mp hprompt
  have hs : s < (m.settle blocks table).symbols.size := by
    refine Nat.lt_of_not_le fun hle => ?_
    rw [itemNodes, symbol_of_size_le hle] at hn
    exact absurd hn List.not_mem_nil
  obtain ⟨hmem, hsymbol⟩ : n ∈ Tree.forestIds blocks ∧ _ := h.mem_forestIds_of_symbol <| by
    rw [itemNodes, (h.names_settle s).2.2, h.raw.symbolNodes] at hn
    exact mem_placesIn.mp hn
  obtain ⟨above, hstands⟩ := Tree.forestIds_stand blocks hmem
  rw [h.directDep_settle hv hs, List.any_eq_true]
  refine ⟨n, hn, ?_⟩
  rw [h.dep_settle hv hstands]
  exact h.depHolds_of_shown hv hstands hp hshown

end Read

/-- In whatever the files say, the dependencies of the blocks reach all that they guard; the blocks
are the trees that the links lead through before the model is finalized. -/
theorem finalize_propagates {host : Host} {options : LoadOptions} {version : Int}
    {dialect : Dialect} (hdialect : Load.dialectOf host version = .ok dialect) {links : Array Links}
    {w : Workspace} (hfiles : Reading.readLinks dialect options.name
      (Load.start host options version) = .ok links w) (hv : v.Plain) :
    ∃ blocks m, (w.model.withLinks links).rootTrees = some blocks ∧
      (w.model.withLinks links).finalize = some m ∧
      (w.model.withLinks links).Propagates blocks v m := by
  have hready : Ready (Load.start host options version) :=
    ⟨rfl, Load.raw_start host options version⟩
  obtain ⟨blocks, hblocks, hconnects⟩ := Reading.readFiles_of_readLinks hfiles
  have hread := Load.read_of_readFiles (Load.dialectOf_sound hdialect) hready rfl hblocks
  obtain ⟨table, hfinalize, -⟩ := hread.exists_finalize_withLinks hconnects
  exact ⟨blocks, _, hread.rootTrees_withLinks hconnects, hfinalize,
    (hread.withLinks links).propagates hv⟩

/-- A prompt and a `select` inside a block. -/
def guardedFiles : Host where
  files.entries := [(["work", "Kconfig"], .file (.text
    "if A\nconfig FOO\n\tbool \"foo\" if D\n\tselect B\nendif\n"))]

/-- The valuation under which nothing but `y` holds. -/
def onlyYes : Valuation
  | .text _ => ⟨"", false⟩
  | .level i => ⟨i = .symbol yesId, false⟩
  | .visible _ => false
  | .assignable _ => []
  | .selection _ => none

theorem guardedFiles_propagate : ∃ links w blocks m,
    Reading.readLinks .tokens "Kconfig" (Load.start guardedFiles {} 1) = .ok links w ∧
      (w.model.withLinks links).rootTrees = some blocks ∧
      (w.model.withLinks links).finalize = some m ∧
      (w.model.withLinks links).Propagates blocks onlyYes m := by
  obtain ⟨links, w, hfiles⟩ := ok_of_succeeds
    (r := Reading.readLinks .tokens "Kconfig" (Load.start guardedFiles {} 1)) (by decide +kernel)
  have hdialect : Load.dialectOf guardedFiles 1 = .ok .tokens := rfl
  have hplain : onlyYes.Plain := ⟨rfl, rfl⟩
  obtain ⟨blocks, m, hpropagates⟩ :=
    @finalize_propagates onlyYes guardedFiles {} 1 .tokens hdialect links w hfiles hplain
  exact ⟨links, w, blocks, m, hfiles, hpropagates⟩

end Model
end Kconfig
