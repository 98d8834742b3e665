import Kconfig.Proofs.Lists
import Kconfig.Proofs.Model.Outline
/-!
What symbols and choices have from their nodes.

Each node adds to the symbol that it is about, and to the symbols that it forces. What a symbol has
in the end can be written down as lists over the nodes. Choices are filled afterwards; that changes
nothing of a symbol but its choice and its type, and the type only if some node is about it.
-/
namespace Kconfig
namespace Model
variable {m m' m'' : Model}

/-! ### Nodes and the symbols they are about -/

/-- What the nodes give of a field to the symbol they are about. -/
def given {α : Type} (m : Model) (field : MenuNode → List α) (s : SymbolId) (nodes : List NodeId) :
    List α :=
  nodes.flatMap fun n => if m.symbolOf? n = some s then field (m.node n) else []

/-- The conditions under which nodes force a symbol. -/
def forcing (m : Model) (field : MenuNode → List (Guarded SymbolId)) (s : SymbolId)
    (nodes : List NodeId) : List Expr :=
  nodes.flatMap fun n =>
    match m.symbolOf? n with
    | some t => ((field (m.node n)).filter (·.value = s)).map fun p => (Expr.symbol t).conj p.cond
    | none => []

/-- A symbol with what it has from nodes. -/
def gathered (m : Model) (s : SymbolId) (nodes : List NodeId) (sym : Symbol) : Symbol :=
  { sym with
    directDep := (m.given (fun node => [node.dep]) s nodes).foldl Expr.disj sym.directDep
    revDep := (m.forcing (·.selects) s nodes).foldl Expr.disj sym.revDep
    weakRevDep := (m.forcing (·.implies) s nodes).foldl Expr.disj sym.weakRevDep
    defaults := sym.defaults ++ m.given (·.defaults) s nodes
    selects := sym.selects ++ m.given (·.selects) s nodes
    implies := sym.implies ++ m.given (·.implies) s nodes
    ranges := sym.ranges ++ m.given (·.ranges) s nodes }

theorem gathered_append (s : SymbolId) (ns ks : List NodeId) (sym : Symbol) :
    m.gathered s (ns ++ ks) sym = m.gathered s ks (m.gathered s ns sym) := by
  simp [gathered, given, forcing, List.flatMap_append, List.foldl_append]

theorem gathered_nil (s : SymbolId) (sym : Symbol) : m.gathered s [] sym = sym := by
  simp [gathered, given, forcing]

/-- Only the nodes count. -/
theorem gathered_congr (h : m'.nodes = m.nodes) (s : SymbolId) (ns : List NodeId) (sym : Symbol) :
    m'.gathered s ns sym = m.gathered s ns sym := by
  have hnode : m'.node = m.node := funext fun n => by rw [node, node, h]
  have hsymbol : m'.symbolOf? = m.symbolOf? := funext fun n => by
    rw [symbolOf?, symbolOf?, hnode]
  simp only [gathered, given, forcing, hnode, hsymbol]

/-- Changes to symbols, each according to a list. -/
theorem symbol_foldl_setSymbol {α : Type} (target : α → SymbolId) (f : α → Symbol → Symbol)
    {s : SymbolId} : ∀ (xs : List α) {m : Model}, s < m.symbols.size →
      (xs.foldl (fun m x => m.setSymbol (target x) (f x)) m).symbol s =
        (xs.filter (target · = s)).foldl (fun sym x => f x sym) (m.symbol s)
  | [], _, _ => rfl
  | x :: xs, m, hs => by
    have hs' : s < (m.setSymbol (target x) (f x)).symbols.size :=
      Nat.lt_of_lt_of_eq hs Array.size_modify.symm
    rw [List.foldl_cons, symbol_foldl_setSymbol target f xs hs', symbol_setSymbol]
    by_cases h : target x = s
    · rw [if_pos ⟨h, hs⟩, List.filter_cons_of_pos (by simp [h]), List.foldl_cons]
    · rw [if_neg fun h' => h h'.1, List.filter_cons_of_neg (by simp [h])]

/-- What forcing symbols changes: one field of those that are forced. -/
theorem symbol_force {s t : SymbolId} {targets : List (Guarded SymbolId)}
    {change : (Expr → Expr) → Symbol → Symbol} (hs : s < m.symbols.size) :
    (force t targets change m).symbol s =
      (targets.filter (·.value = s)).foldl
        (fun sym p => change (fun e => e.disj ((Expr.symbol t).conj p.cond)) sym) (m.symbol s) :=
  symbol_foldl_setSymbol (fun p : Guarded SymbolId => p.value)
    (fun p => change fun e => e.disj ((Expr.symbol t).conj p.cond)) targets hs

/-- Symbols change, and nothing else. -/
structure Gathers (m m' : Model) : Prop where
  rest : m' = { m with symbols := m'.symbols }
  size : m'.symbols.size = m.symbols.size

theorem Gathers.refl (m : Model) : m.Gathers m := ⟨rfl, rfl⟩

theorem Gathers.trans (h : m.Gathers m') (h' : m'.Gathers m'') : m.Gathers m'' := by
  refine ⟨?_, h'.size.trans h.size⟩
  rw [h'.rest, h.rest]

theorem gathers_setSymbol (m : Model) (s : SymbolId) (f : Symbol → Symbol) :
    m.Gathers (m.setSymbol s f) := ⟨rfl, Array.size_modify⟩

theorem gathers_force (s : SymbolId) (targets : List (Guarded SymbolId))
    (change : (Expr → Expr) → Symbol → Symbol) (m : Model) :
    m.Gathers (force s targets change m) :=
  Lists.foldl_keeps (m.Gathers ·) (fun _ _ h => h.trans (gathers_setSymbol _ _ _)) targets (.refl m)

theorem gathers_addToSymbol (m : Model) (n : NodeId) : m.Gathers (m.addToSymbol n) := by
  unfold addToSymbol
  dsimp only
  split
  · exact ((gathers_setSymbol _ _ _).trans (gathers_force _ _ _ _)).trans (gathers_force _ _ _ _)
  · exact .refl m

/-- What a node adds to a symbol. -/
theorem symbol_addToSymbol {s : SymbolId} (hs : s < m.symbols.size) (n : NodeId) :
    (m.addToSymbol n).symbol s = m.gathered s [n] (m.symbol s) := by
  have hselects : ∀ (ps : List (Guarded SymbolId)) (t : SymbolId) (sym : Symbol),
      ps.foldl (fun sym p =>
        { sym with revDep := sym.revDep.disj ((Expr.symbol t).conj p.cond) }) sym =
        { sym with
          revDep := (ps.map fun p => (Expr.symbol t).conj p.cond).foldl Expr.disj sym.revDep } := by
    intro ps t
    induction ps with
    | nil => exact fun _ => rfl
    | cons p ps ih => exact fun _ => ih _
  have himplies : ∀ (ps : List (Guarded SymbolId)) (t : SymbolId) (sym : Symbol),
      ps.foldl (fun sym p =>
        { sym with weakRevDep := sym.weakRevDep.disj ((Expr.symbol t).conj p.cond) }) sym =
        { sym with weakRevDep :=
            (ps.map fun p => (Expr.symbol t).conj p.cond).foldl Expr.disj sym.weakRevDep } := by
    intro ps t
    induction ps with
    | nil => exact fun _ => rfl
    | cons p ps ih => exact fun _ => ih _
  unfold addToSymbol
  dsimp only
  cases hentry : (m.node n).entry with
  | symbol t =>
    have hsymbol : m.symbolOf? n = some t := by rw [symbolOf?, hentry]
    dsimp only
    rw [symbol_force, symbol_force, symbol_setSymbol, hselects, himplies]
    · by_cases hts : t = s
      · rw [if_pos ⟨hts, hs⟩]
        simp [gathered, given, forcing, hsymbol, hts]
      · rw [if_neg fun h => hts h.1]
        simp [gathered, given, forcing, hsymbol, hts]
    · exact Nat.lt_of_lt_of_eq hs (gathers_setSymbol _ _ _).size.symm
    · exact Nat.lt_of_lt_of_eq hs
        ((gathers_setSymbol _ _ _).trans (gathers_force _ _ _ _)).size.symm
  | _ =>
    have hsymbol : m.symbolOf? n = none := by rw [symbolOf?, hentry]
    simp [gathered, given, forcing, hsymbol]

/-- What nodes add to a symbol, one after the other. -/
theorem symbol_foldl_addToSymbol {s : SymbolId} : ∀ (ns : List NodeId) {m : Model},
    s < m.symbols.size → (ns.foldl addToSymbol m).symbol s = m.gathered s ns (m.symbol s)
  | [], m, _ => (gathered_nil s _).symm
  | n :: ns, m, hs => by
    have hgathers := gathers_addToSymbol m n
    have hnodes : (m.addToSymbol n).nodes = m.nodes := by rw [hgathers.rest]
    rw [List.foldl_cons, symbol_foldl_addToSymbol ns (Nat.lt_of_lt_of_eq hs hgathers.size.symm),
      symbol_addToSymbol hs, gathered_congr hnodes, ← gathered_append]
    rfl

theorem gathers_foldl_addToSymbol (m : Model) (ns : List NodeId) :
    m.Gathers (ns.foldl addToSymbol m) :=
  Lists.foldl_keeps (m.Gathers ·) (fun _ _ h => h.trans (gathers_addToSymbol _ _)) ns (.refl m)

/-! ### Choices and their members -/

/-- Choices are filled, and symbols learn their choices and take types. -/
structure Joins (m m' : Model) : Prop where
  rest : m' = { m with symbols := m'.symbols, choices := m'.choices }
  symbols : m'.symbols.size = m.symbols.size
  choices : m'.choices.size = m.choices.size
  symbol : ∀ s, m'.symbol s =
    { m.symbol s with choice := (m'.symbol s).choice, type := (m'.symbol s).type }
  choice : ∀ c, (m'.choice c).name = (m.choice c).name ∧ (m'.choice c).nodes = (m.choice c).nodes
  typed : ∀ s, (m'.symbol s).type = (m.symbol s).type ∨ .symbol s ∈ m.entries
  grows : ∀ c, ∀ s ∈ (m.choice c).members, s ∈ (m'.choice c).members
  members : ∀ c, ∀ s ∈ (m'.choice c).members, s ∈ (m.choice c).members ∨ .symbol s ∈ m.entries
  owned : ∀ s c, (m'.symbol s).choice = some c →
    (m.symbol s).choice = some c ∨ s ∈ (m'.choice c).members ∧ .choice c ∈ m.entries

namespace Joins

theorem entries (h : m.Joins m') : m'.entries = m.entries := by
  rw [Model.entries, Model.entries, h.rest]

theorem refl (m : Model) : m.Joins m :=
  ⟨rfl, rfl, rfl, fun _ => rfl, fun _ => ⟨rfl, rfl⟩, fun _ => .inl rfl, fun _ _ h => h,
    fun _ _ h => .inl h, fun _ _ h => .inl h⟩

theorem trans (h : m.Joins m') (h' : m'.Joins m'') : m.Joins m'' := by
  have hentries := h.entries
  constructor
  case rest => rw [h'.rest, h.rest]
  case symbols => exact h'.symbols.trans h.symbols
  case choices => exact h'.choices.trans h.choices
  case symbol =>
    intro s
    rw [h'.symbol s, h.symbol s]
  case choice =>
    exact fun c => ⟨(h'.choice c).1.trans (h.choice c).1, (h'.choice c).2.trans (h.choice c).2⟩
  case typed =>
    intro s
    rcases h'.typed s with heq | hmem
    · rw [heq]
      exact h.typed s
    · exact .inr (hentries ▸ hmem)
  case grows => exact fun c s hs => h'.grows c s (h.grows c s hs)
  case members =>
    intro c s hs
    rcases h'.members c s hs with hs | hmem
    · exact h.members c s hs
    · exact .inr (hentries ▸ hmem)
  case owned =>
    intro s c hs
    rcases h'.owned s c hs with hs | ⟨hmem, hc⟩
    · rcases h.owned s c hs with hs | ⟨hmem, hc⟩
      · exact .inl hs
      · exact .inr ⟨h'.grows c s hmem, hc⟩
    · exact .inr ⟨hmem, hentries ▸ hc⟩

/-- A fold over elements each of which only joins. -/
theorem foldl {α : Type} {f : Model → α → Model} (xs : List α) (m : Model)
    (hf : ∀ m', m.Joins m' → ∀ x ∈ xs, m'.Joins (f m' x)) : m.Joins (xs.foldl f m) := by
  suffices h : ∀ (ys : List α) {m' : Model}, (∀ y ∈ ys, y ∈ xs) → m.Joins m' →
      m.Joins (ys.foldl f m') from h xs (fun _ h => h) (.refl m)
  intro ys
  induction ys with
  | nil => exact fun _ h => h
  | cons y ys ih =>
    intro m' hsub h
    exact ih (fun z hz => hsub z (List.mem_cons_of_mem _ hz))
      (h.trans (hf m' h y (hsub y (List.mem_cons_self ..))))

/-- A symbol of some node takes a type, or learns a choice that it is a member of. -/
theorem setSymbol {s : SymbolId} {f : Symbol → Symbol} (hs : .symbol s ∈ m.entries)
    (hf : ∀ sym, f sym = { sym with choice := (f sym).choice, type := (f sym).type })
    (hchoice : ∀ sym c, (f sym).choice = some c →
      sym.choice = some c ∨ s ∈ (m.choice c).members ∧ .choice c ∈ m.entries) :
    m.Joins (m.setSymbol s f) := by
  have hsymbol : ∀ t, (m.setSymbol s f).symbol t = m.symbol t ∨
      t = s ∧ (m.setSymbol s f).symbol t = f (m.symbol t) := by
    intro t
    rw [symbol_setSymbol]
    split
    · next h => exact .inr ⟨h.1.symm, rfl⟩
    · exact .inl rfl
  refine ⟨rfl, Array.size_modify, rfl, fun t => ?_, fun _ => ⟨rfl, rfl⟩, fun t => ?_,
    fun _ _ h => h, fun _ _ h => .inl h, fun t c ht => ?_⟩
  · rcases hsymbol t with heq | ⟨-, heq⟩
    · rw [heq]
    · rw [heq]
      exact hf _
  · rcases hsymbol t with heq | ⟨rfl, -⟩
    · rw [heq]
      exact .inl rfl
    · exact .inr hs
  · rcases hsymbol t with heq | ⟨rfl, heq⟩
    · rw [heq] at ht
      exact .inl ht
    · rw [heq] at ht
      exact hchoice _ _ ht

/-- A choice takes properties, a type, and members that have nodes. -/
theorem setChoice {c : ChoiceId} {f : Choice → Choice}
    (hf : ∀ ch, (f ch).name = ch.name ∧ (f ch).nodes = ch.nodes)
    (hgrows : ∀ ch, ∀ s ∈ ch.members, s ∈ (f ch).members)
    (hmembers : ∀ ch, ∀ s ∈ (f ch).members, s ∈ ch.members ∨ .symbol s ∈ m.entries) :
    m.Joins (m.setChoice c f) := by
  have hchoice : ∀ d, (m.setChoice c f).choice d = m.choice d ∨
      (m.setChoice c f).choice d = f (m.choice d) := by
    intro d
    rw [choice_setChoice]
    split
    · exact .inr rfl
    · exact .inl rfl
  refine ⟨rfl, rfl, Array.size_modify, fun _ => rfl, fun d => ?_, fun _ => .inl rfl,
    fun d s hs => ?_, fun d s hs => ?_, fun _ _ h => .inl h⟩
  · rcases hchoice d with heq | heq
    · rw [heq]
      exact ⟨rfl, rfl⟩
    · rw [heq]
      exact hf _
  · rcases hchoice d with heq | heq
    · rw [heq]
      exact hs
    · rw [heq]
      exact hgrows _ s hs
  · rcases hchoice d with heq | heq
    · rw [heq] at hs
      exact .inl hs
    · rw [heq] at hs
      exact hmembers _ s hs

end Joins

theorem choice_takeType (type : ValueType) (sym : Symbol) :
    (takeType type sym).choice = sym.choice := by
  unfold takeType
  split <;> rfl

/-- A choice and its members take each other's types. -/
theorem joins_shareType {c : ChoiceId}
    (h : ∀ s ∈ (m.choice c).members, .symbol s ∈ m.entries) : m.Joins (m.shareType c) := by
  unfold shareType
  have hchoice : ∀ type, m.Joins (m.setChoice c ({ · with type := type })) := fun type =>
    .setChoice (fun _ => ⟨rfl, rfl⟩) (fun _ _ h => h) fun _ _ h => .inl h
  refine (hchoice _).trans (.foldl _ _ fun m' hjoins s hs => .setSymbol ?_ (fun sym => ?_) ?_)
  · rw [hjoins.entries]
    exact h s hs
  · unfold takeType
    split <;> rfl
  · intro sym d hd
    exact .inl (choice_takeType _ sym ▸ hd)

theorem symbolOf?_mem {n : NodeId} {s : SymbolId} (hn : n < m.entries.length)
    (h : m.symbolOf? n = some s) : .symbol s ∈ m.entries := by
  have hentry : (m.node n).entry = .symbol s := by
    unfold symbolOf? at h
    cases hentry : (m.node n).entry <;> simp_all
  exact hentry ▸ entry_mem hn

theorem Joins.of_addToChoice {id : NodeId} {below : List NodeId}
    (hchoices : ∀ c, .choice c ∈ m.entries → c < m.choices.size)
    (hold : ∀ c, ∀ s ∈ (m.choice c).members, .symbol s ∈ m.entries) (hid : id < m.entries.length)
    (hbelow : ∀ n ∈ below, n < m.entries.length) : m.Joins (m.addToChoice id below) := by
  have hchildren : ∀ s ∈ below.filterMap m.symbolOf?, .symbol s ∈ m.entries := by
    intro s hs
    obtain ⟨n, hn, hsymbol⟩ := List.mem_filterMap.mp hs
    exact symbolOf?_mem (hbelow n hn) hsymbol
  unfold addToChoice
  dsimp only
  cases hentry : (m.node id).entry with
  | choice c =>
    have hmem : .choice c ∈ m.entries := hentry ▸ entry_mem hid
    dsimp only
    -- The choice takes its members first, so that they can learn whose they are.
    let m₁ := m.setChoice c fun ch => { ch with
      directDep := ch.directDep.disj (m.node id).dep
      defaults := ch.defaults ++ (m.node id).defaults
      members := ch.members ++ below.filterMap m.symbolOf? }
    have h₁ : m.Joins m₁ := by
      refine .setChoice (fun _ => ⟨rfl, rfl⟩) (fun _ _ h => List.mem_append_left _ h) fun ch s hs => ?_
      exact (List.mem_append.mp hs).imp_right (hchildren s)
    have hmembers : ∀ s ∈ below.filterMap m.symbolOf?, s ∈ (m₁.choice c).members := by
      intro s hs
      rw [choice_setChoice, if_pos ⟨rfl, hchoices c hmem⟩]
      exact List.mem_append_right _ hs
    have h₂ : m.Joins ((below.filterMap m.symbolOf?).foldl
        (fun m s => m.setSymbol s ({ · with choice := some c })) m₁) := by
      refine h₁.trans (.foldl _ _ fun m' hjoins s hs => .setSymbol ?_ (fun _ => rfl) ?_)
      · rw [hjoins.entries, h₁.entries]
        exact hchildren s hs
      · intro sym d hd
        obtain rfl := Option.some.inj hd
        refine .inr ⟨hjoins.grows c s (hmembers s hs), ?_⟩
        rw [hjoins.entries, h₁.entries]
        exact hmem
    refine h₂.trans (joins_shareType fun s hs => ?_)
    rw [h₂.entries]
    exact (h₂.members c s hs).elim (hold c s) fun h => h
  | _ => exact .refl m

mutual

/-- Filling the choices of trees joins symbols and choices. -/
theorem Joins.of_fillChoices : ∀ (t : Tree) {m : Model},
    (∀ c, .choice c ∈ m.entries → c < m.choices.size) →
    (∀ c, ∀ s ∈ (m.choice c).members, .symbol s ∈ m.entries) →
    (∀ n ∈ t.ids, n < m.entries.length) → m.Joins (m.fillChoices t)
  | .node id children, m, hchoices, hold, ht => by
    rw [fillChoices]
    have hjoins : m.Joins (m.fillChoicesForest children) :=
      .of_fillChoicesForest children hchoices hold fun n hn => ht n (by
        rw [Tree.ids]
        exact List.mem_cons_of_mem _ hn)
    refine hjoins.trans
      (.of_addToChoice (fun c hc => ?_) (fun c s hs => ?_) ?_ fun n hn => ?_)
    · rw [hjoins.entries] at hc
      rw [hjoins.choices]
      exact hchoices c hc
    · rw [hjoins.entries]
      exact (hjoins.members c s hs).elim (hold c s) fun h => h
    · rw [hjoins.entries]
      exact ht id (by
        rw [Tree.ids]
        exact List.mem_cons_self ..)
    · obtain ⟨child, hchild, rfl⟩ := List.mem_map.mp hn
      rw [hjoins.entries]
      refine ht _ ?_
      rw [Tree.ids]
      exact List.mem_cons_of_mem _ (Tree.mem_forestIds_of_mem hchild (Tree.id_mem_ids child))

theorem Joins.of_fillChoicesForest : ∀ (ts : List Tree) {m : Model},
    (∀ c, .choice c ∈ m.entries → c < m.choices.size) →
    (∀ c, ∀ s ∈ (m.choice c).members, .symbol s ∈ m.entries) →
    (∀ n ∈ Tree.forestIds ts, n < m.entries.length) → m.Joins (m.fillChoicesForest ts)
  | [], m, _, _, _ => by
    rw [fillChoicesForest]
    exact .refl m
  | t :: ts, m, hchoices, hold, hts => by
    rw [fillChoicesForest]
    have hjoins : m.Joins (m.fillChoices t) :=
      .of_fillChoices t hchoices hold fun n hn => hts n (by
        rw [Tree.forestIds]
        exact List.mem_append_left _ hn)
    refine hjoins.trans (.of_fillChoicesForest ts (fun c hc => ?_) (fun c s hs => ?_) fun n hn => ?_)
    · rw [hjoins.entries] at hc
      rw [hjoins.choices]
      exact hchoices c hc
    · rw [hjoins.entries]
      exact (hjoins.members c s hs).elim (hold c s) fun h => h
    · rw [hjoins.entries]
      exact hts n (by
        rw [Tree.forestIds]
        exact List.mem_append_right _ hn)

end

/-! ### Members know their choices -/

/-- Members of choices know that they belong to one. -/
def Owned (m : Model) : Prop :=
  ∀ c, ∀ s ∈ (m.choice c).members, s < m.symbols.size → (m.symbol s).choice.isSome

/-- A symbol that belongs to a choice still does when symbols change that do not leave theirs. -/
theorem choice_isSome_setSymbol {s t : SymbolId} {f : Symbol → Symbol}
    (hf : ∀ sym : Symbol, sym.choice.isSome → (f sym).choice.isSome)
    (h : (m.symbol t).choice.isSome) : ((m.setSymbol s f).symbol t).choice.isSome := by
  rw [symbol_setSymbol]
  split
  · exact hf _ h
  · exact h

/-- Sharing types changes neither members nor who belongs to a choice. -/
theorem shareType_keeps (m : Model) (c : ChoiceId) :
    (∀ d, ((m.shareType c).choice d).members = (m.choice d).members) ∧
      (m.shareType c).symbols.size = m.symbols.size ∧
      ∀ s, (m.symbol s).choice.isSome → ((m.shareType c).symbol s).choice.isSome := by
  refine Lists.foldl_keeps (fun m' : Model => (∀ d, (m'.choice d).members = (m.choice d).members) ∧
    m'.symbols.size = m.symbols.size ∧
      ∀ s, (m.symbol s).choice.isSome → (m'.symbol s).choice.isSome)
    (fun m' t ⟨hmembers, hsize, hchoice⟩ => ?_) _ ⟨fun d => ?_, rfl, fun _ h => h⟩
  · refine ⟨hmembers, Array.size_modify.trans hsize, fun s hs => ?_⟩
    exact choice_isSome_setSymbol (fun sym h => choice_takeType _ sym ▸ h) (hchoice s hs)
  · rw [choice_setChoice]
    split <;> rfl

/-- New members learn to which choice they belong. -/
theorem Owned.addToChoice (h : m.Owned) (id : NodeId) (below : List NodeId) :
    (m.addToChoice id below).Owned := by
  unfold Model.addToChoice
  dsimp only
  cases (m.node id).entry with
  | choice c =>
    dsimp only
    let m₁ := m.setChoice c fun ch => { ch with
      directDep := ch.directDep.disj (m.node id).dep
      defaults := ch.defaults ++ (m.node id).defaults
      members := ch.members ++ below.filterMap m.symbolOf? }
    let m₂ := (below.filterMap m.symbolOf?).foldl
      (fun m s => m.setSymbol s ({ · with choice := some c })) m₁
    show (m₂.shareType c).Owned
    obtain ⟨hmembers, hsize, hkeeps⟩ := shareType_keeps m₂ c
    have hlearns : ∀ (m' : Model) (s t : SymbolId), (m'.symbol s).choice.isSome →
        ((m'.setSymbol t ({ · with choice := some c })).symbol s).choice.isSome := fun _ _ _ =>
      choice_isSome_setSymbol fun _ _ => rfl
    obtain ⟨hsize₂, hmembers₂⟩ : m₂.symbols.size = m.symbols.size ∧ m₂.choices = m₁.choices := by
      refine Lists.foldl_keeps (fun m' : Model => m'.symbols.size = m.symbols.size ∧
        m'.choices = m₁.choices) (fun m' t hm' => ?_) (below.filterMap m.symbolOf?) (b := m₁) ⟨rfl, rfl⟩
      exact ⟨Array.size_modify.trans hm'.1, hm'.2⟩
    intro d s hs hlt
    refine hkeeps s ?_
    rw [hmembers d, Model.choice, hmembers₂] at hs
    rw [hsize, hsize₂] at hlt
    have hs : s ∈ (m₁.choice d).members := hs
    have hcases : s ∈ (m.choice d).members ∨ s ∈ below.filterMap m.symbolOf? := by
      rw [choice_setChoice] at hs
      split at hs
      · exact List.mem_append.mp hs
      · exact .inl hs
    rcases hcases with hold | hnew
    · exact Lists.foldl_keeps (fun m' : Model => (m'.symbol s).choice.isSome)
        (fun m' t => hlearns m' s t) _ (h d s hold hlt)
    · refine Lists.foldl_reaches (fun m' : Model => s < m'.symbols.size)
        (fun m' : Model => (m'.symbol s).choice.isSome)
        (fun _ _ h => Nat.lt_of_lt_of_eq h Array.size_modify.symm) (fun m' t => hlearns m' s t)
        (fun m' hm' => ?_) _ hlt hnew
      rw [symbol_setSymbol, if_pos ⟨rfl, hm'⟩]
      rfl
  | _ => exact h

mutual

theorem Owned.fillChoices : ∀ (t : Tree) {m : Model}, m.Owned → (m.fillChoices t).Owned
  | .node _ children, _, h => by
    rw [Model.fillChoices]
    exact (Owned.fillChoicesForest children h).addToChoice _ _

theorem Owned.fillChoicesForest : ∀ (ts : List Tree) {m : Model}, m.Owned →
    (m.fillChoicesForest ts).Owned
  | [], _, h => by rwa [Model.fillChoicesForest]
  | t :: ts, _, h => by
    rw [Model.fillChoicesForest]
    exact Owned.fillChoicesForest ts (Owned.fillChoices t h)

end

end Model
end Kconfig
