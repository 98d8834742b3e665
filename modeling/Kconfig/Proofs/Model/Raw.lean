import Kconfig.Model.Basic
/-!
Raw models: what has been read, before it is settled.

The symbols of a raw model are known by unique names, and symbols, choices and their definitions are
in step with the nodes. Nothing has come to symbols and choices from their nodes yet. Five changes
keep a model raw: a new symbol, a new choice, a new node, a change inside a node, and a change to a
symbol or choice that has a node.
-/
namespace Kconfig

/-- The symbol of an entry. -/
def Entry.symbol? : Entry → Option SymbolId
  | .symbol s => some s
  | _ => none

/-- The choice of an entry. -/
def Entry.choice? : Entry → Option ChoiceId
  | .choice c => some c
  | _ => none

/-- The places where an entry stands. -/
def placesIn (entries : List Entry) (e : Entry) : List NodeId :=
  (List.range entries.length).filter fun n => entries[n]? = some e

/-- The symbol has nothing from its nodes. -/
structure Symbol.Bare (sym : Symbol) : Prop where
  directDep : sym.directDep = .no
  revDep : sym.revDep = .no
  weakRevDep : sym.weakRevDep = .no
  defaults : sym.defaults = []
  selects : sym.selects = []
  implies : sym.implies = []
  ranges : sym.ranges = []
  choice : sym.choice = none

/-- The choice has nothing from its nodes. -/
structure Choice.Bare (ch : Choice) : Prop where
  directDep : ch.directDep = .no
  defaults : ch.defaults = []
  members : ch.members = []

namespace Model

/-- What the nodes are about, in order. -/
def entries (m : Model) : List Entry := m.nodes.toList.map (·.entry)

theorem length_entries (m : Model) : m.entries.length = m.nodes.size := by
  simp [entries]

theorem getElem?_entries (m : Model) (n : NodeId) :
    m.entries[n]? = (m.nodes[n]?).map (·.entry) := by
  simp [entries]

/-- The entry of a node that exists. -/
theorem entry_of_lt {m : Model} {n : NodeId} (h : n < m.entries.length) :
    m.entries[n]? = some (m.node n).entry := by
  rw [length_entries] at h
  rw [getElem?_entries, node, Array.getElem?_eq_getElem h]
  rfl

theorem entry_mem {m : Model} {n : NodeId} (h : n < m.entries.length) :
    (m.node n).entry ∈ m.entries := List.mem_of_getElem? (entry_of_lt h)

/-- A model as reading leaves it. -/
structure Raw (m : Model) : Prop where
  known : m.known = m.symbols.size
  no : m.symbols[noId]? = some { name := "n", isConstant := true, type := .bool }
  yes : m.symbols[yesId]? = some { name := "y", isConstant := true, type := .bool }
  unique : ∀ s t, s < m.symbols.size → t < m.symbols.size →
    (m.symbol s).name = (m.symbol t).name → (m.symbol s).isConstant = (m.symbol t).isConstant →
    s = t
  symbolNodes : ∀ s, (m.symbol s).nodes = placesIn m.entries (.symbol s)
  choiceNodes : ∀ c, (m.choice c).nodes = placesIn m.entries (.choice c)
  definitions : m.definitions.toList = m.entries.filterMap Entry.symbol?
  choiceDefinitions : m.choiceDefinitions.toList = m.entries.filterMap Entry.choice?
  symbolEntry : ∀ s, .symbol s ∈ m.entries → s < m.symbols.size ∧ (m.symbol s).isConstant = false
  choiceEntry : ∀ c, .choice c ∈ m.entries → c < m.choices.size
  typed : ∀ s, (m.symbol s).type ≠ .unknown → s = noId ∨ s = yesId ∨ .symbol s ∈ m.entries
  bare : ∀ s, (m.symbol s).Bare
  bareChoice : ∀ c, (m.choice c).Bare
  top : m.entries.head? = some .menu
  /-- Blocks have no prompt. -/
  untitled : ∀ n, (m.node n).entry = .block → (m.node n).prompt = none
  /-- The names `n` and `y` are those of constants only. -/
  proper : ∀ s, s < m.symbols.size → (m.symbol s).isConstant = false →
    (m.symbol s).name ≠ "n" ∧ (m.symbol s).name ≠ "y"

end Model

/-! ### Places -/

theorem mem_placesIn {entries : List Entry} {e : Entry} {n : NodeId} :
    n ∈ placesIn entries e ↔ entries[n]? = some e := by
  simp only [placesIn, List.mem_filter, List.mem_range, decide_eq_true_eq, and_iff_right_iff_imp]
  intro h
  exact (List.getElem?_eq_some_iff.mp h).1

theorem placesIn_eq_nil {entries : List Entry} {e : Entry} :
    placesIn entries e = [] ↔ e ∉ entries := by
  rw [List.eq_nil_iff_forall_not_mem]
  constructor
  · intro h hmem
    obtain ⟨n, hn⟩ := List.mem_iff_getElem?.mp hmem
    exact h n (mem_placesIn.mpr hn)
  · intro h n hn
    exact h (List.mem_of_getElem? (mem_placesIn.mp hn))

/-- A further entry adds its own place. -/
theorem placesIn_concat (entries : List Entry) (e e' : Entry) :
    placesIn (entries ++ [e']) e = placesIn entries e ++ if e' = e then [entries.length] else [] := by
  have hold : (List.range entries.length).filter (fun n => (entries ++ [e'])[n]? = some e) =
      placesIn entries e := by
    refine List.filter_congr fun n hn => ?_
    rw [List.getElem?_append_left (List.mem_range.mp hn)]
  have hnew : (entries ++ [e'])[entries.length]? = some e' := by simp
  rw [placesIn, List.length_append, List.length_singleton, List.range_succ, List.filter_append, hold]
  congr 1
  by_cases h : e' = e
  · simp [h]
  · simp [h]

namespace Model
variable {m m' : Model}

/-! ### Looking up after a change -/

theorem symbol_setSymbol (m : Model) (s t : SymbolId) (f : Symbol → Symbol) :
    (m.setSymbol s f).symbol t =
      if s = t ∧ t < m.symbols.size then f (m.symbol t) else m.symbol t := by
  rw [symbol, setSymbol, Array.getElem?_modify]
  by_cases hst : s = t
  · by_cases ht : t < m.symbols.size
    · simp [hst, ht, symbol]
    · simp [hst, ht, symbol]
  · simp [hst, symbol]

theorem choice_setChoice (m : Model) (c d : ChoiceId) (f : Choice → Choice) :
    (m.setChoice c f).choice d =
      if c = d ∧ d < m.choices.size then f (m.choice d) else m.choice d := by
  rw [choice, setChoice, Array.getElem?_modify]
  by_cases hcd : c = d
  · by_cases hd : d < m.choices.size
    · simp [hcd, hd, choice]
    · simp [hcd, hd, choice]
  · simp [hcd, choice]

theorem node_setNode (m : Model) (n k : NodeId) (f : MenuNode → MenuNode) :
    (m.setNode n f).node k = if n = k ∧ k < m.nodes.size then f (m.node k) else m.node k := by
  rw [node, setNode, Array.getElem?_modify]
  by_cases hnk : n = k
  · by_cases hk : k < m.nodes.size
    · simp [hnk, hk, node]
    · simp [hnk, hk, node]
  · simp [hnk, node]

/-- A change inside a node that keeps what it is about keeps the entries. -/
theorem entries_setNode {n : NodeId} {f : MenuNode → MenuNode}
    (hf : ∀ node, (f node).entry = node.entry) : (m.setNode n f).entries = m.entries := by
  refine List.ext_getElem? fun k => ?_
  rw [getElem?_entries, getElem?_entries, setNode, Array.getElem?_modify]
  split
  · cases m.nodes[k]? <;> simp [hf]
  · rfl

/-- The model with one more symbol. -/
def withSymbol (m : Model) (name : String) (isConstant : Bool) : Model :=
  { m with symbols := m.symbols.push { name, isConstant }, known := m.known + 1 }

theorem symbol_withSymbol (m : Model) (name : String) (isConstant : Bool) (s : SymbolId) :
    (m.withSymbol name isConstant).symbol s =
      if s = m.symbols.size then { name, isConstant } else m.symbol s := by
  rw [symbol, withSymbol, Array.getElem?_push]
  split
  · rfl
  · rfl

/-- The model with one more node. -/
def withNode (m : Model) (node : MenuNode) : Model := { m with nodes := m.nodes.push node }

theorem entries_withNode (m : Model) (node : MenuNode) :
    (m.withNode node).entries = m.entries ++ [node.entry] := by
  simp [entries, withNode]

theorem node_withNode (m : Model) (node : MenuNode) (n : NodeId) :
    (m.withNode node).node n = if n = m.nodes.size then node else m.node n := by
  rw [Model.node, withNode, Array.getElem?_push]
  split
  · rfl
  · rfl

/-- The known symbol that is found has the name and constancy that were asked for. -/
theorem find?_eq_some {name : String} {isConstant : Bool} {s : SymbolId}
    (h : m.find? name isConstant = some s) :
    s < m.known ∧ (m.symbol s).name = name ∧ (m.symbol s).isConstant = isConstant := by
  have hmem := List.mem_of_find?_eq_some h
  have hname := List.find?_some h
  simp only [Bool.and_eq_true, beq_iff_eq] at hname
  exact ⟨List.mem_range.mp hmem, hname.2, hname.1⟩

theorem find?_eq_none {name : String} {isConstant : Bool} (h : m.find? name isConstant = none)
    {s : SymbolId} (hs : s < m.known) (hname : (m.symbol s).name = name) :
    (m.symbol s).isConstant ≠ isConstant := by
  intro hconst
  have hno := List.find?_eq_none.mp h s (List.mem_range.mpr hs)
  simp [hname, hconst] at hno

namespace Raw

theorem two_le (h : m.Raw) : 2 ≤ m.symbols.size := by
  have hsize := (Array.getElem?_eq_some_iff.mp h.yes).1
  exact hsize

theorem symbol_no (h : m.Raw) :
    m.symbol noId = { name := "n", isConstant := true, type := .bool } := by
  rw [symbol, h.no]
  rfl

theorem symbol_yes (h : m.Raw) :
    m.symbol yesId = { name := "y", isConstant := true, type := .bool } := by
  rw [symbol, h.yes]
  rfl

/-- What a model's files are about is what matters of its nodes. -/
theorem congr (h : m.Raw) (hsymbols : m'.symbols = m.symbols) (hknown : m'.known = m.known)
    (hchoices : m'.choices = m.choices) (hdefinitions : m'.definitions = m.definitions)
    (hchoiceDefinitions : m'.choiceDefinitions = m.choiceDefinitions)
    (hentries : m'.entries = m.entries)
    (huntitled : ∀ n, (m'.node n).entry = .block → (m'.node n).prompt = none) : m'.Raw := by
  have hsymbol : ∀ s, m'.symbol s = m.symbol s := fun s => by rw [symbol, hsymbols, symbol]
  have hchoice : ∀ c, m'.choice c = m.choice c := fun c => by rw [choice, hchoices, choice]
  refine ⟨?_, ?_, ?_, ?_, ?_, ?_, ?_, ?_, ?_, ?_, ?_, ?_, ?_, ?_, huntitled, ?_⟩ <;>
    simp only [hsymbols, hknown, hchoices, hdefinitions, hchoiceDefinitions, hentries, hsymbol,
      hchoice]
  · exact h.known
  · exact h.no
  · exact h.yes
  · exact h.unique
  · exact h.symbolNodes
  · exact h.choiceNodes
  · exact h.definitions
  · exact h.choiceDefinitions
  · exact h.symbolEntry
  · exact h.choiceEntry
  · exact h.typed
  · exact h.bare
  · exact h.bareChoice
  · exact h.top
  · exact h.proper

/-- A change inside a node that gives no block a prompt. -/
theorem setNode (h : m.Raw) {n : NodeId} {f : MenuNode → MenuNode}
    (hf : ∀ node, (f node).entry = node.entry)
    (hprompt : (m.node n).entry = .block → ∀ node, (f node).prompt = node.prompt) :
    (m.setNode n f).Raw := by
  refine h.congr rfl rfl rfl rfl rfl (entries_setNode hf) fun k hk => ?_
  rw [node_setNode] at hk ⊢
  split at hk
  · next hnk =>
    obtain ⟨rfl, hlt⟩ := hnk
    rw [hf] at hk
    rw [if_pos ⟨rfl, hlt⟩, hprompt hk]
    exact h.untitled n hk
  · next hnk =>
    rw [if_neg hnk]
    exact h.untitled k hk

/-- A symbol with a new name keeps a model raw. -/
theorem withSymbol (h : m.Raw) {name : String} {isConstant : Bool}
    (hnew : m.find? name isConstant = none)
    (hname : isConstant = false → name ≠ "n" ∧ name ≠ "y") :
    (m.withSymbol name isConstant).Raw := by
  have hsize : (m.withSymbol name isConstant).symbols.size = m.symbols.size + 1 :=
    Array.size_push ..
  have hold : ∀ s, s ≠ m.symbols.size → (m.withSymbol name isConstant).symbol s = m.symbol s :=
    fun s hs => by rw [symbol_withSymbol, if_neg hs]
  have hlast : (m.withSymbol name isConstant).symbol m.symbols.size = { name, isConstant } := by
    rw [symbol_withSymbol, if_pos rfl]
  have hnot : ∀ s, s < m.symbols.size → (m.symbol s).name = name →
      (m.symbol s).isConstant ≠ isConstant := fun s hs =>
    find?_eq_none hnew (by rw [h.known]; exact hs)
  have hno : noId ≠ m.symbols.size := Nat.ne_of_lt (Nat.lt_of_lt_of_le Nat.zero_lt_two h.two_le)
  have hyes : yesId ≠ m.symbols.size := Nat.ne_of_lt (Nat.lt_of_lt_of_le Nat.one_lt_two h.two_le)
  constructor
  case known =>
    rw [hsize]
    exact congrArg (· + 1) h.known
  case no =>
    rw [Model.withSymbol, Array.getElem?_push, if_neg hno]
    exact h.no
  case yes =>
    rw [Model.withSymbol, Array.getElem?_push, if_neg hyes]
    exact h.yes
  case unique =>
    intro s t hs ht hname hconst
    rw [hsize] at hs ht
    by_cases hs' : s = m.symbols.size <;> by_cases ht' : t = m.symbols.size
    · exact hs'.trans ht'.symm
    · rw [hs', hlast, hold t ht'] at hname hconst
      exact absurd hconst.symm (hnot t (by omega) hname.symm)
    · rw [ht', hlast, hold s hs'] at hname hconst
      exact absurd hconst (hnot s (by omega) hname)
    · rw [hold s hs', hold t ht'] at hname hconst
      exact h.unique s t (by omega) (by omega) hname hconst
  case symbolNodes =>
    intro s
    by_cases hs : s = m.symbols.size
    · rw [hs, hlast]
      refine (placesIn_eq_nil.mpr fun hmem => ?_).symm
      exact absurd (h.symbolEntry _ hmem).1 (Nat.lt_irrefl _)
    · rw [hold s hs]
      exact h.symbolNodes s
  case choiceNodes => exact h.choiceNodes
  case definitions => exact h.definitions
  case choiceDefinitions => exact h.choiceDefinitions
  case symbolEntry =>
    intro s hmem
    obtain ⟨hlt, hconst⟩ := h.symbolEntry s hmem
    rw [hsize, hold s (Nat.ne_of_lt hlt)]
    exact ⟨Nat.lt_succ_of_lt hlt, hconst⟩
  case choiceEntry => exact h.choiceEntry
  case typed =>
    intro s
    by_cases hs : s = m.symbols.size
    · rw [hs, hlast]
      exact fun hne => absurd rfl hne
    · rw [hold s hs]
      exact h.typed s
  case bare =>
    intro s
    by_cases hs : s = m.symbols.size
    · rw [hs, hlast]
      exact ⟨rfl, rfl, rfl, rfl, rfl, rfl, rfl, rfl⟩
    · rw [hold s hs]
      exact h.bare s
  case bareChoice => exact h.bareChoice
  case top => exact h.top
  case untitled => exact h.untitled
  case proper =>
    intro s hs
    by_cases hs' : s = m.symbols.size
    · rw [hs', hlast]
      exact hname
    · rw [hold s hs']
      exact h.proper s (by rw [hsize] at hs; omega)

/-- A change to a symbol that has a node, which keeps its name, its nodes and its bareness. -/
theorem setSymbol (h : m.Raw) {s : SymbolId} {f : Symbol → Symbol} (hs : .symbol s ∈ m.entries)
    (hname : ∀ sym, (f sym).name = sym.name ∧ (f sym).isConstant = sym.isConstant)
    (hnodes : ∀ sym, (f sym).nodes = sym.nodes) (hbare : ∀ sym, sym.Bare → (f sym).Bare) :
    (m.setSymbol s f).Raw := by
  have hsize : (m.setSymbol s f).symbols.size = m.symbols.size := Array.size_modify
  have hsymbol : ∀ t, (m.setSymbol s f).symbol t = f (m.symbol t) ∧ t = s ∨
      (m.setSymbol s f).symbol t = m.symbol t := by
    intro t
    rw [symbol_setSymbol]
    split
    · next hst => exact .inl ⟨rfl, hst.1.symm⟩
    · exact .inr rfl
  have hsame : ∀ t, ((m.setSymbol s f).symbol t).name = (m.symbol t).name ∧
      ((m.setSymbol s f).symbol t).isConstant = (m.symbol t).isConstant := by
    intro t
    rcases hsymbol t with ⟨heq, -⟩ | heq
    · rw [heq]
      exact hname _
    · rw [heq]
      exact ⟨rfl, rfl⟩
  have hnot := (h.symbolEntry s hs).2
  have hne : ∀ t, (m.symbol t).isConstant = true → s ≠ t := by
    rintro t ht rfl
    rw [ht] at hnot
    exact nomatch hnot
  constructor
  case known =>
    rw [hsize]
    exact h.known
  case no =>
    rw [Model.setSymbol, Array.getElem?_modify, if_neg (hne _ (by rw [h.symbol_no]))]
    exact h.no
  case yes =>
    rw [Model.setSymbol, Array.getElem?_modify, if_neg (hne _ (by rw [h.symbol_yes]))]
    exact h.yes
  case unique =>
    intro t t' ht ht' heq hconst
    rw [hsize] at ht ht'
    rw [(hsame t).1, (hsame t').1] at heq
    rw [(hsame t).2, (hsame t').2] at hconst
    exact h.unique t t' ht ht' heq hconst
  case symbolNodes =>
    intro t
    rcases hsymbol t with ⟨heq, -⟩ | heq
    · rw [heq, hnodes]
      exact h.symbolNodes t
    · rw [heq]
      exact h.symbolNodes t
  case choiceNodes => exact h.choiceNodes
  case definitions => exact h.definitions
  case choiceDefinitions => exact h.choiceDefinitions
  case symbolEntry =>
    intro t ht
    rw [hsize, (hsame t).2]
    exact h.symbolEntry t ht
  case choiceEntry => exact h.choiceEntry
  case typed =>
    intro t
    rcases hsymbol t with ⟨-, rfl⟩ | heq
    · exact fun _ => .inr (.inr hs)
    · rw [heq]
      exact h.typed t
  case bare =>
    intro t
    rcases hsymbol t with ⟨heq, -⟩ | heq
    · rw [heq]
      exact hbare _ (h.bare t)
    · rw [heq]
      exact h.bare t
  case bareChoice => exact h.bareChoice
  case top => exact h.top
  case untitled => exact h.untitled
  case proper =>
    intro t ht
    rw [(hsame t).1, (hsame t).2]
    rw [hsize] at ht
    exact h.proper t ht

/-- A change to a choice that keeps its nodes and its bareness. -/
theorem setChoice (h : m.Raw) {c : ChoiceId} {f : Choice → Choice}
    (hnodes : ∀ ch, (f ch).nodes = ch.nodes) (hbare : ∀ ch, ch.Bare → (f ch).Bare) :
    (m.setChoice c f).Raw := by
  have hsize : (m.setChoice c f).choices.size = m.choices.size := Array.size_modify
  have hchoice : ∀ d, (m.setChoice c f).choice d = f (m.choice d) ∨
      (m.setChoice c f).choice d = m.choice d := by
    intro d
    rw [choice_setChoice]
    split
    · exact .inl rfl
    · exact .inr rfl
  refine ⟨h.known, h.no, h.yes, h.unique, h.symbolNodes, fun d => ?_, h.definitions,
    h.choiceDefinitions, h.symbolEntry, fun d hd => ?_, h.typed, h.bare, fun d => ?_, h.top,
    h.untitled, h.proper⟩
  · rcases hchoice d with heq | heq
    · rw [heq, hnodes]
      exact h.choiceNodes d
    · rw [heq]
      exact h.choiceNodes d
  · rw [hsize]
    exact h.choiceEntry d hd
  · rcases hchoice d with heq | heq
    · rw [heq]
      exact hbare _ (h.bareChoice d)
    · rw [heq]
      exact h.bareChoice d

/-! ### New choices and nodes -/

/-- The model with one more choice. -/
theorem withChoice (h : m.Raw) (name : Option String) :
    { m with choices := m.choices.push { name } : Model }.Raw := by
  have hchoice : ∀ c, { m with choices := m.choices.push { name } : Model }.choice c =
      if c = m.choices.size then { name } else m.choice c := by
    intro c
    simp only [choice, Array.getElem?_push]
    split <;> rfl
  refine ⟨h.known, h.no, h.yes, h.unique, h.symbolNodes, fun c => ?_, h.definitions,
    h.choiceDefinitions, h.symbolEntry, fun c hc => ?_, h.typed, h.bare, fun c => ?_, h.top,
    h.untitled, h.proper⟩
  · rw [hchoice]
    split
    · next hc =>
      refine (placesIn_eq_nil.mpr fun hmem => ?_).symm
      exact absurd (h.choiceEntry c hmem) (hc ▸ Nat.lt_irrefl _)
    · exact h.choiceNodes c
  · rw [Array.size_push]
    exact Nat.lt_succ_of_lt (h.choiceEntry c hc)
  · rw [hchoice]
    split
    · exact ⟨rfl, rfl, rfl⟩
    · exact h.bareChoice c

/-- No block has a prompt after a node is added that is none with a prompt. -/
theorem untitled_withNode (h : m.Raw) {node : MenuNode}
    (hprompt : node.entry = .block → node.prompt = none) (n : NodeId)
    (hn : ((m.withNode node).node n).entry = .block) :
    ((m.withNode node).node n).prompt = none := by
  rw [node_withNode] at hn ⊢
  split at hn
  · next heq =>
    rw [if_pos heq]
    exact hprompt hn
  · next hne =>
    rw [if_neg hne]
    exact h.untitled n hn

/-- A node that is not about a symbol or choice. -/
theorem withBlock (h : m.Raw) {node : MenuNode} (hitem : node.entry.item? = none)
    (hprompt : node.entry = .block → node.prompt = none) : (m.withNode node).Raw := by
  have hentries := entries_withNode m node
  have hnone : node.entry.symbol? = none ∧ node.entry.choice? = none := by
    cases hentry : node.entry <;> simp_all [Entry.item?, Entry.symbol?, Entry.choice?]
  have hplaces : ∀ i : Item, ∀ e : Entry, e.item? = some i →
      placesIn (m.withNode node).entries e = placesIn m.entries e := by
    intro i e he
    rw [hentries, placesIn_concat, if_neg, List.append_nil]
    rintro rfl
    rw [hitem] at he
    exact nomatch he
  have hmem : ∀ i : Item, ∀ e : Entry, e.item? = some i → e ∈ (m.withNode node).entries →
      e ∈ m.entries := by
    intro i e he hmem
    rw [hentries] at hmem
    rcases List.mem_append.mp hmem with hmem | hmem
    · exact hmem
    · rw [List.mem_singleton.mp hmem, hitem] at he
      exact nomatch he
  refine ⟨h.known, h.no, h.yes, h.unique, fun s => ?_, fun c => ?_, ?_, ?_, fun s hs => ?_,
    fun c hc => ?_, fun s hs => ?_, h.bare, h.bareChoice, ?_, h.untitled_withNode hprompt, h.proper⟩
  · rw [hplaces _ _ rfl]
    exact h.symbolNodes s
  · rw [hplaces _ _ rfl]
    exact h.choiceNodes c
  · rw [hentries, List.filterMap_append, ← h.definitions, List.filterMap_cons_none hnone.1]
    exact (List.append_nil _).symm
  · rw [hentries, List.filterMap_append, ← h.choiceDefinitions, List.filterMap_cons_none hnone.2]
    exact (List.append_nil _).symm
  · exact h.symbolEntry s (hmem _ _ rfl hs)
  · exact h.choiceEntry c (hmem _ _ rfl hc)
  · rw [hentries]
    exact (h.typed s hs).imp_right (Or.imp_right (List.mem_append_left _))
  · rw [hentries, List.head?_append, h.top]
    rfl

/-- A node that defines a symbol. -/
theorem withDefinition (h : m.Raw) {s : SymbolId} (hs : s < m.symbols.size)
    (hconst : (m.symbol s).isConstant = false) {node : MenuNode} (hentry : node.entry = .symbol s) :
    (({ m with definitions := m.definitions.push s } : Model).withNode node |>.setSymbol s
      fun sym => { sym with nodes := sym.nodes ++ [m.nodes.size] }).Raw := by
  let m₁ := ({ m with definitions := m.definitions.push s } : Model).withNode node
  let m₂ := m₁.setSymbol s fun sym => { sym with nodes := sym.nodes ++ [m.nodes.size] }
  have hentries : m₂.entries = m.entries ++ [.symbol s] := by
    rw [← hentry]
    exact entries_withNode m node
  have hsize : m₂.symbols.size = m.symbols.size := Array.size_modify
  have hsymbol : ∀ t, m₂.symbol t =
      if s = t then { m.symbol t with nodes := (m.symbol t).nodes ++ [m.nodes.size] }
      else m.symbol t := by
    intro t
    rw [symbol_setSymbol]
    by_cases hst : s = t
    · rw [if_pos ⟨hst, hst ▸ hs⟩, if_pos hst]
      rfl
    · rw [if_neg fun h => hst h.1, if_neg hst]
      rfl
  have hsame : ∀ t, (m₂.symbol t).name = (m.symbol t).name ∧
      (m₂.symbol t).isConstant = (m.symbol t).isConstant ∧
      (m₂.symbol t).type = (m.symbol t).type := by
    intro t
    rw [hsymbol]
    split <;> exact ⟨rfl, rfl, rfl⟩
  have hne : ∀ t, (m.symbol t).isConstant = true → s ≠ t := by
    rintro t ht rfl
    rw [ht] at hconst
    exact nomatch hconst
  show m₂.Raw
  constructor
  case known =>
    rw [hsize]
    exact h.known
  case no =>
    show (m₁.symbols.modify s _)[noId]? = _
    rw [Array.getElem?_modify, if_neg (hne _ (by rw [h.symbol_no]))]
    exact h.no
  case yes =>
    show (m₁.symbols.modify s _)[yesId]? = _
    rw [Array.getElem?_modify, if_neg (hne _ (by rw [h.symbol_yes]))]
    exact h.yes
  case unique =>
    intro t t' ht ht' heq hconst'
    rw [hsize] at ht ht'
    rw [(hsame t).1, (hsame t').1] at heq
    rw [(hsame t).2.1, (hsame t').2.1] at hconst'
    exact h.unique t t' ht ht' heq hconst'
  case symbolNodes =>
    intro t
    rw [hentries, placesIn_concat, hsymbol, ← h.symbolNodes, length_entries]
    by_cases hst : s = t
    · rw [if_pos hst, if_pos (congrArg Entry.symbol hst)]
    · rw [if_neg hst, if_neg fun heq => hst (Entry.symbol.inj heq), List.append_nil]
  case choiceNodes =>
    intro c
    rw [hentries, placesIn_concat, if_neg (fun heq => nomatch heq), List.append_nil]
    exact h.choiceNodes c
  case definitions =>
    rw [hentries, List.filterMap_append, ← h.definitions]
    exact Array.toList_push
  case choiceDefinitions =>
    rw [hentries, List.filterMap_append, ← h.choiceDefinitions]
    exact (List.append_nil _).symm
  case symbolEntry =>
    intro t ht
    rw [hsize, (hsame t).2.1]
    rw [hentries] at ht
    rcases List.mem_append.mp ht with ht | ht
    · exact h.symbolEntry t ht
    · rw [Entry.symbol.inj (List.mem_singleton.mp ht)]
      exact ⟨hs, hconst⟩
  case choiceEntry =>
    intro c hc
    rw [hentries] at hc
    rcases List.mem_append.mp hc with hc | hc
    · exact h.choiceEntry c hc
    · exact nomatch List.mem_singleton.mp hc
  case typed =>
    intro t ht
    rw [(hsame t).2.2] at ht
    rw [hentries]
    exact (h.typed t ht).imp_right (Or.imp_right (List.mem_append_left _))
  case bare =>
    intro t
    rw [hsymbol]
    have hbare := h.bare t
    split
    · exact ⟨hbare.1, hbare.2, hbare.3, hbare.4, hbare.5, hbare.6, hbare.7, hbare.8⟩
    · exact hbare
  case bareChoice => exact h.bareChoice
  case top =>
    rw [hentries, List.head?_append, h.top]
    rfl
  case untitled =>
    refine h.untitled_withNode fun hblock => ?_
    rw [hentry] at hblock
    exact nomatch hblock
  case proper =>
    intro t ht
    rw [(hsame t).1, (hsame t).2.1]
    rw [hsize] at ht
    exact h.proper t ht

/-- A node that defines a choice. -/
theorem withChoiceDefinition (h : m.Raw) {c : ChoiceId} (hc : c < m.choices.size)
    {node : MenuNode} (hentry : node.entry = .choice c) :
    (({ m with choiceDefinitions := m.choiceDefinitions.push c } : Model).withNode node |>.setChoice
      c fun ch => { ch with nodes := ch.nodes ++ [m.nodes.size] }).Raw := by
  let m₁ := ({ m with choiceDefinitions := m.choiceDefinitions.push c } : Model).withNode node
  let m₂ := m₁.setChoice c fun ch => { ch with nodes := ch.nodes ++ [m.nodes.size] }
  have hentries : m₂.entries = m.entries ++ [.choice c] := by
    rw [← hentry]
    exact entries_withNode m node
  have hsize : m₂.choices.size = m.choices.size := Array.size_modify
  have hchoice : ∀ d, m₂.choice d =
      if c = d then { m.choice d with nodes := (m.choice d).nodes ++ [m.nodes.size] }
      else m.choice d := by
    intro d
    rw [choice_setChoice]
    by_cases hcd : c = d
    · rw [if_pos ⟨hcd, hcd ▸ hc⟩, if_pos hcd]
      rfl
    · rw [if_neg fun h => hcd h.1, if_neg hcd]
      rfl
  show m₂.Raw
  refine ⟨h.known, h.no, h.yes, h.unique, fun s => ?_, fun d => ?_, ?_, ?_, fun s hs => ?_,
    fun d hd => ?_, fun s hs => ?_, h.bare, fun d => ?_, ?_, h.untitled_withNode fun hblock => ?_,
    h.proper⟩
  · rw [hentries, placesIn_concat, if_neg (fun heq => nomatch heq), List.append_nil]
    exact h.symbolNodes s
  · rw [hentries, placesIn_concat, hchoice, ← h.choiceNodes, length_entries]
    by_cases hcd : c = d
    · rw [if_pos hcd, if_pos (congrArg Entry.choice hcd)]
    · rw [if_neg hcd, if_neg fun heq => hcd (Entry.choice.inj heq), List.append_nil]
  · rw [hentries, List.filterMap_append, ← h.definitions]
    exact (List.append_nil _).symm
  · rw [hentries, List.filterMap_append, ← h.choiceDefinitions]
    exact Array.toList_push
  · rw [hentries] at hs
    rcases List.mem_append.mp hs with hs | hs
    · exact h.symbolEntry s hs
    · exact nomatch List.mem_singleton.mp hs
  · rw [hsize]
    rw [hentries] at hd
    rcases List.mem_append.mp hd with hd | hd
    · exact h.choiceEntry d hd
    · rw [Entry.choice.inj (List.mem_singleton.mp hd)]
      exact hc
  · rw [hentries]
    exact (h.typed s hs).imp_right (Or.imp_right (List.mem_append_left _))
  · rw [hchoice]
    have hbare := h.bareChoice d
    split
    · exact ⟨hbare.1, hbare.2, hbare.3⟩
    · exact hbare
  · rw [hentries, List.head?_append, h.top]
    rfl
  · rw [hentry] at hblock
    exact nomatch hblock

end Raw
end Model
end Kconfig
