import Kconfig.Proofs.Model.Trees
import Kconfig.Proofs.Reading.Lines
import Kconfig.Proofs.Reading.OnePass
/-!
The trees of the files hold every node once, in order.

A file is read with a layout: the blocks that are open, and the trees before and inside them. The
nodes of the layout are those that were added since the file was begun, in the order of their
numbers. A statement adds at most one node, at the end; closing a block moves no node; and the
trees of a file that is included hold the nodes that were added while it was read.
-/
namespace Kconfig

/-- Reading went on, perhaps with further entries. -/
structure Grew (w w' : Workspace) : Prop where
  ready : Ready w'
  entries : w.model.entries <+: w'.model.entries

namespace Grew
variable {w w' w'' : Workspace}

theorem refl (h : Ready w) : Grew w w := ⟨h, List.prefix_refl _⟩

theorem trans (h : Grew w w') (h' : Grew w' w'') : Grew w w'' :=
  ⟨h'.ready, h.entries.trans h'.entries⟩

theorem of_wentOn (h : WentOn w w') : Grew w w' := ⟨h.1, h.2.1 ▸ List.prefix_refl _⟩

theorem length_le (h : Grew w w') : w.model.entries.length ≤ w'.model.entries.length :=
  h.entries.length_le

end Grew

/-- The nodes that were added from one moment to another. -/
def addedNodes (w w' : Workspace) : List NodeId :=
  List.range' w.model.entries.length (w'.model.entries.length - w.model.entries.length)

theorem addedNodes_append {w w' w'' : Workspace}
    (h : w.model.entries.length ≤ w'.model.entries.length)
    (h' : w'.model.entries.length ≤ w''.model.entries.length) :
    addedNodes w w' ++ addedNodes w' w'' = addedNodes w w'' := by
  have hmid : w'.model.entries.length =
      w.model.entries.length + (w'.model.entries.length - w.model.entries.length) := by omega
  unfold addedNodes
  rw [congrArg (List.range' · _) hmid, List.range'_append_1]
  congr 1
  omega

theorem addedNodes_self (w : Workspace) : addedNodes w w = [] := by
  simp [addedNodes]

theorem addedNodes_congr {w₁ w₁' w₂ w₂' : Workspace} (h : w₂.model.entries = w₁.model.entries)
    (h' : w₂'.model.entries = w₁'.model.entries) : addedNodes w₂ w₂' = addedNodes w₁ w₁' := by
  rw [addedNodes, addedNodes, h, h']

/-- A statement stays sound when more symbols are known. -/
theorem Statement.sound_mono {known known' : Nat} {statement : Statement} (hle : known ≤ known')
    (h : statement.Sound known) : statement.Sound known' := by
  cases statement with
  | config isMenuconfig name =>
    exact fun w s w' hw hknown hs => h w s w' hw (Nat.le_trans hle hknown) hs
  | _ => exact h

namespace Reading

/-! ### Layouts -/

/-- The nodes of open blocks and of the trees before them. -/
def levelIds : List Level → List NodeId
  | [] => []
  | level :: levels => levelIds levels ++ Tree.forestIds level.before.reverse ++ [level.node]

/-- The nodes of a layout. -/
def Layout.ids (layout : Layout) : List NodeId :=
  levelIds layout.levels ++ Tree.forestIds layout.trees.reverse

theorem Layout.ids_add (layout : Layout) (n : NodeId) :
    (layout.add n).ids = layout.ids ++ [n] := by
  rw [ids, ids, add, List.reverse_cons, Tree.forestIds_concat, ← List.append_assoc]
  rfl

theorem Layout.ids_push (layout : Layout) (kind : BlockKind) (n : NodeId)
    (entry : Option NodeId) : (layout.push kind n entry).ids = layout.ids ++ [n] :=
  List.append_nil _

theorem Layout.ids_close {layout : Layout} {level : Level} {levels : List Level}
    (h : layout.levels = level :: levels) (entry : Option NodeId) :
    Layout.ids { entry, levels, trees := .node level.node layout.trees.reverse :: level.before } =
      layout.ids := by
  rw [ids, ids, h, levelIds, List.reverse_cons, Tree.forestIds_concat]
  simp

theorem Layout.ids_insert (layout : Layout) (ts : List Tree) :
    Layout.ids { layout with trees := ts.reverse ++ layout.trees } =
      layout.ids ++ Tree.forestIds ts := by
  rw [ids, ids, List.reverse_append, List.reverse_reverse, Tree.forestIds_append,
    ← List.append_assoc]

/-- The nodes of a layout that others stand below, or may come to. -/
def Layout.parents (layout : Layout) : List NodeId :=
  layout.levels.flatMap (fun level => level.node :: Tree.forestParents level.before) ++
    Tree.forestParents layout.trees

theorem Layout.mem_parents_push {layout : Layout} {kind : BlockKind} {n k : NodeId}
    {entry : Option NodeId} (h : k ∈ (layout.push kind n entry).parents) :
    k = n ∨ k ∈ layout.parents := by
  change k ∈ (n :: Tree.forestParents layout.trees ++ _) ++ [] at h
  rw [List.append_nil, List.cons_append] at h
  refine (List.mem_cons.mp h).imp_right fun h => ?_
  exact List.mem_append.mpr (List.mem_append.mp h).symm

theorem Layout.mem_parents_close {layout : Layout} {level : Level} {levels : List Level}
    {entry : Option NodeId} {k : NodeId} (hlevels : layout.levels = level :: levels)
    (h : k ∈ Layout.parents
      { entry, levels, trees := .node level.node layout.trees.reverse :: level.before }) :
    k ∈ layout.parents := by
  rw [parents, hlevels, List.flatMap_cons]
  rw [parents, Tree.forestParents, Tree.parents] at h
  simp only [List.mem_append, Tree.mem_forestParents_reverse, List.mem_cons] at h ⊢
  rcases h with h | (h | h) | h
  · exact .inl (.inr h)
  · split at h
    · exact absurd h List.not_mem_nil
    · exact .inl (.inl (.inl (List.mem_singleton.mp h)))
  · exact .inr h
  · exact .inl (.inl (.inr h))

theorem Layout.mem_parents_insert {layout : Layout} {ts : List Tree} {k : NodeId}
    (h : k ∈ Layout.parents { layout with trees := ts.reverse ++ layout.trees }) :
    k ∈ layout.parents ∨ k ∈ Tree.forestParents ts := by
  rw [parents, Tree.forestParents_append] at h
  simp only [List.mem_append, Tree.mem_forestParents_reverse] at h
  rw [parents, List.mem_append]
  rcases h with h | h | h
  · exact .inl (.inl h)
  · exact .inr h
  · exact .inl (.inr h)

/-- The node is there, and is not about a symbol. -/
def OpensBlock (es : List Entry) (n : NodeId) : Prop := ∃ e, es[n]? = some e ∧ e.symbol? = none

theorem OpensBlock.mono {es es' : List Entry} {n : NodeId} (h : OpensBlock es n)
    (hstarts : es <+: es') : OpensBlock es' n := by
  obtain ⟨e, he, hsymbol⟩ := h
  obtain ⟨more, rfl⟩ := hstarts
  exact ⟨e, List.getElem?_append_left (List.getElem?_eq_some_iff.mp he).1 ▸ he, hsymbol⟩

/-- The layout holds the nodes that were added since its file was begun, and none of them stands
below a symbol. -/
structure Layout.Covers (layout : Layout) (first w : Workspace) : Prop where
  le : first.model.entries.length ≤ w.model.entries.length
  ids : layout.ids = addedNodes first w
  blocks : ∀ n ∈ layout.parents, OpensBlock w.model.entries n
  entry : ∀ n, layout.entry = some n → HasNode n w.model.entries

/-- The trees hold the nodes that were added, none of them below a symbol. -/
def Brought (w : Workspace) (ts : List Tree) (w' : Workspace) : Prop :=
  Grew w w' ∧ Tree.forestIds ts = addedNodes w w' ∧
    ∀ n ∈ Tree.forestParents ts, OpensBlock w'.model.entries n

variable {first w w' w'' : Workspace} {layout layout' : Layout}

theorem Layout.Covers.went (h : layout.Covers first w) (hw : WentOn w w') :
    layout.Covers first w' := by
  refine ⟨hw.2.1 ▸ h.le, ?_, hw.2.1 ▸ h.blocks, fun n hn => hw.2.1 ▸ h.entry n hn⟩
  rw [h.ids, addedNodes_congr rfl hw.2.1]

/-- One more entry, whose node the layout has at its end. -/
theorem Layout.Covers.concat (h : layout.Covers first w) {e : Entry}
    (hw : w'.model.entries = w.model.entries ++ [e])
    (hids : layout'.ids = layout.ids ++ [w.model.entries.length])
    (hparents : ∀ n ∈ layout'.parents,
      n = w.model.entries.length ∧ e.symbol? = none ∨ n ∈ layout.parents)
    (hentry : ∀ n, layout'.entry = some n → n = w.model.entries.length ∧ e ≠ .block) :
    layout'.Covers first w' := by
  have hlength : w'.model.entries.length = w.model.entries.length + 1 := by
    rw [hw, List.length_append, List.length_singleton]
  have hnew : [w.model.entries.length] = addedNodes w w' := by
    rw [addedNodes, hlength, Nat.add_sub_cancel_left]
    rfl
  refine ⟨?_, ?_, fun n hn => ?_, fun n hn => ?_⟩
  · exact Nat.le_trans h.le (hlength ▸ Nat.le_succ _)
  · rw [hids, h.ids, hnew, addedNodes_append h.le (hlength ▸ Nat.le_succ _)]
  · rw [hw]
    rcases hparents n hn with ⟨rfl, he⟩ | hn
    · exact ⟨e, by simp, he⟩
    · exact (h.blocks n hn).mono (List.prefix_append _ _)
  · obtain ⟨rfl, hblock⟩ := hentry n hn
    exact ⟨e, by rw [hw]; simp, hblock⟩

/-! ### Nodes -/

/-- What a new node is, and where. -/
theorem addNode_ok {e : Entry} {isMenuconfig : Bool} {prompt : Option Prompt} {n : NodeId}
    (h : addNode e isMenuconfig prompt w = .ok n w') :
    n = w.model.nodes.size ∧
      ∃ node : MenuNode, node.entry = e ∧ node.prompt = prompt ∧
        w' = { w with model := w.model.withNode node } := by
  injection h with hn hw'
  exact ⟨hn.symm, _, rfl, rfl, hw'.symm⟩

/-- A node that stands for neither a symbol nor a choice, and a change after it that keeps the
entries. -/
theorem addBlock_ok {e : Entry} (he : e.item? = none) {isMenuconfig : Bool}
    {prompt : Option Prompt} {f : NodeId → Model → Model} {make : NodeId → Layout} (hw : Ready w)
    (h : (do
      let n ← addNode e isMenuconfig prompt
      modifyModel (f n)
      pure (make n) : Reading Layout) w = .ok layout' w')
    (hprompt : e = .block → prompt = none)
    (hf : ∀ n m, m.Raw → (f n m).Raw ∧ (f n m).entries = m.entries) :
    layout' = make w.model.entries.length ∧ Ready w' ∧
      w'.model.entries = w.model.entries ++ [e] := by
  obtain ⟨n, w₁, hadd, h⟩ := bind_ok h
  obtain ⟨rfl, node, rfl, rfl, rfl⟩ := addNode_ok hadd
  obtain ⟨_, w₂, hchange, h⟩ := bind_ok h
  injection hchange with _ hw₂
  injection h with hlayout hw'
  subst hlayout hw' hw₂
  obtain ⟨hraw, hentries⟩ := hf w.model.nodes.size _ (hw.raw.withBlock he hprompt)
  refine ⟨?_, ⟨hw.isOpen, hraw⟩, hentries.trans (Model.entries_withNode _ _)⟩
  rw [Model.length_entries]

theorem aside_warnPromptless (n : NodeId) : Moves Aside (warnPromptless n) := by
  refine .bind .get fun w => ?_
  dsimp only
  split
  · exact .ite (aside_warnOwner _) (.pure _)
  · exact .pure _

/-- The end of an entry is worth a warning at most. -/
theorem closeEntry_ok (hw : Ready w) (h : closeEntry layout w = .ok layout' w') :
    WentOn w w' ∧ layout' = { layout with entry := none } := by
  unfold closeEntry at h
  cases hentry : layout.entry with
  | none =>
    rw [hentry] at h
    cases h
    exact ⟨⟨hw, rfl, Nat.le_refl _⟩, rfl⟩
  | some n =>
    rw [hentry] at h
    dsimp only at h
    obtain ⟨_, w₁, hwarn, h⟩ := bind_ok h
    cases h
    exact ⟨(aside_warnPromptless n _ _ _ hwarn).steadyIf (P := fun _ => True) hw trivial, rfl⟩

/-- A choice that has the name, or a new one. -/
theorem choiceOf_ok {name : Option String} {c : ChoiceId} (hw : Ready w)
    (h : choiceOf name w = .ok c w') : WentOn w w' ∧ c < w'.model.choices.size := by
  obtain ⟨_, _, hget, h⟩ := bind_ok h
  injection hget with h₁ h₂
  subst h₁ h₂
  dsimp only at h
  cases hfind : name.bind w.model.findChoice? with
  | some d =>
    rw [hfind] at h
    injection h with hc hw'
    subst hc hw'
    obtain ⟨name, -, hfind⟩ := Option.bind_eq_some_iff.mp hfind
    exact ⟨⟨hw, rfl, Nat.le_refl _⟩, List.mem_range.mp (List.mem_of_find?_eq_some hfind)⟩
  | none =>
    rw [hfind] at h
    obtain ⟨_, w₁, hmodel, h⟩ := bind_ok h
    injection hmodel with _ hw₁
    injection h with hc hw'
    subst hc hw' hw₁
    refine ⟨⟨⟨hw.isOpen, hw.raw.withChoice name⟩, rfl, Nat.le_refl _⟩, ?_⟩
    exact (Array.size_push ..).symm ▸ Nat.lt_succ_self _

theorem aloof_sourcesOf (isRelative isRequired : Bool) (path : String) :
    Aloof (sourcesOf isRelative isRequired path) :=
  .bind_get (fun _ _ => rfl) fun _ => .ite (.bind (aloof_fatal _) fun _ => .pure _) (.pure _)

/-- A new definition of a symbol. -/
theorem addDefinition_ok {s : SymbolId} {isMenuconfig : Bool} (hw : Ready w)
    (hs : s < w.model.symbols.size) (hconst : (w.model.symbol s).isConstant = false)
    (h : (do
      modifyModel fun m => { m with definitions := m.definitions.push s }
      let n ← addNode (.symbol s) isMenuconfig none
      modifyModel fun m => m.setSymbol s fun sym => { sym with nodes := sym.nodes ++ [n] }
      pure (layout.add n) : Reading Layout) w = .ok layout' w') :
    layout' = layout.add w.model.entries.length ∧ Ready w' ∧
      w'.model.entries = w.model.entries ++ [.symbol s] := by
  obtain ⟨_, w₁, hdefine, h⟩ := bind_ok h
  injection hdefine with _ hw₁
  subst hw₁
  obtain ⟨n, w₂, hadd, h⟩ := bind_ok h
  obtain ⟨rfl, node, hnode, -, rfl⟩ := addNode_ok hadd
  obtain ⟨_, w₃, hset, h⟩ := bind_ok h
  injection hset with _ hw₃
  injection h with hlayout hw'
  subst hlayout hw' hw₃
  refine ⟨?_, ⟨hw.isOpen, hw.raw.withDefinition hs hconst hnode⟩, ?_⟩
  · rw [Model.length_entries]
  · rw [← hnode]
    exact Model.entries_withNode _ _

/-- A new definition of a choice. -/
theorem addChoiceDefinition_ok {c : ChoiceId} (hw : Ready w) (hc : c < w.model.choices.size)
    (h : (do
      modifyModel fun m => { m with choiceDefinitions := m.choiceDefinitions.push c }
      let n ← addNode (.choice c) true none
      modifyModel fun m => m.setChoice c fun ch => { ch with nodes := ch.nodes ++ [n] }
      pure (layout.push .choice n (some n)) : Reading Layout) w = .ok layout' w') :
    layout' = layout.push .choice w.model.entries.length (some w.model.entries.length) ∧
      Ready w' ∧ w'.model.entries = w.model.entries ++ [.choice c] := by
  obtain ⟨_, w₁, hdefine, h⟩ := bind_ok h
  injection hdefine with _ hw₁
  subst hw₁
  obtain ⟨n, w₂, hadd, h⟩ := bind_ok h
  obtain ⟨rfl, node, hnode, -, rfl⟩ := addNode_ok hadd
  obtain ⟨_, w₃, hset, h⟩ := bind_ok h
  injection hset with _ hw₃
  injection h with hlayout hw'
  subst hlayout hw' hw₃
  refine ⟨?_, ⟨hw.isOpen, hw.raw.withChoiceDefinition hc hnode⟩, ?_⟩
  · rw [Model.length_entries]
  · rw [← hnode]
    exact Model.entries_withNode _ _

/-! ### Statements -/

/-- A reader of files whose trees hold the nodes that it adds. -/
def FileReader.Good (readFile : FileReader) : Prop :=
  ∀ path w ts w', Ready w → readFile path w = .ok ts w' → Brought w ts w'

/-- After some steps that add no entry, one more at the end of the layout. -/
theorem Layout.Covers.grown (h : layout.Covers first w) (hw : WentOn w w') {e : Entry}
    (hw'' : Ready w'') (hentries : w''.model.entries = w'.model.entries ++ [e])
    (hids : layout'.ids = layout.ids ++ [w'.model.entries.length])
    (hparents : ∀ n ∈ layout'.parents,
      n = w'.model.entries.length ∧ e.symbol? = none ∨ n ∈ layout.parents)
    (hentry : ∀ n, layout'.entry = some n → n = w'.model.entries.length ∧ e ≠ .block) :
    Grew w w'' ∧ layout'.Covers first w'' :=
  ⟨(Grew.of_wentOn hw).trans ⟨hw'', hentries ▸ List.prefix_append _ _⟩,
    (h.went hw).concat hentries hids hparents hentry⟩

/-- Reading files one after the other puts their trees behind those of the layout. -/
theorem insertFiles_ok {readFile : FileReader} (hread : readFile.Good) {ts ts' : List Tree} :
    ∀ (files : List String) {w : Workspace}, Ready w →
      { layout with trees := ts : Layout }.Covers first w →
      (ForIn.forIn files ts fun file (trees : List Tree) => do
        let more ← readFile file
        pure (.yield (more.reverse ++ trees)) : Reading (List Tree)) w = .ok ts' w' →
      Grew w w' ∧ { layout with trees := ts' : Layout }.Covers first w' := by
  intro files
  induction files generalizing ts with
  | nil =>
    intro w hw hc h
    injection h with hts hw'
    subst hts hw'
    exact ⟨.refl hw, hc⟩
  | cons file files ih =>
    intro w hw hc h
    rw [List.forIn_cons] at h
    obtain ⟨step, w₁, hstep, h⟩ := bind_ok h
    obtain ⟨more, w₂, hmore, hstep⟩ := bind_ok hstep
    injection hstep with hstep hw₁
    subst hstep hw₁
    obtain ⟨hgrew, hids, hblocks⟩ := hread file w more w₂ hw hmore
    have hc' : { layout with trees := more.reverse ++ ts : Layout }.Covers first w₂ := by
      refine ⟨Nat.le_trans hc.le hgrew.length_le, ?_, fun n hn => ?_, fun n hn => ?_⟩
      · rw [show Layout.ids _ = _ from Layout.ids_insert { layout with trees := ts } more, hc.ids,
          hids, addedNodes_append hc.le hgrew.length_le]
      · rcases @Layout.mem_parents_insert { layout with trees := ts } more n hn with hn | hn
        · exact (hc.blocks n hn).mono hgrew.entries
        · exact hblocks n hn
      · exact (hc.entry n hn).mono hgrew.entries
    obtain ⟨hgrew', hc''⟩ := ih hgrew.ready hc' h
    exact ⟨hgrew.trans hgrew', hc''⟩

/-- A statement that is put in its place adds at most one node to the layout. -/
theorem place_ok {readFile : FileReader} (hread : readFile.Good) {statement : Statement}
    (hw : Ready w) (hs : statement.Sound w.model.symbols.size) (hc : layout.Covers first w)
    (h : place readFile layout statement w = .ok layout' w') :
    Grew w w' ∧ layout'.Covers first w' := by
  cases statement with
  | config isMenuconfig name =>
    obtain ⟨s, w₁, hname, h⟩ := bind_ok h
    obtain ⟨hwent, hlt, hconst⟩ := hs w s w₁ hw (Nat.le_refl _) hname
    obtain ⟨rfl, hw', hentries⟩ := addDefinition_ok hwent.1 hlt hconst h
    exact hc.grown hwent hw' hentries (layout.ids_add _) (fun n hn => .inr hn)
      fun n hn => ⟨(Option.some.inj hn).symm, nofun⟩
  | menu prompt =>
    obtain ⟨text, w₁, hprompt, h⟩ := bind_ok h
    have hwent := hs w text w₁ hprompt hw trivial
    obtain ⟨rfl, hw', hentries⟩ := addBlock_ok rfl hwent.1 h nofun
      fun _ m hm => ⟨hm.congr rfl rfl rfl rfl rfl rfl hm.untitled, rfl⟩
    exact hc.grown hwent hw' hentries (layout.ids_push _ _ _)
      (fun n hn => (Layout.mem_parents_push hn).imp_left fun hn => ⟨hn, rfl⟩)
      fun n hn => ⟨(Option.some.inj hn).symm, nofun⟩
  | comment prompt =>
    obtain ⟨text, w₁, hprompt, h⟩ := bind_ok h
    have hwent := hs w text w₁ hprompt hw trivial
    obtain ⟨rfl, hw', hentries⟩ := addBlock_ok rfl hwent.1 h nofun
      fun _ m hm => ⟨hm.congr rfl rfl rfl rfl rfl rfl hm.untitled, rfl⟩
    exact hc.grown hwent hw' hentries (layout.ids_add _) (fun n hn => .inr hn)
      fun n hn => ⟨(Option.some.inj hn).symm, nofun⟩
  | choice name =>
    obtain ⟨given, w₁, hname, h⟩ := bind_ok h
    have hwent := hs w given w₁ hname hw trivial
    obtain ⟨c, w₂, hchoice, h⟩ := bind_ok h
    obtain ⟨hwent', hlt⟩ := choiceOf_ok hwent.1 hchoice
    obtain ⟨rfl, hw', hentries⟩ := addChoiceDefinition_ok hwent'.1 hlt h
    exact hc.grown (hwent.trans hwent') hw' hentries (layout.ids_push _ _ _)
      (fun n hn => (Layout.mem_parents_push hn).imp_left fun hn => ⟨hn, rfl⟩)
      fun n hn => ⟨(Option.some.inj hn).symm, nofun⟩
  | block cond =>
    obtain ⟨cond, w₁, hcond, h⟩ := bind_ok h
    have hwent := hs w cond w₁ hcond hw trivial
    obtain ⟨rfl, hw', hentries⟩ := addBlock_ok rfl hwent.1 h (fun _ => rfl)
      fun _ m hm => ⟨hm.setNode (fun _ => rfl) fun _ _ => rfl, Model.entries_setNode fun _ => rfl⟩
    exact hc.grown hwent hw' hentries (layout.ids_push _ _ _)
      (fun n hn => (Layout.mem_parents_push hn).imp_left fun hn => ⟨hn, rfl⟩) fun n hn => nomatch hn
  | close kind tail =>
    unfold place at h
    cases hlevels : layout.levels with
    | nil =>
      rw [hlevels] at h
      exact nomatch h
    | cons level levels =>
      rw [hlevels] at h
      dsimp only at h
      split at h
      · obtain ⟨_, _, hproblem, -⟩ := bind_ok h
        exact nomatch hproblem
      · obtain ⟨_, w₁, htail, h⟩ := bind_ok h
        have hwent := hs w _ w₁ htail hw trivial
        injection h with hlayout hw'
        subst hlayout hw'
        refine ⟨.of_wentOn hwent, (hc.went hwent).le, ?_, fun n hn => ?_, fun n hn => nomatch hn⟩
        · rw [Layout.ids_close hlevels, (hc.went hwent).ids]
        · exact (hc.went hwent).blocks n (Layout.mem_parents_close hlevels hn)
  | mainmenu prompt =>
    obtain ⟨text, w₁, hprompt, h⟩ := bind_ok h
    have hwent := hs w text w₁ hprompt hw trivial
    obtain ⟨_, w₂, hmodify, h⟩ := bind_ok h
    have hsteady : Moves (SteadyIf (HasNode 0)) (modifyNode 0 fun node =>
        { node with prompt := some ⟨text, .yes⟩ }) := steady_titleNode fun _ => rfl
    have htop : HasNode 0 w₁.model.entries :=
      ⟨.menu, List.head?_eq_getElem?.symm.trans hwent.1.raw.top, nofun⟩
    have hwent' := hsteady _ _ _ hmodify hwent.1 htop
    injection h with hlayout hw'
    subst hlayout hw'
    exact ⟨.of_wentOn (hwent.trans hwent'), hc.went (hwent.trans hwent')⟩
  | source isRelative isRequired path =>
    obtain ⟨text, w₁, hpath, h⟩ := bind_ok h
    have hwent := hs w text w₁ hpath hw trivial
    obtain ⟨files, w₂, hfiles, h⟩ := bind_ok h
    have hwent' := ((aloof_sourcesOf _ _ _).aside _ _ _ hfiles).steadyIf (P := fun _ => True) hwent.1
      trivial
    obtain ⟨ts, w₃, hinsert, h⟩ := bind_ok h
    injection h with hlayout hw'
    subst hlayout hw'
    obtain ⟨hgrew, hc'⟩ := insertFiles_ok hread files hwent'.1
      (hc.went (hwent.trans hwent')) hinsert
    exact ⟨(Grew.of_wentOn (hwent.trans hwent')).trans hgrew, hc'⟩
  | _ => exact nomatch h

/-! ### Lines -/

/-- What a statement does to the entry before it and to the layout. -/
def perform (read : FileReader) (layout : Layout) (statement : Statement) : Reading Layout :=
  match layout.entry with
  | some n =>
    if statement.isProperty then do
      addProperty n statement
      pure layout
    else do place read (← closeEntry layout) statement
  | none => place read layout statement

theorem ite_bind {α β : Type} {c : Prop} [Decidable c] (x y : Reading α) (f : α → Reading β) :
    (if c then x else y) >>= f = if c then x >>= f else y >>= f := by
  split <;> rfl

/-- What reading a line and the lines after it comes to. -/
theorem readLines_cons_ok {dialect : Dialect} {read : FileReader} {fault : Option Text.Fault}
    {fuel : Nat} {layout l : Layout} {line : List Char} {more : List (List Char)}
    (h : readLines dialect read fault (fuel + 1) layout (line :: more) w = .ok l w') :
    ∃ line' more' w₁ given w₂,
      (do
        countLines 1
        joinLines fault line more) w = .ok (line', more') w₁ ∧
      dialect.readLine line' w₁ = .ok given w₂ ∧
      (given = none ∧ readLines dialect read fault fuel layout more' w₂ = .ok l w' ∨
        (∃ n more'' w₃, given = some .help ∧ layout.entry = some n ∧
          readHelp dialect n ⟨more', fault⟩ w₂ = .ok more'' w₃ ∧
          readLines dialect read fault fuel layout more'' w₃ = .ok l w') ∨
        ∃ statement layout' w₃, given = some statement ∧
          (statement = .help → layout.entry = none) ∧
          perform read layout statement w₂ = .ok layout' w₃ ∧
          readLines dialect read fault fuel layout' more' w₃ = .ok l w') := by
  obtain ⟨_, w₀, hcount, h⟩ := bind_ok h
  obtain ⟨⟨line', more'⟩, w₁, hjoin, h⟩ := bind_ok h
  obtain ⟨given, w₂, hgiven, h⟩ := bind_ok h
  refine ⟨line', more', w₁, given, w₂, ?_, hgiven, ?_⟩
  · rw [bind_apply, hcount]
    exact hjoin
  cases given with
  | none => exact .inl ⟨rfl, h⟩
  | some statement =>
    refine .inr ?_
    have hnext : (do
          let layout ← perform read layout statement
          readLines dialect read fault fuel layout more') w₂ = .ok l w' →
        (statement = .help → layout.entry = none) →
        ∃ statement' layout' w₃, some statement = some statement' ∧
          (statement' = .help → layout.entry = none) ∧
          perform read layout statement' w₂ = .ok layout' w₃ ∧
          readLines dialect read fault fuel layout' more' w₃ = .ok l w' := by
      intro h hhelp
      obtain ⟨layout', w₃, hlayout, h⟩ := bind_ok h
      exact ⟨statement, layout', w₃, rfl, hhelp, hlayout, h⟩
    obtain hentry | ⟨n, hentry⟩ := Option.eq_none_or_eq_some layout.entry
    · rw [hentry] at h
      refine .inr (hnext ?_ fun _ => hentry)
      rw [show perform read layout statement = place read layout statement by
        rw [perform, hentry]]
      cases statement <;> exact h
    · rw [hentry] at h
      by_cases hhelp : statement = .help
      · subst hhelp
        obtain ⟨more'', w₃, hmore, h⟩ := bind_ok h
        exact .inl ⟨n, more'', w₃, rfl, hentry, hmore, h⟩
      · refine .inr (hnext ?_ fun h => absurd h hhelp)
        rw [perform, hentry]
        dsimp only
        rw [ite_bind]
        simp only [bind_assoc, pure_bind]
        cases statement <;> first | exact h | exact absurd rfl hhelp

/-- A statement that is performed leaves a layout that holds its nodes. -/
theorem perform_ok {readFile : FileReader} (hread : readFile.Good) {statement : Statement}
    (hw : Ready w) (hs : statement.Sound w.model.symbols.size) (hc : layout.Covers first w)
    (h : perform readFile layout statement w = .ok layout' w') :
    Grew w w' ∧ layout'.Covers first w' := by
  unfold perform at h
  obtain hentry | ⟨n, hentry⟩ := Option.eq_none_or_eq_some layout.entry
  · rw [hentry] at h
    exact place_ok hread hw hs hc h
  · rw [hentry] at h
    dsimp only at h
    have hn : HasNode n w.model.entries := hc.entry n hentry
    split at h
    · obtain ⟨_, w₁, hproperty, h⟩ := bind_ok h
      injection h with hlayout hw'
      subst hlayout hw'
      have hwent := steady_addProperty hs _ _ _ hproperty hw hn
      exact ⟨.of_wentOn hwent, hc.went hwent⟩
    · obtain ⟨layout₁, w₁, hclose, h⟩ := bind_ok h
      obtain ⟨hwent, rfl⟩ := closeEntry_ok hw hclose
      have hc₁ := hc.went hwent
      have hclosed : { layout with entry := none : Layout }.Covers first w₁ :=
        ⟨hc₁.le, hc₁.ids, hc₁.blocks, fun n hn => nomatch hn⟩
      obtain ⟨hgrew, hc'⟩ :=
        place_ok hread hwent.1 (Statement.sound_mono hwent.2.2 hs) hclosed h
      exact ⟨(Grew.of_wentOn hwent).trans hgrew, hc'⟩

theorem aloof_countLines (n : Nat) : Aloof (countLines n) :=
  .update (fun _ => ⟨rfl, rfl, rfl⟩) fun _ _ => rfl

theorem aloof_passEnd (fault : Option Text.Fault) : Aloof (passEnd fault) := by
  cases fault with
  | none => exact .pure _
  | some fault => exact .bind_get (fun _ _ => rfl) fun _ => aloof_fatal _

theorem aloof_joinLines (fault : Option Text.Fault) :
    ∀ (more : List (List Char)) (line : List Char), Aloof (joinLines fault line more)
  | [], line => by
    unfold joinLines
    split
    · exact .pure _
    · exact .bind (aloof_passEnd _) fun _ => .bind (aloof_countLines _) fun _ => .pure _
  | next :: more, line => by
    unfold joinLines
    split
    · exact .pure _
    · exact .bind (aloof_countLines _) fun _ => aloof_joinLines fault more _

theorem steady_readHelp (dialect : Dialect) (n : NodeId) (rest : Remaining) :
    Moves Steady (readHelp dialect n rest) := by
  have hset : Moves Steady (do
      setHelp n (HelpText.read rest.lines)
      pure (rest.lines.drop (HelpText.read rest.lines).lines) : Reading (List (List Char))) :=
    .bind (steady_setHelp _) fun _ => .pure _
  have hrest : Moves Steady (do
      let help := HelpText.read rest.lines
      countLines help.lines
      let more := rest.lines.drop help.lines
      if more.isEmpty then
        passEnd rest.fault
        if dialect.readsAhead then countLines 1
      setHelp n help
      pure more : Reading (List (List Char))) := by
    refine .bind (steady_of_aside (aloof_countLines _).aside) fun _ => .ite ?_ hset
    exact .bind (steady_of_aside (aloof_passEnd _).aside) fun _ =>
      .ite (.bind (steady_of_aside (aloof_countLines _).aside) fun _ => hset) hset
  exact .bind .get fun _ => .ite (.bind (steady_of_aside (aside_warnOwner _)) fun _ => hrest) hrest

/-- A line with the lines that continue it. -/
theorem aloof_takeLine (fault : Option Text.Fault) (line : List Char) (more : List (List Char)) :
    Aloof (do
      countLines 1
      joinLines fault line more) := .bind (aloof_countLines _) fun _ => aloof_joinLines _ _ _

/-- The lines of a file leave a layout with the nodes that they added. -/
theorem readLines_ok {dialect : Dialect} (hdialect : dialect.Sound) {readFile : FileReader}
    (hread : readFile.Good) {fault : Option Text.Fault} :
    ∀ (fuel : Nat) {layout : Layout} {lines : List (List Char)} {w : Workspace}, Ready w →
      layout.Covers first w →
      readLines dialect readFile fault fuel layout lines w = .ok layout' w' →
      Grew w w' ∧ layout'.Covers first w' := by
  intro fuel
  induction fuel with
  | zero =>
    intro layout lines w hw hc h
    unfold readLines at h
    injection h with hlayout hw'
    subst hlayout hw'
    exact ⟨.refl hw, hc⟩
  | succ fuel ih =>
    intro layout lines w hw hc h
    cases lines with
    | nil =>
      obtain ⟨_, w₁, hpass, h⟩ := bind_ok h
      have hwent := ((aloof_passEnd _).aside _ _ _ hpass).steadyIf (P := fun _ => True) hw trivial
      obtain ⟨hwent', rfl⟩ := closeEntry_ok hwent.1 h
      have hc' := hc.went (hwent.trans hwent')
      exact ⟨.of_wentOn (hwent.trans hwent'), hc'.le, hc'.ids, hc'.blocks, fun n hn => nomatch hn⟩
    | cons line more =>
      obtain ⟨line', more', w₁, given, w₂, hline, hgiven, h⟩ := readLines_cons_ok h
      have hwent := ((aloof_takeLine _ _ _).aside _ _ _ hline).steadyIf (P := fun _ => True) hw trivial
      obtain ⟨hwent', hsound⟩ := hdialect _ _ _ _ hwent.1 hgiven
      have hc' := hc.went (hwent.trans hwent')
      have hgrew := Grew.of_wentOn (hwent.trans hwent')
      rcases h with ⟨-, h⟩ | ⟨n, more'', w₃, -, -, hhelp, h⟩ | ⟨statement, l, w₃, hs, -, hl, h⟩
      · obtain ⟨hgrew', hc''⟩ := ih hwent'.1 hc' h
        exact ⟨hgrew.trans hgrew', hc''⟩
      · have hwent'' := steady_readHelp _ _ _ _ _ _ hhelp hwent'.1 trivial
        obtain ⟨hgrew', hc''⟩ := ih hwent''.1 (hc'.went hwent'') h
        exact ⟨(hgrew.trans (.of_wentOn hwent'')).trans hgrew', hc''⟩
      · obtain ⟨hgrew', hc''⟩ := perform_ok hread hwent'.1 (hsound statement hs) hc' hl
        obtain ⟨hgrew'', hc₃⟩ := ih hgrew'.ready hc'' h
        exact ⟨(hgrew.trans hgrew').trans hgrew'', hc₃⟩

/-! ### Files -/

/-- The trees of a file hold the nodes that it added. -/
theorem readContent_ok {dialect : Dialect} (hdialect : dialect.Sound) {readFile : FileReader}
    (hread : readFile.Good) {content : Files.Content} {ts : List Tree} (hw : Ready w)
    (h : readContent dialect readFile content w = .ok ts w') : Brought w ts w' := by
  obtain ⟨layout, w₁, hlines, h⟩ := bind_ok h
  have hempty : ({} : Layout).Covers w w :=
    ⟨Nat.le_refl _, (addedNodes_self w).symm, fun n hn => absurd hn List.not_mem_nil,
      fun n hn => nomatch hn⟩
  obtain ⟨hgrew, hc⟩ := readLines_ok hdialect hread _ hw hempty hlines
  cases hlevels : layout.levels with
  | nil =>
    rw [hlevels] at h
    injection h with hts hw'
    subst hts hw'
    refine ⟨hgrew, ?_, fun n hn => hc.blocks n ?_⟩
    · rw [← hc.ids, Layout.ids, hlevels]
      rfl
    · rw [Layout.parents, hlevels]
      exact Tree.mem_forestParents_reverse.mp hn
  | cons level levels =>
    rw [hlevels] at h
    obtain ⟨_, _, _, h⟩ := bind_ok h
    exact nomatch h

theorem aloof_enterFile (path : String) : Aloof (enterFile path) := by
  refine .get_set (fun _ => ⟨rfl, rfl, rfl⟩) (fun _ _ => rfl) (fun _ _ => rfl) fun w => ?_
  refine .ite (.bind (aloof_fatal _) fun _ => ?_) ?_
  all_goals
    dsimp only
    split
    · exact .throw _
    · exact .bind (.update (fun _ => ⟨rfl, rfl, rfl⟩) fun _ _ => rfl) fun _ => .pure _

theorem aloof_leaveFile : Aloof leaveFile := by
  refine .update (fun w => ?_) fun w r => ?_
  · split
    · exact ⟨rfl, rfl, rfl⟩
    · exact ⟨rfl, rfl, rfl⟩
  · dsimp only [Workspace.recast]
    split
    · rfl
    · rfl

/-- A file that others include brings its nodes. -/
theorem readFileAt_good {dialect : Dialect} (hdialect : dialect.Sound) :
    ∀ depth, (readFileAt dialect depth).Good
  | 0 => fun _ _ _ _ _ h => nomatch h
  | depth + 1 => by
    intro path w ts w' hw h
    obtain ⟨content, w₁, henter, h⟩ := bind_ok h
    have hwent := ((aloof_enterFile _).aside _ _ _ henter).steadyIf (P := fun _ => True) hw trivial
    obtain ⟨ts, w₂, hcontent, h⟩ := bind_ok h
    obtain ⟨hgrew, hids, hblocks⟩ :=
      readContent_ok hdialect (readFileAt_good hdialect depth) hwent.1 hcontent
    obtain ⟨_, w₃, hleave, h⟩ := bind_ok h
    cases h
    have hwent' := (aloof_leaveFile.aside _ _ _ hleave).steadyIf (P := fun _ => True) hgrew.ready
      trivial
    refine ⟨((Grew.of_wentOn hwent).trans hgrew).trans (.of_wentOn hwent'), ?_, ?_⟩
    · rw [hids]
      exact addedNodes_congr hwent.2.1 hwent'.2.1.symm
    · exact hwent'.2.1 ▸ hblocks

/-- The trees of the files hold the nodes that were added, once each and in order. -/
theorem readFiles_ok {dialect : Dialect} (hdialect : dialect.Sound) {name : String}
    {ts : List Tree} (hw : Ready w) (h : readFiles dialect name w = .ok ts w') :
    Brought w ts w' := by
  obtain ⟨_, _, hget, h⟩ := bind_ok h
  injection hget with h₁ h₂
  subst h₁ h₂
  dsimp only at h
  cases hcontent : w.host.files.read (Files.join w.settings.srctree name) with
  | error condition =>
    rw [hcontent] at h
    exact nomatch h
  | ok content =>
    rw [hcontent] at h
    exact readContent_ok hdialect (readFileAt_good hdialect _) hw h

end Reading
end Kconfig
