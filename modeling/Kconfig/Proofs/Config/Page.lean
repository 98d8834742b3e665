import Kconfig.Proofs.Config.Line
import Kconfig.Proofs.Config.Pieces
import Kconfig.Proofs.Model.Sound
import Kconfig.Proofs.Values.Support
/-!
A configuration is a list of lines.

Headings and remarks where menus end say nothing when they are read, and the line of a symbol tells
its value. So a configuration tells the value of every symbol that has a line, and nothing else.
-/
namespace Kconfig
open Plan Text

/-- What the files have to keep to for their configurations to be read as they are written: names
are words, the titles of menus and comments are lines that do not start with the mark of names, and
symbols that are never written have no prompts. -/
structure Model.Writable (m : Model) : Prop where
  name : ∀ s ∈ m.defined, IsWord (m.symbol s).name
  title : ∀ n, (m.node n).entry = .menu ∨ (m.node n).entry = .comment →
    OneLine (m.node n).title.toList ∧ ¬ "CONFIG_".toList <+: (m.node n).title.toList
  unwritten : ∀ s, m.isUnwritten s = true →
    ∀ n ∈ (m.symbol s).nodes, (m.node n).prompt = none

/-- Nodes and symbols that are not there have no titles and no prompts. -/
instance (m : Model) : Decidable m.Writable :=
  decidable_of_iff ((∀ s ∈ m.defined, IsWord (m.symbol s).name) ∧
    (∀ n < m.nodes.size, (m.node n).entry = .menu ∨ (m.node n).entry = .comment →
      OneLine (m.node n).title.toList ∧ ¬ "CONFIG_".toList <+: (m.node n).title.toList) ∧
    ∀ s < m.symbols.size, m.isUnwritten s = true →
      ∀ n ∈ (m.symbol s).nodes, (m.node n).prompt = none) <| by
    refine ⟨fun ⟨hname, htitle, hunwritten⟩ => ⟨hname, fun n hn => ?_, fun s hs n hn => ?_⟩,
      fun h => ⟨h.name, fun n _ => h.title n, fun s _ => h.unwritten s⟩⟩
    · refine htitle n (Nat.lt_of_not_le fun hle => ?_) hn
      rw [Model.node, Array.getElem?_eq_none hle] at hn
      exact absurd hn (by decide)
    · refine hunwritten s (Nat.lt_of_not_le fun hle => ?_) hs n hn
      rw [Model.symbol_of_size_le hle] at hn
      exact absurd hn List.not_mem_nil

/-- A model whose values can be written so that they are read again. -/
structure Model.Savable (m : Model) (u : UserValues) (v : Valuation) : Prop where
  sound : m.Sound
  walkable : m.Walkable
  writable : m.Writable
  solves : m.Solves u v
  values : ∀ s ∈ m.defined, (m.symbol s).FitsLine (v (.text (.symbol s))).value

/-- A line of a configuration without its line feed, and the symbol that it is about, if any. -/
structure PageLine where
  chars : List Char
  symbol : Option SymbolId

/-- The line reads as the value of its symbol, or as nothing. -/
structure PageLine.Tells (m : Model) (v : Valuation) (line : PageLine) : Prop where
  oneLine : OneLine line.chars
  read : ConfigLine.read "CONFIG_" (line.chars ++ ['\n']) = match line.symbol with
    | none => .ignored
    | some s => (m.symbol s).assignment (v (.text (.symbol s))).value

/-- The text of lines. -/
def textOf (lines : List PageLine) : List Char := lines.flatMap fun line => line.chars ++ ['\n']

/-- A header that says nothing when it is read. -/
def IsRemarks (header : String) : Prop :=
  ∃ lines : List (List Char), header.toList = lines.flatMap (· ++ ['\n']) ∧
    ∀ l ∈ lines, OneLine l ∧ ConfigLine.read "CONFIG_" (l ++ ['\n']) = .ignored

theorem isRemarks_empty : IsRemarks "" := ⟨[], rfl, fun _ h => absurd h List.not_mem_nil⟩

namespace Model
variable {m : Model} {u : UserValues} {v : Valuation} {n : NodeId}

/-- The text is lines, which tell the values of the symbols. -/
def Told (m : Model) (v : Valuation) (text : String) (symbols : List SymbolId) : Prop :=
  ∃ lines, text.toList = textOf lines ∧ (∀ l ∈ lines, l.Tells m v) ∧
    lines.filterMap (·.symbol) = symbols

namespace Told
variable {text text' : String} {symbols symbols' : List SymbolId}

theorem empty : m.Told v "" [] := ⟨[], rfl, fun _ h => absurd h List.not_mem_nil, rfl⟩

theorem append (h : m.Told v text symbols) (h' : m.Told v text' symbols') :
    m.Told v (text ++ text') (symbols ++ symbols') := by
  obtain ⟨lines, htext, htell, rfl⟩ := h
  obtain ⟨lines', htext', htell', rfl⟩ := h'
  refine ⟨lines ++ lines', ?_, fun l hl => ?_, List.filterMap_append⟩
  · rw [String.toList_append, htext', htext, textOf, textOf, textOf, List.flatMap_append]
  · exact (List.mem_append.mp hl).elim (htell l) (htell' l)

/-- One text for each of some things, with the value of one symbol at most. -/
theorem join {α : Type} {text : α → String} {symbol? : α → Option SymbolId} : ∀ (xs : List α),
    (∀ x ∈ xs, m.Told v (text x) (symbol? x).toList) →
    m.Told v (String.join (xs.map text)) (xs.filterMap symbol?)
  | [], _ => empty
  | x :: xs, h => by
    rw [List.map_cons, String.join_cons, Lists.filterMap_cons_toList]
    exact (h x (List.mem_cons_self ..)).append (join xs fun y hy => h y (List.mem_cons_of_mem _ hy))

/-- Lines that say nothing. -/
theorem remarks (lines : List (List Char)) (htext : text.toList = lines.flatMap (· ++ ['\n']))
    (hlines : ∀ l ∈ lines, OneLine l ∧ ConfigLine.read "CONFIG_" (l ++ ['\n']) = .ignored) :
    m.Told v text [] := by
  refine ⟨lines.map (⟨·, none⟩), ?_, fun l hl => ?_, ?_⟩
  · rw [htext, textOf, List.flatMap_map]
  · obtain ⟨chars, hchars, rfl⟩ := List.mem_map.mp hl
    exact ⟨(hlines chars hchars).1, (hlines chars hchars).2⟩
  · rw [List.filterMap_map]
    exact List.filterMap_eq_nil_iff.mpr fun _ _ => rfl

end Told

/-! ### Remarks -/

theorem remark_hash (s : List Char) (hs : OneLine s) (h : ¬ ' ' :: "CONFIG_".toList <+: s) :
    OneLine ('#' :: s) ∧ ConfigLine.read "CONFIG_" ('#' :: s ++ ['\n']) = .ignored := by
  have hhash : OneLine ['#'] := ⟨by decide, by decide⟩
  exact ⟨hhash.append hs, ConfigLine.read_remark h⟩

theorem remark_bare :
    OneLine ['#'] ∧ ConfigLine.read "CONFIG_" (['#'] ++ ['\n']) = .ignored :=
  remark_hash [] ⟨by decide, by decide⟩ (by decide)

theorem remark_empty : OneLine [] ∧ ConfigLine.read "CONFIG_" ([] ++ ['\n']) = .ignored :=
  ⟨⟨by decide, by decide⟩, ConfigLine.read_empty⟩

theorem isShown_entry (h : (m.isShown (m.node n)).result v = true) :
    (m.node n).entry = .menu ∨ (m.node n).entry = .comment := by
  unfold isShown at h
  cases hentry : (m.node n).entry with
  | menu => exact .inl rfl
  | comment => exact .inr rfl
  | _ =>
    rw [hentry] at h
    simp at h

/-- A symbol is not visible if no node of it has a prompt. -/
theorem Solves.hidden_of_no_prompts (hv : m.Solves u v) {s : SymbolId}
    (h : ∀ n ∈ (m.symbol s).nodes, (m.node n).prompt = none) :
    v (.visible (.symbol s)) = false := by
  refine hv.hidden_of_promptless (List.any_eq_false.mpr fun n hn => ?_)
  rw [h n hn]
  exact Bool.false_ne_true

/-- What is never written is never visible. -/
theorem Solves.hidden_of_unwritten (hv : m.Solves u v) (hw : m.Writable) (s : SymbolId)
    (h : m.isUnwritten s = true) : v (.visible (.symbol s)) = false :=
  hv.hidden_of_no_prompts (hw.unwritten s h)

section Writing
variable (hw : m.Writable)
include hw

/-- A heading is remarks. -/
theorem told_heading (h : (m.isShown (m.node n)).result v = true) :
    m.Told v s!"\n#\n# {(m.node n).title}\n#\n" [] := by
  obtain ⟨hone, hmark⟩ := hw.title n (isShown_entry h)
  have hblank : OneLine [' '] := ⟨by decide, by decide⟩
  refine .remarks [[], ['#'], '#' :: ' ' :: (m.node n).title.toList, ['#']] ?_ fun l hl => ?_
  · show ("\n#\n# " ++ (m.node n).title ++ "\n#\n").toList = _
    simp
  · simp only [List.mem_cons, List.not_mem_nil, or_false] at hl
    rcases hl with rfl | rfl | rfl | rfl
    · exact remark_empty
    · exact remark_bare
    · refine remark_hash _ (hblank.append hone) fun hstarts => hmark ?_
      exact (List.cons_prefix_cons.mp hstarts).2
    · exact remark_bare

/-- The remark that a menu ends is one. -/
theorem told_ending (h : (m.isShown (m.node n)).result v = true) :
    m.Told v s!"# end of {(m.node n).title}\n" [] := by
  obtain ⟨hone, -⟩ := hw.title n (isShown_entry h)
  have hend : OneLine " end of ".toList := ⟨by decide, by decide⟩
  refine .remarks ['#' :: (" end of ".toList ++ (m.node n).title.toList)] ?_ fun l hl => ?_
  · show ("# end of " ++ (m.node n).title ++ "\n").toList = _
    simp
  · obtain rfl := List.mem_singleton.mp hl
    refine remark_hash _ (hend.append hone) fun hstarts => ?_
    have htail : "CONFIG_".toList <+: 'e' :: _ := (List.cons_prefix_cons.mp hstarts).2
    exact absurd (List.cons_prefix_cons.mp htail).1 (by decide)

end Writing

/-- The line of a symbol tells its value. -/
theorem told_value (hv : m.Solves u v) {s : SymbolId} (hname : IsWord (m.symbol s).name)
    (hvalue : (m.symbol s).FitsLine (v (.text (.symbol s))).value) :
    m.Told v (assignmentLine {} (m.symbol s) (v (.text (.symbol s))).value) [s] := by
  obtain ⟨chars, hline, hone, hread⟩ := read_assignmentLine hname hvalue hv.level_text
  refine ⟨[⟨chars, some s⟩], ?_, fun l hl => ?_, rfl⟩
  · rw [hline, textOf, List.flatMap_singleton]
  · obtain rfl := List.mem_singleton.mp hl
    exact ⟨hone, hread⟩

/-- Of the pieces of a configuration only lines tell anything. -/
theorem told_chunk (h : m.Savable u v) {k : Chunk} (hk : k.Placed m v) (header : String) :
    m.Told v (k.text m v ⟨"CONFIG_", header⟩) k.symbol?.toList := by
  cases k with
  | heading n => exact told_heading h.writable hk
  | ending n => exact told_ending h.writable hk
  | gap =>
    refine .remarks [[]] (by simp [Chunk.text]) fun l hl => ?_
    exact List.mem_singleton.mp hl ▸ remark_empty
  | line s =>
    obtain ⟨n, hn⟩ := hk
    obtain ⟨-, hhead, hwritten⟩ := writtenAt_eq_some.mp hn
    have hdefined : s ∈ m.defined := (h.sound.defined s).mpr fun hnil => by simp [hnil] at hhead
    have hvalue := told_value h.solves (h.writable.name s hdefined) (h.values s hdefined)
    rwa [Chunk.text, configLine_result, if_pos hwritten]

/-- A configuration is lines, of which one tells the value of each symbol that is written. -/
theorem configText_lines (h : m.Savable u v) {header : String} (hheader : IsRemarks header) :
    ∃ lines, ((m.configText ⟨"CONFIG_", header⟩).result v).toList = textOf lines ∧
    (∀ l ∈ lines, l.Tells m v) ∧
    lines.filterMap (·.symbol) = m.order.filterMap (m.writtenAt v) := by
  obtain ⟨remarks, hremarks, hread⟩ := hheader
  obtain ⟨chunks, htext, hplaced, hsymbols⟩ := Model.configText_chunks h.walkable ⟨"CONFIG_", header⟩
  have hstart : m.Told v header [] := .remarks remarks hremarks hread
  have hchunks : m.Told v (Chunk.joined m v ⟨"CONFIG_", header⟩ chunks) _ :=
    .join chunks fun k hk => told_chunk h (hplaced k hk) header
  rw [htext, ← hsymbols]
  exact hstart.append hchunks

end Model
end Kconfig
