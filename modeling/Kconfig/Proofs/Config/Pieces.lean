import Kconfig.Config.Contents
import Kconfig.Proofs.Model.Iteration
import Kconfig.Proofs.Values.Plan
/-!
A configuration is a header and pieces.

A piece is the heading of a menu or comment that is shown, the remark that such a menu ends, the
empty line after remarks of this kind, or the line of a symbol. There is one line for every symbol
whose value is written, at the symbol's first place in the menu tree, and none for any other.
-/
namespace Kconfig
open Plan

variable {m : Model} {v : Valuation} {s : SymbolId} {n : NodeId} {style : FileStyle}

/-- The symbol whose value stands at a node: it is written, and the node is its first one. -/
def Model.writtenAt (m : Model) (v : Valuation) (n : NodeId) : Option SymbolId :=
  (m.symbolOf? n).filter fun s =>
    (m.symbol s).nodes.head? == some n && (v (.text (.symbol s))).isWritten

theorem Model.writtenAt_eq_some : m.writtenAt v n = some s ↔ m.symbolOf? n = some s ∧
    (m.symbol s).nodes.head? = some n ∧ (v (.text (.symbol s))).isWritten = true := by
  simp [writtenAt, Option.filter_eq_some_iff]

/-- A piece of a configuration: the heading of a menu or comment, the remark that a menu ends, the
empty line that comes after such remarks, or the line of a symbol. -/
inductive Chunk where
  | heading (n : NodeId)
  | ending (n : NodeId)
  | gap
  | line (s : SymbolId)

namespace Chunk

/-- What a piece looks like. -/
def text (m : Model) (v : Valuation) (style : FileStyle) : Chunk → String
  | .heading n => s!"\n#\n# {(m.node n).title}\n#\n"
  | .ending n => s!"# end of {(m.node n).title}\n"
  | .gap => "\n"
  | .line s => (m.configLine style s).result v

/-- The symbol whose line a piece is. -/
def symbol? : Chunk → Option SymbolId
  | .line s => some s
  | _ => none

/-- Headings and remarks are those of nodes that are shown, and lines those of symbols whose values
stand somewhere. -/
def Placed (m : Model) (v : Valuation) : Chunk → Prop
  | .heading n | .ending n => (m.isShown (m.node n)).result v = true
  | .gap => True
  | .line s => ∃ n, m.writtenAt v n = some s

/-- Pieces one after the other. -/
def joined (m : Model) (v : Valuation) (style : FileStyle) (chunks : List Chunk) : String :=
  String.join (chunks.map (text m v style))

end Chunk

namespace Model

theorem configLine_result : (m.configLine style s).result v =
    if (v (.text (.symbol s))).isWritten then
      assignmentLine style (m.symbol s) (v (.text (.symbol s))).value else "" :=
  rfl

theorem assignmentLine_ne_empty (sym : Symbol) (value : String) :
    assignmentLine style sym value ≠ "" := by
  have hadded : ∀ {s t : String}, t ≠ "" → s ++ t ≠ "" := fun ht h =>
    ht (String.append_eq_empty_iff.mp h).2
  unfold assignmentLine
  cases sym.type with
  | bool =>
    dsimp only
    split
    · exact hadded (by decide)
    · exact hadded (by decide)
  | _ => exact hadded (by decide)

theorem joinLines_result (line : SymbolId → Plan String) : ∀ (ss : List SymbolId) (text : String),
    (joinLines line text ss).result v = text ++ String.join (ss.map fun s => (line s).result v)
  | [], text => by simp [joinLines]
  | s :: ss, text => by
    rw [joinLines, result_bind, joinLines_result line ss, List.map_cons, String.join_cons,
      String.append_assoc]

/-- The page with further pieces in their places, of which the lines are those of the symbols. -/
def Adds (m : Model) (v : Valuation) (style : FileStyle) (page page' : Page)
    (symbols : List SymbolId) : Prop :=
  ∃ chunks, page'.text = page.text ++ Chunk.joined m v style chunks ∧
    (∀ k ∈ chunks, k.Placed m v) ∧ chunks.filterMap Chunk.symbol? = symbols

namespace Adds
variable {page page' page'' : Page} {symbols symbols' : List SymbolId}

theorem refl : m.Adds v style page page [] :=
  ⟨[], by simp [Chunk.joined], fun _ h => absurd h List.not_mem_nil, rfl⟩

theorem trans (h : m.Adds v style page page' symbols)
    (h' : m.Adds v style page' page'' symbols') :
    m.Adds v style page page'' (symbols ++ symbols') := by
  obtain ⟨chunks, htext, hplaced, rfl⟩ := h
  obtain ⟨chunks', htext', hplaced', rfl⟩ := h'
  refine ⟨chunks ++ chunks', ?_, fun k hk => ?_, List.filterMap_append⟩
  · rw [htext', htext, Chunk.joined, Chunk.joined, Chunk.joined, List.map_append,
      String.join_append, String.append_assoc]
  · exact (List.mem_append.mp hk).elim (hplaced k) (hplaced' k)

/-- One piece more. -/
theorem chunk (k : Chunk) (hk : k.Placed m v) {text : String}
    (htext : text = page.text ++ k.text m v style) (menuEnded : Bool) :
    m.Adds v style page ⟨text, menuEnded⟩ k.symbol?.toList := by
  refine ⟨[k], ?_, fun k' hk' => List.mem_singleton.mp hk' ▸ hk, ?_⟩
  · rw [htext]
    simp [Chunk.joined]
  · cases k <;> rfl

end Adds

variable {page : Page}

/-- The line of a symbol stands at its first node, if the value is written. -/
theorem adds_addLine (hs : m.symbolOf? n = some s) (hhead : (m.symbol s).nodes.head? = some n) :
    m.Adds v style page ((m.addLine style page s).result v) (m.writtenAt v n).toList := by
  unfold addLine
  rw [result_bind, result_ite]
  cases hwritten : (v (.text (.symbol s))).isWritten with
  | true =>
    have hsome : m.writtenAt v n = some s := writtenAt_eq_some.mpr ⟨hs, hhead, hwritten⟩
    have hplaced : (Chunk.line s).Placed m v := ⟨n, hsome⟩
    have hline : (m.configLine style s).result v = assignmentLine style (m.symbol s) _ :=
      configLine_result.trans (if_pos hwritten)
    rw [hsome, if_neg fun hempty => assignmentLine_ne_empty _ _
      (hline ▸ String.isEmpty_iff.mp hempty)]
    cases hended : page.menuEnded with
    | true =>
      have hgap : m.Adds v style page ⟨page.text ++ "\n", false⟩ [] :=
        .chunk .gap trivial rfl false
      exact hgap.trans (.chunk (.line s) hplaced (by simp [Chunk.text]) false)
    | false => exact .chunk (.line s) hplaced (by simp [Chunk.text]) false
  | false =>
    have hnone : m.writtenAt v n = none := by simp [writtenAt, Option.filter_some, hs, hwritten]
    have hline : (m.configLine style s).result v = "" :=
      configLine_result.trans (if_neg (Bool.eq_false_iff.mp hwritten))
    rw [hnone, if_pos (by rw [hline]; rfl)]
    exact .refl

theorem adds_endMenu : m.Adds v style page ((m.endMenu page n).result v) [] := by
  unfold endMenu
  dsimp only
  rw [result_ite]
  split
  · rw [result_bind, result_ite]
    split
    · next hshown =>
      exact .chunk (.ending n) (Bool.and_eq_true_iff.mp hshown).1 rfl true
    · exact .refl
  · exact .refl

/-! ### The walk -/

/-- On the way up the walk leaves the nodes that links lead it up, and adds no line. -/
theorem adds_leaveMenus {rest : Option NodeId} : ∀ {most : Nat} {n : NodeId} (page : Page),
    m.leaveWithin most n = some rest → ∃ page',
      (m.leaveMenus most page n).result v = some (page', rest) ∧ m.Adds v style page page' []
  | 0, _, _, h => nomatch h
  | most + 1, n, page, h => by
    unfold leaveWithin at h
    unfold leaveMenus
    dsimp only at h ⊢
    cases hnext : (m.linksOf n).next with
    | some k =>
      rw [hnext] at h
      exact ⟨page, congrArg (fun r => some (page, r)) (Option.some.inj h), .refl⟩
    | none =>
      rw [hnext] at h
      cases hparent : (m.linksOf n).parent with
      | some p =>
        rw [hparent] at h
        obtain ⟨page', hresult, hadds⟩ := adds_leaveMenus ((m.endMenu page p).result v) h
        exact ⟨page', (result_bind ..).trans hresult, adds_endMenu.trans hadds⟩
      | none =>
        rw [hparent] at h
        exact ⟨page, congrArg (fun r => some (page, r)) (Option.some.inj h), .refl⟩

/-- The walk goes where the links lead, and adds no line on its way. -/
theorem adds_goOn {rest : Option NodeId} (page : Page) (h : m.nodeAfter n = some rest) :
    ∃ page', (m.goOn page n).result v = some (page', rest) ∧ m.Adds v style page page' [] := by
  unfold nodeAfter at h
  unfold goOn
  cases hfirst : (m.linksOf n).first with
  | some k =>
    rw [hfirst] at h
    exact ⟨page, congrArg (fun r => some (page, r)) (Option.some.inj h), .refl⟩
  | none =>
    rw [hfirst] at h
    exact adds_leaveMenus page h

section Walk
variable (hm : m.Walkable)
include hm

/-- A node adds the line of its symbol if the symbol has not been seen, and its value is written. -/
theorem adds_writeNode {pre post : List NodeId} {seen : List SymbolId}
    (horder : m.order = pre ++ n :: post) (hseen : m.Seen seen pre) (page : Page) :
    ∃ seen' page', (m.writeNode style seen page n).result v = (seen', page') ∧
      m.Adds v style page page' (m.writtenAt v n).toList ∧ m.Seen seen' (pre ++ [n]) := by
  unfold writeNode
  dsimp only
  cases hentry : (m.node n).entry with
  | symbol s =>
    have hs : m.symbolOf? n = some s := by rw [symbolOf?, hentry]
    have hrepeats := hseen.mem_iff hm horder hs
    rw [repeats, hs] at hrepeats
    dsimp only
    rw [result_ite]
    by_cases hmem : s ∈ seen
    · have hlater : (m.symbol s).nodes.head? ≠ some n := of_decide_eq_true (hrepeats.mp hmem)
      have hnone : m.writtenAt v n = none := by simp [writtenAt, Option.filter_some, hs, hlater]
      rw [if_pos (List.contains_iff_mem.mpr hmem), hnone]
      exact ⟨seen, page, rfl, .refl, hseen.again hs hmem⟩
    · have hfirst : (m.symbol s).nodes.head? = some n :=
        Decidable.of_not_not fun hne => hmem (hrepeats.mpr (decide_eq_true hne))
      rw [if_neg (mt List.contains_iff_mem.mp hmem), result_bind]
      exact ⟨s :: seen, _, rfl, adds_addLine hs hfirst, hseen.insert hs⟩
  | _ =>
    have hs : m.symbolOf? n = none := by rw [symbolOf?, hentry]
    have hnone : m.writtenAt v n = none := by rw [writtenAt, hs]; rfl
    rw [hnone]
    dsimp only
    rw [result_bind, result_ite]
    split
    · next hshown =>
      exact ⟨seen, _, rfl, .chunk (.heading n) hshown rfl false, hseen.pass hs⟩
    · exact ⟨seen, page, rfl, .refl, hseen.pass hs⟩

/-- A walk through nodes adds the lines of the symbols whose values stand at them. -/
theorem adds_writeWithin : ∀ (ns pre : List NodeId) {n : NodeId} {seen : List SymbolId}
    {most : Nat} (page : Page), m.order = pre ++ ns → ns.length < most → m.Seen seen pre →
      m.Route none (n :: ns) → ∃ page',
      (m.writeWithin style most seen page n).result v = some page' ∧
        m.Adds v style page page' (ns.filterMap (m.writtenAt v))
  | _, _, _, _, 0, _, _, hroom, _, _ => absurd hroom (Nat.not_lt_zero _)
  | [], _, n, seen, most + 1, page, _, _, _, h => by
    obtain ⟨page', hgo, hadds⟩ := adds_goOn page h.1
    refine ⟨page', ?_, hadds⟩
    rw [writeWithin, result_bind, hgo]
    rfl
  | k :: ns, pre, n, seen, most + 1, page, horder, hroom, hseen, h => by
    have horder' : m.order = (pre ++ [k]) ++ ns := by rw [horder, List.append_assoc]; rfl
    obtain ⟨page₁, hgo, hway⟩ := adds_goOn page h.1
    obtain ⟨seen', page₂, hwrite, hnode, hseen'⟩ := adds_writeNode hm horder hseen page₁
    obtain ⟨page', hrest, hadds⟩ :=
      adds_writeWithin ns _ page₂ horder' (Nat.lt_of_succ_lt_succ hroom) hseen' h.2
    refine ⟨page', ?_, ?_⟩
    · rw [writeWithin, result_bind, hgo]
      dsimp only [List.head?_cons, Option.some_or]
      rw [result_bind, hwrite]
      exact hrest
    · rw [Lists.filterMap_cons_toList]
      exact hway.trans (hnode.trans hadds)

/-- A configuration is its header and pieces in their places, of which the lines are those of the
symbols that are written, in the order of the menu tree. -/
theorem configText_chunks (style : FileStyle) : ∃ chunks,
    (m.configText style).result v = style.header ++ Chunk.joined m v style chunks ∧
      (∀ k ∈ chunks, k.Placed m v) ∧
      chunks.filterMap Chunk.symbol? = m.order.filterMap (m.writtenAt v) := by
  have hroom := length_order_lt hm.linked
  obtain ⟨page, hwalk, chunks, htext, hplaced, hsymbols⟩ := @adds_writeWithin m v style hm m.order []
    0 [] m.longestWay ⟨style.header, false⟩ rfl hroom .start (route_order hm.linked)
  refine ⟨chunks, ?_, hplaced, hsymbols⟩
  rw [configText, result_bind, hwalk]
  exact htext

end Walk

end Model
end Kconfig
