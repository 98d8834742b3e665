import Mathlib.Data.List.Basic
import Mathlib.Data.List.Induction
import Kconfig.Proofs.Model.Iteration
/-!
The defined symbols are met in their order when the menu tree is gone through.

Definitions are listed while the files are read. The menu tree has them in the same order, so going
through it without the nodes whose symbol was met before gives the defined symbols one by one.
-/
namespace Kconfig
namespace Model
variable {m : Model} {n : NodeId} {s : SymbolId}

theorem firstOccurrences_concat {α : Type} [BEq α] [LawfulBEq α] (xs : List α) (x : α) :
    firstOccurrences (xs ++ [x]) =
      firstOccurrences xs ++ if x ∈ xs then [] else [x] := by
  have hmem : (xs.foldl (fun seen x => if seen.contains x then seen else x :: seen) []).contains x =
      decide (x ∈ xs) := by
    rw [List.contains_eq_mem, decide_eq_decide]
    constructor
    · exact fun h => mem_of_firstOccurrences (List.mem_reverse.mpr h)
    · exact fun h => List.mem_reverse.mp (mem_firstOccurrences h)
  rw [firstOccurrences, List.foldl_append, List.foldl_cons, List.foldl_nil, hmem]
  by_cases hx : x ∈ xs <;> simp [hx, firstOccurrences]

theorem firstOccurrences_filter {α : Type} [BEq α] [LawfulBEq α] (p : α → Bool) (xs : List α) :
    firstOccurrences (xs.filter p) = (firstOccurrences xs).filter p := by
  induction xs using List.reverseRecOn with
  | nil => rfl
  | append_singleton xs x ih =>
    rw [List.filter_append, firstOccurrences_concat, List.filter_append, ← ih]
    by_cases hp : p x = true
    · have hlast : [x].filter p = [x] := by simp [hp]
      rw [hlast, firstOccurrences_concat]
      by_cases hx : x ∈ xs <;> simp [List.mem_filter, hx, hp]
    · have hlast : [x].filter p = [] := by simp [hp]
      rw [hlast]
      by_cases hx : x ∈ xs <;> simp [hx, hp]

theorem firstOccurrences_map {α β : Type} [BEq α] [LawfulBEq α] [BEq β] [LawfulBEq β] {f : α → β}
    (xs : List α) : (∀ x ∈ xs, ∀ y ∈ xs, f x = f y → x = y) →
      firstOccurrences (xs.map f) = (firstOccurrences xs).map f := by
  induction xs using List.reverseRecOn with
  | nil => exact fun _ => rfl
  | append_singleton xs x ih =>
    intro hinj
    have hmem : f x ∈ xs.map f ↔ x ∈ xs := by
      refine ⟨fun h => ?_, List.mem_map_of_mem⟩
      obtain ⟨y, hy, heq⟩ := List.mem_map.mp h
      exact hinj y (by simp [hy]) x (by simp) heq ▸ hy
    have hbefore := ih fun y hy z hz => hinj y (by simp [hy]) z (by simp [hz])
    rw [List.map_append, List.map_singleton, firstOccurrences_concat, firstOccurrences_concat,
      List.map_append, hbefore]
    by_cases hx : x ∈ xs <;> simp [hmem, hx]

/-- The first elements for each of their images, along a list without repetitions. -/
theorem filterMap_first {f : NodeId → Option SymbolId} (ns : List NodeId) :
    ns.Nodup → (ns.filterMap fun n => (f n).filter fun s => ns.find? (f · = some s) == some n) =
      firstOccurrences (ns.filterMap f) := by
  induction ns using List.reverseRecOn with
  | nil => exact fun _ => rfl
  | append_singleton ns n ih =>
    intro hnodup
    obtain ⟨hns, -, hne⟩ := List.nodup_append.mp hnodup
    have hfound : ∀ {k s}, k ∈ ns → f k = some s →
        ∃ k₀ ∈ ns, ns.find? (f · = some s) = some k₀ := by
      intro k s hk hs
      obtain ⟨k₀, hk₀⟩ := Option.isSome_iff_exists.mp
        (List.find?_isSome (p := (f · = some s)).mpr ⟨k, hk, decide_eq_true hs⟩)
      exact ⟨k₀, List.mem_of_find?_eq_some hk₀, hk₀⟩
    -- the elements before the last are first ones as before
    have hbefore : (ns.filterMap fun k => (f k).filter fun s =>
        (ns ++ [n]).find? (f · = some s) == some k) = firstOccurrences (ns.filterMap f) := by
      rw [← ih hns]
      refine List.filterMap_congr fun k hk => ?_
      cases hs : f k with
      | none => rfl
      | some s =>
        obtain ⟨k₀, -, hk₀⟩ := hfound hk hs
        simp [Option.filter_some, List.find?_append, hk₀]
    rw [List.filterMap_append, List.filterMap_append, hbefore]
    cases hs : f n with
    | none => simp [hs]
    | some s =>
      have hlast : List.filterMap f [n] = [s] := by simp [hs]
      rw [hlast, firstOccurrences_concat]
      congr 1
      rw [List.filterMap_cons, List.filterMap_nil, hs]
      by_cases hmet : s ∈ ns.filterMap f
      · obtain ⟨k, hk, hks⟩ := List.mem_filterMap.mp hmet
        obtain ⟨k₀, hmem, hk₀⟩ := hfound hk hks
        have hne : k₀ ≠ n := fun heq => hne k₀ hmem n (List.mem_singleton_self n) heq
        rw [if_pos hmet]
        simp [Option.filter_some, List.find?_append, hk₀, hne]
      · have hnone : ns.find? (f · = some s) = none :=
          List.find?_eq_none.mpr fun k hk hks =>
            hmet (List.mem_filterMap.mpr ⟨k, hk, of_decide_eq_true hks⟩)
        rw [if_neg hmet]
        simp [Option.filter_some, List.find?_append, hnone, hs]

/-- The menu tree has the definitions in the order in which they were read. -/
def InOrder (m : Model) : Prop := m.definitions.toList = m.order.filterMap m.symbolOf?

/-- Going through the menu tree, nodes whose symbol was met before left out, one meets the defined
symbols in order. -/
theorem firstSymbols (hm : m.Distinct) (hnodes : m.Gathered) (horder : m.InOrder) :
    (m.order.filter (!m.repeats ·)).filterMap m.symbolOf? = m.defined := by
  rw [defined, horder, ← filterMap_first m.order (List.nodup_cons.mp hm).2, List.filterMap_filter]
  refine List.filterMap_congr fun n _ => ?_
  cases hs : m.symbolOf? n with
  | none => simp
  | some s =>
    have hfirst : (m.symbol s).nodes.head? = m.order.find? (m.symbolOf? · = some s) := by
      rw [hnodes s, List.head?_filter]
    by_cases hhead : m.order.find? (m.symbolOf? · = some s) = some n <;>
      simp [Option.filter_some, repeats, hs, hfirst, hhead]

/-- Reading and settling lists the definitions in the order of the menu tree. -/
theorem Read.inOrder {blocks : List Tree} {table : Array Links} (h : m.Read blocks) :
    (m.settle blocks table).InOrder := by
  have hdefinitions : (m.settle blocks table).definitions = m.definitions := by
    rw [h.joins.rest, (gathers_filled m blocks table).rest, outlined,
      (inherits_inherited m blocks).rest]
  have hentries : m.entries = (m.settle blocks table).entries := h.entries_settle.symm
  have hlist : (m.settle blocks table).entries =
      (List.range (m.settle blocks table).nodes.size).map fun n =>
      ((m.settle blocks table).node n).entry := by
    refine List.ext_getElem? fun n => ?_
    rw [List.getElem?_map]
    by_cases hn : n < (m.settle blocks table).nodes.size
    · rw [entry_of_lt ((length_entries _).symm ▸ hn), List.getElem?_range hn]
      rfl
    · rw [List.getElem?_eq_none (by rw [length_entries]; omega),
        List.getElem?_eq_none (by rw [List.length_range]; omega)]
      rfl
  rw [InOrder, hdefinitions, h.raw.definitions, hentries, hlist, List.filterMap_map, h.order_settle,
    List.filterMap_filter]
  refine List.filterMap_congr fun n _ => ?_
  have hzero : ((m.settle blocks table).node 0).entry = .menu := by
    rw [h.node_settle, h.node_inherited_zero, h.entry_zero]
  by_cases hn : n = 0
  · subst hn
    simp [hzero, Entry.symbol?]
  · cases hentry : ((m.settle blocks table).node n).entry <;>
      simp [hn, hentry, symbolOf?, Entry.symbol?]

end Model
end Kconfig
