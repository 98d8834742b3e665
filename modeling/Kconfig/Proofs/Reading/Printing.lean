import Kconfig.Proofs.Model.Raw
import Kconfig.Proofs.Reading.Regrouping
import Kconfig.Proofs.Reading.Tokens
import Mathlib.Data.List.Find
/-!
What an expression is written as is read back.

The text of an expression over symbols falls into the tokens of the expression: words and quoted
constants end where they are meant to end, whatever the constants say. A name of a symbol that is
known gives this symbol. Any other name was brought by an expression given by hand, and gives a new
symbol which has nothing but the same name.
-/
namespace Kconfig
open Text

/-! ### Names -/

/-- A word of letters, digits and the signs of names that is no keyword. -/
structure IsName (name : String) : Prop where
  nonempty : name ≠ ""
  chars : ∀ c ∈ name.toList, Macro.isNameChar c = true ∧ c ≠ '$'
  noKeyword : Keyword.find? name = none

theorem isName_iff {name : String} : IsName name ↔ name ≠ "" ∧
    (∀ c ∈ name.toList, Macro.isNameChar c = true ∧ c ≠ '$') ∧ Keyword.find? name = none :=
  ⟨fun h => ⟨h.nonempty, h.chars, h.noKeyword⟩, fun h => ⟨h.1, h.2.1, h.2.2⟩⟩

instance (name : String) : Decidable (IsName name) :=
  decidable_of_iff (name ≠ "" ∧ (name.toList.all fun c => Macro.isNameChar c && c != '$') = true ∧
      Keyword.find? name = none) <| by
    rw [isName_iff, List.all_eq_true]
    simp

namespace Model
variable {m : Model} {s t : SymbolId} {name : String} {isConstant : Bool}

/-- Symbols that can be written so that they are read back: constants without references, and
others whose name is a word and no keyword. -/
def Nameable (m : Model) : Item → Prop
  | .symbol s => s < m.symbols.size ∧
    if (m.symbol s).isConstant then '$' ∉ (m.symbol s).name.toList else IsName (m.symbol s).name
  | .choice _ => False

instance (m : Model) : ∀ i, Decidable (m.Nameable i)
  | .symbol s => inferInstanceAs (Decidable (s < m.symbols.size ∧
      if (m.symbol s).isConstant then '$' ∉ (m.symbol s).name.toList else IsName (m.symbol s).name))
  | .choice _ => inferInstanceAs (Decidable False)

/-- Known symbols are told apart by their names, and `n` and `y` are constants only. Symbols that
are not known have nothing but a name, which is that of no known symbol. -/
structure Indexed (m : Model) : Prop where
  no : (m.symbol noId).name = "n" ∧ (m.symbol noId).isConstant = true
  yes : (m.symbol yesId).name = "y" ∧ (m.symbol yesId).isConstant = true
  two_le : 2 ≤ m.known
  known_le : m.known ≤ m.symbols.size
  unique : ∀ s t, s < m.known → t < m.known → (m.symbol s).name = (m.symbol t).name →
    (m.symbol s).isConstant = (m.symbol t).isConstant → s = t
  proper : ∀ s, s < m.symbols.size → (m.symbol s).isConstant = false →
    (m.symbol s).name ≠ "n" ∧ (m.symbol s).name ≠ "y"
  mentioned : ∀ s, m.known ≤ s → s < m.symbols.size → ∃ name isConstant,
    m.symbol s = { name, isConstant } ∧ m.find? name isConstant = none

/-- The model with a symbol that is mentioned but not known. -/
def mention (m : Model) (name : String) (isConstant : Bool) : Model :=
  { m with symbols := m.symbols.push { name, isConstant } }

theorem size_mention (m : Model) (name : String) (isConstant : Bool) :
    (m.mention name isConstant).symbols.size = m.symbols.size + 1 := Array.size_push ..

theorem symbol_mention (m : Model) (name : String) (isConstant : Bool) (s : SymbolId) :
    (m.mention name isConstant).symbol s =
      if s = m.symbols.size then { name, isConstant } else m.symbol s :=
  symbol_withSymbol m name isConstant s

/-- Two numbers for one symbol, or for two that are not known and have the same name. -/
def Same (m : Model) (s t : SymbolId) : Prop :=
  s = t ∨ m.known ≤ s ∧ m.known ≤ t ∧ s < m.symbols.size ∧ t < m.symbols.size ∧
    m.symbol s = m.symbol t

/-- How constants other than `n` and `y` are written. -/
theorem itemText_quoted (hconst : (m.symbol s).isConstant = true) (hno : (m.symbol s).name ≠ "n")
    (hyes : (m.symbol s).name ≠ "y") : (m.itemText (.symbol s)).toList =
      '"' :: (escape (m.symbol s).name.toList ++ ['"']) := by
  simp [itemText, hconst, hno, hyes, escaped, toString]

/-- Other symbols are written as they are called. -/
theorem itemText_bare (h : (m.symbol s).isConstant = false ∨ (m.symbol s).name = "n" ∨
    (m.symbol s).name = "y") : m.itemText (.symbol s) = (m.symbol s).name := by
  rcases h with h | h | h <;> simp [itemText, h]

namespace Indexed

theorem find?_mention (h : m.Indexed) (name : String) (isConstant : Bool) (name' : String)
    (isConstant' : Bool) :
    (m.mention name isConstant).find? name' isConstant' = m.find? name' isConstant' := by
  refine List.find?_congr fun s hs => ?_
  have hlt : s < m.symbols.size := Nat.lt_of_lt_of_le (List.mem_range.mp hs) h.known_le
  dsimp only
  rw [symbol_mention, if_neg (Nat.ne_of_lt hlt)]

/-- A mentioned symbol changes no other one. -/
theorem mention (h : m.Indexed) (hnew : m.find? name isConstant = none)
    (hname : isConstant = false → name ≠ "n" ∧ name ≠ "y") :
    (m.mention name isConstant).Indexed := by
  have hold : ∀ s, s < m.symbols.size → (m.mention name isConstant).symbol s = m.symbol s :=
    fun s hs => by rw [symbol_mention, if_neg (Nat.ne_of_lt hs)]
  have htwo : 2 ≤ m.symbols.size := Nat.le_trans h.two_le h.known_le
  have hknown : ∀ s, s < m.known → s < m.symbols.size := fun s hs =>
    Nat.lt_of_lt_of_le hs h.known_le
  have hlast : ∀ s, s < m.symbols.size + 1 → ¬ s < m.symbols.size →
      (m.mention name isConstant).symbol s = { name, isConstant } := fun s hs hnot => by
    rw [symbol_mention]
    exact if_pos (Nat.le_antisymm (Nat.le_of_lt_succ hs) (Nat.le_of_not_lt hnot))
  refine ⟨?_, ?_, h.two_le, ?_, fun s t hs ht => ?_, fun s hs => ?_, fun s hknown hs => ?_⟩
  · rw [hold noId (Nat.lt_of_lt_of_le Nat.zero_lt_two htwo)]
    exact h.no
  · rw [hold yesId (Nat.lt_of_lt_of_le Nat.one_lt_two htwo)]
    exact h.yes
  · rw [size_mention]
    exact Nat.le_succ_of_le h.known_le
  · rw [hold s (hknown s hs), hold t (hknown t ht)]
    exact h.unique s t hs ht
  · rw [size_mention] at hs
    by_cases hlt : s < m.symbols.size
    · rw [hold s hlt]
      exact h.proper s hlt
    · rw [hlast s hs hlt]
      exact hname
  · rw [size_mention] at hs
    by_cases hlt : s < m.symbols.size
    · rw [hold s hlt]
      obtain ⟨name', isConstant', heq, hfind⟩ := h.mentioned s hknown hlt
      exact ⟨name', isConstant', heq, (h.find?_mention ..).trans hfind⟩
    · exact ⟨name, isConstant, hlast s hs hlt, (h.find?_mention ..).trans hnew⟩

/-- A known name is that of one symbol. -/
theorem find?_eq (h : m.Indexed) (hs : s < m.known) :
    m.find? (m.symbol s).name (m.symbol s).isConstant = some s := by
  cases hfind : m.find? (m.symbol s).name (m.symbol s).isConstant with
  | none => exact absurd rfl (find?_eq_none hfind hs rfl)
  | some t =>
    obtain ⟨ht, hname, hconst⟩ := find?_eq_some hfind
    rw [h.unique s t hs ht hname.symm hconst.symm]

end Indexed
end Model

/-- No file is read, and the symbols are known or mentioned. -/
structure Workspace.Closed (w : Workspace) : Prop where
  isOpen : w.isOpen = false
  indexed : w.model.Indexed

/-- Nothing has happened but that symbols were mentioned. -/
structure Workspace.Mentions (w w' : Workspace) : Prop where
  rest : ∃ symbols journal, w' = { w with model := { w.model with symbols }, journal }
  size : w.model.symbols.size ≤ w'.model.symbols.size
  old : ∀ s, s < w.model.symbols.size → w'.model.symbol s = w.model.symbol s
  closed : w'.Closed

namespace Workspace.Mentions
variable {w w' w'' : Workspace} {s t : SymbolId}

theorem refl (h : w.Closed) : w.Mentions w := ⟨⟨_, _, rfl⟩, Nat.le_refl _, fun _ _ => rfl, h⟩

theorem trans (h : w.Mentions w') (h' : w'.Mentions w'') : w.Mentions w'' := by
  refine ⟨?_, Nat.le_trans h.size h'.size, fun s hs => ?_, h'.closed⟩
  · obtain ⟨symbols, journal, rfl⟩ := h.rest
    obtain ⟨symbols', journal', rfl⟩ := h'.rest
    exact ⟨symbols', journal', rfl⟩
  · rw [h'.old s (Nat.lt_of_lt_of_le hs h.size), h.old s hs]

theorem known (h : w.Mentions w') : w'.model.known = w.model.known := by
  obtain ⟨symbols, journal, rfl⟩ := h.rest
  rfl

theorem same (h : w.Mentions w') (hs : w.model.Same s t) : w'.model.Same s t := by
  refine hs.imp_right fun ⟨hs, ht, hslt, htlt, heq⟩ => ⟨h.known.symm ▸ hs, h.known.symm ▸ ht,
    Nat.lt_of_lt_of_le hslt h.size, Nat.lt_of_lt_of_le htlt h.size, ?_⟩
  rw [h.old s hslt, h.old t htlt, heq]

theorem nameable (h : w.Mentions w') {i : Item} (hi : w.model.Nameable i) :
    w'.model.Nameable i := by
  cases i with
  | choice c => exact hi
  | symbol s =>
    obtain ⟨hlt, hname⟩ := hi
    refine ⟨Nat.lt_of_lt_of_le hlt h.size, ?_⟩
    rw [h.old s hlt]
    exact hname

theorem itemText (h : w.Mentions w') {i : Item} (hi : w.model.Nameable i) :
    w'.model.itemText i = w.model.itemText i := by
  cases i with
  | choice c => exact hi.elim
  | symbol s => simp only [Model.itemText, h.old s hi.1]

end Workspace.Mentions

namespace Reading
variable {w : Workspace} {s : SymbolId} {name : String} {isConstant : Bool}

/-- A symbol was found by its name, or mentioned for the first time. -/
def Gives (w : Workspace) (s t : SymbolId) (w' : Workspace) : Prop :=
  w.Mentions w' ∧ w'.model.Same s t ∧ (s < w.model.known → w' = w)

/-- A name that is not known is mentioned; what else is told in the journal does not matter. -/
theorem gives_new (hw : w.Closed) (hs : s < w.model.symbols.size)
    (hsymbol : w.model.find? (w.model.symbol s).name (w.model.symbol s).isConstant = none)
    (journal : Journal) :
    Gives w s w.model.symbols.size { w with
      model := w.model.mention (w.model.symbol s).name (w.model.symbol s).isConstant, journal } := by
  have hknown : w.model.known ≤ s := by
    refine Nat.le_of_not_lt fun hlt => ?_
    rw [hw.indexed.find?_eq hlt] at hsymbol
    exact nomatch hsymbol
  have hsize := w.model.size_mention (w.model.symbol s).name (w.model.symbol s).isConstant
  have hindexed := hw.indexed.mention hsymbol (hw.indexed.proper s hs)
  refine ⟨⟨⟨_, _, rfl⟩, ?_, fun t ht => ?_, hw.isOpen, hindexed⟩, .inr ⟨hknown, ?_, ?_, ?_, ?_⟩,
    fun hlt => absurd hlt (Nat.not_lt_of_le hknown)⟩
  · exact hsize ▸ Nat.le_succ _
  · exact (Model.symbol_mention ..).trans (if_neg (Nat.ne_of_lt ht))
  · exact hw.indexed.known_le
  · exact hsize ▸ Nat.lt_succ_of_lt hs
  · exact hsize ▸ Nat.lt_succ_self _
  · obtain ⟨name, isConstant, heq, -⟩ := hw.indexed.mentioned s hknown hs
    show (w.model.mention _ _).symbol s = (w.model.mention _ _).symbol _
    rw [Model.symbol_mention, Model.symbol_mention, if_neg (Nat.ne_of_lt hs), if_pos rfl, heq]

/-- A symbol that is found is the one that the name is of. -/
theorem gives_found (hw : w.Closed) {t : SymbolId} (hs : s < w.model.symbols.size)
    (hfind : w.model.find? (w.model.symbol s).name (w.model.symbol s).isConstant = some t) :
    Gives w s t w := by
  refine ⟨.refl hw, .inl ?_, fun _ => rfl⟩
  by_cases hknown : s < w.model.known
  · rw [hw.indexed.find?_eq hknown] at hfind
    exact Option.some.inj hfind
  · obtain ⟨name, isConstant, heq, hnone⟩ := hw.indexed.mentioned s (Nat.le_of_not_lt hknown) hs
    rw [heq, hnone] at hfind
    exact nomatch hfind

theorem addSymbol_mentions (hw : w.isOpen = false) (name : String) (isConstant : Bool) :
    addSymbol name isConstant w =
      .ok w.model.symbols.size { w with model := w.model.mention name isConstant } := by
  show EStateM.Result.ok w.model.symbols.size { w with model :=
    { w.model with
      symbols := w.model.symbols.push { name, isConstant }
      known := if w.isOpen then w.model.known + 1 else w.model.known } } = _
  rw [if_neg (by simp [hw])]
  rfl

/-- What is done with the state that is looked at. -/
theorem get_apply {α : Type} (next : Workspace → Reading α) (w : Workspace) :
    (get >>= next) w = next w w := rfl

/-- The name of a symbol that is no constant, as a word. -/
theorem word_gives (hw : w.Closed) (hs : s < w.model.symbols.size)
    (hconst : (w.model.symbol s).isConstant = false) :
    ∃ t w', word (w.model.symbol s).name w = .ok t w' ∧ Gives w s t w' := by
  obtain ⟨hno, hyes⟩ := hw.indexed.proper s hs hconst
  unfold word symbol
  rw [if_neg hno, if_neg hyes, get_apply]
  cases hfind : w.model.find? (w.model.symbol s).name false with
  | some t => exact ⟨t, w, rfl, gives_found hw hs (hconst ▸ hfind)⟩
  | none =>
    let told := w.journal.warn none (.unknownSymbol (w.model.symbol s).name)
    have hgives := gives_new hw hs (hconst ▸ hfind) told
    rw [hconst] at hgives
    refine ⟨_, _, ?_, hgives⟩
    dsimp only
    rw [if_neg (by simp [hw.isOpen])]
    exact addSymbol_mentions (w := { w with journal := told }) hw.isOpen _ _

/-- The name of a constant, as a text. -/
theorem constant_gives (hw : w.Closed) (hs : s < w.model.symbols.size)
    (hconst : (w.model.symbol s).isConstant = true) :
    ∃ t w', constant (w.model.symbol s).name w = .ok t w' ∧ Gives w s t w' := by
  unfold constant
  rw [get_apply]
  cases hfind : w.model.find? (w.model.symbol s).name true with
  | some t => exact ⟨t, w, rfl, gives_found hw hs (hconst ▸ hfind)⟩
  | none =>
    have hgives := gives_new hw hs (hconst ▸ hfind) w.journal
    rw [hconst] at hgives
    exact ⟨_, _, addSymbol_mentions hw.isOpen _ _, hgives⟩

/-- The words `n` and `y` are the constants of these names. -/
theorem level_gives (hw : w.Closed) (hs : s < w.model.symbols.size)
    (hconst : (w.model.symbol s).isConstant = true)
    (hname : (w.model.symbol s).name = "n" ∨ (w.model.symbol s).name = "y") :
    ∃ t, word (w.model.symbol s).name w = .ok t w ∧ Gives w s t w := by
  have hconstant : ∀ t, t < 2 → (w.model.symbol t).name = (w.model.symbol s).name ∧
      (w.model.symbol t).isConstant = true → Gives w s t w := by
    intro t ht ⟨heq, htconst⟩
    refine gives_found hw hs ?_
    rw [← heq, hconst, ← htconst]
    exact hw.indexed.find?_eq (Nat.lt_of_lt_of_le ht hw.indexed.two_le)
  unfold word
  rcases hname with hname | hname
  · refine ⟨noId, ?_, hconstant noId Nat.zero_lt_two (hname ▸ hw.indexed.no)⟩
    rw [if_pos hname]
    rfl
  · refine ⟨yesId, ?_, hconstant yesId Nat.one_lt_two (hname ▸ hw.indexed.yes)⟩
    rw [hname]
    rfl

end Reading

namespace Token
variable {w w' w'' : Workspace} {s rest rest' : List Char} {ts ts' : List Token} {t : Token}

/-! ### Cutting off tokens -/

/-- From a text some tokens are cut off, and reading goes on with the rest. -/
def Cuts (s : List Char) (w : Workspace) (ts : List Token) (rest : List Char) (w' : Workspace) :
    Prop :=
  ∀ fuel previous, s.length < fuel → previous.expectsText = false →
    ∃ fuel' previous', rest.length < fuel' ∧ previous'.expectsText = false ∧
      readRest (.word .ifWord) fuel previous s w = (do
        let more ← readRest (.word .ifWord) fuel' previous' rest
        pure (ts ++ more)) w'

theorem Cuts.trans (h : Cuts s w ts rest w') (h' : Cuts rest w' ts' rest' w'') :
    Cuts s w (ts ++ ts') rest' w'' := by
  intro fuel previous hfuel hprevious
  obtain ⟨fuel₁, previous₁, hfuel₁, hprevious₁, heq⟩ := h fuel previous hfuel hprevious
  obtain ⟨fuel₂, previous₂, hfuel₂, hprevious₂, heq'⟩ := h' fuel₁ previous₁ hfuel₁ hprevious₁
  refine ⟨fuel₂, previous₂, hfuel₂, hprevious₂, ?_⟩
  rw [heq, bind_apply, heq', bind_apply, bind_apply]
  cases readRest (.word .ifWord) fuel₂ previous₂ rest' w'' with
  | error e w₃ => rfl
  | ok more w₃ =>
    show EStateM.Result.ok (ts ++ (ts' ++ more)) w₃ = .ok (ts ++ ts' ++ more) w₃
    rw [List.append_assoc]

/-- All tokens of a text are those that are cut off until nothing is left. -/
theorem Cuts.readRest (h : Cuts s w ts [] w') {fuel : Nat} (hfuel : s.length < fuel) :
    Token.readRest (.word .ifWord) fuel (.word .ifWord) s w = .ok ts w' := by
  obtain ⟨fuel', previous', hfuel', -, heq⟩ := h fuel (.word .ifWord) hfuel rfl
  obtain ⟨n, rfl⟩ := Nat.exists_eq_succ_of_ne_zero (Nat.ne_of_gt hfuel')
  rw [heq]
  show EStateM.Result.ok (ts ++ []) w' = _
  rw [List.append_nil]

/-- A word is a token on its own. -/
theorem cuts_word {n : List Char} (hn : n ≠ []) (hchars : ∀ c ∈ n, Macro.isNameChar c = true)
    (hrest : ∀ c, rest.head? = some c → Macro.isNameChar c = false)
    (ht : t.expectsText = false) (hread : ∀ previous, previous.expectsText = false →
      readWord previous n (n ++ rest) w = .ok (t, rest') w')
    (hless : rest'.length ≤ rest.length) : Cuts (n ++ rest) w [t] rest' w' := by
  obtain ⟨c, n, rfl⟩ := List.exists_cons_of_ne_nil hn
  rintro (_ | fuel) previous hfuel hprevious
  · exact absurd hfuel (Nat.not_lt_zero _)
  · obtain ⟨hword, -⟩ := takeWhile_until hchars hrest
    rw [List.length_append, List.length_cons] at hfuel
    refine ⟨fuel, t, by omega, ht, ?_⟩
    have hhash : c ≠ '#' := ne_of_isNameChar (hchars c (List.mem_cons_self ..)) rfl
    rw [List.cons_append] at hword hread ⊢
    rw [Token.readRest]
    dsimp only
    rw [hword, if_neg hhash, List.isEmpty_cons, if_neg Bool.false_ne_true, bind_apply,
      hread previous hprevious]
    rfl

/-- So is a quoted text or a sign. -/
theorem cuts_other {c : Char} (hname : Macro.isNameChar c = false) (hhash : c ≠ '#')
    (ht : t.expectsText = false) (hread : ∀ previous, previous.expectsText = false →
      readOther (.word .ifWord) previous c s w = .ok (t, rest) w')
    (hless : rest.length ≤ s.length) : Cuts (c :: s) w [t] rest w' := by
  rintro (_ | fuel) previous hfuel hprevious
  · exact absurd hfuel (Nat.not_lt_zero _)
  · rw [List.length_cons] at hfuel
    refine ⟨fuel, t, by omega, ht, ?_⟩
    rw [Token.readRest, List.takeWhile_cons_of_neg (by simp [hname])]
    dsimp only
    rw [if_neg hhash, List.isEmpty_nil, if_pos rfl, bind_apply, hread previous hprevious]
    rfl

theorem cuts_sign (h : operator? s = some (t, rest)) : Cuts s w [t] (trimLeft rest) w := by
  obtain ⟨a, c, hs, hchars, -⟩ := starts_sign h
  have hlength : (trimLeft rest).length ≤ rest.length := (List.dropWhile_sublist _).length_le
  have hless : rest.length < s.length := by
    rw [hs, List.length_append, List.length_cons]
    omega
  obtain ⟨d, r, rfl⟩ : ∃ d r, s = d :: r := by
    cases a <;> exact ⟨_, _, hs⟩
  have hd : isSignChar d = true := by
    cases a with
    | nil => exact (List.cons.inj hs).1 ▸ hchars c (List.mem_cons_self ..)
    | cons e a => exact (List.cons.inj hs).1 ▸ hchars e (List.mem_cons_self ..)
  obtain ⟨-, hname, hhash, hdouble, hsingle⟩ := of_isSignChar hd
  refine cuts_other hname hhash ?_ (fun previous _ => ?_)
    (Nat.le_trans hlength (Nat.le_of_lt_succ hless))
  · cases t with
    | word k => exact absurd rfl ((ne_of_operator h).1 k)
    | _ => rfl
  · unfold readOther
    rw [if_neg (by simp [hdouble, hsingle]), h]
    rfl

/-! ### Operands -/

/-- What may stand after an operand: nothing, a parenthesis, or a blank. -/
structure Follows (rest : List Char) : Prop where
  head : ∀ c, rest.head? = some c → c = ')' ∨ c = ' '
  blanks : rest.dropWhile asciiBlank = trimLeft rest

theorem Follows.not_name (h : Follows rest) (c : Char) (hc : rest.head? = some c) :
    Macro.isNameChar c = false := by
  rcases h.head c hc with rfl | rfl <;> rfl

/-- A word that names a symbol, which may be mentioned for the first time. -/
theorem cuts_name {name : String} {i : SymbolId} (hname : IsName name)
    (hword : Reading.word name w = .ok i w') (hrest : Follows rest) :
    Cuts (name.toList ++ rest) w [.symbol i] (trimLeft rest) w' := by
  have hn : name.toList ≠ [] := fun hnil => hname.nonempty (String.toList_inj.mp hnil)
  refine cuts_word hn (fun c hc => (hname.chars c hc).1) hrest.not_name rfl
    (fun previous hprevious => ?_) (List.dropWhile_sublist _).length_le
  have hdollar : name.toList.contains '$' = false := by
    rw [List.contains_eq_mem, decide_eq_false_iff_not]
    exact fun hmem => (hname.chars _ hmem).2 rfl
  unfold readWord
  rw [String.ofList_toList, List.drop_left, hrest.blanks]
  dsimp only
  rw [hname.noKeyword, hprevious, hdollar]
  show (Reading.word name >>= fun j => pure (Token.symbol j, trimLeft rest)) w = _
  rw [bind_apply, hword]
  rfl

/-- Up to its quote an escaped text is read as the text itself. -/
theorem readQuoted_escape (rest : List Char) : ∀ {b : List Char}, '$' ∉ b →
    Macro.readQuoted '"' (escape b ++ '"' :: rest) = (b.map .char, some rest) := by
  intro b hb
  induction b with
  | nil =>
    rw [escape, List.nil_append, Macro.readQuoted] <;> simp
  | cons c b ih =>
    obtain ⟨hc, hb⟩ := not_or.mp (mt List.mem_cons.mpr hb)
    rw [escape]
    split
    · rw [List.cons_append, List.cons_append, Macro.readQuoted, ih hb]
      simp
    · next hplain =>
      obtain ⟨hquote, hslash⟩ := not_or.mp hplain
      rw [List.cons_append, Macro.readQuoted, if_neg hquote, ih hb]
      · rfl
      · exact fun _ hdollar _ => hc hdollar.symm
      · exact fun hc' _ => hslash hc'
      · exact fun _ _ hc' _ => hslash hc'

/-- A constant in quotes, which may be mentioned for the first time. -/
theorem cuts_quoted {name : String} {i : SymbolId} (hdollar : '$' ∉ name.toList)
    (hconstant : Reading.constant name w = .ok i w') :
    Cuts ('"' :: (escape name.toList ++ '"' :: rest)) w [.symbol i] (trimLeft rest) w' := by
  have hquoted : readQuoted '"' (escape name.toList ++ '"' :: rest) w = .ok (name, rest) w := by
    have hstring : Macro.readString '"' (escape name.toList ++ '"' :: rest) w =
        .ok (name.toList, rest) w := by
      unfold Macro.readString
      rw [readQuoted_escape rest hdollar]
      dsimp only
      rw [bind_apply, expand_chars]
      rfl
    rw [readQuoted_eq (.inl rfl), bind_apply, hstring]
    dsimp only
    rw [bind_apply, expandEnv_eq_self hdollar]
    show EStateM.Result.ok (String.ofList name.toList, rest) w = _
    rw [String.ofList_toList]
  have hlength : (trimLeft rest).length ≤ rest.length := (List.dropWhile_sublist _).length_le
  refine cuts_other rfl (by decide) rfl (fun previous hprevious => ?_) ?_
  · unfold readOther
    rw [if_pos (.inl rfl), bind_apply, hquoted]
    dsimp only
    rw [hprevious]
    show (Reading.constant name >>= fun j => pure (Token.symbol j, trimLeft rest)) w = _
    rw [bind_apply, hconstant]
    rfl
  · rw [List.length_append, List.length_cons]
    omega

/-! ### Operators -/

/-- The tokens are cut off where the text stands, whatever follows. -/
def Prints (text : List Char) (w : Workspace) (ts : List Token) (w' : Workspace) : Prop :=
  ∀ rest, Follows rest → Cuts (text ++ rest) w ts (trimLeft rest) w'

/-- The text starts with no blank. -/
def Flush (text : List Char) : Prop := ∃ c more, text = c :: more ∧ isBlank c = false

theorem Flush.append (h : Flush s) (more : List Char) : Flush (s ++ more) := by
  obtain ⟨c, s, rfl, hc⟩ := h
  exact ⟨c, s ++ more, rfl, hc⟩

theorem Flush.trimLeft (h : Flush s) : trimLeft s = s := by
  obtain ⟨c, s, rfl, hc⟩ := h
  exact List.dropWhile_cons_of_neg (by simp [hc])

/-- A blank before something else is cut off as any blank is. -/
theorem Flush.follows (h : Flush s) : Follows (' ' :: s) := by
  obtain ⟨c, s, rfl, hc⟩ := h
  have hascii : asciiBlank c = false := by
    refine Bool.eq_false_iff.mpr fun hascii => ?_
    rw [isBlank_of_asciiBlank hascii] at hc
    exact nomatch hc
  refine ⟨fun d hd => .inr (Option.some.inj hd).symm, ?_⟩
  rw [Text.trimLeft, List.dropWhile_cons_of_pos rfl, List.dropWhile_cons_of_neg (by simp [hascii]),
    List.dropWhile_cons_of_pos rfl, List.dropWhile_cons_of_neg (by simp [hc])]

theorem follows_parenthesis (rest : List Char) : Follows (')' :: rest) :=
  ⟨fun _ hd => .inl (Option.some.inj hd).symm, rfl⟩

theorem follows_nil : Follows [] := ⟨nofun, rfl⟩

/-- Operators stand between blanks. -/
def IsInfix : Token → Prop
  | .relation _ | .and | .or => True
  | _ => False

theorem operator?_of_isInfix (h : IsInfix t) (s : List Char) :
    operator? (t.spelling ++ ' ' :: s) = some (t, ' ' :: s) := by
  cases t with
  | relation r => cases r <;> rfl
  | and => rfl
  | or => rfl
  | _ => exact h.elim

/-- Two operands with an operator between them. -/
theorem Prints.joined {a b : List Char} (ha : Prints a w ts w') (ht : IsInfix t)
    (hb : Prints b w' ts' w'') (hflush : Flush b) :
    Prints (a ++ (' ' :: (t.spelling ++ ' ' :: b))) w (ts ++ t :: ts') w'' := by
  intro rest hrest
  have hsign := cuts_sign (w := w') (operator?_of_isInfix ht (b ++ rest))
  have hspelling : Flush (t.spelling ++ ' ' :: (b ++ rest)) := by
    cases t with
    | relation r => cases r <;> exact ⟨_, _, rfl, rfl⟩
    | and => exact ⟨_, _, rfl, rfl⟩
    | or => exact ⟨_, _, rfl, rfl⟩
    | _ => exact ht.elim
  have hfirst := ha (' ' :: (t.spelling ++ ' ' :: (b ++ rest))) hspelling.follows
  rw [Text.trimLeft, List.dropWhile_cons_of_pos rfl] at hfirst hsign
  rw [← Text.trimLeft, hspelling.trimLeft] at hfirst
  rw [← Text.trimLeft, (hflush.append rest).trimLeft] at hsign
  have hall := hfirst.trans (hsign.trans (hb rest hrest))
  simpa using hall

/-- An operand in parentheses, where they are needed. -/
theorem Prints.enclosed {text : String} (h : Prints text.toList w ts w')
    (hflush : Flush text.toList) (needed : Bool) :
    Prints (Expr.enclosed needed text).toList w (inParens needed ts) w' := by
  cases needed with
  | false => exact h
  | true =>
    intro rest hrest
    have hopening := cuts_sign (w := w) (s := '(' :: (text.toList ++ ')' :: rest)) rfl
    have hclosing := cuts_sign (w := w') (s := ')' :: rest) rfl
    have hinner := h (')' :: rest) (follows_parenthesis rest)
    rw [(hflush.append _).trimLeft] at hopening
    rw [show trimLeft (')' :: rest) = ')' :: rest from rfl] at hinner
    have hall := hopening.trans (hinner.trans hclosing)
    simpa [Expr.enclosed, inParens] using hall

end Token

/-! ### Expressions -/

/-- Two expressions of one shape, whose symbols correspond to each other. -/
inductive Expr.Alike (R : SymbolId → SymbolId → Prop) : Expr → Expr → Prop
  | symbol {s t : SymbolId} (h : R s t) : Alike R (.symbol s) (.symbol t)
  | compare {s t s' t' : SymbolId} (r : Relation) (h : R s t) (h' : R s' t') :
      Alike R (.compare r (.symbol s) (.symbol s')) (.compare r (.symbol t) (.symbol t'))
  | not {e e' : Expr} (h : Alike R e e') : Alike R (.not e) (.not e')
  | and {a a' b b' : Expr} (ha : Alike R a a') (hb : Alike R b b') :
      Alike R (.and a b) (.and a' b')
  | or {a a' b b' : Expr} (ha : Alike R a a') (hb : Alike R b b') : Alike R (.or a b) (.or a' b')

namespace Expr.Alike
variable {R R' : SymbolId → SymbolId → Prop} {e e' : Expr}

theorem mono (h : e.Alike R e') (hR : ∀ s t, R s t → R' s t) : e.Alike R' e' := by
  induction h with
  | symbol h => exact .symbol (hR _ _ h)
  | compare r h h' => exact .compare r (hR _ _ h) (hR _ _ h')
  | not _ ih => exact .not ih
  | and _ _ iha ihb => exact .and iha ihb
  | or _ _ iha ihb => exact .or iha ihb

theorem isItem (h : e.Alike R e') : e'.isItem = e.isItem := by
  cases h <;> rfl

theorem isAnd (h : e.Alike R e') : e'.isAnd = e.isAnd := by
  cases h <;> rfl

theorem isOr (h : e.Alike R e') : e'.isOr = e.isOr := by
  cases h <;> rfl

theorem overSymbols (h : e.Alike R e') : e'.OverSymbols := by
  induction h with
  | symbol h => exact fun i hi => ⟨_, List.mem_singleton.mp hi⟩
  | compare r h h' =>
    intro i hi
    rcases List.mem_cons.mp hi with rfl | hi
    · exact ⟨_, rfl⟩
    · exact ⟨_, List.mem_singleton.mp hi⟩
  | not _ ih => exact ih
  | and _ _ iha ihb => exact fun i hi => (List.mem_append.mp hi).elim (iha i) (ihb i)
  | or _ _ iha ihb => exact fun i hi => (List.mem_append.mp hi).elim (iha i) (ihb i)

end Expr.Alike

namespace Reading
variable {w w' w'' : Workspace} {e e' : Expr}

/-- What is read stands for the expression; when all of its symbols are known, none is mentioned. -/
structure Rereads (w : Workspace) (e e' : Expr) (w' : Workspace) : Prop where
  mentions : w.Mentions w'
  alike : e.Alike w'.model.Same e'
  known : (∀ s, .symbol s ∈ e.items → s < w.model.known) → w' = w

theorem isName_level {name : String} (h : name = "n" ∨ name = "y") : IsName name := by
  rcases h with rfl | rfl <;> decide

/-- The text of a symbol is read as one token. -/
theorem prints_symbol (hw : w.Closed) {s : SymbolId} (hs : w.model.Nameable (.symbol s)) :
    ∃ t w', Token.Prints (w.model.itemText (.symbol s)).toList w [.symbol t] w' ∧
      Gives w s t w' := by
  obtain ⟨hlt, hname⟩ := hs
  cases hconst : (w.model.symbol s).isConstant with
  | false =>
    obtain ⟨t, w', hword, hgives⟩ := word_gives hw hlt hconst
    rw [hconst] at hname
    rw [Model.itemText_bare (.inl hconst)]
    exact ⟨t, w', fun rest hrest => Token.cuts_name hname hword hrest, hgives⟩
  | true =>
    rw [hconst] at hname
    by_cases hlevel : (w.model.symbol s).name = "n" ∨ (w.model.symbol s).name = "y"
    · obtain ⟨t, hword, hgives⟩ := level_gives hw hlt hconst hlevel
      rw [Model.itemText_bare (.inr hlevel)]
      exact ⟨t, w, fun rest hrest => Token.cuts_name (isName_level hlevel) hword hrest, hgives⟩
    · obtain ⟨t, w', hconstant, hgives⟩ := constant_gives hw hlt hconst
      obtain ⟨hno, hyes⟩ := not_or.mp hlevel
      refine ⟨t, w', fun rest _ => ?_, hgives⟩
      rw [Model.itemText_quoted hconst hno hyes, List.cons_append, List.append_assoc]
      exact Token.cuts_quoted hname hconstant

/-- The text of an item starts with neither a blank nor a sign. -/
theorem head_itemText {i : Item} {m : Model} (hi : m.Nameable i) :
    ∃ c more, (m.itemText i).toList = c :: more ∧ isBlank c = false ∧ c ≠ '=' := by
  have hword : ∀ {name : String}, IsName name →
      ∃ c more, name.toList = c :: more ∧ isBlank c = false ∧ c ≠ '=' := by
    intro name h
    obtain ⟨c, n, hn⟩ := List.exists_cons_of_ne_nil fun hnil =>
      h.nonempty (String.toList_inj.mp hnil)
    have hc := (h.chars c (hn ▸ List.mem_cons_self ..)).1
    exact ⟨c, n, hn, isBlank_of_isNameChar hc, ne_of_isNameChar hc rfl⟩
  cases i with
  | choice c => exact hi.elim
  | symbol s =>
    obtain ⟨-, hname⟩ := hi
    cases hconst : (m.symbol s).isConstant with
    | false =>
      rw [hconst] at hname
      rw [Model.itemText_bare (.inl hconst)]
      exact hword hname
    | true =>
      by_cases hlevel : (m.symbol s).name = "n" ∨ (m.symbol s).name = "y"
      · rw [Model.itemText_bare (.inr hlevel)]
        exact hword (isName_level hlevel)
      · obtain ⟨hno, hyes⟩ := not_or.mp hlevel
        exact ⟨_, _, Model.itemText_quoted hconst hno hyes, rfl, by decide⟩

theorem flush_itemText {i : Item} {m : Model} (hi : m.Nameable i) :
    Token.Flush (m.itemText i).toList := by
  obtain ⟨c, more, heq, hc, -⟩ := head_itemText hi
  exact ⟨c, more, heq, hc⟩

theorem flush_enclosed {text : String} (h : Token.Flush text.toList) (needed : Bool) :
    Token.Flush (Expr.enclosed needed text).toList := by
  cases needed with
  | false => exact h
  | true => exact ⟨'(', text.toList ++ [')'], by simp [Expr.enclosed], rfl⟩

/-- The text of an expression starts with no blank. -/
theorem flush_render {m : Model} (h : ∀ i ∈ e.items, m.Nameable i) :
    Token.Flush (e.render m.itemText).toList := by
  induction e with
  | item i => exact flush_itemText (h i (List.mem_singleton_self i))
  | compare r i j =>
    simp only [Expr.render, String.toList_append, List.append_assoc]
    exact (flush_itemText (h i (List.mem_cons_self ..))).append _
  | not e _ => exact ⟨'!', _, by rw [Expr.render, String.toList_append]; rfl, rfl⟩
  | and a b iha _ | or a b iha _ =>
    simp only [Expr.render, String.toList_append, List.append_assoc]
    exact (flush_enclosed (iha fun i hi => h i (List.mem_append_left _ hi)) _).append _

/-- Names that are the same for all items of an expression give the same text. -/
theorem render_congr {name name' : Item → String} (h : ∀ i ∈ e.items, name i = name' i) :
    e.render name = e.render name' := by
  induction e with
  | item i => exact h i (List.mem_singleton_self i)
  | compare r i j =>
    rw [Expr.render, h i (List.mem_cons_self ..),
      h j (List.mem_cons_of_mem _ (List.mem_singleton_self j)), Expr.render]
  | not e ih => rw [Expr.render, ih h, Expr.render]
  | and a b iha ihb | or a b iha ihb =>
    rw [Expr.render, iha fun i hi => h i (List.mem_append_left _ hi),
      ihb fun i hi => h i (List.mem_append_right _ hi), Expr.render]

namespace Rereads

theorem symbol {s t : SymbolId} (h : Gives w s t w') : Rereads w (.symbol s) (.symbol t) w' :=
  ⟨h.1, .symbol h.2.1, fun hknown => h.2.2 (hknown s (List.mem_singleton_self _))⟩

/-- What is mentioned later does not change what was read before. -/
theorem pair {a a' b b' : Expr} (ha : Rereads w a a' w') (hb : Rereads w' b b' w'') :
    w.Mentions w'' ∧ a.Alike w''.model.Same a' ∧
      ((∀ s, .symbol s ∈ a.items ++ b.items → s < w.model.known) → w'' = w) := by
  refine ⟨ha.mentions.trans hb.mentions, ha.alike.mono fun _ _ => hb.mentions.same,
    fun hknown => ?_⟩
  obtain rfl := ha.known fun s hs => hknown s (List.mem_append_left _ hs)
  exact hb.known fun s hs => hknown s (List.mem_append_right _ hs)

end Rereads

/-- The text of the expression is read as the tokens of an expression that stands for it. -/
def Readable (w : Workspace) (e : Expr) : Prop :=
  ∃ e' w', Token.Prints (e.render w.model.itemText).toList w e'.tokens w' ∧ Rereads w e e' w'

/-- Two operands, one after the other, each in parentheses where they are needed. -/
theorem prints_operands {a b : Expr} (h : ∀ i ∈ a.items ++ b.items, w.model.Nameable i)
    (ha : Readable w a)
    (hb : ∀ {w₁ : Workspace}, w₁.Closed → (∀ i ∈ b.items, w₁.model.Nameable i) → Readable w₁ b)
    (needed needed' : Bool) {t : Token} (ht : Token.IsInfix t) :
    ∃ a' b' w₁ w₂, Token.Prints ((Expr.enclosed needed (a.render w.model.itemText)).toList ++
        ' ' :: (t.spelling ++ ' ' :: (Expr.enclosed needed' (b.render w.model.itemText)).toList)) w
        (Token.inParens needed a'.tokens ++ t :: Token.inParens needed' b'.tokens) w₂ ∧
      Rereads w a a' w₁ ∧ Rereads w₁ b b' w₂ := by
  have hleft : ∀ i ∈ a.items, w.model.Nameable i := fun i hi => h i (List.mem_append_left _ hi)
  have hright : ∀ i ∈ b.items, w.model.Nameable i := fun i hi => h i (List.mem_append_right _ hi)
  obtain ⟨a', w₁, hprints, ha⟩ := ha
  obtain ⟨b', w₂, hprints', hb⟩ := hb ha.mentions.closed fun i hi =>
    ha.mentions.nameable (hright i hi)
  rw [render_congr fun i hi => ha.mentions.itemText (hright i hi)] at hprints'
  refine ⟨a', b', w₁, w₂, ?_, ha, hb⟩
  exact (hprints.enclosed (flush_render hleft) needed).joined ht
    (hprints'.enclosed (flush_render hright) needed') (flush_enclosed (flush_render hright) needed')

/-- The text of every expression over symbols that can be named can be read. -/
theorem readable (hw : w.Closed) (h : ∀ i ∈ e.items, w.model.Nameable i) : Readable w e := by
  induction e generalizing w with
  | item i =>
    have hi := h i (List.mem_singleton_self i)
    cases i with
    | choice c => exact hi.elim
    | symbol s =>
      obtain ⟨t, w', hprints, hgives⟩ := prints_symbol hw hi
      exact ⟨.symbol t, w', hprints, .symbol hgives⟩
  | compare r i j =>
    have hi := h i (List.mem_cons_self ..)
    have hj := h j (List.mem_cons_of_mem _ (List.mem_singleton_self j))
    cases i with
    | choice c => exact hi.elim
    | symbol s =>
      cases j with
      | choice c => exact hj.elim
      | symbol s' =>
        obtain ⟨t, w₁, hprints, hgives⟩ := prints_symbol hw hi
        obtain ⟨t', w₂, hprints', hgives'⟩ :=
          prints_symbol hgives.1.closed (hgives.1.nameable hj)
        obtain ⟨hmentions, -, hknown⟩ := (Rereads.symbol hgives).pair (Rereads.symbol hgives')
        rw [hgives.1.itemText hj] at hprints'
        refine ⟨.compare r (.symbol t) (.symbol t'), w₂, ?_, hmentions,
          .compare r (hgives'.1.same hgives.2.1) hgives'.2.1, hknown⟩
        have hinfix := hprints.joined (t := .relation r) trivial hprints' (flush_itemText hj)
        simpa [Expr.render, Expr.tokens, Item.tokens, Token.spelling] using hinfix
  | not e ih =>
    obtain ⟨e', w', hprints, hreads⟩ := ih hw h
    refine ⟨.not e', w', fun rest hrest => ?_, hreads.mentions, .not hreads.alike, hreads.known⟩
    have hwhole : Token.Flush (e.render w.model.itemText).toList := flush_render h
    have hflush := flush_enclosed hwhole (!e.isItem)
    have hoperator : Token.operator? ('!' :: ((Expr.enclosed (!e.isItem)
        (e.render w.model.itemText)).toList ++ rest)) = some (.not,
          (Expr.enclosed (!e.isItem) (e.render w.model.itemText)).toList ++ rest) := by
      rw [Token.operator?]
      intro more heq
      cases e with
      | item i =>
        obtain ⟨c, text, htext, -, hne⟩ := head_itemText (h i (List.mem_singleton_self i))
        rw [Expr.render, Expr.isItem, Expr.enclosed, if_neg (by decide), htext] at heq
        exact hne (List.cons.inj heq).1
      | _ => simp [Expr.enclosed, Expr.isItem] at heq
    have hsign := Token.cuts_sign (w := w) hoperator
    rw [(hflush.append rest).trimLeft] at hsign
    have hall := hsign.trans (hprints.enclosed hwhole (!e.isItem) rest hrest)
    simpa [Expr.render, Expr.tokens, hreads.alike.isItem] using hall
  | and a b iha ihb =>
    obtain ⟨a', b', w₁, w₂, hprints, ha, hb⟩ := prints_operands h
      (iha hw fun i hi => h i (List.mem_append_left _ hi)) ihb a.isOr b.isOr (t := .and) trivial
    obtain ⟨hmentions, halike, hknown⟩ := ha.pair hb
    refine ⟨.and a' b', w₂, ?_, hmentions, .and halike hb.alike, hknown⟩
    simpa [Expr.render, Expr.tokens, Token.spelling, ha.alike.isOr, hb.alike.isOr] using hprints
  | or a b iha ihb =>
    obtain ⟨a', b', w₁, w₂, hprints, ha, hb⟩ := prints_operands h
      (iha hw fun i hi => h i (List.mem_append_left _ hi)) ihb a.isAnd b.isAnd (t := .or) trivial
    obtain ⟨hmentions, halike, hknown⟩ := ha.pair hb
    refine ⟨.or a' b', w₂, ?_, hmentions, .or halike hb.alike, hknown⟩
    simpa [Expr.render, Expr.tokens, Token.spelling, ha.alike.isAnd, hb.alike.isAnd] using hprints

/-! ### Whole texts -/

/-- A condition is no remark. -/
theorem beginLine_if (s : List Char) (w : Workspace) : beginLine ('i' :: 'f' :: ' ' :: s) w =
    .ok ⟨⟩ { w with place.spot.text := String.ofList ('i' :: 'f' :: ' ' :: s) } := by
  have htrim : trimLeft ('i' :: 'f' :: ' ' :: s) = 'i' :: 'f' :: ' ' :: s :=
    List.dropWhile_cons_of_neg (by decide)
  have hconfig : after? "config" ('i' :: 'f' :: ' ' :: s) = none := rfl
  have hchoice : after? "choice" ('i' :: 'f' :: ' ' :: s) = none := rfl
  have hnone : allowedByRemark? ('i' :: 'f' :: ' ' :: s) = none := by
    unfold allowedByRemark?
    dsimp only
    rw [htrim, hconfig, hchoice]
    rfl
  unfold beginLine noteRemark
  rw [hnone]
  rfl

end Reading

/-- The workspace at a text of its own. -/
def Workspace.at (w : Workspace) (text : String) : Workspace :=
  { w with place.spot.text := text }

theorem Workspace.Mentions.at {w w' : Workspace} (h : w.Mentions w') (text : String) :
    (w.at text).Mentions (w'.at text) := by
  refine ⟨?_, h.size, h.old, h.closed.isOpen, h.closed.indexed⟩
  obtain ⟨symbols, journal, rfl⟩ := h.rest
  exact ⟨symbols, journal, rfl⟩

namespace Reading
variable {w w' : Workspace} {e e' : Expr}

theorem Rereads.at (h : Rereads w e e' w') (text : String) :
    Rereads (w.at text) e e' (w'.at text) :=
  ⟨h.mentions.at text, h.alike, fun hknown => congrArg (Workspace.at · text) (h.known hknown)⟩

/-- The tokens of a condition that an expression is. -/
theorem readLine_if (hw : w.Closed) (h : ∀ i ∈ e.items, w.model.Nameable i) :
    ∃ e' w', Token.readLine ("if ".toList ++ (w.model.exprText e).toList) w =
        .ok (.word .ifWord :: e'.tokens) w' ∧
      Rereads (w.at (String.ofList ("if ".toList ++ (w.model.exprText e).toList))) e e' w' := by
  have hif : ∀ s : List Char, "if ".toList ++ s = 'i' :: 'f' :: ' ' :: s := fun _ => rfl
  let begun := w.at (String.ofList ('i' :: 'f' :: ' ' :: (w.model.exprText e).toList))
  have hbegun : begun.Closed := ⟨hw.isOpen, hw.indexed⟩
  obtain ⟨e', w', hprints, hreads⟩ := readable hbegun h
  refine ⟨e', w', ?_, hreads⟩
  have hcuts := hprints [] Token.follows_nil
  rw [List.append_nil] at hcuts
  change Token.Cuts (w.model.exprText e).toList begun e'.tokens [] w' at hcuts
  have hflush : Token.Flush (w.model.exprText e).toList := flush_render h
  have hskip : ('i' :: 'f' :: ' ' :: (w.model.exprText e).toList).dropWhile asciiBlank =
      'i' :: 'f' :: ' ' :: (w.model.exprText e).toList := List.dropWhile_cons_of_neg (by decide)
  have hword : ('i' :: 'f' :: ' ' :: (w.model.exprText e).toList).takeWhile Token.isCommandChar =
      ['i', 'f'] := rfl
  have hkeyword : Keyword.find? (String.ofList ['i', 'f']) = some .ifWord := rfl
  have hrest : (('i' :: 'f' :: ' ' :: (w.model.exprText e).toList).drop
      ['i', 'f'].length).dropWhile asciiBlank = (w.model.exprText e).toList := hflush.follows.blanks.trans <|
    (List.dropWhile_cons_of_pos rfl).trans hflush.trimLeft
  have htokens : Token.readRest (.word .ifWord) ((w.model.exprText e).toList.length + 1)
      (.word .ifWord) (w.model.exprText e).toList { w with
        place.spot.text := String.ofList ('i' :: 'f' :: ' ' :: (w.model.exprText e).toList) } =
      .ok e'.tokens w' := hcuts.readRest (Nat.lt_succ_self _)
  rw [hif]
  unfold Token.readLine
  rw [bind_apply, beginLine_if]
  dsimp only
  rw [hskip, hword, if_neg (by simp), hkeyword]
  dsimp only
  rw [hrest, bind_apply, htokens]
  rfl

/-- The text of an expression is read as an expression that stands for it. -/
theorem expression_rereads (hw : w.Closed) (h : ∀ i ∈ e.items, w.model.Nameable i) :
    ∃ e' w', expression (w.model.exprText e) w = .ok e'.regrouped w' ∧
      Rereads (w.at (w.model.exprText e)) e e' w' := by
  obtain ⟨e', w', hline, hreads⟩ := readLine_if hw h
  refine ⟨e', w'.at (w.model.exprText e), ?_, hreads.at _⟩
  unfold expression
  rw [bind_apply, hline]
  dsimp only
  rw [List.drop_one, List.tail_cons, Expr.wholeExpr_tokens hreads.alike.overSymbols]
  rfl

end Reading
end Kconfig
