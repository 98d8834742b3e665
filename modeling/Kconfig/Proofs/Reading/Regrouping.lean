import Kconfig.Reading.TokenLine
import Kconfig.Values.Rule
/-!
Reading the tokens of an expression gives it back, joined to the right.

An expression is written without the parentheses that only say how operands of one operator are
joined, and read with all of them joined to the right. `&&` and `||` are evaluated from left to
right and no further than needed, so how their operands are joined does not matter: the expression
that is read asks the same questions and holds when the other one does.
-/
namespace Kconfig
open Token

/-! ### Tokens of an expression -/

/-- Tokens in parentheses, where they are needed. -/
def Token.inParens (needed : Bool) (ts : List Token) : List Token :=
  if needed then .opening :: (ts ++ [.closing]) else ts

/-- The token of an item; choices have none. -/
def Item.tokens : Item → List Token
  | .symbol s => [.symbol s]
  | .choice _ => []

namespace Expr
variable {a b e z z' : Expr} {ts ts' rest rest' : List Token}

/-- The tokens that an expression is written as. -/
def tokens : Expr → List Token
  | .item i => i.tokens
  | .compare r a b => a.tokens ++ .relation r :: b.tokens
  | .not e => .not :: inParens (!e.isItem) e.tokens
  | .and a b => inParens a.isOr a.tokens ++ .and :: inParens b.isOr b.tokens
  | .or a b => inParens a.isAnd a.tokens ++ .or :: inParens b.isAnd b.tokens

/-- `a && b`, the operands of `a` joined to the right. -/
def andThen : Expr → Expr → Expr
  | .and p q, y => .and p (q.andThen y)
  | e, y => .and e y

/-- `a || b`, the operands of `a` joined to the right. -/
def orElse : Expr → Expr → Expr
  | .or p q, y => .or p (q.orElse y)
  | e, y => .or e y

/-- The expression with the operands of `&&` and `||` joined to the right. -/
def regrouped : Expr → Expr
  | .item i => .item i
  | .compare r a b => .compare r a b
  | .not e => .not e.regrouped
  | .and a b => a.regrouped.andThen b.regrouped
  | .or a b => a.regrouped.orElse b.regrouped

/-- All items of an expression are symbols. -/
def OverSymbols (e : Expr) : Prop := ∀ i ∈ e.items, ∃ s, i = .symbol s

/-! ### Joining to the right -/

theorem isAnd_andThen (a b : Expr) : (a.andThen b).isAnd = true := by
  cases a <;> rfl

theorem isAnd_orElse (a b : Expr) : (a.orElse b).isAnd = false := by
  cases a <;> rfl

theorem isOr_andThen (a b : Expr) : (a.andThen b).isOr = false := by
  cases a <;> rfl

theorem isOr_orElse (a b : Expr) : (a.orElse b).isOr = true := by
  cases a <;> rfl

theorem andThen_of_not (h : a.isAnd = false) (b : Expr) : a.andThen b = .and a b := by
  cases a with
  | and p q => exact nomatch h
  | _ => rfl

theorem orElse_of_not (h : a.isOr = false) (b : Expr) : a.orElse b = .or a b := by
  cases a with
  | or p q => exact nomatch h
  | _ => rfl

theorem andThen_assoc (a b y : Expr) : (a.andThen b).andThen y = a.andThen (b.andThen y) := by
  induction a with
  | and p q _ ihq => rw [andThen, andThen, andThen, ihq]
  | _ => rfl

theorem orElse_assoc (a b y : Expr) : (a.orElse b).orElse y = a.orElse (b.orElse y) := by
  induction a with
  | or p q _ ihq => rw [orElse, orElse, orElse, ihq]
  | _ => rfl

/-- Joining to the right turns no operator into another one. -/
theorem isAnd_regrouped (e : Expr) : e.regrouped.isAnd = e.isAnd := by
  cases e with
  | and a b => exact isAnd_andThen _ _
  | or a b => exact isAnd_orElse _ _
  | _ => rfl

theorem isOr_regrouped (e : Expr) : e.regrouped.isOr = e.isOr := by
  cases e with
  | and a b => exact isOr_andThen _ _
  | or a b => exact isOr_orElse _ _
  | _ => rfl

/-! ### Reading the tokens -/

/-- With fuel for all of the tokens, the expression is what they start with. -/
def Parses (ts : List Token) (e : Expr) (rest : List Token) : Prop :=
  ∀ fuel, 3 * ts.length + 3 ≤ fuel → takeExpr fuel ts = .ok (e, rest)

/-- So is an operand of `||`. -/
def ParsesConj (ts : List Token) (e : Expr) (rest : List Token) : Prop :=
  ∀ fuel, 3 * ts.length + 2 ≤ fuel → takeConj fuel ts = .ok (e, rest)

/-- So is an operand of `&&`. -/
def ParsesFactor (ts : List Token) (e : Expr) (rest : List Token) : Prop :=
  ∀ fuel, 3 * ts.length + 1 ≤ fuel → takeFactor fuel ts = .ok (e, rest)

/-- No relation comes next. -/
def Ends (rest : List Token) : Prop := ∀ r, rest.head? ≠ some (.relation r)

theorem parsesFactor_symbol {s : SymbolId} (h : Ends rest) :
    ParsesFactor (.symbol s :: rest) (.symbol s) rest := by
  rintro (_ | fuel) hfuel
  · omega
  · cases rest with
    | nil => rfl
    | cons t rest =>
      cases t with
      | relation r => exact absurd rfl (h r)
      | _ => rfl

theorem parsesFactor_compare (r : Relation) (s t : SymbolId) (rest : List Token) :
    ParsesFactor (.symbol s :: .relation r :: .symbol t :: rest)
      (.compare r (.symbol s) (.symbol t)) rest := by
  rintro (_ | fuel) hfuel
  · omega
  · rfl

theorem ParsesFactor.not (h : ParsesFactor ts e rest) :
    ParsesFactor (.not :: ts) (.not e) rest := by
  rintro (_ | fuel) hfuel
  · omega
  · rw [List.length_cons] at hfuel
    rw [takeFactor, h fuel (by omega)]
    rfl

theorem Parses.parens (h : Parses ts e (.closing :: rest)) :
    ParsesFactor (.opening :: ts) e rest := by
  rintro (_ | fuel) hfuel
  · omega
  · rw [List.length_cons] at hfuel
    rw [takeFactor, h fuel (by omega)]
    rfl

/-- An operand of `&&` alone. -/
theorem ParsesFactor.conj (h : ParsesFactor ts e rest) (hrest : rest.head? ≠ some .and) :
    ParsesConj ts e rest := by
  rintro (_ | fuel) hfuel
  · omega
  · rw [takeConj, h fuel (by omega)]
    cases rest with
    | nil => rfl
    | cons t rest =>
      cases t with
      | and => exact absurd rfl hrest
      | _ => rfl

theorem ParsesFactor.and (h : ParsesFactor (ts ++ .and :: rest) a (.and :: rest))
    (hb : ParsesConj rest b rest') : ParsesConj (ts ++ .and :: rest) (.and a b) rest' := by
  rintro (_ | fuel) hfuel
  · omega
  · have hless : rest.length + 1 ≤ (ts ++ .and :: rest).length := by simp
    rw [takeConj, h fuel (by omega)]
    show (takeConj fuel rest >>= fun p => pure (Expr.and a p.1, p.2)) = _
    rw [hb fuel (by omega)]
    rfl

/-- An operand of `||` alone. -/
theorem ParsesConj.expr (h : ParsesConj ts e rest) (hrest : rest.head? ≠ some .or) :
    Parses ts e rest := by
  rintro (_ | fuel) hfuel
  · omega
  · rw [takeExpr, h fuel (by omega)]
    cases rest with
    | nil => rfl
    | cons t rest =>
      cases t with
      | or => exact absurd rfl hrest
      | _ => rfl

theorem ParsesConj.or (h : ParsesConj (ts ++ .or :: rest) a (.or :: rest))
    (hb : Parses rest b rest') : Parses (ts ++ .or :: rest) (.or a b) rest' := by
  rintro (_ | fuel) hfuel
  · omega
  · have hless : rest.length + 1 ≤ (ts ++ .or :: rest).length := by simp
    rw [takeExpr, h fuel (by omega)]
    show (takeExpr fuel rest >>= fun p => pure (Expr.or a p.1, p.2)) = _
    rw [hb fuel (by omega)]
    rfl

/-! ### Operands -/

/-- The tokens are those of one operand of `&&`. -/
def AsFactor (ts : List Token) (z : Expr) : Prop :=
  ∀ rest, Ends rest → ParsesFactor (ts ++ rest) z rest

/-- The tokens are those of operands of `&&`, and others may follow. -/
structure AsConj (ts : List Token) (z : Expr) : Prop where
  last : ∀ rest, Ends rest → rest.head? ≠ some .and → ParsesConj (ts ++ rest) z rest
  more : ∀ rest y rest', ParsesConj rest y rest' →
    ParsesConj (ts ++ .and :: rest) (z.andThen y) rest'

/-- The tokens are those of operands of `||`, and others may follow. -/
structure AsDisj (ts : List Token) (z : Expr) : Prop where
  last : ∀ rest, Ends rest → rest.head? ≠ some .and → rest.head? ≠ some .or →
    Parses (ts ++ rest) z rest
  more : ∀ rest y rest', Parses rest y rest' → Parses (ts ++ .or :: rest) (z.orElse y) rest'

theorem AsFactor.conj (h : AsFactor ts z) (hz : z.isAnd = false) : AsConj ts z where
  last rest hends hand := (h rest hends).conj hand
  more rest y rest' hy := by
    rw [andThen_of_not hz]
    exact (h (.and :: rest) (fun _ => nofun)).and hy

theorem AsFactor.disj (h : AsFactor ts z) (hz : z.isOr = false) : AsDisj ts z where
  last rest hends hand hor := ((h rest hends).conj hand).expr hor
  more rest y rest' hy := by
    rw [orElse_of_not hz]
    exact ((h (.or :: rest) (fun _ => nofun)).conj nofun).or hy

theorem AsConj.and (h : AsConj ts z) (h' : AsConj ts' z') :
    AsConj (ts ++ .and :: ts') (z.andThen z') where
  last rest hends hand := by
    rw [List.append_assoc]
    exact h.more _ _ _ (h'.last rest hends hand)
  more rest y rest' hy := by
    rw [List.append_assoc, andThen_assoc]
    exact h.more _ _ _ (h'.more rest y rest' hy)

theorem AsDisj.or (h : AsDisj ts z) (h' : AsDisj ts' z') :
    AsDisj (ts ++ .or :: ts') (z.orElse z') where
  last rest hends hand hor := by
    rw [List.append_assoc]
    exact h.more _ _ _ (h'.last rest hends hand hor)
  more rest y rest' hy := by
    rw [List.append_assoc, orElse_assoc]
    exact h.more _ _ _ (h'.more rest y rest' hy)

/-- How the tokens of an expression can be read: on their own, and as operands. -/
structure Regroups (e : Expr) : Prop where
  whole : ∀ rest, Ends rest → rest.head? ≠ some .and → rest.head? ≠ some .or →
    Parses (e.tokens ++ rest) e.regrouped rest
  factor : e.isAnd = false → e.isOr = false → AsFactor e.tokens e.regrouped
  conj : e.isOr = false → AsConj e.tokens e.regrouped
  disj : e.isAnd = false → AsDisj e.tokens e.regrouped

namespace Regroups

theorem of_factor (hand : e.isAnd = false) (hor : e.isOr = false)
    (h : AsFactor e.tokens e.regrouped) : Regroups e :=
  have hdisj := h.disj ((isOr_regrouped e).trans hor)
  ⟨hdisj.last, fun _ _ => h, fun _ => h.conj ((isAnd_regrouped e).trans hand), fun _ => hdisj⟩

theorem parens (h : Regroups e) : AsFactor (.opening :: (e.tokens ++ [.closing])) e.regrouped := by
  intro rest _
  rw [List.cons_append, List.append_assoc]
  exact (h.whole (.closing :: rest) (fun _ => nofun) nofun nofun).parens

/-- An operand of `&&` is in parentheses if it is one of `||`. -/
theorem conjOperand (h : Regroups e) : AsConj (inParens e.isOr e.tokens) e.regrouped := by
  cases hor : e.isOr with
  | false => exact h.conj hor
  | true =>
    refine h.parens.conj ?_
    rw [isAnd_regrouped]
    cases e with
    | or a b => rfl
    | _ => exact nomatch hor

/-- An operand of `||` is in parentheses if it is one of `&&`. -/
theorem disjOperand (h : Regroups e) : AsDisj (inParens e.isAnd e.tokens) e.regrouped := by
  cases hand : e.isAnd with
  | false => exact h.disj hand
  | true =>
    refine h.parens.disj ?_
    rw [isOr_regrouped]
    cases e with
    | and a b => rfl
    | _ => exact nomatch hand

theorem and (ha : Regroups a) (hb : Regroups b) : Regroups (.and a b) :=
  have hconj : AsConj (Expr.and a b).tokens (Expr.and a b).regrouped :=
    ha.conjOperand.and hb.conjOperand
  ⟨fun rest hends hand hor => (hconj.last rest hends hand).expr hor, nofun, fun _ => hconj, nofun⟩

theorem or (ha : Regroups a) (hb : Regroups b) : Regroups (.or a b) :=
  have hdisj : AsDisj (Expr.or a b).tokens (Expr.or a b).regrouped :=
    ha.disjOperand.or hb.disjOperand
  ⟨hdisj.last, nofun, nofun, fun _ => hdisj⟩

theorem not (h : Regroups e) : Regroups (.not e) := by
  refine of_factor rfl rfl fun rest hends => ?_
  refine ParsesFactor.not ?_
  cases e with
  | item i => exact h.factor rfl rfl rest hends
  | _ => exact h.parens rest hends

end Regroups

/-- The tokens of an expression over symbols can be read. -/
theorem regroups (h : e.OverSymbols) : Regroups e := by
  induction e with
  | item i =>
    obtain ⟨s, rfl⟩ := h i (List.mem_singleton_self i)
    exact .of_factor rfl rfl fun rest hends => parsesFactor_symbol hends
  | compare r i j =>
    obtain ⟨s, rfl⟩ := h i (List.mem_cons_self ..)
    obtain ⟨t, rfl⟩ := h j (List.mem_cons_of_mem _ (List.mem_singleton_self j))
    exact .of_factor rfl rfl fun rest _ => parsesFactor_compare r s t rest
  | not e ih => exact (ih h).not
  | and a b iha ihb =>
    exact (iha fun i hi => h i (List.mem_append_left _ hi)).and
      (ihb fun i hi => h i (List.mem_append_right _ hi))
  | or a b iha ihb =>
    exact (iha fun i hi => h i (List.mem_append_left _ hi)).or
      (ihb fun i hi => h i (List.mem_append_right _ hi))

/-- What is read from the tokens of an expression is the expression, joined to the right. -/
theorem wholeExpr_tokens (h : e.OverSymbols) : wholeExpr e.tokens = .ok e.regrouped := by
  have hparses := (regroups h).whole [] (fun _ => nofun) nofun nofun
  rw [List.append_nil] at hparses
  unfold wholeExpr expr
  rw [hparses _ (Nat.le_refl _)]
  rfl

end Expr

namespace Model
variable (m : Model)

/-! ### Meaning -/

/-- What is asked to join two expressions, as one plan after the other. -/
theorem holds_and (a b : Expr) :
    m.holds (.and a b) = (m.holds a).bind fun l => if l then m.holds b else .done false := rfl

theorem holds_or (a b : Expr) :
    m.holds (.or a b) = (m.holds a).bind fun l => if l then .done true else m.holds b := rfl

theorem holds_andThen (a b : Expr) : m.holds (a.andThen b) = m.holds (.and a b) := by
  induction a with
  | and p q _ ihq =>
    rw [Expr.andThen, holds_and, ihq, holds_and, holds_and, holds_and, Plan.bind_assoc]
    congr 1
    funext l
    cases l <;> rfl
  | _ => rfl

theorem holds_orElse (a b : Expr) : m.holds (a.orElse b) = m.holds (.or a b) := by
  induction a with
  | or p q _ ihq =>
    rw [Expr.orElse, holds_or, ihq, holds_or, holds_or, holds_or, Plan.bind_assoc]
    congr 1
    funext l
    cases l <;> rfl
  | _ => rfl

/-- Joining operands to the right changes no question and no answer. -/
theorem holds_regrouped (e : Expr) : m.holds e.regrouped = m.holds e := by
  induction e with
  | item i => rfl
  | compare r i j => rfl
  | not e ih =>
    show (m.holds e.regrouped >>= fun l => pure !l) = (m.holds e >>= fun l => pure !l)
    rw [ih]
  | and a b iha ihb =>
    rw [Expr.regrouped, holds_andThen, holds_and, holds_and, iha, ihb]
  | or a b iha ihb =>
    rw [Expr.regrouped, holds_orElse, holds_or, holds_or, iha, ihb]

end Model
end Kconfig
