import Kconfig.Proofs.Reading.Forms
import Kconfig.Proofs.Reading.Grouped
import Kconfig.Proofs.Reading.Tokens
/-!
Expressions mean the same in both notations.

Where the first notation takes an expression from the tokens of a plain text, the text starts with
groups that stand for it: one list for all operands of a chain, which the first notation takes one by
one and nests to the right. The names are registered in the order of the tokens, so the symbols are
the same.
-/
namespace Kconfig
open Grammar Nested

/-- The spelling of a keyword that stands inside a line. -/
def Keyword.spelling? : Keyword → Option String
  | .ifWord => some "if"
  | .on => some "on"
  | .env => some "env"
  | .defconfigList => some "defconfig_list"
  | .allnoconfigY => some "allnoconfig_y"
  | _ => none

theorem Keyword.eq_spelling {name word : String} {k : Keyword} (h : Keyword.find? name = some k)
    (hk : k.spelling? = some word) : name = word := by
  unfold Keyword.find? at h
  split at h
  all_goals cases h
  all_goals cases hk
  all_goals rfl

/-- The text has the tokens, and reading them leads from one workspace to the other. -/
def Shows (first : Token) (s : List Char) (w : Workspace) (ts : List Token) (w' : Workspace) :
    Prop :=
  ∃ previous ls, Lexes ls s ∧ tokensOf first previous ls w = .ok ts w'

namespace Shows
variable {first t : Token} {s rest : List Char} {w w' : Workspace} {ts : List Token}

theorem nil (h : Shows first s w [] w') : Grammar.skip s = [] ∧ w' = w := by
  obtain ⟨previous, ls, hls, htokens⟩ := h
  obtain ⟨rfl, hw⟩ := Token.tokensOf_nil htokens
  exact ⟨hls, hw⟩

theorem cons (h : Shows first s w (t :: ts) w') : ∃ l previous rest w₁,
    l.Starts (skip s) rest ∧ (∃ ls, Lexes (l :: ls) s) ∧ l.token first previous w = .ok t w₁ ∧
      Shows first rest w₁ ts w' := by
  obtain ⟨previous, ls, hls, htokens⟩ := h
  obtain ⟨l, ls, w₁, rfl, htoken, hrest⟩ := Token.tokensOf_cons htokens
  obtain ⟨rest, hl, hrest'⟩ := id hls
  exact ⟨l, previous, rest, w₁, hl, ⟨ls, hls⟩, htoken, t, ls, hrest', hrest⟩

theorem sign (h : Shows first s w (t :: ts) w') (ht : t.spelling ≠ []) :
    ∃ rest, Token.operator? (skip s) = some (t, rest) ∧ Shows first rest w ts w' := by
  obtain ⟨l, previous, rest, w₁, hl, -, htoken, hrest⟩ := h.cons
  obtain ⟨rfl, rfl⟩ := Token.token_sign htoken ht
  exact ⟨rest, hl, hrest⟩

/-- A text whose tokens do not start with a sign does not start with it. -/
theorem no_sign (h : Shows first s w ts w') (ht : ts.head? ≠ some t) :
    Token.operator? (skip s) ≠ some (t, rest) := by
  intro hop
  obtain ⟨previous, ls, hls, htokens⟩ := h
  obtain ⟨ls, rfl, -⟩ := lexes_operator hls hop
  obtain ⟨t', w₁, htoken, hrest⟩ := bind_ok htokens
  obtain ⟨ts', w₂, -, hcons⟩ := bind_ok hrest
  cases htoken
  cases hcons
  exact ht rfl

theorem symbol {i : SymbolId} (h : Shows first s w (.symbol i :: ts) w') :
    ∃ o rest w₁, symbol? s = some (o, rest) ∧ operand o w = .ok i w₁ ∧
      Shows first rest w₁ ts w' := by
  obtain ⟨previous, ls, hls, htokens⟩ := h
  obtain ⟨l, ls, w₁, rfl, htoken, hrest⟩ := Token.tokensOf_cons htokens
  obtain ⟨_, hl, -⟩ := id hls
  rcases Token.token_symbol hl htoken with ⟨n, rfl, ho, hk⟩ | ⟨b, rfl, ho⟩
  · have hif : n ≠ ['i', 'f'] := by
      rintro rfl
      exact nomatch hk
    obtain ⟨rest, hsymbol, hrest'⟩ := symbol?_name hls hif
    exact ⟨_, rest, w₁, hsymbol, ho, _, ls, hrest', hrest⟩
  · obtain ⟨q, rest, hq, hsymbol, hrest'⟩ := symbol?_quoted hls
    exact ⟨_, rest, w₁, hsymbol, ho q hq, _, ls, hrest', hrest⟩

/-- A keyword of one spelling is scanned as such. -/
theorem keyword {k : Keyword} {word : String} (h : Shows first s w (.word k :: ts) w')
    (hk : k.spelling? = some word) :
    ∃ rest, keyword? word s = some rest ∧ Shows first rest w ts w' := by
  obtain ⟨previous, ls, hls, htokens⟩ := h
  obtain ⟨l, ls, w₁, rfl, htoken, hrest⟩ := Token.tokensOf_cons htokens
  obtain ⟨_, hl, -⟩ := id hls
  obtain ⟨n, rfl, hfound, rfl⟩ := Token.token_word hl htoken
  have hword : n = word.toList := by
    rw [← Keyword.eq_spelling hfound hk, String.toList_ofList]
  subst hword
  obtain ⟨rest, hscan, hrest'⟩ := keyword?_name hls
  exact ⟨rest, hscan, _, ls, hrest', hrest⟩

theorem no_relation (h : Shows first s w ts w') (hts : ∀ r, ts.head? ≠ some (.relation r)) :
    relation? s = none :=
  Option.eq_none_iff_forall_ne_some.mpr fun (r, _) hrelation =>
    h.no_sign (hts r) (relation?_eq.mp hrelation)

theorem no_negation (h : Shows first s w ts w') (hts : ts.head? ≠ some .not) :
    negation? s = none :=
  Option.eq_none_iff_forall_ne_some.mpr fun _ hnegation =>
    h.no_sign hts (negation?_eq.mp hnegation)

end Shows

/-! ### Lists of operands -/

namespace Nested
variable {level level' : Level} {s s' rest rest' : List Char} {parts parts' : List Nested}
  {w w' : Workspace} {e : Expr} {i : SymbolId} {o : List Char}

theorem resolveAll_grouped (parts : List Nested) : resolveAll [grouped parts] = resolveAll parts := by
  rw [resolveAll, resolve_grouped]

/-- An operand, a sign and the operands after it. -/
theorem resolveAll_joined (h : Groups level s parts rest) (h' : Groups level' s' parts' rest')
    (sign : Nested) : resolveAll (grouped parts :: sign :: parts') =
      joined sign (parts'.length = 1) (resolveAll parts) (resolveAll parts') := by
  have hodd := odd_of_groups h'
  rw [resolveAll, isText_of_groups h, if_neg nofun, if_neg (by omega), resolve_grouped]

theorem resolveAll_negated (parts : List Nested) :
    resolveAll [.group [.text ['!'], grouped parts]] = .not <$> resolveAll parts := by
  rw [resolveAll, resolve, resolveAll.eq_def, ← resolveAll_grouped parts]
  exact if_pos (by decide)

theorem joined_and (isLast : Bool) (x y : Reading Expr) :
    joined (.text "&&".toList) isLast x y = (do pure (.and (← x) (← y))) := rfl

theorem joined_or (isLast : Bool) (x y : Reading Expr) :
    joined (.text "||".toList) isLast x y = (do pure (.or (← x) (← y))) := rfl

theorem joined_relation (r : Relation) (x y : Reading Expr) :
    joined (.text r.sign.toList) true x y = (do Expr.compared r (← x) (← y)) := by
  cases r <;> rfl

theorem resolveAll_text (h : operand o w = .ok i w') :
    resolveAll [.text o] w = .ok (.symbol i) w' := by
  rw [resolveAll, resolve, map_eq_pure_bind, bind_apply, h]
  rfl

end Nested

/-! ### Expressions -/

/-- A text starts with groups that stand for an expression, and the rest has the tokens left. -/
def Stands (level : Level) (first : Token) (s : List Char) (w : Workspace) (e : Expr)
    (more : List Token) (w' : Workspace) : Prop :=
  ∃ parts rest w₁, Groups level s parts rest ∧ resolveAll parts w = .ok e w₁ ∧
    Shows first rest w₁ more w'

/-- What is taken from tokens stands in their text at a level, unless a relation comes after it:
there the second notation would go on. -/
def Mirrors (take : List Token → Except Problem (Expr × List Token)) (level : Level) : Prop :=
  ∀ {first s w ts w' e more}, Shows first s w ts w' → take ts = .ok (e, more) →
    (∀ r, more.head? ≠ some (.relation r)) → Stands level first s w e more w'

/-- What two steps one after the other gave when both succeeded. -/
theorem except_bind_ok {ε α β : Type} {x : Except ε α} {f : α → Except ε β} {b : β}
    (h : x >>= f = .ok b) : ∃ a, x = .ok a ∧ f a = .ok b := by
  cases x with
  | error e => exact nomatch h
  | ok a => exact ⟨a, rfl, h⟩

section
variable (t : Token) (sign : String) (join : Expr → Expr → Expr) {level : Level}
  {take operands again : List Token → Except Problem (Expr × List Token)}

/-- Operands with a sign between them: what both notations make of `||`, and of `&&`. -/
theorem mirrors_join (hlevel : level.Joins) (hspelling : t.spelling ≠ [])
    (ht : ∀ r, t ≠ .relation r)
    (hlevelSign : ∀ s, level.sign? s = (sign? sign s).map fun s => (sign.toList, s))
    (hsign : ∀ {s rest}, sign? sign s = some rest ↔ Token.operator? (skip s) = some (t, rest))
    (hjoined : ∀ isLast (x y : Reading Expr), joined (.text sign.toList) isLast x y = do
      pure (join (← x) (← y)))
    (htake : ∀ ts, take ts = do
      let (left, more) ← operands ts
      if more.head? = some t then
        let (right, more) ← again more.tail
        pure (join left right, more)
      else pure (left, more))
    (hoperands : Mirrors operands level.below) (hagain : Mirrors again level) :
    Mirrors take level := by
  intro first s w ts w' e more hs h hrelation
  rw [htake] at h
  obtain ⟨⟨left, m⟩, hleft, h⟩ := except_bind_ok h
  dsimp only at h
  split at h
  · next hhead =>
    obtain ⟨m, rfl⟩ := List.head?_eq_some_iff.mp hhead
    obtain ⟨⟨right, m'⟩, hright, h⟩ := except_bind_ok h
    cases h
    obtain ⟨parts, rest, w₁, hparts, hresolve, hrest⟩ := hoperands hs hleft fun r hr =>
      ht r (Option.some.inj hr)
    obtain ⟨rest', hop, hrest'⟩ := hrest.sign hspelling
    obtain ⟨parts', rest'', w₂, hparts', hresolve', hrest''⟩ := hagain hrest' hright hrelation
    refine ⟨grouped parts :: .text sign.toList :: parts', rest'', w₂,
      .more hlevel hparts ?_ hparts', ?_, hrest''⟩
    · rw [hlevelSign, hsign.mpr hop]
      rfl
    · rw [resolveAll_joined hparts hparts', hjoined, bind_apply, hresolve]
      dsimp only
      rw [bind_apply, hresolve']
      rfl
  · next hhead =>
    cases h
    obtain ⟨parts, rest, w₁, hparts, hresolve, hrest⟩ := hoperands hs hleft hrelation
    refine ⟨_, rest, w₁, .last hlevel hparts ?_, ?_, hrest⟩
    · have hnone : sign? sign rest = none := Option.eq_none_iff_forall_ne_some.mpr fun rest' h =>
        hrest.no_sign hhead (hsign.mp h)
      rw [hlevelSign, hnone]
      rfl
    · rw [resolveAll_grouped]
      exact hresolve

end

theorem mirrors_expr {depth : Nat} (hconj : Mirrors (Token.takeConj depth) .conjunction)
    (hexpr : Mirrors (Token.takeExpr depth) .disjunction) :
    Mirrors (Token.takeExpr (depth + 1)) .disjunction := by
  refine mirrors_join .or "||" .or (.inr (.inr rfl)) (by decide) nofun (fun _ => rfl) sign?_or
    joined_or (fun ts => ?_) hconj hexpr
  rw [Token.takeExpr]
  congr
  funext ⟨left, more⟩
  dsimp only
  split
  · rfl
  · next hmore =>
    rw [if_neg fun h => (List.head?_eq_some_iff.mp h).elim hmore]

theorem mirrors_conj {depth : Nat} (hfactor : Mirrors (Token.takeFactor depth) .negation)
    (hconj : Mirrors (Token.takeConj depth) .conjunction) :
    Mirrors (Token.takeConj (depth + 1)) .conjunction := by
  refine mirrors_join .and "&&" .and (.inr (.inl rfl)) (by decide) nofun (fun _ => rfl) sign?_and
    joined_and (fun ts => ?_) hfactor hconj
  rw [Token.takeConj]
  congr
  funext ⟨left, more⟩
  dsimp only
  split
  · rfl
  · next hmore =>
    rw [if_neg fun h => (List.head?_eq_some_iff.mp h).elim hmore]

theorem relation_sign? {s rest : List Char} {r : Relation} (h : relation? s = some (r, rest)) :
    Level.relation.sign? s = some (r.sign.toList, rest) := by
  rw [Level.sign?, h]
  rfl

theorem relation_sign?_none {s : List Char} (h : relation? s = none) :
    Level.relation.sign? s = none := by
  rw [Level.sign?, h]
  rfl

section
variable {first : Token} {s rest : List Char} {w w₁ w' : Workspace} {e : Expr}
  {more : List Token} {parts : List Nested}

theorem stands_plain (hnot : negation? s = none) (hparts : Groups .relation s parts rest)
    (hresolve : resolveAll parts w = .ok e w₁) (hrest : Shows first rest w₁ more w') :
    Stands .negation first s w e more w' :=
  ⟨_, rest, w₁, .plain hnot hparts, (resolveAll_grouped parts).symm ▸ hresolve, hrest⟩

/-- An operand without `!` before and a relation behind it. -/
theorem stands_atom (hnot : negation? s = none) (hparts : Groups .atom s parts rest)
    (hrelation : relation? rest = none) (hresolve : resolveAll parts w = .ok e w₁)
    (hrest : Shows first rest w₁ more w') : Stands .negation first s w e more w' :=
  stands_plain hnot (.last (.inl rfl) hparts (relation_sign?_none hrelation))
    ((resolveAll_grouped parts).symm ▸ hresolve) hrest

end

theorem takeSymbol_ok {p : Problem} {ts more : List Token} {i : SymbolId}
    (h : Token.takeSymbol p ts = .ok (i, more)) : ts = .symbol i :: more := by
  unfold Token.takeSymbol at h
  split at h
  · cases h
    rfl
  · exact nomatch h

theorem mirrors_factor {depth : Nat} (hfactor : Mirrors (Token.takeFactor depth) .negation)
    (hexpr : Mirrors (Token.takeExpr depth) .disjunction) :
    Mirrors (Token.takeFactor (depth + 1)) .negation := by
  intro first s w ts w' e more hs h hrelation
  unfold Token.takeFactor at h
  split at h
  · -- A relation between two symbols.
    next a r ts =>
    obtain ⟨⟨b, m⟩, hb, h⟩ := except_bind_ok h
    cases h
    obtain rfl := takeSymbol_ok hb
    obtain ⟨o, rest, w₁, ho, hoa, hrest⟩ := hs.symbol
    obtain ⟨rest₁, hop, hrest₁⟩ := hrest.sign (by cases r <;> decide)
    obtain ⟨o', rest₂, w₂, ho', hob, hrest₂⟩ := hrest₁.symbol
    have hlast : Groups .relation rest₁ [.text o'] rest₂ := .last (.inl rfl) (.symbol ho')
      (relation_sign?_none (hrest₂.no_relation hrelation))
    have hparts : Groups .relation s [.text o, .text r.sign.toList, .text o'] rest₂ :=
      .more (.inl rfl) (.symbol ho) (relation_sign? (relation?_eq.mpr hop)) hlast
    refine stands_plain (hs.no_negation (by simp)) hparts ?_ hrest₂
    rw [show resolveAll [.text o, .text r.sign.toList, .text o'] = _ from
      resolveAll_joined (.symbol ho) hlast _]
    show joined (.text r.sign.toList) true _ _ w = _
    rw [joined_relation, bind_apply, resolveAll_text hoa]
    dsimp only
    rw [bind_apply, resolveAll_text hob]
    rfl
  · -- A symbol.
    next a ts hnot =>
    cases h
    obtain ⟨o, rest, w₁, ho, hoa, hrest⟩ := hs.symbol
    exact stands_atom (hs.no_negation (by simp)) (.symbol ho) (hrest.no_relation hrelation)
      (resolveAll_text hoa) hrest
  · -- A negation.
    next ts =>
    obtain ⟨⟨e, m⟩, he, h⟩ := except_bind_ok h
    cases h
    obtain ⟨rest, hop, hrest⟩ := hs.sign (by decide)
    obtain ⟨parts, rest', w₁, hparts, hresolve, hrest'⟩ := hfactor hrest he hrelation
    refine ⟨_, rest', w₁, .negated (negation?_eq.mpr hop) hparts, ?_, hrest'⟩
    rw [resolveAll_negated, map_eq_pure_bind, bind_apply, hresolve]
    rfl
  · -- An expression in parentheses.
    next ts =>
    obtain ⟨⟨e, m⟩, he, h⟩ := except_bind_ok h
    dsimp only at h
    split at h
    · cases h
      obtain ⟨rest, hop, hrest⟩ := hs.sign (by decide)
      obtain ⟨parts, rest', w₁, hparts, hresolve, hrest'⟩ := hexpr hrest he nofun
      obtain ⟨rest'', hop', hrest''⟩ := hrest'.sign (by decide)
      have hnone : symbol? s = none := by
        obtain ⟨previous, ls, hls, -⟩ := hs
        obtain ⟨ls, rfl, -⟩ := lexes_operator hls hop
        exact symbol?_sign hls
      exact stands_atom (hs.no_negation (by simp))
        (.parens hnone (sign?_opening.mpr hop) hparts (sign?_closing.mpr hop'))
        (hrest''.no_relation hrelation) ((resolveAll_grouped parts).symm ▸ hresolve) hrest''
    · exact nomatch h
  · exact nomatch h

/-- An expression that is taken from tokens stands in their text. -/
theorem mirrors (depth : Nat) : Mirrors (Token.takeExpr depth) .disjunction ∧
    Mirrors (Token.takeConj depth) .conjunction ∧ Mirrors (Token.takeFactor depth) .negation := by
  induction depth with
  | zero =>
    refine ⟨?_, ?_, ?_⟩ <;>
    · intro first s w ts w' e more hs h
      exact nomatch h
  | succ depth ih =>
    obtain ⟨hexpr, hconj, hfactor⟩ := ih
    exact ⟨mirrors_expr hconj hexpr, mirrors_conj hfactor hconj, mirrors_factor hfactor hexpr⟩

/-! ### Expressions, conditions and ranges of a line -/

section
variable {expression : Infix} {first : Token} {s : List Char} {w w' : Workspace}
  {ts more : List Token} {e : Expr}

theorem expr_ok (hx : expression.Groups) (hs : Shows first s w ts w')
    (h : Token.expr ts = .ok (e, more)) (hmore : ∀ r, more.head? ≠ some (.relation r)) :
    ∃ part rest w₁, Form.listed expression s = some (part, rest) ∧ part.resolve w = .ok e w₁ ∧
      Shows first rest w₁ more w' := by
  obtain ⟨parts, rest, w₁, hparts, hresolve, hrest⟩ := (mirrors _).1 hs h hmore
  refine ⟨.group [grouped parts], rest, w₁, ?_, ?_, hrest⟩
  · show (expression s).bind _ = _
    rw [hx _ _ _ hparts]
    rfl
  · rw [resolve, resolveAll_grouped]
    exact hresolve

theorem takeEnd_ok (h : Token.takeEnd ts = .ok ()) : ts = [] := by
  cases ts with
  | nil => rfl
  | cons t ts => exact nomatch h

theorem wholeExpr_ok (hx : expression.Groups) (hs : Shows first s w ts w')
    (h : Token.wholeExpr ts = .ok e) : ∃ part rest, Form.listed expression s = some (part, rest) ∧
      skip rest = [] ∧ part.resolve w = .ok e w' := by
  obtain ⟨⟨e, more⟩, he, h⟩ := except_bind_ok h
  obtain ⟨_, hend, h⟩ := except_bind_ok h
  cases h
  obtain rfl := takeEnd_ok hend
  obtain ⟨part, rest, w₁, hpart, hresolve, hrest⟩ := expr_ok hx hs he nofun
  obtain ⟨hnil, rfl⟩ := hrest.nil
  exact ⟨part, rest, hpart, hnil, hresolve⟩

theorem condition_ok (hx : expression.Groups) (hs : Shows first s w ts w')
    (h : Token.condition ts = .ok e) : ∃ cond rest,
      optionally (Form.condition expression) s = some (cond, rest) ∧ skip rest = [] ∧
      Statement.conditionPart cond w = .ok e w' := by
  unfold Token.condition at h
  split at h
  · obtain ⟨rest, hkeyword, hrest⟩ := hs.keyword rfl
    obtain ⟨part, rest', hpart, hnil, hresolve⟩ := wholeExpr_ok hx hrest h
    refine ⟨some part, rest', ?_, hnil, hresolve⟩
    exact optionally_of_some ((bind_of_some (keyword_of_some hkeyword)).trans hpart)
  · obtain ⟨_, hend, h⟩ := except_bind_ok h
    cases h
    obtain rfl := takeEnd_ok hend
    obtain ⟨hnil, rfl⟩ := hs.nil
    refine ⟨none, s, optionally_of_none ?_, hnil, rfl⟩
    exact bind_of_none (keyword_of_none (keyword?_nil hnil (by decide)))

/-- A condition follows no relation. -/
theorem head_of_condition (h : Token.condition ts = .ok e) (r : Relation) :
    ts.head? ≠ some (.relation r) := by
  rintro hr
  obtain ⟨ts, rfl⟩ := List.head?_eq_some_iff.mp hr
  exact nomatch h

theorem bounds_ok {b : Bounds} (hs : Shows first s w ts w')
    (h : Token.bounds ts = .ok (b, more)) : ∃ low high rest rest' w₁,
      symbol? s = some (low, rest) ∧ symbol? rest = some (high, rest') ∧
      Statement.boundsPart low high w = .ok b w₁ ∧ Shows first rest' w₁ more w' := by
  obtain ⟨⟨low, m⟩, hlow, h⟩ := except_bind_ok h
  obtain ⟨⟨high, m'⟩, hhigh, h⟩ := except_bind_ok h
  cases h
  obtain rfl := takeSymbol_ok hlow
  obtain rfl := takeSymbol_ok hhigh
  obtain ⟨o, rest, w₁, ho, hoa, hrest⟩ := hs.symbol
  obtain ⟨o', rest', w₂, ho', hob, hrest'⟩ := hrest.symbol
  refine ⟨o, o', rest, rest', w₂, ho, ho', ?_, hrest'⟩
  rw [Statement.boundsPart, bind_apply, hoa]
  dsimp only
  rw [bind_apply, hob]
  rfl

end

end Kconfig
