import Kconfig.Proofs.Reading.Agreement
import Kconfig.Proofs.Reading.Phrases
/-!
A plain line is the same statement in both notations.

For every keyword, the parts that the first notation takes from the tokens are ahead of those that
the form of the second one captures. Each kind of part has its lemma here; a keyword only says
which kinds it has.
-/
namespace Kconfig
open Grammar Token Statement
variable {α β : Type} {expression : Infix} {w w' : Workspace} {first : Token} {s rest : List Char}
  {ls : List Lexeme} {ts : List Token}

theorem Naming.comes {y : Reading α} {a : α} (hy : Naming y) (hw : w.isOpen = true)
    (h : y w = .ok a w') : Comes y w a w' := by
  obtain ⟨names, hnames, hsame⟩ := hy w a w' hw h
  refine ⟨names, hnames, fun u b u' hu hb => ?_⟩
  exact ok_unique hb (hsame u hu)

theorem isOpen_of_comes {y : Reading α} {a : α} (h : Comes y w a w') : w'.isOpen = w.isOpen := by
  obtain ⟨names, rfl, -⟩ := h
  rfl

theorem comes_pure (a : α) (w : Workspace) : Comes (pure a) w a w :=
  ⟨[], w.enlarge_nil.symm, fun u b u' _ h => by cases h; exact ⟨rfl, u.enlarge_nil.symm⟩⟩

theorem part_ok {e : Except Problem α} {a : α} (h : part e w = .ok a w') : e = .ok a ∧ w' = w := by
  cases e with
  | ok b =>
    cases h
    exact ⟨rfl, rfl⟩
  | error p => exact nomatch h

theorem wholeText_ok {text : String} (h : wholeText ts = .ok text) : ts = [.text text] := by
  unfold wholeText at h
  split at h
  · obtain ⟨_, hend, h⟩ := except_bind_ok h
    cases h
    rw [takeEnd_ok hend]
  · exact nomatch h

/-! ### Texts -/

/-- The text of a quoted lexeme. -/
theorem text_quoted {previous : Token} {b : List Char} {text : String} {w₁ : Workspace}
    (hw : w.isOpen = true)
    (h : (Lexeme.quoted b).token first previous w = .ok (.text text) w₁) :
    w₁ = w ∧ Comes (textPart b) w text w := by
  obtain ⟨value, henv, ⟨-, htext, rfl⟩ | ⟨i, hsymbol, -⟩⟩ := token_quoted h
  · cases htext
    refine ⟨rfl, (Naming.textPart b).comes hw ?_⟩
    rw [textPart, map_eq_pure_bind, bind_apply, henv]
    rfl
  · exact nomatch hsymbol

/-- The text that a line has after its keyword. -/
theorem ahead_text {previous : Token} {m : Matcher (List Char)} {p : List Char}
    (hw : w.isOpen = true) (hm : ∀ {ls s p rest}, Lexes ls s → m s = some (p, rest) →
      ∃ ls', ls = .quoted p :: ls' ∧ Lexes ls' rest)
    (hls : Lexes ls s) (ht : tokensOf first previous ls w = .ok ts w')
    (h : m s = some (p, rest)) (hend : skip rest = []) :
    Ahead w w' (part (wholeText ts)) (textPart p) := by
  intro v a v' hx
  obtain ⟨htext, rfl⟩ := part_ok hx
  obtain rfl := wholeText_ok htext
  obtain ⟨ls', rfl, hrest⟩ := hm hls h
  obtain rfl := nil_of_skip hrest hend
  obtain ⟨l, ls', w₁, hl, htoken, hnil⟩ := tokensOf_cons ht
  cases hl
  obtain ⟨-, rfl⟩ := tokensOf_nil hnil
  obtain ⟨rfl, hcomes⟩ := text_quoted hw htoken
  exact ⟨rfl, hcomes⟩

/-- Both notations take the same condition, if they come to it with the same names. -/
theorem comes_condition (hx : expression.Groups) {e : Expr} {c : Option Nested}
    (hw : w.isOpen = true) (hs : Shows first s w ts w') (hcond : condition ts = .ok e)
    (hc : optionally (Form.condition expression) s = some (c, rest)) :
    Comes (conditionPart c) w e w' := by
  obtain ⟨c', rest', hc', -, hpart⟩ := condition_ok hx hs hcond
  cases hc.symm.trans hc'
  exact (Naming.conditionPart _).comes hw hpart

/-- A prompt with its condition. -/
theorem ahead_prompt (hx : expression.Groups) {previous : Token}
    {captured : List Char × Option Nested} (hw : w.isOpen = true) (hls : Lexes ls s)
    (ht : tokensOf first previous ls w = .ok ts w')
    (h : Form.prompted expression s = some (captured, rest)) :
    BothAhead w w' (promptPart ts).text (promptPart ts).cond (promptOf captured).text
      (promptOf captured).cond := by
  intro v a v₁ v' b v₂ hx₁ hx₂
  obtain ⟨text, t, htext, h⟩ := bind_some h
  obtain ⟨c, t', hc, h⟩ := bind_some h
  cases h
  obtain ⟨ls', rfl, hrest⟩ := lexes_prompt? hls htext
  unfold promptPart at hx₁ hx₂
  split at hx₁
  · next shown more =>
    cases hx₁
    obtain ⟨hcond, rfl⟩ := part_ok hx₂
    obtain ⟨l, ls', w₁, hl, htoken, htokens⟩ := tokensOf_cons ht
    cases hl
    obtain ⟨rfl, hcomes⟩ := text_quoted hw htoken
    exact ⟨rfl, rfl, _, hcomes, comes_condition hx hw ⟨_, _, hrest, htokens⟩ hcond hc⟩
  · exact nomatch hx₁

/-! ### Names -/

/-- The name of an entry is the symbol of its word, if it is not `n` or `y`. -/
theorem comes_name {p : Problem} {n : List Char} {i : SymbolId} (hw : w.isOpen = true)
    (h : Reading.word (String.ofList n) w = .ok i w') : Comes (namedSymbol p n) w i w' := by
  by_cases hn : n = ['n'] ∨ n = ['y']
  · have hself : w' = w := by
      rcases hn with rfl | rfl <;>
      · cases h
        rfl
    refine ⟨[], hself.trans w.enlarge_nil.symm, fun u b u' _ hb => ?_⟩
    rw [namedSymbol, if_pos hn] at hb
    exact nomatch hb
  · refine (Naming.namedSymbol p n).comes hw ?_
    obtain ⟨hno, hyes⟩ := not_or.mp hn
    rw [Reading.word, if_neg (Text.ofList_ne hno), if_neg (Text.ofList_ne hyes)] at h
    rw [namedSymbol, if_neg hn]
    exact h

theorem variableSymbol_ok' {p : Problem} {i : SymbolId} (h : variableSymbol p ts w = .ok i w') :
    w' = w ∧ ∃ more, ts = .symbol i :: more := by
  unfold variableSymbol at h
  split at h
  · next t more =>
    obtain ⟨_, _, hget, h⟩ := bind_ok h
    cases hget
    split at h
    · exact nomatch h
    · cases h
      exact ⟨rfl, more, rfl⟩
  · exact nomatch h

/-- The symbol of a name, and the tokens after it. -/
theorem symbol_name {n : List Char} {i : SymbolId} {previous : Token} {more : List Token}
    (hw : w.isOpen = true)
    (h : tokensOf first previous (.name n :: ls) w = .ok (.symbol i :: more) w') (p : Problem) :
    ∃ m, Comes (namedSymbol p n) w i m ∧ tokensOf first (.symbol i) ls m = .ok more w' := by
  obtain ⟨l, ls', w₁, hl, htoken, hmore⟩ := tokensOf_cons h
  cases hl
  rcases token_name htoken with ⟨k, -, hword, -⟩ | ⟨-, ⟨-, htext, -⟩ | ⟨j, hsymbol, hword⟩⟩
  · exact nomatch hword
  · exact nomatch htext
  · cases hsymbol
    exact ⟨w₁, comes_name hw hword, hmore⟩

/-- A name that ends its line is a whole lexeme. -/
theorem whole_name {n : List Char} (hls : Lexes ls s) (h : name? s = some (n, rest))
    (hend : skip rest = []) : ls = [.name n] := by
  rcases lexes_name? hls h with ⟨ls', rfl, hrest⟩ | ⟨c, r, rfl, hmark⟩
  · rw [nil_of_skip hrest hend]
  · exact absurd hend (end_of_mark hmark).2

/-- So is a name before a condition. -/
theorem guarded_name {n t : List Char} {c : Option Nested} (hls : Lexes ls s)
    (h : name? s = some (n, t))
    (hc : optionally (Form.condition expression) t = some (c, rest)) (hend : skip rest = []) :
    ∃ ls', ls = .name n :: ls' ∧ Lexes ls' t := by
  rcases lexes_name? hls h with ⟨ls', rfl, hrest⟩ | ⟨d, r, rfl, hmark⟩
  · exact ⟨ls', rfl, hrest⟩
  · obtain ⟨hif, hne⟩ := end_of_mark (r := r) hmark
    rcases optionally_some hc with ⟨cond, -, hcond⟩ | ⟨-, rfl, -⟩
    · rw [Form.condition, bind_of_none (keyword_of_none hif)] at hcond
      exact nomatch hcond
    · exact absurd hend hne

theorem ahead_config {previous : Token} {p p' : Problem} {n : List Char} (hw : w.isOpen = true)
    (hls : Lexes ls s) (ht : tokensOf first previous ls w = .ok ts w')
    (h : name? s = some (n, rest)) (hend : skip rest = []) : Ahead w w' (do
      let i ← variableSymbol p ts
      part (takeEnd (ts.drop 1))
      pure i) (namedSymbol p' n) := by
  intro v a v' hx
  obtain ⟨i, v₁, hsymbol, hx⟩ := bind_ok hx
  obtain ⟨_, v₂, htail, hx⟩ := bind_ok hx
  cases hx
  obtain ⟨rfl, more, rfl⟩ := variableSymbol_ok' hsymbol
  obtain ⟨htake, rfl⟩ := part_ok htail
  obtain rfl := takeEnd_ok htake
  obtain rfl := whole_name hls h hend
  obtain ⟨m, hcomes, hmore⟩ := symbol_name hw ht p'
  obtain ⟨-, rfl⟩ := tokensOf_nil hmore
  exact ⟨rfl, hcomes⟩

/-- A symbol that is selected or implied, with its condition. -/
theorem ahead_target (hx : expression.Groups) {previous : Token} {p p' : Problem}
    {n t : List Char} {c : Option Nested} (hw : w.isOpen = true) (hls : Lexes ls s)
    (ht : tokensOf first previous ls w = .ok ts w') (h : name? s = some (n, t))
    (hc : optionally (Form.condition expression) t = some (c, rest)) (hend : skip rest = []) :
    BothAhead w w' (variableSymbol p ts) (part (condition (ts.drop 1))) (namedSymbol p' n)
      (conditionPart c) := by
  intro v a v₁ v' b v₂ hx₁ hx₂
  obtain ⟨rfl, more, rfl⟩ := variableSymbol_ok' hx₁
  obtain ⟨hcond, rfl⟩ := part_ok hx₂
  obtain ⟨ls', rfl, hrest⟩ := guarded_name hls h hc hend
  obtain ⟨m, hcomes, hmore⟩ := symbol_name hw ht p'
  have hm : m.isOpen = true := (isOpen_of_comes hcomes).trans hw
  exact ⟨rfl, rfl, m, hcomes, comes_condition hx hm ⟨_, _, hrest, hmore⟩ hcond hc⟩

/-! ### Expressions and ranges -/

theorem ahead_expr (hx : expression.Groups) {e : Nested} (hw : w.isOpen = true)
    (hs : Shows first s w ts w') (h : Form.listed expression s = some (e, rest)) :
    Ahead w w' (part (wholeExpr ts)) e.resolve := by
  intro v a v' ha
  obtain ⟨he, rfl⟩ := part_ok ha
  obtain ⟨e', rest', he', -, hresolve⟩ := wholeExpr_ok hx hs he
  cases h.symm.trans he'
  exact ⟨rfl, (Naming.nested e).comes hw hresolve⟩

theorem firstPart_ok {step : Except Problem (α × List Token)} {a : α}
    (h : firstPart step w = .ok a w') : w' = w ∧ ∃ more, step = .ok (a, more) := by
  obtain ⟨hstep, rfl⟩ := part_ok h
  cases step with
  | error p => exact nomatch hstep
  | ok r =>
    cases hstep
    exact ⟨rfl, r.2, rfl⟩

theorem conditionAfter_ok {a : α} {more : List Token} {e : Expr}
    (h : conditionAfter (.ok (a, more)) w = .ok e w') : w' = w ∧ condition more = .ok e := by
  obtain ⟨hcond, rfl⟩ := part_ok h
  exact ⟨rfl, hcond⟩

theorem ahead_default (hx : expression.Groups) {e : Nested} {c : Option Nested} {t : List Char}
    (hw : w.isOpen = true) (hs : Shows first s w ts w')
    (h : Form.listed expression s = some (e, t))
    (hc : optionally (Form.condition expression) t = some (c, rest)) :
    BothAhead w w' (firstPart (expr ts)) (conditionAfter (expr ts)) e.resolve (conditionPart c) := by
  intro v a v₁ v' b v₂ hx₁ hx₂
  obtain ⟨rfl, more, hexpr⟩ := firstPart_ok hx₁
  rw [hexpr] at hx₂
  obtain ⟨rfl, hcond⟩ := conditionAfter_ok hx₂
  obtain ⟨e', t', m, he', hresolve, hrest⟩ := expr_ok hx hs hexpr (head_of_condition hcond)
  cases h.symm.trans he'
  have hcomes := (Naming.nested e).comes hw hresolve
  have hm : m.isOpen = true := (isOpen_of_comes hcomes).trans hw
  exact ⟨rfl, rfl, m, hcomes, comes_condition hx hm hrest hcond hc⟩

theorem ahead_range (hx : expression.Groups) {c : Option Nested} {low high t u : List Char}
    (hw : w.isOpen = true) (hs : Shows first s w ts w') (hlow : symbol? s = some (low, t))
    (hhigh : symbol? t = some (high, u))
    (hc : optionally (Form.condition expression) u = some (c, rest)) :
    BothAhead w w' (firstPart (bounds ts)) (conditionAfter (bounds ts)) (boundsPart low high)
      (conditionPart c) := by
  intro v a v₁ v' b v₂ hx₁ hx₂
  obtain ⟨rfl, more, hbounds⟩ := firstPart_ok hx₁
  rw [hbounds] at hx₂
  obtain ⟨rfl, hcond⟩ := conditionAfter_ok hx₂
  obtain ⟨low', high', t', u', m, hlow', hhigh', hpart, hrest⟩ := bounds_ok hs hbounds
  cases hlow.symm.trans hlow'
  cases hhigh.symm.trans hhigh'
  have hcomes := (Naming.boundsPart low high).comes hw hpart
  have hm : m.isOpen = true := (isOpen_of_comes hcomes).trans hw
  exact ⟨rfl, rfl, m, hcomes, comes_condition hx hm hrest hcond hc⟩

/-! ### Ends -/

theorem ahead_end (hs : Shows first s w ts w') : Ahead w w' (part (takeEnd ts)) (pure ()) := by
  intro v a v' hx
  obtain ⟨hend, rfl⟩ := part_ok hx
  obtain rfl := takeEnd_ok hend
  obtain ⟨-, rfl⟩ := hs.nil
  exact ⟨rfl, comes_pure _ _⟩

/-- The name of a choice is a text, and may be left out. -/
theorem ahead_choice {n : List Char} (hls : Lexes ls s)
    (ht : tokensOf first (.word .choice) ls w = .ok ts w') (h : name? s = some (n, rest))
    (hend : skip rest = []) :
    Ahead w w' (if ts.isEmpty then pure none else some <$> part (wholeText ts))
      (pure (some (String.ofList n))) := by
  intro v a v' hx
  obtain rfl := whole_name hls h hend
  obtain ⟨t, w₁, htoken, hmore⟩ := bind_ok ht
  obtain ⟨more, w₂, hnil, hmore⟩ := bind_ok hmore
  cases hnil
  cases hmore
  rw [if_neg (by simp), map_eq_pure_bind] at hx
  obtain ⟨text, v₁, hpart, hx⟩ := bind_ok hx
  cases hx
  obtain ⟨htext, rfl⟩ := part_ok hpart
  obtain heq := wholeText_ok htext
  cases heq
  rcases token_name htoken with ⟨k, -, hword, -⟩ | ⟨-, ⟨-, htext, hsame⟩ | ⟨j, hsymbol, -⟩⟩
  · exact nomatch hword
  · cases htext
    rw [hsame rfl]
    exact ⟨rfl, comes_pure _ _⟩
  · exact nomatch hsymbol

/-! ### Options -/

/-- Keywords that start differently are not both there. -/
theorem keyword?_unique {word word' : String} {c c' : Char} {r r' rest rest' : List Char}
    (hword : word.toList = c :: r) (hword' : word'.toList = c' :: r') (hne : c ≠ c')
    (h : keyword? word s = some rest) (h' : keyword? word' s = some rest') : False := by
  have heq := (keyword?_some h).1.symm.trans (keyword?_some h').1
  rw [hword, hword'] at heq
  exact hne (List.cons.inj heq).1

/-- What stands in quotes stands in the text. -/
theorem mem_of_quoted {c : Char} {b : List Char} (hc : c ∈ b) :
    ∀ {ls : List Lexeme} {s : List Char}, Lexes ls s → .quoted b ∈ ls → c ∈ s
  | [], _, _, h => absurd h List.not_mem_nil
  | l :: ls, s, ⟨rest, hl, hrest⟩, h => by
    refine (List.dropWhile_sublist Grammar.isGap).subset ?_
    change c ∈ skip s
    rcases List.mem_cons.mp h with rfl | h
    · obtain ⟨q, -, heq, -⟩ := hl
      rw [heq]
      simp [hc]
    · obtain ⟨a, d, heq, -⟩ := hl.text
      rw [heq]
      simp [mem_of_quoted hc hrest h]

/-- No tokens are read after the end. -/
theorem Shows.eq_of_skip (hs : Shows first s w ts w') (h : Grammar.skip s = []) :
    ts = [] ∧ w' = w := by
  obtain ⟨previous, ls, hls, ht⟩ := hs
  obtain rfl := nil_of_skip hls h
  cases ht
  exact ⟨rfl, rfl⟩

/-- The variable that an option names is written without references. -/
theorem env_option {more : List Token} {text : String} {name t u : List Char} (hdollar : '$' ∉ s)
    (hs : Shows (.word .option) s w (.word .env :: .relation .equal :: more) w')
    (htext : wholeText more = .ok text) (henv : keyword? "env" s = some t)
    (hequal : sign? "=" t = some u) (hpath : path? u = some (name, rest)) (hend : skip rest = []) :
    String.ofList name = text ∧ w' = w := by
  obtain ⟨t', henv', hrest⟩ : ∃ t', keyword? "env" s = some t' ∧ Shows _ t' w _ w' :=
    hs.keyword rfl
  cases henv.symm.trans henv'
  obtain ⟨u', hop, hrest'⟩ := hrest.sign (by decide)
  cases hequal.symm.trans (sign?_equal.mpr hop)
  obtain rfl := wholeText_ok htext
  obtain ⟨previous, ls, hls, ht⟩ := hrest'
  obtain ⟨ls', rfl, hrest''⟩ := lexes_path? hls hpath
  obtain rfl := nil_of_skip hrest'' hend
  obtain ⟨l, ls', w₁, hl, htoken, hnil⟩ := tokensOf_cons ht
  cases hl
  obtain ⟨-, rfl⟩ := tokensOf_nil hnil
  have hname : '$' ∉ name := by
    intro hmem
    have h₁ := mem_of_quoted hmem hls (List.mem_singleton_self _)
    have h₂ : '$' ∈ skip t := by simp [eq_spelling hop, h₁]
    have h₃ : '$' ∈ skip s := by
      rw [(keyword?_some henv).1]
      exact List.mem_append_right _ ((List.dropWhile_sublist Grammar.isGap).subset h₂)
    exact hdollar ((List.dropWhile_sublist Grammar.isGap).subset h₃)
  obtain ⟨value, henv', ⟨-, htext, rfl⟩ | ⟨i, hsymbol, -⟩⟩ := token_quoted htoken
  · cases (expandEnv_eq_self hname).symm.trans henv'
    cases htext
    exact ⟨rfl, rfl⟩
  · exact nomatch hsymbol

theorem ahead_env {name t u : List Char} (hdollar : '$' ∉ s)
    (hs : Shows (.word .option) s w ts w') (henv : keyword? "env" s = some t)
    (hequal : sign? "=" t = some u) (hpath : path? u = some (name, rest)) (hend : skip rest = []) :
    Ahead w w' (part (optionPart ts)) (pure (.env (String.ofList name))) := by
  intro v a v' hx
  obtain ⟨hoption, rfl⟩ := part_ok hx
  unfold optionPart at hoption
  split at hoption
  · next more =>
    cases htext : wholeText more with
    | error p =>
      rw [htext] at hoption
      cases hoption
    | ok text =>
      rw [htext] at hoption
      cases hoption
      obtain ⟨rfl, rfl⟩ := env_option hdollar hs htext henv hequal hpath hend
      exact ⟨rfl, comes_pure _ _⟩
  · cases hoption
  · next more =>
    obtain ⟨rest, hkeyword, -⟩ : ∃ rest, keyword? "defconfig_list" s = some rest ∧ _ :=
      hs.keyword rfl
    exact (keyword?_unique rfl rfl (by decide) hkeyword henv).elim
  · next more =>
    obtain ⟨rest, hkeyword, -⟩ : ∃ rest, keyword? "allnoconfig_y" s = some rest ∧ _ :=
      hs.keyword rfl
    exact (keyword?_unique rfl rfl (by decide) hkeyword henv).elim
  · cases hoption

theorem ahead_flag {k : String} (hk : k ∈ ["defconfig_list", "allnoconfig_y"])
    (hs : Shows (.word .option) s w ts w') (hflag : keyword? k s = some rest)
    (hend : skip rest = []) : Ahead w w' (part (optionPart ts))
      (pure (if k = "defconfig_list" then .defconfigList else .allnoconfigY)) := by
  intro v a v' hx
  obtain ⟨hoption, rfl⟩ := part_ok hx
  refine ⟨rfl, ?_⟩
  simp only [List.mem_cons, List.not_mem_nil, or_false] at hk
  unfold optionPart at hoption
  split at hoption
  · next more =>
    obtain ⟨t, henv, -⟩ : ∃ t, keyword? "env" s = some t ∧ _ := hs.keyword rfl
    rcases hk with rfl | rfl <;> exact (keyword?_unique rfl rfl (by decide) hflag henv).elim
  · cases hoption
  · next more =>
    cases hoption
    obtain ⟨t, hkeyword, hrest⟩ : ∃ t, keyword? "defconfig_list" s = some t ∧ Shows _ t w _ w' :=
      hs.keyword rfl
    rcases hk with rfl | rfl
    · cases hflag.symm.trans hkeyword
      rw [(hrest.eq_of_skip hend).2]
      exact comes_pure _ _
    · exact (keyword?_unique rfl rfl (by decide) hflag hkeyword).elim
  · next more =>
    cases hoption
    obtain ⟨t, hkeyword, hrest⟩ : ∃ t, keyword? "allnoconfig_y" s = some t ∧ Shows _ t w _ w' :=
      hs.keyword rfl
    rcases hk with rfl | rfl
    · exact (keyword?_unique rfl rfl (by decide) hflag hkeyword).elim
    · cases hflag.symm.trans hkeyword
      rw [(hrest.eq_of_skip hend).2]
      exact comes_pure _ _
  · cases hoption

/-! ### Keywords and their forms -/

/-- A type with a prompt or without one. -/
theorem isAhead_type (hx : expression.Groups) {t : ValueType} {first previous : Token}
    {captured : Option (List Char × Option Nested)} (hw : w.isOpen = true) (hls : Lexes ls s)
    (ht : tokensOf first previous ls w = .ok ts w')
    (h : optionally (Form.prompted expression) s = some (captured, rest)) (hend : skip rest = []) :
    IsAhead w w' (.type t (if ts.isEmpty then none else some (promptPart ts)))
      (.type t (captured.map promptOf)) := by
  have hs : Shows first s w ts w' := ⟨_, ls, hls, ht⟩
  rcases optionally_some h with ⟨prompt, rfl, hprompt⟩ | ⟨rfl, rfl, -⟩
  · have hts : ts.isEmpty = false := by
      refine List.isEmpty_eq_false_iff.mpr ?_
      rintro rfl
      obtain ⟨text, t, htext, -⟩ := bind_some hprompt
      obtain ⟨ls', rfl, -⟩ := lexes_prompt? hls htext
      obtain ⟨hnil, -⟩ := tokensOf_nil ht
      exact nomatch hnil
    rw [hts]
    exact .promptedType t (ahead_prompt hx hw hls ht hprompt)
  · obtain ⟨rfl, hsame⟩ := hs.eq_of_skip hend
    exact .type t hsame

/-- The name of a choice is a text, and may be left out. -/
theorem isAhead_choice {captured : Option (List Char)} (hls : Lexes ls s)
    (ht : tokensOf (.word .choice) (.word .choice) ls w = .ok ts w')
    (h : optionally name? s = some (captured, rest)) (hend : skip rest = []) :
    IsAhead w w' (.choice (if ts.isEmpty then pure none else some <$> part (wholeText ts)))
      (.choice (pure (captured.map String.ofList))) := by
  rcases optionally_some h with ⟨n, rfl, hn⟩ | ⟨rfl, rfl, -⟩
  · exact .choice (ahead_choice hls ht hn hend)
  · obtain ⟨rfl, rfl⟩ := Shows.eq_of_skip ⟨_, ls, hls, ht⟩ hend
    refine .choice fun v a v' hx => ?_
    cases hx
    exact ⟨rfl, comes_pure _ _⟩

/-- A condition after a keyword that only introduces it. -/
theorem ahead_introduced (hx : expression.Groups) {first : Token} {k : Keyword} {word : String}
    {e : Nested} {t : List Char} {x : Reading Expr} (hw : w.isOpen = true)
    (hs : Shows first s w ts w') (hk : k.spelling? = some word)
    (htakes : ∀ v a v', x v = .ok a v' →
      ∃ more, ts = .word k :: more ∧ part (wholeExpr more) v = .ok a v')
    (hword : keyword? word s = some t) (h : Form.listed expression t = some (e, rest)) :
    Ahead w w' x e.resolve := by
  intro v a v' ha
  obtain ⟨more, rfl, ha⟩ := htakes v a v' ha
  obtain ⟨t', hword', hmore⟩ := hs.keyword hk
  cases hword.symm.trans hword'
  exact ahead_expr hx hw hmore h v a v' ha

/-- Where a keyword and its form meet, the parts of the statements are ahead. -/
theorem isAhead_of_fits (hx : expression.Groups) {word : String} {k : Keyword}
    {captured : Captured} (hk : Keyword.find? word = some k)
    (hfits : Form.Fits expression word s captured rest) (hend : skip rest = []) (hls : Lexes ls s)
    (ht : tokensOf (.word k) (.word k) ls w = .ok ts w') (hdollar : k = .option → '$' ∉ s)
    (hw : w.isOpen = true) : (ofKeyword k ts).IsAhead w w' (ofCaptured captured) := by
  have hs : Shows (.word k) s w ts w' := ⟨_, ls, hls, ht⟩
  cases hfits with
  | config hword hname =>
    simp only [List.mem_cons, List.not_mem_nil, or_false] at hword
    rcases hword with rfl | rfl <;>
    · cases hk
      exact .config _ (ahead_config hw hls ht hname hend)
  | menu htext =>
    cases hk
    exact .menu (ahead_text hw lexes_prompt? hls ht htext hend)
  | comment htext =>
    cases hk
    exact .comment (ahead_text hw lexes_prompt? hls ht htext hend)
  | mainmenu htext =>
    cases hk
    exact .mainmenu (ahead_text hw lexes_prompt? hls ht htext hend)
  | choice hname =>
    cases hk
    exact isAhead_choice hls ht hname hend
  | source hword hpath =>
    simp only [List.mem_cons, List.not_mem_nil, or_false] at hword
    rcases hword with rfl | rfl | rfl | rfl <;>
    · cases hk
      exact .source _ _ (ahead_text hw lexes_path? hls ht hpath hend)
  | block he =>
    cases hk
    exact .block (ahead_expr hx hw hs he)
  | close hword =>
    simp only [List.mem_cons, List.not_mem_nil, or_false] at hword
    rcases hword with rfl | rfl | rfl <;>
    · cases hk
      exact .close _ (ahead_end hs)
  | type hword hprompt =>
    simp only [List.mem_cons, List.not_mem_nil, or_false] at hword
    rcases hword with rfl | rfl | rfl | rfl | rfl <;>
    · cases hk
      exact isAhead_type hx hw hls ht hprompt hend
  | prompt hprompt =>
    cases hk
    exact .prompt (ahead_prompt hx hw hls ht hprompt)
  | default he hc =>
    cases hk
    exact .default (ahead_default hx hw hs he hc)
  | depends hon he =>
    cases hk
    refine .depends (ahead_introduced hx (k := .on) hw hs rfl (fun v a v' ha => ?_) hon he)
    split at ha
    · next more => exact ⟨more, rfl, ha⟩
    · exact nomatch ha
  | visible hif he =>
    cases hk
    refine .visible (ahead_introduced hx (k := .ifWord) hw hs rfl (fun v a v' ha => ?_) hif he)
    split at ha
    · next more => exact ⟨more, rfl, ha⟩
    · exact nomatch ha
  | select hword hname hc =>
    simp only [List.mem_cons, List.not_mem_nil, or_false] at hword
    rcases hword with rfl | rfl
    · cases hk
      exact .select (ahead_target hx hw hls ht hname hc hend)
    · cases hk
      exact .imply (ahead_target hx hw hls ht hname hc hend)
  | range hlow hhigh hc =>
    cases hk
    exact .range (ahead_range hx hw hs hlow hhigh hc)
  | env henv hequal hpath =>
    cases hk
    exact .option (ahead_env (hdollar rfl) hs henv hequal hpath hend)
  | flag hflag hkeyword =>
    cases hk
    exact .option (ahead_flag hflag hs hkeyword hend)
  | optional =>
    cases hk
    exact .optional (hs.eq_of_skip hend).2

/-- A keyword that is `help` among dashes is `help`. -/
theorem eq_help {word : String} {k : Keyword} (hk : Keyword.find? word = some k)
    (h : isHelpWord word.toList = true) : k = .help := by
  unfold Keyword.find? at hk
  split at hk
  all_goals cases hk
  all_goals first
    | rfl
    | exact absurd h (by decide)

/-- Where both notations know the first word, the parts of the statements are ahead. -/
theorem isAhead_of_firstOf (hx : expression.Groups) {word : List Char} {k : Keyword}
    {captured : Captured} (hk : Keyword.find? (String.ofList word) = some k)
    (hword : StartsForm word s)
    (hcaptured : firstOf (Form.properties expression ++ Form.entries expression) (word ++ s) =
      some (captured, rest)) (hend : skip rest = []) (hls : Lexes ls s)
    (ht : tokensOf (.word k) (.word k) ls w = .ok ts w') (hdollar : k = .option → '$' ∉ s)
    (hw : w.isOpen = true) : (ofKeyword k ts).IsAhead w w' (ofCaptured captured) := by
  rcases Form.fits_of_firstOf hword hcaptured with ⟨word, rfl, hfits⟩ | ⟨hhelp, rfl, rfl⟩
  · rw [String.ofList_toList] at hk
    exact isAhead_of_fits hx hk hfits hend hls ht hdollar hw
  · rw [← String.toList_ofList (l := word)] at hhelp
    obtain rfl := eq_help hk hhelp
    exact .help (Shows.eq_of_skip ⟨_, ls, hls, ht⟩ hend).2

end Kconfig
