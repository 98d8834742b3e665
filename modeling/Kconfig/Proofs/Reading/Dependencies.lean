import Kconfig.Proofs.Lists
import Kconfig.Proofs.Reading.CommonLines
/-!
The expression of a dependency in both notations.

On a line `depends on …` the first notation takes an expression from the tokens of the text, one
operand after the other. In the second one the text is put in groups, with one list for all operands
of a chain, and these lists become expressions later. Between names, quoted constants, signs and
spaces there is nothing that only one of them would see, so a text that the first notation accepts
stands for the same expression in the second one: the names are registered in the same order, and
the lists are nested to the right.
-/
namespace Kconfig
open Text Statement
variable {expression : Infix} {w w' u : Workspace} {line s t r : List Char}

/-- A text that is made of names, constants in quotes, signs and spaces. -/
inductive IsExpressionText : List Char → Prop
  | nil : IsExpressionText []
  | space {s : List Char} : IsExpressionText s → IsExpressionText (' ' :: s)
  | name {n s : List Char} : (∀ c ∈ n, Macro.isNameChar c = true ∧ c ≠ '$') →
      IsExpressionText s → IsExpressionText (n ++ s)
  | quoted {q : Char} {b s : List Char} : (q = '"' ∨ q = '\'') →
      (∀ c ∈ b, c ≠ q ∧ c ≠ '$' ∧ c ≠ '\\' ∧ c ≠ '\t') →
      IsExpressionText s → IsExpressionText (q :: b ++ q :: s)
  | sign {t : Token} {s : List Char} : IsExpressionText s → IsExpressionText (t.spelling ++ s)

/-- The expression of a line that has to be a dependency. -/
def readDependency (read : List Char → Reading (Option Statement)) (line : List Char) :
    Reading Expr := do
  match ← read line with
  | some (.depends cond) => cond
  | _ => Reading.problem .expectedOnExpression

/-! ### Plain texts -/

/-- A character that is no quote and begins neither a macro nor a comment is plain. -/
theorem isPlain_cons_of {c : Char} (hquote : c ≠ '"' ∧ c ≠ '\'') (hdollar : c ≠ '$')
    (hblank : isBlank c = true → Grammar.isGap c = true) (hs : isPlain none s = true) :
    isPlain none (c :: s) = true := by
  cases hc : isBlank c with
  | true => simp [isPlain, hquote, hdollar, hc, hblank hc, hs]
  | false => simp [isPlain, hquote, hdollar, hc, hs]

theorem isPlain_gap {g : List Char} (hg : ∀ c ∈ g, Grammar.isGap c = true) (hs : isPlain none s = true) :
    isPlain none (g ++ s) = true := by
  induction g with
  | nil => exact hs
  | cons c g ih =>
    obtain ⟨hc, hg⟩ := List.forall_mem_cons.mp hg
    refine isPlain_cons_of ⟨?_, ?_⟩ ?_ (fun _ => hc) (ih hg) <;>
    · rintro rfl
      exact nomatch hc

theorem isPlain_name {n : List Char} (hn : ∀ c ∈ n, Macro.isNameChar c = true ∧ c ≠ '$')
    (hs : isPlain none s = true) : isPlain none (n ++ s) = true := by
  induction n with
  | nil => exact hs
  | cons c n ih =>
    obtain ⟨⟨hc, hdollar⟩, hn⟩ := List.forall_mem_cons.mp hn
    refine isPlain_cons_of ⟨ne_of_isNameChar hc rfl, ne_of_isNameChar hc rfl⟩ hdollar
      (fun hblank => ?_) (ih hn)
    rw [isBlank_of_isNameChar hc] at hblank
    exact nomatch hblank

theorem isPlain_quoted {q : Char} {b : List Char}
    (hb : ∀ c ∈ b, c ≠ q ∧ c ≠ '$' ∧ c ≠ '\\' ∧ c ≠ '\t') (hq : q = '"' ∨ q = '\'')
    (hs : isPlain none s = true) : isPlain (some q) (b ++ q :: s) = true := by
  induction b with
  | nil => rcases hq with rfl | rfl <;> simp [isPlain, hs]
  | cons c b ih =>
    obtain ⟨⟨hc, hdollar, hslash, htab⟩, hb⟩ := List.forall_mem_cons.mp hb
    simp [isPlain, hc, hdollar, hslash, htab, ih hb]

theorem isPlain_sign (t : Token) (hs : isPlain none s = true) :
    isPlain none (t.spelling ++ s) = true := by
  cases t with
  | relation r => cases r <;> simp [Token.spelling, Relation.sign, isPlain, isBlank, asciiBlank, hs]
  | and | or | not | opening | closing =>
    simp [Token.spelling, isPlain, isBlank, asciiBlank, hs]
  | word | symbol | text => exact hs

/-- Such a text is plain before any plain text. -/
theorem IsExpressionText.isPlain_append (h : IsExpressionText s) (ht : isPlain none t = true) :
    isPlain none (s ++ t) = true := by
  induction h with
  | nil => exact ht
  | space _ ih => exact isPlain_cons_of (by decide) (by decide) (fun _ => rfl) ih
  | name hn _ ih =>
    rw [List.append_assoc]
    exact isPlain_name hn ih
  | quoted hq hb _ ih =>
    have hbody := isPlain_quoted hb hq ih
    rw [List.append_assoc, List.cons_append]
    rcases hq with rfl | rfl <;> simpa [isPlain, isBlank, asciiBlank] using hbody
  | sign _ ih =>
    rw [List.append_assoc]
    exact isPlain_sign _ ih

/-! ### Lines -/

/-- The first word and the rest of a dependency. -/
theorem firstWord_dependency {indent : List Char} (hindent : ∀ c ∈ indent, Grammar.isGap c = true)
    (rest : List Char) :
    firstWord (indent ++ "depends".toList ++ ' ' :: rest) = "depends".toList ∧
      trimLeft (indent ++ "depends".toList ++ ' ' :: rest) = "depends".toList ++ ' ' :: rest := by
  have htrim : trimLeft (indent ++ "depends".toList ++ ' ' :: rest) =
      "depends".toList ++ ' ' :: rest := by
    rw [List.append_assoc]
    refine (takeWhile_until (fun c hc => ?_) ?_).2
    · exact isBlank_of_asciiBlank (asciiBlank_of_isGap (hindent c hc))
    · rintro c hc
      obtain rfl : 'd' = c := Option.some.inj hc
      rfl
  refine ⟨?_, htrim⟩
  rw [firstWord, htrim]
  refine (takeWhile_until (fun c hc => ?_) ?_).1
  · exact List.all_eq_true.mp (by decide : "depends".toList.all isFirstWordChar = true) c hc
  · rintro c hc
    obtain rfl : ' ' = c := Option.some.inj hc
    rfl

/-- What the first notation makes of a plain dependency, the second one makes of it too. -/
theorem readDependency_of_tokens (hx : expression.Groups) {e : Expr}
    (hfirst : firstWord line = "depends".toList) (hline : trimLeft line = firstWord line ++ r)
    (hr : ∀ c, r.head? = some c → isFirstWordChar c = false) (hplain : isPlain none line = true)
    (h : readDependency readTokenLine line w = .ok e w') :
    readDependency (readFormLine expression) line w = .ok e w' := by
  obtain ⟨given, w₁, hread, h⟩ := bind_ok h
  obtain ⟨u, hbegin, hread⟩ := readTokenLine_ok hline hread
  have hword : firstWord line ≠ [] := by simp [hfirst]
  have hk : Keyword.find? (String.ofList (firstWord line)) = some .depends := by
    rw [hfirst]
    rfl
  rcases hread with ⟨hnil, -⟩ | ⟨-, -, ⟨k, ts, hk', rfl, hts⟩ | ⟨hk', -⟩⟩
  · exact absurd hnil hword
  · obtain rfl : k = .depends := Option.some.inj (hk'.symm.trans hk)
    obtain ⟨ls, hls, htokens⟩ := lexes_rest hline hplain hts
    have heq : readFormLine expression line w = _ := readFormLine_form hline hr hword
      (by rw [hfirst]; decide) (hasMacro_trim hplain) hbegin
    obtain ⟨column, hiff⟩ := Form.parse?_word expression (not_tab_firstWord line)
      (trimRight (uncommented none r))
    rw [hfirst] at heq hiff
    have hs : Shows (.word .depends) (expandTabsFrom column (trimRight (uncommented none r))) u ts
        w₁ := ⟨_, ls, lexes_expandTabsFrom (lexes_trimRight hls) column, htokens⟩
    have hstarts : StartsForm "depends".toList
        (expandTabsFrom column (trimRight (uncommented none r))) :=
      ⟨by decide, Lists.forall_of_all rfl, fun c hc => isFirstWordChar_of_expandTabs hr hc⟩
    dsimp only [ofKeyword] at h
    split at h
    · next more =>
      obtain ⟨rest, hon, hrest⟩ := hs.keyword (k := .on) rfl
      cases hwhole : Token.wholeExpr more with
      | error p =>
        rw [hwhole] at h
        cases h
      | ok e' =>
        rw [hwhole] at h
        cases h
        obtain ⟨part, left, hpart, hnil, hresolve⟩ := wholeExpr_ok hx hrest hwhole
        have hparse := (hiff (.depends part)).mpr ⟨left, Form.firstOf_depends hstarts hon hpart, hnil⟩
        rw [readDependency, bind_apply, heq, finishForm, hparse]
        exact hresolve
    · cases h
  · rw [hk] at hk'
    cases hk'

/-- A dependency that the first notation accepts is accepted by the second one, with the same
expression over the same symbols; where both accept one, the expressions are the same. -/
theorem dependencies_agree (hx : expression.Groups) {indent text tail : List Char}
    (hindent : ∀ c ∈ indent, Grammar.isGap c = true) (htext : IsExpressionText text)
    (htail : ∀ c ∈ tail, Grammar.isGap c = true) (w : Workspace) :
    (∀ e w', readDependency readTokenLine (indent ++ "depends on ".toList ++ text ++ tail) w =
        .ok e w' →
      readDependency (readFormLine expression) (indent ++ "depends on ".toList ++ text ++ tail) w =
        .ok e w') ∧
    ∀ e w' e' u,
      readDependency readTokenLine (indent ++ "depends on ".toList ++ text ++ tail) w = .ok e w' →
      readDependency (readFormLine expression) (indent ++ "depends on ".toList ++ text ++ tail) w =
        .ok e' u →
        e = e' ∧ w' = u := by
  have hsplit : indent ++ "depends on ".toList ++ text ++ tail =
      indent ++ "depends".toList ++ ' ' :: ("on ".toList ++ text ++ tail) := by
    simp
  obtain ⟨hfirst, htrim⟩ := firstWord_dependency hindent ("on ".toList ++ text ++ tail)
  have hplain : isPlain none (indent ++ "depends on ".toList ++ text ++ tail) = true := by
    rw [List.append_assoc, List.append_assoc]
    have htail' := isPlain_gap (s := []) htail rfl
    rw [List.append_nil] at htail'
    refine isPlain_gap hindent ?_
    exact (IsExpressionText.name (n := "depends".toList) (Lists.forall_of_all rfl) (.space
      (.name (n := "on".toList) (Lists.forall_of_all rfl) (.space .nil)))).isPlain_append
        (htext.isPlain_append htail')
  rw [hsplit] at hplain ⊢
  have hagrees : ∀ e w',
      readDependency readTokenLine
        (indent ++ "depends".toList ++ ' ' :: ("on ".toList ++ text ++ tail)) w = .ok e w' →
      readDependency (readFormLine expression)
        (indent ++ "depends".toList ++ ' ' :: ("on ".toList ++ text ++ tail)) w = .ok e w' := by
    intro e w' h
    refine readDependency_of_tokens hx hfirst (htrim.trans (by rw [hfirst])) ?_ hplain h
    rintro c hc
    obtain rfl : ' ' = c := Option.some.inj hc
    rfl
  exact ⟨hagrees, fun e w' e' u h h' => ok_unique (hagrees e w' h) h'⟩

/-- A negated group, a relation and a constant, after a tab. -/
theorem negatedGroup_agrees : ∃ e w',
    readDependency readTokenLine
      ("\t".toList ++ "depends on ".toList ++ "!(A && 'm 1') || B!=C".toList ++ "\n".toList)
      default = .ok e w' ∧
    readDependency (readFormLine Grammar.ofLevels)
      ("\t".toList ++ "depends on ".toList ++ "!(A && 'm 1') || B!=C".toList ++ "\n".toList)
      default = .ok e w' := by
  have htext : IsExpressionText "!(A && 'm 1') || B!=C".toList :=
    .sign (t := .not) <| .sign (t := .opening) <| .name (n := ['A']) (Lists.forall_of_all rfl) <| .space <|
    .sign (t := .and) <| .space <| .quoted (q := '\'') (b := "m 1".toList) (.inr rfl)
      (Lists.forall_of_all rfl) <|
    .sign (t := .closing) <| .space <| .sign (t := .or) <| .space <|
    .name (n := ['B']) (Lists.forall_of_all rfl) <| .sign (t := .relation .unequal) <|
    .name (n := ['C']) (Lists.forall_of_all rfl) .nil
  obtain ⟨e, w', hread⟩ := ok_of_succeeds (r := readDependency readTokenLine
    ("\t".toList ++ "depends on ".toList ++ "!(A && 'm 1') || B!=C".toList ++ "\n".toList) default)
    (by decide +kernel)
  have hindent : ∀ c ∈ "\t".toList, Grammar.isGap c = true := Lists.forall_of_all rfl
  have htail : ∀ c ∈ "\n".toList, Grammar.isGap c = true := Lists.forall_of_all rfl
  have hagree := dependencies_agree Grammar.groups_ofLevels hindent htext htail default
  exact ⟨e, w', hread, hagree.1 e w' hread⟩

end Kconfig
