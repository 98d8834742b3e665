import Kconfig.Proofs.Reading.Lexemes
/-!
Scanning a plain text lexeme by lexeme.

The matchers of the second notation work on characters. On a text made of lexemes each of them
takes a whole lexeme or none: keywords and symbols are names, and the signs are those that the
first notation knows. A matcher of names may stop inside a lexeme, but then what is left fits no
form.
-/
namespace Kconfig
open Text

/-- How a sign is written. -/
def Token.spelling : Token → List Char
  | .relation r => r.sign.toList
  | .and => ['&', '&']
  | .or => ['|', '|']
  | .not => ['!']
  | .opening => ['(']
  | .closing => [')']
  | _ => []

namespace Grammar
variable {l : Lexeme} {ls : List Lexeme} {s rest : List Char} {t : Token}

/-! ### Signs -/

theorem eq_spelling (h : Token.operator? s = some (t, rest)) : s = t.spelling ++ rest := by
  unfold Token.operator? at h
  split at h
  all_goals first
    | injection h with h
      injection h with ht hrest
      subst ht hrest
      rfl
    | exact nomatch h

/-- No sign starts as a name does. -/
theorem head_of_operator (h : Token.operator? s = some (t, rest)) :
    ∃ d r, s = d :: r ∧ Macro.isNameChar d = false := by
  obtain ⟨a, c, rfl, hchars, -⟩ := starts_sign h
  cases a with
  | nil => exact ⟨c, rest, rfl, (of_isSignChar (hchars c (List.mem_cons_self ..))).2.1⟩
  | cons d a => exact ⟨d, a ++ c :: rest, rfl, (of_isSignChar (hchars d (List.mem_cons_self ..))).2.1⟩

/-- A text that starts with a sign starts with no other lexeme. -/
theorem starts_operator {rest' : List Char} (hl : l.Starts s rest)
    (h : Token.operator? s = some (t, rest')) : l = .sign t ∧ rest = rest' := by
  cases l with
  | name n =>
    obtain ⟨rfl, hn, hchars, -⟩ := hl
    obtain ⟨d, n, rfl⟩ := List.exists_cons_of_ne_nil hn
    obtain ⟨e, r, heq, hname⟩ := head_of_operator h
    obtain ⟨rfl, -⟩ := List.cons.inj heq
    exact absurd hname (by rw [hchars d (List.mem_cons_self ..)]; exact nofun)
  | quoted b =>
    obtain ⟨q, hq, rfl, -⟩ := hl
    rcases hq with rfl | rfl <;> exact nomatch h
  | sign u =>
    obtain heq := Option.some.inj (Eq.trans (Eq.symm hl) h)
    injection heq with hu hrest
    exact ⟨congrArg _ hu, hrest⟩

/-- A text that starts with a sign has it as its first lexeme. -/
theorem lexes_operator (hs : Lexes ls s) (h : Token.operator? (skip s) = some (t, rest)) :
    ∃ ls', ls = .sign t :: ls' ∧ Lexes ls' rest := by
  cases ls with
  | nil =>
    rw [hs] at h
    exact nomatch h
  | cons l ls =>
    obtain ⟨rest', hl, hrest⟩ := hs
    obtain ⟨rfl, rfl⟩ := starts_operator hl h
    exact ⟨ls, rfl, hrest⟩

theorem sign?_eq {sign : String} : sign? sign s = some rest ↔ skip s = sign.toList ++ rest := by
  simp only [sign?]
  constructor
  · intro h
    split at h
    · next hstarts =>
      obtain ⟨r, hr⟩ := List.isPrefixOf_iff_prefix.mp hstarts
      rw [← hr, ← String.length_toList, List.drop_left] at h
      rw [← hr, Option.some.inj h]
    · exact nomatch h
  · intro h
    rw [h, if_pos (List.isPrefixOf_iff_prefix.mpr (List.prefix_append _ _)),
      ← String.length_toList, List.drop_left]

/-- Where a sign is scanned, the first notation has it as well. -/
theorem sign?_eq_operator {sign : String}
    (h : ∀ rest, Token.operator? (sign.toList ++ rest) = some (t, rest)) :
    sign? sign s = some rest ↔ Token.operator? (skip s) = some (t, rest) := by
  have hspelling : t.spelling = sign.toList := by
    have heq := eq_spelling (h [])
    rwa [List.append_nil, List.append_nil, eq_comm] at heq
  rw [sign?_eq]
  refine ⟨fun hs => ?_, fun hop => ?_⟩
  · rw [hs, h]
  · rw [eq_spelling hop, hspelling]

theorem sign?_or : sign? "||" s = some rest ↔ Token.operator? (skip s) = some (.or, rest) :=
  sign?_eq_operator fun _ => rfl

theorem sign?_and : sign? "&&" s = some rest ↔ Token.operator? (skip s) = some (.and, rest) :=
  sign?_eq_operator fun _ => rfl

theorem sign?_opening : sign? "(" s = some rest ↔
    Token.operator? (skip s) = some (.opening, rest) := sign?_eq_operator fun _ => rfl

theorem sign?_closing : sign? ")" s = some rest ↔
    Token.operator? (skip s) = some (.closing, rest) := sign?_eq_operator fun _ => rfl

theorem sign?_equal : sign? "=" s = some rest ↔
    Token.operator? (skip s) = some (.relation .equal, rest) := sign?_eq_operator fun _ => rfl

theorem relation?_eq {r : Relation} : relation? s = some (r, rest) ↔
    Token.operator? (skip s) = some (.relation r, rest) := by
  unfold relation?
  generalize skip s = text
  constructor
  · intro h
    split at h
    · cases h
      rfl
    · cases h
      rfl
    · cases h
      rfl
    · cases h
      rfl
    · next hnot =>
      cases h
      rw [Token.operator?]
      exact hnot
    · next hnot =>
      cases h
      rw [Token.operator?]
      exact hnot
    · cases h
  · intro h
    unfold Token.operator? at h
    split at h
    all_goals cases h
    · rfl
    · rfl
    · rfl
    · next hnot => split <;> simp_all
    · rfl
    · next hnot => split <;> simp_all

theorem negation?_eq : negation? s = some rest ↔
    Token.operator? (skip s) = some (.not, rest) := by
  unfold negation?
  generalize skip s = text
  constructor
  · intro h
    split at h
    · exact nomatch h
    · next hnot =>
      cases h
      rw [Token.operator?]
      exact hnot
    · exact nomatch h
  · intro h
    unfold Token.operator? at h
    split at h
    all_goals cases h
    next hnot =>
    split
    · next heq =>
      cases heq
      exact absurd rfl (hnot _)
    · next heq =>
      cases heq
      rfl
    · next hne =>
      exact absurd rfl (hne _)

/-! ### The end, and keywords -/

theorem nil_of_skip (hs : Lexes ls s) (h : skip s = []) : ls = [] := by
  cases ls with
  | nil => rfl
  | cons l ls =>
    obtain ⟨rest, hl, -⟩ := hs
    obtain ⟨a, c, heq, -⟩ := hl.text
    rw [h] at heq
    cases a <;> exact nomatch heq

theorem isNameChar_of_isKeywordChar {c : Char} (h : isKeywordChar c = true) :
    Macro.isNameChar c = true := by
  simp only [isKeywordChar, Bool.or_eq_true] at h
  simp only [Macro.isNameChar, Bool.or_eq_true]
  exact .inl (.inl (.inl h))

/-- A keyword is a name of its own. -/
theorem keyword?_name {word : String} (hs : Lexes (.name word.toList :: ls) s) :
    ∃ rest, keyword? word s = some rest ∧ Lexes ls rest := by
  obtain ⟨rest, ⟨heq, -, -, hhead⟩, hrest⟩ := hs
  refine ⟨rest, ?_, hrest⟩
  have hnot : ¬ (rest.head?.any isKeywordChar) = true := by
    intro hany
    cases hc : rest.head? with
    | none =>
      rw [hc] at hany
      exact nomatch hany
    | some c =>
      rw [hc] at hany
      exact absurd (hhead c hc) (by rw [isNameChar_of_isKeywordChar hany]; exact nofun)
  rw [keyword?, sign?_eq.mpr heq]
  exact if_neg hnot

theorem keyword?_nil {word : String} (hs : Lexes [] s) (hword : word.toList ≠ []) :
    keyword? word s = none := by
  have hsign : sign? word s = none := by
    refine Option.eq_none_iff_forall_ne_some.mpr fun rest h => ?_
    have heq := hs.symm.trans (sign?_eq.mp h)
    exact hword (List.append_eq_nil_iff.mp heq.symm).1
  rw [keyword?, hsign]
  rfl

/-! ### Symbols -/

theorem isSymbolChar_eq (c : Char) : isSymbolChar c = Macro.isNameChar c := by
  simp only [isSymbolChar, Macro.isNameChar]
  cases c.isAlphanum <;> cases c == '_' <;> cases c == '.' <;> cases c == '$' <;>
    cases c == '/' <;> rfl

theorem body?_append {q : Char} {b : List Char} (hb : q ∉ b) (hslash : '\\' ∉ b)
    (hq : q ≠ '\\') : body? q (b ++ q :: rest) = some (b, rest) := by
  induction b with
  | nil =>
    rw [List.nil_append, body?]
    · exact if_pos rfl
    · exact fun _ _ h => absurd h hq
  | cons c b ih =>
    obtain ⟨hc, hb⟩ := not_or.mp (mt List.mem_cons.mpr hb)
    obtain ⟨hc', hslash⟩ := not_or.mp (mt List.mem_cons.mpr hslash)
    rw [List.cons_append, body?]
    · rw [if_neg (Ne.symm hc), if_neg (Ne.symm hc'), ih hb hslash]
      rfl
    · exact fun _ _ h => absurd h.symm hc'

theorem symbol?_name {n : List Char} (hs : Lexes (.name n :: ls) s) (hif : n ≠ ['i', 'f']) :
    ∃ rest, symbol? s = some (n, rest) ∧ Lexes ls rest := by
  obtain ⟨rest, ⟨heq, hn, hchars, hhead⟩, hrest⟩ := hs
  refine ⟨rest, ?_, hrest⟩
  obtain ⟨c, n, rfl⟩ := List.exists_cons_of_ne_nil hn
  have hc := hchars c (List.mem_cons_self ..)
  have htake : (c :: n ++ rest).takeWhile isSymbolChar = c :: n := by
    refine (takeWhile_until (fun d hd => ?_) fun d hd => ?_).1
    · exact (isSymbolChar_eq d).trans (hchars d hd)
    · exact (isSymbolChar_eq d).trans (hhead d hd)
  have hquote : ¬ (c = '"' || c = '\'') = true := by
    simp [ne_of_isNameChar hc (d := '"') rfl, ne_of_isNameChar hc (d := '\'') rfl]
  rw [symbol?, heq, List.cons_append]
  dsimp only
  rw [← List.cons_append, htake, if_neg hquote, if_neg (by simpa using hif), List.drop_left]

theorem symbol?_quoted {b : List Char} (hs : Lexes (.quoted b :: ls) s) :
    ∃ q rest, (q = '"' ∨ q = '\'') ∧ symbol? s = some (q :: b ++ [q], rest) ∧ Lexes ls rest := by
  obtain ⟨rest, ⟨q, hq, heq, hb, hslash, -⟩, hrest⟩ := hs
  refine ⟨q, rest, hq, ?_, hrest⟩
  have hq' : q ≠ '\\' := by rcases hq with rfl | rfl <;> decide
  rw [symbol?, heq, List.cons_append]
  dsimp only
  rw [if_pos (by simpa using hq), body?_append hb hslash hq']
  rfl

theorem symbol?_sign (hs : Lexes (.sign t :: ls) s) : symbol? s = none := by
  obtain ⟨rest, hl, -⟩ := hs
  obtain ⟨d, r, hd, hname⟩ := head_of_operator hl
  have hquote : ¬ (d = '"' || d = '\'') = true := by
    intro hquote
    change Token.operator? (skip s) = _ at hl
    rw [hd] at hl
    rcases (by simpa using hquote : d = '"' ∨ d = '\'') with rfl | rfl <;> exact nomatch hl
  rw [symbol?, hd]
  dsimp only
  rw [if_neg hquote, List.takeWhile_cons_of_neg (by rw [isSymbolChar_eq, hname]; exact nofun)]
  rfl

/-! ### Texts in quotes -/

/-- A quoted text stands where a scanner of quoted texts takes one. -/
theorem lexes_quotedBy {body : Char → List Char → Option (List Char × List Char)}
    {p rest : List Char} (hbody : ∀ q b r, (q = '"' ∨ q = '\'') → q ∉ b → '\\' ∉ b →
      body q (b ++ q :: r) = some (b, r))
    (hs : Lexes ls s) (h : quotedBy body s = some (p, rest)) :
    ∃ ls', ls = .quoted p :: ls' ∧ Lexes ls' rest ∧ '\\' ∉ p := by
  unfold quotedBy at h
  cases ls with
  | nil =>
    rw [hs] at h
    exact nomatch h
  | cons l ls =>
    obtain ⟨rest', hl, hrest⟩ := hs
    cases l with
    | name n =>
      obtain ⟨heq, hn, hchars, -⟩ := hl
      obtain ⟨c, n, rfl⟩ := List.exists_cons_of_ne_nil hn
      have hc := hchars c (List.mem_cons_self ..)
      rw [heq, List.cons_append] at h
      dsimp only at h
      rw [if_pos ⟨ne_of_isNameChar hc rfl, ne_of_isNameChar hc rfl⟩] at h
      exact nomatch h
    | quoted b =>
      obtain ⟨q, hq, heq, hb, hslash, -⟩ := hl
      have hquote : ¬ (q ≠ '"' ∧ q ≠ '\'') := fun hnot => hq.elim hnot.1 hnot.2
      rw [heq, List.cons_append] at h
      dsimp only at h
      rw [if_neg hquote, hbody q b rest' hq hb hslash] at h
      simp only [Option.bind_eq_bind, Option.pure_def, Option.bind_some] at h
      split at h
      · exact nomatch h
      · obtain ⟨rfl, rfl⟩ := Prod.mk.inj (Option.some.inj h)
        exact ⟨ls, rfl, hrest, hslash⟩
    | sign t =>
      cases hskip : skip s with
      | nil =>
        rw [hskip] at h
        exact nomatch h
      | cons c r =>
        rw [hskip] at hl h
        have hquote : c ≠ '"' ∧ c ≠ '\'' := by
          constructor <;> rintro rfl <;> exact nomatch hl
        dsimp only at h
        rw [if_pos hquote] at h
        exact nomatch h

theorem unescapePrompt_eq_self {b : List Char} (h : '\\' ∉ b) : unescapePrompt b = b := by
  induction b with
  | nil => rfl
  | cons c b ih =>
    obtain ⟨hc, hb⟩ := not_or.mp (mt List.mem_cons.mpr h)
    rw [unescapePrompt, ih hb]
    exact fun _ _ hslash => absurd hslash.symm hc

theorem unescapePath_eq_self {b : List Char} (h : '\\' ∉ b) : unescapePath b = b := by
  induction b with
  | nil => rfl
  | cons c b ih =>
    obtain ⟨hc, hb⟩ := not_or.mp (mt List.mem_cons.mpr h)
    rw [unescapePath, ih hb]
    exact fun _ _ hslash => absurd hslash.symm hc

theorem unescape_eq_self {b : List Char} (h : '\\' ∉ b) : unescape b = b := by
  induction b with
  | nil => rfl
  | cons c b ih =>
    obtain ⟨hc, hb⟩ := not_or.mp (mt List.mem_cons.mpr h)
    rw [unescape, ih hb]
    exact fun _ _ hslash => absurd hslash.symm hc

theorem lexes_prompt? {p : List Char} (hs : Lexes ls s) (h : prompt? s = some (p, rest)) :
    ∃ ls', ls = .quoted p :: ls' ∧ Lexes ls' rest := by
  obtain ⟨⟨b, r⟩, hquoted, h⟩ := Option.map_eq_some_iff.mp h
  obtain ⟨rfl, rfl⟩ := Prod.mk.inj h
  have hbody : ∀ q b r, (q = '"' ∨ q = '\'') → q ∉ b → '\\' ∉ b →
      body? q (b ++ q :: r) = some (b, r) := fun q b r hq hb hslash =>
    body?_append hb hslash (by rcases hq with rfl | rfl <;> decide)
  obtain ⟨ls', rfl, hrest, hslash⟩ := lexes_quotedBy hbody hs hquoted
  exact ⟨ls', by rw [unescapePrompt_eq_self hslash], hrest⟩

theorem lexes_path? {p : List Char} (hs : Lexes ls s) (h : path? s = some (p, rest)) :
    ∃ ls', ls = .quoted p :: ls' ∧ Lexes ls' rest := by
  obtain ⟨⟨b, r⟩, hquoted, h⟩ := Option.map_eq_some_iff.mp h
  obtain ⟨rfl, rfl⟩ := Prod.mk.inj h
  have hbody : ∀ q b r, (q = '"' ∨ q = '\'') → q ∉ b → '\\' ∉ b →
      plainBody? q (b ++ q :: r) = some (b, r) := by
    intro q b r _ hb _
    obtain ⟨htake, hdrop⟩ := takeWhile_until (p := (· != q)) (t := q :: r)
      (fun c hc => bne_iff_ne.mpr fun heq => hb (heq ▸ hc)) (by rintro _ ⟨⟩; simp)
    rw [plainBody?, hdrop, htake]
  obtain ⟨ls', rfl, hrest, hslash⟩ := lexes_quotedBy hbody hs hquoted
  exact ⟨ls', by rw [unescapePath_eq_self hslash], hrest⟩

/-! ### Names -/

/-- A character of names that no word has. -/
def isMark (c : Char) : Bool := c == '$' || c == '/' || c == '.' || c == '-'

theorem isNameChar_eq (c : Char) :
    Macro.isNameChar c = (c.isAlphanum || c == '_' || isMark c) := by
  simp only [Macro.isNameChar, isMark, Bool.or_assoc]

/-- No word starts where no name does. -/
theorem name?_of_head {c : Char} {r : List Char} (hskip : skip s = c :: r)
    (hc : Macro.isNameChar c = false) : name? s = none := by
  rw [isNameChar_eq, Bool.or_eq_false_iff] at hc
  rw [name?, hskip, List.takeWhile_cons_of_neg (by rw [hc.1]; exact nofun)]
  rfl

/-- A word is a name, or ends inside of one. -/
theorem lexes_name? {n : List Char} (hs : Lexes ls s) (h : name? s = some (n, rest)) :
    (∃ ls', ls = .name n :: ls' ∧ Lexes ls' rest) ∨ ∃ c r, rest = c :: r ∧ isMark c = true := by
  cases ls with
  | nil =>
    rw [name?, hs] at h
    exact nomatch h
  | cons l ls =>
    obtain ⟨rest', hl, hrest⟩ := hs
    cases l with
    | name m =>
      obtain ⟨heq, -, hchars, hhead⟩ := hl
      -- The word takes the name, up to a mark in it.
      obtain ⟨w, r, rfl, hw, hr⟩ : ∃ w r, m = w ++ r ∧
          (∀ c ∈ w, (c.isAlphanum || c == '_') = true) ∧
          ∀ c, r.head? = some c → (c.isAlphanum || c == '_') = false := by
        refine ⟨_, _, (List.takeWhile_append_dropWhile (p := fun c => c.isAlphanum || c == '_')).symm,
          List.all_eq_true.mp List.all_takeWhile, fun c hc => ?_⟩
        have hnot := List.head?_dropWhile_not (fun c => c.isAlphanum || c == '_') m
        rw [hc] at hnot
        exact hnot
      have hword : ∀ c, (r ++ rest').head? = some c → (c.isAlphanum || c == '_') = false := by
        intro c hc
        cases r with
        | nil =>
          have hnot := hhead c hc
          rw [isNameChar_eq, Bool.or_eq_false_iff] at hnot
          exact hnot.1
        | cons d r => exact hr c hc
      rw [name?, heq, List.append_assoc, (takeWhile_until hw hword).1, List.drop_left] at h
      split at h
      · exact nomatch h
      · obtain ⟨rfl, rfl⟩ := Prod.mk.inj (Option.some.inj h)
        cases r with
        | nil => exact .inl ⟨ls, by rw [List.append_nil], hrest⟩
        | cons c r =>
          refine .inr ⟨c, r ++ rest', rfl, ?_⟩
          have hc := hchars c (by simp)
          rw [isNameChar_eq, hr c rfl] at hc
          exact hc
    | quoted b =>
      obtain ⟨q, hq, heq, -⟩ := hl
      rw [name?_of_head heq (by rcases hq with rfl | rfl <;> rfl)] at h
      exact nomatch h
    | sign t =>
      obtain ⟨d, r, hd, hname⟩ := head_of_operator hl
      rw [name?_of_head hd hname] at h
      exact nomatch h

/-- Neither a condition nor the end of a line starts with a mark. -/
theorem end_of_mark {c : Char} {r : List Char} (hc : isMark c = true) :
    keyword? "if" (c :: r) = none ∧ skip (c :: r) ≠ [] := by
  have hskip : skip (c :: r) = c :: r := by
    refine skip_of_head fun d hd => isGap_false_of_isBlank_false (isBlank_of_isNameChar ?_)
    rw [← Option.some.inj hd, isNameChar_eq, hc, Bool.or_true]
  have hif : sign? "if" (c :: r) = none := by
    refine Option.eq_none_iff_forall_ne_some.mpr fun rest h => ?_
    have heq := hskip.symm.trans (sign?_eq.mp h)
    obtain rfl : c = 'i' := (List.cons.inj heq).1
    exact nomatch hc
  rw [hskip, keyword?, hif]
  exact ⟨rfl, List.cons_ne_nil _ _⟩

end Grammar
end Kconfig
