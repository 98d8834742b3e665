import Kconfig.Proofs.Text.Lines
import Kconfig.Reading.FormLine
import Kconfig.Reading.Token
/-!
What both notations of lines see in a plain text.

A plain text has no macros, no strange blanks outside of quotes, and neither backslashes nor tabs
inside them. It falls into names, quoted texts and signs, and both notations find the same ones:
taking off the comment, cutting off the blanks at the end and expanding the tabs changes none.
-/
namespace Kconfig
open Text

/-- Whether a text is plain up to its comment; `quote` is the quote that is open. -/
def isPlain (quote : Option Char) : List Char → Bool
  | [] => true
  | c :: s =>
    let startsMacro := c == '$' && s.head? == some '('
    match quote with
    | some q =>
      !startsMacro && c != '\\' && c != '\t' && isPlain (if c = q then none else quote) s
    | none =>
      c == '#' || !startsMacro && (!isBlank c || Grammar.isGap c) &&
        isPlain (if c = '"' || c = '\'' then some c else none) s

/-- A part of a plain text. -/
inductive Lexeme where
  | name (word : List Char)
  | quoted (body : List Char)
  | sign (t : Token)

/-- The lexeme stands at the start of a text, before the rest of it. -/
def Lexeme.Starts : Lexeme → List Char → List Char → Prop
  | .name n, s, rest => s = n ++ rest ∧ n ≠ [] ∧ (∀ c ∈ n, Macro.isNameChar c = true) ∧
      ∀ c, rest.head? = some c → Macro.isNameChar c = false
  | .quoted b, s, rest => ∃ q, (q = '"' ∨ q = '\'') ∧ s = q :: b ++ q :: rest ∧ q ∉ b ∧
      '\\' ∉ b ∧ '\t' ∉ b
  | .sign t, s, rest => Token.operator? s = some (t, rest)

/-- The text is made of the lexemes, with gaps between them. -/
def Lexes : List Lexeme → List Char → Prop
  | [], s => Grammar.skip s = []
  | l :: ls, s => ∃ rest, l.Starts (Grammar.skip s) rest ∧ Lexes ls rest

/-- Whether a text may come in the place of another one after a lexeme. -/
def Continues (rest rest' : List Char) : Prop :=
  ∀ c, rest'.head? = some c → c = ' ' ∨ rest.head? = some c

/-! ### Characters -/

theorem asciiBlank_of_isGap {c : Char} (h : Grammar.isGap c = true) : asciiBlank c = true := by
  simp only [Grammar.isGap, Bool.or_eq_true, beq_iff_eq] at h
  rcases h with ((rfl | rfl) | rfl) | rfl <;> rfl

theorem isGap_false_of_isBlank_false {c : Char} (h : isBlank c = false) : Grammar.isGap c = false := by
  refine Bool.eq_false_iff.mpr fun hgap => ?_
  rw [isBlank_of_asciiBlank (asciiBlank_of_isGap hgap)] at h
  exact nomatch h

/-- A character of a name is none of those that are in no name. -/
theorem ne_of_isNameChar {c d : Char} (h : Macro.isNameChar c = true)
    (hd : Macro.isNameChar d = false) : c ≠ d := by
  rintro rfl
  rw [h] at hd
  exact nomatch hd

theorem printable_of_isNameChar {c : Char} (h : Macro.isNameChar c = true) :
    33 ≤ c.toNat ∧ c.toNat ≤ 126 := by
  unfold Macro.isNameChar Char.isAlphanum Char.isAlpha Char.isUpper Char.isLower Char.isDigit at h
  simp only [Bool.or_eq_true, beq_iff_eq, Bool.and_eq_true, decide_eq_true_eq, ge_iff_le,
    UInt32.le_iff_toNat_le] at h
  rcases h with (((((((h | h) | h) | rfl) | rfl) | rfl) | rfl) | rfl)
  · change 65 ≤ c.toNat ∧ c.toNat ≤ 90 at h
    omega
  · change 97 ≤ c.toNat ∧ c.toNat ≤ 122 at h
    omega
  · change 48 ≤ c.toNat ∧ c.toNat ≤ 57 at h
    omega
  all_goals decide

theorem isBlank_of_isNameChar {c : Char} (h : Macro.isNameChar c = true) : isBlank c = false := by
  have hprintable := printable_of_isNameChar h
  have hspace : c ≠ ' ' := ne_of_isNameChar h rfl
  have hcode : ∀ n, n < 33 ∨ 126 < n → (c.toNat == n) = false := fun n hn => by
    rw [beq_eq_false_iff_ne]
    omega
  simp [isBlank, asciiBlank, hspace, hcode]
  omega

/-- The characters of signs. -/
def isSignChar (c : Char) : Bool :=
  c == '&' || c == '|' || c == '=' || c == '!' || c == '(' || c == ')' || c == '<' || c == '>'

theorem of_isSignChar {c : Char} (h : isSignChar c = true) :
    isBlank c = false ∧ Macro.isNameChar c = false ∧ c ≠ '#' ∧ c ≠ '"' ∧ c ≠ '\'' := by
  simp only [isSignChar, Bool.or_eq_true, beq_iff_eq] at h
  rcases h with ((((((rfl | rfl) | rfl) | rfl) | rfl) | rfl) | rfl) | rfl <;> decide

/-! ### Gaps -/

theorem skip_append {g : List Char} (hg : ∀ c ∈ g, Grammar.isGap c = true) (s : List Char) :
    Grammar.skip (g ++ s) = Grammar.skip s := by
  induction g with
  | nil => rfl
  | cons c g ih =>
    obtain ⟨hc, hg⟩ := List.forall_mem_cons.mp hg
    rw [List.cons_append, Grammar.skip, List.dropWhile_cons_of_pos hc]
    exact ih hg

theorem skip_of_head {s : List Char} (h : ∀ c, s.head? = some c → Grammar.isGap c = false) :
    Grammar.skip s = s := by
  cases s with
  | nil => rfl
  | cons c s => exact List.dropWhile_cons_of_neg (by rw [h c rfl]; exact nofun)

/-- A text is a gap and what is left without it. -/
theorem gap_append_skip (s : List Char) :
    ∃ g, s = g ++ Grammar.skip s ∧ ∀ c ∈ g, Grammar.isGap c = true :=
  ⟨s.takeWhile Grammar.isGap, List.takeWhile_append_dropWhile.symm,
    List.all_eq_true.mp List.all_takeWhile⟩

/-- What is left does not start with a gap. -/
theorem head_skip {s : List Char} {c : Char} (h : (Grammar.skip s).head? = some c) :
    Grammar.isGap c = false := by
  have hhead := List.head?_dropWhile_not Grammar.isGap s
  rw [Grammar.skip] at h
  rw [h] at hhead
  exact hhead

theorem skip_eq_nil {s : List Char} : Grammar.skip s = [] ↔ ∀ c ∈ s, Grammar.isGap c = true := by
  refine ⟨fun h => ?_, fun h => ?_⟩
  · obtain ⟨g, hs, hg⟩ := gap_append_skip s
    rw [h, List.append_nil] at hs
    exact hs ▸ hg
  · rw [← List.append_nil s, skip_append h]
    rfl

theorem skip_skip (s : List Char) : Grammar.skip (Grammar.skip s) = Grammar.skip s :=
  skip_of_head fun _ => head_skip

theorem lexes_skip {ls : List Lexeme} {s : List Char} : Lexes ls (Grammar.skip s) ↔ Lexes ls s := by
  cases ls <;> simp only [Lexes, skip_skip]

theorem lexes_append {g : List Char} (hg : ∀ c ∈ g, Grammar.isGap c = true) {ls : List Lexeme}
    {s : List Char} : Lexes ls (g ++ s) ↔ Lexes ls s := by
  rw [← lexes_skip, skip_append hg, lexes_skip]

/-! ### Lexemes -/

/-- A sign is made of its own characters, and does not hang on what comes after it. -/
theorem starts_sign {s rest : List Char} {t : Token} (h : Token.operator? s = some (t, rest)) :
    ∃ (a : List Char) (c : Char), s = a ++ c :: rest ∧
      (∀ d ∈ a ++ [c], isSignChar d = true) ∧
      ∀ rest', Continues rest rest' → Token.operator? (a ++ c :: rest') = some (t, rest') := by
  have hsingle : ∀ {rest' : List Char}, (∀ r, rest = '=' :: r → False) →
      Continues rest rest' → ∀ r, rest' = '=' :: r → False := by
    rintro _ hnot hcont r rfl
    rcases hcont '=' rfl with h | h
    · exact absurd h (by decide)
    · obtain ⟨r', rfl⟩ := List.head?_eq_some_iff.mp h
      exact hnot r' rfl
  unfold Token.operator? at h
  split at h
  all_goals try
    injection h with h
    injection h with ht hrest
    subst ht hrest
  · exact ⟨['&'], '&', rfl, List.all_eq_true.mp rfl, fun _ _ => rfl⟩
  · exact ⟨['|'], '|', rfl, List.all_eq_true.mp rfl, fun _ _ => rfl⟩
  · exact ⟨[], '=', rfl, List.all_eq_true.mp rfl, fun _ _ => rfl⟩
  · exact ⟨['!'], '=', rfl, List.all_eq_true.mp rfl, fun _ _ => rfl⟩
  · next hnot =>
    refine ⟨[], '!', rfl, List.all_eq_true.mp rfl, fun rest' hcont => ?_⟩
    rw [List.nil_append, Token.operator?]
    exact hsingle hnot hcont
  · exact ⟨[], '(', rfl, List.all_eq_true.mp rfl, fun _ _ => rfl⟩
  · exact ⟨[], ')', rfl, List.all_eq_true.mp rfl, fun _ _ => rfl⟩
  · exact ⟨['<'], '=', rfl, List.all_eq_true.mp rfl, fun _ _ => rfl⟩
  · next hnot =>
    refine ⟨[], '<', rfl, List.all_eq_true.mp rfl, fun rest' hcont => ?_⟩
    rw [List.nil_append, Token.operator?]
    exact hsingle hnot hcont
  · exact ⟨['>'], '=', rfl, List.all_eq_true.mp rfl, fun _ _ => rfl⟩
  · next hnot =>
    refine ⟨[], '>', rfl, List.all_eq_true.mp rfl, fun rest' hcont => ?_⟩
    rw [List.nil_append, Token.operator?]
    exact hsingle hnot hcont
  · exact nomatch h

/-- What a lexeme is made of, and that it does not hang on what comes after it. -/
theorem Lexeme.Starts.text {l : Lexeme} {s rest : List Char} (h : l.Starts s rest) :
    ∃ (a : List Char) (c : Char), s = a ++ c :: rest ∧ isBlank c = false ∧ '\t' ∉ a ++ [c] ∧
      (∀ d, (a ++ [c]).head? = some d → Grammar.isGap d = false) ∧
      ∀ rest', Continues rest rest' → l.Starts (a ++ c :: rest') rest' := by
  cases l with
  | name n =>
    obtain ⟨rfl, hn, hchars, hrest⟩ := h
    obtain ⟨a, c, hconcat⟩ := (List.eq_nil_or_concat n).resolve_left hn
    obtain rfl : n = a ++ [c] := hconcat.trans List.concat_eq_append
    refine ⟨a, c, List.append_assoc .., ?_, fun htab => ?_, fun d hd => ?_, fun rest' hcont => ?_⟩
    · exact isBlank_of_isNameChar (hchars c (by simp))
    · exact ne_of_isNameChar (hchars _ htab) rfl rfl
    · exact isGap_false_of_isBlank_false (isBlank_of_isNameChar (hchars d (List.mem_of_mem_head? hd)))
    · refine ⟨List.append_cons .., hn, hchars, fun d hd => ?_⟩
      rcases hcont d hd with rfl | hd
      · rfl
      · exact hrest d hd
  | quoted b =>
    obtain ⟨q, hq, rfl, hb, hslash, htab⟩ := h
    have hblank : isBlank q = false := by rcases hq with rfl | rfl <;> rfl
    have hqtab : '\t' ≠ q := by rcases hq with rfl | rfl <;> decide
    refine ⟨q :: b, q, rfl, hblank, ?_, fun d hd => ?_, fun rest' _ => ?_⟩
    · simp [hqtab, htab]
    · rw [← Option.some.inj hd]
      exact isGap_false_of_isBlank_false hblank
    · exact ⟨q, hq, rfl, hb, hslash, htab⟩
  | sign t =>
    obtain ⟨a, c, rfl, hchars, hrest⟩ := starts_sign h
    have hblank := fun d hd => (of_isSignChar (hchars d hd)).1
    refine ⟨a, c, rfl, hblank c (by simp), fun htab => ?_, fun d hd => ?_, hrest⟩
    · exact nomatch hblank _ htab
    · exact isGap_false_of_isBlank_false (hblank d (List.mem_of_mem_head? hd))

/-- A lexeme starts where the gap ends. -/
theorem lexes_cons {l : Lexeme} {ls : List Lexeme} {s rest : List Char} (h : l.Starts s rest)
    (hrest : Lexes ls rest) : Lexes (l :: ls) s := by
  obtain ⟨a, c, rfl, -, -, hhead, -⟩ := h.text
  refine ⟨rest, ?_, hrest⟩
  rw [skip_of_head fun d hd => hhead d ?_]
  · exact h
  · cases a <;> exact hd

theorem Continues.of_starts {rest rest' : List Char} (h : rest' <+: rest) :
    Continues rest rest' := by
  obtain ⟨more, rfl⟩ := h
  intro c hc
  obtain ⟨r, rfl⟩ := List.head?_eq_some_iff.mp hc
  exact .inr rfl

/-- The blanks at the end of a text are not part of a lexeme. -/
theorem lexes_trimRight : ∀ {ls : List Lexeme} {s : List Char}, Lexes ls s →
    Lexes ls (trimRight s)
  | [], s, h => by
    have hstarts : trimRight s <+: s := dropRightWhile_starts s
    exact skip_eq_nil.mpr fun c hc => skip_eq_nil.mp h c (hstarts.subset hc)
  | l :: ls, s, ⟨rest, hl, hrest⟩ => by
    obtain ⟨g, hs, hg⟩ := gap_append_skip s
    obtain ⟨a, c, heq, hblank, -, -, hcont⟩ := hl.text
    rw [hs, heq, ← List.append_assoc, trimRight, dropRightWhile_append hblank, List.append_assoc,
      lexes_append hg]
    exact lexes_cons (hcont _ (.of_starts (dropRightWhile_starts rest))) (lexes_trimRight hrest)

/-! ### Tabs -/

theorem expandTabsFrom_append {a : List Char} (ha : '\t' ∉ a) (column : Nat) (s : List Char) :
    ∃ column', expandTabsFrom column (a ++ s) = a ++ expandTabsFrom column' s := by
  induction a generalizing column with
  | nil => exact ⟨column, rfl⟩
  | cons c a ih =>
    obtain ⟨hc, ha⟩ := not_or.mp (mt List.mem_cons.mpr ha)
    rw [List.cons_append, expandTabsFrom, if_neg (Ne.symm hc)]
    split
    · obtain ⟨column', heq⟩ := ih ha 0
      exact ⟨column', congrArg (c :: ·) heq⟩
    · obtain ⟨column', heq⟩ := ih ha (column + 1)
      exact ⟨column', congrArg (c :: ·) heq⟩

/-- Tabs in a gap become blanks of a gap. -/
theorem skip_expandTabsFrom (column : Nat) (s : List Char) :
    ∃ column', Grammar.skip (expandTabsFrom column s) = expandTabsFrom column' (Grammar.skip s) := by
  induction s generalizing column with
  | nil => exact ⟨column, rfl⟩
  | cons c s ih =>
    cases hgap : Grammar.isGap c with
    | false =>
      have htab : c ≠ '\t' := by
        rintro rfl
        exact nomatch hgap
      refine ⟨column, ?_⟩
      rw [Grammar.skip, Grammar.skip, List.dropWhile_cons_of_neg (by simp [hgap]), expandTabsFrom,
        if_neg htab]
      split <;> exact List.dropWhile_cons_of_neg (by simp [hgap])
    | true =>
      rw [Grammar.skip, Grammar.skip, List.dropWhile_cons_of_pos hgap, expandTabsFrom]
      split
      · obtain ⟨column', heq⟩ := ih (column + (8 - column % 8))
        refine ⟨column', (skip_append (fun d hd => ?_) _).trans heq⟩
        rw [List.eq_of_mem_replicate hd]
        rfl
      · split
        · obtain ⟨column', heq⟩ := ih 0
          exact ⟨column', (List.dropWhile_cons_of_pos hgap).trans heq⟩
        · obtain ⟨column', heq⟩ := ih (column + 1)
          exact ⟨column', (List.dropWhile_cons_of_pos hgap).trans heq⟩

theorem continues_expandTabsFrom (column : Nat) (rest : List Char) :
    Continues rest (expandTabsFrom column rest) := by
  intro c hc
  cases rest with
  | nil => exact nomatch hc
  | cons d rest =>
    rw [expandTabsFrom] at hc
    split at hc
    · have hwidth : 8 - column % 8 = 7 - column % 8 + 1 := by omega
      simp only [hwidth, List.replicate_succ] at hc
      exact .inl (Option.some.inj hc).symm
    · split at hc <;> exact .inr hc

/-- Tabs that are expanded part the same lexemes. -/
theorem lexes_expandTabsFrom : ∀ {ls : List Lexeme} {s : List Char}, Lexes ls s → ∀ column,
    Lexes ls (expandTabsFrom column s)
  | [], s, h, column => by
    obtain ⟨column', heq⟩ := skip_expandTabsFrom column s
    rw [Lexes, heq, h]
    rfl
  | l :: ls, s, ⟨rest, hl, hrest⟩, column => by
    obtain ⟨column', heq⟩ := skip_expandTabsFrom column s
    obtain ⟨a, c, hs, -, htab, -, hcont⟩ := hl.text
    obtain ⟨column'', heq'⟩ := expandTabsFrom_append htab column' rest
    rw [← lexes_skip, heq, hs, List.append_cons, heq', ← List.append_cons]
    exact lexes_cons (hcont _ (continues_expandTabsFrom _ _)) (lexes_expandTabsFrom hrest _)

end Kconfig
