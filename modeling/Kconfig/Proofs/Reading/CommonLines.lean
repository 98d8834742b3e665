import Kconfig.Proofs.Reading.Statements
/-!
Lines that both notations read alike.

Both notations look for the word that a line starts with. A word that neither of them knows starts
an assignment, which both hand on as it is. Where both know the word and the line is plain, the
first notation's tokens are the lexemes that the second one's form is matched against, whatever
became of the comment, of the blanks at the end and of the tabs.
-/
namespace Kconfig
open Text Statement
variable {expression : Infix} {w w' u : Workspace} {line s r : List Char} {given : Option Statement}

/-- The word that a line starts with. -/
def firstWord (line : List Char) : List Char := (trimLeft line).takeWhile isFirstWordChar

/-- Whether a line is `help` among blanks and dashes. -/
def isHelpLine (line : List Char) : Bool :=
  let blankOrDash := fun c => c == ' ' || c == '\t' || c == '\n' || c == '-'
  dropRightWhile blankOrDash (line.dropWhile blankOrDash) = "help".toList

/-- Whether a line is one of the notations' common part: a plain line whose first word both know
(the variable of an option written without `$`), or a line whose first word neither knows. -/
def isCommon (line : List Char) : Bool :=
  match Keyword.find? (String.ofList (firstWord line)), startsForm (firstWord line) with
  | none, false => !isHelpLine line
  | some k, true =>
    isPlain none line && (k != .option || !(uncommented none line).contains '$')
  | _, _ => false

/-! ### The first word -/

theorem isNameChar_firstWord (line : List Char) {c : Char} (h : c ∈ firstWord line) :
    Macro.isNameChar c = true :=
  isNameChar_of_isFirstWordChar (List.all_eq_true.mp List.all_takeWhile c h)

theorem not_tab_firstWord (line : List Char) : '\t' ∉ firstWord line := fun hmem =>
  ne_of_isNameChar (isNameChar_firstWord line hmem) rfl rfl

theorem plain_firstWord (line : List Char) :
    ∀ c ∈ firstWord line, c ≠ '#' ∧ c ≠ '"' ∧ c ≠ '\'' :=
  Token.plain_of_isNameChar fun _ => isNameChar_firstWord line

theorem plain_of_isBlank {c : Char} (h : isBlank c = true) : c ≠ '#' ∧ c ≠ '"' ∧ c ≠ '\'' := by
  refine ⟨?_, ?_, ?_⟩ <;>
  · rintro rfl
    exact absurd h (by decide)

/-- A line is some blanks, its first word and the rest. -/
theorem trimLeft_eq (line : List Char) : ∃ r, trimLeft line = firstWord line ++ r ∧
    ∀ c, r.head? = some c → isFirstWordChar c = false := by
  refine ⟨(trimLeft line).dropWhile isFirstWordChar, List.takeWhile_append_dropWhile.symm, ?_⟩
  intro c hc
  have hhead := List.head?_dropWhile_not isFirstWordChar (trimLeft line)
  rw [hc] at hhead
  exact hhead

theorem blanks_append_trimLeft (line : List Char) :
    ∃ g, line = g ++ trimLeft line ∧ ∀ c ∈ g, isBlank c = true :=
  ⟨line.takeWhile isBlank, List.takeWhile_append_dropWhile.symm,
    List.all_eq_true.mp List.all_takeWhile⟩

theorem head_trimLeft (line : List Char) {c : Char} (h : (trimLeft line).head? = some c) :
    isBlank c = false := by
  have hhead := List.head?_dropWhile_not isBlank line
  rw [trimLeft] at h
  rw [h] at hhead
  exact hhead

/-- Where the first notation looks for the first word. -/
theorem dropWhile_asciiBlank (line : List Char) : line.dropWhile asciiBlank = trimLeft line ∨
    (line.dropWhile asciiBlank).takeWhile Token.isCommandChar = [] := by
  induction line with
  | nil => exact .inl rfl
  | cons c line ih =>
    cases hascii : asciiBlank c with
    | true =>
      rw [trimLeft, List.dropWhile_cons_of_pos hascii,
        List.dropWhile_cons_of_pos (isBlank_of_asciiBlank hascii)]
      exact ih
    | false =>
      rw [trimLeft, List.dropWhile_cons_of_neg (by simp [hascii])]
      cases hblank : isBlank c with
      | false => exact .inl (List.dropWhile_cons_of_neg (by simp [hblank])).symm
      | true =>
        refine .inr (List.takeWhile_cons_of_neg fun hc => ?_)
        rw [isBlank_of_isNameChar (isNameChar_of_isFirstWordChar hc)] at hblank
        cases hblank

/-! ### What is left of a line in the second notation -/

theorem trimLeft_uncommented (line : List Char) :
    trimLeft (uncommented none line) = uncommented none (trimLeft line) := by
  obtain ⟨g, hg, hblanks⟩ := blanks_append_trimLeft line
  have hkept : uncommented none line = g ++ uncommented none (trimLeft line) := by
    rw [← Token.uncommented_append fun c hc => plain_of_isBlank (hblanks c hc), ← hg]
  rw [hkept]
  refine (takeWhile_until hblanks fun c hc => head_trimLeft line ?_).2
  obtain ⟨more, hmore⟩ := Token.uncommented_starts none (trimLeft line)
  rw [← hmore, List.head?_append, hc]
  rfl

/-- Without its comment and the blanks around, a line starts with its first word. -/
theorem trim_uncommented (hline : trimLeft line = firstWord line ++ r)
    (hr : ∀ c, r.head? = some c → isFirstWordChar c = false) :
    trim (uncommented none line) = firstWord line ++ trimRight (uncommented none r) ∧
      (trim (uncommented none line)).takeWhile isFirstWordChar = firstWord line := by
  have hcode : trim (uncommented none line) =
      trimRight (firstWord line ++ uncommented none r) := by
    rw [trim, trimLeft_uncommented, hline, Token.uncommented_append (plain_firstWord line)]
  have hrest : ∀ c, (trimRight (uncommented none r)).head? = some c →
      isFirstWordChar c = false := by
    intro c hc
    obtain ⟨more, hmore⟩ := (dropRightWhile_starts _).trans (Token.uncommented_starts none r)
    refine hr c ?_
    rw [← hmore, List.head?_append, ← trimRight, hc]
    rfl
  have hends : trim (uncommented none line) =
      firstWord line ++ trimRight (uncommented none r) := by
    rw [hcode]
    rcases List.eq_nil_or_concat (firstWord line) with hnil | ⟨a, c, hconcat⟩
    · rw [hnil]
      rfl
    · rw [List.concat_eq_append] at hconcat
      have hlast : isBlank c = false :=
        isBlank_of_isNameChar (isNameChar_firstWord line (by simp [hconcat]))
      rw [hconcat, List.append_assoc, List.append_assoc]
      exact dropRightWhile_append hlast _ _
  refine ⟨hends, ?_⟩
  rw [hends]
  exact (takeWhile_until (List.all_eq_true.mp List.all_takeWhile) hrest).1

/-! ### Macros -/

theorem hasMacro_iff (s : List Char) : hasMacro s = true ↔ ['$', '('] <:+: s := by
  fun_induction hasMacro s with
  | case1 s => exact ⟨fun _ => ⟨[], s, rfl⟩, fun _ => rfl⟩
  | case2 c s hnot ih =>
    rw [ih, List.infix_cons_iff]
    refine ⟨.inr, fun h => h.resolve_left fun ⟨t, ht⟩ => ?_⟩
    cases ht
    exact hnot t rfl rfl
  | case3 => simp

/-- A plain text has no macros before its comment. -/
theorem not_macro_of_plain : ∀ {quote : Option Char} {s : List Char}, isPlain quote s = true →
    ¬ ['$', '('] <:+: uncommented quote s
  | _, [], _ => by simp [uncommented]
  | quote, c :: s, h => by
    have hcons : ∀ {quote' : Option Char}, isPlain quote' s = true →
        (c == '$' && s.head? == some '(') = false →
        ¬ ['$', '('] <:+: c :: uncommented quote' s := by
      intro quote' hplain hcall hinfix
      rcases List.infix_cons_iff.mp hinfix with ⟨t, ht⟩ | hinfix
      · injection ht with hc ht
        obtain ⟨more, hmore⟩ := Token.uncommented_starts quote' s
        rw [← hmore, ← ht, ← hc] at hcall
        cases hcall
      · exact not_macro_of_plain hplain hinfix
    cases quote with
    | none =>
      by_cases hhash : c = '#'
      · rw [uncommented, if_pos hhash]
        simp
      · simp only [isPlain, beq_eq_false_iff_ne.mpr hhash, Bool.false_or, Bool.and_eq_true,
          Bool.not_eq_true'] at h
        rw [uncommented, if_neg hhash]
        exact hcons h.2 h.1.1
    | some q =>
      simp only [isPlain, Bool.and_eq_true, Bool.not_eq_true'] at h
      obtain ⟨⟨⟨hcall, hslash⟩, -⟩, hplain⟩ := h
      rw [Token.uncommented_open (bne_iff_ne.mp hslash)]
      exact hcons hplain hcall

theorem hasMacro_trim (h : isPlain none line = true) :
    hasMacro (trim (uncommented none line)) = false := by
  refine Bool.eq_false_iff.mpr fun hcall => not_macro_of_plain h ?_
  exact ((hasMacro_iff _).mp hcall).trans
    ((dropRightWhile_starts _).isInfix.trans (List.dropWhile_suffix _).isInfix)

/-! ### Both notations -/

/-- A blank line and a comment start with no word. -/
theorem firstWord_eq_nil (h : (allBlank line || (trimLeft line).head? == some '#') = true) :
    firstWord line = [] := by
  rw [Bool.or_eq_true, beq_iff_eq] at h
  rcases h with h | h
  · rw [allBlank, Bool.and_eq_true, List.all_eq_true] at h
    have hnil := (takeWhile_until (t := []) h.2 fun _ hhead => by cases hhead).2
    rw [List.append_nil] at hnil
    rw [firstWord, trimLeft, hnil]
    rfl
  · obtain ⟨more, hmore⟩ := List.head?_eq_some_iff.mp h
    rw [firstWord, hmore]
    rfl

/-- What a line is in the first notation. -/
theorem readTokenLine_ok (hline : trimLeft line = firstWord line ++ r)
    (h : readTokenLine line w = .ok given w') : ∃ u, Reading.beginLine line w = .ok () u ∧
      (firstWord line = [] ∧ given = none ∧ w' = u ∨
        firstWord line ≠ [] ∧ line.dropWhile asciiBlank = trimLeft line ∧
        ((∃ k ts, Keyword.find? (String.ofList (firstWord line)) = some k ∧
            given = some (ofKeyword k ts) ∧
            Token.readRest (.word k) ((r.dropWhile asciiBlank).length + 1) (.word k)
              (r.dropWhile asciiBlank) u = .ok ts w') ∨
          Keyword.find? (String.ofList (firstWord line)) = none ∧
            (isHelpLine line = false → given = none ∧ Macro.readAssignment line u = .ok () w'))) := by
  rw [readTokenLine, map_eq_pure_bind] at h
  obtain ⟨ts, w₁, h, hgiven⟩ := bind_ok h
  cases hgiven
  obtain ⟨_, u, hbegin, h⟩ := bind_ok h
  refine ⟨u, hbegin, ?_⟩
  dsimp only at h
  have hempty : ∀ v, (if allBlank line || (trimLeft line).head? == some '#' then pure []
      else Reading.problem .unknownStart : Reading (List Token)) v = .ok ts w' →
      firstWord line = [] ∧ ts = [] ∧ w' = v := by
    intro v hv
    split at hv
    · next hblank =>
      cases hv
      exact ⟨firstWord_eq_nil hblank, rfl, rfl⟩
    · exact nomatch hv
  rcases dropWhile_asciiBlank line with hstart | hstart
  · rw [hstart] at h
    split at h
    · obtain ⟨hnil, rfl, rfl⟩ := hempty u h
      exact .inl ⟨hnil, rfl, rfl⟩
    · next hword =>
      change ¬ (firstWord line).isEmpty at hword
      refine .inr ⟨fun hnil => hword (by rw [hnil]; rfl), hstart, ?_⟩
      rw [show (trimLeft line).takeWhile Token.isCommandChar = firstWord line from rfl] at h
      cases hk : Keyword.find? (String.ofList (firstWord line)) with
      | some k =>
        rw [hk, hline, List.drop_left] at h
        obtain ⟨ts, u', hts, h⟩ := bind_ok h
        cases h
        exact .inl ⟨k, ts, rfl, rfl, hts⟩
      | none =>
        rw [hk] at h
        refine .inr ⟨rfl, fun hhelp => ?_⟩
        dsimp only at h
        rw [if_neg (of_decide_eq_false hhelp)] at h
        obtain ⟨_, u', hassign, h⟩ := bind_ok h
        cases h
        exact ⟨rfl, hassign⟩
  · rw [hstart] at h
    obtain ⟨hnil, rfl, rfl⟩ := hempty u h
    exact .inl ⟨hnil, rfl, rfl⟩

/-- A line without macros whose first word asks for a form has to match the grammar. -/
theorem readFormLine_form (hline : trimLeft line = firstWord line ++ r)
    (hr : ∀ c, r.head? = some c → isFirstWordChar c = false) (hword : firstWord line ≠ [])
    (hstarts : startsForm (firstWord line) = true)
    (hcall : hasMacro (trim (uncommented none line)) = false)
    (hbegin : Reading.beginLine line w = .ok () u) :
    readFormLine expression line w =
      finishForm expression (problemAfter (String.ofList (firstWord line)))
        (firstWord line ++ trimRight (uncommented none r)) u := by
  obtain ⟨hcode, htake⟩ := trim_uncommented hline hr
  have hnotEmpty : (trim (uncommented none line)).isEmpty = false := by
    rw [hcode]
    exact List.isEmpty_eq_false_iff.mpr fun hnil => hword (List.append_eq_nil_iff.mp hnil).1
  rw [readFormLine, bind_apply, hbegin]
  dsimp only
  rw [htake, hnotEmpty, if_neg nofun, List.isEmpty_eq_false_iff.mpr hword, if_neg nofun, hstarts,
    if_pos rfl, hcall, if_neg nofun, pure_bind, hcode]
  rfl

/-- What a line is in the second notation. -/
theorem readFormLine_ok (hline : trimLeft line = firstWord line ++ r)
    (hr : ∀ c, r.head? = some c → isFirstWordChar c = false)
    (h : readFormLine expression line w = .ok given w') :
    ∃ u, Reading.beginLine line w = .ok () u ∧
      (firstWord line = [] ∧ given = none ∧ w' = u ∨
        firstWord line ≠ [] ∧
        (startsForm (firstWord line) = false ∧ given = none ∧
            Macro.readAssignment line u = .ok () w' ∨
          startsForm (firstWord line) = true ∧
            (hasMacro (trim (uncommented none line)) = false → w' = u ∧
              ∃ captured, given = some (ofCaptured captured) ∧
                Form.parse? expression (firstWord line ++ trimRight (uncommented none r)) =
                  some captured))) := by
  obtain ⟨_, u, hbegin, hrest⟩ := bind_ok h
  refine ⟨u, hbegin, ?_⟩
  dsimp only at hrest
  obtain ⟨hcode, htake⟩ := trim_uncommented hline hr
  rw [htake] at hrest
  by_cases hword : firstWord line = []
  · refine .inl ⟨hword, ?_⟩
    split at hrest
    · cases hrest
      exact ⟨rfl, rfl⟩
    · rw [hword] at hrest
      exact nomatch hrest
  · refine .inr ⟨hword, ?_⟩
    cases hstarts : startsForm (firstWord line) with
    | false =>
      have hnotEmpty : (trim (uncommented none line)).isEmpty = false := by
        rw [hcode]
        exact List.isEmpty_eq_false_iff.mpr fun hnil => hword (List.append_eq_nil_iff.mp hnil).1
      rw [hnotEmpty, if_neg nofun, List.isEmpty_eq_false_iff.mpr hword, if_neg nofun, hstarts,
        if_neg nofun] at hrest
      obtain ⟨_, u', hassign, hrest⟩ := bind_ok hrest
      cases hrest
      exact .inl ⟨rfl, rfl, hassign⟩
    | true =>
      refine .inr ⟨rfl, fun hcall => ?_⟩
      rw [readFormLine_form hline hr hword hstarts hcall hbegin, finishForm] at h
      cases hcaptured : Form.parse? expression (firstWord line ++ trimRight (uncommented none r)) with
      | some captured =>
        rw [hcaptured] at h
        cases h
        exact ⟨rfl, captured, rfl, rfl⟩
      | none =>
        rw [hcaptured] at h
        exact nomatch h

/-- What comes after the first word goes on to be none of it. -/
theorem isFirstWordChar_of_expandTabs {column : Nat} {c : Char}
    (hr : ∀ c, r.head? = some c → isFirstWordChar c = false)
    (hc : (expandTabsFrom column (trimRight (uncommented none r))).head? = some c) :
    isFirstWordChar c = false := by
  rcases continues_expandTabsFrom column _ c hc with rfl | hc
  · rfl
  · obtain ⟨more, hmore⟩ := (dropRightWhile_starts (p := isBlank) _).trans
      (Token.uncommented_starts none r)
    refine hr c ?_
    rw [← hmore, List.head?_append, ← trimRight, hc]
    rfl

theorem mem_of_mem_expandTabsFrom {c : Char} (hc : c ≠ ' ') : ∀ {s : List Char} {column : Nat},
    c ∈ expandTabsFrom column s → c ∈ s
  | [], _, h => h
  | d :: s, column, h => by
    rw [expandTabsFrom] at h
    split at h
    · rcases List.mem_append.mp h with h | h
      · exact absurd (List.eq_of_mem_replicate h) hc
      · exact List.mem_cons_of_mem _ (mem_of_mem_expandTabsFrom hc h)
    · split at h <;>
      · rcases List.mem_cons.mp h with rfl | h
        · exact List.mem_cons_self ..
        · exact List.mem_cons_of_mem _ (mem_of_mem_expandTabsFrom hc h)

/-- The rest of a line without its comment is the end of the line without it. -/
theorem suffix_uncommented (hline : trimLeft line = firstWord line ++ r) :
    uncommented none r <:+ uncommented none line := by
  have hsuffix : trimLeft (uncommented none line) <:+ uncommented none line :=
    List.dropWhile_suffix _
  rw [trimLeft_uncommented, hline, Token.uncommented_append (plain_firstWord line)] at hsuffix
  exact (List.suffix_append _ _).trans hsuffix

/-- The tokens after a keyword are those of the lexemes of the rest of the line. -/
theorem lexes_rest {k : Keyword} {ts : List Token} (hline : trimLeft line = firstWord line ++ r)
    (hplain : isPlain none line = true)
    (h : Token.readRest (.word k) ((r.dropWhile asciiBlank).length + 1) (.word k)
      (r.dropWhile asciiBlank) u = .ok ts w') :
    ∃ ls, Lexes ls (uncommented none r) ∧ tokensOf (.word k) (.word k) ls u = .ok ts w' := by
  obtain ⟨g, hg, hblanks⟩ := blanks_append_trimLeft line
  rw [hg, hline] at hplain
  have hrest := Token.isPlain_append (plain_firstWord line)
    (Token.isPlain_append (fun c hc => plain_of_isBlank (hblanks c hc)) hplain)
  obtain ⟨hascii, -, hskipped, hsame⟩ := Token.skip_of_plain hrest
  rw [hascii] at h
  obtain ⟨ls, hls, htokens⟩ := Token.readRest_ok (Nat.lt_succ_self _) hskipped h
  refine ⟨ls, ?_, htokens⟩
  rw [← lexes_skip, hsame, lexes_skip]
  exact hls

/-- A common line that both notations accept is a statement in both or in none: the parts of the
first one's statement are ahead, since its names are registered already. -/
theorem lines_agree (hx : expression.Groups) {given' : Option Statement} (hw : w.isOpen = true)
    (hcommon : isCommon line = true) (h₁ : readTokenLine line w = .ok given' w')
    (h₂ : readFormLine expression line w = .ok given u) : given' = none ∧ given = none ∧ w' = u ∨
      ∃ statement' statement, given' = some statement' ∧ given = some statement ∧
        statement'.IsAhead u w' statement := by
  obtain ⟨r, hline, hr⟩ := trimLeft_eq line
  obtain ⟨v, hbegin, h₁⟩ := readTokenLine_ok hline h₁
  obtain ⟨v', hbegin', h₂⟩ := readFormLine_ok hline hr h₂
  obtain ⟨-, rfl⟩ := ok_unique hbegin hbegin'
  rcases h₁ with ⟨hnil, rfl, rfl⟩ | ⟨hword, hstart, h₁⟩
  · rcases h₂ with ⟨-, rfl, rfl⟩ | ⟨hword, -⟩
    · exact .inl ⟨rfl, rfl, rfl⟩
    · exact absurd hnil hword
  rcases h₂ with ⟨hnil, -⟩ | ⟨-, h₂⟩
  · exact absurd hnil hword
  unfold isCommon at hcommon
  rcases h₁ with ⟨k, ts, hk, rfl, hts⟩ | ⟨hk, h₁⟩
  · rcases h₂ with ⟨hstarts, -⟩ | ⟨hstarts, h₂⟩
    · rw [hk, hstarts] at hcommon
      exact nomatch hcommon
    · rw [hk, hstarts] at hcommon
      rw [Bool.and_eq_true, Bool.or_eq_true, bne_iff_ne, Bool.not_eq_true',
        List.contains_eq_mem, decide_eq_false_iff_not] at hcommon
      obtain ⟨hplain, hdollar⟩ := hcommon
      obtain ⟨rfl, captured, rfl, hparse⟩ := h₂ (hasMacro_trim hplain)
      obtain ⟨column, hiff⟩ := Form.parse?_word expression (not_tab_firstWord line)
        (trimRight (uncommented none r))
      obtain ⟨rest, hcaptured, hend⟩ := (hiff captured).mp hparse
      obtain ⟨ls, hls, htokens⟩ := lexes_rest hline hplain hts
      have hopen : u.isOpen = true := ((Reading.aloof_beginLine _).aside _ _ _ hbegin).2.trans hw
      refine .inr ⟨_, _, rfl, rfl, isAhead_of_firstOf hx hk
        ⟨hstarts, fun c hc => List.all_eq_true.mp List.all_takeWhile c hc, fun c hc => ?_⟩ hcaptured
        hend (lexes_expandTabsFrom (lexes_trimRight hls) column) htokens
        (fun hoption hmem => ?_) hopen⟩
      · exact isFirstWordChar_of_expandTabs hr hc
      · refine (hdollar.resolve_left fun hne => hne hoption) ?_
        have hmem' := (dropRightWhile_starts _).subset (mem_of_mem_expandTabsFrom (by decide) hmem)
        have hsuffix : uncommented none r <:+ uncommented none line := suffix_uncommented hline
        exact hsuffix.subset hmem'
  · rcases h₂ with ⟨hstarts, rfl, hassign⟩ | ⟨hstarts, h₂⟩
    · rw [hk, hstarts] at hcommon
      obtain ⟨rfl, hassign'⟩ := h₁ (by simpa using hcommon)
      exact .inl ⟨rfl, rfl, (ok_unique hassign' hassign).2⟩
    · rw [hk, hstarts] at hcommon
      exact nomatch hcommon

end Kconfig
