import Kconfig.Proofs.Reading.Quoted
import Kconfig.Proofs.Reading.Scanning
import Kconfig.Reading.TokenLine
/-!
The tokens of a plain text are those of its lexemes.

The first notation reads a plain text from left to right and makes a token of every lexeme. Which
token that is hangs on the one before it, and registers a symbol at most.
-/
namespace Kconfig
open Text

/-- The token of a lexeme; `first` is the keyword of the line, `previous` the token before. -/
def Lexeme.token (first previous : Token) : Lexeme → Reading Token
  | .name n =>
    let name := String.ofList n
    match Keyword.find? name with
    | some k => pure (.word k)
    | none =>
      if previous.expectsText then do
        if previous ≠ .word .choice then
          Reading.warnHere (.unquotedWord name (trimmed (← get).place.spot.text))
        pure (.text name)
      else do pure (.symbol (← Reading.word name))
  | .quoted b => do
    let body := String.ofList (← Reading.expandEnv b)
    if previous.expectsText || first == .word .option then pure (.text body)
    else pure (.symbol (← Reading.constant body))
  | .sign t => pure t

/-- The tokens of lexemes. -/
def tokensOf (first : Token) : Token → List Lexeme → Reading (List Token)
  | _, [] => pure []
  | previous, l :: ls => do
    let t ← l.token first previous
    let ts ← tokensOf first t ls
    pure (t :: ts)

namespace Token
open Statement (uncommented)
variable {w w' : Workspace} {s rest : List Char} {c : Char}

/-! ### Plain texts -/

theorem isPlain_cons (h : isPlain none (c :: s) = true) (hc : c ≠ '#') :
    (c = '$' → s.head? ≠ some '(') ∧ (isBlank c = true → Grammar.isGap c = true) ∧
      isPlain (if c = '"' || c = '\'' then some c else none) s = true := by
  simp only [isPlain, beq_eq_false_iff_ne.mpr hc, Bool.false_or, Bool.and_eq_true] at h
  obtain ⟨⟨hcall, hblank⟩, hrest⟩ := h
  refine ⟨fun hdollar hhead => ?_, fun hc => ?_, hrest⟩
  · rw [hdollar, hhead] at hcall
    exact nomatch hcall
  · rw [hc] at hblank
    exact hblank

theorem isPlain_tail (h : isPlain none (c :: s) = true) (hc : c ≠ '#') (hdouble : c ≠ '"')
    (hsingle : c ≠ '\'') : isPlain none s = true := by
  have hrest := (isPlain_cons h hc).2.2
  rw [if_neg (by simp [hdouble, hsingle])] at hrest
  exact hrest

/-- Blanks of any kind before a plain text are a gap. -/
theorem skip_of_plain : ∀ {s : List Char}, isPlain none s = true →
    s.dropWhile asciiBlank = Grammar.skip s ∧ trimLeft s = Grammar.skip s ∧
      isPlain none (Grammar.skip s) = true ∧
      Grammar.skip (uncommented none s) = Grammar.skip (uncommented none (Grammar.skip s))
  | [], _ => ⟨rfl, rfl, rfl, rfl⟩
  | c :: s, h => by
    cases hgap : Grammar.isGap c with
    | true =>
      have hne : ∀ {d}, Grammar.isGap d = false → c ≠ d := by
        rintro _ hd rfl
        rw [hgap] at hd
        exact nomatch hd
      have hs := isPlain_tail h (hne rfl) (hne rfl) (hne rfl)
      obtain ⟨hascii, htrim, hplain, hskip⟩ := skip_of_plain hs
      have hblank := asciiBlank_of_isGap hgap
      rw [trimLeft, Grammar.skip, List.dropWhile_cons_of_pos hblank,
        List.dropWhile_cons_of_pos (isBlank_of_asciiBlank hblank), List.dropWhile_cons_of_pos hgap]
      refine ⟨hascii, htrim, hplain, ?_⟩
      rw [uncommented, if_neg (hne rfl), if_neg (by simp [hne (d := '"') rfl, hne (d := '\'') rfl]),
        Grammar.skip, List.dropWhile_cons_of_pos hgap]
      exact hskip
    | false =>
      have hself : Grammar.skip (c :: s) = c :: s := List.dropWhile_cons_of_neg (by simp [hgap])
      by_cases hhash : c = '#'
      · subst hhash
        rw [hself]
        exact ⟨rfl, rfl, h, rfl⟩
      · have hblank : isBlank c = false := by
          refine Bool.eq_false_iff.mpr fun hblank => ?_
          rw [(isPlain_cons h hhash).2.1 hblank] at hgap
          exact nomatch hgap
        have hascii : asciiBlank c = false := by
          refine Bool.eq_false_iff.mpr fun hascii => ?_
          rw [isBlank_of_asciiBlank hascii] at hblank
          exact nomatch hblank
        rw [hself]
        exact ⟨List.dropWhile_cons_of_neg (by simp [hascii]),
          List.dropWhile_cons_of_neg (by simp [hblank]), h, rfl⟩

/-- Characters that neither quote nor begin a comment are left alone. -/
theorem uncommented_append : ∀ {a : List Char}, (∀ c ∈ a, c ≠ '#' ∧ c ≠ '"' ∧ c ≠ '\'') →
    uncommented none (a ++ s) = a ++ uncommented none s
  | [], _ => rfl
  | c :: a, ha => by
    obtain ⟨⟨hhash, hdouble, hsingle⟩, ha⟩ := List.forall_mem_cons.mp ha
    rw [List.cons_append, uncommented, if_neg hhash, if_neg (by simp [hdouble, hsingle]),
      uncommented_append ha]
    rfl

/-- What comes after such characters in a plain text is plain. -/
theorem isPlain_append : ∀ {a : List Char}, (∀ c ∈ a, c ≠ '#' ∧ c ≠ '"' ∧ c ≠ '\'') →
    isPlain none (a ++ s) = true → isPlain none s = true
  | [], _, h => h
  | c :: a, ha, h => by
    obtain ⟨⟨hhash, hdouble, hsingle⟩, ha⟩ := List.forall_mem_cons.mp ha
    exact isPlain_append ha (isPlain_tail h hhash hdouble hsingle)

theorem plain_of_isNameChar {n : List Char} (h : ∀ c ∈ n, Macro.isNameChar c = true) :
    ∀ c ∈ n, c ≠ '#' ∧ c ≠ '"' ∧ c ≠ '\'' := fun c hc =>
  ⟨ne_of_isNameChar (h c hc) rfl, ne_of_isNameChar (h c hc) rfl, ne_of_isNameChar (h c hc) rfl⟩

/-- Taking off the comment takes nothing else. -/
theorem uncommented_starts : ∀ (quote : Option Char) (s : List Char), uncommented quote s <+: s
  | _, [] => by simp [uncommented]
  | none, c :: s => by
    rw [uncommented]
    split
    · exact List.nil_prefix
    · exact List.cons_prefix_cons.mpr ⟨rfl, uncommented_starts _ s⟩
  | some q, [c] => by
    unfold uncommented
    dsimp only
    split <;> exact List.cons_prefix_cons.mpr ⟨rfl, by simp [uncommented]⟩
  | some q, c :: d :: s => by
    unfold uncommented
    dsimp only
    split
    · exact List.cons_prefix_cons.mpr ⟨rfl, List.cons_prefix_cons.mpr ⟨rfl, uncommented_starts _ s⟩⟩
    · exact List.cons_prefix_cons.mpr ⟨rfl, uncommented_starts _ (d :: s)⟩

theorem uncommented_open {q : Char} (hc : c ≠ '\\') : uncommented (some q) (c :: s) =
    c :: uncommented (if c = q then none else some q) s := by
  rw [Statement.uncommented.eq_def]
  exact if_neg hc

/-- A body without backslashes ends at its quote. -/
theorem uncommented_quoted {q : Char} : ∀ {b : List Char}, q ∉ b → '\\' ∉ b →
    q ≠ '\\' → uncommented (some q) (b ++ q :: s) = b ++ q :: uncommented none s
  | [], _, _, hq => by
    rw [List.nil_append, uncommented_open hq, if_pos rfl]
    rfl
  | c :: b, hb, hslash, hq => by
    obtain ⟨hc, hb⟩ := not_or.mp (mt List.mem_cons.mpr hb)
    obtain ⟨hc', hslash⟩ := not_or.mp (mt List.mem_cons.mpr hslash)
    rw [List.cons_append, uncommented_open (Ne.symm hc'), if_neg (Ne.symm hc),
      uncommented_quoted hb hslash hq]
    rfl

/-- A name in a plain text has no macros. -/
theorem readPieces_name (hs : ∀ c, s.head? = some c → Macro.isNameChar c = false) :
    ∀ {n : List Char}, (∀ c ∈ n, Macro.isNameChar c = true) → isPlain none (n ++ s) = true →
      Macro.readPieces Macro.isNameChar (n ++ s) = (n.map .char, s)
  | [], _, _ => by
    cases s with
    | nil =>
      rw [List.nil_append, Macro.readPieces]
      rfl
    | cons c s =>
      have hc := hs c rfl
      rw [List.nil_append, Macro.readPieces, hc]
      · rfl
      · rintro r rfl -
        cases hc
  | c :: n, hn, h => by
    obtain ⟨hc, hn⟩ := List.forall_mem_cons.mp hn
    have hhash : c ≠ '#' := ne_of_isNameChar hc rfl
    have hrest := isPlain_tail h hhash (ne_of_isNameChar hc rfl) (ne_of_isNameChar hc rfl)
    rw [List.cons_append, Macro.readPieces, if_pos hc, readPieces_name hs hn hrest]
    · rfl
    · exact fun r hdollar hr => (isPlain_cons h hhash).1 hdollar (congrArg List.head? hr)

/-- Pieces without macros stand for their characters. -/
theorem expand_chars (s : List Char) : Macro.expand (s.map .char) w = .ok s w := by
  unfold Macro.expand
  induction s with
  | nil => rfl
  | cons c s ih =>
    rw [List.map_cons, Macro.expandPieces, bind_apply]
    show (Macro.expandPieces Macro.call [] (s.map .char) >>= fun rest => pure ([c] ++ rest)) w = _
    rw [bind_apply, ih]
    rfl

/-- A plain text after an opening quote has its end, or none. -/
theorem plain_quoted {q : Char} : ∀ {s : List Char}, isPlain (some q) s = true →
    (∃ b rest, s = b ++ q :: rest ∧ q ∉ b ∧ '\\' ∉ b ∧ '\t' ∉ b ∧ isPlain none rest = true ∧
      Macro.readQuoted q s = (b.map .char, some rest)) ∨
    q ∉ s ∧ (Macro.readQuoted q s).2 = none
  | [], _ => .inr ⟨List.not_mem_nil, by rw [Macro.readQuoted]⟩
  | c :: s, h => by
    simp only [isPlain, Bool.and_eq_true] at h
    obtain ⟨⟨⟨hcall, hslash⟩, htab⟩, hrest⟩ := h
    have hslash' : c ≠ '\\' := bne_iff_ne.mp hslash
    have htab' : c ≠ '\t' := bne_iff_ne.mp htab
    have hread : Macro.readQuoted q (c :: s) = if c = q then ([], some s) else
        let r := Macro.readQuoted q s
        (.char c :: r.1, r.2) := by
      rw [Macro.readQuoted]
      · rintro r rfl rfl
        cases hcall
      · exact fun hc _ => hslash' hc
      · exact fun _ _ hc _ => hslash' hc
    rw [hread]
    by_cases hc : c = q
    · rw [if_pos hc] at hrest ⊢
      exact .inl ⟨[], s, by rw [hc]; rfl, List.not_mem_nil, List.not_mem_nil, List.not_mem_nil,
        hrest, rfl⟩
    · rw [if_neg hc] at hrest ⊢
      rcases plain_quoted hrest with ⟨b, rest, rfl, hb, hbslash, hbtab, hplain, heq⟩ | ⟨hs, hnone⟩
      · refine .inl ⟨c :: b, rest, rfl, ?_, ?_, ?_, hplain, by rw [heq]; rfl⟩
        · exact List.not_mem_cons_of_ne_of_not_mem (Ne.symm hc) hb
        · exact List.not_mem_cons_of_ne_of_not_mem hslash'.symm hbslash
        · exact List.not_mem_cons_of_ne_of_not_mem htab'.symm hbtab
      · exact .inr ⟨List.not_mem_cons_of_ne_of_not_mem (Ne.symm hc) hs, hnone⟩

/-! ### One lexeme -/

/-- The first lexeme of a text and its token; `rest` comes after it and the gap behind it. -/
def Begins (first previous : Token) (s : List Char) (w : Workspace) (t : Token) (rest : List Char)
    (w' : Workspace) : Prop :=
  ∃ (l : Lexeme) (more : List Char), l.Starts (uncommented none s) (uncommented none more) ∧
    rest = Grammar.skip more ∧ isPlain none more = true ∧ more.length < s.length ∧ l.token first previous w = .ok t w'

variable {first previous t : Token}

theorem readWord_ok {n : List Char} (hn : n ≠ []) (hchars : ∀ c ∈ n, Macro.isNameChar c = true)
    (hs : ∀ c, s.head? = some c → Macro.isNameChar c = false) (hplain : isPlain none (n ++ s) = true)
    (h : readWord previous n (n ++ s) w = .ok (t, rest) w') :
    Begins first previous (n ++ s) w t rest w' := by
  have hrest := isPlain_append (plain_of_isNameChar hchars) hplain
  have huncommented := uncommented_append (s := s) (plain_of_isNameChar hchars)
  have hpieces := readPieces_name hs hchars hplain
  obtain ⟨hascii, htrim, -, -⟩ := skip_of_plain hrest
  have hhead : ∀ c, (uncommented none s).head? = some c → Macro.isNameChar c = false := by
    intro c hc
    obtain ⟨more, hmore⟩ := uncommented_starts none s
    refine hs c ?_
    rw [← hmore, List.head?_append, hc]
    rfl
  have hlength : s.length < (n ++ s).length := by
    rw [List.length_append]
    exact Nat.lt_add_of_pos_left (List.length_pos_iff.mpr hn)
  suffices rest = Grammar.skip s ∧ (Lexeme.name n).token first previous w = .ok t w' from
    ⟨.name n, s, ⟨huncommented, hn, hchars, hhead⟩, this.1, hrest, hlength, this.2⟩
  have hread : Macro.readName (n ++ s) w = .ok (n, Grammar.skip s) w := by
    obtain ⟨c, n, rfl⟩ := List.exists_cons_of_ne_nil hn
    have hc : isBlank c = false := isBlank_of_isNameChar (hchars c (List.mem_cons_self ..))
    have htrim' : (trim (c :: n)).isEmpty = false := by
      rw [trim, trimLeft, List.dropWhile_cons_of_neg (by simp [hc])]
      exact congrArg List.isEmpty (dropRightWhile_append hc [] n)
    unfold Macro.readName
    rw [hpieces]
    dsimp only
    rw [bind_apply, expand_chars]
    dsimp only
    rw [htrim', htrim]
    rfl
  unfold readWord at h
  unfold Lexeme.token
  rw [List.drop_left, hascii] at h
  dsimp only at h ⊢
  cases hk : Keyword.find? (String.ofList n) with
  | some k =>
    rw [hk] at h
    cases h
    exact ⟨rfl, rfl⟩
  | none =>
    rw [hk] at h
    dsimp only at h ⊢
    split at h
    · next htext =>
      rw [if_pos htext]
      split at h
      · next hchoice =>
        obtain ⟨_, w₁, hget, h⟩ := bind_ok h
        obtain ⟨_, w₂, hwarn, h⟩ := bind_ok h
        cases hget
        cases hwarn
        cases h
        rw [if_pos hchoice]
        exact ⟨rfl, rfl⟩
      · next hchoice =>
        rw [if_neg hchoice]
        cases h
        exact ⟨rfl, rfl⟩
    · next htext =>
      rw [if_neg htext]
      split at h
      · rw [bind_apply, hread] at h
        obtain ⟨s, w₁, hword, h⟩ := bind_ok h
        cases h
        refine ⟨rfl, ?_⟩
        rw [bind_apply, hword]
        rfl
      · obtain ⟨s, w₁, hword, h⟩ := bind_ok h
        cases h
        refine ⟨rfl, ?_⟩
        rw [bind_apply, hword]
        rfl

/-- A quoted text in a plain text is its body, whether its line has references or not. -/
theorem readQuoted_ok {q : Char} {text : String} (hquote : q = '"' ∨ q = '\'')
    (hplain : isPlain (some q) s = true) (h : readQuoted q s w = .ok (text, rest) w') :
    ∃ b, s = b ++ q :: rest ∧ q ∉ b ∧ '\\' ∉ b ∧ '\t' ∉ b ∧ isPlain none rest = true ∧
      (do pure (String.ofList (← Reading.expandEnv b)) : Reading String) w = .ok text w' := by
  rw [readQuoted_eq hquote] at h
  obtain ⟨⟨body, more⟩, w₁, hread, h⟩ := bind_ok h
  obtain ⟨value, w₂, hvalue, h⟩ := bind_ok h
  cases h
  unfold Macro.readString at hread
  dsimp only at hread
  rcases plain_quoted hplain with ⟨b, r, rfl, hb, hslash, htab, hr, heq⟩ | ⟨-, hnone⟩
  · rw [heq] at hread
    dsimp only at hread
    rw [bind_apply, expand_chars] at hread
    cases hread
    refine ⟨body, rfl, hb, hslash, htab, hr, ?_⟩
    rw [bind_apply, hvalue]
    rfl
  · obtain ⟨_, w₃, -, hread⟩ := bind_ok hread
    rw [hnone] at hread
    exact nomatch hread

theorem readOther_ok (hplain : isPlain none (c :: s) = true) (hhash : c ≠ '#')
    (h : readOther first previous c s w = .ok (t, rest) w') :
    Begins first previous (c :: s) w t rest w' := by
  unfold readOther at h
  split at h
  · next hquote =>
    obtain ⟨⟨body, more⟩, w₁, hread, h⟩ := bind_ok h
    dsimp only at h
    have hopen := (isPlain_cons hplain hhash).2.2
    rw [if_pos (by simpa using hquote)] at hopen
    obtain ⟨b, hs, hb, hslash, htab, hmore, hbody⟩ := readQuoted_ok hquote hopen hread
    have huncommented : uncommented none (c :: s) = c :: b ++ c :: uncommented none more := by
      rw [hs, uncommented, if_neg hhash, if_pos (by simpa using hquote),
        uncommented_quoted hb hslash (by rcases hquote with rfl | rfl <;> decide)]
      rfl
    suffices rest = trimLeft more ∧ (Lexeme.quoted b).token first previous w = .ok t w' by
      refine ⟨.quoted b, more, ?_, this.1.trans (skip_of_plain hmore).2.1, hmore, ?_, this.2⟩
      · rw [huncommented]
        exact ⟨c, hquote, rfl, hb, hslash, htab⟩
      · rw [hs, List.length_cons, List.length_append, List.length_cons]
        omega
    obtain ⟨value, w₂, hvalue, hbody⟩ := bind_ok hbody
    cases hbody
    unfold Lexeme.token
    dsimp only
    rw [bind_apply, hvalue]
    dsimp only
    split at h
    · next htext =>
      cases h
      rw [if_pos htext]
      exact ⟨rfl, rfl⟩
    · next htext =>
      rw [if_neg htext]
      obtain ⟨s, w₂, hconstant, h⟩ := bind_ok h
      cases h
      refine ⟨rfl, ?_⟩
      rw [bind_apply, hconstant]
      rfl
  · next hquote =>
    cases hop : operator? (c :: s) with
    | none =>
      rw [hop] at h
      exact nomatch h
    | some p =>
      rw [hop] at h
      cases h
      obtain ⟨a, d, hs, hchars, hcont⟩ := starts_sign hop
      have hchars' := fun e he => (of_isSignChar (hchars e he)).2.2
      rw [hs, List.append_cons] at hplain
      have hrest := isPlain_append hchars' hplain
      refine ⟨.sign p.1, p.2, ?_, (skip_of_plain hrest).2.1, hrest, ?_, rfl⟩
      · rw [hs, List.append_cons, uncommented_append hchars', ← List.append_cons]
        exact hcont _ (.of_starts (uncommented_starts _ _))
      · rw [hs, List.length_append, List.length_cons]
        omega

/-! ### All lexemes -/

/-- The tokens that are read from a plain text are those of its lexemes. -/
theorem readRest_ok : ∀ {fuel : Nat} {previous : Token} {s : List Char} {w w' : Workspace}
    {ts : List Token}, s.length < fuel → isPlain none s = true →
    readRest first fuel previous s w = .ok ts w' →
      ∃ ls, Lexes ls (uncommented none s) ∧ tokensOf first previous ls w = .ok ts w'
  | 0, _, _, _, _, _, hfuel, _, _ => absurd hfuel (Nat.not_lt_zero _)
  | _ + 1, _, [], _, _, _, _, _, h => by
    cases h
    exact ⟨[], rfl, rfl⟩
  | fuel + 1, previous, c :: s, w, w', ts, hfuel, hplain, h => by
    rw [readRest] at h
    dsimp only at h
    split at h
    · next hhash =>
      cases h
      subst hhash
      exact ⟨[], rfl, rfl⟩
    · next hhash =>
      have hnext : ∀ step : Reading (Token × List Char),
          (∀ t rest w₁, step w = .ok (t, rest) w₁ →
            Begins first previous (c :: s) w t rest w₁) →
          (do
            let read ← step
            let tokens ← readRest first fuel read.1 read.2
            pure (read.1 :: tokens)) w = .ok ts w' →
          ∃ ls, Lexes ls (uncommented none (c :: s)) ∧
            tokensOf first previous ls w = .ok ts w' := by
        intro step hbegins h
        obtain ⟨⟨t, rest⟩, w₁, hstep, h⟩ := bind_ok h
        obtain ⟨ts, w₂, hrest, h⟩ := bind_ok h
        cases h
        obtain ⟨l, more, hstarts, rfl, hmore, hlength, htoken⟩ := hbegins t rest w₁ hstep
        obtain ⟨-, -, hskipped, hsame⟩ := skip_of_plain hmore
        have hle := (List.dropWhile_sublist Grammar.isGap (l := more)).length_le
        rw [← Grammar.skip] at hle
        rw [List.length_cons] at hfuel hlength
        obtain ⟨ls, hls, htokens⟩ := readRest_ok (by omega) hskipped hrest
        refine ⟨l :: ls, lexes_cons hstarts ?_, ?_⟩
        · rw [← lexes_skip, hsame, lexes_skip]
          exact hls
        · rw [tokensOf, bind_apply, htoken]
          dsimp only
          rw [bind_apply, htokens]
          rfl
      split at h
      · exact hnext _ (fun t rest w₁ hstep => readOther_ok hplain hhash hstep) h
      · next hword =>
        refine hnext _ (fun t rest w₁ hstep => ?_) h
        have hsplit : (c :: s).takeWhile Macro.isNameChar ++ (c :: s).dropWhile Macro.isNameChar =
            c :: s := List.takeWhile_append_dropWhile
        have hhead : ∀ d, ((c :: s).dropWhile Macro.isNameChar).head? = some d →
            Macro.isNameChar d = false := by
          intro d hd
          have hnot := List.head?_dropWhile_not Macro.isNameChar (c :: s)
          rw [hd] at hnot
          exact hnot
        rw [← hsplit] at hplain ⊢
        refine readWord_ok (fun hnil => hword (List.isEmpty_iff.mpr hnil))
          (List.all_eq_true.mp List.all_takeWhile) hhead hplain ?_
        rwa [hsplit]

/-! ### From tokens back to lexemes -/

variable {l : Lexeme} {ls : List Lexeme} {ts : List Token}

theorem tokensOf_nil (h : tokensOf first previous ls w = .ok [] w') : ls = [] ∧ w' = w := by
  cases ls with
  | nil =>
    cases h
    exact ⟨rfl, rfl⟩
  | cons l ls =>
    obtain ⟨t, w₁, -, h⟩ := bind_ok h
    obtain ⟨ts, w₂, -, h⟩ := bind_ok h
    exact nomatch h

theorem tokensOf_cons (h : tokensOf first previous ls w = .ok (t :: ts) w') :
    ∃ l ls' w₁, ls = l :: ls' ∧ l.token first previous w = .ok t w₁ ∧
      tokensOf first t ls' w₁ = .ok ts w' := by
  cases ls with
  | nil => exact nomatch h
  | cons l ls =>
    obtain ⟨t, w₁, ht, h⟩ := bind_ok h
    obtain ⟨ts, w₂, hts, h⟩ := bind_ok h
    cases h
    exact ⟨l, ls, w₁, rfl, ht, hts⟩

/-- Signs are no keywords, texts or symbols. -/
theorem ne_of_operator (h : operator? s = some (t, rest)) :
    (∀ k, t ≠ .word k) ∧ (∀ i, t ≠ .symbol i) ∧ ∀ text, t ≠ .text text := by
  unfold operator? at h
  split at h
  all_goals first
    | cases h
      exact ⟨nofun, nofun, nofun⟩
    | exact nomatch h

/-- What a name can be: a keyword, a text where one is expected, or a symbol. -/
theorem token_name {n : List Char} (h : (Lexeme.name n).token first previous w = .ok t w') :
    (∃ k, Keyword.find? (String.ofList n) = some k ∧ t = .word k ∧ w' = w) ∨
      Keyword.find? (String.ofList n) = none ∧
        (previous.expectsText = true ∧ t = .text (String.ofList n) ∧
            (previous = .word .choice → w' = w) ∨
          ∃ i, t = .symbol i ∧ Reading.word (String.ofList n) w = .ok i w') := by
  unfold Lexeme.token at h
  dsimp only at h
  cases hk : Keyword.find? (String.ofList n) with
  | some k =>
    rw [hk] at h
    cases h
    exact .inl ⟨k, rfl, rfl, rfl⟩
  | none =>
    rw [hk] at h
    refine .inr ⟨rfl, ?_⟩
    dsimp only at h
    split at h
    · next htext =>
      split at h
      · next hchoice =>
        obtain ⟨_, w₁, -, h⟩ := bind_ok h
        obtain ⟨_, w₂, -, h⟩ := bind_ok h
        cases h
        exact .inl ⟨htext, rfl, fun hprevious => absurd hprevious hchoice⟩
      · cases h
        exact .inl ⟨htext, rfl, fun _ => rfl⟩
    · obtain ⟨i, w₁, hword, h⟩ := bind_ok h
      cases h
      exact .inr ⟨i, rfl, hword⟩

/-- What a quoted text can be: a text where one is expected, or a constant. -/
theorem token_quoted {b : List Char} (h : (Lexeme.quoted b).token first previous w = .ok t w') :
    ∃ text, Reading.expandEnv b w = .ok text w ∧
      ((previous.expectsText || first == .word .option) = true ∧ t = .text (String.ofList text) ∧
          w' = w ∨
        ∃ i, t = .symbol i ∧ Reading.constant (String.ofList text) w = .ok i w') := by
  obtain ⟨text, w₁, htext, hrest⟩ := bind_ok h
  obtain rfl : w₁ = w := by
    cases htext
    rfl
  refine ⟨text, htext, ?_⟩
  dsimp only at hrest
  split at hrest
  · next hexpected =>
    cases hrest
    exact .inl ⟨hexpected, rfl, rfl⟩
  · obtain ⟨i, w₂, hconstant, hrest⟩ := bind_ok hrest
    cases hrest
    exact .inr ⟨i, rfl, hconstant⟩

/-- Only a name is a keyword. -/
theorem token_word {k : Keyword} (hl : l.Starts s rest)
    (h : l.token first previous w = .ok (.word k) w') :
    ∃ n, l = .name n ∧ Keyword.find? (String.ofList n) = some k ∧ w' = w := by
  cases l with
  | name n =>
    rcases token_name h with ⟨k', hk, hword, hw⟩ | ⟨-, ⟨-, htext, -⟩ | ⟨i, hsymbol, -⟩⟩
    · cases hword
      exact ⟨n, rfl, hk, hw⟩
    · exact nomatch htext
    · exact nomatch hsymbol
  | quoted b =>
    obtain ⟨text, -, ⟨-, htext, -⟩ | ⟨i, hsymbol, -⟩⟩ := token_quoted h
    · exact nomatch htext
    · exact nomatch hsymbol
  | sign t =>
    cases h
    exact absurd rfl ((ne_of_operator hl).1 k)

/-- Only a sign is a sign. -/
theorem token_sign (h : l.token first previous w = .ok t w')
    (ht : t.spelling ≠ []) : l = .sign t ∧ w' = w := by
  cases l with
  | name n =>
    rcases token_name h with ⟨k, -, rfl, -⟩ | ⟨-, ⟨-, rfl, -⟩ | ⟨i, rfl, -⟩⟩ <;> exact absurd rfl ht
  | quoted b =>
    obtain ⟨text, -, ⟨-, rfl, -⟩ | ⟨i, rfl, -⟩⟩ := token_quoted h <;> exact absurd rfl ht
  | sign u =>
    cases h
    exact ⟨rfl, rfl⟩

/-- The symbol of a token is that of a name or of a constant in quotes. -/
theorem token_symbol {i : SymbolId} (hl : l.Starts s rest)
    (h : l.token first previous w = .ok (.symbol i) w') :
    (∃ n, l = .name n ∧ operand n w = .ok i w' ∧ Keyword.find? (String.ofList n) = none) ∨
      ∃ b, l = .quoted b ∧
        ∀ q, q = '"' ∨ q = '\'' → operand (q :: b ++ [q]) w = .ok i w' := by
  cases l with
  | name n =>
    rcases token_name h with ⟨k', -, hword, -⟩ | ⟨hk, ⟨-, htext, -⟩ | ⟨j, hsymbol, hword⟩⟩
    · exact nomatch hword
    · exact nomatch htext
    · cases hsymbol
      refine .inl ⟨n, rfl, ?_, hk⟩
      obtain ⟨-, hn, hchars, -⟩ := hl
      obtain ⟨c, n, rfl⟩ := List.exists_cons_of_ne_nil hn
      have hc := hchars c (List.mem_cons_self ..)
      rw [operand, if_neg (by simp [ne_of_isNameChar hc (d := '"') rfl,
        ne_of_isNameChar hc (d := '\'') rfl])]
      exact hword
  | quoted b =>
    obtain ⟨text, henv, ⟨-, htext, -⟩ | ⟨j, hsymbol, hconstant⟩⟩ := token_quoted h
    · exact nomatch htext
    · cases hsymbol
      obtain ⟨-, -, -, -, hslash, -⟩ := hl
      refine .inr ⟨b, rfl, fun q hq => ?_⟩
      rw [List.cons_append, operand, if_pos (by simpa using hq), List.dropLast_concat,
        Grammar.unescape_eq_self hslash, bind_apply, henv]
      exact hconstant
  | sign t =>
    cases h
    exact absurd rfl ((ne_of_operator hl).2.1 i)

end Token
end Kconfig
