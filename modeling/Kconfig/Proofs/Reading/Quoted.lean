import Kconfig.Proofs.Action
import Kconfig.Reading.Token
/-!
The two ways to read a quoted text agree.

A quoted text is expanded in its line: from an index on, the next quote, backslash or macro is looked
for, a backslash is taken out, a macro is replaced by its text, and a quote of the other kind only
moves the index by one. What comes out is the line with the text expanded and the index after the
closing quote. A text without macros and escapes can be cut out at the next quote of its kind, and
this gives the same value, line and index, or the same failure.
-/
namespace Kconfig
namespace Macro

/-- What takes notice in a quoted text: a quote of either kind, a backslash, the start of a macro. -/
inductive Special where
  | quote (c : Char)
  | backslash
  | opening
  deriving DecidableEq, Repr

/-- What a text starts with. -/
def Special.of? : List Char → Option Special
  | '"' :: _ => some (.quote '"')
  | '\'' :: _ => some (.quote '\'')
  | '\\' :: _ => some .backslash
  | '$' :: '(' :: _ => some .opening
  | _ => none

/-- The first special place of a text that starts at index `i` of its line, and its index. -/
def Special.search? : List Char → Nat → Option (Special × Nat)
  | [], _ => none
  | c :: s, i =>
    match Special.of? (c :: s) with
    | some special => some (special, i)
    | none => Special.search? s (i + 1)

theorem Special.search?_bounds {special : Special} : ∀ {s : List Char} {i j : Nat},
    Special.search? s i = some (special, j) → i ≤ j ∧ j < i + s.length
  | c :: s, i, j, h => by
    rw [Special.search?] at h
    rw [List.length_cons]
    split at h
    · cases h
      omega
    · obtain ⟨hle, hlt⟩ := search?_bounds h
      omega

/-- The line with a quoted text expanded from index `i` on, and the index after its closing quote. -/
def expandString (quote : Char) (line : List Char) (i : Nat) : Reading (List Char × Nat) :=
  match _hj : Special.search? (line.drop i) i with
  | none => Reading.problem .openString
  | some (.quote c, j) =>
    if c = quote then pure (line, j + 1) else expandString quote line (i + 1)
  | some (.backslash, j) => expandString quote (line.take j ++ line.drop (j + 1)) (j + 1)
  | some (.opening, j) => do
    let read := Frame.read {} [] (line.drop (j + 2))
    let text ← expandPiece call [] read.1
    expandString quote (line.take j ++ text ++ read.2) (j + text.length)
termination_by line.length - i
decreasing_by
  all_goals
    have hbounds := Special.search?_bounds _hj
    have hrest := Frame.read_length {} [] (line.drop (j + 2))
    simp only [List.length_append, List.length_take, List.length_drop] at hbounds hrest ⊢
    omega

variable {quote c : Char} {before s : List Char} {special : Special}

theorem expandString_def (quote : Char) (line : List Char) (i : Nat) :
    expandString quote line i = match Special.search? (line.drop i) i with
      | none => Reading.problem .openString
      | some (.quote c, j) =>
        if c = quote then pure (line, j + 1) else expandString quote line (i + 1)
      | some (.backslash, j) => expandString quote (line.take j ++ line.drop (j + 1)) (j + 1)
      | some (.opening, j) =>
        let read := Frame.read {} [] (line.drop (j + 2))
        expandPiece call [] read.1 >>= fun text =>
          expandString quote (line.take j ++ text ++ read.2) (j + text.length) := by
  rw [expandString]
  split
  · next h => rw [h]
  · next h => rw [h]
  · next h => rw [h]
  · next h => rw [h]

/-! ### One step in the line

The line is `before ++ s`, and its part from the index on is `s`. -/

theorem expandString_nil (i : Nat) (h : before.length ≤ i) :
    expandString quote before i = Reading.problem .openString := by
  rw [expandString_def, List.drop_of_length_le h]
  rfl

theorem Special.search?_of (h : Special.of? s = some special) (i : Nat) :
    Special.search? s i = some (special, i) := by
  cases s with
  | nil => exact nomatch h
  | cons c s => rw [Special.search?, h]

/-- A character that is neither special nor the quote is passed over. -/
theorem expandString_char (hquote : c ≠ quote) (hmark : c ≠ '\\')
    (hcall : c = '$' → s.head? ≠ some '(') :
    expandString quote (before ++ c :: s) before.length =
      expandString quote (before ++ [c] ++ s) (before ++ [c]).length := by
  have hline : before ++ [c] ++ s = before ++ c :: s := by
    rw [List.append_assoc, List.singleton_append]
  have hlength : (before ++ [c]).length = before.length + 1 := List.length_append
  have hnext : (before ++ c :: s).drop (before.length + 1) = s := by
    rw [← hline, ← hlength, List.drop_left]
  rw [hline, hlength, expandString_def, List.drop_left]
  cases hspecial : Special.of? (c :: s) with
  | none =>
    -- The search from here and the one from the next index find the same place.
    have hsame : Special.search? (c :: s) before.length =
        Special.search? s (before.length + 1) := by rw [Special.search?, hspecial]
    rw [hsame]
    rcases hj : Special.search? s (before.length + 1) with _ | ⟨d | _ | _, j⟩
    · rw [expandString_def quote _ (before.length + 1), hnext, hj]
    · dsimp only
      split
      · next hd =>
        rw [expandString_def quote _ (before.length + 1), hnext, hj]
        exact (if_pos hd).symm
      · rfl
    · rw [expandString_def quote _ (before.length + 1), hnext, hj]
    · rw [expandString_def quote _ (before.length + 1), hnext, hj]
  | some special =>
    rw [Special.search?_of hspecial]
    unfold Special.of? at hspecial
    split at hspecial
    · next heq =>
      cases heq
      cases hspecial
      exact if_neg hquote
    · next heq =>
      cases heq
      cases hspecial
      exact if_neg hquote
    · next heq => exact absurd (List.cons.inj heq).1 hmark
    · next heq => exact absurd (congrArg List.head? (List.cons.inj heq).2) (hcall (List.cons.inj heq).1)
    · exact nomatch hspecial

theorem expandString_quote (hquote : quote = '"' ∨ quote = '\'') :
    expandString quote (before ++ quote :: s) before.length =
      pure (before ++ quote :: s, before.length + 1) := by
  have hspecial : Special.of? (quote :: s) = some (.quote quote) := by
    rcases hquote with rfl | rfl
    · rfl
    · rfl
  rw [expandString_def, List.drop_left, Special.search?_of hspecial]
  exact if_pos rfl

theorem expandString_backslash :
    expandString quote (before ++ '\\' :: s) before.length =
      expandString quote (before ++ s) (before.length + 1) := by
  have hspecial : Special.of? ('\\' :: s) = some .backslash := rfl
  rw [expandString_def, List.drop_left, Special.search?_of hspecial]
  dsimp only
  rw [List.take_left, ← List.drop_drop, List.drop_left]
  rfl

theorem expandString_opening :
    expandString quote (before ++ '$' :: '(' :: s) before.length =
      expandPiece call [] (Frame.read {} [] s).1 >>= fun text =>
        expandString quote (before ++ text ++ (Frame.read {} [] s).2) (before ++ text).length := by
  have hspecial : Special.of? ('$' :: '(' :: s) = some .opening := rfl
  rw [expandString_def, List.drop_left, Special.search?_of hspecial]
  dsimp only
  rw [List.take_left, ← List.drop_drop, List.drop_left]
  simp only [List.length_append]
  rfl

/-! ### One step in the text -/

theorem problem_bind {α β : Type} (p : Problem) (next : α → Reading β) :
    (Reading.problem p >>= next) = Reading.problem p := rfl

theorem readString_nil : readString quote [] = Reading.problem .openString := by
  rw [readString, readQuoted]
  rfl

theorem readString_quote (hquote : quote = '"' ∨ quote = '\'') (s : List Char) :
    readString quote (quote :: s) = pure ([], s) := by
  have hread : readQuoted quote (quote :: s) = ([], some s) := by
    rw [readQuoted, if_pos rfl]
    · rintro _ rfl -
      exact absurd hquote (by decide)
    · rintro rfl -
      exact absurd hquote (by decide)
    · rintro _ _ rfl -
      exact absurd hquote (by decide)
  rw [readString, hread]
  rfl

/-- A text begins with the expansion of its first piece. -/
theorem readString_piece {p : Piece} {rest : List Char}
    (h : readQuoted quote s = (p :: (readQuoted quote rest).1, (readQuoted quote rest).2)) :
    readString quote s = expandPiece call [] p >>= fun text =>
      readString quote rest >>= fun read => pure (text ++ read.1, read.2) := by
  rw [readString, readString, h]
  simp only [expand, expandPieces, bind_assoc, pure_bind]
  cases (readQuoted quote rest).2 with
  | some rest => simp only [pure_bind]
  | none => simp only [problem_bind]

theorem readString_char (hquote : c ≠ quote) (hmark : c ≠ '\\')
    (hcall : c = '$' → s.head? ≠ some '(') :
    readString quote (c :: s) =
      readString quote s >>= fun read => pure ([c] ++ read.1, read.2) := by
  have hread : readQuoted quote (c :: s) =
      (.char c :: (readQuoted quote s).1, (readQuoted quote s).2) := by
    rw [readQuoted, if_neg hquote]
    · exact fun _ hdollar hs => hcall hdollar (congrArg List.head? hs)
    · exact fun hc _ => hmark hc
    · exact fun _ _ hc _ => hmark hc
  exact readString_piece hread

theorem readString_backslash : readString quote ('\\' :: c :: s) =
    readString quote s >>= fun read => pure ([c] ++ read.1, read.2) := by
  have hread : readQuoted quote ('\\' :: c :: s) =
      (.char c :: (readQuoted quote s).1, (readQuoted quote s).2) := by rw [readQuoted]
  exact readString_piece hread

theorem readString_opening : readString quote ('$' :: '(' :: s) =
    expandPiece call [] (Frame.read {} [] s).1 >>= fun text =>
      readString quote (Frame.read {} [] s).2 >>= fun read => pure (text ++ read.1, read.2) := by
  rw [readString_piece]
  rw [readQuoted]

/-- Expanding the text in its line gives the line with the expanded text and an index behind it. -/
theorem expandString_eq (hquote : quote = '"' ∨ quote = '\'') (before s : List Char) :
    expandString quote (before ++ s) before.length =
      readString quote s >>= fun read => pure
        (before ++ read.1 ++ quote :: read.2, (before ++ read.1).length + 1) := by
  induction hn : s.length using Nat.strongRecOn generalizing before s with
  | ind n ih =>
  subst hn
  -- What is expanded so far belongs to the text before the index.
  have hmore : ∀ (text s' : List Char), s'.length < s.length →
      expandString quote (before ++ text ++ s') (before ++ text).length =
        (readString quote s' >>= fun read => pure (text ++ read.1, read.2)) >>= fun read => pure
          (before ++ read.1 ++ quote :: read.2, (before ++ read.1).length + 1) := by
    intro text s' hs'
    rw [ih _ hs' _ s' rfl]
    simp only [bind_assoc, pure_bind, List.append_assoc]
  match s with
  | [] =>
    rw [List.append_nil, expandString_nil _ (Nat.le_refl _), readString_nil, problem_bind]
  | c :: s =>
    by_cases hc : c = quote
    · rw [hc, expandString_quote hquote, readString_quote hquote, pure_bind, List.append_nil]
    by_cases hmark : c = '\\'
    · rw [hmark, expandString_backslash]
      cases s with
      | nil =>
        rw [List.append_nil, expandString_nil _ (Nat.le_succ _), readString, readQuoted]
        rfl
      | cons d s =>
        have hstep := hmore [d] s (by simp only [List.length_cons]; omega)
        rw [readString_backslash, ← hstep, List.append_assoc, List.singleton_append,
          List.length_append]
        rfl
    by_cases hcall : c = '$' ∧ s.head? = some '('
    · obtain ⟨rfl, hhead⟩ := hcall
      obtain ⟨s, rfl⟩ := List.head?_eq_some_iff.mp hhead
      have hrest := Frame.read_length {} [] s
      rw [expandString_opening, readString_opening, bind_assoc]
      congr 1
      funext text
      exact hmore text _ (by simp only [List.length_cons]; omega)
    · have hcall' : c = '$' → s.head? ≠ some '(' := fun hdollar hhead => hcall ⟨hdollar, hhead⟩
      rw [expandString_char hc hmark hcall', readString_char hc hmark hcall']
      exact hmore [c] s (Nat.lt_succ_self _)

/-- Without macros and escapes a text is what stands before the next quote of its kind. -/
theorem readString_plain (hquote : quote = '"' ∨ quote = '\'') (hdollar : '$' ∉ s)
    (hmark : '\\' ∉ s) : readString quote s = match s.idxOf? quote with
      | some k => pure (s.take k, s.drop (k + 1))
      | none => Reading.problem .openString := by
  induction s with
  | nil => exact readString_nil
  | cons c s ih =>
    obtain ⟨hc, hs⟩ := not_or.mp (mt List.mem_cons.mpr hdollar)
    obtain ⟨hc', hs'⟩ := not_or.mp (mt List.mem_cons.mpr hmark)
    rw [List.idxOf?_cons]
    by_cases heq : c = quote
    · rw [heq, readString_quote hquote, if_pos (beq_self_eq_true quote)]
      rfl
    · rw [readString_char heq (Ne.symm hc') (fun hdollar => absurd hdollar.symm hc), ih hs hs',
        if_neg (by simpa using heq)]
      cases s.idxOf? quote with
      | none => rfl
      | some k => rfl

theorem readPlainQuoted_eq (quote : Char) (s : List Char) :
    readPlainQuoted quote s = (s.idxOf? quote).map fun k => (s.take k, s.drop (k + 1)) := by
  induction s with
  | nil => rfl
  | cons c s ih =>
    rw [List.idxOf?_cons]
    by_cases heq : c = quote
    · rw [heq, if_pos (beq_self_eq_true quote), readPlainQuoted,
        List.dropWhile_cons_of_neg (by simp), List.takeWhile_cons_of_neg (by simp)]
      rfl
    · rw [if_neg (by simpa using heq), Option.map_map]
      rw [readPlainQuoted] at ih ⊢
      rw [List.dropWhile_cons_of_pos (by simpa using heq),
        List.takeWhile_cons_of_pos (by simpa using heq)]
      cases hdrop : s.dropWhile (· != quote) with
      | nil =>
        rw [hdrop] at ih
        rw [Option.map_eq_none_iff.mp ih.symm]
        rfl
      | cons d rest =>
        rw [hdrop] at ih
        obtain ⟨k, hk, heq⟩ := Option.map_eq_some_iff.mp ih.symm
        obtain ⟨htake, hrest⟩ := Prod.mk.inj heq
        rw [hk, Option.map_some, ← htake, ← hrest]
        rfl

end Macro

namespace Token
open Text
variable {w : Workspace} {s : List Char}

/-- A text without `$` is its own expansion. -/
theorem expandEnv_eq_self (h : '$' ∉ s) : Reading.expandEnv s w = .ok s w := by
  show EStateM.Result.ok (expandReferences w.host.lookup?
    (replaceAll ('$' :: "{userHome}".toList) w.host.home.toList
      (replaceAll ('$' :: "UNAME_RELEASE".toList) w.host.release.toList s))) w = _
  rw [replaceAll_eq_self h, replaceAll_eq_self h, expandReferences_eq_self h]

/-- A text is read in the same way whether it has macros and escapes or not. -/
theorem readQuoted_eq {quote : Char} (hquote : quote = '"' ∨ quote = '\'') (s : List Char) :
    readQuoted quote s = Macro.readString quote s >>= fun read =>
      Reading.expandEnv read.1 >>= fun value => pure (String.ofList value, read.2) := by
  unfold readQuoted
  split
  · rfl
  · next hplain =>
    simp only [Bool.or_eq_true, List.contains_iff_mem, not_or] at hplain
    rw [Macro.readString_plain hquote hplain.1 hplain.2, Macro.readPlainQuoted_eq]
    cases s.idxOf? quote with
    | none => rfl
    | some k =>
      funext w
      have hvalue : '$' ∉ s.take k := fun hmem => hplain.1 (List.mem_of_mem_take hmem)
      rw [pure_bind, bind_apply, expandEnv_eq_self hvalue]
      rfl

/-- A quoted text: its value, its line when it is read, and the index after its closing quote. -/
structure Quoted where
  value : List Char
  line : List Char
  stop : Nat
  deriving DecidableEq, Repr

namespace Quoted
variable {text : List Char} {i : Fin text.length}

/-- Reads the quoted text that opens at an index by expanding it in its line. -/
def expand (text : List Char) (i : Fin text.length) : Reading Quoted := do
  let (line, stop) ← Macro.expandString text[i] text (i + 1)
  let value ← Reading.expandEnv (line.extract (i + 1) (stop - 1))
  pure { value, line, stop }

/-- Reads the quoted text that opens at an index by looking for the next quote of its kind. -/
def cut (text : List Char) (i : Fin text.length) : Reading Quoted :=
  match ((text.drop (i + 1)).idxOf? text[i]).map (i.val + 1 + ·) with
  | some j => pure { value := text.extract (i + 1) j, line := text, stop := j + 1 }
  | none => Reading.problem .openString

theorem expand_eq (hquote : text[i] = '"' ∨ text[i] = '\'') :
    expand text i = Macro.readString text[i] (text.drop (i + 1)) >>= fun read =>
      Reading.expandEnv read.1 >>= fun value => pure
        { value, line := text.take (i + 1) ++ read.1 ++ text[i] :: read.2,
          stop := (text.take (i + 1) ++ read.1).length + 1 } := by
  have hlength : (text.take (i + 1)).length = i + 1 := by
    rw [List.length_take, Nat.min_eq_left i.isLt]
  have hstring := Macro.expandString_eq hquote (text.take (i + 1)) (text.drop (i + 1))
  rw [List.take_append_drop, hlength] at hstring
  have hextract : ∀ body rest : List Char,
      (text.take (i + 1) ++ body ++ rest).extract (i + 1) ((text.take (i + 1) ++ body).length + 1 - 1) =
        body := by
    intro body rest
    rw [Nat.add_sub_cancel, List.extract_eq_take_drop, List.append_assoc, List.drop_left' hlength,
      List.length_append, hlength, Nat.add_sub_cancel_left, List.take_left]
  unfold expand
  rw [hstring, bind_assoc]
  simp only [pure_bind, hextract]

/-- What is read of a line does not depend on where in the line it is read. -/
theorem readQuoted_eq_expand (hquote : text[i] = '"' ∨ text[i] = '\'') :
    readQuoted text[i] (text.drop (i + 1)) =
      expand text i >>= fun q => pure (String.ofList q.value, q.line.drop q.stop) := by
  rw [readQuoted_eq hquote, expand_eq hquote]
  simp only [bind_assoc, pure_bind]
  congr 1
  funext read
  congr 1
  funext value
  rw [← List.drop_drop, List.drop_left]
  rfl

theorem split_idxOf? {c : Char} {n : Nat} (h : s.idxOf? c = some n) :
    n < s.length ∧ s.take n ++ c :: s.drop (n + 1) = s := by
  rw [List.idxOf?, List.findIdx?_eq_some_iff_getElem] at h
  obtain ⟨hn, hself, -⟩ := h
  rw [← eq_of_beq hself, List.getElem_cons_drop]
  exact ⟨hn, List.take_append_drop n s⟩

/-- Where the next quote of the kind stands, if there is one. -/
theorem cut_apply (text : List Char) (i : Fin text.length) (w : Workspace) :
    (∃ j > i.val, text[j]? = some text[i] ∧ (∀ k > i.val, k < j → text[k]? ≠ some text[i]) ∧
      cut text i w = .ok { value := text.extract (i + 1) j, line := text, stop := j + 1 } w) ∨
    (∀ k > i.val, text[k]? ≠ some text[i]) ∧
      cut text i w = .error (.fatal (.badLine w.place.spot .openString)) w := by
  have hat : ∀ k > i.val, text[k]? = (text.drop (i + 1))[k - (i.val + 1)]? := by
    intro k hk
    rw [List.getElem?_drop]
    congr 1
    omega
  unfold cut
  cases hindex : (text.drop (i + 1)).idxOf? text[i] with
  | none =>
    refine .inr ⟨fun k hk h => ?_, rfl⟩
    rw [hat k hk] at h
    exact List.idxOf?_eq_none_iff.mp hindex (List.mem_of_getElem? h)
  | some n =>
    rw [List.idxOf?, List.findIdx?_eq_some_iff_getElem] at hindex
    obtain ⟨hn, hself, hbefore⟩ := hindex
    refine .inl ⟨i.val + 1 + n, by omega, ?_, fun k hk hlt h => ?_, rfl⟩
    · rw [hat _ (by omega), Nat.add_sub_cancel_left, List.getElem?_eq_getElem hn, eq_of_beq hself]
    · rw [hat k hk] at h
      obtain ⟨hk', h⟩ := List.getElem?_eq_some_iff.mp h
      exact hbefore (k - (i.val + 1)) (by omega) (beq_iff_eq.mpr h)

/-- In a line without macros and escapes both ways to read a quoted text do the same: they give the
text before the next quote of its kind, the line as it was and the index after that quote, or fail
because there is none. This is also what is read of the text that stands after the opening quote. -/
theorem cut_eq_expand (hquote : text[i] = '"' ∨ text[i] = '\'') (hdollar : '$' ∉ text)
    (hmark : '\\' ∉ text) :
    cut text i = expand text i ∧
    readQuoted text[i] (text.drop (i + 1)) =
      (cut text i >>= fun q => pure (String.ofList q.value, q.line.drop q.stop)) ∧
    ∀ w, (∃ j > i.val, text[j]? = some text[i] ∧ (∀ k > i.val, k < j → text[k]? ≠ some text[i]) ∧
        expand text i w = .ok { value := text.extract (i + 1) j, line := text, stop := j + 1 } w) ∨
      (∀ k > i.val, text[k]? ≠ some text[i]) ∧
        expand text i w = .error (.fatal (.badLine w.place.spot .openString)) w := by
  have heq : cut text i = expand text i := by
    have hdollar' : '$' ∉ text.drop (i + 1) := fun h => hdollar (List.mem_of_mem_drop h)
    have hmark' : '\\' ∉ text.drop (i + 1) := fun h => hmark (List.mem_of_mem_drop h)
    rw [expand_eq hquote, Macro.readString_plain hquote hdollar' hmark', cut]
    cases hindex : (text.drop (i + 1)).idxOf? text[i] with
    | none => rfl
    | some n =>
      obtain ⟨hn, hsplit⟩ := split_idxOf? hindex
      have hvalue : '$' ∉ (text.drop (i + 1)).take n := fun h => hdollar' (List.mem_of_mem_take h)
      have hextract : text.extract (i + 1) (i.val + 1 + n) = (text.drop (i + 1)).take n := by
        rw [List.extract_eq_take_drop, Nat.add_sub_cancel_left]
      have hlength : (text.take (i + 1) ++ (text.drop (i + 1)).take n).length = i + 1 + n := by
        rw [List.length_append, List.length_take, Nat.min_eq_left i.isLt, List.length_take,
          Nat.min_eq_left (Nat.le_of_lt hn)]
      funext w
      rw [pure_bind, bind_apply, expandEnv_eq_self hvalue]
      dsimp only [Option.map_some]
      rw [hextract, hlength, List.append_assoc, hsplit, List.take_append_drop]
  rw [← heq]
  refine ⟨rfl, ?_, cut_apply text i⟩
  rw [readQuoted_eq_expand hquote, heq]

/-- A quote of the other kind belongs to the text. -/
theorem cut_eq_expand_mixed :
    let text := ['x', '"', 'i', 't', '\'', 's', '"', '\'']
    text[1] = '"' ∧ '$' ∉ text ∧ '\\' ∉ text ∧
    cut text ⟨1, by decide⟩ = expand text ⟨1, by decide⟩ ∧
    ∀ w, expand text ⟨1, by decide⟩ w =
      .ok { value := ['i', 't', '\'', 's'], line := text, stop := 7 } w := by
  have hboth := @cut_eq_expand ['x', '"', 'i', 't', '\'', 's', '"', '\''] ⟨1, by decide⟩ (.inl rfl)
    (by decide) (by decide)
  refine ⟨rfl, by decide, by decide, hboth.1, fun w => ?_⟩
  rw [← hboth.1]
  rfl

end Quoted
end Token
end Kconfig
