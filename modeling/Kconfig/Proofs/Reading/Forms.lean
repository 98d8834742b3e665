import Kconfig.Proofs.Reading.Scanning
/-!
The first word of a line decides its form.

The grammar tries one form after the other. On a line whose first word is one of its keywords, all
forms but those of this word fail at once, so what is captured is told by the word and by the text
after it.
-/
namespace Kconfig

namespace Grammar
variable {α β : Type} {m : Matcher α} {f : α → Matcher β} {a : α} {b : β} {s t rest : List Char}

/-! ### Matchers one after the other -/

theorem bind_some (h : (m >>= f) s = some (b, rest)) :
    ∃ a t, m s = some (a, t) ∧ f a t = some (b, rest) := by
  obtain ⟨⟨a, t⟩, ha, hb⟩ := Option.bind_eq_some_iff.mp h
  exact ⟨a, t, ha, hb⟩

theorem bind_of_some (h : m s = some (a, t)) : (m >>= f) s = f a t := by
  show (m s).bind _ = _
  rw [h]
  rfl

theorem bind_of_none (h : m s = none) : (m >>= f) s = none := by
  show (m s).bind _ = _
  rw [h]
  rfl

theorem firstOf_some {ms : List (Matcher α)} (h : firstOf ms s = some (a, rest)) :
    ∃ m ∈ ms, m s = some (a, rest) := by
  induction ms with
  | nil => exact nomatch h
  | cons m ms ih =>
    rw [firstOf] at h
    cases hm : m s with
    | none =>
      rw [hm] at h
      obtain ⟨m', hmem, hm'⟩ := ih h
      exact ⟨m', List.mem_cons_of_mem _ hmem, hm'⟩
    | some taken =>
      rw [hm] at h
      cases h
      exact ⟨m, List.mem_cons_self .., hm⟩

theorem firstOf_of_some {ms : List (Matcher α)} (h : m s = some (a, rest)) :
    firstOf (m :: ms) s = some (a, rest) := by
  rw [firstOf, h]

theorem firstOf_of_none {ms : List (Matcher α)} (h : m s = none) :
    firstOf (m :: ms) s = firstOf ms s := by
  rw [firstOf, h]

theorem optionally_of_some (h : m s = some (a, rest)) :
    optionally m s = some (some a, rest) := by
  refine firstOf_of_some ?_
  show (m s).bind _ = _
  rw [h]
  rfl

theorem optionally_of_none (h : m s = none) : optionally m s = some (none, s) := by
  refine (firstOf_of_none ?_).trans rfl
  show (m s).bind _ = _
  rw [h]
  rfl

/-- What may be left out is taken, or nothing is. -/
theorem optionally_some {taken : Option α} (h : optionally m s = some (taken, rest)) :
    (∃ a, taken = some a ∧ m s = some (a, rest)) ∨ taken = none ∧ rest = s ∧ m s = none := by
  cases hm : m s with
  | some found =>
    rw [optionally_of_some hm] at h
    cases h
    exact .inl ⟨_, rfl, rfl⟩
  | none =>
    rw [optionally_of_none hm] at h
    cases h
    exact .inr ⟨rfl, rfl, rfl⟩

theorem keyword_some {word k : String} (h : keyword word s = some (k, rest)) :
    k = word ∧ keyword? word s = some rest := by
  obtain ⟨rest', hrest, h⟩ := Option.map_eq_some_iff.mp h
  cases h
  exact ⟨rfl, hrest⟩

theorem keyword_of_some {word : String} (h : keyword? word s = some rest) :
    keyword word s = some (word, rest) := by
  rw [keyword, h]
  rfl

theorem keyword_of_none {word : String} (h : keyword? word s = none) : keyword word s = none := by
  rw [keyword, h]
  rfl

theorem oneOf_some {words : List String} {k : String} (h : oneOf words s = some (k, rest)) :
    k ∈ words ∧ keyword? k s = some rest := by
  obtain ⟨m, hmem, hm⟩ := firstOf_some h
  obtain ⟨word, hword, rfl⟩ := List.mem_map.mp hmem
  obtain ⟨rfl, hrest⟩ := keyword_some hm
  exact ⟨hword, hrest⟩

theorem oneOf_of_none {words : List String} (h : ∀ k ∈ words, keyword? k s = none) :
    oneOf words s = none := by
  refine Option.eq_none_iff_forall_ne_some.mpr fun (k, rest) hsome => ?_
  obtain ⟨hmem, hrest⟩ := oneOf_some hsome
  exact nomatch (h k hmem).symm.trans hrest

theorem sign_some {word : String} {u : Unit} (h : sign word s = some (u, rest)) :
    sign? word s = some rest := by
  obtain ⟨rest', hrest, h⟩ := Option.map_eq_some_iff.mp h
  cases h
  exact hrest

theorem keyword?_some {word : String} (h : keyword? word s = some rest) :
    skip s = word.toList ++ rest ∧ rest.head?.any isKeywordChar = false := by
  obtain ⟨r, hsign, h⟩ := Option.bind_eq_some_iff.mp h
  split at h
  · exact nomatch h
  · next hhead =>
    cases h
    exact ⟨sign?_eq.mp hsign, Bool.eq_false_iff.mpr hhead⟩

end Grammar

/-! ### First words -/

namespace Statement
open Grammar Text

/-- A word that starts one form only. -/
def IsKeyword (k : String) : Prop := k ∈ formWords ∧ k ≠ "help"

instance (k : String) : Decidable (IsKeyword k) := inferInstanceAs (Decidable (_ ∧ _))

/-- The first word of a line that has to match the grammar, and what comes after it. -/
structure StartsForm (word r : List Char) : Prop where
  starts : startsForm word = true
  chars : ∀ c ∈ word, isFirstWordChar c = true
  ends : ∀ c, r.head? = some c → isFirstWordChar c = false

theorem isNameChar_of_isFirstWordChar {c : Char} (h : isFirstWordChar c = true) :
    Macro.isNameChar c = true := by
  simp only [isFirstWordChar, Bool.or_eq_true] at h
  rcases h with ((h | h) | h) | h <;> simp [Macro.isNameChar, h]

theorem isFirstWordChar_eq (c : Char) : isFirstWordChar c = (isKeywordChar c || c == '-') := rfl

theorem formWords_chars : ∀ k ∈ formWords, k.toList ≠ [] ∧
    ∀ c ∈ k.toList, isKeywordChar c = true ∧ c ≠ '-' := by
  have hall : (formWords.all fun k => !k.toList.isEmpty &&
      k.toList.all fun c => isKeywordChar c && c != '-') = true := by decide
  intro k hk
  have h := List.all_eq_true.mp hall k hk
  simpa using h

/-- A first word is a keyword, or `help` with dashes before and behind. -/
theorem startsForm_cases {word : List Char} (h : startsForm word = true) :
    (∃ k ∈ formWords, word = k.toList) ∨
      isHelpWord word = true ∧ ∃ before after, (∀ c ∈ before, c = '-') ∧ (∀ c ∈ after, c = '-') ∧
        word = before ++ ("help".toList ++ after) := by
  rcases Bool.or_eq_true_iff.mp h with h | h
  · exact .inl ⟨_, List.contains_iff_mem.mp h, String.toList_ofList.symm⟩
  · obtain ⟨after, hword, hafter⟩ := dropRightWhile_rest (p := (· == '-')) (word.dropWhile (· == '-'))
    refine .inr ⟨h, word.takeWhile (· == '-'), after, fun c hc => ?_, fun c hc => ?_, ?_⟩
    · exact eq_of_beq (List.all_eq_true.mp List.all_takeWhile c hc)
    · exact eq_of_beq (hafter c hc)
    · rw [← eq_of_beq h, ← hword, List.takeWhile_append_dropWhile]

namespace StartsForm
variable {word r rest : List Char} {k : String}

theorem skip_eq (h : StartsForm word r) : skip (word ++ r) = word ++ r := by
  refine skip_of_head fun c hc => isGap_false_of_isBlank_false (isBlank_of_isNameChar
    (isNameChar_of_isFirstWordChar (h.chars c ?_)))
  cases word with
  | nil => exact absurd h.starts (by decide)
  | cons d word =>
    cases hc
    exact List.mem_cons_self ..

/-- No dash comes after a keyword in a first word. -/
theorem no_dash (h : StartsForm word r) (hk : IsKeyword k) {t : List Char} :
    word ≠ k.toList ++ '-' :: t := by
  rintro rfl
  obtain ⟨hne, hchars⟩ := formWords_chars k hk.1
  rcases startsForm_cases h.starts with ⟨k', hk', hword⟩ | ⟨-, before, after, hbefore, hafter, hword⟩
  · exact (formWords_chars k' hk').2 '-' (by simp [← hword]) |>.2 rfl
  · cases before with
    | cons c before =>
      obtain ⟨d, t', hd⟩ := List.exists_cons_of_ne_nil hne
      rw [hd] at hword
      obtain ⟨rfl, -⟩ := List.cons.inj hword
      exact (hchars d (by simp [hd])).2 (hbefore d (List.mem_cons_self ..))
    | nil =>
      rw [List.nil_append] at hword
      rcases List.append_eq_append_iff.mp hword with ⟨a, hhelp, ha⟩ | ⟨b, hkeyword, hb⟩
      · cases a with
        | nil => exact hk.2 (String.toList_inj.mp (by rw [hhelp, List.append_nil]))
        | cons d a =>
          obtain ⟨rfl, -⟩ := List.cons.inj ha
          have hmem : '-' ∈ "help".toList := hhelp ▸ List.mem_append_right _ (List.mem_cons_self ..)
          exact absurd hmem (by decide)
      · cases b with
        | nil => exact hk.2 (String.toList_inj.mp (by rw [hkeyword, List.append_nil]))
        | cons d b =>
          have hd : d = '-' := hafter d (by simp [hb])
          exact (hchars d (by simp [hkeyword])).2 hd

/-- A keyword is taken from a line only where it is the whole first word. -/
theorem keyword?_word (h : StartsForm word r) (hk : IsKeyword k)
    (hkey : keyword? k (word ++ r) = some rest) : word = k.toList ∧ rest = r := by
  obtain ⟨heq, hhead⟩ := keyword?_some hkey
  rw [h.skip_eq] at heq
  rcases List.append_eq_append_iff.mp heq with ⟨a, hkeyword, ha⟩ | ⟨b, hword, hb⟩
  · cases a with
    | nil => exact ⟨by rw [hkeyword, List.append_nil], ha.symm⟩
    | cons d a =>
      have hd := ((formWords_chars k hk.1).2 d (by simp [hkeyword])).1
      have hnot := h.ends d (by rw [ha]; rfl)
      rw [isFirstWordChar_eq, hd] at hnot
      exact nomatch hnot
  · cases b with
    | nil => exact ⟨by rw [hword, List.append_nil], hb⟩
    | cons d b =>
      have hd := h.chars d (by simp [hword])
      have hnot : isKeywordChar d = false := by
        rw [hb] at hhead
        exact hhead
      rw [isFirstWordChar_eq, hnot, Bool.false_or, beq_iff_eq] at hd
      exact absurd (hd ▸ hword) (h.no_dash hk)

theorem keyword?_none (h : StartsForm word r) (hk : IsKeyword k) (hne : word ≠ k.toList) :
    keyword? k (word ++ r) = none :=
  Option.eq_none_iff_forall_ne_some.mpr fun _ hsome => hne (h.keyword?_word hk hsome).1

theorem keyword?_self (h : StartsForm k.toList r) : keyword? k (k.toList ++ r) = some r := by
  have hnot : ¬ (r.head?.any isKeywordChar) = true := by
    intro hany
    cases hc : r.head? with
    | none =>
      rw [hc] at hany
      exact nomatch hany
    | some c =>
      rw [hc] at hany
      have hends := h.ends c hc
      rw [isFirstWordChar_eq, show isKeywordChar c = true from hany] at hends
      exact nomatch hends
  rw [keyword?, sign?_eq.mpr h.skip_eq]
  exact if_neg hnot

theorem dropWhile_dash (h : StartsForm word r) : r.dropWhile (· == '-') = r := by
  refine (takeWhile_until (s := []) nofun fun c hc => ?_).2
  have hnot := h.ends c hc
  rw [isFirstWordChar_eq, Bool.or_eq_false_iff] at hnot
  exact hnot.2

/-- `help` is taken from a line only where it is the first word among dashes. -/
theorem helpWord_word {u : Unit} (h : StartsForm word r)
    (hhelp : helpWord (word ++ r) = some (u, rest)) : isHelpWord word = true ∧ rest = r := by
  have htaken : ∃ t, (word ++ r).dropWhile (· == '-') = "help".toList ++ t ∧
      rest = t.dropWhile (· == '-') := by
    rw [helpWord, h.skip_eq] at hhelp
    split at hhelp
    · next t heq =>
      cases hhelp
      exact ⟨t, heq, rfl⟩
    · exact nomatch hhelp
  obtain ⟨t, hdrop, rfl⟩ := htaken
  rcases startsForm_cases h.starts with ⟨k, hk, rfl⟩ | ⟨hword, before, after, hbefore, hafter, rfl⟩
  · obtain ⟨hne, hchars⟩ := formWords_chars k hk
    obtain ⟨d, k', hd⟩ := List.exists_cons_of_ne_nil hne
    have hself : (k.toList ++ r).dropWhile (· == '-') = k.toList ++ r := by
      rw [hd, List.cons_append, List.dropWhile_cons_of_neg]
      simpa using (hchars d (by simp [hd])).2
    have hwords : ∀ k ∈ formWords, k.toList <+: "help".toList ∨ "help".toList <+: k.toList →
        k = "help" := by decide
    rw [hself] at hdrop
    have hhelp : k = "help" := by
      rcases List.append_eq_append_iff.mp hdrop with ⟨a, ha, -⟩ | ⟨b, hb, -⟩
      · exact hwords k hk (.inl ⟨a, ha.symm⟩)
      · exact hwords k hk (.inr ⟨b, hb.symm⟩)
    subst hhelp
    rw [← List.append_cancel_left hdrop]
    exact ⟨by decide, h.dropWhile_dash⟩
  · refine ⟨hword, ?_⟩
    have hleft : (before ++ ("help".toList ++ after) ++ r).dropWhile (· == '-') =
        "help".toList ++ (after ++ r) := by
      rw [List.append_assoc, List.append_assoc]
      refine (takeWhile_until (fun c hc => beq_iff_eq.mpr (hbefore c hc)) fun c hc => ?_).2
      cases hc
      rfl
    rw [hleft] at hdrop
    rw [← List.append_cancel_left hdrop,
      List.dropWhile_append_of_pos fun c hc => beq_iff_eq.mpr (hafter c hc)]
    exact h.dropWhile_dash

/-- What is captured after a keyword, where it is the first word. -/
theorem keyword_bind {β : Type} {f : String → Matcher β} {b : β} (h : StartsForm word r)
    (hk : IsKeyword k) (hf : (keyword k >>= f) (word ++ r) = some (b, rest)) :
    word = k.toList ∧ f k r = some (b, rest) := by
  obtain ⟨k', t, hkeyword, hrest⟩ := bind_some hf
  obtain ⟨rfl, hkey⟩ := keyword_some hkeyword
  obtain ⟨hword, rfl⟩ := h.keyword?_word hk hkey
  exact ⟨hword, hrest⟩

theorem oneOf_bind {β : Type} {f : String → Matcher β} {b : β} {words : List String}
    (h : StartsForm word r) (hwords : ∀ k ∈ words, IsKeyword k)
    (hf : (oneOf words >>= f) (word ++ r) = some (b, rest)) :
    ∃ k ∈ words, word = k.toList ∧ f k r = some (b, rest) := by
  obtain ⟨k, t, hone, hrest⟩ := bind_some hf
  obtain ⟨hmem, hkey⟩ := oneOf_some hone
  obtain ⟨hword, rfl⟩ := h.keyword?_word (hwords k hmem) hkey
  exact ⟨k, hmem, hword, hrest⟩

end StartsForm
end Statement

/-! ### Forms -/

namespace Form
open Grammar Statement

/-- What the form of a keyword captures of the text after it, and the text that is left. -/
inductive Fits (expression : Infix) : String → List Char → Captured → List Char → Prop
  | config {k : String} {n s rest : List Char} : k ∈ ["config", "menuconfig"] →
      name? s = some (n, rest) → Fits expression k s (.config k n) rest
  | menu {text s rest : List Char} : prompt? s = some (text, rest) →
      Fits expression "menu" s (.menu text) rest
  | choice {n : Option (List Char)} {s rest : List Char} : optionally name? s = some (n, rest) →
      Fits expression "choice" s (.choice n) rest
  | comment {text s rest : List Char} : prompt? s = some (text, rest) →
      Fits expression "comment" s (.comment text) rest
  | mainmenu {text s rest : List Char} : prompt? s = some (text, rest) →
      Fits expression "mainmenu" s (.mainmenu text) rest
  | source {k : String} {path s rest : List Char} :
      k ∈ ["source", "rsource", "osource", "orsource"] → path? s = some (path, rest) →
      Fits expression k s (.source k path) rest
  | block {e : Nested} {s rest : List Char} : listed expression s = some (e, rest) →
      Fits expression "if" s (.block e) rest
  | close {k : String} {s : List Char} : k ∈ ["endmenu", "endchoice", "endif"] →
      Fits expression k s (.close k) s
  | type {k : String} {p : Option (List Char × Option Nested)} {s rest : List Char} :
      k ∈ ["bool", "boolean", "int", "hex", "string"] →
      optionally (prompted expression) s = some (p, rest) → Fits expression k s (.type k p) rest
  | prompt {p : List Char × Option Nested} {s rest : List Char} :
      prompted expression s = some (p, rest) → Fits expression "prompt" s (.prompt p) rest
  | default {e : Nested} {c : Option Nested} {s t rest : List Char} :
      listed expression s = some (e, t) → optionally (condition expression) t = some (c, rest) →
      Fits expression "default" s (.default e c) rest
  | depends {e : Nested} {s t rest : List Char} : keyword? "on" s = some t →
      listed expression t = some (e, rest) → Fits expression "depends" s (.depends e) rest
  | select {k : String} {c : Option Nested} {n s t rest : List Char} : k ∈ ["select", "imply"] →
      name? s = some (n, t) → optionally (condition expression) t = some (c, rest) →
      Fits expression k s (.select k n c) rest
  | range {c : Option Nested} {low high s t u rest : List Char} : symbol? s = some (low, t) →
      symbol? t = some (high, u) → optionally (condition expression) u = some (c, rest) →
      Fits expression "range" s (.range low high c) rest
  | visible {e : Nested} {s t rest : List Char} : keyword? "if" s = some t →
      listed expression t = some (e, rest) → Fits expression "visible" s (.visible e) rest
  | env {name s t u rest : List Char} : keyword? "env" s = some t → sign? "=" t = some u →
      path? u = some (name, rest) → Fits expression "option" s (.env name) rest
  | flag {k : String} {s rest : List Char} : k ∈ ["defconfig_list", "allnoconfig_y"] →
      keyword? k s = some rest → Fits expression "option" s (.flag k) rest
  | optional {s : List Char} : Fits expression "optional" s .optional s

variable {expression : Infix} {word r rest : List Char} {captured : Captured}

theorem fits_entries (h : StartsForm word r)
    (hc : firstOf (entries expression) (word ++ r) = some (captured, rest)) :
    ∃ k, word = k.toList ∧ Fits expression k r captured rest := by
  obtain ⟨m, hmem, hm⟩ := firstOf_some hc
  simp only [entries, List.mem_cons, List.not_mem_nil, or_false] at hmem
  rcases hmem with rfl | rfl | rfl | rfl | rfl | rfl | rfl | rfl
  · obtain ⟨k, hk, hword, hm⟩ := h.oneOf_bind (by decide) hm
    obtain ⟨n, t, hn, hm⟩ := bind_some hm
    cases hm
    exact ⟨k, hword, .config hk hn⟩
  · obtain ⟨hword, hm⟩ := h.keyword_bind (by decide) hm
    obtain ⟨text, t, htext, hm⟩ := bind_some hm
    cases hm
    exact ⟨_, hword, .menu htext⟩
  · obtain ⟨hword, hm⟩ := h.keyword_bind (by decide) hm
    obtain ⟨n, t, hn, hm⟩ := bind_some hm
    cases hm
    exact ⟨_, hword, .choice hn⟩
  · obtain ⟨hword, hm⟩ := h.keyword_bind (by decide) hm
    obtain ⟨text, t, htext, hm⟩ := bind_some hm
    cases hm
    exact ⟨_, hword, .comment htext⟩
  · obtain ⟨hword, hm⟩ := h.keyword_bind (by decide) hm
    obtain ⟨text, t, htext, hm⟩ := bind_some hm
    cases hm
    exact ⟨_, hword, .mainmenu htext⟩
  · obtain ⟨k, hk, hword, hm⟩ := h.oneOf_bind (by decide) hm
    obtain ⟨path, t, hpath, hm⟩ := bind_some hm
    cases hm
    exact ⟨k, hword, .source hk hpath⟩
  · obtain ⟨hword, hm⟩ := h.keyword_bind (by decide) hm
    obtain ⟨e, t, he, hm⟩ := bind_some hm
    cases hm
    exact ⟨_, hword, .block he⟩
  · obtain ⟨k, hk, hword, hm⟩ := h.oneOf_bind (by decide) hm
    cases hm
    exact ⟨k, hword, .close hk⟩

/-- What follows the word `option`. -/
theorem fits_option {s : List Char}
    (hc : firstOf [env, flag "defconfig_list", flag "allnoconfig_y"] s = some (captured, rest)) :
    Fits expression "option" s captured rest := by
  obtain ⟨m, hmem, hm⟩ := firstOf_some hc
  simp only [List.mem_cons, List.not_mem_nil, or_false] at hmem
  rcases hmem with rfl | rfl | rfl
  · obtain ⟨k, t, henv, hm⟩ := bind_some hm
    obtain ⟨_, u, hsign, hm⟩ := bind_some hm
    obtain ⟨name, v, hpath, hm⟩ := bind_some hm
    cases hm
    exact .env (keyword_some henv).2 (sign_some hsign) hpath
  · obtain ⟨k, t, hkeyword, hm⟩ := bind_some hm
    cases hm
    obtain ⟨rfl, hflag⟩ := keyword_some hkeyword
    exact .flag (by decide) hflag
  · obtain ⟨k, t, hkeyword, hm⟩ := bind_some hm
    cases hm
    obtain ⟨rfl, hflag⟩ := keyword_some hkeyword
    exact .flag (by decide) hflag

theorem fits_properties (h : StartsForm word r)
    (hc : firstOf (properties expression) (word ++ r) = some (captured, rest)) :
    (∃ k, word = k.toList ∧ Fits expression k r captured rest) ∨
      isHelpWord word = true ∧ captured = .help ∧ rest = r := by
  obtain ⟨m, hmem, hm⟩ := firstOf_some hc
  simp only [properties, List.mem_cons, List.not_mem_nil, or_false] at hmem
  rcases hmem with rfl | rfl | rfl | rfl | rfl | rfl | rfl | rfl | rfl | rfl
  · obtain ⟨k, hk, hword, hm⟩ := h.oneOf_bind (by decide) hm
    obtain ⟨p, t, hp, hm⟩ := bind_some hm
    cases hm
    exact .inl ⟨k, hword, .type hk hp⟩
  · obtain ⟨hword, hm⟩ := h.keyword_bind (by decide) hm
    obtain ⟨p, t, hp, hm⟩ := bind_some hm
    cases hm
    exact .inl ⟨_, hword, .prompt hp⟩
  · obtain ⟨hword, hm⟩ := h.keyword_bind (by decide) hm
    obtain ⟨e, t, he, hm⟩ := bind_some hm
    obtain ⟨c, u, hc, hm⟩ := bind_some hm
    cases hm
    exact .inl ⟨_, hword, .default he hc⟩
  · obtain ⟨hword, hm⟩ := h.keyword_bind (by decide) hm
    obtain ⟨_, t, hon, hm⟩ := bind_some hm
    obtain ⟨e, u, he, hm⟩ := bind_some hm
    cases hm
    exact .inl ⟨_, hword, .depends (keyword_some hon).2 he⟩
  · obtain ⟨k, hk, hword, hm⟩ := h.oneOf_bind (by decide) hm
    obtain ⟨n, t, hn, hm⟩ := bind_some hm
    obtain ⟨c, u, hc, hm⟩ := bind_some hm
    cases hm
    exact .inl ⟨k, hword, .select hk hn hc⟩
  · obtain ⟨hword, hm⟩ := h.keyword_bind (by decide) hm
    obtain ⟨low, t, hlow, hm⟩ := bind_some hm
    obtain ⟨high, u, hhigh, hm⟩ := bind_some hm
    obtain ⟨c, v, hc, hm⟩ := bind_some hm
    cases hm
    exact .inl ⟨_, hword, .range hlow hhigh hc⟩
  · obtain ⟨hword, hm⟩ := h.keyword_bind (by decide) hm
    obtain ⟨_, t, hif, hm⟩ := bind_some hm
    obtain ⟨e, u, he, hm⟩ := bind_some hm
    cases hm
    exact .inl ⟨_, hword, .visible (keyword_some hif).2 he⟩
  · obtain ⟨hword, hm⟩ := h.keyword_bind (by decide) hm
    exact .inl ⟨_, hword, fits_option hm⟩
  · obtain ⟨hword, hm⟩ := h.keyword_bind (by decide) hm
    cases hm
    exact .inl ⟨_, hword, .optional⟩
  · obtain ⟨_, t, hhelp, hm⟩ := bind_some hm
    cases hm
    obtain ⟨hword, rfl⟩ := h.helpWord_word hhelp
    exact .inr ⟨hword, rfl, rfl⟩

theorem firstOf_append {α : Type} (ms ms' : List (Matcher α)) (s : List Char) :
    firstOf (ms ++ ms') s = (firstOf ms s).or (firstOf ms' s) := by
  induction ms with
  | nil => rfl
  | cons m ms ih =>
    rw [List.cons_append, firstOf, firstOf, ih]
    cases m s <;> rfl

/-- What a line captures is told by its first word and the text after it. -/
theorem fits_of_firstOf (h : StartsForm word r)
    (hc : firstOf (properties expression ++ entries expression) (word ++ r) =
      some (captured, rest)) :
    (∃ k, word = k.toList ∧ Fits expression k r captured rest) ∨
      isHelpWord word = true ∧ captured = .help ∧ rest = r := by
  rw [firstOf_append] at hc
  cases hproperties : firstOf (properties expression) (word ++ r) with
  | some found =>
    rw [hproperties] at hc
    cases hc
    exact fits_properties h hproperties
  | none =>
    rw [hproperties] at hc
    exact .inl (fits_entries h hc)

/-- A dependency is taken where it stands. -/
theorem firstOf_depends {s t : List Char} {e : Nested} (h : StartsForm "depends".toList s)
    (hon : keyword? "on" s = some t) (he : listed expression t = some (e, rest)) :
    firstOf (properties expression ++ entries expression) ("depends".toList ++ s) =
      some (.depends e, rest) := by
  have hnone : ∀ k, IsKeyword k ∧ "depends".toList ≠ k.toList →
      keyword? k ("depends".toList ++ s) = none := fun k hk => h.keyword?_none hk.1 hk.2
  have htypes : ∀ k ∈ ["bool", "boolean", "int", "hex", "string"],
      IsKeyword k ∧ "depends".toList ≠ k.toList := by decide
  have htype : type expression ("depends".toList ++ s) = none :=
    bind_of_none (oneOf_of_none fun k hk => hnone k (htypes k hk))
  have hprompt : Form.prompt expression ("depends".toList ++ s) = none :=
    bind_of_none (keyword_of_none (hnone _ (by decide)))
  have hdefault : Form.default expression ("depends".toList ++ s) = none :=
    bind_of_none (keyword_of_none (hnone _ (by decide)))
  show firstOf (type expression :: Form.prompt expression :: Form.default expression ::
    depends expression :: _) _ = _
  rw [firstOf_of_none htype, firstOf_of_none hprompt, firstOf_of_none hdefault]
  refine firstOf_of_some ?_
  rw [depends, bind_of_some (keyword_of_some h.keyword?_self), bind_of_some (keyword_of_some hon),
    bind_of_some he]
  rfl

/-- The form of a line, its tabs expanded behind the first word. -/
theorem parse?_word (expression : Infix) (hword : '\t' ∉ word) (s : List Char) :
    ∃ column, ∀ captured, parse? expression (word ++ s) = some captured ↔
      ∃ rest, firstOf (properties expression ++ entries expression)
        (word ++ Text.expandTabsFrom column s) = some (captured, rest) ∧ skip rest = [] := by
  obtain ⟨column, hcolumn⟩ := expandTabsFrom_append hword 0 s
  refine ⟨column, fun captured => ?_⟩
  rw [parse?, Text.expandTabs, hcolumn]
  constructor
  · intro h
    obtain ⟨⟨captured', rest⟩, hfirst, hend⟩ := Option.bind_eq_some_iff.mp h
    dsimp only at hend
    split at hend
    · next hnil =>
      cases hend
      exact ⟨rest, hfirst, List.isEmpty_iff.mp hnil⟩
    · exact nomatch hend
  · rintro ⟨rest, hfirst, hnil⟩
    rw [hfirst]
    dsimp only [Option.bind_eq_bind, Option.bind_some]
    rw [hnil]
    rfl

end Form
end Kconfig
