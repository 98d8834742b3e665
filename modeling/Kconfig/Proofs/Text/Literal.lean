import Kconfig.Text.Escape
/-!
Quoted literals read back what they were written for.

Between the quotes of a literal stand plain characters, which are neither quotes nor backslashes, and
characters with a backslash before them, which are no line feeds. Each backslash takes the character
after it along, so where a body ends does not depend on how many backslashes stand before a quote or
on what follows. `literal?` finds exactly these bodies, and an escaped text is one of them.
-/
namespace Kconfig.Text

/-- The text with a backslash before each character of one kind. -/
def backslashed (mark : Char) (s : List Char) : List Char :=
  s.flatMap fun c => if c = mark then ['\\', c] else [c]

theorem backslashed_cons_of_ne {mark c : Char} (h : c ≠ mark) (s : List Char) :
    backslashed mark (c :: s) = c :: backslashed mark s := by
  rw [backslashed, List.flatMap_cons, if_neg h]
  rfl

theorem backslashed_cons_self (mark : Char) (s : List Char) :
    backslashed mark (mark :: s) = '\\' :: mark :: backslashed mark s := by
  rw [backslashed, List.flatMap_cons, if_pos rfl]
  rfl

/-- To escape a text is to mark its backslashes and then its quotes. -/
theorem escape_eq_backslashed (s : List Char) : escape s = backslashed '"' (backslashed '\\' s) := by
  induction s with
  | nil => rfl
  | cons c s ih =>
    by_cases hmark : c = '\\'
    · -- The backslash that the first pass puts there is no quote, so the second leaves it alone.
      rw [hmark, escape, if_pos (.inr rfl), backslashed_cons_self,
        backslashed_cons_of_ne (by decide), backslashed_cons_of_ne (by decide), ih]
    · rw [backslashed_cons_of_ne hmark]
      by_cases hquote : c = '"'
      · rw [hquote, escape, if_pos (.inl rfl), backslashed_cons_self, ih]
      · rw [escape, if_neg (not_or.mpr ⟨hquote, hmark⟩), backslashed_cons_of_ne hquote, ih]

/-- What may stand between the quotes of a literal. -/
inductive LiteralBody : List Char → Prop
  | nil : LiteralBody []
  | plain {c : Char} {s : List Char} (hquote : c ≠ '"') (hmark : c ≠ '\\') (h : LiteralBody s) :
      LiteralBody (c :: s)
  | marked {c : Char} {s : List Char} (hfeed : c ≠ '\n') (h : LiteralBody s) :
      LiteralBody ('\\' :: c :: s)

theorem literalBody_escape (s : List Char) : LiteralBody (escape s) := by
  induction s with
  | nil => exact .nil
  | cons c s ih =>
    by_cases h : c = '"' ∨ c = '\\'
    · have hfeed : c ≠ '\n' := by
        rcases h with rfl | rfl
        · decide
        · decide
      rw [escape, if_pos h]
      exact .marked hfeed ih
    · rw [escape, if_neg h]
      exact .plain (fun hq => h (.inl hq)) (fun hm => h (.inr hm)) ih

/-- A body is read up to the quote after it, whatever follows that quote. -/
theorem LiteralBody.read {body : List Char} (h : LiteralBody body) (t : List Char) :
    literalBody? (body ++ '"' :: t) = some body := by
  induction h with
  | nil => rfl
  | plain hquote hmark _ ih =>
    rw [List.cons_append, literalBody?, if_neg hmark, ih]
    · rfl
    · exact hquote
    · exact fun _ _ hc _ => hmark hc
  | marked hfeed _ ih =>
    rw [List.cons_append, List.cons_append, literalBody?, if_neg hfeed, ih]
    rfl

/-- What is read is a body, with the quote after it. -/
theorem literalBody_of_read {text body : List Char} (h : literalBody? text = some body) :
    LiteralBody body ∧ ∃ t, text = body ++ '"' :: t := by
  fun_induction literalBody? text generalizing body with
  | case1 => exact nomatch h
  | case2 t =>
    obtain rfl := Option.some.inj h
    exact ⟨.nil, t, rfl⟩
  | case3 s => exact nomatch h
  | case4 c s hfeed ih =>
    obtain ⟨body, hbody, rfl⟩ := Option.map_eq_some_iff.mp h
    obtain ⟨hread, t, rfl⟩ := ih hbody
    exact ⟨.marked hfeed hread, t, rfl⟩
  | case5 => exact nomatch h
  | case6 c s hquote hpair hmark ih =>
    obtain ⟨body, hbody, rfl⟩ := Option.map_eq_some_iff.mp h
    obtain ⟨hread, t, rfl⟩ := ih hbody
    exact ⟨.plain hquote hmark hread, t, rfl⟩

/-- The literal at the start of a text is the one way to take the text apart. -/
theorem literal?_eq_some_iff {text body : List Char} :
    literal? text = some body ↔ LiteralBody body ∧ ∃ t, text = '"' :: (body ++ '"' :: t) := by
  constructor
  · intro h
    unfold literal? at h
    split at h
    · next s =>
      obtain ⟨hbody, t, rfl⟩ := literalBody_of_read h
      exact ⟨hbody, t, rfl⟩
    · exact nomatch h
  · rintro ⟨hbody, t, rfl⟩
    exact hbody.read t

theorem quoted_toList (s t : String) :
    ("\"" ++ escaped s ++ "\"" ++ t).toList = '"' :: (escape s.toList ++ '"' :: t.toList) := by
  simp [escaped]

/-- The literal that was written for a text is read, whatever stands after it. -/
theorem literal?_quoted (s t : String) :
    literal? ("\"" ++ escaped s ++ "\"" ++ t).toList = some (escape s.toList) :=
  literal?_eq_some_iff.mpr ⟨literalBody_escape _, t.toList, quoted_toList s t⟩

/-- An escaped text is read back as it was, and in quotes it ends at its own closing quote: there is
no other way to find a literal there, whatever the text is and whatever follows. -/
theorem escaped_read_back (s t : String) :
    unescaped (escaped s) = s ∧
    (escaped s).toList = backslashed '"' (backslashed '\\' s.toList) ∧
    literal? ("\"" ++ escaped s ++ "\"" ++ t).toList = some (escaped s).toList ∧
    ∀ body rest, LiteralBody body →
      ("\"" ++ escaped s ++ "\"" ++ t).toList = '"' :: (body ++ '"' :: rest) →
      body = (escaped s).toList ∧ rest = t.toList := by
  have hescaped : (escaped s).toList = escape s.toList := String.toList_ofList
  rw [hescaped]
  refine ⟨?_, escape_eq_backslashed s.toList, literal?_quoted s t, fun body rest hbody h => ?_⟩
  · rw [unescaped, hescaped, unescape_escape, String.ofList_toList]
  · have hother := literal?_eq_some_iff.mpr ⟨hbody, rest, h⟩
    obtain rfl : escape s.toList = body := Option.some.inj ((literal?_quoted s t).symm.trans hother)
    refine ⟨rfl, ?_⟩
    have hrest := List.append_cancel_left (List.cons.inj (h.symm.trans (quoted_toList s t))).2
    exact (List.cons.inj hrest).2

end Kconfig.Text
