import Kconfig.Text.Blank
import Kconfig.Text.Lines
/-!
Lines that are put together come apart again.

A text made of lines, each with its line feed, splits into these lines. Cutting off the blanks at
the end of a text stops at the last character that is no blank, whatever stands before it.
-/
namespace Kconfig.Text

/-- The text has no line end in it. -/
structure OneLine (s : List Char) : Prop where
  feed : '\n' ∉ s
  carriage : '\r' ∉ s

instance (s : List Char) : Decidable (OneLine s) :=
  decidable_of_iff ('\n' ∉ s ∧ '\r' ∉ s) ⟨fun h => ⟨h.1, h.2⟩, fun h => ⟨h.feed, h.carriage⟩⟩

theorem OneLine.append {s t : List Char} (hs : OneLine s) (ht : OneLine t) : OneLine (s ++ t) :=
  ⟨fun h => (List.mem_append.mp h).elim hs.feed ht.feed,
    fun h => (List.mem_append.mp h).elim hs.carriage ht.carriage⟩

theorem unifyLineEnds_eq_self {s : List Char} (h : '\r' ∉ s) : unifyLineEnds s = s := by
  induction s with
  | nil => rfl
  | cons c s ih =>
    obtain ⟨hc, hs⟩ := not_or.mp (mt List.mem_cons.mpr h)
    have hc : c ≠ '\r' := Ne.symm hc
    rw [unifyLineEnds, ih hs]
    · exact fun _ hcr _ => hc hcr
    · exact hc

theorem splitKeep_line {line : List Char} (h : '\n' ∉ line) (s : List Char) :
    splitKeep (line ++ '\n' :: s) = (line ++ ['\n']) :: splitKeep s := by
  induction line with
  | nil => rw [List.nil_append, splitKeep, if_pos rfl, List.nil_append]
  | cons c line ih =>
    obtain ⟨hc, hline⟩ := not_or.mp (mt List.mem_cons.mpr h)
    rw [List.cons_append, splitKeep, if_neg (Ne.symm hc), ih hline]
    rfl

/-- The lines of a text that was put together from lines are these lines. -/
theorem splitKeep_lines : ∀ {lines : List (List Char)}, (∀ line ∈ lines, '\n' ∉ line) →
    splitKeep (lines.flatMap (· ++ ['\n'])) = lines.map (· ++ ['\n'])
  | [], _ => rfl
  | line :: lines, h => by
    rw [List.flatMap_cons, List.append_assoc, List.singleton_append,
      splitKeep_line (h line (List.mem_cons_self ..)),
      splitKeep_lines fun line' hline' => h line' (List.mem_cons_of_mem _ hline')]
    rfl

variable {p : Char → Bool} {c : Char}

/-- What is of a class ends before a text that starts with no character of it. -/
theorem takeWhile_until {s t : List Char} (hs : ∀ d ∈ s, p d = true)
    (ht : ∀ d, t.head? = some d → p d = false) :
    (s ++ t).takeWhile p = s ∧ (s ++ t).dropWhile p = t := by
  rw [List.takeWhile_append_of_pos hs, List.dropWhile_append_of_pos hs]
  cases t with
  | nil => exact ⟨List.append_nil s, rfl⟩
  | cons d t =>
    have hd : ¬ p d = true := Bool.eq_false_iff.mp (ht d rfl)
    rw [List.takeWhile_cons_of_neg hd, List.dropWhile_cons_of_neg hd, List.append_nil]
    exact ⟨rfl, rfl⟩

/-! ### Blanks at the end -/

/-- Cutting stops at a character that is not of the class. -/
theorem dropRightWhile_append (hc : p c = false) (s t : List Char) :
    dropRightWhile p (s ++ c :: t) = s ++ c :: dropRightWhile p t := by
  induction s with
  | nil =>
    rw [List.nil_append, List.nil_append, dropRightWhile]
    split
    · next h =>
      rw [h, hc]
      rfl
    · rfl
  | cons d s ih =>
    rw [List.cons_append, List.cons_append, dropRightWhile, ih]
    cases s <;> rfl

/-- Nothing goes away before a last character that is not of the class. -/
theorem dropRightWhile_concat_self (hc : p c = false) (s : List Char) :
    dropRightWhile p (s ++ [c]) = s ++ [c] := dropRightWhile_append hc s []

/-- A last character of the class goes away. -/
theorem dropRightWhile_concat (hc : p c = true) (s : List Char) :
    dropRightWhile p (s ++ [c]) = dropRightWhile p s := by
  induction s with
  | nil => simp [dropRightWhile, hc]
  | cons d s ih => rw [List.cons_append, dropRightWhile, ih, dropRightWhile]

/-- What is cut off the end is of the class. -/
theorem dropRightWhile_rest (s : List Char) :
    ∃ rest, s = dropRightWhile p s ++ rest ∧ ∀ c ∈ rest, p c = true := by
  induction s with
  | nil => exact ⟨[], rfl, fun _ h => absurd h List.not_mem_nil⟩
  | cons d s ih =>
    obtain ⟨rest, hs, hrest⟩ := ih
    rw [dropRightWhile]
    split
    · next hnil =>
      rw [hnil, List.nil_append] at hs
      subst hs
      split
      · next hd => exact ⟨d :: s, rfl, List.forall_mem_cons.mpr ⟨hd, hrest⟩⟩
      · exact ⟨s, rfl, hrest⟩
    · exact ⟨rest, congrArg (d :: ·) hs, hrest⟩

/-- What is left is the start of the text. -/
theorem dropRightWhile_starts (s : List Char) : dropRightWhile p s <+: s := by
  obtain ⟨rest, hs, -⟩ := dropRightWhile_rest (p := p) s
  exact ⟨rest, hs.symm⟩

/-- The line feed of a line goes away. -/
theorem trimRight_line (s : List Char) : trimRight (s ++ ['\n']) = trimRight s :=
  dropRightWhile_concat rfl s

/-- Two texts of other characters are other strings. -/
theorem ofList_ne {s t : List Char} (h : s ≠ t) : String.ofList s ≠ String.ofList t :=
  fun heq => h (String.ofList_inj.mp heq)

end Kconfig.Text
