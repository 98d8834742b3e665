/-!
Environment references in quoted texts: `$NAME` and `${NAME}`.

A reference to a variable that is set becomes its value, which is not looked at again; any other
text stays, references to variables that are not set included. Names that the host has a value for
are replaced before.
-/
namespace Kconfig.Text

/-- A character of a variable name that needs no braces. -/
def isWordChar (c : Char) : Bool := c.isAlphanum || c == '_'

/-- The reference that a text starts with, after its `$`: the name, how it is written, the rest. -/
def reference? (s : List Char) : Option (List Char × List Char × List Char) :=
  match s with
  | '{' :: s =>
    let name := s.takeWhile (· != '}')
    match s.dropWhile (· != '}') with
    | _ :: rest => some (name, '{' :: name ++ ['}'], rest)
    | [] => none
  | _ =>
    let name := s.takeWhile isWordChar
    if name.isEmpty then none else some (name, name, s.dropWhile isWordChar)

/-- `s` with every reference replaced by what `lookup` gives; `fuel` is at least its length. -/
def expandReferencesFor (lookup : String → Option String) : Nat → List Char → List Char
  | 0, s => s
  | _, [] => []
  | fuel + 1, '$' :: s =>
    match reference? s with
    | none => '$' :: expandReferencesFor lookup fuel s
    | some (name, written, rest) =>
      (match lookup (String.ofList name) with
        | some value => value.toList
        | none => '$' :: written) ++ expandReferencesFor lookup fuel rest
  | fuel + 1, c :: s => c :: expandReferencesFor lookup fuel s

/-- A text with every reference to a set variable replaced by its value. -/
def expandReferences (lookup : String → Option String) (s : List Char) : List Char :=
  expandReferencesFor lookup s.length s

/-- A text without its next `skip` characters, and with every `old` after them replaced by `new`. -/
def replaceFrom (old new : List Char) : Nat → List Char → List Char
  | _, [] => []
  | skip + 1, _ :: s => replaceFrom old new skip s
  | 0, c :: s =>
    if old.isPrefixOf (c :: s) then new ++ replaceFrom old new (old.length - 1) s
    else c :: replaceFrom old new 0 s

/-- A text with every `old` replaced by `new`. -/
def replaceAll (old new s : List Char) : List Char := replaceFrom old new 0 s

/-- A text without the first character of `old` has nothing to replace. -/
theorem replaceAll_eq_self {c : Char} {old new s : List Char} (h : c ∉ s) :
    replaceAll (c :: old) new s = s := by
  induction s with
  | nil => rfl
  | cons d s ih =>
    obtain ⟨hd, hs⟩ := not_or.mp (mt List.mem_cons.mpr h)
    have hne : (c :: old).isPrefixOf (d :: s) = false := by
      rw [List.isPrefixOf, beq_eq_false_iff_ne.mpr hd, Bool.false_and]
    rw [replaceAll, replaceFrom, hne, if_neg Bool.false_ne_true]
    exact congrArg (d :: ·) (ih hs)

/-- A text without `$` has no references. -/
theorem expandReferences_eq_self {lookup : String → Option String} {s : List Char}
    (h : '$' ∉ s) :
    expandReferences lookup s = s := by
  suffices ∀ fuel, expandReferencesFor lookup fuel s = s from this _
  induction s with
  | nil => intro fuel; cases fuel <;> rfl
  | cons c s ih =>
    simp only [List.mem_cons, not_or] at h
    intro fuel
    cases fuel with
    | zero => rfl
    | succ fuel =>
      rw [expandReferencesFor]
      · rw [ih h.2]
      · rintro rfl; exact h.1 rfl

end Kconfig.Text
