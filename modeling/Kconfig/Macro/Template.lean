/-!
Texts with macros, taken apart.

A macro is `$(` with arguments up to its closing parenthesis: commas at the outermost level part the
arguments, inner parentheses belong to them. The shape of a text does not hang on what its macros
expand to, so a text is taken apart first and expanded later, from left to right. A macro without
its closing parenthesis takes everything up to the end.
-/
namespace Kconfig.Macro

inductive Piece where
  | char (c : Char)
  | call (args : List (List Piece)) (closed : Bool)
  deriving Repr, Inhabited

/-- A macro that is being read: complete arguments and the current one, last first, and how many
inner parentheses are open. -/
structure Frame where
  args : List (List Piece) := []
  current : List Piece := []
  depth : Nat := 0

/-- The macro that was read. -/
def Frame.call (f : Frame) (closed : Bool) : Piece :=
  .call (f.current.reverse :: f.args).reverse closed

def Frame.push (f : Frame) (p : Piece) : Frame := { f with current := p :: f.current }

/-- A macro cut off by the end of the text, inside those around it. -/
def Frame.cut (f : Frame) : List Frame → Piece
  | [] => f.call false
  | outer :: more => (outer.push (f.call false)).cut more

/-- The macro whose `$(` is read, and the text after it; `outer` are the macros around it. -/
def Frame.read (f : Frame) (outer : List Frame) : List Char → Piece × List Char
  | [] => (f.cut outer, [])
  | '$' :: '(' :: s => Frame.read {} (f :: outer) s
  | c :: s =>
    if c = '(' then Frame.read { f.push (.char c) with depth := f.depth + 1 } outer s
    else if c = ')' then
      if f.depth = 0 then
        match outer with
        | [] => (f.call true, s)
        | g :: outer => Frame.read (g.push (f.call true)) outer s
      else Frame.read { f.push (.char c) with depth := f.depth - 1 } outer s
    else if c = ',' ∧ f.depth = 0 then
      Frame.read { f with args := f.current.reverse :: f.args, current := [] } outer s
    else Frame.read (f.push (.char c)) outer s

theorem Frame.read_length (f : Frame) (outer : List Frame) (s : List Char) :
    (f.read outer s).2.length ≤ s.length := by
  fun_induction Frame.read f outer s <;> simp_all <;> omega

/-- The pieces at the start of a text: macros and characters of a class; and the text after them. -/
def readPieces (p : Char → Bool) : List Char → List Piece × List Char
  | [] => ([], [])
  | '$' :: '(' :: s =>
    let call := Frame.read {} [] s
    let r := readPieces p call.2
    (call.1 :: r.1, r.2)
  | c :: s =>
    if p c then
      let r := readPieces p s
      (.char c :: r.1, r.2)
    else ([], c :: s)
termination_by s => s.length
decreasing_by
  · have := Frame.read_length {} [] s
    simp only [List.length_cons]
    omega
  · simp

/-- The pieces of a whole text. -/
def template (s : List Char) : List Piece := (readPieces (fun _ => true) s).1

/-- The pieces up to a quote, and the text after the quote, if there is one. A backslash is dropped
and the character after it stands for itself. -/
def readQuoted (quote : Char) : List Char → List Piece × Option (List Char)
  | [] => ([], none)
  | '$' :: '(' :: s =>
    let call := Frame.read {} [] s
    let r := readQuoted quote call.2
    (call.1 :: r.1, r.2)
  | ['\\'] => ([], none)
  | '\\' :: c :: s =>
    let r := readQuoted quote s
    (.char c :: r.1, r.2)
  | c :: s =>
    if c = quote then ([], some s)
    else
      let r := readQuoted quote s
      (.char c :: r.1, r.2)
termination_by s => s.length
decreasing_by
  · have := Frame.read_length {} [] s
    simp only [List.length_cons]
    omega
  · simp only [List.length_cons]
    omega
  · simp

/-- The characters up to a quote, and the text after the quote, if there is one. -/
def readPlainQuoted (quote : Char) (s : List Char) : Option (List Char × List Char) :=
  match s.dropWhile (· != quote) with
  | _ :: rest => some (s.takeWhile (· != quote), rest)
  | [] => none

end Kconfig.Macro
