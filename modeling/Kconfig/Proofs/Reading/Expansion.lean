import Kconfig.Proofs.Reading.Confined
/-!
Expanding macros comes to an end, whatever the variables say.

More depth never changes what a macro comes to unless there was too little, and `depthLimit` is
always enough: also for variables that mention themselves or each other, under computed names, and
where expansions that were begun have never ended. So the value of a macro is given by a rule
without any bound. What fails has words, but for one thing: there is no file to name in an
expression that is given by hand.
-/
namespace Kconfig.Macro
variable {α β : Type}

/-! ### Depth -/

/-- The second action does what the first one does, unless that gives up. -/
def Extends (action action' : Reading α) : Prop :=
  ∀ w, ¬ Fails action w .endless → action' w = action w

namespace Extends
variable {action action' : Reading α} {next next' : α → Reading β}

theorem refl (action : Reading α) : Extends action action := fun _ _ => rfl

theorem bind (h : Extends action action') (hnext : ∀ a, Extends (next a) (next' a)) :
    Extends (action >>= next) (action' >>= next') := by
  intro w hends
  rw [bind_apply, bind_apply, h w fun hfails => hends hfails.bind]
  cases haction : action w with
  | ok a w' =>
    refine hnext a w' fun ⟨w'', hfails⟩ => hends ⟨w'', ?_⟩
    rw [bind_apply, haction]
    exact hfails
  | error failure w' => rfl

theorem bind_next (hnext : ∀ a, Extends (next a) (next' a)) :
    Extends (action >>= next) (action >>= next') := (refl action).bind hnext

theorem ite {c : Prop} [Decidable c] {other other' : Reading α} (h : Extends action action')
    (h' : Extends other other') :
    Extends (if c then action else other) (if c then action' else other') := by
  split
  · exact h
  · exact h'

end Extends

section
variable {call call' : List (List Char) → Reading (List Char)} {outer : List (List Char)}

mutual

theorem extends_expandPiece (h : ∀ args, Extends (call args) (call' args)) :
    ∀ p : Piece, Extends (expandPiece call outer p) (expandPiece call' outer p)
  | .char _ => .refl _
  | .call args closed => by
    rw [expandPiece, expandPiece]
    refine .bind (extends_expandArgs h args) fun args => .ite ?_ (.refl _)
    split
    · exact .refl _
    · exact h args

theorem extends_expandArgs (h : ∀ args, Extends (call args) (call' args)) :
    ∀ args : List (List Piece), Extends (expandArgs call outer args) (expandArgs call' outer args)
  | [] => .refl _
  | arg :: more => by
    rw [expandArgs, expandArgs]
    exact .bind (extends_expandPieces h arg) fun _ =>
      .bind (extends_expandArgs h more) fun _ => .refl _

theorem extends_expandPieces (h : ∀ args, Extends (call args) (call' args)) :
    ∀ ps : List Piece, Extends (expandPieces call outer ps) (expandPieces call' outer ps)
  | [] => .refl _
  | p :: more => by
    rw [expandPieces, expandPieces]
    exact .bind (extends_expandPiece h p) fun _ =>
      .bind (extends_expandPieces h more) fun _ => .refl _

end
end

/-- The rule for the value of a macro, where `call` gives the values of the macros inside it. -/
def callBy (call : List (List Char) → Reading (List Char)) (args : List (List Char)) :
    Reading (List Char) := do
  let name := String.ofList (args.headD [])
  let w ← get
  match variableIndex? w name with
  | none => callFunction name (args.drop 1)
  | some index =>
    let v := w.macros[index]?.getD default
    if args.length = 1 then
      if v.active ≠ 0 then Reading.problem (.selfReference name)
    else if v.active > maxNesting then Reading.problem (.endlessFunction name)
    countActive index (· + 1)
    let value ← expandPieces call args (template v.value.toList)
    countActive index (· - 1)
    pure value

/-- A depth more is one level more. -/
theorem callAt_succ (depth : Nat) : callAt (depth + 1) = callBy (callAt depth) := rfl

theorem extends_callBy {call call' : List (List Char) → Reading (List Char)}
    (h : ∀ args, Extends (call args) (call' args)) (args : List (List Char)) :
    Extends (callBy call args) (callBy call' args) := by
  refine .bind_next fun w => ?_
  dsimp only
  split
  · exact .refl _
  · have hrest : ∀ (index : Nat) (value : List Char), Extends (do
        countActive index (· + 1)
        let value ← expandPieces call args (template value)
        countActive index (· - 1)
        pure value : Reading (List Char)) (do
        countActive index (· + 1)
        let value ← expandPieces call' args (template value)
        countActive index (· - 1)
        pure value : Reading (List Char)) := fun index value =>
      .bind_next fun _ => .bind (extends_expandPieces h _) fun _ => .refl _
    split
    · exact .ite (.bind_next fun _ => hrest _ _) (hrest _ _)
    · exact .ite (.bind_next fun _ => hrest _ _) (hrest _ _)

/-- More depth changes nothing where there was enough. -/
theorem extends_callAt : ∀ (depth more : Nat) (args : List (List Char)),
    Extends (callAt depth args) (callAt (depth + more) args)
  | 0, _, _ => fun w hends => absurd ⟨w, rfl⟩ hends
  | depth + 1, more, args => by
    rw [Nat.succ_add, callAt_succ, callAt_succ]
    exact extends_callBy (extends_callAt depth more) args

/-! ### Ends -/

/-- The action has a value or an error with words; or there is no file, and it asked for one. -/
def Concludes (action : Reading α) (w : Workspace) : Prop :=
  Meets action w (fun _ _ => True) fun failure _ =>
    (∃ error, failure = .fatal error) ∨ failure = .illTyped ∧ w.place.spot.file = none

theorem concludes_of_contained {action : Reading α}
    (h : ∀ scene M, Contained scene M action) (w : Workspace) : Concludes action w :=
  (h w.scene (fun _ => True) w (Workspace.holds_scene trivial)).mono (fun _ _ _ => trivial)
    fun _ _ h => h.2

/-- An action that concludes does not give up. -/
theorem Concludes.not_endless {action : Reading α} {w : Workspace} (h : Concludes action w) :
    ¬ Fails action w .endless := by
  rintro ⟨w', haction⟩
  obtain ⟨error, h⟩ | ⟨h, -⟩ := Meets.of_error h haction
  · exact nomatch h
  · exact nomatch h

theorem concludes_call (args : List (List Char)) (w : Workspace) : Concludes (call args) w :=
  concludes_of_contained (fun _ _ => contained_call args) w

/-- Whatever some depth gives, the value of the macro is that, unless there was too little. -/
theorem extends_call (depth : Nat) (args : List (List Char)) :
    Extends (callAt depth args) (call args) := by
  intro w hends
  have henough := extends_callAt (depthLimit w.macros.size) depth args w
    (concludes_call args w).not_endless
  have hmore := extends_callAt depth (depthLimit w.macros.size) args w hends
  rw [Nat.add_comm, hmore] at henough
  exact henough.symm

/-- Any depth from the limit on is enough. -/
theorem callAt_of_le {depth : Nat} {w : Workspace} (h : depthLimit w.macros.size ≤ depth)
    (args : List (List Char)) : callAt depth args w = call args w := by
  obtain ⟨more, rfl⟩ := Nat.exists_eq_add_of_le h
  exact extends_callAt _ more args w (concludes_call args w).not_endless

/-- The value of a macro obeys the rule without any bound. -/
theorem call_eq_callBy (args : List (List Char)) (w : Workspace) :
    call args w = callBy call args w := by
  have hrule : callBy (callAt (depthLimit w.macros.size)) args w = call args w := by
    rw [← callAt_succ]
    exact callAt_of_le (Nat.le_succ _) args
  rw [← hrule]
  refine (extends_callBy (extends_call _) args w ?_).symm
  rw [Fails, hrule]
  exact (concludes_call args w).not_endless

/-- Expanding macros ends. Whatever the variables say, and however many expansions have begun, the
values of macros obey their rule without any bound on the depth, and no more depth than the limit
is ever used; so a text, a name and a quoted text, with any arguments in force, have a value or an
error with words, but where there is no file and a macro asks for its name. -/
theorem expansion_ends (w : Workspace) :
    (∀ args, call args w = callBy call args w) ∧
    (∀ depth, depthLimit w.macros.size ≤ depth → ∀ args, callAt depth args w = call args w) ∧
    (∀ args s, Concludes (expandPieces call args (template s)) w) ∧
    (∀ s, Concludes (readName s) w) ∧ ∀ quote s, Concludes (readString quote s) w :=
  ⟨fun args => call_eq_callBy args w, fun _ h args => callAt_of_le h args,
    fun _ _ => concludes_of_contained (fun _ _ => contained_expandPieces contained_call _) w,
    fun s => concludes_of_contained (fun _ _ => contained_readName s) w,
    fun quote s => concludes_of_contained (fun _ _ => contained_readString quote s) w⟩

/-- Two functions that call each other under a computed name, without a file. -/
def tangled : Workspace where
  macros := #[{ name := "F", value := "$(G$(3),$(1)x)" }, { name := "G", value := "$(F,$(1)y)" }]

/-- The functions end in spite of each other. -/
theorem tangled_ends :
    call ["F".toList, []] tangled = callBy call ["F".toList, []] tangled ∧
    callAt 204 ["F".toList, []] tangled = call ["F".toList, []] tangled ∧
    Concludes (readString '"' "$(F,a)\"".toList) tangled := by
  obtain ⟨hrule, hdepth, -, -, hstring⟩ := expansion_ends tangled
  exact ⟨hrule _, hdepth 204 (by decide) _, hstring _ _⟩

/-- The name of the file is asked for in vain. -/
example : (match expandPieces call [] (template "$(filename)".toList) tangled with
    | .ok .. => none
    | .error failure _ => some failure) = some .illTyped := by decide +kernel

end Kconfig.Macro
