import Kconfig.Proofs.Reading.Expansion
/-!
Expansions that never end.

When an expansion fails, those around it never end, and their variables stay counted as being
expanded. Two workspaces that differ in such counts, but have the same host, the same line and the
same variables, are twins. The same expansion in both of them gives the same, unless the one with
the higher counts refuses a variable that was left behind in the middle of an expansion.
-/
namespace Kconfig.Macro
variable {extra : Nat → Nat} {spot : Spot} {macros : Array Variable} {α β : Type}

/-- The second workspace is like the first one in all that expansions look at, but counts more of
them as begun. -/
structure Twin (extra : Nat → Nat) (w w' : Workspace) : Prop where
  host : w'.host = w.host
  spot : w'.place.spot = w.place.spot
  macros : w'.macros = raise extra w.macros

/-- The failure refuses a variable whose count is higher than it was. -/
def Refuses (extra : Nat → Nat) (spot : Spot) (macros : Array Variable) (failure : Failure) :
    Prop :=
  ∃ (name : String) (index : Nat), macros.findIdx? (·.name == name) = some index ∧
    0 < extra index ∧ (failure = .fatal (.badLine spot (.selfReference name)) ∨
      failure = .fatal (.badLine spot (.endlessFunction name)))

/-- What the same action does to twins. -/
inductive Related (extra : Nat → Nat) (spot : Spot) (macros : Array Variable) {α : Type} :
    EStateM.Result Failure Workspace α → EStateM.Result Failure Workspace α → Prop
  | same {a : α} {w w' : Workspace} (htwin : Twin extra w w') (hspot : w.place.spot = spot)
      (hmacros : w.macros = macros) : Related extra spot macros (.ok a w) (.ok a w')
  | fails (failure : Failure) (w w' : Workspace) :
      Related extra spot macros (.error failure w) (.error failure w')
  | refused {failure : Failure} (hrefuses : Refuses extra spot macros failure)
      (r : EStateM.Result Failure Workspace α) (w' : Workspace) :
      Related extra spot macros r (.error failure w')

/-- Twins at a line with certain variables stay twins, with the same variables as before. -/
def Lockstep (extra : Nat → Nat) (spot : Spot) (macros : Array Variable) (action : Reading α) :
    Prop := ∀ w w', w.place.spot = spot → w.macros = macros → Twin extra w w' →
      Related extra spot macros (action w) (action w')

namespace Lockstep

theorem pure (a : α) : Lockstep extra spot macros (Pure.pure a : Reading α) :=
  fun _ _ hspot hmacros htwin => .same htwin hspot hmacros

theorem throw (failure : Failure) :
    Lockstep extra spot macros (MonadExcept.throw failure : Reading α) :=
  fun _ _ _ _ _ => .fails _ _ _

theorem bind {action : Reading α} {next : α → Reading β} (h : Lockstep extra spot macros action)
    (hnext : ∀ a, Lockstep extra spot macros (next a)) :
    Lockstep extra spot macros (action >>= next) := by
  intro w w' hspot hmacros htwin
  have hrelated := h w w' hspot hmacros htwin
  rw [bind_apply, bind_apply]
  generalize action w = r, action w' = r' at hrelated
  cases hrelated with
  | same htwin hspot hmacros => exact hnext _ _ _ hspot hmacros htwin
  | fails failure => exact .fails _ _ _
  | refused hrefuses => exact .refused hrefuses _ _

/-- What is looked at in one twin may differ from what is looked at in the other. -/
theorem bind_get {next : Workspace → Reading α}
    (h : ∀ w w', w.place.spot = spot → w.macros = macros → Twin extra w w' →
      Related extra spot macros (next w w) (next w' w')) :
    Lockstep extra spot macros (get >>= next) := h

/-- A change of what expansions do not look at. -/
theorem update {f : Workspace → Workspace} (hf : ∀ w, (f w).host = w.host ∧
      (f w).place.spot = w.place.spot ∧ (f w).macros = w.macros) :
    Lockstep extra spot macros (modify f : Reading PUnit) := by
  intro w w' hspot hmacros htwin
  obtain ⟨hhost, hplace, hsame⟩ := hf w
  obtain ⟨hhost', hplace', hsame'⟩ := hf w'
  refine .same ⟨?_, ?_, ?_⟩ (hplace.trans hspot) (hsame.trans hmacros)
  · rw [hhost, hhost', htwin.host]
  · rw [hplace, hplace', htwin.spot]
  · rw [hsame, hsame', htwin.macros]

theorem ite {c : Prop} [Decidable c] {action action' : Reading α}
    (h : Lockstep extra spot macros action) (h' : Lockstep extra spot macros action') :
    Lockstep extra spot macros (if c then action else action') := by
  split
  · exact h
  · exact h'

end Lockstep

section
open Reading

theorem lockstep_problem (p : Problem) : Lockstep extra spot macros (problem p : Reading α) := by
  refine .bind_get fun w w' _ _ htwin => ?_
  rw [htwin.spot]
  exact .fails _ _ _

theorem lockstep_warnHere (warning : Warning) :
    Lockstep extra spot macros (warnHere warning) := .update fun _ => ⟨rfl, rfl, rfl⟩

theorem lockstep_useVariable? (name : String) :
    Lockstep extra spot macros (useVariable? name) := by
  refine .bind_get fun w w' hspot hmacros htwin => ?_
  rw [htwin.host]
  cases w.host.lookup? name with
  | none => exact .same htwin hspot hmacros
  | some value =>
    refine Lockstep.bind (.update fun w => ?_) (fun _ => .pure _) w w' hspot hmacros htwin
    split <;> exact ⟨rfl, rfl, rfl⟩

/-! ### Functions -/

theorem lockstep_decodeOutput (bytes : List UInt8) :
    Lockstep extra spot macros (decodeOutput bytes) := by
  unfold decodeOutput
  split
  · exact .pure _
  · refine .bind_get fun w w' _ _ htwin => ?_
    rw [htwin.spot]
    exact .fails _ _ _

/-- A command runs on the same host. -/
theorem lockstep_runShell (command : List Char) :
    Lockstep extra spot macros (runShell command) := by
  refine .bind_get fun w w' hspot hmacros htwin => ?_
  rw [htwin.host]
  dsimp only
  generalize w.host.shell.run w.host.lookup? w.host.files (String.ofList command) = outcome
  have hrest : Lockstep extra spot macros (do
      let out ← decodeOutput outcome.out
      let err ← decodeOutput outcome.err
      unless err.isEmpty do
        let lines := (Text.splitLines err).map String.ofList
        warnHere (.shellErrors (String.ofList command) ("\\n".intercalate lines))
      pure (joinOutput out)) :=
    .bind (lockstep_decodeOutput _) fun out => .bind (lockstep_decodeOutput _) fun err =>
      .ite (.pure _) (.bind (lockstep_warnHere _) fun _ => .pure _)
  exact hrest { w with host := { w.host with files := outcome.store } }
    { w' with host := { w.host with files := outcome.store } } hspot hmacros
    ⟨rfl, htwin.spot, htwin.macros⟩

theorem lockstep_builtin (args : List (List Char)) (f : Builtin) :
    Lockstep extra spot macros (f.call args) := by
  refine .bind_get fun w w' hspot hmacros htwin => ?_
  rw [htwin.spot]
  have hprint : ∀ message, Lockstep extra spot macros (do
      modify fun w => { w with journal := w.journal.print message }
      pure [] : Reading (List Char)) := fun message =>
    .bind (.update fun _ => ⟨rfl, rfl, rfl⟩) fun _ => .pure _
  dsimp only
  split
  · exact hprint _ w w' hspot hmacros htwin
  · exact Lockstep.ite (.throw _) (.pure _) w w' hspot hmacros htwin
  · exact Lockstep.ite (.bind (lockstep_warnHere _) fun _ => .pure _) (.pure _) w w' hspot hmacros
      htwin
  · cases w.place.spot.file with
    | some file => exact .same htwin hspot hmacros
    | none => exact .fails _ _ _
  · exact .same htwin hspot hmacros
  · exact lockstep_runShell _ w w' hspot hmacros htwin
  · exact .fails _ _ _

theorem lockstep_callFunction (name : String) (args : List (List Char)) :
    Lockstep extra spot macros (callFunction name args) := by
  unfold callFunction
  split
  · refine .ite (lockstep_builtin _ _) (.bind_get fun w w' _ _ htwin => ?_)
    rw [htwin.spot]
    exact .fails _ _ _
  · exact .bind (lockstep_useVariable? _) fun _ => .pure _

end

section
variable {call : List (List Char) → Reading (List Char)} {outer : List (List Char)}

mutual

theorem lockstep_expandPiece (h : ∀ args, Lockstep extra spot macros (call args)) :
    ∀ p : Piece, Lockstep extra spot macros (expandPiece call outer p)
  | .char _ => .pure _
  | .call args closed => by
    rw [expandPiece]
    refine .bind (lockstep_expandArgs h args) fun args => .ite ?_ (lockstep_problem _)
    split
    · exact .pure _
    · exact h args

theorem lockstep_expandArgs (h : ∀ args, Lockstep extra spot macros (call args)) :
    ∀ args : List (List Piece), Lockstep extra spot macros (expandArgs call outer args)
  | [] => .pure _
  | arg :: more => by
    rw [expandArgs]
    exact .bind (lockstep_expandPieces h arg) fun _ =>
      .bind (lockstep_expandArgs h more) fun _ => .pure _

theorem lockstep_expandPieces (h : ∀ args, Lockstep extra spot macros (call args)) :
    ∀ ps : List Piece, Lockstep extra spot macros (expandPieces call outer ps)
  | [] => .pure _
  | p :: more => by
    rw [expandPieces]
    exact .bind (lockstep_expandPiece h p) fun _ =>
      .bind (lockstep_expandPieces h more) fun _ => .pure _

end
end

/-! ### Variables -/

/-- Variables are found where they were. -/
theorem findIdx?_raise (extra : Nat → Nat) (macros : Array Variable) (name : String) :
    (raise extra macros).findIdx? (·.name == name) = macros.findIdx? (·.name == name) := by
  refine Option.ext fun index => ?_
  simp [Array.findIdx?_eq_some_iff_getElem, raise]

theorem findIdx?_begun (index : Nat) (macros : Array Variable) (name : String) :
    (begun index macros).findIdx? (·.name == name) = macros.findIdx? (·.name == name) := by
  rw [begun_eq_raise, findIdx?_raise]

theorem raise_begun (extra : Nat → Nat) (index : Nat) (macros : Array Variable) :
    raise extra (begun index macros) = begun index (raise extra macros) := by
  rw [begun_eq_raise, begun_eq_raise, raise_raise, raise_raise]
  exact congrArg (raise · macros) (funext fun _ => Nat.add_comm _ _)

theorem Refuses.of_begun {index : Nat} {failure : Failure}
    (h : Refuses extra spot (begun index macros) failure) : Refuses extra spot macros failure := by
  obtain ⟨name, i, hfind, hextra, hfailure⟩ := h
  exact ⟨name, i, by rwa [findIdx?_begun] at hfind, hextra, hfailure⟩

/-- An expansion that ends takes back what its beginning counted, in both twins. -/
theorem lockstep_counted {index : Nat} {action : Reading α}
    (h : Lockstep extra spot (begun index macros) action) : Lockstep extra spot macros (do
      countActive index (· + 1)
      let a ← action
      countActive index (· - 1)
      pure a) := by
  intro w w' hspot hmacros htwin
  have hbegun : Twin extra { w with macros := begun index w.macros }
      { w' with macros := begun index w'.macros } := by
    refine ⟨htwin.host, htwin.spot, ?_⟩
    rw [htwin.macros]
    exact (raise_begun extra index w.macros).symm
  have hrelated := h _ _ (by exact hspot) (congrArg (begun index) hmacros) hbegun
  show Related extra spot macros ((action >>= fun a => do countActive index (· - 1); pure a) _)
    ((action >>= fun a => do countActive index (· - 1); pure a) _)
  rw [bind_apply, bind_apply]
  generalize action { w with macros := begun index w.macros } = r,
    action { w' with macros := begun index w'.macros } = r' at hrelated
  cases hrelated with
  | @same a w₁ w₁' htwin hspot hmacros' =>
    have hback : (w₁.macros.modify index fun v => { v with active := v.active - 1 }) = macros := by
      rw [hmacros', modify_begun]
    have hback' : (w₁'.macros.modify index fun v => { v with active := v.active - 1 }) =
        raise extra macros := by
      rw [htwin.macros, hmacros', raise_begun, modify_begun]
    refine .same ⟨htwin.host, htwin.spot, ?_⟩ hspot hback
    exact hback'.trans (congrArg (raise extra) hback.symm)
  | fails failure => exact .fails _ _ _
  | refused hrefuses => exact .refused hrefuses.of_begun _ _

/-- A check that fails the more, the more often variables are counted. -/
theorem related_check {p : Problem} {rest : Reading α} {c c' : Prop} [Decidable c] [Decidable c']
    (hc : c → c') (hrefuses : c' → ¬ c → Refuses extra spot macros (.fatal (.badLine spot p)))
    (hrest : Lockstep extra spot macros rest) {w w' : Workspace} (hspot : w.place.spot = spot)
    (hmacros : w.macros = macros) (htwin : Twin extra w w') :
    Related extra spot macros
      ((if c then Reading.problem p >>= fun _ : PUnit => rest else rest) w)
      ((if c' then Reading.problem p >>= fun _ : PUnit => rest else rest) w') := by
  by_cases hholds' : c'
  · rw [if_pos hholds']
    by_cases hholds : c
    · rw [if_pos hholds]
      exact Lockstep.bind (lockstep_problem p) (fun _ => hrest) w w' hspot hmacros htwin
    · refine .refused ?_ _ w'
      rw [htwin.spot, hspot]
      exact hrefuses hholds' hholds
  · rw [if_neg hholds', if_neg fun hholds => hholds' (hc hholds)]
    exact hrest w w' hspot hmacros htwin

/-- The same depth gives the same in both twins, unless the second one refuses a variable that is
counted more often there. -/
theorem lockstep_callAt : ∀ (depth : Nat) (macros : Array Variable) (args : List (List Char)),
    Lockstep extra spot macros (callAt depth args)
  | 0, _, _ => .throw _
  | depth + 1, macros, args => by
    refine .bind_get fun w w' hspot hmacros htwin => ?_
    have hfind : variableIndex? w' (String.ofList (args.headD [])) =
        variableIndex? w (String.ofList (args.headD [])) := by
      rw [variableIndex?, htwin.macros, findIdx?_raise]
      rfl
    dsimp only
    rw [hfind]
    cases hindex : variableIndex? w (String.ofList (args.headD [])) with
    | none => exact lockstep_callFunction _ _ w w' hspot hmacros htwin
    | some index =>
      have hlt : index < w.macros.size := (Array.findIdx?_eq_some_iff_getElem.mp hindex).1
      have hvariable : w'.macros[index]?.getD default =
          { w.macros[index] with active := w.macros[index].active + extra index } := by
        rw [htwin.macros, raise, Array.getElem?_mapIdx, Array.getElem?_eq_getElem hlt]
        rfl
      have hrefuses : ∀ p : Problem, 0 < extra index → (p = .selfReference (String.ofList
          (args.headD [])) ∨ p = .endlessFunction (String.ofList (args.headD []))) →
          Refuses extra spot macros (.fatal (.badLine spot p)) := by
        rintro p hextra hp
        refine ⟨_, index, (congrArg _ hmacros.symm).trans hindex, hextra, ?_⟩
        obtain rfl | rfl := hp
        · exact .inl rfl
        · exact .inr rfl
      have hbody : Lockstep extra spot macros (do
          countActive index (· + 1)
          let value ← expandPieces (callAt depth) args (template w.macros[index].value.toList)
          countActive index (· - 1)
          pure value) :=
        lockstep_counted (lockstep_expandPieces (lockstep_callAt depth _) _)
      dsimp only
      rw [hvariable, Array.getElem?_eq_getElem hlt, Option.getD_some]
      dsimp only
      split
      · exact related_check (by omega) (fun _ _ => hrefuses _ (by omega) (.inl rfl)) hbody hspot
          hmacros htwin
      · exact related_check (by omega) (fun _ _ => hrefuses _ (by omega) (.inr rfl)) hbody hspot
          hmacros htwin

/-- Twins have the same depth. -/
theorem lockstep_call (args : List (List Char)) : Lockstep extra spot macros (call args) := by
  refine .bind_get fun w w' hspot hmacros htwin => ?_
  have hsize : w'.macros.size = w.macros.size := by
    rw [htwin.macros]
    exact Array.size_mapIdx
  rw [hsize]
  exact lockstep_callAt _ _ _ w w' hspot hmacros htwin

/-- The same expansion gives the same in both twins, unless the second one refuses a variable that
is counted more often there. -/
theorem outcome_call_of_twin {w w' : Workspace} (h : Twin extra w w') (args : List (List Char)) :
    outcome (call args w') = outcome (call args w) ∨
      ∃ failure, Fails (call args) w' failure ∧ Refuses extra w.place.spot w.macros failure := by
  have hrelated := lockstep_call args w w' rfl rfl h
  cases hresult : call args w' with
  | ok value w₁' =>
    rw [hresult] at hrelated
    generalize call args w = r at hrelated
    cases hrelated with
    | same => exact .inl rfl
  | error failure w₁' =>
    rw [hresult] at hrelated
    generalize call args w = r at hrelated
    cases hrelated with
    | fails => exact .inl rfl
    | refused hrefuses => exact .inr ⟨failure, ⟨w₁', hresult⟩, hrefuses⟩

/-! ### What failures leave behind -/

/-- How many expansions of the variable of a number have begun and not ended. -/
def activeAt (macros : Array Variable) (index : Nat) : Nat :=
  (macros[index]?.getD default).active

theorem activeAt_raise {index : Nat} {macros : Array Variable} (h : index < macros.size) :
    activeAt (raise extra macros) index = activeAt macros index + extra index := by
  rw [activeAt, activeAt, raise, Array.getElem?_mapIdx, Array.getElem?_eq_getElem h]
  rfl

/-- Counts never get lower again. -/
theorem Left.activeAt_le {index : Nat} {before after : Array Variable} (h : Left before after)
    (hindex : index < before.size) : activeAt before index ≤ activeAt after index := by
  obtain ⟨extra, rfl⟩ := h
  rw [activeAt_raise hindex]
  exact Nat.le_add_right _ _

theorem activeAt_begun {index : Nat} {macros : Array Variable} (h : index < macros.size) :
    activeAt (begun index macros) index = activeAt macros index + 1 := by
  rw [begun_eq_raise, activeAt_raise h, if_pos rfl]

/-- Why a macro of a variable is refused, of which so many expansions have begun and not ended. -/
def refusal? (args : List (List Char)) (active : Nat) : Option Problem :=
  if args.length = 1 then
    if active ≠ 0 then some (.selfReference (String.ofList (args.headD []))) else none
  else if active > maxNesting then some (.endlessFunction (String.ofList (args.headD []))) else none

/-- The text of a variable, expanded while one more expansion of the variable counts. -/
def expandCounted (args : List (List Char)) (index : Nat) (v : Variable) :
    Reading (List Char) := do
  countActive index (· + 1)
  let value ← expandPieces call args (template v.value.toList)
  countActive index (· - 1)
  pure value

/-- A text that cannot be expanded leaves its variable counted once more, or more often. -/
theorem meets_expandCounted (args : List (List Char)) {index : Nat} {w : Workspace}
    (hlt : index < w.macros.size) (v : Variable) :
    Meets (expandCounted args index v) w (fun _ _ => True)
      fun _ w' => activeAt w.macros index < activeAt w'.macros index := by
  refine (meets_countActive (Workspace.holds_scene rfl) rfl).bind fun _ w₁ hw₁ => ?_
  refine .bind ((contained_expandPieces contained_call _ w₁ hw₁).mono (fun _ _ h => h)
    fun failure w₂ hfails => ?_) fun _ w₂ hw₂ => ?_
  · obtain ⟨_, rfl, hleft⟩ := hfails.1.left
    have hle := hleft.activeAt_le (show index < (begun index w.macros).size by
      rwa [Array.size_modify])
    rw [activeAt_begun hlt] at hle
    exact hle
  · exact (meets_countActive hw₂ rfl).bind fun _ _ _ => trivial

section
variable {args : List (List Char)} {index : Nat} {w w' : Workspace}
  (hindex : variableIndex? w (String.ofList (args.headD [])) = some index)
include hindex

/-- A macro of a variable is refused, or the text of the variable is expanded. -/
theorem call_variable : call args w =
    (refusal? args (activeAt w.macros index)).elim
      (expandCounted args index (w.macros[index]?.getD default)) Reading.problem w := by
  have hget : (get : Reading Workspace) w = .ok w w := rfl
  rw [call_eq_callBy]
  unfold callBy refusal? activeAt
  rw [bind_apply, hget]
  dsimp only
  rw [hindex]
  dsimp only
  by_cases hargs : args.length = 1
  · rw [if_pos hargs, if_pos hargs]
    by_cases hactive : (w.macros[index]?.getD default).active ≠ 0
    · rw [if_pos hactive, if_pos hactive]
      rfl
    · rw [if_neg hactive, if_neg hactive]
      rfl
  · rw [if_neg hargs, if_neg hargs]
    by_cases hactive : (w.macros[index]?.getD default).active > maxNesting
    · rw [if_pos hactive, if_pos hactive]
      rfl
    · rw [if_neg hactive, if_neg hactive]
      rfl

theorem call_of_refusal {p : Problem} (h : refusal? args (activeAt w.macros index) = some p) :
    call args w = .error (.fatal (.badLine w.place.spot p)) w := by
  rw [call_variable hindex, h]
  rfl

/-- When its text cannot be expanded, a variable stays counted once more at least. -/
theorem activeAt_of_call_error (h : refusal? args (activeAt w.macros index) = none)
    {failure : Failure} (hfails : call args w = .error failure w') :
    activeAt w.macros index < activeAt w'.macros index := by
  have hlt : index < w.macros.size := (Array.findIdx?_eq_some_iff_getElem.mp hindex).1
  rw [call_variable hindex, h] at hfails
  exact (meets_expandCounted args hlt _).of_error hfails

end

end Kconfig.Macro
