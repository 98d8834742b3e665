import Kconfig.Macro.Expand
import Kconfig.Proofs.Reading.Unread
/-!
Macros leave the model alone.

Expanding macros looks up environment variables, runs commands, warns, and changes macro variables.
Nothing of that touches the environment or the model that is read, and nothing looks at the model or
at the version of the notation.
-/
namespace Kconfig
variable {α β : Type}

/-- What references in quoted texts stand for: the environment, and the release of the kernel. -/
def Host.meanings (host : Host) : List (String × String) × String := (host.env, host.release)

/-- Nothing of the model and of what references stand for changes. -/
structure Aside (w w' : Workspace) : Prop where
  model : w'.model = w.model
  isOpen : w'.isOpen = w.isOpen
  meanings : w'.host.meanings = w.host.meanings

instance : Onward Aside where
  refl _ := ⟨rfl, rfl, rfl⟩
  trans h h' := ⟨h'.model.trans h.model, h'.isOpen.trans h.isOpen, h'.meanings.trans h.meanings⟩

/-- A change of the version of the notation and of the model. -/
structure Recasting where
  version : Int → Int := id
  model : Model → Model := id

/-- The workspace with another version and another model. -/
def Workspace.recast (r : Recasting) (w : Workspace) : Workspace :=
  { w with settings.version := r.version w.settings.version, model := r.model w.model }

/-- The action leaves the model alone, also when it fails, and looks neither at it nor at the
version of the notation. -/
structure Aloof (action : Reading α) : Prop where
  keeps : ∀ w, Keeps (Aside w) action
  blind : ∀ r, Blind (Workspace.recast r) action

namespace Aloof

theorem aside {action : Reading α} (h : Aloof action) : Moves Aside action := by
  intro w a w' ha
  have hw' := h.keeps w w (Onward.refl w)
  unfold KeepsAt at hw'
  rw [ha] at hw'
  exact hw'

/-- What hangs on the model alone is kept. -/
theorem keeping {P : Workspace → Prop} {action : Reading α} (h : Aloof action)
    (hP : ∀ w w', Aside w w' → P w → P w') : Keeps P action := fun w hw =>
  hP w _ (h.keeps w w (Onward.refl w)) hw

theorem pure (a : α) : Aloof (Pure.pure a) := ⟨fun _ => .pure a, fun _ => .pure a⟩

theorem throw (e : Failure) : Aloof (MonadExcept.throw e : Reading α) :=
  ⟨fun _ => .throw e, fun _ => .throw e⟩

theorem bind {action : Reading α} {next : α → Reading β} (h : Aloof action)
    (hnext : ∀ a, Aloof (next a)) : Aloof (action >>= next) :=
  ⟨fun w => .bind (h.keeps w) fun a => (hnext a).keeps w,
    fun r => .bind (h.blind r) fun a => (hnext a).blind r⟩

theorem bind_get {next : Workspace → Reading α} (hnext : ∀ w r, next (w.recast r) = next w)
    (h : ∀ w, Aloof (next w)) : Aloof (get >>= next) :=
  ⟨fun w => .bind .get fun w' => (h w').keeps w,
    fun r => .bind_get (hnext · r) fun w => (h w).blind r⟩

theorem get_set {f : Workspace → Workspace} {next : Workspace → Reading α}
    (haside : ∀ w, Aside w (f w)) (hf : ∀ w r, f (w.recast r) = (f w).recast r)
    (hnext : ∀ w r, next (w.recast r) = next w) (h : ∀ w, Aloof (next w)) : Aloof (do
      let w ← get
      set (f w)
      next w) :=
  ⟨fun w => .get_set (fun w' hw' => Onward.trans hw' (haside w')) fun w' => (h w').keeps w,
    fun r => .get_set (hf · r) (hnext · r) fun w => (h w).blind r⟩

theorem update {f : Workspace → Workspace} (haside : ∀ w, Aside w (f w))
    (hf : ∀ w r, f (w.recast r) = (f w).recast r) : Aloof (modify f : Reading PUnit) :=
  ⟨fun _ => .update fun w hw => Onward.trans hw (haside w), fun r => .update (hf · r)⟩

/-- A change that is made only where it is needed. -/
theorem update_unless {c : Workspace → Bool} {f : Workspace → Workspace}
    (hc : ∀ w r, c (w.recast r) = c w) (haside : ∀ w, Aside w (f w))
    (hf : ∀ w r, f (w.recast r) = (f w).recast r) :
    Aloof (modify fun w => if c w then w else f w : Reading PUnit) := by
  refine update (fun w => ?_) fun w r => ?_
  · split
    · exact ⟨rfl, rfl, rfl⟩
    · exact haside w
  · rw [hc]
    split
    · rfl
    · exact hf w r

theorem ite {c : Prop} [Decidable c] {action action' : Reading α} (h : Aloof action)
    (h' : Aloof action') : Aloof (if c then action else action') := by
  split
  · exact h
  · exact h'

end Aloof

theorem Aloof.unversioned {action : Reading α} (h : Aloof action) (n : Int) :
    Blind (Workspace.asVersion n) action := h.blind { version := fun _ => n }

namespace Reading

theorem aside_warn (warning : Warning) : Moves Aside (warn warning) := .update fun _ => ⟨rfl, rfl, rfl⟩

theorem aloof_fatal (error : Fatal) : Aloof (fatal error : Reading α) := .throw _

theorem aloof_problem (p : Problem) : Aloof (problem p : Reading α) :=
  ⟨fun _ => .bind .get fun _ => .throw _, fun _ => .problem p⟩

theorem aloof_warnHere (warning : Warning) : Aloof (warnHere warning) :=
  .update (fun _ => ⟨rfl, rfl, rfl⟩) fun _ _ => rfl

theorem aloof_useVariable? (name : String) : Aloof (useVariable? name) := by
  refine .bind_get (fun _ _ => rfl) fun w => ?_
  split
  · refine .bind ?_ fun _ => .pure _
    exact .update_unless (fun _ _ => rfl) (fun _ => ⟨rfl, rfl, rfl⟩) fun _ _ => rfl
  · exact .pure _

theorem aloof_expandEnv (text : List Char) : Aloof (expandEnv text) :=
  .bind_get (fun _ _ => rfl) fun _ => .pure _

theorem aloof_beginLine (line : List Char) : Aloof (beginLine line) := by
  refine .bind (.update (fun _ => ⟨rfl, rfl, rfl⟩) fun _ _ => rfl) fun _ => ?_
  unfold noteRemark
  split
  · exact .pure _
  · exact .update_unless (fun _ _ => rfl) (fun _ => ⟨rfl, rfl, rfl⟩) fun _ _ => rfl
  · exact .update_unless (fun _ _ => rfl) (fun _ => ⟨rfl, rfl, rfl⟩) fun _ _ => rfl

end Reading

namespace Macro
open Reading

theorem aloof_decodeOutput (bytes : List UInt8) : Aloof (decodeOutput bytes) := by
  unfold decodeOutput
  split
  · exact .pure _
  · exact .bind_get (fun _ _ => rfl) fun _ => aloof_fatal _

theorem aloof_runShell (command : List Char) : Aloof (runShell command) := by
  refine .get_set (fun _ => ⟨rfl, rfl, rfl⟩) (fun _ _ => rfl) (fun _ _ => rfl) fun w => ?_
  refine .bind (aloof_decodeOutput _) fun out => .bind (aloof_decodeOutput _) fun err => ?_
  exact .ite (.pure _) (.bind (aloof_warnHere _) fun _ => .pure _)

theorem aloof_builtin (args : List (List Char)) (f : Builtin) : Aloof (f.call args) := by
  refine .bind_get (fun _ _ => rfl) fun w => ?_
  dsimp only
  split
  · exact .bind (.update (fun _ => ⟨rfl, rfl, rfl⟩) fun _ _ => rfl) fun _ => .pure _
  · exact .ite (aloof_fatal _) (.pure _)
  · exact .ite (.bind (aloof_warnHere _) fun _ => .pure _) (.pure _)
  · split
    · exact .pure _
    · exact .throw _
  · exact .pure _
  · exact aloof_runShell _
  · exact aloof_fatal _

theorem aloof_callFunction (name : String) (args : List (List Char)) :
    Aloof (callFunction name args) := by
  unfold callFunction
  split
  · exact .ite (aloof_builtin _ _) (.bind_get (fun _ _ => rfl) fun _ => aloof_fatal _)
  · exact .bind (aloof_useVariable? _) fun _ => .pure _

theorem aloof_countActive (index : Nat) (f : Nat → Nat) : Aloof (countActive index f) :=
  .update (fun _ => ⟨rfl, rfl, rfl⟩) fun _ _ => rfl

section
variable {call : List (List Char) → Reading (List Char)} {outer : List (List Char)}

mutual

theorem aloof_expandPiece (h : ∀ args, Aloof (call args)) :
    ∀ p : Piece, Aloof (expandPiece call outer p)
  | .char _ => .pure _
  | .call args closed => by
    rw [expandPiece]
    refine .bind (aloof_expandArgs h args) fun args => .ite ?_ (aloof_problem _)
    split
    · exact .pure _
    · exact h args

theorem aloof_expandArgs (h : ∀ args, Aloof (call args)) :
    ∀ args : List (List Piece), Aloof (expandArgs call outer args)
  | [] => .pure _
  | arg :: more => by
    rw [expandArgs]
    exact .bind (aloof_expandPieces h arg) fun _ => .bind (aloof_expandArgs h more) fun _ => .pure _

theorem aloof_expandPieces (h : ∀ args, Aloof (call args)) :
    ∀ ps : List Piece, Aloof (expandPieces call outer ps)
  | [] => .pure _
  | p :: more => by
    rw [expandPieces]
    exact .bind (aloof_expandPiece h p) fun _ => .bind (aloof_expandPieces h more) fun _ => .pure _

end
end

theorem aloof_callAt : ∀ (depth : Nat) (args : List (List Char)),
    Aloof (callAt depth args)
  | 0, _ => .throw _
  | depth + 1, args => by
    refine .bind_get (fun _ _ => rfl) fun w => ?_
    have hrest : ∀ (index : Nat) (value : List Char), Aloof (do
        countActive index (· + 1)
        let value ← expandPieces (callAt depth) args (template value)
        countActive index (· - 1)
        pure value : Reading (List Char)) := fun index value =>
      .bind (aloof_countActive _ _) fun _ =>
        .bind (aloof_expandPieces (aloof_callAt depth) _) fun _ =>
          .bind (aloof_countActive _ _) fun _ => .pure _
    dsimp only
    split
    · exact aloof_callFunction _ _
    · split
      · exact .ite (.bind (aloof_problem _) fun _ => hrest _ _) (hrest _ _)
      · exact .ite (.bind (aloof_problem _) fun _ => hrest _ _) (hrest _ _)

theorem aloof_call (args : List (List Char)) : Aloof (call args) :=
  .bind_get (fun _ _ => rfl) fun _ => aloof_callAt _ _

theorem aloof_expand (pieces : List Piece) : Aloof (expand pieces) :=
  aloof_expandPieces aloof_call _

theorem aloof_expandText (s : List Char) : Aloof (expandText s) := aloof_expand _

theorem aloof_readName (s : List Char) : Aloof (readName s) := by
  unfold readName
  dsimp only
  refine .bind (aloof_expand _) fun name => ?_
  exact .ite (.bind (aloof_problem _) fun _ => .pure _) (.pure _)

theorem aloof_readString (quote : Char) (s : List Char) : Aloof (readString quote s) := by
  unfold readString
  dsimp only
  refine .bind (aloof_expand _) fun text => ?_
  split
  · exact .pure _
  · exact aloof_problem _

theorem aloof_giveValue (index : Nat) (op : Assignment) (value : List Char) :
    Aloof (giveValue index op value) := by
  have hupdate : ∀ f : Variable → Variable,
      Aloof (modify fun (w : Workspace) => { w with macros := w.macros.modify index f } :
        Reading Unit) := fun f => .update (fun _ => ⟨rfl, rfl, rfl⟩) fun _ _ => rfl
  cases op with
  | recursive => exact hupdate _
  | immediate => exact .bind (hupdate _) fun _ => .bind (aloof_expandText _) fun _ => hupdate _
  | append =>
    refine .bind_get (fun _ _ => rfl) fun _ => .ite (.bind (.pure _) fun _ => hupdate _) ?_
    exact .bind (aloof_expandText _) fun _ => hupdate _

/-- A new variable is there before its value is read. -/
theorem aloof_assign (name : String) (op : Assignment) (value : List Char) :
    Aloof (assign name op value) where
  keeps w₀ := by
    refine .bind_get fun w hw => ?_
    cases variableIndex? w name with
    | some index => exact (aloof_giveValue _ _ _).keeps w₀ w hw
    | none =>
      exact (aloof_giveValue _ _ _).keeps w₀ { w with macros := w.macros.push { name } }
        ⟨hw.model, hw.isOpen, hw.meanings⟩
  blind r := by
    refine .bind_get_apply fun w b w' h => ?_
    rw [show variableIndex? (w.recast r) name = variableIndex? w name from rfl]
    cases hindex : variableIndex? w name with
    | some index =>
      rw [hindex] at h
      exact (aloof_giveValue _ _ _).blind r w b w' h
    | none =>
      rw [hindex] at h
      exact (aloof_giveValue _ _ _).blind r { w with macros := w.macros.push { name } } b w' h

theorem aloof_readAssignment (line : List Char) : Aloof (readAssignment line) := by
  unfold readAssignment
  dsimp only
  refine .bind (aloof_expand _) fun name => .ite (.pure _) ?_
  split
  · exact aloof_problem _
  · exact aloof_assign _ _ _

end Macro
end Kconfig
