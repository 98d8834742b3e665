import Kconfig.Config.Load
import Kconfig.Proofs.Action
import Kconfig.Proofs.Values.Dependents
/-!
Steps of a configuration.

Whatever is assigned to a configuration comes down to a few steps: something is noted, or the user
gives or takes away a value, a selection or a mode, and what may hang on it is forgotten. So what
the steps keep is kept by every assignment and by loading files, also when these fail half-way.
-/
namespace Kconfig

/-- Two configurations that differ in nothing but in what was noted, marked or found in files; nothing
was printed or written to a file in between. -/
structure Configuration.Alike (c c' : Configuration) : Prop where
  model : c'.model = c.model
  settings : c'.settings = c.settings
  dependents : c'.dependents = c.dependents
  user : c'.user = c.user
  memory : c'.memory = c.memory
  symbolFlags : c'.assigned.symbols.size = c.assigned.symbols.size
  choiceFlags : c'.assigned.choices.size = c.assigned.choices.size
  output : c'.journal.output = c.journal.output
  host : c'.host = c.host
  isOpen : c'.isOpen = c.isOpen

/-- What is remembered when the value of a symbol has changed. -/
def Configuration.remembered (c : Configuration) (s : SymbolId) : Memory :=
  if (c.model.symbol s).nodes.any fun n => (c.model.node n).prompt.isSome then
    c.memory.forgetFrom c.dependents (.symbol s)
  else c.memory

/-- What can be done to a configuration at a time. -/
inductive Configuration.Step (c : Configuration) : Configuration → Prop
  | note {c' : Configuration} (h : c.Alike c') : Step c c'
  | value (s : SymbolId) (g : Option UserValue)
      (hg : ∀ a, g = some a → ∃ b, (c.model.symbol s).type.accept? b = some a) :
      Step c { c with
        user.values := c.user.values.setIfInBounds s g
        memory := c.remembered s }
  | select (s : SymbolId) (ch : ChoiceId) (a : UserValue)
      (hchoice : (c.model.symbol s).choice = some ch) (htype : (c.model.symbol s).type = .bool)
      (ha : ∃ b, (c.model.symbol s).type.accept? b = some a) :
      Step c { c with
        user.values := c.user.values.setIfInBounds s (some a)
        user.selections := c.user.selections.setIfInBounds ch (some s)
        memory := c.memory.forgetFrom c.dependents (.choice ch) }
  | mode (ch : ChoiceId) (g : Option UserValue) :
      Step c { c with
        user.modes := c.user.modes.setIfInBounds ch g
        memory := c.memory.forgetFrom c.dependents (.choice ch) }
  | unselect (ch : ChoiceId) :
      Step c { c with
        user.modes := c.user.modes.setIfInBounds ch none
        user.selections := c.user.selections.setIfInBounds ch none
        memory := c.memory.forgetFrom c.dependents (.choice ch) }

/-- Every step leaves the property as it was. -/
def Configuration.Kept (P : Configuration → Prop) : Prop := ∀ c c', c.Step c' → P c → P c'

theorem Configuration.Kept.alike {P : Configuration → Prop} (hP : Kept P)
    {c c' : Configuration} (hc : P c) (h : c.Alike c') : P c' := hP c c' (.note h) hc

theorem Configuration.Kept.and {P Q : Configuration → Prop} (hP : Kept P) (hQ : Kept Q) :
    Kept fun c => P c ∧ Q c := fun c c' hstep hc => ⟨hP c c' hstep hc.1, hQ c c' hstep hc.2⟩

/-- Other files leave the property as it was. -/
def Configuration.KeptByFiles (P : Configuration → Prop) : Prop :=
  ∀ (c : Configuration) (files : Files.Store), P c → P { c with host.files := files }

/-- Only a bool takes a level. -/
theorem ValueType.bool_of_accept? {type : ValueType} {g : Given} {a : UserValue}
    (h : type.accept? g = some a) (hyes : a.isYes = true) : type = .bool := by
  unfold accept? at h
  split at h
  · rfl
  · obtain rfl := Option.some.inj h
    exact nomatch hyes
  · split at h
    · obtain rfl := Option.some.inj h
      exact nomatch hyes
    · exact nomatch h
  · split at h
    · split at h
      · obtain rfl := Option.some.inj h
        exact nomatch hyes
      · exact nomatch h
    · exact nomatch h
  · exact nomatch h

section Given
variable {m : Model} {u : UserValues}

/-! ### User values -/

namespace UserValues

theorem value_set (u : UserValues) (s t : SymbolId) (g : Option UserValue) :
    ({ u with values := u.values.setIfInBounds s g } : UserValues).value t = u.value t ∨
      s = t ∧ ({ u with values := u.values.setIfInBounds s g } : UserValues).value t = g := by
  simp only [value, Array.getElem?_setIfInBounds]
  split
  · next hst =>
    split
    · exact .inr ⟨hst, rfl⟩
    · next hroom =>
      rw [Array.getElem?_eq_none (Nat.le_of_not_lt (hst ▸ hroom))]
      exact .inl rfl
  · exact .inl rfl

theorem value_set_of_ne (u : UserValues) {s t : SymbolId} (h : s ≠ t) (g : Option UserValue) :
    ({ u with values := u.values.setIfInBounds s g } : UserValues).value t = u.value t := by
  rcases value_set u s t g with heq | ⟨hst, -⟩
  · exact heq
  · exact absurd hst h

theorem selection_set (u : UserValues) (c d : ChoiceId) (s : Option SymbolId) :
    ({ u with selections := u.selections.setIfInBounds c s } : UserValues).selection d =
        u.selection d ∨
      c = d ∧ ({ u with selections := u.selections.setIfInBounds c s } : UserValues).selection d =
        s := by
  simp only [selection, Array.getElem?_setIfInBounds]
  split
  · next hcd =>
    split
    · exact .inr ⟨hcd, rfl⟩
    · next hroom =>
      rw [Array.getElem?_eq_none (Nat.le_of_not_lt (hcd ▸ hroom))]
      exact .inl rfl
  · exact .inl rfl

theorem selection_set_of_ne (u : UserValues) {c d : ChoiceId} (h : c ≠ d)
    (s : Option SymbolId) :
    ({ u with selections := u.selections.setIfInBounds c s } : UserValues).selection d =
      u.selection d := by
  rcases selection_set u c d s with heq | ⟨hcd, -⟩
  · exact heq
  · exact absurd hcd h

theorem value_set_of_lt (u : UserValues) {s : SymbolId} (hs : s < u.values.size)
    (g : Option UserValue) (t : SymbolId) :
    ({ u with values := u.values.setIfInBounds s g } : UserValues).value t =
      if t = s then g else u.value t := by
  simp only [value, Array.getElem?_setIfInBounds]
  by_cases hst : s = t
  · subst hst
    simp [hs]
  · simp [hst, Ne.symm hst]

theorem selection_set_of_lt (u : UserValues) {c : ChoiceId} (hc : c < u.selections.size)
    (s : Option SymbolId) (d : ChoiceId) :
    ({ u with selections := u.selections.setIfInBounds c s } : UserValues).selection d =
      if d = c then s else u.selection d := by
  simp only [selection, Array.getElem?_setIfInBounds]
  by_cases hcd : c = d
  · subst hcd
    simp [hc]
  · simp [hcd, Ne.symm hcd]

end UserValues

namespace Model.Permits

theorem setValue (h : m.Permits u) {s : SymbolId} {g : Option UserValue}
    (hg : ∀ a, g = some a → ∃ b, (m.symbol s).type.accept? b = some a) :
    m.Permits { u with values := u.values.setIfInBounds s g } := by
  refine ⟨fun t a ht => ?_, h.selection⟩
  rcases u.value_set s t g with heq | ⟨rfl, heq⟩
  · rw [heq] at ht
    exact h.value t a ht
  · exact hg a (heq.symm.trans ht)

theorem setSelection (h : m.Permits u) {d : ChoiceId} {t : Option SymbolId}
    (ht : ∀ s, t = some s → (m.symbol s).choice = some d ∧ (m.symbol s).type = .bool) :
    m.Permits { u with selections := u.selections.setIfInBounds d t } := by
  refine ⟨h.value, fun e s hs => ?_⟩
  rcases u.selection_set d e t with heq | ⟨rfl, heq⟩
  · rw [heq] at hs
    exact h.selection e s hs
  · exact ht s (heq.symm.trans hs)

theorem select (h : m.Permits u) {s : SymbolId} {ch : ChoiceId} {a : UserValue}
    (hchoice : (m.symbol s).choice = some ch) (htype : (m.symbol s).type = .bool)
    (ha : ∃ b, (m.symbol s).type.accept? b = some a) :
    m.Permits { u with
      values := u.values.setIfInBounds s (some a)
      selections := u.selections.setIfInBounds ch (some s) } := by
  have hgiven : m.Permits { u with values := u.values.setIfInBounds s (some a) } :=
    h.setValue fun b hb => Option.some.inj hb ▸ ha
  exact hgiven.setSelection fun t ht => Option.some.inj ht ▸ ⟨hchoice, htype⟩

theorem unselect (h : m.Permits u) (ch : ChoiceId) (modes : Array (Option UserValue)) :
    m.Permits ⟨u.values, modes, u.selections.setIfInBounds ch none⟩ := by
  have hunselected := h.setSelection (d := ch) (t := none) fun t ht => nomatch ht
  exact ⟨hunselected.value, hunselected.selection⟩

end Model.Permits

end Given

/-- A configuration of a model with its settings, in which the user gave what can be given. -/
structure Configuration.Proper (m : Model) (settings : Settings) (c : Configuration) : Prop where
  model : c.model = m
  settings : c.settings = settings
  dependents : c.dependents = m.dependents
  permits : m.Permits c.user

/-- A configuration of a model with room for all that the user can give. -/
structure Configuration.Fits (m : Model) (c : Configuration) : Prop where
  model : c.model = m
  values : c.user.values.size = m.symbols.size
  selections : c.user.selections.size = m.choices.size
  symbols : c.assigned.symbols.size = m.symbols.size
  choices : c.assigned.choices.size = m.choices.size

namespace Configuration

/-- The user never comes to have given what cannot be given. -/
theorem kept_proper (m : Model) (settings : Settings) : Kept (Proper m settings) := by
  intro c c' hstep hc
  have hpermits := hc.permits
  cases hstep with
  | note h =>
    refine ⟨h.model.trans hc.model, h.settings.trans hc.settings,
      h.dependents.trans hc.dependents, ?_⟩
    rw [h.user]
    exact hpermits
  | value s g hg =>
    rw [hc.model] at hg
    exact ⟨hc.model, hc.settings, hc.dependents, hpermits.setValue hg⟩
  | select s ch a hchoice htype ha =>
    rw [hc.model] at hchoice htype ha
    exact ⟨hc.model, hc.settings, hc.dependents, hpermits.select hchoice htype ha⟩
  | mode ch g =>
    exact ⟨hc.model, hc.settings, hc.dependents, ⟨hpermits.value, hpermits.selection⟩⟩
  | unselect ch => exact ⟨hc.model, hc.settings, hc.dependents, hpermits.unselect ch _⟩

theorem keptByFiles_proper (m : Model) (settings : Settings) : KeptByFiles (Proper m settings) :=
  fun _ _ hc => ⟨hc.model, hc.settings, hc.dependents, hc.permits⟩

/-- Steps leave the room as it is. -/
theorem kept_fits (m : Model) : Kept (Fits m) := by
  intro c c' hstep hc
  cases hstep with
  | note h =>
    refine ⟨h.model.trans hc.model, ?_, ?_, h.symbolFlags.trans hc.symbols,
      h.choiceFlags.trans hc.choices⟩
    · rw [h.user]
      exact hc.values
    · rw [h.user]
      exact hc.selections
  | value s g hg =>
    exact ⟨hc.model, Array.size_setIfInBounds.trans hc.values, hc.selections, hc.symbols,
      hc.choices⟩
  | select s ch a hchoice htype ha =>
    exact ⟨hc.model, Array.size_setIfInBounds.trans hc.values,
      Array.size_setIfInBounds.trans hc.selections, hc.symbols, hc.choices⟩
  | mode ch g => exact ⟨hc.model, hc.values, hc.selections, hc.symbols, hc.choices⟩
  | unselect ch =>
    exact ⟨hc.model, hc.values, Array.size_setIfInBounds.trans hc.selections, hc.symbols,
      hc.choices⟩

theorem keptByFiles_fits (m : Model) : KeptByFiles (Fits m) :=
  fun _ _ hc => ⟨hc.model, hc.values, hc.selections, hc.symbols, hc.choices⟩

end Configuration

namespace Configuring
open Kconfig.Configuration
variable {P : Configuration → Prop} {c c' : Configuration}

/-! ### Assignments -/

/-- What is done with the text of a file that was opened. -/
def takeContent (path : String) (content : Files.Content) (replaces : Bool) : Configuring Unit := do
  takeLines path 1 content.decoded.lines
  if let some fault := content.decoded.fault then throw (.fatal (.undecodableFile path fault))
  if replaces then unsetOthers

section Steps
variable (hP : Kept P)
include hP

theorem keeps_note {f : Configuration → Configuration} (h : ∀ c, Alike c (f c)) :
    Keeps P (modify f : Configuring PUnit) :=
  .update fun c hc => hP.alike hc (h c)

theorem keeps_markSymbol (s : SymbolId) (isAssigned : Bool) :
    Keeps P (markSymbol s isAssigned) :=
  keeps_note hP fun _ => ⟨rfl, rfl, rfl, rfl, rfl, Array.size_setIfInBounds, rfl, rfl, rfl, rfl⟩

theorem keeps_markChoice (ch : ChoiceId) (isAssigned : Bool) :
    Keeps P (markChoice ch isAssigned) :=
  keeps_note hP fun _ => ⟨rfl, rfl, rfl, rfl, rfl, rfl, Array.size_setIfInBounds, rfl, rfl, rfl⟩

theorem keeps_warn (w : Warning) : Keeps P (warn w) :=
  keeps_note hP fun _ => ⟨rfl, rfl, rfl, rfl, rfl, rfl, rfl, Journal.output_warn .., rfl, rfl⟩

theorem keeps_warnAt (file : String) (line : Nat) (w : Warning) : Keeps P (warnAt file line w) :=
  keeps_note hP fun _ => ⟨rfl, rfl, rfl, rfl, rfl, rfl, rfl, Journal.output_warn .., rfl, rfl⟩

theorem keeps_refuse (i : Item) (g : Given) : Keeps P (refuse i g) :=
  .bind .get fun _ => .bind (keeps_warn hP _) fun _ => .pure _

/-- A symbol's value has changed, and now what hangs on it is forgotten. -/
theorem keeps_value (hc : P c) {s : SymbolId} {g : Option UserValue}
    (hg : ∀ a, g = some a → ∃ b, (c.model.symbol s).type.accept? b = some a)
    (h : Alike { c with user.values := c.user.values.setIfInBounds s g } c') :
    P (stateAfter (forgetPrompted s c')) := by
  have hstep := hP c _ (.value s g hg) hc
  show P (stateAfter ((if (c'.model.symbol s).nodes.any
    (fun n => (c'.model.node n).prompt.isSome) then forgetFrom (.symbol s) else _ :
      Configuring Unit) c'))
  rw [h.model]
  split
  · next hprompt =>
    refine hP.alike hstep ⟨h.model, h.settings, h.dependents, h.user, ?_, h.symbolFlags,
      h.choiceFlags, h.output, h.host, h.isOpen⟩
    show c'.memory.forgetFrom c'.dependents (.symbol s) = c.remembered s
    rw [remembered, if_pos hprompt, h.memory, h.dependents]
  · next hprompt =>
    have hsame : P c' := by
      refine hP.alike hstep ⟨h.model, h.settings, h.dependents, h.user, ?_, h.symbolFlags,
        h.choiceFlags, h.output, h.host, h.isOpen⟩
      show c'.memory = c.remembered s
      rw [remembered, if_neg hprompt, h.memory]
    split
    · exact keeps_warn hP _ c' hsame
    · exact hsame

theorem keeps_setSymbol (s : SymbolId) (g : Given) : Keeps P (setSymbol s g) := by
  refine Keeps.bind_get fun c hc => ?_
  dsimp only
  generalize (if (c.model.symbol s).type = .bool then g.readLevel else g) = g'
  split
  · exact Keeps.bind (keeps_markSymbol hP s true) (fun _ => .pure _) c hc
  · cases ha : (c.model.symbol s).type.accept? g' with
    | none => exact keeps_refuse hP _ _ c hc
    | some a =>
      -- without a new selection only the symbol's own value changes
      have hother : P (stateAfter ((do
          setUserValue s (some a)
          markSymbol s true
          forgetPrompted s
          return true : Configuring Bool) c)) := by
        let c' := { c with
          user.values := c.user.values.setIfInBounds s (some a)
          assigned.symbols := c.assigned.symbols.setIfInBounds s true }
        show P (stateAfter ((forgetPrompted s >>= fun _ => pure true) c'))
        rw [stateAfter_bind_pure (forgetPrompted s) (fun _ => true) c']
        exact keeps_value hP hc (fun b hb => ⟨_, Option.some.inj hb ▸ ha⟩)
          ⟨rfl, rfl, rfl, rfl, rfl, Array.size_setIfInBounds, rfl, rfl, rfl, rfl⟩
      dsimp only
      cases hch : (c.model.symbol s).choice with
      | none => exact hother
      | some ch =>
        cases hyes : a.isYes with
        | false => exact hother
        | true =>
          have hbool := ValueType.bool_of_accept? ha hyes
          exact hP.alike (hP c _ (.select s ch a hch hbool ⟨_, ha⟩) hc)
            ⟨rfl, rfl, rfl, rfl, rfl, Array.size_setIfInBounds, Array.size_setIfInBounds, rfl, rfl, rfl⟩

theorem keeps_unsetSymbol (s : SymbolId) : Keeps P (unsetSymbol s) := by
  refine Keeps.bind_get fun c hc => ?_
  split
  · exact keeps_value hP hc (g := none) (fun b hb => nomatch hb)
      ⟨rfl, rfl, rfl, rfl, rfl, rfl, rfl, rfl, rfl, rfl⟩
  · exact hc

theorem keeps_setChoice (ch : ChoiceId) (g : Given) : Keeps P (setChoice ch g) := by
  refine Keeps.bind_get fun c hc => ?_
  dsimp only
  split
  · exact Keeps.bind (keeps_markChoice hP ch true) (fun _ => .pure _) c hc
  · cases hlevel : g.readLevel.level? with
    | none => cases (c.model.choice ch).type <;> exact keeps_refuse hP _ _ c hc
    | some a =>
      cases (c.model.choice ch).type with
      | bool =>
        exact hP.alike (hP c _ (.mode ch (some a)) hc)
          ⟨rfl, rfl, rfl, rfl, rfl, rfl, Array.size_setIfInBounds, rfl, rfl, rfl⟩
      | _ => exact keeps_refuse hP _ _ c hc

theorem keeps_unsetChoice (ch : ChoiceId) : Keeps P (unsetChoice ch) := by
  refine Keeps.bind_get fun c hc => ?_
  split
  · exact hP c _ (.unselect ch) hc
  · exact hc

/-! ### Lines -/

theorem keeps_assignUndefined (file : String) (line : Nat) (name value : String) :
    Keeps P (assignUndefined file line name value) :=
  .bind (keeps_note hP fun _ => ⟨rfl, rfl, rfl, rfl, rfl, rfl, rfl, rfl, rfl, rfl⟩) fun _ =>
    .bind .get fun _ => .ite (keeps_warnAt hP _ _ _) (.pure _)

theorem keeps_noteRepeated (file : String) (line : Nat) (s : SymbolId) (value : String) :
    Keeps P (noteRepeated file line s value) := by
  refine .bind .get fun c => ?_
  dsimp only
  split
  · exact .bind (.pure _) fun _ => .ite (keeps_warnAt hP _ _ _) (.pure _)
  · split
    · exact .bind (.throw _) fun _ => .ite (keeps_warnAt hP _ _ _) (.pure _)
    · exact .bind (.pure _) fun _ => .ite (keeps_warnAt hP _ _ _) (.pure _)

theorem keeps_followMode (file : String) (line : Nat) (ch : ChoiceId) (value : String) :
    Keeps P (followMode file line ch value) := by
  have hset : Keeps P (do let _ ← setChoice ch (.text value) : Configuring Unit) :=
    .bind (keeps_setChoice hP _ _) fun _ => .pure _
  refine .bind .get fun c => ?_
  dsimp only
  split
  · split
    · exact .bind (keeps_warnAt hP _ _ _) fun _ => hset
    · exact hset
  · exact hset

theorem keeps_assignedText? (file : String) (line : Nat) (s : SymbolId) (value : String) :
    Keeps P (assignedText? file line s value) := by
  refine .bind .get fun c => ?_
  dsimp only
  split
  · split
    · exact .bind (keeps_warnAt hP _ _ _) fun _ => .pure _
    · split
      · split
        · exact .bind (keeps_followMode hP _ _ _ _) fun _ => .pure _
        · exact .pure _
      · exact .pure _
  · split
    · exact .pure _
    · exact .bind (keeps_warnAt hP _ _ _) fun _ => .pure _
  · exact .pure _

theorem keeps_assign (file : String) (line : Nat) (s : SymbolId) (value : String) :
    Keeps P (assign file line s value) := by
  have hset : Keeps P (do let _ ← setSymbol s (.text value) : Configuring Unit) :=
    .bind (keeps_setSymbol hP _ _) fun _ => .pure _
  refine .bind .get fun c => ?_
  split
  · exact .bind (keeps_noteRepeated hP _ _ _ _) fun _ => hset
  · exact hset

theorem keeps_takeLine (file : String) (number : Nat) (line : List Char) :
    Keeps P (takeLine file number line) := by
  refine .bind .get fun c => ?_
  split
  · split
    · exact keeps_assignUndefined hP _ _ _ _
    · refine .bind (keeps_assignedText? hP _ _ _ _) fun given => ?_
      cases given with
      | none => exact .pure _
      | some given => exact keeps_assign hP _ _ _ _
  · split
    · exact keeps_assignUndefined hP _ _ _ _
    · exact .ite (keeps_assign hP _ _ _ _) (.pure _)
  · exact .pure _
  · exact keeps_warnAt hP _ _ _

theorem keeps_takeLines (file : String) : ∀ (number : Nat) (lines : List (List Char)),
    Keeps P (takeLines file number lines)
  | _, [] => .pure _
  | number, _ :: more =>
    .bind (keeps_takeLine hP _ _ _) fun _ => keeps_takeLines file (number + 1) more

/-! ### Files -/

omit hP in
theorem keeps_checkPath (path : String) : Keeps P (checkPath path) := .ite (.throw _) (.pure _)

omit hP in
theorem keeps_openConfig (path : String) : Keeps P (openConfig path) := by
  refine .bind .get fun c => ?_
  dsimp only
  split
  · exact .pure _
  · refine .bind (keeps_checkPath path) fun _ => ?_
    split
    · exact .pure _
    · exact .throw _

theorem keeps_clearAssigned : Keeps P clearAssigned := by
  refine .bind .get fun c => .bind ?_ fun _ => .bind ?_ fun _ => ?_
  · exact keeps_note hP fun _ => ⟨rfl, rfl, rfl, rfl, rfl, rfl, rfl, rfl, rfl, rfl⟩
  · exact .forM (fun s => keeps_markSymbol hP s false) _
  · exact .forM (fun ch => keeps_markChoice hP ch false) _

theorem keeps_unsetOthers : Keeps P unsetOthers := by
  refine .bind .get fun c => .bind (.forIn (fun s _ => ?_) _ _) fun _ =>
    .bind (.forIn (fun ch _ => ?_) _ _) fun _ => .pure _
  · split
    · exact .pure _
    · exact .bind (keeps_unsetSymbol hP s) fun _ => .pure _
  · split
    · exact .pure _
    · exact .bind (keeps_unsetChoice hP ch) fun _ => .pure _

theorem keeps_takeFile (path : String) (replaces : Bool) : Keeps P (takeFile path replaces) := by
  refine .bind (keeps_openConfig path) fun found => ?_
  obtain ⟨_, content⟩ := found
  have htail : Keeps P (takeContent path content replaces) := by
    refine .bind (keeps_takeLines hP _ _ _) fun _ => ?_
    dsimp only
    cases content.decoded.fault with
    | some fault => exact .bind (.throw _) fun _ => .ite (keeps_unsetOthers hP) (.pure _)
    | none => exact .ite (keeps_unsetOthers hP) (.pure _)
  exact .ite (.bind (keeps_clearAssigned hP) fun _ => htail) htail

omit hP in
theorem quietly_apply {α : Type} (action : Configuring α) (c : Configuration) :
    quietly action c = match action { c with warnsPromptless := false } with
      | .ok a c' => .ok a { c' with warnsPromptless := true }
      | .error e c' => .error e { c' with warnsPromptless := true } := by
  unfold quietly
  show (MonadExcept.tryCatch (action >>= _) _ >>= _) _ = _
  rw [bind_apply, tryCatch_apply, bind_apply]
  cases action { c with warnsPromptless := false } <;> rfl

omit hP in
/-- What an action gives does not hang on the warnings that it keeps to itself. -/
theorem yields_quietly {α : Type} {action : Configuring α} {c : Configuration}
    {Q : α → Configuration → Prop} (h : Yields action { c with warnsPromptless := false }
      fun a c' => Q a { c' with warnsPromptless := true }) : Yields (quietly action) c Q := by
  intro a c' hquietly
  rw [quietly_apply] at hquietly
  cases haction : action { c with warnsPromptless := false } with
  | error f c₁ =>
    rw [haction] at hquietly
    cases hquietly
  | ok b c₁ =>
    rw [haction] at hquietly
    injection hquietly with hb hc
    subst hb hc
    exact h b c₁ haction

omit hP in
theorem ends_quietly {α : Type} {action : Configuring α} {c : Configuration}
    {Q : α → Configuration → Prop} (h : Ends action { c with warnsPromptless := false }
      fun a c' => Q a { c' with warnsPromptless := true }) : Ends (quietly action) c Q := by
  obtain ⟨a, c', haction, hQ⟩ := h
  exact ⟨a, _, by rw [quietly_apply, haction], hQ⟩

omit hP in
theorem keeps_quietly_of (hset : ∀ c isOn, P c → P { c with warnsPromptless := isOn }) {α : Type}
    {action : Configuring α} (h : Keeps P action) : Keeps P (quietly action) := by
  intro c hc
  have hend := h _ (hset c false hc)
  unfold KeepsAt at hend ⊢
  rw [quietly_apply]
  cases haction : action { c with warnsPromptless := false } with
  | ok a c' =>
    rw [haction] at hend
    exact hset c' true hend
  | error e c' =>
    rw [haction] at hend
    exact hset c' true hend

theorem keeps_quietly {α : Type} {action : Configuring α} (h : Keeps P action) :
    Keeps P (quietly action) :=
  keeps_quietly_of (fun _ _ hc => hP.alike hc ⟨rfl, rfl, rfl, rfl, rfl, rfl, rfl, rfl, rfl, rfl⟩) h

/-- A file that is named is loaded without a question. -/
theorem keeps_loadNamed (path : String) (replaces : Bool) :
    Keeps P (loadConfig (some path) replaces) :=
  .bind (.pure _) fun found => by
    cases found with
    | error message => exact .pure _
    | ok found => exact .bind (keeps_quietly hP (keeps_takeFile hP _ _)) fun _ => .pure _

end Steps

/-! ### Default files -/

section Following
variable (hfollow : ∀ {α : Type} (p : Plan α), Keeps P (follow p))
include hfollow

theorem keeps_firstFile : ∀ ps : List (Guarded Expr), Keeps P (firstFile ps)
  | [] => .pure _
  | p :: ps => by
    refine .bind (.bind .get fun _ => hfollow _) fun holds => .ite ?_ (keeps_firstFile ps)
    split
    · refine .bind (hfollow _) fun path => .bind .get fun c => .bind .get fun c' => ?_
      exact .ite (.pure _) (.ite (.pure _)
        (.bind (keeps_checkPath path) fun _ => keeps_firstFile ps))
    · exact .throw _

theorem keeps_defconfigName : Keeps P defconfigName := by
  refine .bind .get fun c => ?_
  dsimp only
  split
  · exact .pure _
  · exact keeps_firstFile hfollow _
  · exact keeps_firstFile hfollow _
  · exact .throw _

theorem keeps_fileToLoad (name : Option String) : Keeps P (fileToLoad name) := by
  unfold fileToLoad
  split
  · exact .pure _
  · refine .bind .get fun c => ?_
    dsimp only
    refine .ite (.pure _) (.bind (keeps_defconfigName hfollow) fun found => ?_)
    cases found <;> exact .pure _

theorem keeps_loadConfig (hP : Kept P) (name : Option String) (replaces : Bool) :
    Keeps P (loadConfig name replaces) := by
  refine .bind (keeps_fileToLoad hfollow name) fun found => ?_
  split
  · exact .pure _
  · exact .bind (keeps_quietly hP (keeps_takeFile hP _ _)) fun _ => .pure _

end Following

end Configuring
end Kconfig
