import Kconfig.Proofs.Reading.Files
import Kconfig.Reading.FormLine
/-!
When names are registered does not matter.

Reading a name may add a symbol, and which one it gives hangs on the names so far and on nothing
else in the model. So the symbols of a line may be registered before the line is put to use or
meanwhile: the steps in between, which warn and give types, change no name.
-/
namespace Kconfig
variable {α β : Type}

/-- The model with more symbols: their names, and whether they are constants. -/
def Model.enlarge (m : Model) (names : List (String × Bool)) : Model :=
  { m with
    symbols := m.symbols ++
      (names.map fun p => ({ name := p.1, isConstant := p.2 } : Symbol)).toArray
    known := m.known + names.length }

/-- The workspace with more symbols. -/
def Workspace.enlarge (w : Workspace) (names : List (String × Bool)) : Workspace :=
  { w with model := w.model.enlarge names }

/-- Both workspaces are open and give the same symbols for the same names. -/
structure SameNames (w u : Workspace) : Prop where
  meanings : u.host.meanings = w.host.meanings
  isOpen : w.isOpen = true
  isOpen' : u.isOpen = true
  known : u.model.known = w.model.known
  names : u.model.symbols.map (fun sym => (sym.name, sym.isConstant)) =
    w.model.symbols.map fun sym => (sym.name, sym.isConstant)

namespace Workspace
variable (w : Workspace) (names more : List (String × Bool))

@[simp] theorem enlarge_nil : w.enlarge [] = w := by
  simp [enlarge, Model.enlarge]

theorem enlarge_append : w.enlarge (names ++ more) = (w.enlarge names).enlarge more := by
  simp [enlarge, Model.enlarge, Nat.add_assoc]

end Workspace

namespace Model
variable {m : Model} {names : List (String × Bool)} {s : SymbolId}

theorem enlarge_singleton (name : String) (isConstant : Bool) :
    m.enlarge [(name, isConstant)] = m.withSymbol name isConstant := by
  simp [enlarge, withSymbol]

theorem symbol_enlarge (h : s < m.symbols.size) : (m.enlarge names).symbol s = m.symbol s := by
  rw [symbol, symbol, enlarge, Array.getElem?_append_left h]

theorem setSymbol_enlarge (h : s < m.symbols.size) (f : Symbol → Symbol) :
    (m.enlarge names).setSymbol s f = (m.setSymbol s f).enlarge names := by
  simp only [setSymbol, enlarge]
  congr 1
  refine Array.ext_getElem? fun t => ?_
  by_cases ht : t < m.symbols.size
  · rw [Array.getElem?_append_left (by rwa [Array.size_modify]), Array.getElem?_modify,
      Array.getElem?_modify, Array.getElem?_append_left ht]
  · have hst : s ≠ t := fun heq => ht (heq ▸ h)
    rw [Array.getElem?_append_right (by rw [Array.size_modify]; omega), Array.getElem?_modify,
      if_neg hst, Array.getElem?_append_right (by omega), Array.size_modify]

/-- A change to a symbol that keeps its name keeps all names. -/
theorem names_setSymbol (f : Symbol → Symbol) (hname : ∀ sym, (f sym).name = sym.name)
    (hconst : ∀ sym, (f sym).isConstant = sym.isConstant) :
    (m.setSymbol s f).symbols.map (fun sym => (sym.name, sym.isConstant)) =
      m.symbols.map fun sym => (sym.name, sym.isConstant) := by
  refine Array.ext_getElem? fun t => ?_
  rw [Array.getElem?_map, Array.getElem?_map, setSymbol, Array.getElem?_modify]
  split
  · cases m.symbols[t]? <;> simp [hname, hconst]
  · rfl

end Model

namespace SameNames
variable {w u v : Workspace}

theorem refl (h : w.isOpen = true) : SameNames w w := ⟨rfl, h, h, rfl, rfl⟩

theorem trans (h : SameNames w u) (h' : SameNames u v) : SameNames w v :=
  ⟨h'.meanings.trans h.meanings, h.isOpen, h'.isOpen', h'.known.trans h.known, h'.names.trans h.names⟩

theorem enlarge (h : SameNames w u) (names : List (String × Bool)) :
    SameNames (w.enlarge names) (u.enlarge names) := by
  refine ⟨h.meanings, h.isOpen, h.isOpen', ?_, ?_⟩
  · exact congrArg (· + names.length) h.known
  · simp only [Workspace.enlarge, Model.enlarge, Array.map_append]
    rw [h.names]

theorem symbol (h : SameNames w u) (s : SymbolId) :
    (u.model.symbol s).name = (w.model.symbol s).name ∧
      (u.model.symbol s).isConstant = (w.model.symbol s).isConstant := by
  have hpair : ∀ m : Model, ((m.symbol s).name, (m.symbol s).isConstant) =
      (m.symbols.map fun sym => (sym.name, sym.isConstant))[s]?.getD ("", false) := by
    intro m
    rw [Array.getElem?_map, Model.symbol]
    cases m.symbols[s]? <;> rfl
  have heq := (hpair u.model).trans ((congrArg (·[s]?.getD ("", false)) h.names).trans
    (hpair w.model).symm)
  exact Prod.mk.inj heq

theorem find? (h : SameNames w u) (name : String) (isConstant : Bool) :
    u.model.find? name isConstant = w.model.find? name isConstant := by
  rw [Model.find?, Model.find?, h.known]
  congr 1
  funext s
  dsimp only
  rw [(h.symbol s).1, (h.symbol s).2]

end SameNames

/-! ### Actions that add names at most -/

/-- An action that succeeds adds names at most, and the same ones, with the same result, wherever
the names are the same. -/
def Naming (x : Reading α) : Prop :=
  ∀ w a w', w.isOpen = true → x w = .ok a w' →
    ∃ names, w' = w.enlarge names ∧ ∀ u, SameNames w u → x u = .ok a (u.enlarge names)

namespace Naming

theorem pure (a : α) : Naming (Pure.pure a : Reading α) := by
  intro w b w' hw h
  cases h
  exact ⟨[], w.enlarge_nil.symm, fun u _ => by rw [u.enlarge_nil]; rfl⟩

theorem problem (p : Problem) : Naming (Reading.problem p : Reading α) := fun _ _ _ _ h => nomatch h

theorem bind {x : Reading α} {f : α → Reading β} (hx : Naming x) (hf : ∀ a, Naming (f a)) :
    Naming (x >>= f) := by
  intro w b w' hw h
  obtain ⟨a, w₁, ha, h⟩ := bind_ok h
  obtain ⟨names, rfl, hsame⟩ := hx w a w₁ hw ha
  obtain ⟨more, rfl, hsame'⟩ := hf a (w.enlarge names) b w' hw h
  refine ⟨names ++ more, (w.enlarge_append names more).symm, fun u hu => ?_⟩
  rw [bind_apply, hsame u hu, u.enlarge_append]
  exact hsame' _ (hu.enlarge names)

theorem map (f : α → β) {x : Reading α} (hx : Naming x) : Naming (f <$> x) := by
  rw [map_eq_pure_bind]
  exact hx.bind fun a => .pure (f a)

theorem ite {c : Prop} [Decidable c] {x y : Reading α} (hx : Naming x) (hy : Naming y) :
    Naming (if c then x else y) := by
  split
  · exact hx
  · exact hy

theorem expandEnv (s : List Char) : Naming (Reading.expandEnv s) := by
  intro w a w' hw h
  cases h
  refine ⟨[], w.enlarge_nil.symm, fun u hu => ?_⟩
  rw [u.enlarge_nil]
  have hrelease : u.host.release = w.host.release := congrArg Prod.snd hu.meanings
  have hlookup : u.host.lookup? = w.host.lookup? := by
    funext name
    rw [Host.lookup?, Host.lookup?, show u.host.env = w.host.env from congrArg Prod.fst hu.meanings]
  have hhome : u.host.home = w.host.home := by rw [Host.home, Host.home, hlookup]
  show EStateM.Result.ok (Text.expandReferences u.host.lookup?
    (Text.replaceAll "${userHome}".toList u.host.home.toList
      (Text.replaceAll "$UNAME_RELEASE".toList u.host.release.toList s))) u = _
  rw [hlookup, hhome, hrelease]

/-- A symbol is looked up by its name, or added. -/
theorem lookup (name : String) (isConstant : Bool) (x : Reading SymbolId)
    (hx : ∀ w, w.isOpen = true → x w = match w.model.find? name isConstant with
      | some s => .ok s w
      | none => .ok w.model.symbols.size (w.enlarge [(name, isConstant)])) : Naming x := by
  intro w a w' hw h
  rw [hx w hw] at h
  cases hfind : w.model.find? name isConstant with
  | some s =>
    rw [hfind] at h
    cases h
    refine ⟨[], w.enlarge_nil.symm, fun u hu => ?_⟩
    rw [hx u hu.isOpen', hu.find?, hfind, u.enlarge_nil]
  | none =>
    rw [hfind] at h
    cases h
    refine ⟨_, rfl, fun u hu => ?_⟩
    have hsize := congrArg Array.size hu.names
    rw [Array.size_map, Array.size_map] at hsize
    rw [hx u hu.isOpen', hu.find?, hfind, hsize]

theorem addSymbol_apply {w : Workspace} (hw : w.isOpen = true) (name : String) (isConstant : Bool) :
    Reading.addSymbol name isConstant w =
      .ok w.model.symbols.size (w.enlarge [(name, isConstant)]) := by
  show EStateM.Result.ok w.model.symbols.size { w with model :=
    { w.model with
      symbols := w.model.symbols.push { name, isConstant }
      known := if w.isOpen then w.model.known + 1 else w.model.known } } = _
  rw [if_pos hw, Workspace.enlarge, Model.enlarge_singleton]
  rfl

theorem symbol (name : String) : Naming (Reading.symbol name) := by
  refine lookup name false _ fun w hw => ?_
  show (match w.model.find? name false with
    | some s => Pure.pure s
    | none => do
      unless w.isOpen do Reading.warn (.unknownSymbol name)
      Reading.addSymbol name false : Reading SymbolId) w = _
  cases w.model.find? name false with
  | some s => rfl
  | none =>
    rw [hw]
    exact addSymbol_apply hw name false

theorem constant (text : String) : Naming (Reading.constant text) := by
  refine lookup text true _ fun w hw => ?_
  show (match w.model.find? text true with
    | some s => Pure.pure s
    | none => Reading.addSymbol text true : Reading SymbolId) w = _
  cases w.model.find? text true with
  | some s => rfl
  | none => exact addSymbol_apply hw text true

theorem word (name : String) : Naming (Reading.word name) := .ite (.pure _) (.ite (.pure _) (.symbol _))

theorem throw (failure : Failure) : Naming (MonadExcept.throw failure : Reading α) :=
  fun _ _ _ _ h => nomatch h

theorem operand (token : List Char) : Naming (operand token) := by
  unfold Kconfig.operand
  split
  · exact .throw _
  · exact .ite (.bind (.expandEnv _) fun _ => .constant _) (.word _)

theorem nested (n : Nested) : Naming n.resolve :=
  Nested.Kept.resolve (P := Naming)
    { operand := fun s => .map _ (.operand s)
      pure := .pure
      noSuchIndex := .throw _
      illTyped := .throw _
      problem := .problem
      not := fun hx => .map _ hx
      both := fun hx hy hf => .bind hx fun a => .bind hy fun b => hf a b } n

theorem conditionPart (cond : Option Nested) : Naming (Statement.conditionPart cond) := by
  cases cond with
  | none => exact .pure _
  | some cond => exact .nested cond

theorem textPart (s : List Char) : Naming (Statement.textPart s) := .map _ (.expandEnv s)

theorem boundsPart (low high : List Char) : Naming (Statement.boundsPart low high) :=
  .bind (.operand _) fun _ => .bind (.operand _) fun _ => .pure _

theorem namedSymbol (p : Problem) (name : List Char) : Naming (Statement.namedSymbol p name) :=
  .ite (.problem _) (.symbol _)

end Naming

/-! ### Actions that change no names -/

/-- From the workspace, the action changes no names, and does the same with further symbols. -/
def Unnaming (x : Reading α) (u : Workspace) : Prop :=
  ∀ a u', x u = .ok a u' → SameNames u u' ∧
    ∀ names, x (u.enlarge names) = .ok a (u'.enlarge names)

namespace Unnaming
variable {u : Workspace}

theorem pure (hu : u.isOpen = true) (a : α) : Unnaming (Pure.pure a : Reading α) u := by
  intro b u' h
  cases h
  exact ⟨.refl hu, fun _ => rfl⟩

theorem problem (p : Problem) : Unnaming (Reading.problem p : Reading α) u := fun _ _ h => nomatch h

theorem bind {x : Reading α} {f : α → Reading β} (hx : Unnaming x u)
    (hf : ∀ a u', x u = .ok a u' → Unnaming (f a) u') : Unnaming (x >>= f) u := by
  intro b u'' h
  obtain ⟨a, u', ha, h⟩ := bind_ok h
  obtain ⟨hsame, henlarge⟩ := hx a u' ha
  obtain ⟨hsame', henlarge'⟩ := hf a u' ha b u'' h
  refine ⟨hsame.trans hsame', fun names => ?_⟩
  rw [bind_apply, henlarge names]
  exact henlarge' names

/-- What is looked up hangs on no further symbols. -/
theorem bind_get {f : Workspace → Reading α} (hf : ∀ names, f (u.enlarge names) = f u)
    (h : Unnaming (f u) u) : Unnaming (get >>= f) u := by
  intro a u' ha
  obtain ⟨hsame, henlarge⟩ := h a u' ha
  refine ⟨hsame, fun names => ?_⟩
  show f (u.enlarge names) (u.enlarge names) = _
  rw [hf names]
  exact henlarge names

theorem update {f : Workspace → Workspace} (hsame : SameNames u (f u))
    (hf : ∀ names, f (u.enlarge names) = (f u).enlarge names) :
    Unnaming (modify f : Reading PUnit) u := by
  intro a u' h
  cases h
  exact ⟨hsame, fun names => congrArg (EStateM.Result.ok _) (hf names)⟩

theorem ite {c : Prop} [Decidable c] {x y : Reading α} (hx : Unnaming x u) (hy : Unnaming y u) :
    Unnaming (if c then x else y) u := by
  split
  · exact hx
  · exact hy

end Unnaming

namespace Reading
variable {u : Workspace} {n : NodeId}

theorem unnaming_itemOf (hu : u.isOpen = true) : Unnaming (itemOf n) u := by
  refine .bind_get (fun _ => rfl) ?_
  split
  · exact .pure hu _
  · exact fun _ _ h => nomatch h

/-- An item that is there is shown the same with further symbols. -/
theorem owner_enlarge (hu : Ready u) {i : Item} (hi : HasItem i u.model.entries)
    (names : List (String × Bool)) : (u.model.enlarge names).owner i = u.model.owner i := by
  cases i with
  | symbol s =>
    have hs : (u.model.enlarge names).symbol s = u.model.symbol s :=
      Model.symbol_enlarge (hu.raw.symbolEntry s hi.mem_symbol).1
    have hplaces : (u.model.enlarge names).placesText (.symbol s) =
        u.model.placesText (.symbol s) := by
      rw [Model.placesText, Model.placesText, Model.itemNodes, Model.itemNodes, hs]
      rfl
    simp only [Model.owner, hs, hplaces]
  | choice c => rfl

theorem unnaming_warnOwner (hu : Ready u) (hn : HasNode n u.model.entries)
    (warning : String → Warning) : Unnaming (warnOwner n warning) u := by
  refine .bind (unnaming_itemOf hu.isOpen) fun i u' hi => ?_
  obtain ⟨rfl, hitem⟩ := itemOf_ok hi
  have hi : HasItem i u'.model.entries := ⟨_, Model.entry_mem hn.lt, hitem⟩
  refine .bind_get (fun names => ?_) (.update ⟨rfl, hu.isOpen, hu.isOpen, rfl, rfl⟩ fun _ => rfl)
  show warn (warning ((u'.model.enlarge names).owner i)) = _
  rw [owner_enlarge hu hi]

theorem unnaming_needSymbol (hu : u.isOpen = true) (p : Problem) : Unnaming (needSymbol n p) u := by
  refine .bind_get (fun _ => rfl) ?_
  split
  · exact .pure hu _
  · exact .problem _

/-- A type changes no name. -/
theorem unnaming_setType (hu : Ready u) (hn : HasNode n u.model.entries) (t : ValueType) :
    Unnaming (setType n t) u := by
  have hchange : ∀ (i : Item) (v : Workspace), Ready v → HasItem i v.model.entries →
      Unnaming (modifyModel (retyped i t)) v := by
    intro i v hv hi
    cases i with
    | symbol s =>
      refine .update ⟨rfl, hv.isOpen, hv.isOpen, rfl, ?_⟩ fun names => ?_
      · exact Model.names_setSymbol _ (fun _ => rfl) fun _ => rfl
      · show { v with model := (v.model.enlarge names).setSymbol s _ } = _
        rw [Model.setSymbol_enlarge (hv.raw.symbolEntry s hi.mem_symbol).1]
        rfl
    | choice c => exact .update ⟨rfl, hv.isOpen, hv.isOpen, rfl, rfl⟩ fun _ => rfl
  refine .bind (unnaming_itemOf hu.isOpen) fun i u' hi => ?_
  obtain ⟨rfl, hitem⟩ := itemOf_ok hi
  have hi : HasItem i u'.model.entries := ⟨_, Model.entry_mem hn.lt, hitem⟩
  refine .bind_get (fun names => ?_) ?_
  · have htype : (u'.model.enlarge names).itemType i = u'.model.itemType i := by
      cases i with
      | symbol s =>
        exact congrArg Symbol.type
          (Model.symbol_enlarge (hu.raw.symbolEntry s hi.mem_symbol).1)
      | choice c => rfl
    dsimp only
    rw [show (u'.enlarge names).model = u'.model.enlarge names from rfl, htype]
  · refine .ite (.bind (unnaming_warnOwner hu hn _) fun _ u'' hwarn => ?_) (hchange i _ hu hi)
    have hwent := (aside_warnOwner _ _ _ _ hwarn).steadyIf (P := fun _ => True) hu trivial
    exact hchange i _ hwent.1 (hwent.2.1 ▸ hi)

theorem unnaming_warnPromptless (hu : Ready u) (hn : HasNode n u.model.entries) :
    Unnaming (warnPromptless n) u := by
  refine .bind_get (fun _ => rfl) ?_
  dsimp only
  split
  · exact .ite (unnaming_warnOwner hu hn _) (.pure hu.isOpen _)
  · exact .pure hu.isOpen _

theorem unnaming_closeEntry {first : Workspace} {layout : Layout} (hu : Ready u)
    (hc : layout.Covers first u) : Unnaming (closeEntry layout) u := by
  unfold closeEntry
  cases hentry : layout.entry with
  | none => exact .pure hu.isOpen _
  | some n =>
    exact .bind (unnaming_warnPromptless hu (hc.entry n hentry)) fun _ u' hwarn =>
      .pure ((aside_warnPromptless _ _ _ _ hwarn).isOpen.trans hu.isOpen) _

end Reading

end Kconfig
