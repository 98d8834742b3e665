import Kconfig.Proofs.Reading.Inclusion
import Kconfig.Proofs.Reading.Names
/-!
Statements that two notations put to use alike.

The first notation registers the names of a line as soon as it reads the line; the second one when
the line is put to use. A part is *ahead* when its names are registered already, and what it gives
is what the other part comes to. Statements whose parts are ahead of those of others change the
layout and the model in the same way.
-/
namespace Kconfig
open Macro (Idle)
variable {α β γ : Type}

/-- Where the names are those of `w`, the action gives `a` if it succeeds, and adds the names that
lead to `w'`. -/
def Comes (y : Reading α) (w : Workspace) (a : α) (w' : Workspace) : Prop :=
  ∃ names, w' = w.enlarge names ∧
    ∀ u b u', SameNames w u → y u = .ok b u' → b = a ∧ u' = u.enlarge names

/-- The names of `x` are registered in `w'`; from `w` on, `y` registers them and gives the same. -/
def Ahead (w w' : Workspace) (x y : Reading α) : Prop :=
  ∀ v a v', x v = .ok a v' → v' = v ∧ Comes y w a w'

/-- `Ahead` for two parts one after the other, perhaps with steps between them. -/
def BothAhead (w w' : Workspace) (x : Reading α) (x' : Reading β) (y : Reading α)
    (y' : Reading β) : Prop :=
  ∀ v a v₁ v' b v₂, x v = .ok a v₁ → x' v' = .ok b v₂ →
    v₁ = v ∧ v₂ = v' ∧ ∃ m, Comes y w a m ∧ Comes y' m b w'

/-- The parts of one statement are ahead of those of the other. -/
inductive Statement.IsAhead (w w' : Workspace) : Statement → Statement → Prop
  | config (isMenuconfig : Bool) {x y} :
    Ahead w w' x y → IsAhead w w' (.config isMenuconfig x) (.config isMenuconfig y)
  | menu {x y} : Ahead w w' x y → IsAhead w w' (.menu x) (.menu y)
  | comment {x y} : Ahead w w' x y → IsAhead w w' (.comment x) (.comment y)
  | mainmenu {x y} : Ahead w w' x y → IsAhead w w' (.mainmenu x) (.mainmenu y)
  | choice {x y} : Ahead w w' x y → IsAhead w w' (.choice x) (.choice y)
  | source (isRelative isRequired : Bool) {x y} :
    Ahead w w' x y → IsAhead w w' (.source isRelative isRequired x) (.source isRelative isRequired y)
  | block {x y} : Ahead w w' x y → IsAhead w w' (.block x) (.block y)
  | close (kind : BlockKind) {x y} : Ahead w w' x y → IsAhead w w' (.close kind x) (.close kind y)
  | type (t : ValueType) : w' = w → IsAhead w w' (.type t none) (.type t none)
  | promptedType (t : ValueType) {x y : PromptPart} : BothAhead w w' x.text x.cond y.text y.cond →
    IsAhead w w' (.type t (some x)) (.type t (some y))
  | prompt {x y : PromptPart} : BothAhead w w' x.text x.cond y.text y.cond →
    IsAhead w w' (.prompt x) (.prompt y)
  | depends {x y} : Ahead w w' x y → IsAhead w w' (.depends x) (.depends y)
  | visible {x y} : Ahead w w' x y → IsAhead w w' (.visible x) (.visible y)
  | select {x x' y y'} : BothAhead w w' x x' y y' → IsAhead w w' (.select x x') (.select y y')
  | imply {x x' y y'} : BothAhead w w' x x' y y' → IsAhead w w' (.imply x x') (.imply y y')
  | default {x x' y y'} : BothAhead w w' x x' y y' → IsAhead w w' (.default x x') (.default y y')
  | range {x x' y y'} : BothAhead w w' x x' y y' → IsAhead w w' (.range x x') (.range y y')
  | option {x y} : Ahead w w' x y → IsAhead w w' (.option x) (.option y)
  | optional : w' = w → IsAhead w w' .optional .optional
  | help : w' = w → IsAhead w w' .help .help

/-- Both notations have come from `w` and `w'` to `u` and `u'`, and no name was registered
meanwhile. -/
structure Meanwhile (w w' u u' : Workspace) : Prop where
  same : SameNames w u
  enlarged : ∀ names, w' = w.enlarge names → u' = u.enlarge names

namespace Meanwhile
variable {w w' u u' v v' : Workspace}

theorem refl (h : w.isOpen = true) : Meanwhile w w' w w' := ⟨.refl h, fun _ h => h⟩

theorem step (h : Meanwhile w w' u u') {x : Reading α} {a b : α} (hx : Unnaming x u)
    (h₁ : x u' = .ok a v') (h₂ : x u = .ok b v) : Meanwhile w w' v v' := by
  obtain ⟨hsame, henlarge⟩ := hx b v h₂
  refine ⟨h.same.trans hsame, fun names hnames => ?_⟩
  rw [h.enlarged names hnames, henlarge names] at h₁
  injection h₁ with _ heq
  exact heq.symm

theorem eq (h : Meanwhile w w' u u') (hw : w' = w) : u' = u :=
  (h.enlarged [] (hw.trans w.enlarge_nil.symm)).trans u.enlarge_nil

/-- After a part that is ahead both are at one. -/
theorem part (h : Meanwhile w w' u u') {x y : Reading α} {f g : α → Reading β} {b c : β}
    (hxy : Ahead w w' x y) (h₁ : (x >>= f) u' = .ok b v') (h₂ : (y >>= g) u = .ok c v) :
    ∃ a, f a u' = .ok b v' ∧ g a u' = .ok c v := by
  obtain ⟨a, u₁, hx, hf⟩ := bind_ok h₁
  obtain ⟨a', u₂, hy, hg⟩ := bind_ok h₂
  obtain ⟨rfl, names, hnames, hcomes⟩ := hxy _ _ _ hx
  obtain ⟨rfl, rfl⟩ := hcomes _ _ _ h.same hy
  rw [← h.enlarged names hnames] at hg
  exact ⟨a', hf, hg⟩

/-- After two parts that are ahead both are at one. -/
theorem parts (h : Meanwhile w w' u u') {x y : Reading α} {x' y' : Reading β}
    {f g : α → β → Reading γ} {b c : γ} (hxy : BothAhead w w' x x' y y')
    (h₁ : (do f (← x) (← x')) u' = .ok b v') (h₂ : (do g (← y) (← y')) u = .ok c v) :
    ∃ a d, f a d u' = .ok b v' ∧ g a d u' = .ok c v := by
  obtain ⟨a, u₁, hx, hf⟩ := bind_ok h₁
  obtain ⟨d, u₂, hx', hf⟩ := bind_ok hf
  obtain ⟨a', u₃, hy, hg⟩ := bind_ok h₂
  obtain ⟨d', u₄, hy', hg⟩ := bind_ok hg
  obtain ⟨rfl, rfl, _, ⟨names, rfl, hcomes⟩, more, hmore, hcomes'⟩ := hxy _ _ _ _ _ _ hx hx'
  obtain ⟨rfl, rfl⟩ := hcomes _ _ _ h.same hy
  obtain ⟨rfl, rfl⟩ := hcomes' _ _ _ (h.same.enlarge names) hy'
  rw [← w.enlarge_append] at hmore
  rw [← u.enlarge_append, ← h.enlarged _ hmore] at hg
  exact ⟨a', d', hf, hg⟩

end Meanwhile

/-- Two results of one action. -/
theorem ok_unique {x : Reading α} {a b : α} {w v v' : Workspace} (h : x w = .ok a v)
    (h' : x w = .ok b v') : a = b ∧ v = v' := by
  rw [h] at h'
  injection h' with ha hv
  exact ⟨ha, hv⟩

/-! ### Putting statements to use -/

namespace Reading
variable {w w' u u' v v' : Workspace} {n : NodeId}

/-- A prompt that is given before its text is read: another one is replaced. -/
def warnRepeated (n : NodeId) : Reading Unit := do
  if ((← get).model.node n).prompt.isSome then warnOwner n .repeatedPrompt

def warnBlanks (n : NodeId) (text : String) : Reading Unit := do
  if Text.trimmed text ≠ text then warnOwner n .promptBlanks

theorem setPrompt_eq (part : PromptPart) : setPrompt n part = (do
    warnRepeated n
    let text ← part.text
    warnBlanks n text
    let cond ← part.cond
    modifyNode n ({ · with prompt := some ⟨Text.trimmed text, cond⟩ })) := by
  simp only [setPrompt, warnRepeated, warnBlanks, bind_assoc, ite_bind, pure_bind]

theorem unnaming_warnRepeated (hu : Ready u) (hn : HasNode n u.model.entries) :
    Unnaming (warnRepeated n) u :=
  .bind_get (fun _ => rfl) (.ite (unnaming_warnOwner hu hn _) (.pure hu.isOpen _))

theorem unnaming_warnBlanks (hu : Ready u) (hn : HasNode n u.model.entries) (text : String) :
    Unnaming (warnBlanks n text) u := .ite (unnaming_warnOwner hu hn _) (.pure hu.isOpen _)

theorem aside_warnRepeated : Moves Aside (warnRepeated n) :=
  .bind .get fun _ => .ite (aside_warnOwner _) (.pure _)

/-- A prompt is the same, whether the names of its condition are registered before or after the
warnings about it. -/
theorem setPrompt_agrees {x y : PromptPart} (hu : Ready u) (hn : HasNode n u.model.entries)
    (hm : Meanwhile w w' u u') (hy : y.Sound) (h : BothAhead w w' x.text x.cond y.text y.cond)
    (h₁ : setPrompt n x u' = .ok () v') (h₂ : setPrompt n y u = .ok () v) : v' = v := by
  rw [setPrompt_eq] at h₁ h₂
  obtain ⟨_, u₁', hwarn', h₁⟩ := bind_ok h₁
  obtain ⟨text', u₂', htext', h₁⟩ := bind_ok h₁
  obtain ⟨_, u₃', hblanks', h₁⟩ := bind_ok h₁
  obtain ⟨cond', u₄', hcond', h₁⟩ := bind_ok h₁
  obtain ⟨_, u₁, hwarn, h₂⟩ := bind_ok h₂
  obtain ⟨text, u₂, htext, h₂⟩ := bind_ok h₂
  obtain ⟨_, u₃, hblanks, h₂⟩ := bind_ok h₂
  obtain ⟨cond, u₄, hcond, h₂⟩ := bind_ok h₂
  have hwent := (aside_warnRepeated _ _ _ hwarn).steadyIf (P := fun _ => True) hu trivial
  have hwent' := hwent.trans (hy.text _ _ _ htext hwent.1 trivial)
  have hm₁ : Meanwhile w w' u₁ u₁' := hm.step (unnaming_warnRepeated hu hn) hwarn' hwarn
  obtain ⟨hu₂', hu₄', _, ⟨names, rfl, hcomes⟩, more, hmore, hcomes'⟩ :=
    h _ _ _ _ _ _ htext' hcond'
  obtain ⟨htexts, hu₂⟩ := hcomes _ _ _ hm₁.same htext
  rw [← w.enlarge_append] at hmore
  -- From here on the names of the condition are the only difference.
  have hu₁' : u₂' = u₂.enlarge more := by
    rw [hu₂', hm₁.enlarged _ hmore, u₁.enlarge_append, hu₂]
  obtain ⟨hsame, henlarge⟩ :=
    unnaming_warnBlanks hwent'.1 (hwent'.2.1 ▸ hn) text _ _ hblanks
  have hu₃' : u₃' = u₃.enlarge more := by
    have hblanks'' := henlarge more
    rw [← hu₁', htexts] at hblanks''
    exact (ok_unique hblanks' hblanks'').2
  have hsame₃ : SameNames (w.enlarge names) u₃ := (hu₂ ▸ hm₁.same.enlarge names).trans hsame
  obtain ⟨hconds, hu₄⟩ := hcomes' _ _ _ hsame₃ hcond
  rw [hu₄', hu₃', ← hu₄, ← htexts, ← hconds] at h₁
  exact (ok_unique h₁ h₂).2

/-- Properties whose parts are ahead change a node alike. -/
theorem addProperty_agrees {statement statement' : Statement} {known : Nat} (hu : Ready u)
    (hn : HasNode n u.model.entries) (hm : Meanwhile w w' u u') (hs : statement'.Sound known)
    (h : statement.IsAhead w w' statement') (hproperty : statement.isProperty = true)
    (h₁ : addProperty n statement u' = .ok () v') (h₂ : addProperty n statement' u = .ok () v) :
    v' = v := by
  cases h with
  | type t hw =>
    rw [hm.eq hw] at h₁
    exact (ok_unique h₁ h₂).2
  | promptedType t h =>
    obtain ⟨_, u₁', htype', h₁⟩ := bind_ok h₁
    obtain ⟨_, u₁, htype, h₂⟩ := bind_ok h₂
    have hwent := steady_setType t _ _ _ htype hu hn
    have hm₁ := hm.step (unnaming_setType hu hn t) htype' htype
    exact setPrompt_agrees hwent.1 (hwent.2.1 ▸ hn) hm₁ (hs _ rfl) h h₁ h₂
  | prompt h => exact setPrompt_agrees hu hn hm hs h h₁ h₂
  | depends h =>
    obtain ⟨a, h₁, h₂⟩ := hm.part h h₁ h₂
    exact (ok_unique h₁ h₂).2
  | visible h =>
    obtain ⟨a, h₁, h₂⟩ := hm.part h h₁ h₂
    exact (ok_unique h₁ h₂).2
  | select h =>
    obtain ⟨_, u₁', hneed', h₁⟩ := bind_ok h₁
    obtain ⟨_, u₁, hneed, h₂⟩ := bind_ok h₂
    obtain ⟨a, d, h₁, h₂⟩ := (hm.step (unnaming_needSymbol hu.isOpen _) hneed' hneed).parts h h₁ h₂
    exact (ok_unique h₁ h₂).2
  | imply h =>
    obtain ⟨_, u₁', hneed', h₁⟩ := bind_ok h₁
    obtain ⟨_, u₁, hneed, h₂⟩ := bind_ok h₂
    obtain ⟨a, d, h₁, h₂⟩ := (hm.step (unnaming_needSymbol hu.isOpen _) hneed' hneed).parts h h₁ h₂
    exact (ok_unique h₁ h₂).2
  | default h =>
    obtain ⟨a, d, h₁, h₂⟩ := hm.parts h h₁ h₂
    exact (ok_unique h₁ h₂).2
  | range h =>
    obtain ⟨a, d, h₁, h₂⟩ := hm.parts h h₁ h₂
    exact (ok_unique h₁ h₂).2
  | option h =>
    obtain ⟨a, h₁, h₂⟩ := hm.part h h₁ h₂
    exact (ok_unique h₁ h₂).2
  | optional hw =>
    rw [hm.eq hw] at h₁
    exact (ok_unique h₁ h₂).2
  | help hw =>
    rw [hm.eq hw] at h₁
    exact (ok_unique h₁ h₂).2
  | _ => exact nomatch hproperty

/-- Two readers of files that agree where both succeed. -/
def FileReader.Agrees (read read' : FileReader) : Prop :=
  ∀ path w ts ts' v v', Ready w → Idle w.macros → read path w = .ok ts' v' →
    read' path w = .ok ts v → ts' = ts ∧ v' = v

/-- Readers that agree bring the same files. -/
theorem insertFiles_agrees {read read' : FileReader} (hread : read.Good)
    (hreturns : read.Returns) (hagrees : read.Agrees read') {ts₀ ts ts' : List Tree} :
    ∀ (files : List String) {u : Workspace}, Ready u → Idle u.macros →
      (ForIn.forIn files ts₀ fun file (trees : List Tree) => do
        let more ← read file
        pure (.yield (more.reverse ++ trees)) : Reading (List Tree)) u = .ok ts' v' →
      (ForIn.forIn files ts₀ fun file (trees : List Tree) => do
        let more ← read' file
        pure (.yield (more.reverse ++ trees)) : Reading (List Tree)) u = .ok ts v →
      ts' = ts ∧ v' = v := by
  intro files
  induction files generalizing ts₀ with
  | nil =>
    intro u _ _ h₁ h₂
    exact ok_unique h₁ h₂
  | cons file files ih =>
    intro u hu hidle h₁ h₂
    rw [List.forIn_cons] at h₁ h₂
    obtain ⟨step', u₁', hstep', h₁⟩ := bind_ok h₁
    obtain ⟨more', u₂', hmore', hstep'⟩ := bind_ok hstep'
    obtain ⟨step, u₁, hstep, h₂⟩ := bind_ok h₂
    obtain ⟨more, u₂, hmore, hstep⟩ := bind_ok hstep
    cases hstep'
    cases hstep
    obtain ⟨rfl, rfl⟩ := hagrees _ _ _ _ _ _ hu hidle hmore' hmore
    have hamid := (hreturns _ _ _ ⟨hidle, rfl⟩).of_ok hmore'
    exact ih (hread _ _ _ _ hu hmore').1.ready hamid.1 h₁ h₂

/-- Statements whose parts are ahead take the same place in the layout. -/
theorem place_agrees {read read' : FileReader} (hread : read.Good) (hreturns : read.Returns)
    (hagrees : read.Agrees read') {statement statement' : Statement} {layout l l' : Layout}
    (hu' : Ready u') (hidle : Idle u'.macros) (hm : Meanwhile w w' u u')
    (h : statement.IsAhead w w' statement')
    (h₁ : place read layout statement u' = .ok l' v')
    (h₂ : place read' layout statement' u = .ok l v) : l' = l ∧ v' = v := by
  cases h with
  | config m h =>
    obtain ⟨a, h₁, h₂⟩ := hm.part h h₁ h₂
    exact ok_unique h₁ h₂
  | menu h =>
    obtain ⟨a, h₁, h₂⟩ := hm.part h h₁ h₂
    exact ok_unique h₁ h₂
  | comment h =>
    obtain ⟨a, h₁, h₂⟩ := hm.part h h₁ h₂
    exact ok_unique h₁ h₂
  | mainmenu h =>
    obtain ⟨a, h₁, h₂⟩ := hm.part h h₁ h₂
    exact ok_unique h₁ h₂
  | choice h =>
    obtain ⟨a, h₁, h₂⟩ := hm.part h h₁ h₂
    exact ok_unique h₁ h₂
  | block h =>
    obtain ⟨a, h₁, h₂⟩ := hm.part h h₁ h₂
    exact ok_unique h₁ h₂
  | source isRelative isRequired h =>
    obtain ⟨a, h₁, h₂⟩ := hm.part h h₁ h₂
    obtain ⟨files', u₁', hfiles', h₁⟩ := bind_ok h₁
    obtain ⟨ts', u₂', hinsert', h₁⟩ := bind_ok h₁
    obtain ⟨files, u₁, hfiles, h₂⟩ := bind_ok h₂
    obtain ⟨ts, u₂, hinsert, h₂⟩ := bind_ok h₂
    obtain ⟨rfl, rfl⟩ := ok_unique hfiles' hfiles
    have hwent := ((aloof_sourcesOf _ _ _).aside _ _ _ hfiles').steadyIf (P := fun _ => True) hu' trivial
    have hamid := (carried_amid.confined (fun _ => confined_sourcesOf isRelative isRequired a) _
      ⟨hidle, rfl⟩).of_ok hfiles'
    obtain ⟨rfl, rfl⟩ :=
      insertFiles_agrees hread hreturns hagrees _ hwent.1 hamid.1 hinsert' hinsert
    exact ok_unique h₁ h₂
  | close kind h =>
    unfold place at h₁ h₂
    cases hlevels : layout.levels with
    | nil =>
      rw [hlevels] at h₁
      exact nomatch h₁
    | cons level levels =>
      rw [hlevels] at h₁ h₂
      dsimp only at h₁ h₂
      split at h₁
      · obtain ⟨_, _, hproblem, -⟩ := bind_ok h₁
        exact nomatch hproblem
      · next hkind =>
        rw [if_neg hkind] at h₂
        obtain ⟨a, h₁, h₂⟩ := hm.part h h₁ h₂
        exact ok_unique h₁ h₂
  | _ => exact nomatch h₁

theorem isProperty_eq {statement statement' : Statement} (h : statement.IsAhead w w' statement') :
    statement'.isProperty = statement.isProperty := by
  cases h <;> rfl

/-- Statements whose parts are ahead do the same. -/
theorem perform_agrees {read read' : FileReader} (hread : read.Good) (hreturns : read.Returns)
    (hagrees : read.Agrees read') {statement statement' : Statement} {first : Workspace}
    {layout l l' : Layout} {known : Nat} (hw : Ready w) (hw' : Ready w')
    (hidle : Idle w'.macros) (hc : layout.Covers first w)
    (hs : statement'.Sound known) (h : statement.IsAhead w w' statement')
    (h₁ : perform read layout statement w' = .ok l' v')
    (h₂ : perform read' layout statement' w = .ok l v) : l' = l ∧ v' = v := by
  have hm : Meanwhile w w' w w' := .refl hw.isOpen
  unfold perform at h₁ h₂
  rw [isProperty_eq h] at h₂
  cases hentry : layout.entry with
  | none =>
    rw [hentry] at h₁ h₂
    exact place_agrees hread hreturns hagrees hw' hidle hm h h₁ h₂
  | some n =>
    rw [hentry] at h₁ h₂
    dsimp only at h₁ h₂
    split at h₁
    · next hproperty =>
      rw [if_pos hproperty] at h₂
      obtain ⟨_, u', hadd', h₁⟩ := bind_ok h₁
      obtain ⟨_, u, hadd, h₂⟩ := bind_ok h₂
      cases h₁
      cases h₂
      exact ⟨rfl, addProperty_agrees hw (hc.entry n hentry) hm hs h hproperty hadd' hadd⟩
    · next hproperty =>
      rw [if_neg hproperty] at h₂
      obtain ⟨l₁', u', hclose', h₁⟩ := bind_ok h₁
      obtain ⟨l₁, u, hclose, h₂⟩ := bind_ok h₂
      obtain ⟨hwent, rfl⟩ := closeEntry_ok hw' hclose'
      obtain ⟨-, rfl⟩ := closeEntry_ok hw hclose
      have hamid := (carried_amid.confined (fun _ => confined_closeEntry layout) _
        ⟨hidle, rfl⟩).of_ok hclose'
      exact place_agrees hread hreturns hagrees hwent.1 hamid.1
        (hm.step (unnaming_closeEntry hw hc) hclose' hclose) h h₁ h₂

end Reading

end Kconfig
