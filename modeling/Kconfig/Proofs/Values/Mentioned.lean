import Kconfig.Proofs.Reading.Printing
import Kconfig.Proofs.Values.Recall
/-!
Mentioned symbols have no values but their names.

Nothing is remembered about symbols that are not known, and they have no type. So all questions about
two of them with one name have the same answers, and expressions that differ in nothing but such
symbols have the same value, with the same warnings and the same answers remembered.
-/
namespace Kconfig
open Plan

namespace Memory
variable {k : Memory} {s : SymbolId} {d : Dependents} {i : Item}

theorem size_set (k : Memory) (q : Query) (a : q.Answer) :
    (k.set q a).symbols.size = k.symbols.size := by
  rcases q with (s | c) | (s | c) | (s | c) | (s | c) | c <;>
    simp [set, modifySymbol, modifyChoice]

theorem size_forget (k : Memory) (i : Item) : (k.forget i).symbols.size = k.symbols.size := by
  cases i <;> simp [forget, modifySymbol, modifyChoice]

theorem size_forgetFor (d : Dependents) : ∀ (fuel : Nat) (k : Memory) (i : Item),
    (forgetFor d fuel k i).symbols.size = k.symbols.size
  | 0, _, _ => rfl
  | fuel + 1, k, i => by
    refine Lists.foldl_keeps (fun k' : Memory => k'.symbols.size = k.symbols.size)
      (fun k' j hk' => ?_) _ (size_forget k i)
    split
    · exact (size_forgetFor d fuel k' j).trans hk'
    · exact hk'

theorem size_forgetFrom (d : Dependents) (k : Memory) (i : Item) :
    (k.forgetFrom d i).symbols.size = k.symbols.size := size_forgetFor d _ k i

end Memory

namespace Evaluating
variable {m : Model} {u : UserValues} {known : Nat} {α β : Type} {e : Evaluation} {s t : SymbolId}

/-- Nothing is remembered about symbols that are not among the first ones. -/
def Within (known : Nat) (e : Evaluation) : Prop := e.memory.symbols.size ≤ known

theorem keeps_within_follow (p : Plan α) : Keeps (Within known) (follow m u p) :=
  keeps_follow (fun _ => .update fun _ he => he)
    (fun e q a he => (Nat.le_of_eq (e.memory.size_set q a)).trans he) p

/-- Carrying two plans out one after the other. -/
theorem follow_bind (p : Plan β) (f : β → Plan α) :
    follow m u (p.bind f) = follow m u p >>= fun b => follow m u (f b) := by
  induction p with
  | done b => rfl
  | ask q next ih =>
    show (read m u q >>= fun a => follow m u ((next a).bind f)) =
      (read m u q >>= fun a => follow m u (next a)) >>= fun b => follow m u (f b)
    rw [LawfulMonad.bind_assoc]
    exact congrArg _ (funext ih)
  | warn w next ih =>
    show (warn w >>= fun _ => follow m u (next.bind f)) =
      (warn w >>= fun _ => follow m u next) >>= fun b => follow m u (f b)
    rw [LawfulMonad.bind_assoc, ih]

/-! ### Plans that do the same -/

/-- The plans give the same and leave the same, whatever is remembered about the first symbols. -/
def Agree (m : Model) (u : UserValues) (known : Nat) (p p' : Plan α) : Prop :=
  ∀ e, Within known e → follow m u p e = follow m u p' e

namespace Agree

theorem refl (p : Plan α) : Agree m u known p p := fun _ _ => rfl

theorem bind {p p' : Plan β} {f f' : β → Plan α} (h : Agree m u known p p')
    (hf : ∀ b, Agree m u known (f b) (f' b)) : Agree m u known (p.bind f) (p'.bind f') := by
  intro e he
  have hkept := keeps_within_follow (m := m) (u := u) p e he
  unfold KeepsAt at hkept
  rw [follow_bind, follow_bind, bind_apply, bind_apply, ← h e he]
  cases hfollow : follow m u p e with
  | error failure e' => rfl
  | ok b e' =>
    rw [hfollow] at hkept
    exact hf b e' hkept

end Agree

/-! ### Mentioned symbols -/

/-- An answer that is given at once, about a symbol that nothing is remembered about. -/
theorem read_of_done {q : Query} {a : q.Answer} (hitem : q.item = .symbol s) (hs : known ≤ s)
    (hrule : m.rule u q = .done a) (he : Within known e) : read m u q e = .ok a e := by
  have hroom : e.memory.symbols.size ≤ s := Nat.le_trans he hs
  have hsymbol : e.memory.symbol s = {} := by
    rw [Memory.symbol, Array.getElem?_eq_none hroom]
    rfl
  have hmodify : ∀ f, e.memory.modifySymbol s f = e.memory := fun f => by
    rw [Memory.modifySymbol]
    congr 1
    refine Array.ext (by simp) fun i hi _ => ?_
    rw [Array.size_modify] at hi
    rw [Array.getElem_modify, if_neg (by omega)]
  have hnone : e.memory.get? q = none := by
    cases q <;> simp only [Query.item, reduceCtorEq] at hitem <;> subst hitem <;>
      simp [Memory.get?, hsymbol]
  have hset : e.memory.set q a = e.memory := by
    cases q <;> simp only [Query.item, reduceCtorEq] at hitem <;> subst hitem <;>
      exact hmodify _
  show readAt m u (5 * (m.symbols.size + m.choices.size) + 4 + 1) q e = _
  rw [readAt_succ, hnone, hrule]
  show EStateM.Result.ok a { e with memory := e.memory.set q a } = _
  rw [hset]

theorem follow_text (h : m.Indexed) (hs : m.known ≤ s) (hlt : s < m.symbols.size)
    (he : Within m.known e) : follow m u (text (.symbol s)) e = .ok (m.symbol s).name e := by
  obtain ⟨name, isConstant, heq, -⟩ := h.mentioned s hs hlt
  have hrule : m.rule u (.text (.symbol s)) = .done ⟨(m.symbol s).name, false⟩ := by
    simp only [Model.rule, Model.textRule, heq]
    rfl
  show (read m u (.text (.symbol s)) >>= _) e = _
  rw [bind_apply, read_of_done rfl hs hrule he]
  rfl

theorem follow_level (h : m.Indexed) (hs : m.known ≤ s) (hlt : s < m.symbols.size)
    (he : Within m.known e) : follow m u (level (.symbol s)) e = .ok false e := by
  obtain ⟨name, isConstant, heq, -⟩ := h.mentioned s hs hlt
  have hrule : m.rule u (.level (.symbol s)) = .done ⟨false, false⟩ := by
    have htwo := h.two_le
    have hlevel : ¬(s = noId ∨ s = yesId) := by
      rintro (rfl | rfl)
      · exact absurd (Nat.le_trans htwo hs) (by decide)
      · exact absurd (Nat.le_trans htwo hs) (by decide)
    simp only [Model.rule, Model.levelRule, heq]
    rw [if_neg hlevel]
    rfl
  show (read m u (.level (.symbol s)) >>= _) e = _
  rw [bind_apply, read_of_done rfl hs hrule he]
  rfl

/-! ### Expressions -/

section Alike
variable (h : m.Indexed)
include h

theorem agree_text (hsame : m.Same s t) :
    Agree m u m.known (text (.symbol s)) (text (.symbol t)) := by
  rcases hsame with rfl | ⟨hs, ht, hslt, htlt, heq⟩
  · exact .refl _
  · intro e he
    rw [follow_text h hs hslt he, follow_text h ht htlt he, heq]

theorem agree_level (hsame : m.Same s t) :
    Agree m u m.known (level (.symbol s)) (level (.symbol t)) := by
  rcases hsame with rfl | ⟨hs, ht, hslt, htlt, -⟩
  · exact .refl _
  · intro e he
    rw [follow_level h hs hslt he, follow_level h ht htlt he]

omit h in
theorem itemType_same (hsame : m.Same s t) : m.itemType (.symbol s) = m.itemType (.symbol t) := by
  rcases hsame with rfl | ⟨-, -, -, -, heq⟩
  · rfl
  · simp only [Model.itemType, heq]

theorem agree_numberOf (hsame : m.Same s t) :
    Agree m u m.known (m.numberOf (.symbol s)) (m.numberOf (.symbol t)) := by
  unfold Model.numberOf
  rw [itemType_same hsame]
  split
  · exact (agree_level h hsame).bind fun _ => .refl _
  · exact (agree_text h hsame).bind fun _ => .refl _

theorem agree_textOrder {s' t' : SymbolId} (hsame : m.Same s t) (hsame' : m.Same s' t') :
    Agree m u m.known (Model.textOrder (.symbol s) (.symbol s'))
      (Model.textOrder (.symbol t) (.symbol t')) :=
  (agree_text h hsame).bind fun _ => (agree_text h hsame').bind fun _ => .refl _

theorem agree_itemOrder {s' t' : SymbolId} (hsame : m.Same s t) (hsame' : m.Same s' t') :
    Agree m u m.known (m.itemOrder (.symbol s) (.symbol s'))
      (m.itemOrder (.symbol t) (.symbol t')) := by
  unfold Model.itemOrder
  rw [itemType_same hsame, itemType_same hsame']
  split
  · exact agree_textOrder h hsame hsame'
  · refine (agree_numberOf h hsame).bind fun x => ?_
    cases x with
    | none => exact agree_textOrder h hsame hsame'
    | some x =>
      refine (agree_numberOf h hsame').bind fun y => ?_
      cases y with
      | none => exact agree_textOrder h hsame hsame'
      | some y => exact .refl _

/-- Expressions that differ in nothing but mentioned symbols of the same names have the same value. -/
theorem agree_holds {a b : Expr} (hab : a.Alike m.Same b) :
    Agree m u m.known (m.holds a) (m.holds b) := by
  induction hab with
  | symbol hsame => exact agree_level h hsame
  | compare r hsame hsame' => exact (agree_itemOrder h hsame hsame').bind fun _ => .refl _
  | not _ ih => exact ih.bind fun _ => .refl _
  | and _ _ iha ihb =>
    refine iha.bind fun x => ?_
    cases x with
    | false => exact .refl _
    | true => exact ihb
  | or _ _ iha ihb =>
    refine iha.bind fun x => ?_
    cases x with
    | false => exact ihb
    | true => exact .refl _

end Alike
end Evaluating
end Kconfig
