import Kconfig.Proofs.Config.Repeated
import Kconfig.Proofs.Config.RoundTrip
import Kconfig.Proofs.Config.Selected
import Kconfig.Proofs.Model.Propagation
import Kconfig.Proofs.Values.Exclusive
import Mathlib.Logic.Relation
/-!
A bool takes on every level that it says can be assigned.

What can be assigned is worked out from the values before the assignment, what the symbol is then
from the values after it. An assignment is a change of one rule: that of the symbol's own level, or
that of the selection of its choice. The answers that this rule asks for do not hang on its own
answer, since no answer hangs on itself, so the conditions that made the level assignable are the
same after the assignment.
-/
namespace Kconfig
open Plan

namespace Model
variable {m : Model} {u u' : UserValues} {v v' : Valuation} {q q' x : Query} {s : SymbolId}
  {ch : ChoiceId}

/-! ### Changing one rule -/

/-- The value that answers one question asks another one. -/
def Asks (m : Model) (u : UserValues) (v : Valuation) (q q' : Query) : Prop :=
  q' ∈ (m.valueRule u q).asked v

/-- No answer hangs on itself. -/
theorem Solves.not_asks_back (hv : m.Solves u v) :
    ∀ q, ¬ Relation.TransGen (m.Asks u v) q q := by
  refine hv.induct_value fun q ih hback => ?_
  obtain ⟨q', hasks, hreach⟩ := Relation.TransGen.head'_iff.mp hback
  exact ih q' hasks (Relation.TransGen.tail' hreach hasks)

/-- The user's values differ in the rule of one question only. -/
def OneRule (m : Model) (x : Query) (u u' : UserValues) : Prop :=
  ∀ q, q ≠ x → m.valueRule u' q = m.valueRule u q

/-- Answers that do not hang on the question whose rule changes stay. -/
theorem OneRule.answer_eq (h : m.OneRule x u u') (hv : m.Solves u v) (hv' : m.Solves u' v') :
    ∀ q, ¬ Relation.ReflTransGen (m.Asks u' v') q x → v q = v' q := by
  refine hv'.induct_value fun q ih hq => ?_
  have hne : q ≠ x := fun heq => hq (heq ▸ .refl)
  refine (SameValue.of_eq (h q hne).symm).answer hv' hv fun q' hq' => ih q' hq' fun hreach => ?_
  exact hq (.head hq' hreach)

/-- What the changed rule asks for has the answers that it had before. -/
theorem OneRule.asked_eq (h : m.OneRule x u u') (hv : m.Solves u v) (hv' : m.Solves u' v')
    (hq : q ∈ (m.valueRule u' x).asked v') : v q = v' q :=
  h.answer_eq hv hv' q fun hreach => hv'.not_asks_back x (.head' hq hreach)

/-- A new value of a bool outside choices is seen by the rule of its level only. -/
theorem oneRule_of_value (htype : (m.symbol s).type = .bool)
    (hvalue : ∀ t, t ≠ s → u'.value t = u.value t)
    (hselection : ∀ c, u'.selection c = u.selection c) : m.OneRule (.level (.symbol s)) u u' := by
  intro q hq
  by_cases hitem : q.item = .symbol s
  · rcases q with (t | c) | (t | c) | i | i | c
    · obtain rfl : t = s := Item.symbol.inj hitem
      simp only [valueRule, rule, textRule, htype]
    · cases hitem
    · exact absurd (congrArg Query.level hitem) hq
    · cases hitem
    · rfl
    · rfl
    · cases hitem
  · exact valueRule_congr (fun t ht => hvalue t fun hts => hitem (hts ▸ ht)) fun c _ => hselection c

/-- A new selection of a choice, with the value of the member, is seen by the rule of the selection
only. -/
theorem oneRule_of_selection (htype : (m.symbol s).type = .bool)
    (hch : (m.symbol s).choice = some ch) (hvalue : ∀ t, t ≠ s → u'.value t = u.value t)
    (hselection : ∀ c, c ≠ ch → u'.selection c = u.selection c) :
    m.OneRule (.selection ch) u u' := by
  intro q hq
  by_cases hitem : q.item = .symbol s
  · exact valueRule_of_member hitem htype hch
  · have hvalues : ∀ t, q.item = .symbol t → u'.value t = u.value t := fun t ht =>
      hvalue t fun hts => hitem (hts ▸ ht)
    rcases q with (t | c) | (t | c) | i | i | c
    · exact valueRule_congr hvalues nofun
    · rfl
    · exact valueRule_congr hvalues nofun
    · rfl
    · rfl
    · rfl
    · exact valueRule_congr hvalues fun d hd => hselection d fun hdc =>
        hq (congrArg Query.selection ((Item.choice.inj hd).trans hdc))

/-! ### What can be assigned -/

/-- Whether something selects a symbol under a valuation. -/
def forcedUnder (m : Model) (v : Valuation) (s : SymbolId) : Bool :=
  (m.holds (m.symbol s).revDep).result v

theorem Solves.assignable_eq (hv : m.Solves u v) (htype : (m.symbol s).type = .bool) :
    v (.assignable (.symbol s)) =
      if v (.visible (.symbol s)) then
        if (m.symbol s).choice.isSome || m.forcedUnder v s then [true] else [false, true]
      else [] := by
  rw [hv.eq_value]
  simp only [valueRule, rule, assignableRule, htype]
  cases hvisible : v (.visible (.symbol s)) <;> simp [hvisible, forcedUnder]

/-- A level that can be assigned is `y`, unless the bool is neither a member nor forced. -/
theorem Solves.of_mem_assignable (hv : m.Solves u v) (htype : (m.symbol s).type = .bool) {b : Bool}
    (hb : b ∈ v (.assignable (.symbol s))) : v (.visible (.symbol s)) = true ∧
      ((m.symbol s).choice.isSome || m.forcedUnder v s → b = true) := by
  rw [hv.assignable_eq htype] at hb
  split at hb
  · next hvisible =>
    refine ⟨hvisible, fun h => ?_⟩
    rw [if_pos h] at hb
    exact List.mem_singleton.mp hb
  · exact absurd hb List.not_mem_nil

/-! ### The level after an assignment -/

/-- A visible bool outside choices is what the user gave, or forced, as it was before. -/
theorem OneRule.level_of_given (h : m.OneRule (.level (.symbol s)) u u') (hv : m.Solves u v)
    (hv' : m.Solves u' v') (htype : (m.symbol s).type = .bool) (hchoice : (m.symbol s).choice = none)
    (hconst : ¬ (s = noId ∨ s = yesId)) (hvisible : v (.visible (.symbol s)) = true)
    {given : UserValue} (hgiven : u'.value s = some given) :
    (v' (.level (.symbol s))).value = (m.forcedUnder v s || given.isYes) := by
  have hrule : m.valueRule u' (.level (.symbol s)) = _ := valueRule_of_free htype hchoice hconst
  have hkept : ∀ q ∈ (m.valueRule u' (.level (.symbol s))).asked v', v q = v' q :=
    fun q hq => h.asked_eq hv hv' hq
  rw [hrule, asked_bind] at hkept
  have hvisible' : v' (.visible (.symbol s)) = true := by
    rw [← hkept _ (List.mem_append_left _ (List.mem_singleton_self _))]
    exact hvisible
  -- the rule asks what selects the bool, which it asked before too
  have hforced : (m.holds (m.symbol s).revDep).result v =
      (m.holds (m.symbol s).revDep).result v' := by
    refine (agree fun q hq => hkept q (List.mem_append_right _ ?_)).1
    rw [plainLevel, asked_bind, asked_bind]
    exact List.mem_append_right _ (List.mem_append_left _ hq)
  rw [(obeys_level hvisible' htype hchoice hconst).mp (hv'.eq_value _), forcedUnder, hforced]
  cases hrev : (m.holds (m.symbol s).revDep).result v' with
  | true =>
    rw [plainLevel_forced hrev]
    rfl
  | false =>
    rw [plainLevel_unforced hrev]
    simp only [ownLevel, hgiven, result_pure, Bool.false_or]

/-- A visible member of a choice in use is `y` when the user selects it. -/
theorem OneRule.level_of_selected (h : m.OneRule (.selection ch) u u') (hv : m.Solves u v)
    (hv' : m.Solves u' v') (htype : (m.symbol s).type = .bool)
    (hch : (m.symbol s).choice = some ch) (hconst : ¬ (s = noId ∨ s = yesId))
    (hmode : (v (.level (.choice ch))).value = true) (hvisible : v (.visible (.symbol s)) = true)
    (hselected : u'.selection ch = some s) : (v' (.level (.symbol s))).value = true := by
  have hkept : ∀ q ∈ (m.selectionRule u' ch).asked v', v q = v' q :=
    fun q hq => h.asked_eq hv hv' hq
  rw [selectionRule, asked_bind] at hkept
  have hmode' : (v' (.level (.choice ch))).value = true := by
    rw [← hkept _ (List.mem_append_left _ (List.mem_singleton_self _))]
    exact hmode
  have hvisible' : v' (.visible (.symbol s)) = true := by
    rw [← hkept _ (List.mem_append_right _ ?_)]
    · exact hvisible
    · simp [hmode', hselected]
  have hselection : v' (.selection ch) = some s := by
    rw [hv'.eq_value]
    refine (m.selectionRule_eq u' v' ch).trans ?_
    rw [if_pos hmode', preferred?, hselected, Option.filter_some_pos hvisible']
    rfl
  rw [hv'.eq_value]
  simp [valueRule, hconst, htype, hch, memberLevel, hvisible', hselection]

/-- A member whose prompts stand inside its choice is visible only when the choice is in use. -/
theorem level_choice_of_visible {host : Host} {options : LoadOptions} {c : Configuration}
    {w : Workspace} (hload : Load.load host options = .ok c w) (htidy : w.model.Tidy)
    (hv : w.model.Solves u v) (hch : (w.model.symbol s).choice = some ch)
    (hvisible : v (.visible (.symbol s)) = true) : (v (.level (.choice ch))).value = true := by
  have hinside := htidy.prompt ch s ((Load.sound_of_load hload).member s ch hch).1
  have hplain := hv.constants_plain
  rw [hv.eq_result] at hvisible
  obtain ⟨m, ⟨blocks, table, hread, hmodel, hlinked⟩, -, -⟩ := Load.load_ok hload
  rw [hmodel] at hlinked hinside hvisible
  exact hread.choice_of_visible hplain hlinked hinside hvisible

end Model

/-- The number that stands for a level. -/
abbrev Given.ofLevel (b : Bool) : Given := .number (if b then 2 else 0)

namespace Configuration
variable {m : Model} {c : Configuration} {v : Valuation} {s : SymbolId}

/-- With a coherent memory the answers that are read are those that the user's values give. -/
theorem Coherent.says_solution (hc : c.Coherent m) (hv : m.Solves c.user v) : c.Says v := by
  obtain ⟨v', hsays, -⟩ := (answering_of_coherent hv hc.model rfl (hc.memory v hv)).exists_saying
  have heq : v' = v := by
    funext q
    obtain ⟨c', hask⟩ := hsays [] q
    obtain ⟨memory, journal, hfollow, -⟩ := Configuring.follow_eq hc hv (.ask q .done)
    have hask : Configuring.follow (.ask q .done) c = .ok (v' q) c' := hask
    rw [hfollow] at hask
    injection hask with hq
    exact hq.symm
  exact heq ▸ hsays

/-- Giving a bool a level is accepted, and leaves it with a level. -/
def Becomes (c : Configuration) (s : SymbolId) (given level : Bool) : Prop :=
  ∃ c' v, Configuring.setSymbol s (.ofLevel given) c = .ok true c' ∧
    c'.Says v ∧ (v (.level (.symbol s))).value = level

end Configuration

namespace Configuring
open Kconfig.Configuration
variable {m : Model} {c c' : Configuration} {s : SymbolId} {ch : ChoiceId}

theorem level?_ofLevel (b : Bool) : (Given.ofLevel b).level? = some (.level b false) := by
  cases b <;> rfl

/-- A level that is what the user gave before. -/
theorem given_of_same {b : Bool} {given : Option UserValue} (h : (Given.ofLevel b).same given = true) :
    ∃ isTruth, given = some (.level b isTruth) := by
  cases given with
  | none => exact nomatch h
  | some given =>
    cases given with
    | text t => exact nomatch h
    | level l isTruth =>
      rw [Given.same, level?_ofLevel] at h
      obtain rfl : b = l := Option.some.inj (eq_of_beq h)
      exact ⟨isTruth, rfl⟩

/-- A bool outside choices takes on the level that it is given, and nothing else changes of what
the user gave. -/
theorem ends_setFree (hc : c.Fits m) (hs : s < m.symbols.size)
    (htype : (m.symbol s).type = .bool) (hchoice : (m.symbol s).choice = none) (b : Bool) :
    Ends (setSymbol s (.ofLevel b)) c fun accepted c' => accepted = true ∧
      (∃ isTruth, c'.user.value s = some (.level b isTruth)) ∧
      (∀ t, t ≠ s → c'.user.value t = c.user.value t) ∧
      ∀ d, c'.user.selection d = c.user.selection d := by
  have hvalue := c.user.value_set_of_lt (hc.values ▸ hs) (some (.level b false))
  obtain rfl := hc.model
  refine .bind_get ?_
  simp only [htype, if_true, hchoice, Option.isNone_none, Bool.and_true]
  split
  · next hsame =>
    exact ⟨true, _, rfl, rfl, given_of_same hsame, fun _ _ => rfl, fun _ => rfl⟩
  · have hforgets : Ends (forgetPrompted s) { c with
        user.values := c.user.values.setIfInBounds s (some (.level b false))
        assigned.symbols := c.assigned.symbols.setIfInBounds s true } fun _ c' =>
          c'.user = { c.user with
            values := c.user.values.setIfInBounds s (some (.level b false)) } :=
      (sure_forgetPrompted s).ends fun _ _ h => (noted_forgetPrompted s _ _ _ h).user
    have hlevel : ValueType.bool.accept? (Given.ofLevel b).readLevel = some (.level b false) :=
      level?_ofLevel b
    rw [hlevel]
    refine hforgets.bind fun _ c' huser => ?_
    refine .pure ⟨rfl, ⟨false, ?_⟩, fun t ht => ?_, fun d => ?_⟩
    · rw [huser]
      exact (hvalue s).trans (if_pos rfl)
    · rw [huser]
      exact (hvalue t).trans (if_neg ht)
    · rw [huser]
      rfl

/-- A member of a choice that is given `y` becomes the user's selection of the choice. -/
theorem ends_setMember (hm : m.Sound) (hc : c.Fits m) (htype : (m.symbol s).type = .bool)
    (hch : (m.symbol s).choice = some ch) :
    Ends (setSymbol s (.ofLevel true)) c fun accepted c' => accepted = true ∧
      c'.user.selection ch = some s ∧ (∀ t, t ≠ s → c'.user.value t = c.user.value t) ∧
      ∀ d, d ≠ ch → c'.user.selection d = c.user.selection d := by
  have hselection := c.user.selection_set_of_lt (hc.selections ▸ hm.lt_of_member hch) (some s)
  obtain rfl := hc.model
  refine .bind_get ?_
  simp only [htype, if_true, hch, Option.isNone_some, Bool.and_false]
  refine ⟨true, _, rfl, rfl, (hselection ch).trans (if_pos rfl), fun t ht => ?_, fun d hd => ?_⟩
  · exact c.user.value_set_of_ne (Ne.symm ht) _
  · exact (hselection d).trans (if_neg hd)

end Configuring

namespace Configuration.Coherent
variable {m : Model} {c : Configuration} {v : Valuation} {s : SymbolId} {ch : ChoiceId}
  (hr : m.Reliable) (hc : c.Coherent m) (hfits : c.Fits m) (hv : m.Solves c.user v)
  (htype : (m.symbol s).type = .bool) (hvisible : v (.visible (.symbol s)) = true)
include hr hc hfits hv htype hvisible

omit hc hfits htype in
theorem not_constant : ¬ (s = noId ∨ s = yesId) := by
  have hfixed : ¬ m.Fixed (.symbol s) := fun hfixed =>
    nomatch hvisible.symm.trans (hv.eq_of_fixed (q := .visible (.symbol s)) hfixed)
  rintro (rfl | rfl)
  · exact hfixed hr.sound.noFixed
  · exact hfixed hr.sound.yesFixed

/-- A visible bool outside choices is what it is given, unless something selects it. -/
theorem becomes_free (hchoice : (m.symbol s).choice = none) (b : Bool) :
    c.Becomes s b (m.forcedUnder v s || b) := by
  have hs : s < m.symbols.size := Nat.lt_of_not_le fun hle => by
    rw [Model.symbol_of_size_le hle] at htype
    exact nomatch htype
  have hset := (Configuring.ends_setFree hfits hs htype hchoice b).keeping
    (Configuring.keeps_setSymbol (kept hr) s _) hc
  obtain ⟨_, c', hset, hc', rfl, ⟨isTruth, hgiven⟩, hvalue, hselection⟩ := hset
  obtain ⟨v', hv'⟩ := (hr.terminates _ hc'.permits).solution
  refine ⟨c', v', hset, hc'.says_solution hv', ?_⟩
  exact (Model.oneRule_of_value htype hvalue hselection).level_of_given hv hv' htype hchoice
    (not_constant hr hv hvisible) hvisible hgiven

/-- A visible member of a choice in use is `y` when it is given `y`. -/
theorem becomes_member (hch : (m.symbol s).choice = some ch)
    (hmode : (v (.level (.choice ch))).value = true) : c.Becomes s true true := by
  have hset := (Configuring.ends_setMember hr.sound hfits htype hch).keeping
    (Configuring.keeps_setSymbol (kept hr) s _) hc
  obtain ⟨_, c', hset, hc', rfl, hselected, hvalue, hselection⟩ := hset
  obtain ⟨v', hv'⟩ := (hr.terminates _ hc'.permits).solution
  refine ⟨c', v', hset, hc'.says_solution hv', ?_⟩
  exact (Model.oneRule_of_selection htype hch hvalue hselection).level_of_selected hv hv' htype hch
    (not_constant hr hv hvisible) hmode hvisible hselected

end Configuration.Coherent

/-- Whatever was done before, a bool takes on every level that it says can be assigned; and one
outside choices that says that only `y` can be assigned is `y`, and stays so whatever it is given.
The model must be tidy: a choice that selects something which is not its member may be out of date,
and members may be shown by that. -/
theorem assignable_after_acts {host : Host} {options : LoadOptions} {c : Configuration}
    {w : Workspace} (hload : Load.load host options = .ok c w)
    (hterminates : ∀ u, w.model.Permits u → w.model.Terminates u) (htidy : w.model.Tidy)
    {s : SymbolId} (hbool : (w.model.symbol s).type = .bool) (acts : List Act) :
    ∃ v, (c.after acts).Says v ∧
      (∀ b ∈ v (.assignable (.symbol s)), (c.after acts).Becomes s b b) ∧
      ((w.model.symbol s).choice = none → v (.assignable (.symbol s)) = [true] →
        (v (.level (.symbol s))).value = true ∧ ∀ b, (c.after acts).Becomes s b true) := by
  have hr : w.model.Reliable := ⟨Load.sound_of_load hload, htidy, hterminates⟩
  have hc : (c.after acts).Coherent w.model := (Load.coherent_of_load hload).after hr acts
  have hfits := (ready_after hload acts).fits
  obtain ⟨v, hv⟩ := (hterminates _ hc.permits).solution
  refine ⟨v, hc.says_solution hv, fun b hb => ?_, fun hchoice honly => ?_⟩
  · obtain ⟨hvisible, hyes⟩ := hv.of_mem_assignable hbool hb
    cases hch : (w.model.symbol s).choice with
    | none =>
      have hforced : (w.model.forcedUnder v s || b) = b := by
        rw [hch] at hyes
        cases hforced : w.model.forcedUnder v s with
        | false => rfl
        | true => exact (hyes hforced).symm
      have hbecomes := hc.becomes_free hr hfits hv hbool hvisible hch b
      rwa [hforced] at hbecomes
    | some ch =>
      obtain rfl : b = true := hyes (by rw [hch]; rfl)
      have hmode := Model.level_choice_of_visible hload htidy hv hch hvisible
      exact hc.becomes_member hr hfits hv hbool hvisible hch hmode
  · have hvisible := (hv.of_mem_assignable hbool (honly ▸ List.mem_singleton_self true)).1
    have hforced : w.model.forcedUnder v s = true := by
      rw [hv.assignable_eq hbool, if_pos hvisible, hchoice] at honly
      cases hforced : w.model.forcedUnder v s with
      | true => rfl
      | false =>
        rw [hforced] at honly
        exact nomatch honly
    refine ⟨?_, fun b => ?_⟩
    · have hconst := Configuration.Coherent.not_constant hr hv hvisible
      rw [(Model.obeys_level hvisible hbool hchoice hconst).mp (hv.eq_value _),
        Model.plainLevel_forced hforced]
    · have hbecomes := hc.becomes_free hr hfits hv hbool hvisible hchoice b
      rwa [hforced, Bool.true_or] at hbecomes

/-- A bool that another one selects. -/
def selectedBool : Host where
  files.entries := [(["work", "Kconfig"], .file (.text
    "config A\n\tbool \"a\"\n\tselect B\n\nconfig B\n\tbool \"b\"\n"))]

/-- The user takes it away before it is selected. -/
def refuseAndSelect : List Act :=
  [.setSymbol 3 (.number 0), .ask (.level (.symbol 3)), .setSymbol 2 (.number 2)]

theorem selectedBool_assignable : ∃ c w v, Load.load selectedBool {} = .ok c w ∧
    (w.model.symbol 3).type = .bool ∧ (w.model.symbol 3).choice = none ∧
    let later := c.after refuseAndSelect
    later.Says v ∧ v (.assignable (.symbol 3)) = [true] ∧ (v (.level (.symbol 3))).value = true ∧
      later.Becomes 3 true true ∧ later.Becomes 3 false true := by
  have hchecked : passes (fun c w => decide (w.model.choices.size = 0 ∧
      (w.model.symbol 3).type = .bool ∧ (w.model.symbol 3).choice = none) &&
      passes (fun a _ => a == [true])
        (Configuring.ask (.assignable (.symbol 3)) (c.after refuseAndSelect)))
      (Load.load selectedBool {}) = true := by decide +kernel
  obtain ⟨c, w, hload, hchecked⟩ := ok_of_passes hchecked
  obtain ⟨hmodel, hask⟩ := (Bool.and_eq_true _ _).mp hchecked
  obtain ⟨hno, hbool, hchoice⟩ := of_decide_eq_true hmodel
  have hloop := Load.noLoop_of_load hload
  have hm := Load.sound_of_load hload
  obtain ⟨v, hsays, htakes, honly⟩ := assignable_after_acts hload
    (fun u _ => hm.terminates_of_no_choices hloop hno u) (Model.tidy_of_no_choices hno) hbool
    refuseAndSelect
  have hassignable : v (.assignable (.symbol 3)) = [true] := by
    obtain ⟨c', hsaid⟩ := hsays [] (.assignable (.symbol 3))
    change Configuring.ask _ (c.after refuseAndSelect) = _ at hsaid
    rw [hsaid] at hask
    exact eq_of_beq hask
  obtain ⟨hlevel, hstays⟩ := honly hchoice hassignable
  refine ⟨c, w, v, hload, hbool, hchoice, hsays, hassignable, hlevel, ?_, hstays false⟩
  exact htakes true (hassignable ▸ List.mem_singleton_self true)

end Kconfig
