import Kconfig.Proofs.Load.Model
import Kconfig.Proofs.Model.Search
import Kconfig.Proofs.Values.Entering
import Kconfig.Proofs.Values.Loopless
/-!
Loops that the search does not find.

The search for loops goes from an item to what reads it, and from a choice to its members. Almost
every question enters questions about the same item that are simpler, or about items from which the
search goes to its own item. Two kinds go further: the selection of a choice looks at whether symbols
are visible, and the mode of a choice is asked for from elsewhere than its members. So in a model
that loads, values terminate exactly when no loop of questions uses one of these.
-/
namespace Kconfig

namespace Expr
variable {d e : Expr} {i : Item}

/-- The items of an operand of `||` are items of the expression. -/
theorem mem_items_of_disjuncts {a : Expr} (h : e ∈ a.disjuncts) (hi : i ∈ e.items) :
    i ∈ a.items := by
  induction a with
  | or a b iha ihb =>
    rcases List.mem_append.mp h with h | h
    · exact List.mem_append_left _ (iha h)
    · exact List.mem_append_right _ (ihb h)
  | _ =>
    obtain rfl := List.mem_singleton.mp h
    exact hi

/-- The items of an operand of `&&` are items of the expression. -/
theorem mem_items_of_conjuncts {a : Expr} (h : e ∈ a.conjuncts) (hi : i ∈ e.items) :
    i ∈ a.items := by
  induction a with
  | and a b iha ihb =>
    rcases List.mem_append.mp h with h | h
    · exact List.mem_append_left _ (iha h)
    · exact List.mem_append_right _ (ihb h)
  | _ =>
    obtain rfl := List.mem_singleton.mp h
    exact hi

end Expr

namespace Model
open Plan
variable {m : Model} {u : UserValues} {v : Valuation} {s : SymbolId} {q q' : Query}

/-! ### Questions of warnings -/

/-- Questions that the warning about a forced symbol asks: about what the symbol reads, and about
the dependencies of the symbols among that. -/
def OfWarning (m : Model) (s : SymbolId) (q : Query) : Prop :=
  q.item ∈ m.reads (.symbol s) ∨
    ∃ t, .symbol t ∈ m.reads (.symbol s) ∧ q.item ∈ (m.symbol t).directDep.items

theorem holds_ofWarning {e : Expr} (h : ∀ i ∈ e.items, i ∈ m.reads (.symbol s)) :
    (m.holds e).AsksOnly (m.OfWarning s) := (holds_asks_in h).mono fun _ hq => .inl hq

theorem selectorOf_asks {select : Expr} {t : SymbolId}
    (ht : select.conjuncts.head? = some (.symbol t))
    (hselect : ∀ i ∈ select.items, i ∈ m.reads (.symbol s)) :
    (m.selectorOf select).AsksOnly (m.OfWarning s) := by
  have hread : .symbol t ∈ m.reads (.symbol s) := by
    refine hselect _ (Expr.mem_items_of_conjuncts (List.mem_of_mem_head? ht) ?_)
    exact List.mem_singleton_self _
  have hdeps : (m.holds (m.symbol t).directDep).AsksOnly (m.OfWarning s) :=
    (holds_asks _).mono fun _ hq => .inr ⟨t, hread, hq⟩
  unfold selectorOf
  rw [ht]
  refine .bind (.text (.inl hread)) fun _ => .bind hdeps fun _ => ?_
  cases select with
  | and a cond =>
    have hcond : (m.holds cond).AsksOnly (m.OfWarning s) :=
      holds_ofWarning fun i hi => hselect i (List.mem_append_right _ hi)
    exact .bind hcond fun _ => .bind (.pure _) fun _ => .pure _
  | _ => exact .bind (.pure _) fun _ => .pure _

theorem selectorsOf_asks {deps : Expr} (hdeps : ∀ i ∈ deps.items, i ∈ m.reads (.symbol s)) :
    ∀ {selects : List Expr},
      (∀ e ∈ selects, (∃ t, e.conjuncts.head? = some (.symbol t)) ∧
        ∀ i ∈ e.items, i ∈ m.reads (.symbol s)) →
      (m.selectorsOf deps selects).AsksOnly (m.OfWarning s)
  | [], _ => .pure _
  | select :: more, h => by
    obtain ⟨⟨t, ht⟩, hselect⟩ := h select (List.mem_cons_self ..)
    have hmore : (m.selectorsOf deps more).AsksOnly (m.OfWarning s) :=
      selectorsOf_asks hdeps fun e he => h e (List.mem_cons_of_mem _ he)
    refine .bind (holds_ofWarning hselect) fun _ => .bind (holds_ofWarning hdeps) fun _ => ?_
    exact .ite (.bind (selectorOf_asks ht hselect) fun _ => .bind hmore fun _ => .pure _) hmore

theorem Sound.freeLevel_asks (hm : m.Sound) (isVisible : Bool) :
    (m.freeLevel u s isVisible).AsksOnly
      fun q => m.Near (.level (.symbol s)) q ∨ m.OfWarning s q := by
  have hdirect : ∀ i ∈ (m.symbol s).directDep.items, i ∈ m.reads (.symbol s) :=
    fun i hi => mem_reads_symbol (.inr (.inr (.inr (.inr hi))))
  have hrev : ∀ i ∈ (m.symbol s).revDep.items, i ∈ m.reads (.symbol s) :=
    fun i hi => mem_reads_symbol (.inr (.inl hi))
  have hselectors : (m.selectorsOf (m.symbol s).directDep (m.symbol s).revDep.disjuncts).AsksOnly
      (m.OfWarning s) := by
    refine selectorsOf_asks hdirect fun e he => ⟨hm.forced s e he, fun i hi => hrev i ?_⟩
    exact Expr.mem_items_of_disjuncts he hi
  have hunmet : (m.tellUnmet s).AsksOnly (m.OfWarning s) :=
    .bind (holds_ofWarning hdirect) fun _ => .bind (holds_ofWarning hrev) fun _ =>
      .bind hselectors fun _ => .tell _
  have hwarning : ∀ q, m.OfWarning s q →
      m.Near (.level (.symbol s)) q ∨ m.OfWarning s q := fun q hq => .inr hq
  refine .bind ((ownLevel_near s isVisible).mono fun q hq => .inl hq) fun own => ?_
  refine .bind ((holds_ofWarning hrev).mono hwarning) fun _ => .ite ?_ (.pure _)
  refine .bind ((holds_ofWarning hdirect).mono hwarning) fun _ => .ite (.pure _) ?_
  exact .bind (hunmet.mono hwarning) fun _ => .pure _

/-! ### Questions along the search -/

/-- The one question is a simpler one about the item of the other, or about an item from which the
search goes to that item. -/
def Searched (m : Model) (q q' : Query) : Prop :=
  q'.item = q.item ∧ q'.rank < q.rank ∨ Relation.TransGen m.Leads q'.item q.item

/-- A question enters another one where the search does not go: the selection of a choice looks at
whether a symbol is visible, or the mode of a choice is asked for by something that is no member. -/
inductive Unsearched (m : Model) : Query → Query → Prop
  | selected (c : ChoiceId) (s : SymbolId) : m.Unsearched (.selection c) (.visible (.symbol s))
  | mode {q q' : Query} {c : ChoiceId} (hchoice : q'.item = .choice c)
      (hmember : ∀ s ∈ (m.choice c).members, q.item ≠ .symbol s)
      (hown : ¬ (q'.item = q.item ∧ q'.rank < q.rank)) : m.Unsearched q q'

theorem Searched.trans {q'' : Query} (h : m.Searched q q') (h' : m.Searched q' q'') :
    m.Searched q q'' := by
  rcases h with ⟨hitem, hrank⟩ | hleads
  · rcases h' with ⟨hitem', hrank'⟩ | hleads'
    · exact .inl ⟨hitem'.trans hitem, Nat.lt_trans hrank' hrank⟩
    · exact .inr (hitem ▸ hleads')
  · rcases h' with ⟨hitem', -⟩ | hleads'
    · exact .inr (hitem' ▸ hleads)
    · exact .inr (hleads'.trans hleads)

namespace Sound
variable (hm : m.Sound)
include hm

theorem leads_of_reads {i : Item} (hi : ¬ m.Fixed i) (hs : ¬ m.Fixed (.symbol s))
    (h : .symbol s ∈ m.reads i) : m.Leads (.symbol s) i :=
  mem_readers (hm.mem_items hi) h hs (hm.not_constant hs)

/-- What an item reads is searched, unless it is a choice that the item is no member of. -/
theorem searched_of_reads (hq : ¬ m.Fixed q.item) (hq' : ¬ m.Fixed q'.item)
    (h : q'.item ∈ m.reads q.item) : m.Searched q q' ∨ m.Unsearched q q' := by
  cases hitem : q'.item with
  | symbol s =>
    rw [hitem] at hq' h
    left
    right
    rw [hitem]
    exact .single (hm.leads_of_reads hq hq' h)
  | choice c =>
    by_cases hmember : ∃ s ∈ (m.choice c).members, q.item = .symbol s
    · left
      right
      rw [hitem]
      exact .single hmember
    · by_cases hown : q'.item = q.item ∧ q'.rank < q.rank
      · exact .inl (.inl hown)
      · exact .inr (.mode hitem (fun s hs heq => hmember ⟨s, hs, heq⟩) hown)

theorem searched_of_near (hq : ¬ m.Fixed q.item) (hq' : ¬ m.Fixed q'.item) (h : m.Near q q') :
    m.Searched q q' ∨ m.Unsearched q q' := by
  rcases h with hown | hreads
  · exact .inl (.inl hown)
  · exact hm.searched_of_reads hq hq' hreads

/-- What a symbol depends on leads to it, and further to the symbols that it forces. -/
theorem searched_of_warning (hs : ¬ m.Fixed (.symbol s)) (hq' : ¬ m.Fixed q'.item)
    (h : m.OfWarning s q') :
    m.Searched (.level (.symbol s)) q' ∨ m.Unsearched (.level (.symbol s)) q' := by
  rcases h with hreads | ⟨t, ht, hdep⟩
  · exact hm.searched_of_reads (q := .level (.symbol s)) hs hq' hreads
  · by_cases hfixed : m.Fixed (.symbol t)
    · rw [hm.bare t hfixed.1] at hdep
      obtain hitem := List.mem_singleton.mp hdep
      exact absurd (hitem ▸ hm.noFixed) hq'
    · have hforces : m.Leads (.symbol t) (.symbol s) := hm.leads_of_reads hs hfixed ht
      have hreads : q'.item ∈ m.reads (.symbol t) :=
        mem_reads_symbol (.inr (.inr (.inr (.inr hdep))))
      rcases hm.searched_of_reads (q := .text (.symbol t)) hfixed hq' hreads with hsearched | hun
      · rcases hsearched with ⟨hitem, -⟩ | hleads
        · left
          right
          rw [hitem]
          exact .single hforces
        · exact .inl (.inr (hleads.tail hforces))
      · cases hun with
        | @mode _ _ c hchoice _ _ =>
          by_cases hmember' : ∃ s' ∈ (m.choice c).members, Item.symbol s = .symbol s'
          · left
            right
            rw [hchoice]
            exact .single hmember'
          · refine .inr (.mode hchoice (fun s' hs' heq => hmember' ⟨s', hs', heq⟩) fun h => ?_)
            exact nomatch hchoice.symm.trans h.1

/-- Whatever a question asks is searched or not. -/
theorem searched_of_asked (hq : ¬ m.Fixed q.item) (hq' : ¬ m.Fixed q'.item)
    (h : q' ∈ (m.rule u q).asked v) : m.Searched q q' ∨ m.Unsearched q q' := by
  cases q with
  | visible i => exact hm.searched_of_near hq hq' (.inr (visibility_asks i v q' h))
  | text i => exact hm.searched_of_near hq hq' (textRule_near i v q' h)
  | assignable i => exact hm.searched_of_near hq hq' (assignableRule_near i v q' h)
  | selection c =>
    rcases selectionRule_asks c v q' h with hnear | ⟨s, rfl, -⟩
    · exact hm.searched_of_near hq hq' hnear
    · exact .inr (.selected c s)
  | level i =>
    cases i with
    | choice c =>
      obtain rfl : q' = .visible (.choice c) := by simpa [rule, levelRule] using h
      exact .inl (.inl ⟨rfl, Nat.one_pos⟩)
    | symbol s =>
      simp only [rule, levelRule] at h
      split at h
      · exact absurd h List.not_mem_nil
      · split at h
        · exact absurd h List.not_mem_nil
        · split at h
          · simp at h
          · simp only [asked_bind, asked_visible, result_visible] at h
            rcases List.mem_append.mp h with h | h
            · obtain rfl := List.mem_singleton.mp h
              exact .inl (.inl ⟨rfl, Nat.one_pos⟩)
            · cases hc : (m.symbol s).choice with
              | some c =>
                rw [hc] at h
                obtain ⟨-, rfl⟩ := memberLevel_asked h
                exact .inl (.inr (.single ⟨s, (hm.member s c hc).1, rfl⟩))
              | none =>
                rw [hc] at h
                rcases hm.freeLevel_asks _ v q' h with hnear | hwarning
                · exact hm.searched_of_near hq hq' hnear
                · exact hm.searched_of_warning hq hq' hwarning

end Sound

/-- Questions of a kind that lead to each other one after the other, each searched from the one before
or not: they are searched all the way, or one of them leads to the next one unsearched. -/
theorem searched_or_unsearched {R : Query → Query → Prop} {G : Query → Prop}
    (hstep : ∀ {x y}, R x y → G y → G x ∧ (m.Searched x y ∨ m.Unsearched x y))
    (h : Relation.TransGen R q q') (hq' : G q') :
    m.Searched q q' ∨ ∃ x y, m.Unsearched x y ∧ R x y ∧
      (x = q ∨ Relation.TransGen R q x) ∧ (y = q' ∨ Relation.TransGen R y q') := by
  induction h with
  | single hone =>
    rcases (hstep hone hq').2 with hsearched | hun
    · exact .inl hsearched
    · exact .inr ⟨_, _, hun, hone, .inl rfl, .inl rfl⟩
  | tail hway hone ih =>
    obtain ⟨hkind, hsearched | hun⟩ := hstep hone hq'
    · rcases ih hkind with hway' | ⟨x, y, hun, hxy, hto, hfrom⟩
      · exact .inl (hway'.trans hsearched)
      · refine .inr ⟨x, y, hun, hxy, hto, .inr ?_⟩
        rcases hfrom with rfl | hfrom
        · exact .single hone
        · exact hfrom.tail hone
    · exact .inr ⟨_, _, hun, hone, .inr hway, .inl rfl⟩

namespace Sound
variable (hm : m.Sound)
include hm

/-- When no loop is found, a loop of questions has a step that is not searched. -/
theorem exists_unsearched (hloop : m.findLoop? m.readers = none) {R : Query → Query → Prop}
    {G : Query → Prop} (hstep : ∀ {x y}, R x y → G y → G x ∧ (m.Searched x y ∨ m.Unsearched x y))
    (h : Relation.TransGen R q q) (hq : G q) :
    ∃ x y, m.Unsearched x y ∧ R x y ∧ Relation.TransGen R y x := by
  rcases searched_or_unsearched hstep h hq with hsearched | ⟨x, y, hun, hxy, hto, hfrom⟩
  · rcases hsearched with ⟨-, hrank⟩ | hleads
    · exact absurd hrank (Nat.lt_irrefl _)
    · exact absurd hleads (hm.no_loop_leads hloop _)
  · refine ⟨x, y, hun, hxy, ?_⟩
    rcases hfrom with rfl | hfrom
    · rcases hto with rfl | hto
      · exact .single hxy
      · exact hto
    · rcases hto with rfl | hto
      · exact hfrom
      · exact hfrom.trans hto

/-- When no loop is found, values terminate exactly when no question that is entered unsearched leads
back to the question that enters it. -/
theorem terminates_iff (hloop : m.findLoop? m.readers = none) :
    m.Terminates u ↔ ¬ ∃ q q', m.Unsearched q q' ∧ m.Enters u q q' ∧
      Relation.TransGen (m.Enters u) q' q := by
  constructor
  · rintro h ⟨q, q', -, henters, hback⟩
    exact terminates_iff_no_loop.mp h q (.trans (.single henters) hback)
  · intro h
    refine terminates_iff_no_stuck.mpr fun q hstuck => ?_
    obtain ⟨q, hstuck, hq⟩ := hstuck.exists_loop
    refine h (hm.exists_unsearched hloop (fun {x y} henters hy => ?_) hq hstuck)
    have hx := hy.of_enters henters
    refine ⟨hx, ?_⟩
    obtain ⟨depth, hmem⟩ := henters
    refine hm.searched_of_asked hx.not_fixed hy.not_fixed (u := u)
      (v := fun q => (recomputeAt m u depth q).getD (m.fixedAnswer q)) ?_
    refine Plan.asked_of_trail (fun q a ha => ?_) hmem
    rw [ha]
    rfl

/-- So no question may lead back to itself exactly when none that may be asked unsearched leads back
to the question that asks it. -/
theorem loopless_iff (hloop : m.findLoop? m.readers = none) :
    m.Loopless u ↔ ¬ ∃ q q', m.Unsearched q q' ∧ m.MayAsk u q q' ∧
      Relation.TransGen (m.MayAsk u) q' q := by
  constructor
  · rintro h ⟨q, q', -, hasks, hback⟩
    exact h q (.trans (.single hasks) hback)
  · intro h q hq
    have hfree : ¬ m.Fixed q.item := fun hfixed =>
      Nat.lt_irrefl _ (fixed_of_mayAsk hq hfixed).2
    refine h (hm.exists_unsearched hloop (G := fun q => ¬ m.Fixed q.item)
      (fun {x y} hasks hy => ?_) hq hfree)
    obtain ⟨v, hv, hasked⟩ := hasks
    have hx : ¬ m.Fixed x.item := fun hx => hy ((asked_of_fixed hv hx hasked).1 ▸ hx)
    exact ⟨hx, hm.searched_of_asked hx hy hasked⟩

/-- Without choices values always terminate. -/
theorem terminates_of_no_choices (hloop : m.findLoop? m.readers = none) (h : m.choices.size = 0)
    (u : UserValues) : m.Terminates u := by
  have hfixed : ∀ c, m.Fixed (.choice c) := fun c =>
    fixed_choice_of_size_le (h ▸ Nat.zero_le c)
  refine (hm.terminates_iff hloop).mpr ?_
  rintro ⟨q, q', hun, henters, hback⟩
  cases hun with
  | selected c s => exact (stuck_of_loop (.trans (.single henters) hback)).not_fixed (hfixed c)
  | @mode _ _ c hchoice _ _ =>
    refine (stuck_of_loop (hback.tail henters)).not_fixed ?_
    rw [hchoice]
    exact hfixed c

/-- Without choices no question leads back to itself. -/
theorem loopless_of_no_choices (hloop : m.findLoop? m.readers = none) (h : m.choices.size = 0)
    (u : UserValues) : m.Loopless u := by
  have hfixed : ∀ c, m.Fixed (.choice c) := fun c =>
    fixed_choice_of_size_le (h ▸ Nat.zero_le c)
  refine (hm.loopless_iff hloop).mpr ?_
  rintro ⟨q, q', hun, hasks, hback⟩
  cases hun with
  | selected c s =>
    exact Nat.lt_irrefl _ (fixed_of_mayAsk (.trans (.single hasks) hback) (hfixed c)).2
  | @mode _ q' c hchoice _ _ =>
    have hq' : m.Fixed q'.item := by
      rw [hchoice]
      exact hfixed c
    exact Nat.lt_irrefl _ (fixed_of_mayAsk (hback.tail hasks) hq').2

end Sound
end Model

namespace Load
variable {host : Host} {options : LoadOptions} {c : Configuration} {w : Workspace}

/-- In a model that loads, all questions have answers, whatever the user gives, exactly when no
question that is entered where the search for loops does not go leads back to the question that
enters it. -/
theorem recompute_iff_no_unsearched_loop (h : load host options = .ok c w) (u : UserValues) :
    (∀ q, (recompute w.model u q).isSome) ↔ ¬ ∃ q q', w.model.Unsearched q q' ∧
      w.model.Enters u q q' ∧ Relation.TransGen (w.model.Enters u) q' q := by
  have hloop := noLoop_of_load h
  rw [← (sound_of_load h).terminates_iff hloop]
  constructor
  · exact fun hsome q => ⟨_, hsome q⟩
  · exact fun hterminates q => hterminates.recompute_isSome q

/-- A choice that is shown only if a symbol is set that stands in a menu inside of it. -/
def shownFromInside : Host where
  files.entries := [(["work", "Kconfig"], .file (.text
    "choice\n\tprompt \"c\" if S\nmenu \"m\"\nconfig S\n\tbool \"s\"\nendmenu\nendchoice\n"))]

/-- The model loads, and whether the choice is visible hangs on itself. -/
theorem shownFromInside_loops : ∃ c w, load shownFromInside {} = .ok c w ∧
    recompute w.model c.user (.visible (.choice 0)) = none ∧
    ∃ q q', w.model.Unsearched q q' ∧ w.model.Enters c.user q q' ∧
      Relation.TransGen (w.model.Enters c.user) q' q := by
  have hchecked : passes (fun c w => (recompute w.model c.user (.visible (.choice 0))).isNone)
      (load shownFromInside {}) = true := by decide +kernel
  obtain ⟨c, w, hload, hendless⟩ := ok_of_passes hchecked
  have hnone := Option.isNone_iff_eq_none.mp hendless
  refine ⟨c, w, hload, hnone, Classical.byContradiction fun hno => ?_⟩
  have hsome := (recompute_iff_no_unsearched_loop hload c.user).mpr hno (.visible (.choice 0))
  rw [hnone] at hsome
  exact nomatch hsome

end Load
end Kconfig
