import Kconfig.Proofs.Config.History
import Kconfig.Proofs.Values.Exclusive
/-!
A choice selects one of its members after any history.

Acts keep the questions about an exclusive choice backed, also where other choices let answers get
out of date. As long as reading comes to an end, what is read is then what the rules for the choice
make of everything else that is read, and these select exactly one visible member, or none.
-/
namespace Kconfig
open Memory

variable {m : Model} {ch : ChoiceId} {c c' : Configuration}

/-- A configuration of a model in which the questions about a choice are backed. -/
structure Configuration.Backs (m : Model) (ch : ChoiceId) (c : Configuration) : Prop where
  model : c.model = m
  dependents : c.dependents = m.dependents
  permits : m.Permits c.user
  memory : c.memory.Backed m c.user (m.Concerns ch)

namespace Configuration.Backs

/-- What the user selects is a member. -/
theorem selected (hm : m.Sound) (hc : c.Backs m ch) :
    ∀ s, c.user.selection ch = some s → s ∈ (m.choice ch).members := fun s hs =>
  (hm.member s ch (hc.permits.selection ch s hs).1).1

section Steps
variable (hm : m.Sound) (ho : m.Owned) (hx : m.Exclusive ch)
include hm ho hx

/-- A change of the user's values keeps the choice backed when its selection is forgotten or stays
as it is. -/
theorem changed (hc : c.Backs m ch) (hmodel : c'.model = m)
    (hdependents : c'.dependents = m.dependents) (hpermits : m.Permits c'.user)
    (hmemory : c'.memory = c.memory ∨ ∃ i, c'.memory = c.memory.forgetFrom m.dependents i)
    (hselection : (c'.memory.get? (.selection ch)).isSome →
      c'.user.selection ch = c.user.selection ch) : c'.Backs m ch := by
  have hk : c'.memory.Backed m c.user (m.Concerns ch) := by
    rcases hmemory with heq | ⟨i, heq⟩
    · rw [heq]
      exact hc.memory
    · rw [heq]
      exact hc.memory.forget (forgot_forgetFrom ..) fun q hq hsome q' hq' =>
        hx.dependent hm ho (hc.selected hm) hc.memory hq hsome hq'
  refine ⟨hmodel, hdependents, hpermits, hk.congr fun q hq hsome => ?_⟩
  refine hx.valueRule_eq hm ho hq ?_
  rintro rfl
  exact hselection hsome

/-- No step leaves a question about the choice unbacked. -/
theorem kept : Kept (Backs m ch) := by
  intro c c' hstep hc
  have hforgets : ∀ d, c.memory.forgetFrom c.dependents (.choice d) =
      c.memory.forgetFrom m.dependents (.choice d) := fun d => by rw [hc.dependents]
  -- a selection that is still remembered is not of the choice that was forgotten
  have hother : ∀ {d : ChoiceId} {t : Option SymbolId},
      ((c.memory.forgetFrom c.dependents (.choice d)).get? (.selection ch)).isSome →
      ({ c.user with selections := c.user.selections.setIfInBounds d t } : UserValues).selection
        ch = c.user.selection ch := by
    intro d t hsome
    refine c.user.selection_set_of_ne (fun hd => ?_) t
    rw [hd, (forgot_forgetFrom c.dependents c.memory (.choice ch)).gone (.selection ch) rfl] at hsome
    exact nomatch hsome
  cases hstep with
  | note h =>
    refine ⟨h.model.trans hc.model, h.dependents.trans hc.dependents, ?_, ?_⟩
    · rw [h.user]
      exact hc.permits
    · rw [h.user, h.memory]
      exact hc.memory
  | value s g hg =>
    rw [hc.model] at hg
    refine changed hm ho hx hc hc.model hc.dependents (hc.permits.setValue hg) ?_ fun _ => rfl
    show c.remembered s = _ ∨ ∃ i, c.remembered s = _
    unfold remembered
    split
    · exact .inr ⟨.symbol s, by rw [hc.dependents]⟩
    · exact .inl rfl
  | select s d a hchoice htype ha =>
    rw [hc.model] at hchoice htype ha
    exact changed hm ho hx hc hc.model hc.dependents (hc.permits.select hchoice htype ha)
      (.inr ⟨.choice d, hforgets d⟩) hother
  | mode d g =>
    exact changed hm ho hx hc hc.model hc.dependents ⟨hc.permits.value, hc.permits.selection⟩
      (.inr ⟨.choice d, hforgets d⟩) fun _ => rfl
  | unselect d =>
    exact changed hm ho hx hc hc.model hc.dependents (hc.permits.unselect d _)
      (.inr ⟨.choice d, hforgets d⟩) hother

end Steps

theorem keptByFiles : KeptByFiles (Backs m ch) :=
  fun _ _ hc => ⟨hc.model, hc.dependents, hc.permits, hc.memory⟩

/-- Nor does asking. -/
theorem keeps_follow {α : Type} (p : Plan α) :
    Keeps (Backs m ch) (Configuring.follow p) := by
  intro c hc
  obtain rfl := hc.model
  have hkeeps : (stateAfter (Evaluating.follow c.model c.user p ⟨c.memory, c.journal⟩)).memory.Backed
      c.model c.user (c.model.Concerns ch) :=
    (Evaluating.reads_run (Evaluating.reads_readAt _) p ⟨c.memory, c.journal⟩ hc.memory).1
  unfold KeepsAt
  rw [Configuring.stateAfter_follow]
  exact ⟨rfl, hc.dependents, hc.permits, hkeeps⟩

end Configuration.Backs

/-! ### Reading -/

/-- Reading comes to an end: every question has an answer, whatever was asked before. -/
def Configuration.Answering (c : Configuration) : Prop :=
  ∀ (qs : List Query) (q : Query), ∃ a c',
    Configuring.ask q (c.after (qs.map .ask)) = .ok a c'

/-- The answers that are read are those of a valuation, whatever was asked before. -/
def Configuration.Says (c : Configuration) (v : Valuation) : Prop :=
  ∀ (qs : List Query) (q : Query), ∃ c',
    Configuring.ask q (c.after (qs.map .ask)) = .ok (v q) c'

namespace Configuring

theorem follow_warn {α : Type} (w : Warning) (next : Plan α) :
    follow (.warn w next) c =
      follow next { c with journal := c.journal.warn none w } := by
  rw [follow_apply, follow_apply]
  rfl

/-- A plan that asks and is carried out has an answer, and goes on with it. -/
theorem ask_of_follow {α : Type} {q : Query} {next : q.Answer → Plan α}
    {a : α} (h : follow (.ask q next) c = .ok a c') :
    ∃ b d, ask q c = .ok b d ∧ follow (next b) d = .ok a c' := by
  obtain ⟨e, hfollow, rfl⟩ := follow_ok h
  obtain ⟨b, e₁, hread, hnext⟩ : ∃ b e₁,
      Evaluating.read c.model c.user q ⟨c.memory, c.journal⟩ = .ok b e₁ ∧
        Evaluating.follow c.model c.user (next b) e₁ = .ok a e := bind_ok hfollow
  have hsame : Evaluating.follow c.model c.user (.ask q .done) ⟨c.memory, c.journal⟩ = .ok b e₁ := by
    rw [← hread]
    exact congrFun (bind_pure (Evaluating.read c.model c.user q)) _
  refine ⟨b, { c with memory := e₁.memory, journal := e₁.journal }, ?_, ?_⟩
  · rw [ask, follow_apply, hsame]
  · rw [follow_apply, hnext]

end Configuring

namespace Configuration

/-- The memory has grown from that of a configuration by answers which that one determines. -/
structure Asked (c c' : Configuration) : Prop where
  model : c'.model = c.model
  user : c'.user = c.user
  grown : Grown c.model c.user c.memory c'.memory

theorem Asked.refl (c : Configuration) : c.Asked c := ⟨rfl, rfl, .refl _⟩

/-- What is asked is determined by what was remembered at first. -/
theorem Asked.ask {c₁ c₂ : Configuration} (h : c.Asked c₁) {q : Query} {a : q.Answer}
    (hask : Configuring.ask q c₁ = .ok a c₂) :
    c.Asked c₂ ∧ Answers c.model c.user c.memory q a := by
  obtain ⟨e, hread, rfl⟩ := Configuring.read_of_ask hask
  rw [h.model, h.user] at hread
  obtain ⟨hmemory, hanswer⟩ :=
    Evaluating.yields_readAt c.model.depthOfQueries q ⟨c₁.memory, c₁.journal⟩ h.grown a e hread
  exact ⟨⟨h.model, h.user, hmemory⟩, hanswer⟩

theorem after_ask {q : Query} {a : q.Answer} (h : Configuring.ask q c = .ok a c')
    (qs : List Query) : c.after ((q :: qs).map .ask) = c'.after (qs.map .ask) := by
  have hstate : stateAfter (Act.perform (.ask q) c) = c' := by
    show stateAfter ((Configuring.ask q >>= fun _ => pure ()) c) = c'
    rw [stateAfter_bind_pure, h]
    rfl
  rw [List.map_cons, after, List.foldl_cons, hstate]
  rfl

theorem Asked.after : ∀ (qs : List Query) {c' : Configuration}, c.Asked c' → c'.Answering →
    c.Asked (c'.after (qs.map .ask))
  | [], _, h, _ => h
  | q :: qs, c', h, ha => by
    obtain ⟨a, c'', hask⟩ := ha [] q
    have hask : Configuring.ask q c' = .ok a c'' := hask
    rw [after_ask hask]
    refine Asked.after qs (h.ask hask).1 fun qs' q' => ?_
    rw [← after_ask hask]
    exact ha (q :: qs') q'

/-- Where reading comes to an end, it is definite what is read. -/
theorem Answering.exists_saying (h : c.Answering) :
    ∃ v, c.Says v ∧ ∀ q, Answers c.model c.user c.memory q (v q) := by
  have hanswers : ∀ q, ∃ a, Answers c.model c.user c.memory q a := fun q => by
    obtain ⟨a, c', hask⟩ := h [] q
    exact ⟨a, ((Asked.refl c).ask hask).2⟩
  obtain ⟨v, hv⟩ := Classical.axiomOfChoice hanswers
  refine ⟨v, fun qs q => ?_, hv⟩
  obtain ⟨a, c', hask⟩ := h qs q
  obtain rfl := ((Asked.after qs (.refl c) h).ask hask).2.unique (hv q)
  exact ⟨c', hask⟩

/-- Where the model, the user's values and what is remembered are the same. -/
structure SameMemory (c d : Configuration) : Prop where
  model : d.model = c.model
  user : d.user = c.user
  memory : d.memory = c.memory

/-- What was told does not matter to a question. -/
theorem SameMemory.ask {d : Configuration} (h : c.SameMemory d) {q : Query} {a : q.Answer}
    (hask : Configuring.ask q c = .ok a c') :
    ∃ d', Configuring.ask q d = .ok a d' ∧ c'.SameMemory d' := by
  obtain ⟨e, hread, rfl⟩ := Configuring.read_of_ask hask
  obtain ⟨e', hread', hmemory⟩ := Evaluating.deaf_readAt c.model.depthOfQueries q _
    ⟨d.memory, d.journal⟩ a e h.memory hread
  have hfollow : Evaluating.follow d.model d.user (.ask q .done) ⟨d.memory, d.journal⟩ =
      .ok a e' := by
    rw [h.model, h.user, ← hread']
    exact congrFun (bind_pure (Evaluating.read c.model c.user q)) _
  refine ⟨{ d with memory := e'.memory, journal := e'.journal }, ?_, h.model, h.user, hmemory⟩
  rw [Configuring.ask, Configuring.follow_apply, hfollow]

theorem Says.sameMemory {v : Valuation} {d : Configuration} (hsaid : c.Says v) (h : c.SameMemory d) :
    d.Says v := by
  intro qs
  induction qs generalizing c d with
  | nil =>
    intro q
    obtain ⟨c', hask⟩ := hsaid [] q
    obtain ⟨d', hask', -⟩ := h.ask hask
    exact ⟨d', hask'⟩
  | cons q qs ih =>
    obtain ⟨c', hask⟩ := hsaid [] q
    have hask : Configuring.ask q c = .ok (v q) c' := hask
    obtain ⟨d', hask', hnext⟩ := h.ask hask
    rw [after_ask hask']
    refine ih (fun qs' q' => ?_) hnext
    rw [← after_ask hask]
    exact hsaid (q :: qs') q'

/-- A question is answered by the valuation, and so are all questions after it. -/
theorem Says.ends_ask {v : Valuation} (h : c.Says v) (q : Query) :
    Ends (Configuring.ask q) c fun a c' =>
      a = v q ∧ c'.Says v ∧ c'.model = c.model ∧ c'.user = c.user := by
  obtain ⟨c', hask⟩ := h [] q
  have hask : Configuring.ask q c = .ok (v q) c' := hask
  obtain ⟨e, -, rfl⟩ := Configuring.read_of_ask hask
  refine ⟨_, _, hask, rfl, fun qs q' => ?_, rfl, rfl⟩
  rw [← after_ask hask]
  exact h (q :: qs) q'

/-- A plan is carried out with the answers that are read; what is told meanwhile does not matter. -/
theorem Says.ends_follow {v : Valuation} (h : c.Says v) {α : Type} (p : Plan α) :
    Ends (Configuring.follow p) c fun a _ => a = p.result v := by
  induction p generalizing c with
  | done a => exact ⟨a, _, Configuring.follow_apply _ c, rfl⟩
  | warn w next ih =>
    unfold Ends
    rw [Configuring.follow_warn]
    exact ih (h.sameMemory ⟨rfl, rfl, rfl⟩)
  | ask q next ih =>
    obtain ⟨_, c', hask, rfl, hsaid, -⟩ := h.ends_ask q
    unfold Ends
    rw [Configuring.follow_ask hask]
    exact ih (v q) hsaid

open Classical in
/-- What is read of every question, and nothing where reading does not come to an end. -/
noncomputable def reading (c : Configuration) : Valuation := fun q =>
  if h : ∃ a, Answers c.model c.user c.memory q a then h.choose else
    match q with
    | .text _ => ⟨"", false⟩
    | .level _ => ⟨false, false⟩
    | .visible _ => false
    | .assignable _ => []
    | .selection _ => none

theorem reading_eq {q : Query} {a : q.Answer} (h : Answers c.model c.user c.memory q a) :
    c.reading q = a := by
  have hsome : ∃ a, Answers c.model c.user c.memory q a := ⟨a, h⟩
  rw [reading, dif_pos hsome]
  exact hsome.choose_spec.unique h

/-- What is read of a plan is its result under what is read of its questions. -/
theorem Asked.result {α : Type} {p : Plan α} : ∀ {d d' : Configuration} {a : α}, c.Asked d →
    Configuring.follow p d = .ok a d' → a = p.result c.reading := by
  induction p with
  | done a =>
    intro d d' b _ h
    rw [Configuring.follow_apply] at h
    injection h with h
    exact h.symm
  | warn w next ih =>
    intro d d' a hasked h
    rw [Configuring.follow_warn] at h
    have hwarned : c.Asked { d with journal := d.journal.warn none w } :=
      ⟨hasked.model, hasked.user, hasked.grown⟩
    exact ih hwarned h
  | ask q next ih =>
    intro d d' a hasked h
    obtain ⟨b, d₁, hask, hnext⟩ := Configuring.ask_of_follow h
    obtain ⟨hasked', hanswer⟩ := hasked.ask hask
    rw [Plan.result, reading_eq hanswer]
    exact ih b hasked' hnext

/-- Whether a plan gives a certain result. -/
def gives {α : Type} [BEq α] (c : Configuration) (p : Plan α) (x : α) : Bool :=
  passes (fun a _ => a == x) (Configuring.follow p c)

theorem Says.result_eq {v : Valuation} (h : c.Says v) {α : Type} [BEq α] [LawfulBEq α] {p : Plan α}
    {x : α} (hgives : c.gives p x = true) : p.result v = x := by
  obtain ⟨a, c', hfollow, rfl⟩ := h.ends_follow p
  rw [gives, hfollow] at hgives
  exact eq_of_beq hgives

/-- Where reading comes to an end, plans are carried out. -/
theorem Answering.follow (h : c.Answering) {α : Type} (p : Plan α) :
    ∃ a c', Configuring.follow p c = .ok a c' := by
  obtain ⟨v, hv, -⟩ := h.exists_saying
  obtain ⟨a, c', hfollow, -⟩ := hv.ends_follow p
  exact ⟨a, c', hfollow⟩

/-- With a coherent memory reading comes to an end. -/
theorem answering_of_coherent {u : UserValues} {v : Valuation} (hv : m.Solves u v) :
    ∀ {c : Configuration}, c.model = m → c.user = u → c.memory.Coherent m u v → c.Answering := by
  intro c hmodel huser hmemory qs
  induction qs generalizing c with
  | nil =>
    intro q
    obtain ⟨memory, journal, hask, -⟩ := Configuring.follow_of_memory hmodel
      (huser ▸ hmemory) (huser ▸ hv) (.ask q .done)
    exact ⟨_, _, hask⟩
  | cons q₁ qs ih =>
    intro q
    subst huser
    obtain ⟨memory, journal, hask, hmemory'⟩ := Configuring.follow_of_memory hmodel
      hmemory hv (.ask q₁ .done)
    rw [after_ask hask]
    exact ih (c := { c with memory, journal }) hmodel rfl hmemory' q

end Configuration

/-- Whatever was done before, where reading comes to an end the answers about an exclusive choice
are those of a choice that selects one of its members. -/
theorem selectsOne_after_acts {host : Host} {options : LoadOptions} {c : Configuration}
    {w : Workspace} (hload : Load.load host options = .ok c w) {ch : ChoiceId}
    (hx : w.model.Exclusive ch) (acts : List Act) (hanswering : (c.after acts).Answering) :
    ∃ v, (c.after acts).Says v ∧ w.model.SelectsOne (c.after acts).user v ch := by
  have hm := Load.sound_of_load hload
  have hstart := Load.coherent_of_load hload
  obtain ⟨m, ⟨blocks, table, hread, hsettle, hlinked⟩, -, rfl⟩ := Load.load_ok hload
  have ho : w.model.Owned := by
    rw [hsettle]
    exact hread.owned
  have hbacks : ((Configuration.ofWorkspace w).after acts).Backs w.model ch :=
    Configuration.keeps_after (Configuration.Backs.kept hm ho hx)
      Configuration.Backs.keptByFiles Configuration.Backs.keeps_follow
      ⟨rfl, hstart.dependents, hstart.permits, Memory.backed_empty⟩ acts
  obtain ⟨v, hsays, hv⟩ := hanswering.exists_saying
  rw [hbacks.model] at hv
  exact ⟨v, hsays, hx.selectsOne hm ho (hbacks.selected hm) fun q hq => hbacks.memory.eq_result hv hq⟩

/-- A choice with a member that is only shown when another symbol is set. -/
def partlyShown : Host where
  files.entries := [(["work", "Kconfig"], .file (.text
    "config P\n\tbool \"p\"\nchoice\n\tprompt \"c\"\n\tdefault B\nconfig A\n\tbool \"a\" if P\nconfig B\n\tbool \"b\"\nendchoice\n"))]

/-- The member is selected while it is not shown, and then shown. -/
def selectAndShow : List Act := [.setSymbol 4 (.number 2), .setSymbol 2 (.number 2)]

theorem partlyShown_selectsOne : ∃ c w v, Load.load partlyShown {} = .ok c w ∧
    let later := c.after selectAndShow
    later.user.selection 0 = some 4 ∧ w.model.Exclusive 0 ∧ later.Answering ∧ later.Says v ∧
      w.model.SelectsOne later.user v 0 := by
  have hchecked : passes (fun c w =>
      let m := w.model
      let later := c.after selectAndShow
      decide (m.choices.size = 1 ∧ (m.choice 0).type = .bool ∧
        (∀ s ∈ (m.choice 0).members, (m.symbol s).type = .bool ∧
          ∀ n ∈ (m.symbol s).nodes, (m.node n).prompt.isSome →
            ((m.linksOf n).parent.map fun n => (m.node n).entry) = some (.choice 0)) ∧
        (∀ p ∈ (m.choice 0).defaults, p.value ∈ (m.choice 0).members.map Expr.symbol) ∧
        later.user.selection 0 = some 4 ∧
        ∀ q ∈ m.queries, (recompute m later.user q).isSome)) (Load.load partlyShown {}) = true := by
    decide +kernel
  obtain ⟨c, w, hload, hchecked⟩ := ok_of_passes hchecked
  obtain ⟨hsize, htype, hmembers, hdefaults, hselected, hanswers⟩ := of_decide_eq_true hchecked
  have hx : w.model.Exclusive 0 := by
    refine ⟨htype, fun s hs => (hmembers s hs).1, fun s _ d hd => ?_, fun s hs => (hmembers s hs).2,
      fun p hp s hs => ?_⟩
    · refine Nat.eq_zero_of_not_pos fun hpos => ?_
      rw [Model.choice_of_size_le (hsize ▸ hpos)] at hd
      exact absurd hd List.not_mem_nil
    · obtain ⟨t, ht, heq⟩ := List.mem_map.mp (hdefaults p hp)
      obtain rfl : t = s := Item.symbol.inj (Expr.item.inj (heq.trans hs))
      exact ht
  have hanswering : (c.after selectAndShow).Answering := by
    have hsets : ∀ s g, Keeps (Configuration.Forgetful w.model) (Act.setSymbol s g).perform :=
      fun s g => .bind (Configuring.keeps_setSymbol (Configuration.kept_forgetful _) s g) fun _ =>
        .pure _
    have hstart : c.Forgetful w.model := by
      obtain rfl := Load.eq_ofWorkspace_of_load hload
      exact ⟨rfl, fits_empty _, get?_empty _⟩
    have hlater : (c.after selectAndShow).Forgetful w.model :=
      hsets 2 (.number 2) _ (hsets 4 (.number 2) c hstart)
    obtain ⟨v, hv⟩ := (Model.Terminates.of_queries hanswers).solution
    exact Configuration.answering_of_coherent hv hlater.model rfl (hlater.coherent _ v)
  obtain ⟨v, hsays, hselects⟩ := selectsOne_after_acts hload hx selectAndShow hanswering
  exact ⟨c, w, v, hload, hselected, hx, hanswering, hsays, hselects⟩

end Kconfig
