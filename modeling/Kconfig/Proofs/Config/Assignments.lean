import Kconfig.Proofs.Config.History
import Kconfig.Proofs.Config.Loading
import Kconfig.Proofs.Text.Literal
/-!
What the lines of a configuration file give.

A line of a file assigns a value to a defined symbol, or is an assignment to a name that is not
defined, or neither. Taking the lines one after the other leaves every symbol with the last value
that was assigned to it, and every choice with the last of its members that was assigned `y`; what
had no assignment keeps what it had, or loses it when the file replaces the configuration.
-/
namespace Kconfig

/-- A value without the remark that it came as a truth value, which makes no difference to it. -/
def UserValue.plain : UserValue → UserValue
  | .level l _ => .level l false
  | .text s => .text s

/-- A value that a line of a file gives a symbol. -/
structure Assignment where
  symbol : SymbolId
  value : UserValue
  deriving DecidableEq, Repr

namespace Model

/-- The value that a symbol is assigned, if the text has the right form: the text of a bool starts
with `y` or `n`, that of a string with a literal, and that of a number is one. -/
def assigned? (m : Model) (s : SymbolId) (value : String) : Option UserValue :=
  match (m.symbol s).type with
  | .bool =>
    match value.toList.head? with
    | some 'y' => some (.level true false)
    | some 'n' => some (.level false false)
    | _ => none
  | .string =>
    (Text.literal? value.toList).map fun body => .text (String.ofList (Text.unescape body))
  | type => type.accept? (.text value)

/-- A text that is written as a literal is assigned as it was, whatever stands after the literal. -/
theorem assigned?_literal {m : Model} {s : SymbolId} (h : (m.symbol s).type = .string)
    (value t : String) :
    m.assigned? s ("\"" ++ Text.escaped value ++ "\"" ++ t) = some (.text value) := by
  rw [assigned?, h]
  dsimp only
  rw [Text.literal?_quoted, Option.map_some, Text.unescape_escape, String.ofList_toList]

/-- The accepted assignment of a line. -/
def accepted? (m : Model) (mark : String) (line : List Char) : Option Assignment :=
  match ConfigLine.read mark line with
  | .assign name value =>
    (Configuring.definedSymbol? m name).bind fun s => (m.assigned? s value).map (⟨s, ·⟩)
  | .unset name =>
    (Configuring.definedSymbol? m name).bind fun s =>
      if (m.symbol s).type = .bool then some ⟨s, .level false false⟩ else none
  | .ignored | .malformed => none

/-- The name and the value of an assignment to a name that is not defined. -/
def undefined? (m : Model) (mark : String) (line : List Char) : Option (String × String) :=
  match ConfigLine.read mark line with
  | .assign name value =>
    if Configuring.definedSymbol? m name = none then some (name, value) else none
  | .unset name => if Configuring.definedSymbol? m name = none then some (name, "n") else none
  | .ignored | .malformed => none

/-- The member of a choice that an assignment selects. -/
def selects? (m : Model) (ch : ChoiceId) (a : Assignment) : Option SymbolId :=
  if (m.symbol a.symbol).choice = some ch ∧ a.value.isYes = true then some a.symbol else none

/-- The last member of a choice that assignments select. -/
def lastSelected? (m : Model) (ch : ChoiceId) (given : List Assignment) : Option SymbolId :=
  given.reverse.findSome? (m.selects? ch)

end Model

/-- The last value that assignments give a symbol. -/
def lastValue? (s : SymbolId) (given : List Assignment) : Option UserValue :=
  given.reverse.findSome? fun a => if a.symbol = s then some a.value else none

theorem lastValue?_append (s : SymbolId) (given given' : List Assignment) :
    lastValue? s (given ++ given') = (lastValue? s given').or (lastValue? s given) := by
  rw [lastValue?, List.reverse_append, List.findSome?_append]
  rfl

theorem Model.lastSelected?_append (m : Model) (ch : ChoiceId) (given given' : List Assignment) :
    m.lastSelected? ch (given ++ given') =
      (m.lastSelected? ch given').or (m.lastSelected? ch given) := by
  rw [lastSelected?, List.reverse_append, List.findSome?_append]
  rfl

theorem lastValue?_single (s : SymbolId) (a : Assignment) :
    lastValue? s [a] = if a.symbol = s then some a.value else none := by
  rw [lastValue?, List.reverse_singleton, List.findSome?_singleton]

theorem Model.lastSelected?_single (m : Model) (ch : ChoiceId) (a : Assignment) :
    m.lastSelected? ch [a] = m.selects? ch a := by
  rw [lastSelected?, List.reverse_singleton, List.findSome?_singleton]

namespace Configuration
variable {m : Model} {c c' c'' : Configuration}

/-- Two configurations that differ only in what is remembered and told. -/
structure Noted (c c' : Configuration) : Prop where
  host : c'.host = c.host
  model : c'.model = c.model
  settings : c'.settings = c.settings
  user : c'.user = c.user
  assigned : c'.assigned = c.assigned
  missing : c'.missing = c.missing

instance : Onward Noted where
  refl _ := ⟨rfl, rfl, rfl, rfl, rfl, rfl⟩
  trans h h' := ⟨h'.host.trans h.host, h'.model.trans h.model, h'.settings.trans h.settings,
    h'.user.trans h.user, h'.assigned.trans h.assigned, h'.missing.trans h.missing⟩

/-- The assignments were made, and the ones to names without a symbol noted. -/
structure Takes (m : Model) (given : List Assignment) (lost : List (String × String))
    (c c' : Configuration) : Prop where
  host : c'.host = c.host
  value : ∀ s v, lastValue? s given = some v → (c'.user.value s).map UserValue.plain = some v
  kept : ∀ s, lastValue? s given = none → c'.user.value s = c.user.value s
  selection : ∀ ch, c'.user.selection ch = (m.lastSelected? ch given).or (c.user.selection ch)
  missing : c'.missing = c.missing ++ lost
  symbols : ∀ s, c'.assigned.symbols[s]?.getD false =
    (c.assigned.symbols[s]?.getD false || (lastValue? s given).isSome)
  choices : ∀ ch, c'.assigned.choices[ch]?.getD false =
    (c.assigned.choices[ch]?.getD false || (m.lastSelected? ch given).isSome)

namespace Takes
variable {given given' : List Assignment} {lost lost' : List (String × String)}

theorem of_noted (h : c.Noted c') : Takes m [] [] c c' := by
  refine ⟨h.host, fun s v hv => (nomatch hv), fun s _ => ?_, fun ch => ?_, ?_, fun s => ?_,
    fun ch => ?_⟩
  · rw [h.user]
  · rw [h.user]
    rfl
  · rw [h.missing, List.append_nil]
  · rw [h.assigned]
    exact (Bool.or_false _).symm
  · rw [h.assigned]
    exact (Bool.or_false _).symm

theorem trans (h : Takes m given lost c c') (h' : Takes m given' lost' c' c'') :
    Takes m (given ++ given') (lost ++ lost') c c'' := by
  refine ⟨h'.host.trans h.host, fun s v hv => ?_, fun s hs => ?_, fun ch => ?_, ?_, fun s => ?_,
    fun ch => ?_⟩
  · rw [lastValue?_append] at hv
    cases hlast : lastValue? s given' with
    | some v' =>
      rw [hlast] at hv
      rw [h'.value s v' hlast]
      exact hv
    | none =>
      rw [hlast] at hv
      rw [h'.kept s hlast]
      exact h.value s v hv
  · rw [lastValue?_append, Option.or_eq_none_iff] at hs
    rw [h'.kept s hs.1, h.kept s hs.2]
  · rw [h'.selection, h.selection, m.lastSelected?_append, Option.or_assoc]
  · rw [h'.missing, h.missing, List.append_assoc]
  · rw [h'.symbols, h.symbols, lastValue?_append, Option.isSome_or, Bool.or_assoc,
      Bool.or_comm (lastValue? s given).isSome]
  · rw [h'.choices, h.choices, m.lastSelected?_append, Option.isSome_or, Bool.or_assoc,
      Bool.or_comm (m.lastSelected? ch given).isSome]

end Takes

/-- Two configurations that differ at most in the mode of a choice and in whether the choice counts
as assigned, beside what is remembered and told. -/
structure Follows (ch : ChoiceId) (c c' : Configuration) : Prop where
  host : c'.host = c.host
  values : c'.user.values = c.user.values
  selections : c'.user.selections = c.user.selections
  missing : c'.missing = c.missing
  symbols : c'.assigned.symbols = c.assigned.symbols
  choices : ∀ d, d ≠ ch → c'.assigned.choices[d]?.getD false = c.assigned.choices[d]?.getD false

instance (ch : ChoiceId) : Onward (Follows ch) where
  refl _ := ⟨rfl, rfl, rfl, rfl, rfl, fun _ _ => rfl⟩
  trans h h' := ⟨h'.host.trans h.host, h'.values.trans h.values,
    h'.selections.trans h.selections, h'.missing.trans h.missing, h'.symbols.trans h.symbols,
    fun d hd => (h'.choices d hd).trans (h.choices d hd)⟩

theorem Noted.follows {ch : ChoiceId} (h : c.Noted c') : Follows ch c c' := by
  refine ⟨h.host, ?_, ?_, h.missing, ?_, fun d _ => ?_⟩
  · rw [h.user]
  · rw [h.user]
  · rw [h.assigned]
  · rw [h.assigned]

/-- A member of a choice is assigned `y` after the mode of the choice has followed. -/
theorem Takes.of_follows {s : SymbolId} {v : UserValue} {ch : ChoiceId} (h : Follows ch c c')
    (h' : Takes m [⟨s, v⟩] [] c' c'') (hselects : m.selects? ch ⟨s, v⟩ = some s) :
    Takes m [⟨s, v⟩] [] c c'' := by
  refine ⟨h'.host.trans h.host, h'.value, fun t ht => ?_, fun d => ?_, h'.missing.trans ?_,
    fun t => ?_, fun d => ?_⟩
  · rw [h'.kept t ht, UserValues.value, h.values]
    rfl
  · rw [h'.selection d, UserValues.selection, h.selections]
    rfl
  · rw [h.missing]
  · rw [h'.symbols t, h.symbols]
  · rw [h'.choices d]
    by_cases hd : d = ch
    · rw [hd, m.lastSelected?_single, hselects]
      exact (Bool.or_true _).trans (Bool.or_true _).symm
    · rw [h.choices d hd]

/-- A configuration of a model in which the user gave what can be given, with room for it. -/
structure Ready (m : Model) (settings : Settings) (c : Configuration) : Prop where
  proper : c.Proper m settings
  fits : c.Fits m

theorem kept_ready (m : Model) (settings : Settings) : Kept (Ready m settings) :=
  fun c c' hstep hc => ⟨kept_proper m settings c c' hstep hc.proper,
    kept_fits m c c' hstep hc.fits⟩

theorem keptByFiles_ready (m : Model) (settings : Settings) : KeptByFiles (Ready m settings) :=
  fun c files hc => ⟨keptByFiles_proper m settings c files hc.proper,
    keptByFiles_fits m c files hc.fits⟩

/-- Turning a warning on or off leaves what was given as it is. -/
theorem Ready.warning {settings : Settings} (h : c.Ready m settings) (isOn : Bool) :
    Ready m settings { c with warnsPromptless := isOn } :=
  (kept_ready m settings).alike h ⟨rfl, rfl, rfl, rfl, rfl, rfl, rfl, rfl, rfl, rfl⟩

/-- One assignment was made. -/
theorem Takes.single {s : SymbolId} {v : UserValue} (hhost : c'.host = c.host)
    (hmissing : c'.missing = c.missing) (hvalue : (c'.user.value s).map UserValue.plain = some v)
    (hother : ∀ t, t ≠ s → c'.user.value t = c.user.value t)
    (hselection : ∀ ch, c'.user.selection ch = (m.selects? ch ⟨s, v⟩).or (c.user.selection ch))
    (hsymbols : ∀ t, c'.assigned.symbols[t]?.getD false =
      if t = s then true else c.assigned.symbols[t]?.getD false)
    (hchoices : ∀ ch, c'.assigned.choices[ch]?.getD false =
      (c.assigned.choices[ch]?.getD false || (m.selects? ch ⟨s, v⟩).isSome)) :
    Takes m [⟨s, v⟩] [] c c' := by
  refine ⟨hhost, fun t v' hv' => ?_, fun t ht => ?_, fun ch => ?_, ?_, fun t => ?_, fun ch => ?_⟩
  · rw [lastValue?_single] at hv'
    split at hv'
    · next hst =>
      obtain rfl : s = t := hst
      exact hvalue.trans hv'
    · exact nomatch hv'
  · rw [lastValue?_single] at ht
    split at ht
    · exact nomatch ht
    · next hst => exact hother t (Ne.symm hst)
  · rw [m.lastSelected?_single]
    exact hselection ch
  · rw [hmissing, List.append_nil]
  · rw [hsymbols t, lastValue?_single]
    by_cases hts : t = s
    · simp [hts]
    · simp [hts, Ne.symm hts]
  · rw [m.lastSelected?_single]
    exact hchoices ch

end Configuration

namespace Configuring
open Kconfig.Configuration
variable {m : Model} {c c' : Configuration}

/-! ### What is only noted -/

theorem noted_warn (w : Warning) : Moves Noted (warn w) :=
  .update fun _ => ⟨rfl, rfl, rfl, rfl, rfl, rfl⟩

theorem noted_warnAt (file : String) (line : Nat) (w : Warning) : Moves Noted (warnAt file line w) :=
  .update fun _ => ⟨rfl, rfl, rfl, rfl, rfl, rfl⟩

theorem noted_forgetFrom (i : Item) : Moves Noted (forgetFrom i) :=
  .update fun _ => ⟨rfl, rfl, rfl, rfl, rfl, rfl⟩

theorem noted_forgetPrompted (s : SymbolId) : Moves Noted (forgetPrompted s) := by
  refine .bind_get fun c a c' h => ?_
  split at h
  · exact noted_forgetFrom _ c a c' h
  · split at h
    · exact noted_warn _ c a c' h
    · exact Moves.pure (R := Noted) _ c a c' h

theorem noted_refuse (i : Item) (g : Given) : Moves Noted (refuse i g) :=
  .bind .get fun _ => .bind (noted_warn _) fun _ => .pure _

theorem noted_noteRepeated (file : String) (line : Nat) (s : SymbolId) (value : String) :
    Moves Noted (noteRepeated file line s value) := by
  refine .bind .get fun c => ?_
  dsimp only
  split
  · exact .bind (.pure _) fun _ => .ite (noted_warnAt _ _ _) (.pure _)
  · split
    · exact .bind (.throw _) fun _ => .ite (noted_warnAt _ _ _) (.pure _)
    · exact .bind (.pure _) fun _ => .ite (noted_warnAt _ _ _) (.pure _)

/-! ### Giving a symbol a text -/

/-- A text as it is given to a symbol of a type. -/
def ofText (type : ValueType) (text : String) : Given :=
  if type = .bool then (Given.text text).readLevel else .text text

/-- A bool takes on a level from its word, any other symbol the text itself. -/
theorem accept?_ofText {type : ValueType} {text : String} {v : UserValue}
    (h : type.accept? (ofText type text) = some v) :
    (type = .bool ∧ ∃ l, text = levelWord l ∧ v = .level l false) ∨
      (type ≠ .bool ∧ v = .text text) := by
  by_cases hbool : type = .bool
  · subst hbool
    change (Given.text text).readLevel.level? = some v at h
    refine .inl ⟨rfl, ?_⟩
    unfold Given.readLevel at h
    split at h
    · next hn => exact ⟨false, Given.text.inj hn, (Option.some.inj h).symm⟩
    · next hy => exact ⟨true, Given.text.inj hy, (Option.some.inj h).symm⟩
    · exact nomatch h
  · rw [ofText, if_neg hbool] at h
    refine .inr ⟨hbool, ?_⟩
    by_cases hnumber : type.isNumber = true
    · obtain ⟨t, rfl, hsome⟩ := Model.text_of_accept? hnumber h
      rcases Model.accept?_number hnumber text with hnone | hsame
      · exact nomatch hnone.symm.trans h
      · exact Option.some.inj (h.symm.trans hsame)
    · cases type with
      | string => exact (Option.some.inj h).symm
      | unknown => exact nomatch h
      | bool => exact absurd rfl hbool
      | int | hex => exact absurd rfl hnumber

theorem plain_of_accept? {type : ValueType} {text : String} {v : UserValue}
    (h : type.accept? (ofText type text) = some v) : v.plain = v := by
  rcases accept?_ofText h with ⟨-, l, -, rfl⟩ | ⟨-, rfl⟩ <;> rfl

/-- A bool takes on levels only. -/
theorem level?_ne (g : Given) (t : String) : g.level? ≠ some (.text t) := by
  unfold Given.level?
  split
  · split
    · simp
    · split <;> simp
  · simp
  · simp

/-- A text that is what the user gave before is accepted again. -/
theorem accept?_of_same {type : ValueType} {text : String} {given : UserValue}
    (hgiven : ∃ g, type.accept? g = some given)
    (h : (ofText type text).same (some given) = true) :
    type.accept? (ofText type text) = some given.plain := by
  obtain ⟨g, hg⟩ := hgiven
  by_cases hbool : type = .bool
  · subst hbool
    cases given with
    | text t => exact absurd hg (level?_ne g t)
    | level l isTruth =>
      have hlevel : (ofText .bool text).level?.map (·.isYes) = some l := eq_of_beq h
      obtain ⟨v, hv, rfl⟩ := Option.map_eq_some_iff.mp hlevel
      obtain ⟨-, l, -, rfl⟩ | ⟨hno, -⟩ :=
        accept?_ofText (show ValueType.accept? .bool _ = some v from hv)
      · exact hv
      · exact absurd rfl hno
  · have htext : ofText type text = .text text := if_neg hbool
    rw [htext] at h ⊢
    cases given with
    | level l isTruth => exact nomatch h
    | text t =>
      obtain rfl : text = t := Given.text.inj (eq_of_beq h)
      by_cases hnumber : type.isNumber = true
      · obtain ⟨t, ht, hsome⟩ := Model.text_of_accept? hnumber hg
        exact UserValue.text.inj ht ▸ hsome
      · cases type with
        | string => rfl
        | unknown => exact nomatch hg
        | bool => exact absurd rfl hbool
        | int | hex => exact absurd rfl hnumber

/-- A value that selects no member is given to a symbol. -/
theorem takes_give (hc : c.Fits m) {s : SymbolId} (hs : s < m.symbols.size) {v : UserValue}
    (hplain : v.plain = v) (hno : ∀ ch, m.selects? ch ⟨s, v⟩ = none) :
    Takes m [⟨s, v⟩] [] c { c with
      user.values := c.user.values.setIfInBounds s (some v)
      assigned.symbols := c.assigned.symbols.setIfInBounds s true } := by
  have hvalue := c.user.value_set_of_lt (hc.values ▸ hs) (some v)
  refine .single rfl rfl ?_ (fun t ht => ?_) (fun ch => ?_) (fun t => ?_) fun ch => ?_
  · exact (congrArg _ ((hvalue s).trans (if_pos rfl))).trans (congrArg some hplain)
  · exact (hvalue t).trans (if_neg ht)
  · rw [hno ch]
    rfl
  · exact getD_setIfInBounds (hc.symbols ▸ hs) true t
  · rw [hno ch]
    exact (Bool.or_false _).symm

/-- A member of a choice is given `y`. -/
theorem takes_select (hm : m.Sound) (hc : c.Fits m) {s : SymbolId} (hs : s < m.symbols.size)
    {v : UserValue} (hplain : v.plain = v) {ch : ChoiceId} (hch : (m.symbol s).choice = some ch)
    (hyes : v.isYes = true) :
    Takes m [⟨s, v⟩] [] c { c with
      user.values := c.user.values.setIfInBounds s (some v)
      user.selections := c.user.selections.setIfInBounds ch (some s)
      assigned.symbols := c.assigned.symbols.setIfInBounds s true
      assigned.choices := c.assigned.choices.setIfInBounds ch true } := by
  have hvalue := c.user.value_set_of_lt (hc.values ▸ hs) (some v)
  have hroom := hm.lt_of_member hch
  have hselection := c.user.selection_set_of_lt (hc.selections ▸ hroom) (some s)
  have hselects : ∀ d, m.selects? d ⟨s, v⟩ = if d = ch then some s else none := by
    intro d
    by_cases hd : d = ch
    · simp [Model.selects?, hch, hyes, hd]
    · simp [Model.selects?, hch, hd, Ne.symm hd]
  refine .single rfl rfl ?_ (fun t ht => ?_) (fun d => ?_) (fun t => ?_) fun d => ?_
  · exact (congrArg _ ((hvalue s).trans (if_pos rfl))).trans (congrArg some hplain)
  · exact (hvalue t).trans (if_neg ht)
  · refine (hselection d).trans ?_
    rw [hselects d]
    split <;> rfl
  · exact getD_setIfInBounds (hc.symbols ▸ hs) true t
  · refine (getD_setIfInBounds (hc.choices ▸ hroom) true d).trans ?_
    rw [hselects d]
    split
    · exact (Bool.or_true _).symm
    · exact (Bool.or_false _).symm

/-- Giving a symbol a text makes the assignment that the text stands for, if it is one. -/
theorem yields_setSymbol (hm : m.Sound) {settings : Settings} (hc : c.Ready m settings)
    {s : SymbolId} (hs : s < m.symbols.size) (text : String) :
    Yields (setSymbol s (.text text)) c fun _ c' =>
      Takes m (((m.symbol s).type.accept? (ofText (m.symbol s).type text)).toList.map (⟨s, ·⟩)) []
        c c' := by
  have hfits := hc.fits
  refine .bind_get ?_
  rw [hfits.model]
  dsimp only
  rw [← ofText]
  split
  · next hsame =>
    rw [Bool.and_eq_true, Option.isNone_iff_eq_none] at hsame
    obtain ⟨hsame, hchoice⟩ := hsame
    obtain ⟨given, hgiven⟩ : ∃ given, c.user.value s = some given := by
      refine Option.ne_none_iff_exists'.mp fun hnone => ?_
      rw [hnone, ofText] at hsame
      split at hsame
      · exact nomatch (same_none text).2.symm.trans hsame
      · exact nomatch (same_none text).1.symm.trans hsame
    rw [hgiven] at hsame
    have haccept := accept?_of_same (hc.proper.permits.value s given hgiven) hsame
    rw [haccept]
    have hno : ∀ ch, m.selects? ch ⟨s, given.plain⟩ = none := fun ch => by
      simp [Model.selects?, hchoice]
    intro b c' h
    obtain rfl : { c with assigned.symbols := c.assigned.symbols.setIfInBounds s true } = c' := by
      injection h
    refine .single rfl rfl ?_ (fun t _ => rfl) (fun ch => ?_) (fun t => ?_) fun ch => ?_
    · exact congrArg (Option.map UserValue.plain) hgiven
    · rw [hno ch]
      rfl
    · exact getD_setIfInBounds (hfits.symbols ▸ hs) true t
    · rw [hno ch]
      exact (Bool.or_false _).symm
  · cases haccept : (m.symbol s).type.accept? (ofText (m.symbol s).type text) with
    | none => exact ((noted_refuse _ _).yields c).mono fun _ _ h => .of_noted h
    | some v =>
      have hplain := plain_of_accept? haccept
      -- without a new selection only the symbol's own value changes
      have hother (hno : ∀ ch, m.selects? ch ⟨s, v⟩ = none) : Yields (do
          setUserValue s (some v)
          markSymbol s true
          forgetPrompted s
          return true : Configuring Bool) c fun _ c' => Takes m [⟨s, v⟩] [] c c' := by
        have htakes := takes_give hfits hs hplain hno
        intro b c' h
        obtain ⟨_, c₁, hforget, h⟩ := bind_ok
          (show (forgetPrompted s >>= fun _ => pure true) _ = _ from h)
        injection h with _ h
        exact h ▸ htakes.trans (.of_noted (noted_forgetPrompted s _ _ _ hforget))
      dsimp only
      cases hch : (m.symbol s).choice with
      | none => exact hother fun ch => by simp [Model.selects?, hch]
      | some ch =>
        cases hyes : v.isYes with
        | false => exact hother fun d => by simp [Model.selects?, hyes]
        | true =>
          have htakes := takes_select hm hfits hs hplain hch hyes
          intro b c' h
          obtain ⟨_, c₁, hforget, h⟩ := bind_ok
            (show (forgetFrom (.choice ch) >>= fun _ => pure true) _ = _ from h)
          injection h with _ h
          exact h ▸ htakes.trans (.of_noted (noted_forgetFrom _ _ _ _ hforget))

/-! ### Lines -/

theorem follows_setChoice (ch : ChoiceId) (g : Given) : Moves (Follows ch) (setChoice ch g) := by
  have hmark : ∀ c : Configuration, Follows ch c
      { c with assigned.choices := c.assigned.choices.setIfInBounds ch true } := by
    refine fun c => ⟨rfl, rfl, rfl, rfl, rfl, fun d hd => ?_⟩
    show (c.assigned.choices.setIfInBounds ch true)[d]?.getD false = _
    rw [Array.getElem?_setIfInBounds_ne (Ne.symm hd)]
  have hrefuse : ∀ g, Moves (Follows ch) (refuse (.choice ch) g) := fun g =>
    (noted_refuse _ g).mono fun _ _ h => h.follows
  refine .bind .get fun c => ?_
  dsimp only
  split
  · exact .bind (.update hmark) fun _ => .pure _
  · split
    · exact .bind (.update fun _ => ⟨rfl, rfl, rfl, rfl, rfl, fun _ _ => rfl⟩) fun _ =>
        .bind (.update hmark) fun _ =>
          .bind ((noted_forgetFrom _).mono fun _ _ h => h.follows) fun _ => .pure _
    · exact hrefuse _

theorem follows_followMode (file : String) (line : Nat) (ch : ChoiceId) (value : String) :
    Moves (Follows ch) (followMode file line ch value) := by
  have hset : Moves (Follows ch) (do let _ ← setChoice ch (.text value) : Configuring Unit) :=
    .bind (follows_setChoice ch _) fun _ => .pure _
  refine .bind .get fun c => ?_
  dsimp only
  split
  · split
    · exact .bind ((noted_warnAt _ _ _).mono fun _ _ h => h.follows) fun _ => hset
    · exact hset
  · exact hset

/-- What an assignment to a symbol comes to before the symbol is given the text. -/
def Reads (m : Model) (s : SymbolId) (value : String) (c : Configuration) (text : Option String)
    (c' : Configuration) : Prop :=
  match text with
  | none => m.assigned? s value = none ∧ c.Noted c'
  | some text =>
    m.assigned? s value = (m.symbol s).type.accept? (ofText (m.symbol s).type text) ∧
      (c.Noted c' ∨ ∃ ch v, m.assigned? s value = some v ∧ m.selects? ch ⟨s, v⟩ = some s ∧
        Follows ch c c')

/-- Of the text that a bool is assigned only the first character counts. -/
theorem assigned?_bool {s : SymbolId} (htype : (m.symbol s).type = .bool) (value : String) :
    (String.ofList (value.toList.take 1) ≠ "y" ∧ String.ofList (value.toList.take 1) ≠ "n" ∧
      m.assigned? s value = none) ∨
    ∃ l, String.ofList (value.toList.take 1) = levelWord l ∧
      m.assigned? s value = some (.level l false) := by
  unfold Model.assigned?
  rw [htype]
  dsimp only
  cases value.toList with
  | nil => exact .inl ⟨by decide, by decide, rfl⟩
  | cons x rest =>
    have hword : ∀ l : Char, String.ofList [x] = String.ofList [l] → x = l := fun l h => by
      simpa using String.ofList_injective h
    rw [List.take_succ_cons, List.take_zero, List.head?_cons]
    by_cases hy : x = 'y'
    · subst hy
      exact .inr ⟨true, rfl, rfl⟩
    · by_cases hn : x = 'n'
      · subst hn
        exact .inr ⟨false, rfl, rfl⟩
      · refine .inl ⟨fun h => hy (hword 'y' h), fun h => hn (hword 'n' h), ?_⟩
        split
        · next h => exact absurd (Option.some.inj h) hy
        · next h => exact absurd (Option.some.inj h) hn
        · rfl

theorem yields_assignedText? (hc : c.Fits m) (file : String) (line : Nat) (s : SymbolId)
    (value : String) :
    Yields (assignedText? file line s value) c (Reads m s value c) := by
  have hwarn : ∀ w, m.assigned? s value = none → Yields (do
      warnAt file line w
      return none : Configuring (Option String)) c (Reads m s value c) := fun w hnone =>
    .bind ((noted_warnAt file line w).yields c) fun _ _ h => .pure ⟨hnone, h⟩
  refine .bind_get ?_
  rw [hc.model]
  dsimp only
  cases htype : (m.symbol s).type with
  | bool =>
    dsimp only
    rcases assigned?_bool htype value with ⟨hy, hn, hnone⟩ | ⟨l, hfirst, hsome⟩
    · rw [if_pos ⟨hy, hn⟩]
      exact hwarn _ hnone
    · have hword : levelWord l = "y" ∨ levelWord l = "n" := by cases l <;> simp [levelWord]
      have haccept : m.assigned? s value =
          (m.symbol s).type.accept? (ofText (m.symbol s).type (levelWord l)) := by
        rw [hsome, htype]
        cases l <;> rfl
      rw [hfirst, if_neg fun h => hword.elim h.1 h.2]
      have hplain : Yields (pure (some (levelWord l)) : Configuring (Option String)) c
          (Reads m s value c) := .pure ⟨haccept, .inl (Onward.refl c)⟩
      cases hch : (m.symbol s).choice with
      | none => exact hplain
      | some ch =>
        cases l with
        | false => exact hplain
        | true =>
          have hselects : m.selects? ch ⟨s, .level true false⟩ = some s :=
            if_pos ⟨hch, rfl⟩
          exact .bind ((follows_followMode file line ch _).yields c) fun _ _ h =>
            .pure ⟨haccept, .inr ⟨ch, _, hsome, hselects, h⟩⟩
  | string =>
    have hassigned : m.assigned? s value = (Text.literal? value.toList).map fun body =>
        .text (String.ofList (Text.unescape body)) := by
      simp [Model.assigned?, htype]
    dsimp only
    cases hliteral : Text.literal? value.toList with
    | none =>
      rw [hliteral] at hassigned
      exact hwarn _ hassigned
    | some body =>
      refine .pure ⟨?_, .inl (Onward.refl c)⟩
      rw [hassigned, hliteral, htype]
      rfl
  | unknown | int | hex =>
    refine .pure ⟨?_, .inl (Onward.refl c)⟩
    rw [Model.assigned?, htype]
    rfl

section Lines
variable (hm : m.Sound) {settings : Settings}
include hm

theorem yields_assign (hc : c.Ready m settings) (file : String) (line : Nat) {s : SymbolId}
    (hs : s < m.symbols.size) (text : String) :
    Yields (assign file line s text) c fun _ c' =>
      Takes m (((m.symbol s).type.accept? (ofText (m.symbol s).type text)).toList.map (⟨s, ·⟩)) []
        c c' := by
  have hset : ∀ c : Configuration, c.Ready m settings →
      Yields (do let _ ← setSymbol s (.text text) : Configuring Unit) c fun _ c' =>
        Takes m (((m.symbol s).type.accept? (ofText (m.symbol s).type text)).toList.map (⟨s, ·⟩))
          [] c c' := fun c hc =>
    .bind (yields_setSymbol hm hc hs text) fun _ _ h => .pure h
  refine .bind_get ?_
  split
  · have hnoted := ((noted_noteRepeated file line s text).yields c).keeping
      (keeps_noteRepeated (kept_ready m settings) file line s text) hc
    exact .bind hnoted fun _ c₁ h => (hset c₁ h.1).mono fun _ _ h' => (Takes.of_noted h.2).trans h'
  · exact hset c hc

omit hm in
/-- An assignment to a name that is not defined is noted. -/
theorem yields_assignUndefined (file : String) (line : Nat) (name value : String) :
    Yields (assignUndefined file line name value) c fun _ c' =>
      Takes m [] [(name, value)] c c' := by
  have hnote : Takes m [] [(name, value)] c
      { c with missing := c.missing ++ [(name, value)] } :=
    ⟨rfl, fun s v hv => (nomatch hv), fun _ _ => rfl, fun _ => rfl, rfl,
      fun _ => (Bool.or_false _).symm, fun _ => (Bool.or_false _).symm⟩
  have hwarn : Moves Noted (do
      if (← get).warnsUndefined then warnAt file line (.assignsUndefined value name)
      : Configuring Unit) := .bind .get fun _ => .ite (noted_warnAt _ _ _) (.pure _)
  exact fun a c' h => hnote.trans (.of_noted (hwarn _ a c' h))

/-- Taking a line makes its assignment, or notes it. -/
theorem yields_takeLine (hc : c.Ready m settings) (file : String) (number : Nat)
    (line : List Char) :
    Yields (takeLine file number line) c fun _ c' =>
      Takes m (m.accepted? settings.configPrefix line).toList
        (m.undefined? settings.configPrefix line).toList c c' := by
  have hlt : ∀ name s, definedSymbol? m name = some s → s < m.symbols.size := by
    intro name s hs
    obtain ⟨-, hnodes⟩ := Option.filter_eq_some_iff.mp hs
    refine Nat.lt_of_not_le fun hle => ?_
    rw [Model.symbol_of_size_le hle] at hnodes
    exact nomatch hnodes
  refine .bind_get ?_
  rw [hc.fits.model, hc.proper.settings]
  cases hread : ConfigLine.read settings.configPrefix line with
  | assign name value =>
    dsimp only
    cases hs : definedSymbol? m name with
    | none =>
      simp only [Model.accepted?, Model.undefined?, hread, hs]
      exact yields_assignUndefined file number name value
    | some s =>
      simp only [Model.accepted?, Model.undefined?, hread, hs, Option.bind_some,
        reduceCtorEq, if_false]
      have hreads := (yields_assignedText? hc.fits file number s value).keeping
        (keeps_assignedText? (kept_ready m settings) file number s value) hc
      refine .bind hreads fun text c₁ h => ?_
      obtain ⟨hc₁, htext⟩ := h
      cases text with
      | none =>
        rw [htext.1]
        exact .pure (.of_noted htext.2)
      | some text =>
        obtain ⟨haccept, hway⟩ := htext
        refine (yields_assign hm hc₁ file number (hlt name s hs) text).mono fun _ c' h => ?_
        rw [← haccept] at h
        rcases hway with hnoted | ⟨ch, v, hv, hselects, hfollows⟩
        · cases hv : m.assigned? s value with
          | none =>
            rw [hv] at h
            exact (Takes.of_noted hnoted).trans h
          | some v =>
            rw [hv] at h
            exact (Takes.of_noted hnoted).trans h
        · rw [hv] at h ⊢
          exact h.of_follows hfollows hselects
  | unset name =>
    dsimp only
    cases hs : definedSymbol? m name with
    | none =>
      simp only [Model.accepted?, Model.undefined?, hread, hs]
      exact yields_assignUndefined file number name "n"
    | some s =>
      simp only [Model.accepted?, Model.undefined?, hread, hs, Option.bind_some,
        reduceCtorEq, if_false]
      split
      · next hbool =>
        refine (yields_assign hm hc file number (hlt name s hs) "n").mono fun _ c' h => ?_
        rw [hbool] at h
        exact h
      · exact .pure (.of_noted (Onward.refl c))
  | ignored =>
    simp only [Model.accepted?, Model.undefined?, hread]
    exact .pure (.of_noted (Onward.refl c))
  | malformed =>
    simp only [Model.accepted?, Model.undefined?, hread]
    exact ((noted_warnAt _ _ _).yields c).mono fun _ _ h => .of_noted h

/-- Taking lines makes their assignments in order. -/
theorem yields_takeLines (file : String) : ∀ (lines : List (List Char)) (number : Nat)
    {c : Configuration}, c.Ready m settings →
    Yields (takeLines file number lines) c fun _ c' =>
      Takes m (lines.filterMap (m.accepted? settings.configPrefix))
        (lines.filterMap (m.undefined? settings.configPrefix)) c c'
  | [], _, c, _ => .pure (.of_noted (Onward.refl c))
  | line :: more, number, c, hc => by
    have hline := (yields_takeLine hm hc file number line).keeping
      (keeps_takeLine (kept_ready m settings) file number line) hc
    refine .bind hline fun _ c₁ h => ?_
    refine (yields_takeLines file more (number + 1) h.1).mono fun _ c' h' => ?_
    rw [Lists.filterMap_cons_toList, Lists.filterMap_cons_toList]
    exact h.2.trans h'

end Lines

end Configuring
end Kconfig
