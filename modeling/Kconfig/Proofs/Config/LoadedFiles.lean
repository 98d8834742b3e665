import Kconfig.Proofs.Config.Assignments
/-!
What loading a configuration file means.

Loading clears what counts as assigned, takes the lines, and takes away what was not assigned, if
the file replaces the configuration; else it only takes the lines. So the user's values afterwards
hang on the lines alone, or on the lines and what the user gave before.
-/
namespace Kconfig
namespace Configuring
open Kconfig.Configuration
variable {m : Model} {c c' : Configuration}

/-! ### Before and after the lines -/

theorem forM_markSymbol : ∀ (xs : List SymbolId) (c : Configuration),
    xs.forM (markSymbol · false) c = .ok ()
      { c with assigned.symbols :=
        xs.foldl (fun flags s => flags.setIfInBounds s false) c.assigned.symbols }
  | [], _ => rfl
  | _ :: xs, _ => forM_markSymbol xs _

theorem forM_markChoice : ∀ (xs : List ChoiceId) (c : Configuration),
    xs.forM (markChoice · false) c = .ok ()
      { c with assigned.choices :=
        xs.foldl (fun flags ch => flags.setIfInBounds ch false) c.assigned.choices }
  | [], _ => rfl
  | _ :: xs, _ => forM_markChoice xs _

/-- Clearing flags one after the other clears them all. -/
theorem getD_foldl_false {x : Nat} {xs : List Nat} (hx : x ∈ xs) (flags : Array Bool) :
    (xs.foldl (fun flags i => flags.setIfInBounds i false) flags)[x]?.getD false = false := by
  refine Lists.foldl_reaches (fun _ => True) (fun flags => flags[x]?.getD false = false)
    (fun _ _ _ => trivial) (fun flags i h => getD_setIfInBounds_false h i) (fun flags _ => ?_) xs
    trivial hx
  rw [Array.getElem?_setIfInBounds]
  split
  · split <;> rfl
  · next hne => exact absurd rfl hne

/-- Clearing leaves the user's values, and nothing noted or counted as assigned. -/
structure Clears (m : Model) (c c' : Configuration) : Prop where
  host : c'.host = c.host
  missing : c'.missing = []
  symbols : ∀ s ∈ m.defined, c'.assigned.symbols[s]?.getD false = false
  choices : ∀ ch ∈ m.definedChoices, c'.assigned.choices[ch]?.getD false = false

theorem yields_clearAssigned (hc : c.Fits m) :
    Yields clearAssigned c fun _ c' => Clears m c c' := by
  refine .bind_get ?_
  rw [hc.model]
  intro a c' h
  change (m.defined.forM (markSymbol · false) >>= fun _ =>
    m.definedChoices.forM (markChoice · false)) { c with missing := [] } = _ at h
  rw [bind_apply, forM_markSymbol] at h
  dsimp only at h
  rw [forM_markChoice] at h
  injection h with _ h
  subst h
  exact ⟨rfl, rfl, fun s hs => getD_foldl_false hs _, fun ch hch => getD_foldl_false hch _⟩

/-- The user's values of some symbols and selections of some choices are taken away as far as they
do not count as assigned. -/
structure Unsets (symbols : List SymbolId) (choices : List ChoiceId) (c c' : Configuration) :
    Prop where
  host : c'.host = c.host
  missing : c'.missing = c.missing
  value : ∀ s, c'.user.value s =
    if s ∈ symbols ∧ c.assigned.symbols[s]?.getD false = false then none else c.user.value s
  selection : ∀ ch, c'.user.selection ch =
    if ch ∈ choices ∧ c.assigned.choices[ch]?.getD false = false then none
    else c.user.selection ch

/-- Taking a value away leaves the others. -/
theorem value_unset (u : UserValues) (s t : SymbolId) :
    ({ u with values := u.values.setIfInBounds s none } : UserValues).value t =
      if t = s then none else u.value t := by
  simp only [UserValues.value, Array.getElem?_setIfInBounds]
  by_cases hst : s = t
  · subst hst
    by_cases hs : s < u.values.size <;> simp [hs]
  · simp [hst, Ne.symm hst]

theorem selection_unset (u : UserValues) (modes : Array (Option UserValue)) (ch d : ChoiceId) :
    ({ u with modes := modes, selections := u.selections.setIfInBounds ch none } :
      UserValues).selection d = if d = ch then none else u.selection d := by
  simp only [UserValues.selection, Array.getElem?_setIfInBounds]
  by_cases hcd : ch = d
  · subst hcd
    by_cases hch : ch < u.selections.size <;> simp [hch]
  · simp [hcd, Ne.symm hcd]

theorem yields_unsetSymbol (s : SymbolId) : Yields (unsetSymbol s) c fun _ c' =>
    c'.host = c.host ∧ c'.missing = c.missing ∧ c'.user.selections = c.user.selections ∧
      ∀ t, c'.user.value t = if t = s then none else c.user.value t := by
  refine .bind_get ?_
  split
  · intro a c' h
    have hnoted := noted_forgetPrompted s _ a c' h
    refine ⟨hnoted.host, hnoted.missing, ?_, fun t => ?_⟩
    · rw [hnoted.user]
    · rw [hnoted.user]
      exact value_unset c.user s t
  · next hnone =>
    refine .pure ⟨rfl, rfl, rfl, fun t => ?_⟩
    split
    · next hts => rw [hts, Option.not_isSome_iff_eq_none.mp hnone]
    · rfl

theorem yields_unsetChoice (ch : ChoiceId) : Yields (unsetChoice ch) c fun _ c' =>
    c'.host = c.host ∧ c'.missing = c.missing ∧ c'.user.values = c.user.values ∧
      ∀ d, c'.user.selection d = if d = ch then none else c.user.selection d := by
  refine .bind_get ?_
  split
  · intro a c' h
    have hnoted := noted_forgetFrom (.choice ch) _ a c' h
    refine ⟨hnoted.host, hnoted.missing, ?_, fun d => ?_⟩
    · rw [hnoted.user]
    · rw [hnoted.user]
      exact selection_unset c.user _ ch d
  · next hnone =>
    rw [Bool.or_eq_true, not_or] at hnone
    refine .pure ⟨rfl, rfl, rfl, fun d => ?_⟩
    split
    · next hd => rw [hd, Option.not_isSome_iff_eq_none.mp hnone.2]
    · rfl

/-- Everything that does not count as assigned is taken away. -/
theorem yields_unsetOthers (hc : c.Fits m) :
    Yields unsetOthers c fun _ c' => Unsets m.defined m.definedChoices c c' := by
  refine .bind_get ?_
  rw [hc.model]
  have hstart : Unsets [] [] c c :=
    ⟨rfl, rfl, fun s => (if_neg fun h => nomatch h.1).symm,
      fun ch => (if_neg fun h => nomatch h.1).symm⟩
  refine .bind (.forIn (I := fun done c₁ => Unsets done [] c c₁) (fun done s c₁ h => ?_) _ hstart)
    fun _ c₁ h₁ => .bind (.forIn (I := fun done c₂ => Unsets m.defined done c c₂)
      (fun done ch c₂ h => ?_) _ h₁) fun _ c₂ h₂ => .pure h₂
  · cases hflag : c.assigned.symbols[s]?.getD false with
    | true =>
      refine .pure ⟨rfl, h.host, h.missing, fun t => (h.value t).trans ?_, h.selection⟩
      by_cases hts : t = s <;> simp [hts, hflag]
    | false =>
      refine .bind (yields_unsetSymbol s) fun _ c' hunset => .pure ⟨rfl, ?_⟩
      obtain ⟨hhost, hmissing, hselections, hvalue⟩ := hunset
      refine ⟨hhost.trans h.host, hmissing.trans h.missing, fun t => ?_, fun ch => ?_⟩
      · rw [hvalue t, h.value t]
        by_cases hts : t = s <;> simp [hts, hflag]
      · rw [UserValues.selection, hselections]
        exact h.selection ch
  · cases hflag : c.assigned.choices[ch]?.getD false with
    | true =>
      refine .pure ⟨rfl, h.host, h.missing, h.value, fun d => (h.selection d).trans ?_⟩
      by_cases hd : d = ch <;> simp [hd, hflag]
    | false =>
      refine .bind (yields_unsetChoice ch) fun _ c' hunset => .pure ⟨rfl, ?_⟩
      obtain ⟨hhost, hmissing, hvalues, hselection⟩ := hunset
      refine ⟨hhost.trans h.host, hmissing.trans h.missing, fun t => ?_, fun d => ?_⟩
      · rw [UserValues.value, hvalues]
        exact h.value t
      · rw [hselection d, h.selection d]
        by_cases hd : d = ch <;> simp [hd, hflag]

end Configuring

namespace Configuration

/-- The configuration file of a name, looked for in the working directory and in the source tree. -/
def opened? (c : Configuration) (path : String) : Option Files.Content :=
  match c.host.files.read path with
  | .ok content => some content
  | .error _ => (c.host.files.read (Files.join c.settings.srctree path)).toOption

/-- The lines of the configuration file of a name, if it can be read to its end. -/
def linesOf? (c : Configuration) (path : String) : Option (List (List Char)) :=
  (c.opened? path).bind fun content =>
    if content.decoded.fault = none then some content.decoded.lines else none

/-- What a file gives that is loaded over a configuration: every symbol has the last value that was
assigned to it, and every choice the last of its members that was assigned `y`; what had no such
assignment has nothing if the file replaces the configuration, else what it had. -/
structure TakesFile (m : Model) (mark : String) (lines : List (List Char)) (replaces : Bool)
    (c c' : Configuration) : Prop where
  value : ∀ s ∈ m.defined, ∀ v, lastValue? s (lines.filterMap (m.accepted? mark)) = some v →
    (c'.user.value s).map UserValue.plain = some v
  unassigned : ∀ s ∈ m.defined, lastValue? s (lines.filterMap (m.accepted? mark)) = none →
    c'.user.value s = if replaces then none else c.user.value s
  selection : ∀ ch ∈ m.definedChoices, c'.user.selection ch =
    (m.lastSelected? ch (lines.filterMap (m.accepted? mark))).or
      (if replaces then none else c.user.selection ch)
  missing : c'.missing =
    (if replaces then [] else c.missing) ++ lines.filterMap (m.undefined? mark)

end Configuration

namespace Configuring
open Kconfig.Configuration
variable {m : Model} {c c' : Configuration}

theorem yields_checkPath (path : String) : Yields (checkPath path) c fun _ c' => c' = c := by
  unfold checkPath
  split
  · exact .throw _
  · exact .pure rfl

theorem yields_openConfig (path : String) : Yields (openConfig path) c fun found c' =>
    c' = c ∧ c.opened? path = some found.2 := by
  refine .bind_get ?_
  unfold opened?
  cases c.host.files.read path with
  | ok content => exact .pure ⟨rfl, rfl⟩
  | error condition =>
    dsimp only
    refine .bind (yields_checkPath path) fun _ c' hsame => ?_
    subst hsame
    cases c'.host.files.read (Files.join c'.settings.srctree path) with
    | ok content => exact .pure ⟨rfl, rfl⟩
    | error condition => exact .throw _

/-- A file that replaces the configuration is taken. -/
theorem takesFile_replaces {mark : String} {lines : List (List Char)}
    {c₁ c₂ : Configuration} (hclears : Clears m c c₁)
    (htakes : Takes m (lines.filterMap (m.accepted? mark)) (lines.filterMap (m.undefined? mark))
      c₁ c₂) (hunsets : Unsets m.defined m.definedChoices c₂ c') :
    TakesFile m mark lines true c c' := by
  have hsymbol : ∀ s ∈ m.defined, c₂.assigned.symbols[s]?.getD false =
      (lastValue? s (lines.filterMap (m.accepted? mark))).isSome := fun s hs => by
    rw [htakes.symbols s, hclears.symbols s hs, Bool.false_or]
  have hchoice : ∀ ch ∈ m.definedChoices, c₂.assigned.choices[ch]?.getD false =
      (m.lastSelected? ch (lines.filterMap (m.accepted? mark))).isSome := fun ch hch => by
    rw [htakes.choices ch, hclears.choices ch hch, Bool.false_or]
  refine ⟨fun s hs v hv => ?_, fun s hs hnone => ?_, fun ch hch => ?_, ?_⟩
  · rw [hunsets.value s, hsymbol s hs, hv, if_neg fun h => nomatch h.2]
    exact htakes.value s v hv
  · rw [hunsets.value s, hsymbol s hs, hnone, if_pos ⟨hs, rfl⟩]
    rfl
  · rw [hunsets.selection ch, hchoice ch hch, htakes.selection ch]
    cases m.lastSelected? ch (lines.filterMap (m.accepted? mark)) with
    | some s => exact if_neg fun h => nomatch h.2
    | none => exact if_pos ⟨hch, rfl⟩
  · rw [hunsets.missing, htakes.missing, hclears.missing]
    rfl

/-- A file that does not replace the configuration is taken. -/
theorem takesFile_merges {mark : String} {lines : List (List Char)}
    (htakes : Takes m (lines.filterMap (m.accepted? mark)) (lines.filterMap (m.undefined? mark))
      c c') : TakesFile m mark lines false c c' :=
  ⟨fun s _ v hv => htakes.value s v hv, fun s _ hnone => htakes.kept s hnone,
    fun ch _ => htakes.selection ch, htakes.missing⟩

/-- Taking a file makes the assignments of its lines. -/
theorem yields_takeFile (hm : m.Sound) {settings : Settings} (hc : c.Ready m settings)
    (path : String) (replaces : Bool) :
    Yields (takeFile path replaces) c fun _ c' => c'.host = c.host ∧
      ∃ lines, c.linesOf? path = some lines ∧
        TakesFile m settings.configPrefix lines replaces c c' := by
  refine .bind (yields_openConfig path) fun (_, content) c' hopen => ?_
  obtain ⟨rfl, hopened⟩ := hopen
  have hkept := kept_ready m settings
  have hlines : content.decoded.fault = none → c'.linesOf? path = some content.decoded.lines := by
    intro hfault
    rw [linesOf?, hopened]
    exact if_pos hfault
  cases replaces with
  | true =>
    refine .bind ((yields_clearAssigned hc.fits).keeping (keeps_clearAssigned hkept) hc)
      fun _ c₁ h₁ => ?_
    obtain ⟨hc₁, hclears⟩ := h₁
    refine .bind ((yields_takeLines hm path content.decoded.lines 1 hc₁).keeping
      (keeps_takeLines hkept path 1 content.decoded.lines) hc₁) fun _ c₂ h₂ => ?_
    obtain ⟨hc₂, htakes⟩ := h₂
    dsimp only
    cases hfault : content.decoded.fault with
    | some fault => exact .bind (.throw _) fun _ _ (h : False) => h.elim
    | none =>
      refine (yields_unsetOthers hc₂.fits).mono fun _ c₃ hunsets => ?_
      exact ⟨hunsets.host.trans (htakes.host.trans hclears.host), _, hlines hfault,
        takesFile_replaces hclears htakes hunsets⟩
  | false =>
    refine .bind (yields_takeLines hm path content.decoded.lines 1 hc) fun _ c₂ htakes => ?_
    dsimp only
    cases hfault : content.decoded.fault with
    | some fault => exact .bind (.throw _) fun _ _ (h : False) => h.elim
    | none => exact .pure ⟨htakes.host, _, hlines hfault, takesFile_merges htakes⟩

/-! ### Which file -/

theorem noted_follow {α : Type} (p : Plan α) : Moves Noted (follow p) := by
  intro c a c' h
  obtain ⟨e, -, rfl⟩ := follow_ok h
  exact ⟨rfl, rfl, rfl, rfl, rfl, rfl⟩

theorem keeps_ready_follow {settings : Settings} {α : Type} (p : Plan α) :
    Keeps (Configuration.Ready m settings) (follow p) := by
  intro c hc
  unfold KeepsAt
  rw [stateAfter_follow]
  exact ⟨⟨hc.proper.model, hc.proper.settings, hc.proper.dependents, hc.proper.permits⟩,
    ⟨hc.fits.model, hc.fits.values, hc.fits.selections, hc.fits.symbols, hc.fits.choices⟩⟩

theorem noted_firstFile : ∀ ps : List (Guarded Expr), Moves Noted (firstFile ps)
  | [] => .pure _
  | p :: ps => by
    refine .bind (.bind .get fun _ => noted_follow _) fun holds => .ite ?_ (noted_firstFile ps)
    split
    · exact .bind (noted_follow _) fun path => .bind .get fun c => .bind .get fun c' =>
        .ite (.pure _) (.ite (.pure _) (.bind (.ite (.throw _) (.pure _)) fun _ =>
          noted_firstFile ps))
    · exact .throw _

theorem noted_fileToLoad (name : Option String) : Moves Noted (fileToLoad name) := by
  have hdefconfig : Moves Noted defconfigName := by
    refine .bind .get fun c => ?_
    dsimp only
    split
    · exact .pure _
    · exact noted_firstFile _
    · exact noted_firstFile _
    · exact .throw _
  unfold fileToLoad
  split
  · exact .pure _
  · refine .bind .get fun c => ?_
    dsimp only
    refine .ite (.pure _) (.bind hdefconfig fun found => ?_)
    cases found <;> exact .pure _

/-- Without a name the default values stay when there is no file; else the assignments of the lines
of the file are made. -/
theorem yields_loadConfig (hm : m.Sound) {settings : Settings} (hc : c.Ready m settings)
    (name : Option String) (replaces : Bool) :
    Yields (loadConfig name replaces) c fun _ c' => c'.host = c.host ∧
      ((name = none ∧ c'.user = c.user ∧ c'.missing = c.missing) ∨
      ∃ path lines, (∀ p, name = some p → path = p) ∧ c.linesOf? path = some lines ∧
        TakesFile m settings.configPrefix lines replaces c c') := by
  have hkept := kept_ready m settings
  have hfile : Yields (fileToLoad name) c fun found c' => c.Noted c' ∧
      ∀ p, name = some p → ∃ message, found = .ok (p, message) := by
    intro found c' h
    refine ⟨noted_fileToLoad name c found c' h, fun p hp => ?_⟩
    subst hp
    injection h with h _
    exact ⟨_, h.symm⟩
  have hkeeps : Keeps (Configuration.Ready m settings) (fileToLoad name) :=
    keeps_fileToLoad (fun p => keeps_ready_follow p) name
  refine .bind (hfile.keeping hkeeps hc) fun found c₁ h => ?_
  obtain ⟨hc₁, hnoted, hnamed⟩ := h
  cases found with
  | error message =>
    refine .pure ⟨hnoted.host, .inl ⟨?_, hnoted.user, hnoted.missing⟩⟩
    cases name with
    | none => rfl
    | some p =>
      obtain ⟨_, h⟩ := hnamed p rfl
      exact nomatch h
  | ok found =>
    obtain ⟨path, message⟩ := found
    have htakes : Yields (quietly (takeFile path replaces)) c₁ fun _ c' => c'.host = c₁.host ∧
        ∃ lines, c₁.linesOf? path = some lines ∧
          TakesFile m settings.configPrefix lines replaces c₁ c' := by
      have htake := yields_takeFile hm (hc₁.warning false) path replaces
      refine yields_quietly (htake.mono fun _ c₂ h => ?_)
      obtain ⟨hhost, lines, hlines, htaken⟩ := h
      exact ⟨hhost, lines, hlines, htaken.value, htaken.unassigned, htaken.selection,
        htaken.missing⟩
    refine .bind htakes fun _ c' h => .pure ⟨h.1.trans hnoted.host, .inr ?_⟩
    obtain ⟨lines, hlines, htaken⟩ := h.2
    refine ⟨path, lines, fun p hp => ?_, ?_, htaken.value, fun s hs hnone => ?_,
      fun ch hch => ?_, ?_⟩
    · obtain ⟨_, h⟩ := hnamed p hp
      injection h with h
      exact congrArg Prod.fst h
    · rw [← hlines, linesOf?, linesOf?, opened?, opened?, hnoted.host, hnoted.settings]
    · rw [htaken.unassigned s hs hnone, hnoted.user]
    · rw [htaken.selection ch hch, hnoted.user]
    · rw [htaken.missing, hnoted.missing]

/-- A file that can be read is taken when it is loaded by its name. -/
theorem yields_loadConfig_named (hm : m.Sound) {settings : Settings} (hc : c.Ready m settings)
    {path : String} {lines : List (List Char)} (hlines : c.linesOf? path = some lines)
    (replaces : Bool) : Yields (loadConfig (some path) replaces) c fun _ c' =>
      TakesFile m settings.configPrefix lines replaces c c' := by
  refine (yields_loadConfig hm hc (some path) replaces).mono fun _ c' ⟨_, hloaded⟩ => ?_
  obtain ⟨hno, -⟩ | ⟨path', lines', hpath, hlines', htakes⟩ := hloaded
  · exact nomatch hno
  · obtain rfl := hpath path rfl
    exact Option.some.inj (hlines.symm.trans hlines') ▸ htakes

end Configuring
/-- A configuration stays one in which the user gave what can be given. -/
theorem ready_after {host : Host} {options : LoadOptions} {c : Configuration} {w : Workspace}
    (hload : Load.load host options = .ok c w) (acts : List Act) :
    (c.after acts).Ready w.model w.settings := by
  have hc := Load.coherent_of_load hload
  obtain rfl := Load.eq_ofWorkspace_of_load hload
  have hstart : (Configuration.ofWorkspace w).Ready w.model w.settings :=
    ⟨⟨rfl, rfl, hc.dependents, hc.permits⟩,
      ⟨rfl, Array.size_replicate, Array.size_replicate, Array.size_replicate,
        Array.size_replicate⟩⟩
  exact Configuration.keeps_after (Configuration.kept_ready _ _)
    (Configuration.keptByFiles_ready _ _) (fun p => Configuring.keeps_ready_follow p) hstart acts

/-- Loading a file and merging another one gives what loading their lines together gives. -/
theorem Configuration.TakesFile.concat {m : Model} {mark : String}
    {lines lines' : List (List Char)} {c c₁ c₂ d d' : Configuration}
    (h : TakesFile m mark lines true c c₁) (h' : TakesFile m mark lines' false c₁ c₂)
    (hboth : TakesFile m mark (lines ++ lines') true d d') :
    (∀ s ∈ m.defined, (c₂.user.value s).map UserValue.plain =
      (d'.user.value s).map UserValue.plain) ∧
    (∀ ch ∈ m.definedChoices, c₂.user.selection ch = d'.user.selection ch) ∧
    c₂.missing = d'.missing := by
  refine ⟨fun s hs => ?_, fun ch hch => ?_, ?_⟩
  · have hvalue := hboth.value s hs
    have hunassigned := hboth.unassigned s hs
    rw [List.filterMap_append, lastValue?_append] at hvalue hunassigned
    cases hlast' : lastValue? s (lines'.filterMap (m.accepted? mark)) with
    | some v =>
      rw [hlast'] at hvalue
      rw [h'.value s hs v hlast', hvalue v rfl]
    | none =>
      rw [hlast'] at hvalue hunassigned
      rw [h'.unassigned s hs hlast']
      cases hlast : lastValue? s (lines.filterMap (m.accepted? mark)) with
      | some v => exact (h.value s hs v hlast).trans (hvalue v hlast).symm
      | none =>
        rw [hunassigned hlast, if_neg nofun, h.unassigned s hs hlast]
        rfl
  · rw [h'.selection ch hch, if_neg nofun, h.selection ch hch, hboth.selection ch hch,
      List.filterMap_append, m.lastSelected?_append, Option.or_assoc]
    rfl
  · rw [h'.missing, if_neg nofun, h.missing, hboth.missing, List.filterMap_append,
      List.append_assoc]
    rfl

/-- What loading a configuration file means. Whatever was done before, a file that is loaded gives
every symbol the last value that a line of it assigns to the symbol, and every choice the last
member that it assigns `y`; what has no such line has nothing afterwards, or keeps what it had when
the file is merged; and assignments to names that are not defined are listed in the order of the
lines. So a file with another one merged gives what their lines one after the other give. A line is
read by its mark as it is spelled when the characters of the mark mean themselves in patterns. -/
theorem loadConfig_takes {host : Host} {options : LoadOptions} {c : Configuration} {w : Workspace}
    (hload : Load.load host options = .ok c w) (acts : List Act) :
    (Pattern.Plain w.settings.configPrefix → ∀ line,
      ConfigLine.read w.settings.configPrefix line =
        ConfigLine.literal w.settings.configPrefix.toList line) ∧
    (∀ name replaces message c',
      Configuring.loadConfig name replaces (c.after acts) = .ok message c' →
      (name = none ∧ c'.user = (c.after acts).user ∧ c'.missing = (c.after acts).missing) ∨
      ∃ path lines, (∀ p, name = some p → path = p) ∧
        (c.after acts).linesOf? path = some lines ∧
        Configuration.TakesFile w.model w.settings.configPrefix lines replaces (c.after acts) c') ∧
    ∀ (a b both : String) (acts' : List Act) lines lines' message₁ message₂ message₃ c₁ c₂ c₃,
      Configuring.loadConfig (some a) true (c.after acts) = .ok message₁ c₁ →
      Configuring.loadConfig (some b) false c₁ = .ok message₂ c₂ →
      Configuring.loadConfig (some both) true (c.after acts') = .ok message₃ c₃ →
      (c.after acts).linesOf? a = some lines → (c.after acts).linesOf? b = some lines' →
      (c.after acts').linesOf? both = some (lines ++ lines') →
      (∀ s ∈ w.model.defined, (c₂.user.value s).map UserValue.plain =
        (c₃.user.value s).map UserValue.plain) ∧
      (∀ ch ∈ w.model.definedChoices, c₂.user.selection ch = c₃.user.selection ch) ∧
      c₂.missing = c₃.missing := by
  have hm := Load.sound_of_load hload
  have hyields := fun acts name replaces message c' =>
    Configuring.yields_loadConfig hm (ready_after hload acts) name replaces message c'
  -- a file with a name is taken in any case
  have hnamed : ∀ acts path lines replaces message c',
      Configuring.loadConfig (some path) replaces (c.after acts) = .ok message c' →
      (c.after acts).linesOf? path = some lines →
      c'.host = (c.after acts).host ∧ Configuration.TakesFile w.model w.settings.configPrefix lines
        replaces (c.after acts) c' := by
    intro acts path lines replaces message c' h hlines
    obtain ⟨hhost, ⟨hno, -⟩ | ⟨path', lines', hpath, hlines', htakes⟩⟩ :=
      hyields acts _ _ _ _ h
    · exact nomatch hno
    · obtain rfl := hpath path rfl
      obtain rfl := Option.some.inj (hlines.symm.trans hlines')
      exact ⟨hhost, htakes⟩
  refine ⟨ConfigLine.read_eq_literal, fun name replaces message c' h =>
    (hyields acts _ _ _ _ h).2, ?_⟩
  intro a b both acts' lines lines' message₁ message₂ message₃ c₁ c₂ c₃ h₁ h₂ h₃ ha hb hboth
  have hafter : c₁ = c.after (acts ++ [.loadConfig (some a) true]) := by
    rw [Configuration.after, List.foldl_append]
    show c₁ = stateAfter ((Configuring.loadConfig (some a) true >>= fun _ => pure ())
      (c.after acts))
    rw [bind_apply, h₁]
    rfl
  obtain ⟨hhost, htakes₁⟩ := hnamed acts a lines true message₁ c₁ h₁ ha
  have hsettings : c₁.settings = (c.after acts).settings := by
    rw [hafter, (ready_after hload _).proper.settings, (ready_after hload _).proper.settings]
  have hb₁ : c₁.linesOf? b = some lines' := by
    rw [← hb, Configuration.linesOf?, Configuration.linesOf?, Configuration.opened?,
      Configuration.opened?, hhost, hsettings]
  subst hafter
  obtain ⟨-, htakes₂⟩ := hnamed _ b lines' false message₂ c₂ h₂ hb₁
  obtain ⟨-, htakes₃⟩ := hnamed acts' both _ true message₃ c₃ h₃ hboth
  exact htakes₁.concat htakes₂ htakes₃

/-- A choice and a symbol beside it, and configuration files that assign them one way and another. -/
def assignedTwice : Host where
  files.entries := [
    (["work", "Kconfig"], .file (.text
      "config A\n\tbool \"a\"\nchoice\n\tprompt \"c\"\nconfig X\n\tbool \"x\"\nconfig Y\n\tbool \"y\"\nendchoice\n")),
    (["work", "old"], .file (.text "CONFIG_X=y\nCONFIG_A=y\nCONFIG_Q=3\n")),
    (["work", "new"], .file (.text "CONFIG_Y=y\n# CONFIG_A is not set\n")),
    (["work", "both"], .file (.text
      "CONFIG_X=y\nCONFIG_A=y\nCONFIG_Q=3\nCONFIG_Y=y\n# CONFIG_A is not set\n"))]

theorem assignedTwice_takes : ∃ c w message₁ message₂ message₃ c₁ c₂ c₃,
    Load.load assignedTwice {} = .ok c w ∧
    let start := c.after [.setSymbol 3 (.number 2)]
    Configuring.loadConfig (some "old") true start = .ok message₁ c₁ ∧
    Configuring.loadConfig (some "new") false c₁ = .ok message₂ c₂ ∧
    Configuring.loadConfig (some "both") true c = .ok message₃ c₃ ∧
    (∀ line, ConfigLine.read "CONFIG_" line = ConfigLine.literal "CONFIG_".toList line) ∧
    (∃ path lines, (∀ p, some "old" = some p → path = p) ∧ start.linesOf? path = some lines ∧
      Configuration.TakesFile w.model w.settings.configPrefix lines true start c₁) ∧
    (∀ s ∈ w.model.defined, (c₂.user.value s).map UserValue.plain =
      (c₃.user.value s).map UserValue.plain) ∧
    (∀ ch ∈ w.model.definedChoices, c₂.user.selection ch = c₃.user.selection ch) ∧
    c₂.missing = c₃.missing := by
  let old := "CONFIG_X=y\nCONFIG_A=y\nCONFIG_Q=3\n".toList
  let new := "CONFIG_Y=y\n# CONFIG_A is not set\n".toList
  have hchecked : passes (fun c w =>
      let start := c.after [.setSymbol 3 (.number 2)]
      (w.settings.configPrefix == "CONFIG_") &&
      (start.linesOf? "old" == some (Text.splitKeep old)) &&
      (start.linesOf? "new" == some (Text.splitKeep new)) &&
      (c.linesOf? "both" == some (Text.splitKeep old ++ Text.splitKeep new)) &&
      succeeds (Configuring.loadConfig (some "both") true c) &&
      passes (fun _ c₁ => succeeds (Configuring.loadConfig (some "new") false c₁))
        (Configuring.loadConfig (some "old") true start)) (Load.load assignedTwice {}) = true := by
    decide +kernel
  obtain ⟨c, w, hload, hchecked⟩ := ok_of_passes hchecked
  simp only [Bool.and_eq_true, beq_iff_eq] at hchecked
  obtain ⟨⟨⟨⟨⟨hmark, hold⟩, hnew⟩, hboth⟩, h₃⟩, h₂⟩ := hchecked
  obtain ⟨message₁, c₁, h₁, h₂⟩ := ok_of_passes h₂
  obtain ⟨message₂, c₂, h₂⟩ := ok_of_succeeds h₂
  obtain ⟨message₃, c₃, h₃⟩ := ok_of_succeeds h₃
  obtain ⟨hread, htakes, htogether⟩ := loadConfig_takes hload [.setSymbol 3 (.number 2)]
  rw [hmark] at hread
  obtain ⟨hno, -⟩ | hfile := htakes _ _ _ _ h₁
  · exact absurd hno (Option.some_ne_none _)
  · exact ⟨c, w, message₁, message₂, message₃, c₁, c₂, c₃, hload, h₁, h₂, h₃,
      hread ConfigLine.plain_config, hfile,
      htogether _ _ _ [] _ _ _ _ _ _ _ _ h₁ h₂ h₃ hold hnew hboth⟩

end Kconfig
