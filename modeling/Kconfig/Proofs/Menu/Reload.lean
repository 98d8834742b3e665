import Kconfig.Proofs.Config.Reload
import Kconfig.Proofs.Files.Store
import Kconfig.Proofs.Menu.Calls
/-!
Saving and loading again leaves nothing to save.

What was saved is what the file holds, so loading it gives every symbol the value that it has, and
nothing in the file is about a symbol that is not defined. There is one exception: a number can be
written although it is none that the number accepts, such as the empty text of a number without a
default. Such a value is refused when it is loaded, and the session then takes the file for one that
lacks it.
-/
namespace Kconfig
open Plan Text

variable {m : Model} {u : UserValues} {v : Valuation} {c : Configuration}

namespace Session
open Configuring Kconfig.Configuration

/-! ### What is left to save -/

/-- Among values that were loaded, those are unsaved that were refused. -/
theorem ends_isUnsaved (hc : c.Recalls m u v) (hv : m.Solves u v) (hu : u.Restored m v)
    {s : SymbolId} (hs : s ∈ m.defined) : Ends (isUnsaved s) c fun isUnsaved c' =>
      (isUnsaved = true ↔ m.Refuses v s) ∧ c'.Recalls m u v := by
  refine .bind_get ?_
  rw [hc.user, hc.model]
  rcases hu.value_cases hv hs with ⟨hvalue, hwritten⟩ | ⟨a, hvalue, hrefuses, hsame⟩
  · rw [hvalue]
    refine (ends_follow hc hv _).bind fun text c₁ ⟨htext, hc₁⟩ => .pure ⟨?_, hc₁⟩
    subst htext
    exact hwritten
  · rw [hvalue]
    dsimp only
    split
    · next hbool =>
      rw [if_pos hbool] at hsame
      refine (ends_follow hc hv _).bind fun level c₁ ⟨hlevel, hc₁⟩ => .pure ⟨?_, hc₁⟩
      subst hlevel
      exact iff_of_false (fun h => of_decide_eq_true h hsame) hrefuses
    · next hbool =>
      rw [if_neg hbool] at hsame
      refine (ends_follow hc hv _).bind fun text c₁ ⟨htext, hc₁⟩ => .pure ⟨?_, hc₁⟩
      subst htext
      exact iff_of_false (fun h => of_decide_eq_true h hsame) hrefuses

theorem ends_anyUnsaved (hv : m.Solves u v) (hu : u.Restored m v) : ∀ (symbols : List SymbolId),
    (∀ s ∈ symbols, s ∈ m.defined) → ∀ {c : Configuration}, c.Recalls m u v →
      Ends (anyUnsaved symbols) c fun isUnsaved _ =>
        (isUnsaved = true ↔ ∃ s ∈ symbols, m.Refuses v s)
  | [], _, _, _ => .pure (iff_of_false nofun fun ⟨_, h, _⟩ => nomatch h)
  | s :: more, hdefined, c, hc => by
    refine (ends_isUnsaved hc hv hu (hdefined s (List.mem_cons_self ..))).bind
      fun isUnsaved c₁ ⟨hunsaved, hc₁⟩ => ?_
    have hsplit : (∃ t ∈ s :: more, m.Refuses v t) ↔ m.Refuses v s ∨ ∃ t ∈ more, m.Refuses v t := by
      simp
    simp only [hsplit]
    cases isUnsaved with
    | true => exact .pure (iff_of_true rfl (.inl (hunsaved.mp rfl)))
    | false =>
      have hnot : ¬ m.Refuses v s := fun h => nomatch hunsaved.mpr h
      simp only [or_iff_right hnot]
      exact ends_anyUnsaved hv hu more (fun t ht => hdefined t (List.mem_cons_of_mem _ ht)) hc₁

/-- A configuration that was loaded as it was saved differs from its file by what was refused. -/
theorem ends_differs (hc : c.Recalls m u v) (hv : m.Solves u v) (hu : u.Restored m v)
    (hmissing : c.missing = []) : Ends differs c fun differs _ =>
      (differs = true ↔ ∃ s ∈ m.defined, m.Refuses v s) := by
  refine .bind_get ?_
  rw [hmissing, hc.model]
  exact ends_anyUnsaved hv hu m.defined (fun _ hs => hs) hc

end Session

namespace Configuring
open Kconfig.Configuration

/-! ### What was saved -/

/-- A file that holds a text is read as this text. -/
theorem yields_holdsText (path text : String) : Yields (holdsText path text) c fun holds c' =>
    c' = c ∧ (holds = true → ∃ content, c.host.files.read path = .ok content ∧
      content.decoded = ⟨text.toList, none⟩) := by
  refine .bind_get ?_
  cases hfile : c.host.files.read path with
  | error condition =>
    exact .bind (yields_checkPath path) fun _ _ hsame => .pure ⟨hsame, nofun⟩
  | ok content =>
    dsimp only
    cases hread : content.decoded.read (text.length + 1) with
    | error fault => exact .throw _
    | ok start =>
      refine .pure ⟨rfl, fun hstart => ⟨content, rfl, ?_⟩⟩
      obtain rfl : start = text.toList := eq_of_beq hstart
      refine Decoded.eq_of_read hread ?_
      rw [String.length_toList]
      exact Nat.lt_succ_self _

/-- The name of the standard file does not hang on the files. -/
theorem standardName_files (host : Host) (files : Files.Store) :
    standardName { host with files } = standardName host := rfl

theorem yields_writeFile (path text : String) : Yields (writeFile path text) c fun _ c' =>
    standardName c'.host = standardName c.host ∧
      c'.host.files.read path = .ok (.text text) := by
  refine .bind_get ?_
  dsimp only
  cases hwrite : c.host.files.write path (.text text) with
  | error condition => exact .throw _
  | ok files =>
    intro _ c' h
    obtain rfl : { c with host.files := files } = c' := by
      injection h
    exact ⟨rfl, Files.Store.read_of_write hwrite⟩

/-- What was saved is in the file afterwards. -/
theorem yields_saveConfig (hc : c.Recalls m u v) (hv : m.Solves u v) {style : FileStyle}
    (hstyle : style = ⟨c.settings.configPrefix, c.settings.configHeader⟩)
    (hcarriage : '\r' ∉ ((m.configText style).result v).toList)
    (name : Option String) (keepsOld : Bool) :
    Yields (saveConfig name none keepsOld) c fun _ c' =>
      standardName c'.host = standardName c.host ∧ ∃ content,
        c'.host.files.read (name.getD (standardName c.host)) = .ok content ∧
          content.decoded = ⟨((m.configText style).result v).toList, none⟩ := by
  refine .bind_get ?_
  have htext : Yields (configText none) c fun text c₁ =>
      text = (m.configText style).result v ∧ c₁.host = c.host := by
    refine .bind_get (.bind (Q := fun found c' => found = style ∧ c' = c) ?_ ?_)
    · exact .bind_get (.pure ⟨hstyle.symm, rfl⟩)
    · rintro _ _ ⟨rfl, rfl⟩ text c₁ h
      rw [hc.model] at h
      exact ⟨((ends_follow hc hv _).yields text c₁ h).1, (noted_follow _ _ text c₁ h).host⟩
  refine .bind htext fun text c₁ ⟨htext, hhost⟩ => ?_
  subst htext
  rw [← hhost]
  refine .bind (yields_holdsText _ _) fun holds c₂ ⟨hsame, hholds⟩ => ?_
  subst hsame
  have hwritten : ∀ {c : Configuration}, standardName c.host = standardName c₂.host →
      Yields (writeFile (name.getD (standardName c₂.host)) ((m.configText style).result v) >>=
        fun _ => pure s!"Configuration saved to '{name.getD (standardName c₂.host)}'") c fun _ c' =>
        standardName c'.host = standardName c₂.host ∧ ∃ content,
          c'.host.files.read (name.getD (standardName c₂.host)) = .ok content ∧
            content.decoded = ⟨((m.configText style).result v).toList, none⟩ := by
    intro c hname
    refine .bind (yields_writeFile _ _) fun _ c₃ ⟨hname₃, hread⟩ => .pure ?_
    refine ⟨hname₃.trans hname, _, hread, ?_⟩
    show (⟨unifyLineEnds _, none⟩ : Decoded) = _
    rw [unifyLineEnds_eq_self hcarriage]
  split
  · next hheld => exact .pure ⟨rfl, hholds hheld⟩
  · dsimp only
    split
    · exact .bind (Q := fun _ c' => standardName c'.host = standardName c₂.host)
        (.update (standardName_files _ _)) fun _ _ h => hwritten h
    · exact hwritten rfl

/-- With the standard file in place it is the one that is loaded. -/
theorem loadConfig_standard (h : c.host.files.exists? (standardName c.host) = true)
    (replaces : Bool) :
    loadConfig none replaces c = loadConfig (some (standardName c.host)) replaces c := by
  have hfile : fileToLoad none c = fileToLoad (some (standardName c.host)) c := by
    show (if (c.host.files.exists? (standardName c.host) || _) = true then _ else _ :
      Configuring (Except String (String × String))) c = _
    rw [h, Bool.true_or, if_pos rfl]
    rfl
  rw [loadConfig, loadConfig, bind_apply, bind_apply, hfile]

/-- Loading what was saved gives back all of it. -/
theorem ends_reload {host : Host} {options : LoadOptions} {c₀ : Configuration} {w : Workspace}
    (hload : Load.load host options = .ok c₀ w) (hmark : w.settings.configPrefix = "CONFIG_")
    {header : String} (hheader : IsRemarks header) (h : w.model.Savable u v)
    (hc : c.Ready w.model w.settings) {name : Option String} {content : Files.Content}
    (hfile : c.host.files.read (name.getD (standardName c.host)) = .ok content)
    (hdecoded : content.decoded =
      ⟨((w.model.configText ⟨"CONFIG_", header⟩).result v).toList, none⟩) :
    Ends (loadConfig name true) c fun message c' =>
      message = s!"Loaded configuration '{name.getD (standardName c.host)}'" ∧
        c'.user.Restored w.model v ∧ c'.missing = [] := by
  have hnamed : loadConfig name true c =
      loadConfig (some (name.getD (standardName c.host))) true c := by
    cases name with
    | none => exact loadConfig_standard (Files.Store.exists_of_read hfile) true
    | some path => rfl
  unfold Ends
  rw [hnamed]
  generalize name.getD (standardName c.host) = path at hfile ⊢
  have hlines := linesOf?_of_read hfile (by rw [hdecoded])
  have hends := (failsIf_loadConfig h.sound hc hlines true).ends fun h => nomatch h.1
  refine hends.yielding fun message c' hok => ⟨message_of_loadConfig path true message c' hok, ?_⟩
  have htakes := yields_loadConfig_named h.sound hc hlines true message c' hok
  rw [hmark] at htakes
  exact restored_of_takesFile hload hmark h hheader hfile hdecoded htakes

/-- So does loading after saving. -/
theorem ends_reload_of_saved {host : Host} {options : LoadOptions} {c₀ c₁ : Configuration}
    {w : Workspace} (hload : Load.load host options = .ok c₀ w)
    (hmark : w.settings.configPrefix = "CONFIG_") (hheader : IsRemarks w.settings.configHeader)
    (h : w.model.Savable u v) (hc : c.Ready w.model w.settings) (hrecalls : c.Recalls w.model u v)
    {name : Option String} {message : String}
    (hsave : saveConfig name none true c = .ok message c₁) (hc₁ : c₁.Ready w.model w.settings) :
    Ends (loadConfig name true) c₁ fun message c' =>
      message = s!"Loaded configuration '{name.getD (standardName c₁.host)}'" ∧
        c'.user.Restored w.model v ∧ c'.missing = [] := by
  have hcarriage : '\r' ∉
      ((w.model.configText ⟨"CONFIG_", w.settings.configHeader⟩).result v).toList := by
    obtain ⟨lines, htext, htell, -⟩ := Model.configText_lines h hheader
    rw [htext]
    exact carriage_textOf fun l hl => (htell l hl).oneLine
  have hstyle : (⟨"CONFIG_", w.settings.configHeader⟩ : FileStyle) =
      ⟨c.settings.configPrefix, c.settings.configHeader⟩ := by
    rw [hc.proper.settings, hmark]
  obtain ⟨hstandard, content, hfile, hdecoded⟩ :=
    yields_saveConfig hrecalls h.solves hstyle hcarriage name true message c₁ hsave
  rw [← hstandard] at hfile
  exact ends_reload hload hmark hheader h hc₁ hfile hdecoded

end Configuring

namespace Session
open Configuring Kconfig.Configuration
variable {s t t₁ : Session} {w : Workspace}

/-- What is refused can be asked for. -/
theorem exists_refuses (hc : c.Recalls m u v) (hv : m.Solves u v) :
    (∃ i ∈ m.defined, m.Refuses v i) ↔ ∃ i ∈ m.defined, ∃ a c',
      ask (.text (.symbol i)) c = .ok a c' ∧ a.isWritten = true ∧
        (m.symbol i).type.isNumber = true ∧ (m.symbol i).type.accept? (.text a.value) = none := by
  constructor
  · rintro ⟨i, hi, hwritten, hnumber, hrefused⟩
    obtain ⟨_, c', hask, rfl, -⟩ := ends_follow hc hv (.ask (.text (.symbol i)) .done)
    exact ⟨i, hi, _, c', hask, hwritten, hnumber, hrefused⟩
  · rintro ⟨i, hi, a, c', hask, hwritten, hnumber, hrefused⟩
    obtain ⟨rfl, -⟩ := (ends_follow hc hv (.ask (.text (.symbol i)) .done)).yields a c' hask
    exact ⟨i, hi, hwritten, hnumber, hrefused⟩

/-- A save that succeeds clears the flag after it has saved the configuration. -/
theorem saveConfig_ok {message : String} (h : saveConfig t = .ok message t₁) :
    ∃ name c, t.target.toSave = .ok name ∧
      Configuring.saveConfig name none true t.toConfiguration = .ok message c ∧
      t₁ = { t with toConfiguration := c, hasChanged := false } := by
  change (orFail t.target.toSave >>= fun name => _ : Act String) t = _ at h
  cases hname : t.target.toSave with
  | error e =>
    rw [hname] at h
    exact nomatch h
  | ok name =>
    rw [hname] at h
    change (task (Configuring.saveConfig name none true) >>= fun message => _ : Act String) t = _ at h
    rw [bind_apply, task_apply] at h
    cases hsave : Configuring.saveConfig name none true t.toConfiguration with
    | error e c =>
      rw [hsave] at h
      exact nomatch h
    | ok message' c =>
      rw [hsave] at h
      injection h with hmessage ht
      subst hmessage
      exact ⟨name, c, rfl, hsave, ht.symm⟩

theorem tryLoad_ok {name : Option String} {message : String} {c : Configuration}
    (hname : t.target.toLoad = .ok name)
    (hload : Configuring.loadConfig name true t.toConfiguration = .ok message c) :
    tryLoad t = .ok (.ok message) { t with toConfiguration := c } := by
  rw [tryLoad_of_named hname, hload]

/-- A load that succeeds decides the flag by what is left to save. -/
theorem loadConfig_of_tryLoad {message : String} {c : Configuration} {isUnsaved : Bool}
    (hload : tryLoad t = .ok (.ok message) t₁)
    (hdiffers : differs t₁.toConfiguration = .ok isUnsaved c) :
    loadConfig t = .ok message { t₁ with toConfiguration := c, hasChanged := isUnsaved } := by
  unfold loadConfig
  rw [bind_apply, hload]
  show (task differs >>= fun hasChanged => _ : Act String) t₁ = _
  rw [bind_apply, task_apply, hdiffers]
  rfl

/-- After a session has been saved and loaded again, whatever happened before, something is left to
save exactly if a number was written whose value is none that the number accepts. For that nothing
that is remembered may be out of date, which it never is in a tidy model. -/
theorem changed_after_reload {host : Host} {name : String} {target : ConfigTarget}
    {showsAll : Bool} {version : Option Int}
    (hopen : open? host name target showsAll version = .ok s w)
    (hterminates : ∀ u, w.model.Permits u → w.model.Terminates u)
    (hmark : w.settings.configPrefix = "CONFIG_") (hheader : IsRemarks w.settings.configHeader)
    (hwritable : w.model.Writable) (events : List Event) (ht : s.afterEvents events = t)
    (hvalues : ∀ i ∈ w.model.defined, ∀ a c,
      ask (.text (.symbol i)) t.toConfiguration = .ok a c → (w.model.symbol i).FitsLine a.value)
    {message : String} (hsave : saveConfig t = .ok message t₁)
    (hsame : t.target.toLoad = t.target.toSave)
    (hcurrent : w.model.Tidy ∨ t.UpToDate ∧
      ∀ message t₂, tryLoad t₁ = .ok (.ok message) t₂ → t₂.UpToDate) :
    ∃ (path : String) (t₂ : Session), loadConfig t₁ = .ok s!"Loaded configuration '{path}'" t₂ ∧
      (t₂.hasChanged = true ↔ ∃ i ∈ w.model.defined, ∃ a c,
        ask (.text (.symbol i)) t.toConfiguration = .ok a c ∧ a.isWritten = true ∧
          (w.model.symbol i).type.isNumber = true ∧
          (w.model.symbol i).type.accept? (.text a.value) = none) := by
  obtain ⟨⟨options, hload⟩, -⟩ := load_of_open? hopen
  have hm := Load.sound_of_load hload
  have hkept : Kept (Sane w.model w.settings) := kept_sane hm hterminates
  have hfollow : ∀ {α : Type} (p : Plan α), Keeps (Sane w.model w.settings) (follow p) :=
    keeps_sane_follow hm hterminates
  have hsane : t.Sane w.model w.settings :=
    ht ▸ holds_after hkept keptByFiles_sane hfollow (sane_of_load hload) events
  obtain ⟨v, hv⟩ := (hterminates _ hsane.ready.proper.permits).solution
  have hrecalls := hsane.recalls hv (hcurrent.imp_right And.left)
  have hw := Load.walkable_of_load hload
  have hsavable : w.model.Savable t.user v := ⟨hm, hw, hwritable, hv, fun i hi => by
    obtain ⟨_, c, hask, rfl, -⟩ := ends_follow hrecalls hv (.ask (.text (.symbol i)) .done)
    exact hvalues i hi _ c hask⟩
  obtain ⟨name, c₁, hname, hsaved, rfl⟩ := saveConfig_ok hsave
  have hsane₁ : c₁.Sane w.model w.settings := by
    have h := keeps_saveConfig keptByFiles_sane hfollow name none true _ hsane
    unfold KeepsAt at h
    rwa [hsaved] at h
  -- loading the file gives back all that was saved, and so the same answers
  obtain ⟨message', c₂, hloads, hsane₂, rfl, hrestored, hmissing⟩ :=
    (ends_reload_of_saved hload hmark hheader hsavable hsane.ready hrecalls hsaved
      hsane₁.ready).keeping (keeps_loadConfig hfollow hkept name true) hsane₁
  obtain ⟨v', hv'⟩ := (hterminates _ hsane₂.ready.proper.permits).solution
  obtain rfl : v' = v := hrestored.eq hm hwritable hv hsane.ready.proper.permits hv'
    hsane₂.ready.proper.permits
  have htry := tryLoad_ok (t := { t with toConfiguration := c₁, hasChanged := false })
    (hsame.trans hname) hloads
  have hcurrent₂ : w.model.Tidy ∨ c₂.UpToDate := by
    rcases hcurrent with htidy | ⟨-, hcurrent⟩
    · exact .inl htidy
    · have h := hcurrent _ _ htry
      exact .inr h
  have hrecalls₂ := hsane₂.recalls hv' hcurrent₂
  obtain ⟨isUnsaved, c₃, hdiffers, hleft⟩ := ends_differs hrecalls₂ hv' hrestored hmissing
  exact ⟨_, _, loadConfig_of_tryLoad htry hdiffers, hleft.trans (exists_refuses hrecalls hv)⟩

end Session

/-- A number without a default. -/
def bareNumber : Host where
  files.entries := [(["work", "Kconfig"], .file (.text "config N\n\tint \"n\"\n"))]

/-- The number is shown and set. -/
def setNumber : List Session.Event := [.call .menu, .call (.change 1 (.str "5"))]

open Session in
/-- The empty text of the number is written and refused; once it is set, nothing is left to save. -/
theorem bareNumber_reload : ∃ s w saved saved' t₁ t₂ loaded loaded' r₁ r₂,
    open? bareNumber "Kconfig" (.path "c") false none = .ok s w ∧
    saveConfig s = .ok saved t₁ ∧ loadConfig t₁ = .ok loaded r₁ ∧ r₁.hasChanged = true ∧
    saveConfig (s.afterEvents setNumber) = .ok saved' t₂ ∧ loadConfig t₂ = .ok loaded' r₂ ∧
      r₂.hasChanged = false := by
  have hchecked : (match open? bareNumber "Kconfig" (.path "c") false none with
      | .ok s w =>
        let m := w.model
        decide (m.choices.size = 0 ∧ w.settings.configPrefix = "CONFIG_" ∧
          w.settings.configHeader = "" ∧ m.Writable ∧ m.defined = [2] ∧
          (m.symbol 2).type = .int) &&
        [([], ""), (setNumber, "5")].all fun (events, text) =>
          let t := s.afterEvents events
          succeeds (saveConfig t) && decide ((m.symbol 2).FitsLine text) &&
          match Configuring.ask (.text (.symbol 2)) t.toConfiguration, t.target with
          | .ok a _, .path name => a == ⟨text, true⟩ && !name.isEmpty
          | _, _ => false
      | .error .. => false) = true := by decide +kernel
  split at hchecked
  · next s w hopen =>
    rw [Bool.and_eq_true, List.all_eq_true] at hchecked
    obtain ⟨hmodel, hruns⟩ := hchecked
    obtain ⟨hsize, hmark, hheader, hwritable, hdefined, htype⟩ := of_decide_eq_true hmodel
    obtain ⟨⟨options, hload⟩, -⟩ := load_of_open? hopen
    have hloop := Load.noLoop_of_load hload
    have hreload : ∀ run ∈ [([], ""), (setNumber, "5")], ∃ saved t₁ loaded r,
        saveConfig (s.afterEvents run.1) = .ok saved t₁ ∧ loadConfig t₁ = .ok loaded r ∧
          (r.hasChanged = true ↔ ValueType.int.accept? (.text run.2) = none) := by
      intro (events, text) hrun
      have hchecked := hruns _ hrun
      dsimp only at hchecked
      rw [Bool.and_eq_true, Bool.and_eq_true, decide_eq_true_eq] at hchecked
      obtain ⟨⟨hsaves, hfits⟩, hchecked⟩ := hchecked
      obtain ⟨saved, t₁, hsave⟩ := ok_of_succeeds hsaves
      split at hchecked
      · next a c name hask htarget =>
        rw [Bool.and_eq_true, beq_iff_eq, Bool.not_eq_true'] at hchecked
        obtain ⟨rfl, hname⟩ := hchecked
        have hvalue : ∀ i ∈ w.model.defined, ∀ a c', Configuring.ask (.text (.symbol i))
            (s.afterEvents events).toConfiguration = .ok a c' → i = 2 ∧ a = ⟨text, true⟩ := by
          intro i hi a c' h
          rw [hdefined] at hi
          obtain rfl := List.mem_singleton.mp hi
          injection hask.symm.trans h with ha
          exact ⟨rfl, ha.symm⟩
        have hsame : (s.afterEvents events).target.toLoad = (s.afterEvents events).target.toSave := by
          rw [htarget]
          simp [ConfigTarget.toLoad, ConfigTarget.toSave, hname]
        obtain ⟨path, r, hloads, hchanged⟩ := changed_after_reload hopen
          (fun u _ => (Load.sound_of_load hload).terminates_of_no_choices hloop hsize u) hmark
          (hheader ▸ isRemarks_empty) hwritable events rfl
          (fun i hi a c' h => by
            obtain ⟨rfl, rfl⟩ := hvalue i hi a c' h
            exact hfits)
          hsave hsame (.inl (Model.tidy_of_no_choices hsize))
        refine ⟨saved, t₁, _, r, hsave, hloads, hchanged.trans ⟨?_, fun hrefused => ?_⟩⟩
        · rintro ⟨i, hi, a, c', h, -, -, hrefused⟩
          obtain ⟨rfl, rfl⟩ := hvalue i hi a c' h
          rwa [htype] at hrefused
        · refine ⟨2, by rw [hdefined]; exact List.mem_singleton_self _, _, c, hask, rfl, ?_, ?_⟩
          · rw [htype]
            rfl
          · rw [htype]
            exact hrefused
      · exact nomatch hchecked
    obtain ⟨saved, t₁, loaded, r₁, hsave, hload₁, hchanged⟩ := hreload _ (List.mem_cons_self ..)
    obtain ⟨saved', t₂, loaded', r₂, hsave', hload₂, hunchanged⟩ :=
      hreload _ (List.mem_cons_of_mem _ (List.mem_cons_self ..))
    exact ⟨s, w, saved, saved', t₁, t₂, loaded, loaded', r₁, r₂, hopen, hsave, hload₁,
      hchanged.mpr (by decide), hsave', hload₂,
      Bool.eq_false_iff.mpr fun h => absurd (hunchanged.mp h) (by decide)⟩
  · exact nomatch hchecked

end Kconfig
