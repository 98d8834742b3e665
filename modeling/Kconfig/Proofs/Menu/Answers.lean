import Kconfig.Proofs.Load.Loops
import Kconfig.Proofs.Menu.Parts
/-!
Every line is answered, as long as it is understood.

A line that holds no request is answered with an error, and so is a request of another version. A
request of the right version is performed part by part, and none of these fails but for a file that
cannot be named, looked for or compared; only a version that is no number fails before. So a session
answers one line after the other, each that is not blank once, and stops at most at a request that
it does not understand.
-/
namespace Kconfig

namespace Session
open Configuring Kconfig.Configuration
variable {m : Model} {settings : Settings} {printed : String} {s : Session}

/-! ### Requests -/

/-- The request is answered with nothing but an error, for its version. -/
inductive Refuses (request : Json) : RequestError → Prop
  | noVersion (h : request.field? "version" = none) : Refuses request .noVersion
  | badVersion {version : Json} {whole : Int} {isExact : Bool}
      (h : request.field? "version" = some version) (hv : versionOf version = .ok (whole, isExact))
      (hother : (whole, isExact) ≠ (protocolVersion, true)) : Refuses request (.badVersion whole)

/-- The version of the request is the one that there is. -/
def Supported (request : Json) : Prop :=
  ∃ version, request.field? "version" = some version ∧
    versionOf version = .ok (protocolVersion, true)

/-- The request can be answered: its version, if it has one, is a number, and if this is the right
one, what it loads can be loaded and what it saves to can be compared. -/
structure Understands (s : Session) (request : Json) : Prop where
  version : ∀ version, request.field? "version" = some version →
    ∃ number, versionOf version = .ok number
  load : Supported request → ∀ value, request.field? "load" = some value →
    (s.target.taking value).Loadable s.toConfiguration
  save : Supported request → ∀ value, request.field? "save" = some value →
    (((request.field? "load").elim s.target s.target.taking).taking value).Savable s.host

theorem meets_perform {request : Json} {key : String} {part : Response → Json → Act Response}
    {response : Response} {Q : Response → Session → Prop} {F : Failure → Session → Prop}
    (hnone : request.field? key = none → Q response s)
    (hsome : ∀ value, request.field? key = some value → Meets (part response value) s Q F) :
    Meets (perform request key part response) s Q F := by
  unfold perform
  cases hfield : request.field? key with
  | none => exact .of_ends (.pure (hnone hfield))
  | some value => exact hsome value hfield

section Requests
variable (hm : m.Sound) (hloopless : ∀ u, m.Permits u → m.Loopless u)
include hm hloopless

/-- The parts of a request one after the other. -/
theorem meets_parts {request : Json} (hsupported : Supported request)
    (hs : s.toConfiguration.Able m settings printed) :
    Meets (do
      let response ← perform request "load" load {}
      let response ← perform request "set" setItems response
      perform request "save" save response) s
      (fun _ => Holds (Able m settings printed) fun _ => True)
      fun _ _ => ¬ s.Understands request := by
  let P : Configuration → Prop := fun c => c.Able m settings printed ∧ c.host = s.host
  let target := (request.field? "load").elim s.target s.target.taking
  have hP : Kept P := kept_host (kept_able m settings printed) s.host
  have hfollow : ∀ {α : Type} (p : Plan α), Safe P (follow p) :=
    fun p => safe_follow hloopless s.host p
  have hload : Meets (perform request "load" load {}) s (fun _ => Holds P (· = target))
      fun _ _ => ¬ s.Understands request := by
    refine meets_perform (fun hnone => ⟨⟨hs, rfl⟩, ?_⟩) fun value hvalue => ?_
    · show s.target = (request.field? "load").elim s.target s.target.taking
      rw [hnone]
      rfl
    · have htarget : target = s.target.taking value := by
        show (request.field? "load").elim s.target s.target.taking = _
        rw [hvalue]
        rfl
      rw [htarget]
      exact (meets_load hm (fun c hc => hc.1.toReady) hP hfollow (T := fun _ => True)
        ⟨⟨hs, rfl⟩, trivial⟩ _ value).mono (fun _ _ h => h)
        fun _ _ h hunderstands => h (hunderstands.load hsupported value hvalue)
  refine .bind hload fun response s₁ hs₁ => ?_
  have hset : Meets (perform request "set" setItems response) s₁ (fun _ => Holds P (· = target))
      fun _ _ => ¬ s.Understands request :=
    meets_perform (fun _ => hs₁) fun value _ => .of_ends (safe_setItems hP hfollow _ value s₁ hs₁)
  refine .bind hset fun response s₂ ⟨⟨hs₂, hhost⟩, htarget⟩ => ?_
  refine meets_perform (fun _ => ⟨hs₂, trivial⟩) fun value hvalue => ?_
  refine (meets_save hloopless hs₂ response value).mono (fun _ _ h => h)
    fun _ _ h hunderstands => ?_
  rw [htarget, hhost] at h
  exact h (hunderstands.save hsupported value hvalue)

/-- Performing a request fails only if the request is not understood. -/
theorem meets_handle (hs : s.toConfiguration.Able m settings printed) (request : Json) :
    Meets (handle request) s (fun response s' =>
      Holds (Able m settings printed) (fun _ => True) s' ∧
        ∀ e, Refuses request e → response = { errors := [e] })
      fun _ _ => ¬ s.Understands request := by
  unfold handle
  cases hversion : request.field? "version" with
  | none =>
    refine .of_ends (.pure ⟨⟨hs, trivial⟩, fun e he => ?_⟩)
    cases he with
    | noVersion => rfl
    | badVersion h => exact nomatch hversion.symm.trans h
  | some version =>
    dsimp only
    cases hnumber : versionOf version with
    | error f =>
      refine .bind (Q := fun _ _ => False) (.throw fun hunderstands => ?_) fun _ _ h => h.elim
      obtain ⟨number, h⟩ := hunderstands.version version hversion
      exact nomatch hnumber.symm.trans h
    | ok number =>
      obtain ⟨whole, isExact⟩ := number
      refine .bind (Q := fun found s' => found = (whole, isExact) ∧ s' = s)
        (.of_ends (.pure ⟨rfl, rfl⟩)) ?_
      intro found s' ⟨hfound, hsame⟩
      rw [hfound, hsame]
      dsimp only
      by_cases hsupported : (whole, isExact) = (protocolVersion, true)
      · obtain ⟨rfl, rfl⟩ := Prod.mk.inj hsupported
        have haccepts : ∀ e, ¬ Refuses request e := by
          rintro _ (h | ⟨h, hv, hother⟩)
          · exact nomatch hversion.symm.trans h
          · obtain rfl := Option.some.inj (hversion.symm.trans h)
            exact hother (Except.ok.inj (hv.symm.trans hnumber))
        have hparts := fun (s' : Session) (hs' : s'.toConfiguration.Able m settings printed) =>
          meets_parts hm hloopless ⟨version, hversion, hnumber⟩ hs'
        cases request.field? "show_all" with
        | none =>
          exact (hparts s hs).mono (fun _ _ h => ⟨h, fun e he => absurd he (haccepts e)⟩)
            fun _ _ h => h
        | some value =>
          let s' := { s with showsAll := value.isFilled }
          refine .bind (Q := fun _ s₁ => s₁ = s') (.of_ends ⟨_, _, rfl, rfl⟩) fun _ s₁ h₁ => ?_
          rw [h₁]
          exact (hparts s' hs).mono (fun _ _ h => ⟨h, fun e he => absurd he (haccepts e)⟩)
            fun _ _ h hunderstands => h ⟨hunderstands.version, hunderstands.load, hunderstands.save⟩
      · have hother : (decide (whole ≠ protocolVersion) || !isExact) = true := by
          cases isExact with
          | false => exact Bool.or_true _
          | true =>
            rw [Bool.or_eq_true, decide_eq_true_eq]
            exact .inl fun heq => hsupported (heq ▸ rfl)
        rw [if_pos hother]
        refine .of_ends (.pure ⟨⟨hs, trivial⟩, fun e he => ?_⟩)
        cases he with
        | noVersion h => exact nomatch hversion.symm.trans h
        | badVersion h hv =>
          obtain rfl := Option.some.inj (hversion.symm.trans h)
          rw [(Prod.mk.inj (Except.ok.inj (hv.symm.trans hnumber))).1]

end Requests

/-! ### Responses -/

/-- A response as it is sent; an empty line follows it. -/
def frame (response : Json) : String := response.compact ++ "\n\n"

/-- A response that holds nothing but an error. -/
def rejection (standard : Int) (error : RequestError) : Json :=
  .obj [("version", .int standard), ("error", .ofTexts [error.message])]

/-- What a response says about the menu and its state. -/
def stateOf (menus : List MenuItem) (hasChanged : Bool) (warnings : List String) :
    List (String × Json) :=
  [("menus", .arr (menus.map MenuItem.toJson)), ("has_changed", .bool hasChanged),
    ("warnings", .ofTexts warnings)]

/-- The response to a line. A request is answered under its own version with what performing it
brought about, the menu and its state, and the errors, if there are any. -/
inductive Answers (standard : Int) (line : String) : Json → Prop
  | notJson {error : Json.ParseError} (h : Json.parse line = .error error)
      (hwhole : error.missing ≠ .half) :
      Answers standard line (rejection standard (.notJson error))
  | notObject {value : Json} (h : Json.parse line = .ok value)
      (hobject : ∀ fields, value ≠ .obj fields) :
      Answers standard line (rejection standard .notObject)
  | request {fields : List (String × Json)} {response : Response} {menus : List MenuItem}
      {hasChanged : Bool} {warnings : List String} (h : Json.parse line = .ok (.obj fields))
      (hrefused : ∀ e, Refuses (.obj fields) e → response = { errors := [e] }) :
      Answers standard line (.obj (
        [("version", ((Json.obj fields).field? "version").getD (.int standard))] ++
        Response.fields response ++ stateOf menus hasChanged warnings ++
        if (response.errors.map RequestError.message).isEmpty then []
        else [("error", .ofTexts (response.errors.map RequestError.message))]))

/-- Nothing stands on the line. -/
def isBlank (line : String) : Bool := (Text.trim line.toList).isEmpty

theorem answer_of_blank {line : String} (hblank : isBlank line = true) (standard : Int)
    (s : Session) : answer standard line s = .ok ⟨⟩ s := by
  unfold answer
  exact congrFun (if_pos hblank) s

theorem answer_of_filled {line : String} (hblank : isBlank line = false) (standard : Int) :
    answer standard line = match Json.parse line with
      | .error e => if e.missing = .half then throw .badJson else reject standard (.notJson e)
      | .ok request =>
        match request with
        | .obj _ => respond standard request
        | _ => reject standard .notObject := if_neg (Bool.eq_false_iff.mp hblank)

/-- Responses to lines, one for each that is not blank, in order. -/
inductive Dialogue (standard : Int) : List String → List Json → Prop
  | nil : Dialogue standard [] []
  | blank {line : String} {lines : List String} {responses : List Json}
      (hblank : isBlank line = true) (h : Dialogue standard lines responses) :
      Dialogue standard (line :: lines) responses
  | answer {line : String} {lines : List String} {response : Json} {responses : List Json}
      (hblank : isBlank line = false) (hanswer : Answers standard line response)
      (h : Dialogue standard lines responses) :
      Dialogue standard (line :: lines) (response :: responses)

/-- A session that can answer whatever it understands, after it printed a text. -/
def Serving (m : Model) (settings : Settings) (printed : String) : Session → Prop :=
  Holds (Able m settings printed) fun _ => True

theorem ends_send (hs : Serving m settings printed s) (fields : List (String × Json)) :
    Ends (send fields) s fun _ => Serving m settings (printed ++ frame (.obj fields)) :=
  ⟨_, _, rfl, hs.1.print _, trivial⟩

section Answering
variable (hm : m.Sound) (hloopless : ∀ u, m.Permits u → m.Loopless u)
include hloopless

theorem safe_serving_follow {α : Type} (p : Plan α) :
    Safe (Able m settings printed) (follow p) := fun c hc =>
  (safe_follow hloopless c.host p c ⟨hc, rfl⟩).mono fun _ _ h => h.1

/-- The fields about the menu and its state. -/
theorem ends_stateFields (hs : Serving m settings printed s) (count : Nat) :
    Ends (stateFields count) s fun fields s' => Serving m settings printed s' ∧
      ∃ menus hasChanged warnings, fields = stateOf menus hasChanged warnings :=
  (safe_menu (fun p => safe_serving_follow hloopless p) s hs).bind fun _ _ hs₁ =>
    .bind_get (.pure ⟨hs₁, _, _, _, rfl⟩)

include hm

/-- A request is answered once, unless it is not understood. -/
theorem meets_respond (hs : Serving m settings printed s) (standard : Int) {line : String}
    {fields : List (String × Json)} (hline : Json.parse line = .ok (.obj fields)) :
    Meets (respond standard (.obj fields)) s
      (fun _ s' => ∃ response, Answers standard line response ∧
        Serving m settings (printed ++ frame response) s')
      fun _ _ => ¬ s.Understands (.obj fields) := by
  refine .bind_get (.bind (meets_handle hm hloopless hs.1 _) ?_)
  intro response s₁ ⟨hs₁, hrefused⟩
  refine .bind (.of_ends (ends_stateFields hloopless hs₁ _)) ?_
  rintro _ s₂ ⟨hs₂, menus, hasChanged, warnings, rfl⟩
  have htell := Safe.forM (fun e => safe_tell (T := fun _ => True)
    (kept_able m settings printed) s!"Error: {e}") (response.errors.map RequestError.message) s₂ hs₂
  refine .bind (.of_ends htell) fun _ s₃ hs₃ => .of_ends ?_
  exact (ends_send hs₃ _).mono fun _ _ hs₄ => ⟨_, .request hline hrefused, hs₄⟩

/-- All texts of the line are whole, and it is no request, or one that is understood. -/
structure UnderstandsLine (s : Session) (line : String) : Prop where
  whole : ∀ e, Json.parse line = .error e → e.missing ≠ .half
  request : ∀ fields, Json.parse line = .ok (.obj fields) → s.Understands (.obj fields)

/-- A line that is not blank is answered once, unless it is not understood. -/
theorem meets_answer (hs : Serving m settings printed s) (standard : Int) {line : String}
    (hblank : isBlank line = false) :
    Meets (answer standard line) s
      (fun _ s' => ∃ response, Answers standard line response ∧
        Serving m settings (printed ++ frame response) s')
      fun _ _ => ¬ s.UnderstandsLine line := by
  rw [answer_of_filled hblank]
  cases hparse : Json.parse line with
  | error e =>
    dsimp only
    split
    · next hhalf => exact .throw fun hunderstands => hunderstands.whole e hparse hhalf
    · next hwhole =>
      exact .of_ends ((ends_send hs _).mono fun _ _ hs' => ⟨_, .notJson hparse hwhole, hs'⟩)
  | ok value =>
    cases value with
    | obj fields =>
      exact (meets_respond hm hloopless hs standard hparse).mono (fun _ _ h => h)
        fun _ _ h hunderstands => h (hunderstands.request fields hparse)
    | _ =>
      exact .of_ends ((ends_send hs _).mono fun _ _ hs' => ⟨_, .notObject hparse nofun, hs'⟩)

/-- Lines are answered one after the other up to one that is not understood. -/
theorem exists_dialogue (standard : Int) : ∀ (lines : List String) {printed : String} {s : Session},
    Serving m settings printed s → ∃ answered rest responses s',
      lines = answered ++ rest ∧ Dialogue standard answered responses ∧
      answered.forM (answer standard) s = .ok ⟨⟩ s' ∧
      Serving m settings (printed ++ String.join (responses.map frame)) s' ∧
      (rest = [] ∨ ∃ line more f s'', rest = line :: more ∧ ¬ s'.UnderstandsLine line ∧
        answer standard line s' = .error f s'')
  | [], printed, s, hs => by
    refine ⟨[], [], [], s, rfl, .nil, rfl, ?_, .inl rfl⟩
    simpa using hs
  | line :: more, printed, s, hs => by
    cases hblank : isBlank line with
    | true =>
      obtain ⟨answered, rest, responses, s', rfl, hdialogue, hruns, hs', hrest⟩ :=
        exists_dialogue standard more hs
      refine ⟨line :: answered, rest, responses, s', rfl, .blank hblank hdialogue, ?_, hs', hrest⟩
      show (answer standard line >>= fun _ => answered.forM (answer standard)) s = _
      rw [bind_apply, answer_of_blank hblank]
      exact hruns
    | false =>
      have hanswer := meets_answer hm hloopless hs standard hblank
      unfold Meets at hanswer
      cases haction : answer standard line s with
      | error f s'' =>
        rw [haction] at hanswer
        refine ⟨[], line :: more, [], s, rfl, .nil, rfl, ?_,
          .inr ⟨line, more, f, s'', rfl, hanswer, haction⟩⟩
        simpa using hs
      | ok _ s₁ =>
        rw [haction] at hanswer
        obtain ⟨response, hresponse, hs₁⟩ := hanswer
        obtain ⟨answered, rest, responses, s', rfl, hdialogue, hruns, hs', hrest⟩ :=
          exists_dialogue standard more hs₁
        refine ⟨line :: answered, rest, response :: responses, s', rfl,
          .answer hblank hresponse hdialogue, ?_, ?_, hrest⟩
        · show (answer standard line >>= fun _ => answered.forM (answer standard)) s = _
          rw [bind_apply, haction]
          exact hruns
        · rw [List.map_cons, String.join_cons, ← String.append_assoc]
          exact hs'

/-- Before any line the menu is sent, if the file can be loaded. -/
theorem ends_greet (hs : Serving m settings printed s)
    (h : s.target.Loadable s.toConfiguration) (standard : Int) :
    Ends (greet standard) s fun _ s' => ∃ menus hasChanged warnings, Serving m settings
      (printed ++
        frame (.obj (("version", .int standard) :: stateOf menus hasChanged warnings))) s' := by
  have hP := kept_able m settings printed
  have hfollow : ∀ {α : Type} (p : Plan α), Safe (Able m settings printed) (follow p) :=
    fun p => safe_serving_follow hloopless p
  have hload := ends_loadConfig hm (fun c hc => hc.toReady) hP hfollow hs h
  refine hload.bind fun message s₁ hs₁ => (safe_tell hP message s₁ hs₁).bind fun _ s₂ hs₂ => ?_
  refine (safe_tell hP _ s₂ hs₂).bind fun _ s₃ hs₃ =>
    (ends_stateFields hloopless hs₃ 0).bind ?_
  rintro _ s₄ ⟨hs₄, menus, hasChanged, warnings, rfl⟩
  exact (ends_send hs₄ _).mono fun _ _ hs₅ => ⟨menus, hasChanged, warnings, hs₅⟩

end Answering

/-- What comes of the line is not modelled: a text in it has half of a surrogate pair, or it has a
standard stream read or written in place of a file. -/
inductive Beyond (s : Session) (line : String) : Prop
  | half {e : Json.ParseError} (h : Json.parse line = .error e) (hhalf : e.missing = .half)
  | load {fields : List (String × Json)} {value v : Json} (h : Json.parse line = .ok (.obj fields))
      (hload : (Json.obj fields).field? "load" = some value)
      (htarget : s.target.taking value = .other v) (hstream : v.isStream = true)
  | save {fields : List (String × Json)} {value v : Json} (h : Json.parse line = .ok (.obj fields))
      (hsave : (Json.obj fields).field? "save" = some value)
      (htarget : (((Json.obj fields).field? "load").elim s.target s.target.taking).taking value =
        .other v)
      (hfilled : v.isFilled = true) (hstream : v.isStream = true)

/-- A session of a model whose values come to an end, from a file that can be loaded. It greets,
and answers the lines in order, one response for each that is not blank, up to the end of the lines
or to a request that it does not understand: one whose version is no number, or which loads from or
saves to something that cannot be named, looked for or compared. There it ends, as far as what comes
of the line is modelled. A version that is no number does end every session. -/
theorem serve_answers {host : Host} {name : String} {target : ConfigTarget} {showsAll : Bool}
    {version : Option Int} {w : Workspace}
    (hopen : open? host name target showsAll version = .ok s w)
    (hloopless : ∀ u, w.model.Permits u → w.model.Loopless u)
    (hstart : target.Loadable s.toConfiguration) (standard : Int) (lines : List String) :
    (∃ menus hasChanged warnings answered rest responses s',
      let greeting := Json.obj (("version", .int standard) :: stateOf menus hasChanged warnings)
      lines = answered ++ rest ∧ Dialogue standard answered responses ∧
      serve standard answered s = .ok ⟨⟩ s' ∧
      s'.journal.output = s.journal.output ++ String.join ((greeting :: responses).map frame) ∧
      (rest = [] ∨ ∃ line more, rest = line :: more ∧ ¬ s'.UnderstandsLine line ∧
        (¬ s'.Beyond line → ∃ f s'', serve standard lines s = .error f s''))) ∧
    ∀ (t : Session) (line : String) (fields : List (String × Json)) (version : Json),
      isBlank line = false → Json.parse line = .ok (.obj fields) →
      (Json.obj fields).field? "version" = some version → versionOf version = .error .illTyped →
      ∃ t', answer standard line t = .error .illTyped t' := by
  obtain ⟨⟨options, hload⟩, rfl⟩ := load_of_open? hopen
  have hm := Load.sound_of_load hload
  refine ⟨?_, fun t line fields version hblank hparse hversion hnumber => ?_⟩
  · have hs : Serving w.model w.settings w.journal.output s := ⟨able_of_load hload, trivial⟩
    obtain ⟨_, s₁, hgreet, menus, hasChanged, warnings, hs₁⟩ :=
      ends_greet hm hloopless hs hstart standard
    obtain ⟨answered, rest, responses, s', rfl, hdialogue, hruns, hs', hrest⟩ :=
      exists_dialogue hm hloopless standard lines hs₁
    refine ⟨menus, hasChanged, warnings, answered, rest, responses, s', rfl, hdialogue, ?_, ?_, ?_⟩
    · unfold serve
      rw [bind_apply, hgreet]
      exact hruns
    · rw [hs'.1.output, hs.1.output, List.map_cons, String.join_cons, ← String.append_assoc]
    · rcases hrest with rfl | ⟨line, more, f, s'', rfl, hunderstands, hfails⟩
      · exact .inl rfl
      · refine .inr ⟨line, more, rfl, hunderstands, fun _ => ⟨f, s'', ?_⟩⟩
        unfold serve
        rw [bind_apply, hgreet]
        dsimp only
        rw [forM_append_of_ok answered (line :: more) hruns]
        show (answer standard line >>= fun _ => more.forM (answer standard)) s' = _
        rw [bind_apply, hfails]
  · rw [answer_of_filled hblank, hparse]
    dsimp only
    refine Fails.bind_get (.bind ?_)
    unfold handle
    rw [hversion]
    dsimp only
    rw [hnumber]
    exact .bind (.throw _)

/-- A request, a blank line and a value that is no request. -/
def someLines : List String := ["\x7b\"version\": 1\x7d", "", "[]"]

/-- Whether the lines are read as what they are, and a version that is a text as that. -/
def someLinesParse : Bool :=
  match Json.parse "\x7b\"version\": 1\x7d", Json.parse "", Json.parse "[]",
    Json.parse "\x7b\"version\": \"1\"\x7d" with
  | .ok (.obj [("version", .int 1)]), .error e, .ok (.arr _), .ok (.obj [("version", .str _)]) =>
    e.missing ≠ .half
  | _, _, _, _ => false

/-- The three lines get two responses after the greeting; a version that is a text then ends the
session. -/
theorem shownPrompt_serves : ∃ s w greeting responses s' s'',
    open? shownPrompt "Kconfig" (.path "c") false none = .ok s w ∧
    Dialogue 1 someLines responses ∧ serve 1 someLines s = .ok ⟨⟩ s' ∧
    s'.journal.output = s.journal.output ++ String.join ((greeting :: responses).map frame) ∧
    answer 1 "\x7b\"version\": \"1\"\x7d" s' = .error .illTyped s'' := by
  have hchecked : passes (fun _ w => decide (w.model.choices.size = 0))
      (open? shownPrompt "Kconfig" (.path "c") false none) = true := by decide +kernel
  have hparses : someLinesParse = true := by decide +kernel
  unfold someLinesParse at hparses
  obtain ⟨s, w, hopen, hchecked⟩ := ok_of_passes hchecked
  have hsize := of_decide_eq_true hchecked
  obtain ⟨⟨options, hload⟩, -⟩ := load_of_open? hopen
  have hloop := Load.noLoop_of_load hload
  have hloopless := fun u (_ : w.model.Permits u) =>
    (Load.sound_of_load hload).loopless_of_no_choices hloop hsize u
  have hname : Files.hasNull "c" = false := by decide +kernel
  obtain ⟨⟨menus, hasChanged, warnings, answered, rest, responses, s', hlines, hdialogue, hserve,
    houtput, hrest⟩, hends⟩ := serve_answers hopen hloopless hname 1 someLines
  split at hparses
  · next e _ _ hfirst hblank hlist hlast =>
    have hwhole : e.missing ≠ .half := of_decide_eq_true hparses
    have hunderstands : ∀ line ∈ someLines, s'.UnderstandsLine line := by
      intro line hline
      refine ⟨fun e he => ?_, fun fields hfields => ?_⟩
      · rcases List.mem_cons.mp hline with rfl | hline
        · cases hfirst.symm.trans he
        · rcases List.mem_cons.mp hline with rfl | hline
          · obtain rfl := Except.error.inj (hblank.symm.trans he)
            exact hwhole
          · obtain rfl := List.mem_singleton.mp hline
            cases hlist.symm.trans he
      rcases List.mem_cons.mp hline with rfl | hline
      · obtain rfl := Json.obj.inj (Except.ok.inj (hfirst.symm.trans hfields))
        refine ⟨fun v hv => ?_, fun _ value hvalue => ?_, fun _ value hvalue => ?_⟩
        · obtain rfl := Option.some.inj hv
          exact ⟨_, rfl⟩
        · cases hvalue
        · cases hvalue
      · rcases List.mem_cons.mp hline with rfl | hline
        · cases hblank.symm.trans hfields
        · obtain rfl := List.mem_singleton.mp hline
          cases hlist.symm.trans hfields
    rcases hrest with rfl | ⟨line, more, rfl, hline, -⟩
    · rw [List.append_nil] at hlines
      subst hlines
      obtain ⟨s'', hfails⟩ := hends s' _ _ _ (by decide +kernel) hlast rfl rfl
      exact ⟨s, w, _, responses, s', s'', hopen, hdialogue, hserve, houtput, hfails⟩
    · refine absurd (hunderstands line ?_) hline
      rw [hlines]
      exact List.mem_append_right _ (List.mem_cons_self ..)
  · cases hparses

end Session
end Kconfig
