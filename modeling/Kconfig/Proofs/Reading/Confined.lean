import Kconfig.Macro.Expand
import Kconfig.Proofs.Files.Growth
import Kconfig.Proofs.Lists
import Kconfig.Reading.Statement
/-!
Expanding macros stays at its line, and ends.

A line that is read neither enters a file nor leaves one: where reading stands, the settings and the
files that can be read are the same afterwards, and new nodes stand at the line that is read. What
fails meanwhile fails for a reason of its own, speaks of that line, and leaves the variables as they
were, but that expansions which have begun do not end any more. Macros cannot go on for ever: every
expansion inside another one raises the number of those that have begun by one, no variable is
expanded more than `maxNesting + 1` times inside itself, and `depthLimit` is more than all variables
allow together.
-/
namespace Kconfig

/-- The failure has nothing to do with how files include each other, nor with how values depend on
each other. -/
def Failure.IsLocal : Failure → Prop
  | .endless | .fatal (.recursiveSource ..) | .fatal (.dependencyLoop _) => False
  | _ => True

/-- The line that a failure speaks of. -/
def Failure.spot? : Failure → Option Spot
  | .fatal (.badLine spot _) | .fatal (.sourceNotFound spot _ _) | .fatal (.recursiveSource spot _ _)
  | .fatal (.stated spot _) | .fatal (.argumentCount spot _ _ _) | .fatal (.undecodableMacro spot _)
  | .sourceFile _ _ spot => some spot
  | _ => none

/-- The failure speaks of no line, nor of what goes round. -/
def Failure.IsGeneral (failure : Failure) : Prop := failure.IsLocal ∧ failure.spot? = none

/-! ### Places -/

/-- Where something stands: the lines that include each other, the file, and the line in it. -/
structure Site where
  includes : List (String × Nat)
  file : String
  line : Nat
  deriving DecidableEq, Repr

def MenuNode.site (node : MenuNode) : Site := ⟨node.includes, node.file, node.line⟩

/-- The names of the files on the way to a site: those that include each other, and its own. -/
def Site.trail (site : Site) : List String := site.includes.map (·.1) ++ [site.file]

/-- The names of the files on the way to a node: those that include each other, and its own. -/
def MenuNode.trail (node : MenuNode) : List String := node.includes.map (·.1) ++ [node.file]

/-- The names of the files on the way to the line that is read. -/
def Place.trail (place : Place) : List String :=
  place.includes.map (·.1) ++ [place.spot.file.getD ""]

namespace Macro

/-- The variables with more expansions of them begun. -/
def raise (extra : Nat → Nat) (macros : Array Variable) : Array Variable :=
  macros.mapIdx fun i v => { v with active := v.active + extra i }

/-- The variables as they were, but that more expansions of them may have begun. -/
def Left (before after : Array Variable) : Prop := ∃ extra, after = raise extra before

theorem raise_zero (macros : Array Variable) : raise (fun _ => 0) macros = macros :=
  Array.ext (Array.size_mapIdx ..) fun _ h _ => Array.getElem_mapIdx h

theorem raise_raise (extra extra' : Nat → Nat) (macros : Array Variable) :
    raise extra' (raise extra macros) = raise (fun i => extra i + extra' i) macros := by
  refine Array.ext (by simp [raise]) fun i h _ => ?_
  simp [raise, Nat.add_assoc]

theorem Left.refl (macros : Array Variable) : Left macros macros := ⟨_, (raise_zero macros).symm⟩

theorem Left.trans {before between after : Array Variable} (h : Left before between)
    (h' : Left between after) : Left before after := by
  obtain ⟨extra, rfl⟩ := h
  obtain ⟨extra', rfl⟩ := h'
  exact ⟨_, raise_raise extra extra' before⟩

end Macro

/-- What stays as it is while a line is read: where reading stands, the files that can be read, and
how many nodes there are already and where they stand. -/
structure Scene where
  settings : Settings
  includes : List (String × Nat)
  file : Option String
  line : Nat
  host : Host
  count : Nat
  sites : NodeId → Site → Prop

/-- The line of the scene. -/
def Scene.site (scene : Scene) : Site := ⟨scene.includes, scene.file.getD "", scene.line⟩

/-- The nodes are those of the scene, where they stood, and new ones at its line. -/
structure Scene.Grown (scene : Scene) (nodes : Array MenuNode) : Prop where
  count : scene.count ≤ nodes.size
  site : ∀ n node, nodes[n]? = some node →
    (scene.count ≤ n ∧ node.site = scene.site) ∨ scene.sites n node.site

/-- Reading is still in the scene; `M` says what the macro variables are like. -/
structure Scene.Holds (scene : Scene) (M : Array Variable → Prop) (w : Workspace) : Prop where
  settings : w.settings = scene.settings
  includes : w.place.includes = scene.includes
  file : w.place.spot.file = scene.file
  line : w.place.spot.line = scene.line
  host : scene.host.Grows w.host
  nodes : scene.Grown w.model.nodes
  macros : M w.macros

/-- The scene of the line that is read. -/
def Workspace.scene (w : Workspace) : Scene where
  settings := w.settings
  includes := w.place.includes
  file := w.place.spot.file
  line := w.place.spot.line
  host := w.host
  count := w.model.nodes.size
  sites n site := ∃ node, w.model.nodes[n]? = some node ∧ node.site = site

/-- The failure is one of the line of the scene. -/
structure Scene.Fails (scene : Scene) (M : Array Variable → Prop) (failure : Failure)
    (w : Workspace) : Prop where
  isLocal : failure.IsLocal
  here : ∀ spot, failure.spot? = some spot → spot.file = scene.file ∧ spot.line = scene.line
  left : ∃ macros, M macros ∧ Macro.Left macros w.macros

/-- The failure is an error with words, or that there is no file to name. -/
def Scene.Admits (scene : Scene) (failure : Failure) : Prop :=
  (∃ error, failure = .fatal error) ∨ failure = .illTyped ∧ scene.file = none

/-- The action stays in the scene, or fails at its line. -/
abbrev Confined (scene : Scene) (M : Array Variable → Prop) {α : Type} (action : Reading α) :
    Prop := Guards (scene.Holds M) (scene.Fails M) action

/-- So does the expansion of macros, whose failures have words. -/
abbrev Contained (scene : Scene) (M : Array Variable → Prop) {α : Type} (action : Reading α) :
    Prop := Guards (scene.Holds M)
      (fun failure w => scene.Fails M failure w ∧ scene.Admits failure) action

variable {scene : Scene} {M : Array Variable → Prop} {α β : Type}

theorem Contained.confined {action : Reading α} (h : Contained scene M action) :
    Confined scene M action := fun w hw => (h w hw).mono (fun _ _ h => h) fun _ _ h => h.1

theorem Workspace.holds_scene {w : Workspace} (hM : M w.macros) : w.scene.Holds M w :=
  ⟨rfl, rfl, rfl, rfl, Onward.refl _, ⟨Nat.le_refl _, fun _ node hnode => .inr ⟨node, hnode, rfl⟩⟩,
    hM⟩

/-- What was left begun before counts as left begun. -/
theorem Scene.Fails.leave {M' : Array Variable → Prop} {failure : Failure} {w : Workspace}
    (h : scene.Fails M failure w)
    (hM : ∀ macros, M macros → ∃ before, M' before ∧ Macro.Left before macros) :
    scene.Fails M' failure w := by
  obtain ⟨macros, hmacros, hleft⟩ := h.left
  obtain ⟨before, hbefore, hbegun⟩ := hM macros hmacros
  exact ⟨h.isLocal, h.here, before, hbefore, hbegun.trans hleft⟩

namespace Scene.Holds
variable {w w' : Workspace}

theorem congr (h : scene.Holds M w) (hsettings : w'.settings = w.settings)
    (hplace : w'.place = w.place) (hhost : w'.host = w.host)
    (hnodes : w'.model.nodes = w.model.nodes) (hmacros : w'.macros = w.macros) :
    scene.Holds M w' :=
  ⟨hsettings.trans h.settings, hplace ▸ h.includes, hplace ▸ h.file, hplace ▸ h.line,
    hhost ▸ h.host, hnodes ▸ h.nodes, hmacros ▸ h.macros⟩

theorem mono {M' : Array Variable → Prop} (h : scene.Holds M w) (hM : M w.macros → M' w.macros) :
    scene.Holds M' w :=
  ⟨h.settings, h.includes, h.file, h.line, h.host, h.nodes, hM h.macros⟩

/-- What fails in the scene and speaks of no other line fails at its line. -/
theorem fails (h : scene.Holds M w) {failure : Failure} (hlocal : failure.IsLocal)
    (hspot : ∀ spot, failure.spot? = some spot → spot = w.place.spot) :
    scene.Fails M failure w := by
  refine ⟨hlocal, fun spot hsome => ?_, _, h.macros, .refl _⟩
  rw [hspot spot hsome]
  exact ⟨h.file, h.line⟩

end Scene.Holds

namespace Reading

theorem meets_fatal (error : Fatal) {w : Workspace} (hw : scene.Holds M w)
    (hlocal : (Failure.fatal error).IsLocal)
    (hspot : ∀ spot, (Failure.fatal error).spot? = some spot → spot = w.place.spot)
    {Q : α → Workspace → Prop} : Meets (fatal error : Reading α) w Q
      fun failure w' => scene.Fails M failure w' ∧ scene.Admits failure :=
  .throw ⟨hw.fails hlocal hspot, .inl ⟨error, rfl⟩⟩

theorem meets_problem (p : Problem) {w : Workspace} (hw : scene.Holds M w)
    {Q : α → Workspace → Prop} : Meets (problem p : Reading α) w Q
      fun failure w' => scene.Fails M failure w' ∧ scene.Admits failure :=
  .bind_get (meets_fatal (.badLine _ p) hw trivial fun _ h => (Option.some.inj h).symm)

theorem contained_problem (p : Problem) : Contained scene M (problem p : Reading α) :=
  fun _ hw => meets_problem p hw

theorem confined_problem (p : Problem) : Confined scene M (problem p : Reading α) :=
  (contained_problem p).confined

/-- An error that speaks of no line. -/
theorem confined_fatal {error : Fatal} (hlocal : (Failure.fatal error).IsLocal)
    (hspot : (Failure.fatal error).spot? = none) : Confined scene M (fatal error : Reading α) :=
  .throw fun _ hw => hw.fails hlocal fun _ h => nomatch hspot.symm.trans h

theorem guards_warn {F : Failure → Workspace → Prop} (warning : Warning) :
    Guards (scene.Holds M) F (warn warning) := .update fun _ h => h.congr rfl rfl rfl rfl rfl

theorem guards_warnHere {F : Failure → Workspace → Prop} (warning : Warning) :
    Guards (scene.Holds M) F (warnHere warning) := .update fun _ h => h.congr rfl rfl rfl rfl rfl

theorem contained_useVariable? (name : String) : Contained scene M (useVariable? name) := by
  refine .bind .get fun w => ?_
  split
  · refine .bind (.update fun w h => ?_) fun _ => .pure _
    split
    · exact h
    · exact h.congr rfl rfl rfl rfl rfl
  · exact .pure _

theorem confined_expandEnv (text : List Char) : Confined scene M (expandEnv text) :=
  .bind .get fun _ => .pure _

theorem confined_beginLine (line : List Char) : Confined scene M (beginLine line) := by
  refine .bind (.update fun _ h => ⟨h.settings, h.includes, h.file, h.line, h.host, h.nodes,
    h.macros⟩) fun _ => ?_
  unfold noteRemark
  split
  · exact .pure _
  all_goals
    refine .update fun w h => ?_
    split
    · exact h
    · exact h.congr rfl rfl rfl rfl rfl

end Reading

namespace Macro
open Reading

/-! ### Functions -/

theorem contained_decodeOutput (bytes : List UInt8) : Contained scene M (decodeOutput bytes) := by
  unfold decodeOutput
  split
  · exact .pure _
  · exact .bind_get fun w hw =>
      meets_fatal (.undecodableMacro _ _) hw trivial fun _ h => (Option.some.inj h).symm

/-- A command may write files. -/
theorem contained_runShell (command : List Char) : Contained scene M (runShell command) := by
  refine .get_set (fun w h => ?_) fun w => ?_
  · exact ⟨h.settings, h.includes, h.file, h.line, Onward.trans h.host (Host.Grows.run _ _),
      h.nodes, h.macros⟩
  · refine .bind (contained_decodeOutput _) fun out => .bind (contained_decodeOutput _) fun err => ?_
    exact .ite (.pure _) (.bind (guards_warnHere _) fun _ => .pure _)

theorem contained_builtin (args : List (List Char)) (f : Builtin) :
    Contained scene M (f.call args) := by
  refine .bind_get fun w hw => ?_
  have hstated : ∀ message, Meets (fatal (.stated w.place.spot message) : Reading (List Char)) w
      (fun _ => scene.Holds M) fun failure w' => scene.Fails M failure w' ∧ scene.Admits failure :=
    fun message => meets_fatal (.stated _ _) hw trivial fun _ h => (Option.some.inj h).symm
  dsimp only
  split
  · exact Guards.bind (.update fun _ h => h.congr rfl rfl rfl rfl rfl) (fun _ => .pure _) w hw
  · split
    · exact hstated _
    · exact .pure hw
  · exact Guards.ite (.bind (guards_warnHere _) fun _ => .pure _) (.pure _) w hw
  · split
    · exact .pure hw
    · next hfile =>
      exact .throw ⟨hw.fails trivial nofun, .inr ⟨rfl, hw.file.symm.trans hfile⟩⟩
  · exact .pure hw
  · exact contained_runShell _ w hw
  · exact hstated _

theorem contained_callFunction (name : String) (args : List (List Char)) :
    Contained scene M (callFunction name args) := by
  unfold callFunction
  split
  · exact .ite (contained_builtin _ _) (.bind_get fun w hw =>
      meets_fatal (.argumentCount _ _ _ _) hw trivial fun _ h => (Option.some.inj h).symm)
  · exact .bind (contained_useVariable? _) fun _ => .pure _

section
variable {call : List (List Char) → Reading (List Char)} {outer : List (List Char)}

mutual

theorem contained_expandPiece (h : ∀ args, Contained scene M (call args)) :
    ∀ p : Piece, Contained scene M (expandPiece call outer p)
  | .char _ => .pure _
  | .call args closed => by
    rw [expandPiece]
    refine .bind (contained_expandArgs h args) fun args => .ite ?_ (contained_problem _)
    split
    · exact .pure _
    · exact h args

theorem contained_expandArgs (h : ∀ args, Contained scene M (call args)) :
    ∀ args : List (List Piece), Contained scene M (expandArgs call outer args)
  | [] => .pure _
  | arg :: more => by
    rw [expandArgs]
    exact .bind (contained_expandPieces h arg) fun _ =>
      .bind (contained_expandArgs h more) fun _ => .pure _

theorem contained_expandPieces (h : ∀ args, Contained scene M (call args)) :
    ∀ ps : List Piece, Contained scene M (expandPieces call outer ps)
  | [] => .pure _
  | p :: more => by
    rw [expandPieces]
    exact .bind (contained_expandPiece h p) fun _ =>
      .bind (contained_expandPieces h more) fun _ => .pure _

end
end

/-! ### Variables -/

/-- How many expansions inside each other the variables still allow. -/
def allowance (macros : Array Variable) : Nat :=
  (macros.toList.map fun v => maxNesting + 1 - v.active).sum

/-- No expansion has begun. -/
def Idle (macros : Array Variable) : Prop := ∀ v ∈ macros, v.active = 0

/-- The variables while one more expansion of one of them goes on. -/
abbrev begun (index : Nat) (macros : Array Variable) : Array Variable :=
  macros.modify index fun v => { v with active := v.active + 1 }

theorem allowance_lt (macros : Array Variable) : allowance macros < depthLimit macros.size := by
  have hle : ∀ xs : List Variable, (xs.map fun v => maxNesting + 1 - v.active).sum ≤
      (maxNesting + 1) * xs.length := by
    intro xs
    induction xs with
    | nil => exact Nat.le_refl _
    | cons v xs ih =>
      rw [List.map_cons, List.sum_cons, List.length_cons, Nat.mul_succ]
      omega
  exact Nat.lt_succ_of_le (hle macros.toList)

/-- An expansion that is allowed uses up one of those that are. -/
theorem allowance_begun {macros : Array Variable} {index : Nat} (hlt : index < macros.size)
    (hle : macros[index].active ≤ maxNesting) :
    allowance (begun index macros) + 1 = allowance macros := by
  have hsum := Lists.sum_map_modify (fun v : Variable => { v with active := v.active + 1 })
    (fun v => maxNesting + 1 - v.active) (show index < macros.toList.length from hlt)
  rw [Array.getElem_toList] at hsum
  dsimp only at hsum
  rw [allowance, allowance, Array.toList_modify]
  omega

/-- To begin an expansion is to raise one count. -/
theorem begun_eq_raise (index : Nat) (macros : Array Variable) :
    begun index macros = raise (fun i => if index = i then 1 else 0) macros := by
  refine Array.ext (by simp [raise]) fun i h _ => ?_
  rw [Array.getElem_modify]
  simp only [raise, Array.getElem_mapIdx]
  split <;> rfl

/-- The end of an expansion takes back what its beginning did. -/
theorem modify_begun (index : Nat) (macros : Array Variable) :
    ((begun index macros).modify index fun v => { v with active := v.active - 1 }) = macros := by
  refine Array.toList_inj.mp ?_
  rw [Array.toList_modify, Array.toList_modify, List.modify_modify_eq]
  exact List.modify_id index macros.toList

/-- Counting changes the number of a variable's expansions and nothing else. -/
theorem meets_countActive {macros macros' : Array Variable} {index : Nat} {f : Nat → Nat}
    {w : Workspace} {F : Failure → Workspace → Prop} (hw : scene.Holds (· = macros) w)
    (h : (macros.modify index fun v => { v with active := f v.active }) = macros') :
    Meets (countActive index f) w (fun _ => scene.Holds (· = macros')) F := by
  have hmacros := hw.macros
  subst hmacros h
  exact Meets.update ⟨hw.settings, hw.includes, hw.file, hw.line, hw.host, hw.nodes, rfl⟩

/-- With the depth that is left after the expansions that are allowed, a macro has a value, and all
that it began has ended, or it fails. -/
theorem contained_callAt : ∀ (depth : Nat) {macros : Array Variable}, allowance macros < depth →
    ∀ args : List (List Char), Contained scene (· = macros) (callAt depth args)
  | 0, _, h, _ => absurd h (Nat.not_lt_zero _)
  | depth + 1, macros, h, args => by
    refine .bind_get fun w hw => ?_
    have hmacros := hw.macros
    subst hmacros
    dsimp only
    cases hindex : variableIndex? w (String.ofList (args.headD [])) with
    | none => exact contained_callFunction _ _ w hw
    | some index =>
      obtain ⟨hlt, -, -⟩ := Array.findIdx?_eq_some_iff_getElem.mp hindex
      have hexpand : ∀ value : List Char, w.macros[index].active ≤ maxNesting → Meets (do
          countActive index (· + 1)
          let value ← expandPieces (callAt depth) args (template value)
          countActive index (· - 1)
          pure value : Reading (List Char)) w (fun _ => scene.Holds (· = w.macros))
          fun failure w' => scene.Fails (· = w.macros) failure w' ∧ scene.Admits failure := by
        intro value hle
        have hallowance := allowance_begun hlt hle
        refine (meets_countActive hw (show _ = begun index w.macros from rfl)).bind fun _ w₁ hw₁ => ?_
        refine .bind ((contained_expandPieces (contained_callAt depth (by omega)) _ w₁ hw₁).mono
          (fun _ _ h => h) fun failure w' hfails => ⟨hfails.1.leave ?_, hfails.2⟩) fun _ w₂ hw₂ => ?_
        · rintro _ rfl
          exact ⟨_, rfl, _, begun_eq_raise index w.macros⟩
        · exact (meets_countActive hw₂ (modify_begun index w.macros)).bind fun _ _ hw₃ => hw₃
      dsimp only
      rw [Array.getElem?_eq_getElem hlt, Option.getD_some]
      split
      · split
        · exact (meets_problem _ hw).bind fun _ _ => False.elim
        · next hactive => exact hexpand _ (by omega)
      · split
        · exact (meets_problem _ hw).bind fun _ _ => False.elim
        · next hactive => exact hexpand _ (by omega)

/-! ### Texts and assignments -/

/-- A macro has a value, or fails. -/
theorem contained_call (args : List (List Char)) : Contained scene M (call args) := by
  refine .bind_get fun w hw => ?_
  have hhere : scene.Holds (· = w.macros) w := hw.mono fun _ => rfl
  have hcall := contained_callAt _ (allowance_lt w.macros) args w hhere
  refine hcall.mono (fun _ w' hw' => hw'.mono fun hmacros => hmacros ▸ hw.macros) fun failure w' h =>
    ⟨h.1.leave ?_, h.2⟩
  rintro _ rfl
  exact ⟨_, hw.macros, .refl _⟩

theorem contained_expand (pieces : List Piece) : Contained scene M (expand pieces) :=
  contained_expandPieces contained_call _

theorem contained_expandText (s : List Char) : Contained scene M (expandText s) :=
  contained_expand _

theorem contained_readName (s : List Char) : Contained scene M (readName s) := by
  unfold readName
  dsimp only
  refine .bind (contained_expand _) fun name => ?_
  exact .ite (.bind (contained_problem _) fun _ => .pure _) (.pure _)

theorem contained_readString (quote : Char) (s : List Char) :
    Contained scene M (readString quote s) := by
  unfold readString
  dsimp only
  refine .bind (contained_expand _) fun text => ?_
  split
  · exact .pure _
  · exact contained_problem _

theorem Idle.modify {macros : Array Variable} (h : Idle macros) (index : Nat)
    {f : Variable → Variable} (hf : ∀ v, (f v).active = v.active) :
    Idle (macros.modify index f) := by
  intro v hv
  rcases Lists.mem_modify hv with hv | ⟨u, hu, rfl⟩
  · exact h v hv
  · rw [hf]
    exact h u (Array.mem_of_getElem? hu)

theorem contained_giveValue (index : Nat) (op : Assignment) (value : List Char) :
    Contained scene Idle (giveValue index op value) := by
  have hupdate : ∀ f : Variable → Variable, (∀ v, (f v).active = v.active) →
      Contained scene Idle (modify fun (w : Workspace) =>
        { w with macros := w.macros.modify index f } : Reading Unit) := fun f hf =>
    .update fun _ h =>
      ⟨h.settings, h.includes, h.file, h.line, h.host, h.nodes, h.macros.modify _ hf⟩
  cases op with
  | recursive => exact hupdate _ fun _ => rfl
  | immediate =>
    exact .bind (hupdate _ fun _ => rfl) fun _ => .bind (contained_expandText _) fun _ =>
      hupdate _ fun _ => rfl
  | append =>
    refine .bind .get fun _ => .ite (.bind (.pure _) fun _ => hupdate _ fun _ => rfl) ?_
    exact .bind (contained_expandText _) fun _ => hupdate _ fun _ => rfl

/-- No expansion of a new variable has begun. -/
theorem contained_assign (name : String) (op : Assignment) (value : List Char) :
    Contained scene Idle (assign name op value) := by
  refine .bind_get fun w hw => ?_
  split
  · exact contained_giveValue _ _ _ w hw
  · have hnew : Idle (w.macros.push { name }) := by
      intro v hv
      rcases Array.mem_push.mp hv with hv | rfl
      · exact hw.macros v hv
      · rfl
    exact contained_giveValue _ _ _ _
      ⟨hw.settings, hw.includes, hw.file, hw.line, hw.host, hw.nodes, hnew⟩

theorem contained_readAssignment (line : List Char) :
    Contained scene Idle (readAssignment line) := by
  unfold readAssignment
  dsimp only
  refine .bind (contained_expand _) fun name => .ite (.pure _) ?_
  split
  · exact contained_problem _
  · exact contained_assign _ _ _

end Macro
end Kconfig
