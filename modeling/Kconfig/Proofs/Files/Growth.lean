import Kconfig.Proofs.Action
import Kconfig.Proofs.Files.Store
import Kconfig.Reading.Workspace
/-!
What could be read can still be read.

Where a spelling leads is settled by its names and the working directory; whether it leads there
hangs on the directories. Commands of the small language write files and nothing else, so the
directories stay, and so does every file that there was, though perhaps with another content.
-/
namespace Kconfig
namespace Files

theorem resolveDots_cons (start : List String) (name : String) (names : List String) :
    resolveDots start (name :: names) =
      if name = "" ∨ name = "." then resolveDots start names
      else if name = ".." then resolveDots start.dropLast names
      else resolveDots (start ++ [name]) names := by
  simp only [resolveDots, List.foldl_cons, Bool.or_eq_true, decide_eq_true_eq]
  split
  · rfl
  · split <;> rfl

/-- The text before the first slash of a path from the root is empty. -/
theorem resolveDots_names {path : String} (h : isAbsolute path = true) (start : List String) :
    resolveDots start ((names path).drop 1) = resolveDots start (names path) := by
  obtain ⟨s, hs⟩ : ∃ s, path.toList = '/' :: s := by
    unfold isAbsolute at h
    cases hpath : path.toList with
    | nil =>
      rw [hpath] at h
      exact nomatch h
    | cons c s =>
      rw [hpath] at h
      obtain rfl : c = '/' := by simpa using h
      exact ⟨s, rfl⟩
  have hnames : names path = "" :: (pieces '/' s).map String.ofList := by
    rw [names, hs, pieces, if_pos rfl]
    rfl
  rw [hnames, resolveDots_cons, if_pos (.inl rfl)]
  rfl

namespace Store
variable {store store' : Store} {path : String} {p : List String}

/-- A walk leads where its names say. -/
theorem walk_eq (names : List String) {dir : List String} (h : store.walk dir names = .ok p) :
    p = resolveDots dir names := by
  induction names generalizing dir with
  | nil => exact (Except.ok.inj h).symm
  | cons name more ih =>
    rw [walk] at h
    cases henter : store.enter dir with
    | error condition =>
      rw [henter] at h
      cases h
    | ok _ =>
      rw [henter] at h
      change (if name = "" || name = "." then store.walk dir more
        else if name = ".." then store.walk dir.dropLast more
        else store.walk (dir ++ [name]) more) = .ok p at h
      rw [resolveDots_cons]
      simp only [Bool.or_eq_true, decide_eq_true_eq] at h
      split
      · next hname =>
        rw [if_pos hname] at h
        exact ih h
      · next hname =>
        rw [if_neg hname] at h
        split
        · next hup =>
          rw [if_pos hup] at h
          exact ih h
        · next hup =>
          rw [if_neg hup] at h
          exact ih h

/-- A spelling leads to its normal path, if it leads anywhere. -/
theorem locate_eq (h : store.locate path = .ok p) : p = absoluteNames store.workDir path := by
  unfold locate at h
  unfold absoluteNames
  split at h
  · exact nomatch h
  · split at h
    · next habsolute =>
      rw [if_pos habsolute, ← resolveDots_names habsolute]
      exact walk_eq _ h
    · next habsolute =>
      rw [if_neg habsolute]
      exact walk_eq _ h

/-- What stands at the path of a file is an entry of the store. -/
theorem mem_entries_of_file {content : Content} (h : store.at? p = some (.file content)) :
    p ∈ store.entries.map (·.1) := by
  unfold at? at h
  split at h
  · exact nomatch h
  · obtain ⟨before, after, hentries, -⟩ := List.lookup_eq_some_iff.mp h
    rw [hentries, List.map_append, List.map_cons]
    exact List.mem_append_right _ List.mem_cons_self

/-- A file can be read. -/
def Readable (store : Store) (path : String) : Prop := ∃ content, store.read path = .ok content

/-- What can be read in a store can be read in the other one. -/
structure Grows (store store' : Store) : Prop where
  workDir : store'.workDir = store.workDir
  readable : ∀ path, store.Readable path → store'.Readable path

instance : Onward Grows where
  refl _ := ⟨rfl, fun _ h => h⟩
  trans h h' := ⟨h'.workDir.trans h.workDir, fun path hpath => h'.readable path (h.readable path hpath)⟩

/-- Writing leaves every file, though perhaps with another content. -/
theorem Grows.write {content : Content} (h : store.write path content = .ok store') :
    store.Grows store' := by
  obtain ⟨p, -, hfile, rfl⟩ := write_ok h
  have hwork : (store.set p (.file content)).workDir = store.workDir := rfl
  refine ⟨hwork, fun other hother => ?_⟩
  obtain ⟨old, hold⟩ := hother
  obtain ⟨q, hlocate, hq⟩ := read_eq_ok.mp hold
  have hlocate' := locate_of_directories hwork (fun _ => at?_set_directory content hfile) hlocate
  by_cases hsame : q = p
  · subst hsame
    exact ⟨content, read_eq_ok.mpr ⟨q, hlocate', at?_set_file content hfile⟩⟩
  · exact ⟨old, read_eq_ok.mpr ⟨q, hlocate', (at?_set_of_ne _ hsame).trans hq⟩⟩

end Store
end Files

/-! ### Command lines -/

namespace Shell
open Files.Store

theorem grows_send (st : State) (sink : Sink) (data : List UInt8) :
    st.store.Grows (st.send sink data).store := by
  unfold State.send
  split
  · exact Onward.refl _
  · exact Onward.refl _
  · exact Onward.refl _
  · dsimp only
    split
    · next hwrite => exact .write hwrite
    · exact Onward.refl _

theorem grows_command (st : State) (out err : Sink) (args : List (List Char)) :
    st.store.Grows (command st out err args).store := by
  unfold command
  split
  · exact Onward.refl _
  · split
    · exact grows_send _ _ _
    · exact grows_send _ _ _
    · exact Onward.refl _
    · exact Onward.refl _
    · exact Onward.refl _
    · exact Onward.refl _
    · exact grows_send _ _ _

/-- The state after the file that a redirection leads to is emptied. -/
def emptied (st : State) : Direction → Sink → State
  | .write, .file path =>
    match st.store.write path (.text "") with
    | .ok store => { st with store }
    | .error _ => st
  | _, _ => st

theorem grows_emptied (st : State) (direction : Direction) (sink : Sink) :
    st.store.Grows (emptied st direction sink).store := by
  unfold emptied
  split
  · split
    · next hwrite => exact .write hwrite
    · exact Onward.refl _
  · exact Onward.refl _

theorem grows_redirected (value : String → String) : ∀ (rs : List Redirect) (st : State)
    (out err : Sink), st.store.Grows (redirected value st out err rs).1.store
  | [], _, _, _ => Onward.refl _
  | r :: rs, st, out, err => by
    rw [redirected]
    split
    · exact Onward.trans (grows_emptied _ _ _) (grows_redirected value rs _ _ _)
    · split
      · exact Onward.trans (grows_emptied _ _ _) (grows_redirected value rs _ _ _)
      · exact Onward.trans (grows_emptied _ _ _) (grows_redirected value rs _ _ _)

theorem grows_exec (env : String → Option String) : ∀ (script : Script) (out err : Sink)
    (st : State), st.store.Grows (script.exec env out err st).store
  | .nothing, _, _, _ => Onward.refl _
  | .run words redirects, out, err, st => by
    rw [Script.exec]
    split
    · exact Onward.refl _
    · exact Onward.trans (grows_redirected _ _ _ _ _) (grows_command _ _ _ _)
  | .subshell body redirects, out, err, st => by
    rw [Script.exec]
    split
    · exact Onward.refl _
    · exact Onward.trans (grows_redirected _ _ _ _ _) (grows_exec env body _ _ _)
  | .both a b, out, err, st => by
    rw [Script.exec]
    split
    · exact Onward.trans (grows_exec env a _ _ _) (grows_exec env b _ _ _)
    · exact grows_exec env a _ _ _
  | .either a b, out, err, st => by
    rw [Script.exec]
    split
    · exact grows_exec env a _ _ _
    · exact Onward.trans (grows_exec env a _ _ _) (grows_exec env b _ _ _)
  | .inTurn a b, out, err, st => by
    rw [Script.exec]
    exact Onward.trans (grows_exec env a _ _ _) (grows_exec env b _ _ _)

/-- A command line leaves every file that there was. -/
theorem grows_runLine (env : String → Option String) (store : Files.Store) (line : String) :
    store.Grows (runLine env store line).store := by
  unfold runLine
  split
  · exact grows_exec env _ _ _ { store }
  · exact Onward.refl _

/-- The commands of the shell leave what can be read. -/
def LeavesFiles (shell : Shell) : Prop :=
  ∀ (env : String → Option String) (store : Files.Store) (line : String),
    store.Grows (shell.run env store line).store

theorem leavesFiles_small : Shell.small.LeavesFiles := grows_runLine

end Shell

/-- The shell stays, and if it leaves what can be read, that can still be read. -/
structure Host.Grows (host host' : Host) : Prop where
  shell : host'.shell = host.shell
  files : host.shell.LeavesFiles → host.files.Grows host'.files

instance : Onward Host.Grows where
  refl _ := ⟨rfl, fun _ => Onward.refl _⟩
  trans h h' := ⟨h'.shell.trans h.shell,
    fun hleaves => Onward.trans (h.files hleaves) (h'.files (h.shell.symm ▸ hleaves))⟩

/-- A command runs. -/
theorem Host.Grows.run (host : Host) (line : String) :
    host.Grows { host with files := (host.shell.run host.lookup? host.files line).store } :=
  ⟨rfl, fun hleaves => hleaves _ _ _⟩

end Kconfig
