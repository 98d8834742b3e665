import Kconfig.Files.Store
/-!
What is written to a store is read again.

Writing puts a file at the normal path that a spelling leads to. The walk there goes through
directories only, and the path itself is none, so the spelling still leads there afterwards.
-/
namespace Kconfig

/-- A text that ends before the characters that are asked for is all that the file gives. -/
theorem Text.Decoded.eq_of_read {d : Decoded} {s : List Char} {n : Nat} (h : d.read n = .ok s)
    (hshort : s.length < n) : d = ⟨s, none⟩ := by
  obtain ⟨text, fault⟩ := d
  have htake : ∀ {t : List Char}, text.take n = t → t.length < n → text = t := by
    rintro _ rfl hlength
    rw [List.length_take] at hlength
    exact (List.take_of_length_le (by omega)).symm
  cases fault with
  | none => rw [htake (Except.ok.inj h) hshort]
  | some fault =>
    -- a fault behind the text would have been met
    change (if text.length < n then _ else Except.ok (text.take n)) = Except.ok s at h
    split at h
    · exact nomatch h
    · next hlong => exact absurd (htake (Except.ok.inj h) hshort ▸ hshort) hlong

/-- A path has no null character that has none seen from a directory. -/
theorem Files.hasNull_of_join {a b : String} (h : hasNull (join a b) = false) :
    hasNull b = false := by
  unfold hasNull at h ⊢
  unfold join at h
  split at h
  · exact h
  · split at h <;>
    · simp only [String.toList_append, List.contains_append, Bool.or_eq_false_iff] at h
      exact h.2

namespace Files.Store
variable {store store' : Store} {path : String} {p q : List String}

theorem enter_ok : store.enter p = .ok () ↔ store.at? p = some .directory := by
  unfold enter
  split
  · next h => exact iff_of_true rfl h
  · next content h => exact iff_of_false nofun (by rw [h]; exact nofun)
  · next h => exact iff_of_false nofun (by rw [h]; exact nofun)

/-- Where directories stay, a walk leads to the same path. -/
theorem walk_of_directories
    (hstay : ∀ d, store.at? d = some .directory → store'.at? d = some .directory) :
    ∀ (names : List String) {dir : List String}, store.walk dir names = .ok p →
      store'.walk dir names = .ok p
  | [], _, h => h
  | name :: more, dir, h => by
    rw [walk] at h ⊢
    cases henter : store.enter dir with
    | error condition =>
      rw [henter] at h
      exact nomatch h
    | ok _ =>
      rw [henter] at h
      rw [enter_ok.mpr (hstay dir (enter_ok.mp henter))]
      change (if name = "" || name = "." then store.walk dir more
        else if name = ".." then store.walk dir.dropLast more
        else store.walk (dir ++ [name]) more) = .ok p at h
      show (if name = "" || name = "." then store'.walk dir more
        else if name = ".." then store'.walk dir.dropLast more
        else store'.walk (dir ++ [name]) more) = .ok p
      split
      · next hname =>
        rw [if_pos hname] at h
        exact walk_of_directories hstay more h
      · next hname =>
        rw [if_neg hname] at h
        split
        · next hup =>
          rw [if_pos hup] at h
          exact walk_of_directories hstay more h
        · next hup =>
          rw [if_neg hup] at h
          exact walk_of_directories hstay more h

/-- A spelling leads to the same path, too. -/
theorem locate_of_directories (hwork : store'.workDir = store.workDir)
    (hstay : ∀ d, store.at? d = some .directory → store'.at? d = some .directory)
    (h : store.locate path = .ok p) : store'.locate path = .ok p := by
  unfold locate at h ⊢
  split
  · next hempty =>
    rw [if_pos hempty] at h
    exact nomatch h
  · next hempty =>
    rw [if_neg hempty] at h
    split
    · next habsolute =>
      rw [if_pos habsolute] at h
      exact walk_of_directories hstay _ h
    · next habsolute =>
      rw [if_neg habsolute] at h
      rw [hwork]
      exact walk_of_directories hstay _ h

theorem at?_set_of_ne (entry : Entry) (h : q ≠ p) : (store.set p entry).at? q = store.at? q := by
  unfold at? set
  dsimp only
  split
  · rfl
  · have hne : (q == p) = false := beq_false_of_ne h
    rw [List.lookup_cons, hne]
    dsimp only
    induction store.entries with
    | nil => rfl
    | cons e entries ih =>
      rw [List.filter_cons]
      split
      · rw [List.lookup_cons, List.lookup_cons, ih]
      · next hp =>
        have hp : e.1 = p := by simpa using hp
        rw [ih, List.lookup_cons, hp, hne]

/-- What is read is the file at the path that the spelling leads to. -/
theorem read_eq_ok {content : Content} : store.read path = .ok content ↔
    ∃ p, store.locate path = .ok p ∧ store.at? p = some (.file content) := by
  unfold read
  cases hlocate : store.locate path with
  | error condition => simp [bind, Except.bind]
  | ok p =>
    dsimp only [bind, Except.bind]
    constructor
    · intro h
      refine ⟨p, rfl, ?_⟩
      split at h
      · next hfile => rw [hfile, Except.ok.inj h]
      · cases h
      · cases h
    · rintro ⟨q, hq, hfile⟩
      obtain rfl := Except.ok.inj hq
      rw [hfile]

/-- Nothing is found under a name with a null character. -/
theorem hasNull_of_locate (h : store.locate path = .ok p) : hasNull path = false := by
  unfold locate at h
  split at h
  · exact nomatch h
  · next hname =>
    rw [Bool.or_eq_true, not_or] at hname
    exact Bool.eq_false_iff.mpr hname.2

theorem hasNull_of_read {content : Content} (h : store.read path = .ok content) :
    hasNull path = false := by
  obtain ⟨p, hlocate, -⟩ := read_eq_ok.mp h
  exact hasNull_of_locate hlocate

theorem hasNull_of_exists (h : store.exists? path = true) : hasNull path = false := by
  unfold exists? find? at h
  cases hlocate : store.locate path with
  | ok p => exact hasNull_of_locate hlocate
  | error condition =>
    rw [hlocate] at h
    exact nomatch h

/-- A path that is no directory holds the file that is put there. -/
theorem at?_set_file (content : Content) (h : store.at? p ≠ some .directory) :
    (store.set p (.file content)).at? p = some (.file content) := by
  refine at?_set_self store _ (Bool.eq_false_iff.mpr fun hprefix => h ?_)
  rw [at?, if_pos hprefix]

/-- A file that is put where no directory is leaves the directories. -/
theorem at?_set_directory (content : Content) (h : store.at? p ≠ some .directory)
    (hq : store.at? q = some .directory) :
    (store.set p (.file content)).at? q = some .directory := by
  have hne : q ≠ p := by
    rintro rfl
    exact h hq
  rw [at?_set_of_ne _ hne]
  exact hq

/-- Writing puts a file at the path that the spelling leads to. -/
theorem write_ok {content : Content} (h : store.write path content = .ok store') :
    ∃ p, store.locate path = .ok p ∧ store.at? p ≠ some .directory ∧
      store' = store.set p (.file content) := by
  unfold write at h
  cases hlocate : store.locate path with
  | error condition =>
    rw [hlocate] at h
    cases condition <;> cases h
  | ok p =>
    rw [hlocate] at h
    dsimp only [bind, Except.bind] at h
    cases henter : store.enter p.dropLast with
    | error condition =>
      rw [henter] at h
      cases h
    | ok _ =>
      rw [henter] at h
      dsimp only at h
      split at h
      · cases h
      · next hfile => exact ⟨p, rfl, hfile, (Except.ok.inj h).symm⟩

/-- What was written is read again. -/
theorem read_of_write {content : Content} (h : store.write path content = .ok store') :
    store'.read path = .ok content := by
  obtain ⟨p, hlocate, hfile, rfl⟩ := write_ok h
  have hwork : (store.set p (.file content)).workDir = store.workDir := rfl
  exact read_eq_ok.mpr ⟨p, locate_of_directories hwork
    (fun _ => at?_set_directory content hfile) hlocate, at?_set_file content hfile⟩

/-- A text can be compared with the file at a path, or there is none that can be opened. -/
def Comparable (store : Store) (path : String) : Prop :=
  hasNull path = false ∧ ∀ content, store.read path = .ok content → content.decoded.fault = none

/-- A file that is read is there. -/
theorem exists_of_read {content : Content} (h : store.read path = .ok content) :
    store.exists? path = true := by
  obtain ⟨p, hlocate, hfile⟩ := read_eq_ok.mp h
  rw [exists?, find?, hlocate]
  dsimp only
  rw [hfile]
  rfl

end Files.Store
end Kconfig
