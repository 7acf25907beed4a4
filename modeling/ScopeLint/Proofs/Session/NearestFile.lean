import Mathlib.Logic.Function.Iterate
import ScopeLint.Proofs.PathNames
import ScopeLint.Proofs.Session.Configured

/-! # The nearest configuration file

A configuration file is looked for in the path and in the directories above it, up to a certain
number of them. The nearest one is read and no other; one in the home directory counts only where
there is none. -/
namespace ScopeLint

open List

namespace Path

/-- The slashes that a path starts with: nothing for a relative path, the root for an absolute one. -/
def root (path : String) : String := String.ofList (path.toList.takeWhile (· == '/'))

theorem takeWhile_dropSlashes (cs : List Char) :
    (dropSlashes cs).takeWhile (· == '/') = cs.takeWhile (· == '/') := by
  rcases dropSlashes_cases cs with ⟨-, h⟩ | ⟨front, c, k, hc, hcs, h⟩
  · rw [h]
  · rw [h, hcs]
    simp [takeWhile_append, hc]

/-- The directory of a path has the root of the path, and it is shorter unless the path is a root. -/
theorem directory_cases (path : String) : root (directory path) = root path ∧
    ((directory path).length < path.length ∨ directory path = path ∧ root path = path) := by
  obtain ⟨head, tail, hcut, hcs, hslash, hhead⟩ := exists_cut path.toList
  have hdirectory : directory path = String.ofList (dropSlashes head) := by
    rw [directory, splitLast, hcut]
  have hroot : path.toList.takeWhile (· == '/') = head.takeWhile (· == '/') := by
    have htail : tail.takeWhile (· == '/') = [] := by
      cases tail with
      | nil => rfl
      | cons c rest => exact takeWhile_cons_of_neg fun h => hslash (by simp_all)
    rw [hcs, takeWhile_append, htail, append_nil]
    split
    · have hstart : head.takeWhile (· == '/') <+: head := takeWhile_prefix _
      exact (hstart.eq_of_length ‹_›).symm
    · rfl
  rw [hdirectory, root, root, String.toList_ofList, takeWhile_dropSlashes, hroot]
  refine ⟨rfl, ?_⟩
  rw [String.length_ofList, ← String.length_toList]
  by_cases hempty : tail = []
  · rw [hempty, append_nil] at hcs
    rcases dropSlashes_cases head with ⟨hall, h⟩ | ⟨front, c, k, hc, hfront, h⟩
    · right
      rw [h, ← append_nil head, takeWhile_append_of_pos (by simpa using hall),
        append_nil, ← hcs, String.ofList_toList]
      exact ⟨rfl, by simp⟩
    · left
      rw [h, hcs, hfront]
      cases k with
      | zero =>
        rcases hhead with rfl | ⟨more, rfl⟩
        · simp at hfront
        · exact absurd (by simpa using (append_inj' hfront rfl).2.symm) hc
      | succ k => simp
  · exact .inl (length_parent_lt hcut hempty)

theorem directory_iterate {path : String} {k : Nat} (h : path.length ≤ k) :
    directory^[k] path = root path := by
  induction k generalizing path with
  | zero =>
    obtain rfl : path = "" := by simpa using h
    rfl
  | succ k ih =>
    obtain ⟨hroot, hshort | ⟨hsame, hwhole⟩⟩ := directory_cases path
    · rw [Function.iterate_succ_apply, ih (by omega), hroot]
    · rw [Function.iterate_fixed hsame, hwhole]

end Path

namespace ConfigSource

variable {depth : Nat} {path dir : String} {p : String → Bool}

theorem directory_iterate_empty (k : Nat) : Path.directory^[k] "" = "" :=
  Function.iterate_fixed (by decide) k

theorem mem_chain : dir ∈ chain depth path ↔
    ∃ k < depth, Path.directory^[k] path = dir ∧ dir ≠ "" := by
  induction depth generalizing path with
  | zero => simp [chain]
  | succ depth ih =>
    rw [chain]
    split
    · rename_i hempty
      simp only [hempty, directory_iterate_empty]
      simp
    · rename_i hne
      rw [mem_cons, ih]
      constructor
      · rintro (rfl | ⟨k, hk, hdir⟩)
        · exact ⟨0, by omega, rfl, hne⟩
        · exact ⟨k + 1, by omega, hdir⟩
      · rintro ⟨_ | k, hk, hdir⟩
        · exact .inl hdir.1.symm
        · exact .inr ⟨k, by omega, hdir⟩

theorem find?_chain : (chain depth path).find? p = some dir ↔
    ∃ k < depth, Path.directory^[k] path = dir ∧ dir ≠ "" ∧ p dir = true ∧
      ∀ j < k, p (Path.directory^[j] path) = false := by
  induction depth generalizing path with
  | zero => simp [chain]
  | succ depth ih =>
    rw [chain]
    split
    · rename_i hempty
      refine ⟨nofun, ?_⟩
      rintro ⟨k, -, rfl, hne, -⟩
      exact absurd (hempty ▸ directory_iterate_empty k) hne
    · rename_i hne
      rw [find?_cons]
      cases hp : p path with
      | true =>
        constructor
        · rintro ⟨⟩
          exact ⟨0, by omega, rfl, hne, hp, nofun⟩
        · rintro ⟨_ | k, -, rfl, -, -, hbefore⟩
          · rfl
          · exact absurd (hp.symm.trans (hbefore 0 (by omega))) (by decide)
      | false =>
        rw [ih]
        constructor
        · rintro ⟨k, hk, hdir, hne', hpdir, hbefore⟩
          refine ⟨k + 1, by omega, hdir, hne', hpdir, fun j hj => ?_⟩
          cases j with
          | zero => exact hp
          | succ j => exact hbefore j (by omega)
        · rintro ⟨_ | k, hk, rfl, hne', hpdir, hbefore⟩
          · exact absurd (hp.symm.trans hpdir) Bool.false_ne_true
          · exact ⟨k, by omega, rfl, hne', hpdir, fun j hj => hbefore (j + 1) (by omega)⟩

/-- Whether a directory has a file of the name. -/
def isIn (source : ConfigSource) (host : Host) (files : FileTree) (dir : String) : Bool :=
  files.exists? host.cwd (Path.join dir source.name)

/-- The file that counts for a path: the one in the nearest of the directories, or the fallback with its
tilde expanded where none of them has one. -/
inductive Nearest (source : ConfigSource) (host : Host) (files : FileTree) (path : String) :
    String → Prop where
  | above (k : Nat) (hk : k < 25) (hne : Path.directory^[k] path ≠ "")
    (hfile : source.isIn host files (Path.directory^[k] path) = true)
    (hnearer : ∀ j < k, source.isIn host files (Path.directory^[j] path) = false) :
    Nearest source host files path (Path.join (Path.directory^[k] path) source.name)
  | home (hnone : ∀ k < 25, Path.directory^[k] path ≠ "" →
      source.isIn host files (Path.directory^[k] path) = false)
    {fallback : String} (hhome : source.fallback = some fallback)
    (hfile : files.exists? host.cwd (Path.expandHome host.home host.users fallback) = true) :
    Nearest source host files path (Path.expandHome host.home host.users fallback)

variable {source : ConfigSource} {host : Host} {files : FileTree} {file : String}

theorem find?_eq_some : source.find? host files path = some file ↔
    source.Nearest host files path file := by
  have hchain : ((chain searchDepth path).map (Path.join · source.name)).find?
      (files.exists? host.cwd) =
        ((chain searchDepth path).find? (source.isIn host files)).map (Path.join · source.name) :=
    find?_map
  rw [find?, candidates, find?_append, hchain]
  constructor
  · intro h
    cases hfind : (chain searchDepth path).find? (source.isIn host files) with
    | some dir =>
      obtain ⟨k, hk, rfl, hne, hfile, hnearer⟩ := find?_chain.mp hfind
      rw [hfind] at h
      cases h
      exact .above k hk hne hfile hnearer
    | none =>
      rw [hfind] at h
      cases hhome : source.fallback with
      | none => simp [hhome] at h
      | some fallback =>
        have hmem := mem_of_find?_eq_some (by simpa using h)
        obtain rfl : Path.expandHome host.home host.users fallback = file := by
          simpa [hhome, eq_comm] using hmem
        refine .home (fun k hk hne => ?_) hhome (by simpa using find?_some (by simpa using h))
        simpa using find?_eq_none.mp hfind _ (mem_chain.mpr ⟨k, hk, rfl, hne⟩)
  · rintro (⟨k, hk, hne, hfile, hnearer⟩ | ⟨hnone, hhome, hfile⟩)
    · have hfind := find?_chain.mpr ⟨k, hk, rfl, hne, hfile, hnearer⟩
      rw [searchDepth, hfind]
      rfl
    · have hfind : (chain searchDepth path).find? (source.isIn host files) = none := by
        refine find?_eq_none.mpr fun dir hdir => ?_
        obtain ⟨k, hk, rfl, hne⟩ := mem_chain.mp hdir
        simp [hnone k hk hne]
      simp [hfind, hhome, hfile]

end ConfigSource

/-- The nearest configuration file is read and no other, and without one the settings stay as they are.
Where the options of the file have been kept, these are taken and no file is read. The directories
above a path end at nothing if it is relative, and at the root if it is absolute. -/
theorem Work.configureFrom_reads_nearest (host : Host) (path : String) (settings : Settings)
    (source : ConfigSource) (s : Session) :
    ((∃ file, source.Nearest host s.files path file ∧
        (∀ other, source.Nearest host s.files path other → other = file) ∧
        configureFrom host path settings source s =
          (do return settings.applyOptions s.ignored (← optionsIn host source file)) s ∧
        ∃ kept, optionsIn host source file s =
          finish ((s.optionsRead.find? (file, source.sections)).elim
            (source.optionsAt host s.files file) .ok) { s with optionsRead := kept }) ∨
      ((∀ file, ¬ source.Nearest host s.files path file) ∧
        configureFrom host path settings source s = .ok settings s)) ∧
    (∀ k, path.length ≤ k → Path.directory^[k] path = Path.root path) ∧
    (Path.isAbsolute path = true ↔ Path.root path ≠ "") := by
  refine ⟨?_, fun k hk => Path.directory_iterate hk, ?_⟩
  · rw [configureFrom, bind_apply, get_apply]
    dsimp only
    cases hfind : source.find? host s.files path with
    | none =>
      refine .inr ⟨fun file hfile => ?_, rfl⟩
      cases hfind.symm.trans (ConfigSource.find?_eq_some.mpr hfile)
    | some file =>
      obtain ⟨kept, hoptions, -⟩ := optionsIn_apply host source file s
      refine .inl ⟨file, ConfigSource.find?_eq_some.mp hfind, fun other hother => ?_, rfl, kept,
        hoptions⟩
      exact Option.some.inj ((ConfigSource.find?_eq_some.mpr hother).symm.trans hfind)
  · rw [Path.isAbsolute, Path.root]
    cases path.toList with
    | nil => simp
    | cons c rest => by_cases hc : c = '/' <;> simp [hc, ← String.toList_inj]

namespace ConfigSource

def Example.host : Host :=
  ⟨"/", "/h", [], .threeFour, false, true, true, .ofTable [], fun _ => [], fun _ _ => .failure "" ""⟩

/-- For a path of 25 names, the directory below the root is the last one that is looked at. -/
example : (chain searchDepth (String.ofList (replicate 25 ['/', 'a']).flatten)).getLast? =
    some "/a" := by
  decide +kernel

/-- The file in the root is shadowed by a nearer one. -/
example : let root := ("setup.cfg", FileTree.file [])
    find? ⟨"setup.cfg", none, ["frosted"], false⟩ Example.host
      (.directory [root, ("p", .directory [root])]) "/p/q" = some "/p/setup.cfg" := by
  decide +kernel

end ConfigSource

end ScopeLint
