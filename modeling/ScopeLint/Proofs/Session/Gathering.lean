import ScopeLint.Proofs.Session.Independence

/-! # The files that a recursive check is about

A directory stands for the source files below it, each of which is told by the names that lead to it. -/
namespace ScopeLint

open List

namespace FileTree

/-- The names lead down to a file whose name is that of a source. -/
inductive HasSource : FileTree → List String → Prop where
  | file {entries : List (String × FileTree)} {name : String} {content : List UInt8} :
      (name, .file content) ∈ entries → ['.', 'p', 'y'] <:+ name.toList →
      HasSource (.directory entries) [name]
  | deeper {entries : List (String × FileTree)} {name : String} {entry : FileTree}
      {names : List String} : (name, entry) ∈ entries → HasSource entry names →
      HasSource (.directory entries) (name :: names)

/-- No directory has two entries of one name. -/
inductive Distinct : FileTree → Prop where
  | file (content : List UInt8) : Distinct (.file content)
  | directory {entries : List (String × FileTree)} : entries.Pairwise (fun a b => a.1 ≠ b.1) →
      (∀ e ∈ entries, Distinct e.2) → Distinct (.directory entries)

/-- One file may be found before another: they are not the same, and the first is not in a subdirectory
of the directory that the second is in. -/
def Ahead (p q : List String) : Prop := p ≠ q ∧ ¬(q.dropLast <+: p ∧ q.length < p.length)

/-- The source files of a tree in the order in which they are found: each once, and those of a directory
before those of its subdirectories. -/
structure Walks (t : FileTree) (places : List (List String)) : Prop where
  mem_iff : ∀ names, names ∈ places ↔ t.HasSource names
  ahead : places.Pairwise Ahead

/-- The paths that a recursive check goes through for the paths given to it. -/
inductive Gathers (t : FileTree) (cwd : String) : List String → List String → Prop where
  | nil : Gathers t cwd [] []
  | other {path : String} {rest found : List String} :
      (∀ entries, t.at? cwd path ≠ .ok (.directory entries)) → Gathers t cwd rest found →
      Gathers t cwd (path :: rest) (path :: found)
  | directory {path : String} {rest found : List String} {entries : List (String × FileTree)}
      {places : List (List String)} : t.at? cwd path = .ok (.directory entries) →
      Walks (.directory entries) places → Gathers t cwd rest found →
      Gathers t cwd (path :: rest) (places.map (fun names => names.foldl Path.join path) ++ found)

variable {t : FileTree}

def isSourceFile : String × FileTree → Bool
  | (name, .file _) => isSourceName name
  | (_, .directory _) => false

theorem isSourceFile_eq_true {e : String × FileTree} :
    isSourceFile e = true ↔ (∃ content, e.2 = .file content) ∧ ['.', 'p', 'y'] <:+ e.1.toList := by
  obtain ⟨name, content | entries⟩ := e
  · have hname : isSourceName name = true ↔ ['.', 'p', 'y'] <:+ name.toList := by
      rw [isSourceName, isPrefixOf_iff_prefix, ← reverse_prefix]
      rfl
    simpa [isSourceFile] using hname
  · simp [isSourceFile]

mutual

/-- The source files of a tree by the names that lead to them. -/
def places : FileTree → List (List String)
  | .file _ => []
  | .directory entries =>
    (entries.filter isSourceFile).map (fun e => [e.1]) ++ placesUnder entries

def placesUnder : List (String × FileTree) → List (List String)
  | [] => []
  | (name, entry) :: rest => (places entry).map (name :: ·) ++ placesUnder rest

end

theorem placesUnder_eq (entries : List (String × FileTree)) :
    placesUnder entries = entries.flatMap fun e => e.2.places.map (e.1 :: ·) := by
  induction entries with
  | nil => rfl
  | cons e rest ih => rw [placesUnder, ih, flatMap_cons]

theorem sourcesAmong_eq (path : String) (entries : List (String × FileTree)) :
    sourcesAmong path entries = (entries.filter isSourceFile).map fun e => Path.join path e.1 := by
  fun_induction sourcesAmong path entries with
  | case1 => rfl
  | case2 name content rest hname ih => simp [isSourceFile, hname, ih]
  | case3 name content rest hname ih => simp [isSourceFile, hname, ih]
  | case4 name below rest ih => simp [isSourceFile, ih]

theorem sourcesUnder_eq (path : String) (entries : List (String × FileTree)) :
    sourcesUnder path entries =
      entries.flatMap fun e => sourcesBelow (Path.join path e.1) e.2 := by
  induction entries with
  | nil => rfl
  | cons e rest ih => rw [sourcesUnder, ih, flatMap_cons]

/-- What is found below a path are the places of the tree, seen from there. -/
theorem Distinct.sourcesBelow_eq (h : t.Distinct) (path : String) :
    sourcesBelow path t = t.places.map fun names => names.foldl Path.join path := by
  induction h generalizing path with
  | file content => rfl
  | @directory entries _ _ ih =>
    rw [sourcesBelow, places, sourcesAmong_eq, sourcesUnder_eq, placesUnder_eq, map_append, map_map,
      map_flatMap]
    congr 1
    refine flatMap_congr fun e he => ?_
    rw [ih e he, map_map]
    rfl

theorem Distinct.mem_places_iff (h : t.Distinct) (names : List String) :
    names ∈ t.places ↔ t.HasSource names := by
  induction h generalizing names with
  | file content =>
    rw [places]
    exact ⟨fun h => (by cases h), fun h => (by cases h)⟩
  | @directory entries _ _ ih =>
    rw [places, placesUnder_eq, mem_append, mem_map, mem_flatMap]
    constructor
    · rintro (⟨⟨name, entry⟩, he, rfl⟩ | ⟨⟨name, entry⟩, he, hnames⟩)
      · obtain ⟨hmem, hsource⟩ := mem_filter.mp he
        obtain ⟨⟨content, rfl⟩, hname⟩ := isSourceFile_eq_true.mp hsource
        exact .file hmem hname
      · obtain ⟨more, hmore, rfl⟩ := mem_map.mp hnames
        exact .deeper he ((ih _ he more).mp hmore)
    · intro h
      cases h with
      | file hmem hname =>
        refine .inl ⟨_, mem_filter.mpr ⟨hmem, ?_⟩, rfl⟩
        exact isSourceFile_eq_true.mpr ⟨⟨_, rfl⟩, hname⟩
      | deeper hmem hnames =>
        exact .inr ⟨_, hmem, mem_map_of_mem ((ih _ hmem _).mpr hnames)⟩

theorem HasSource.ne_nil {names : List String} (h : t.HasSource names) : names ≠ [] := by
  cases h <;> simp

theorem Ahead.cons {p q : List String} (h : Ahead p q) (hq : q ≠ []) (name : String) :
    Ahead (name :: p) (name :: q) := by
  refine ⟨by simpa using h.1, ?_⟩
  rw [dropLast_cons_of_ne_nil hq, cons_prefix_cons]
  simpa using h.2

theorem ahead_of_ne {m n : String} (hne : m ≠ n) (p : List String) {q : List String} (hq : q ≠ []) :
    Ahead (m :: p) (n :: q) := by
  refine ⟨by simp [hne], ?_⟩
  rw [dropLast_cons_of_ne_nil hq, cons_prefix_cons]
  exact fun h => hne h.1.1.symm

/-- A file of the directory itself comes before any other that is not found yet. -/
theorem ahead_of_singleton {name : String} {q : List String} (hq : q ≠ []) (hne : [name] ≠ q) :
    Ahead [name] q := by
  refine ⟨hne, fun h => ?_⟩
  have hlength := length_pos_of_ne_nil hq
  have hlt : q.length < 1 := h.2
  omega

theorem Distinct.pairwise_places (h : t.Distinct) : t.places.Pairwise Ahead := by
  induction h with
  | file content => exact .nil
  | @directory entries hnames hentries ih =>
    have hne {e : String × FileTree} (he : e ∈ entries) {names : List String}
        (hmem : names ∈ e.2.places) : names ≠ [] :=
      (((hentries e he).mem_places_iff names).mp hmem).ne_nil
    rw [places, placesUnder_eq, pairwise_append, pairwise_map, pairwise_flatMap]
    refine ⟨?_, ⟨fun e he => ?_, ?_⟩, ?_⟩
    · refine (hnames.filter isSourceFile).imp fun {a b} hab => ?_
      exact ahead_of_singleton (by simp) (by simpa using hab)
    · rw [pairwise_map]
      exact (ih e he).imp_of_mem fun {p q} _ hq hpq => hpq.cons (hne he hq) e.1
    · refine hnames.imp_of_mem fun {a b} _ hb hab p hp q hq => ?_
      obtain ⟨more, -, rfl⟩ := mem_map.mp hp
      obtain ⟨names, hmem, rfl⟩ := mem_map.mp hq
      exact ahead_of_ne hab more (hne hb hmem)
    · intro p hp q hq
      obtain ⟨e, -, rfl⟩ := mem_map.mp hp
      obtain ⟨a, ha, hplace⟩ := mem_flatMap.mp hq
      obtain ⟨names, hmem, rfl⟩ := mem_map.mp hplace
      refine ahead_of_singleton (by simp) fun heq => hne ha hmem ?_
      exact (cons.inj heq).2.symm

theorem Distinct.of_find? (h : t.Distinct) {names : List String} {entry : FileTree}
    (hentry : t.find? names = some entry) : entry.Distinct := by
  induction names generalizing t with
  | nil =>
    cases hentry
    exact h
  | cons name rest ih =>
    cases h with
    | file content => cases hentry
    | directory _ hentries =>
      rw [find?] at hentry
      split at hentry
      · rename_i below hlookup
        obtain ⟨front, back, rfl, -⟩ := lookup_eq_some_iff.mp hlookup
        exact ih (hentries (name, below) (by simp)) hentry
      · cases hentry

theorem Distinct.of_at? (h : t.Distinct) {cwd path : String} {entry : FileTree}
    (hentry : t.at? cwd path = .ok entry) : entry.Distinct := by
  unfold at? at hentry
  split at hentry
  · cases hentry
  · split at hentry
    · cases hentry
    · obtain ⟨names, -, hentry⟩ := bind_eq_ok.mp hentry
      split at hentry
      · rename_i hfind
        exact h.of_find? (Except.ok.inj hentry ▸ hfind)
      · cases hentry

/-- In a tree without two entries of one name, all that is found below the paths is gathered. -/
theorem gathers_sources (h : t.Distinct) (cwd : String) (paths : List String) :
    t.Gathers cwd paths (t.sources cwd paths) := by
  induction paths with
  | nil => exact .nil
  | cons path rest ih =>
    rw [sources, flatMap_cons, ← sources]
    split
    · rename_i entries hentries
      have hdistinct := h.of_at? hentries
      rw [hdistinct.sourcesBelow_eq]
      exact .directory hentries ⟨hdistinct.mem_places_iff, hdistinct.pairwise_places⟩ ih
    · rename_i hother
      exact .other hother ih

end FileTree

namespace Work

variable {host : Host} {given : Datum}

/-- Without a directory given, a file takes the settings of its own. -/
theorem checkFile_of_not_truthy (h : given.truthy = false) (path : String) :
    checkFile host path given = checkFile host path .null := by
  have hpath (filename : Datum) : settingsPath host filename given =
      settingsPath host filename .null := by
    unfold settingsPath
    rw [h]
    rfl
  funext overrides
  simp only [checkFile, check, hpath]

/-- A recursive check is a check of each file that is found, one after another, under the settings of
the file's own directory. What directory is given makes no difference; so where none is given, the
checks are those that the caller would make. -/
theorem checkAll_eq_checkEach_gathered (host : Host) (paths : List String) (given : Datum)
    (overrides : Settings) (s : Session) (hdistinct : s.files.Distinct)
    (hallowed : ∀ e ∈ overrides, e.1 ∉ "paths" :: reservedOverrides) :
    ∃ found, s.files.Gathers host.cwd paths found ∧
      checkAll host paths given overrides s =
        checkEach (fun path => checkFile host path .null) found overrides s ∧
      (given.truthy = false → checkAll host paths given overrides s =
        checkEach (fun path => checkFile host path given) found overrides s) := by
  have hall : checkAll host paths given overrides s = checkEach
      (fun path => checkFile host path .null) (s.files.sources host.cwd paths) overrides s := by
    have hnone : (overrides.any fun e => (["paths"] ++ reservedOverrides).contains e.1) = false := by
      rw [any_eq_false]
      intro e he
      simpa using hallowed e he
    simp only [checkAll, checkOverrides, hnone]
    rfl
  refine ⟨_, FileTree.gathers_sources hdistinct host.cwd paths, hall, fun hgiven => ?_⟩
  simp only [checkFile_of_not_truthy hgiven]
  exact hall

end Work

namespace Call.Example

/-- A source beside a directory with a configuration by which unused imports are ignored. -/
def besideStrict : FileTree :=
  .directory [("p", .directory [
    ("a.py", .file ("import os\n".toList.map (·.toNat.toUInt8))),
    ("strict", .directory [(".frosted.cfg",
      .file ("[settings]\nignore_frosted_errors = E101\n".toList.map (·.toNat.toUInt8)))])])]

theorem distinct_besideStrict : besideStrict.Distinct := by
  refine .directory (by decide) fun e he => ?_
  obtain rfl := mem_singleton.mp he
  refine .directory (by decide) fun e he => ?_
  rcases mem_pair.mp he with rfl | rfl
  · exact .file _
  · refine .directory (by decide) fun e he => ?_
    obtain rfl := mem_singleton.mp he
    exact .file _

end Call.Example

namespace Work

open Call.Example in
theorem checkAll_eq_checkEach_gathered_here :
    ∃ found, besideStrict.Gathers host.cwd [".", "strict"] found ∧
      checkAll host [".", "strict"] (.text "") [] (Session.initial besideStrict) =
        checkEach (fun path => checkFile host path .null) found [] (Session.initial besideStrict) ∧
      checkAll host [".", "strict"] (.text "") [] (Session.initial besideStrict) =
        checkEach (fun path => checkFile host path (.text "")) found []
          (Session.initial besideStrict) := by
  obtain ⟨found, hfound, hnull, hgiven⟩ := checkAll_eq_checkEach_gathered host [".", "strict"]
    (.text "") [] (Session.initial besideStrict) distinct_besideStrict (fun e he => by cases he)
  exact ⟨found, hfound, hnull, hgiven (by decide)⟩

open Call.Example in
/-- With a directory given, the check of the file itself finds nothing to tell of, and the recursive
check does. -/
theorem count_beside_given_directory :
    besideStrict.Gathers host.cwd ["a.py"] ["a.py"] ∧
      (outcome (checkAll host ["a.py"] (.text "strict") [])
        (Session.initial besideStrict)).1.toOption.map Prod.fst = some 1 ∧
      (outcome (checkEach (fun path => checkFile host path (.text "strict")) ["a.py"] [])
        (Session.initial besideStrict)).1.toOption.map Prod.fst = some 0 := by
  refine ⟨.other (fun entries h => ?_) .nil, by decide +kernel, by decide +kernel⟩
  have hfile : (besideStrict.at? host.cwd "a.py").toOption.any
      (fun entry => FileTree.isSourceFile ("a.py", entry)) = true := by decide +kernel
  rw [h] at hfile
  cases hfile

end Work

end ScopeLint
