import ScopeLint.Proofs.Checker.ImportFates
import ScopeLint.Proofs.Settings

/-! # The list of exported names that counts

A module may store its list of exported names more than once, or add to it. It is judged by the list
that was stored last. -/
namespace ScopeLint

open List

variable {cfg : Setup} {next : Nat} {scope : Scope} {b : Binding} {s t u : State}

namespace Scope

theorem undefinedExport_ne_unusedImport : Kind.undefinedExport ≠ .unusedImport :=
  fun h => absurd (congrArg Kind.number h) (by decide)

theorem unusedImport_notMem_verdict {name : Datum}
    (hlisted : Datum.among scope.exported name = true) (d : Datum) :
    .reported .unusedImport [d, name] ∉ scope.verdict cfg s := by
  intro hmem
  rcases mem_append.mp hmem with hmem | hmem
  · obtain ⟨b, -, hmem⟩ := mem_flatMap.mp hmem
    obtain ⟨name, -, heq⟩ := mem_map.mp hmem
    exact undefinedExport_ne_unusedImport (Event.reported.inj heq).1
  · obtain ⟨b, hb, heq⟩ := mem_map.mp hmem
    obtain ⟨-, hname⟩ : s.datumOf b.source = d ∧ b.name = name := by simpa using heq
    simp [leftOver, hname, hlisted] at hb

theorem undefinedExport_mem_verdict (hb : scope.exporter? = some b) {name : String} :
    (∃ d, .reported .undefinedExport [d, .text name] ∈ scope.verdict cfg s) ↔
      scope.starred = false ∧ cfg.isPackageFile = false ∧ .text name ∈ scope.exported ∧
        scope.find? (.text name) = none := by
  trans .text name ∈ scope.missing cfg
  · simp [verdict, hb, undefinedExport_ne_unusedImport.symm]
  cases hstarred : scope.starred <;> cases hfile : cfg.isPackageFile <;>
    simp [missing, hstarred, hfile, Datum.mem_distinct_text, find?, Datum.hasKey, Datum.key,
      @eq_comm _ (Datum.Key.text name)]

end Scope

namespace Check

/-- Of all closed scopes the module is judged last. -/
theorem exists_judgeScope (h : judgeDead cfg s.atEnd = .ok () u) (hscope : s.scope? 0 = some scope) :
    ∃ r, judgeScope cfg scope r = .ok () u := by
  replace h := get_bind_eq_ok.mp h
  have hdead : s.atEnd.dead.toList = s.dead.toList ++ [0] := Array.toList_push
  rw [hdead, forM_eq_forM, forM_append, forM_cons, forM_nil] at h
  obtain ⟨_, r, -, hlast⟩ := bind_apply_eq_ok.mp h
  obtain ⟨_, v, hjudge, hend⟩ := bind_apply_eq_ok.mp hlast
  cases hend
  rw [show s.atEnd.scope? 0 = some scope from hscope] at hjudge
  exact ⟨r, hjudge⟩

theorem exports_of_judgeScope {r : State} (h : judgeScope cfg scope r = .ok () u)
    (hb : scope.exporter? = some b) : ∃ names, b.exports = .ok names := by
  obtain ⟨hfind, hkind⟩ := Option.filter_eq_some_iff.mp hb
  unfold judgeScope at h
  rw [hfind] at h
  dsimp only at h
  rw [if_pos hkind] at h
  obtain ⟨names, hnames, -⟩ := lift_bind_eq_ok.mp h
  exact ⟨names, hnames⟩

/-- The module is judged by the list of exported names that was stored last: no import that it holds
is called unused, and, unless names may come from elsewhere, those of its names are reported that are
not bound. -/
theorem judged_by_last_list {later earlier : List Event} {n : Node}
    (h : run cfg (State.initial next) = .ok () t)
    (hsplit : t.history = later ++ .bound 0 (.text "__all__") n b :: earlier)
    (hlast : ∀ e ∈ later, e.ousts 0 (.text "__all__") = false) (hkind : b.kind.isExported = true) :
    ∃ scope names r u told, t.scope? 0 = some scope ∧ b.exports = .ok names ∧
      judgeScope cfg scope r = .ok () u ∧ reportRemarks cfg u = .ok () t ∧
      u.history = told ++ r.history ∧
      (∀ name, Datum.among names name = true → ∀ d, .reported .unusedImport [d, name] ∉ told) ∧
      ∀ name : String, (∃ d, .reported .undefinedExport [d, .text name] ∈ told) ↔
        scope.starred = false ∧ cfg.isPackageFile = false ∧ .text name ∈ names ∧
          scope.find? (.text name) = none := by
  obtain ⟨s, u, -, hrun, hjudge, hremarks⟩ := run_eq_ok h
  have hscopes : t.scopes = s.scopes :=
    (reportRemarks_eq_ok hremarks).1.scopes_eq.trans (told_judgeDead.ok hjudge).scopes_eq
  obtain ⟨scope, hscope, -⟩ := Option.map_eq_some_iff.mp hrun.orderly.kindOf_zero
  have hend : t.scope? 0 = some scope := by rwa [State.scope?, hscopes]
  -- the list in force is the one on record
  have hrecorded : t.Recorded := (recorded_run cfg next).ok h (State.recorded_initial next)
  have hbinding := hrecorded.binding?_eq 0 (.text "__all__")
  obtain ⟨use, hreplayed, -⟩ := exists_replayed_of_stay hlast
  rw [hsplit, hreplayed, State.binding?, hend] at hbinding
  have hb : scope.exporter? = some { b with used := use } :=
    Option.filter_eq_some_iff.mpr ⟨hbinding, hkind⟩
  obtain ⟨r, hjudge⟩ := exists_judgeScope hjudge hscope
  obtain ⟨names, hnames⟩ := exports_of_judgeScope hjudge hb
  have hexported : scope.exported = names := by simp [Scope.exported, hb, hnames, Except.toOption]
  refine ⟨scope, names, r, u, _, hend, hnames, hjudge, hremarks, (judgeScope_eq_ok hjudge).2,
    fun name hlisted d hd => ?_, fun name => ?_⟩
  · exact Scope.unusedImport_notMem_verdict (hexported ▸ hlisted) d (mem_reverse.mp hd)
  · simp only [mem_reverse]
    rw [Scope.undefinedExport_mem_verdict hb, hexported]

end Check

namespace Sample

/-- `import os`, then `os` is exported, and then nothing more. -/
def extended : Setup :=
  let listing (line : Int) (items : List Value) : Value :=
    .node ⟨0, "List", some (.of line 11), [("elts", .list items),
      ("ctx", .node ⟨0, "Load", none, []⟩)]⟩
  setup [importName 1 "os",
    .node ⟨0, "Assign", some (.of 2 0), [("targets", .list [name 2 "__all__" "Store"]),
      ("value", listing 2 [.node ⟨0, "Str", some (.of 2 12), [("s", .text "os")]⟩])]⟩,
    .node ⟨0, "AugAssign", some (.of 3 0), [("target", name 3 "__all__" "Store"),
      ("op", .node ⟨0, "Add", none, []⟩), ("value", listing 3 [])]⟩]

/-- A list of exported names is stored in the module. -/
def lists : Event → Bool
  | .bound 0 (.text "__all__") _ b => b.kind.isExported
  | _ => false

end Sample

namespace Check

open Sample

theorem judged_by_last_list_extended :
    ∃ t later earlier n b names, run extended (State.initial extended.root.size) = .ok () t ∧
      t.history = later ++ .bound 0 (.text "__all__") n b :: earlier ∧
      (∀ e ∈ later, e.ousts 0 (.text "__all__") = false) ∧ b.kind.isExported = true ∧
      b.exports = .ok names := by
  have hends : endsWith extended (fun t =>
      (t.history.dropWhile (!·.ousts 0 (.text "__all__"))).head?.any lists) = true := by
    decide +kernel
  obtain ⟨t, hrun, hany⟩ := endsWith_eq_true hends
  obtain ⟨e, he, hlists⟩ := (Option.any_eq_true _ _).mp hany
  obtain ⟨earlier, hrest⟩ := head?_eq_some_iff.mp he
  unfold lists at hlists
  split at hlists
  · rename_i n b
    have hsplit := takeWhile_append_dropWhile.symm.trans (congrArg _ hrest)
    have hlast : ∀ e ∈ t.history.takeWhile (!·.ousts 0 (.text "__all__")),
        e.ousts 0 (.text "__all__") = false := fun e he => by
      simpa using all_eq_true.mp all_takeWhile e he
    obtain ⟨_, names, _, _, _, -, hnames, -⟩ := judged_by_last_list hrun hsplit hlast hlists
    exact ⟨t, _, earlier, n, b, names, hrun, hsplit, hlast, hlists, hnames⟩
  · cases hlists

/-- The import is in the list that is assigned, not in the one that is added: it is unused. -/
theorem unusedImport_beside_added_list :
    endsWith extended (fun t => t.history.countP lists == 2 &&
      t.messages.toList.map (·.kind.number) == [Kind.unusedImport.number]) = true := by
  decide +kernel

end Check

end ScopeLint
