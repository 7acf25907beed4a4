import ScopeLint.Proofs.Checker.Recorded

/-! # The end of a run

When a run gets through, every scope that it opened has been closed, and every closed scope has been
judged: its unused imports are reported, unless they are exported. -/
namespace ScopeLint

open List Check

variable {cfg : Setup} {s t : State} {next : Nat} {kinds : List Kind} {scope : Scope}

/-- Whatever has been opened in between is closed. -/
structure State.Closes (s t : State) : Prop where
  dead_mono : ∀ id ∈ s.dead, id ∈ t.dead
  closed : ∀ id, s.scopes.size ≤ id → id < t.scopes.size → id ∈ t.dead

namespace State

variable {u : State}

theorem Closes.of_eq (hsize : t.scopes.size = s.scopes.size) (hdead : t.dead = s.dead) :
    s.Closes t := by
  refine ⟨fun id hid => by rwa [hdead], fun id hle hlt => ?_⟩
  omega

theorem Closes.trans (h : s.Closes t) (k : t.Closes u) : s.Closes u := by
  refine ⟨fun id hid => k.dead_mono id (h.dead_mono id hid), fun id hle hlt => ?_⟩
  rcases Nat.lt_or_ge id t.scopes.size with ht | ht
  · exact k.dead_mono id (h.closed id hle ht)
  · exact k.closed id ht hlt

theorem Alike.closes (h : s.Alike t) : s.Closes t := .of_eq h.size_eq h.dead_eq

theorem Closes.inScope {kind : ScopeKind} {id : ScopeId} {rest : List ScopeId}
    (h : (s.opened kind).Closes t) (hstack : t.stack = s.scopes.size :: s.stack)
    (hpop : t.stack = id :: rest) : s.Closes (t.closed id rest) := by
  obtain ⟨rfl, -⟩ := cons.inj (hstack.symm.trans hpop)
  refine ⟨fun id hid => ?_, fun id hle hlt => ?_⟩
  · exact Array.mem_push_of_mem _ (h.dead_mono id hid)
  · rcases Nat.eq_or_lt_of_le hle with rfl | hgt
    · exact Array.mem_push_self
    · refine Array.mem_push_of_mem _ (h.closed id ?_ hlt)
      have hsize : (s.opened kind).scopes.size = s.scopes.size + 1 := by simp [opened]
      omega

end State

theorem Course.closes {n : Node} {vs : List Value} (h : Course cfg n vs s t) : s.Closes t :=
  h.induces (fun _ => .of_eq rfl rfl) .trans State.Alike.closes
    (fun _ hc h => h.inScope hc.level.stack_eq hc.level.stack_eq) (fun h => ⟨h.dead_mono, h.closed⟩)
    (fun _ _ => .of_eq rfl rfl) (fun _ _ h => ⟨h.dead_mono, h.closed⟩)

section Runs

variable {q : Queue}

theorem Examples.closes (h : Examples cfg s t) : s.Closes t :=
  h.induces (fun _ => .of_eq rfl rfl) .trans (·.alike.closes) (fun _ _ _ => .of_eq rfl rfl)
    Course.closes fun _ _ => .of_eq rfl rfl

theorem Stroke.closes (h : Stroke cfg q s t) : s.Closes t := by
  have hresumed (i : Nat) (d : Deferred) : s.Closes (s.resumed q i d) := .of_eq rfl rfl
  cases h with
  | @body r u v _ i d n names _ _ hparameters hcourse hfinish hpop =>
    have halike := (mild_bindParameters cfg n names).ok hparameters
    obtain ⟨top, _, entries, -, -, rfl⟩ := finishBody_eq_ok hfinish
    obtain ⟨id, rest, hstack, rfl⟩ := popScope_eq_ok hpop
    have hfinished : u.Closes (u.finished n top entries (cfg.verdicts n)) := .of_eq rfl rfl
    have hinside := (halike.closes.trans hcourse.closes).trans hfinished
    refine (hresumed i d).trans (hinside.inScope ?_ hstack)
    exact hcourse.level.stack_eq.trans halike.stack_eq
  | @doctests u _ i d _ h hp =>
    obtain ⟨id, rest, hstack, rfl⟩ := popScope_eq_ok hp
    exact (hresumed i d).trans (h.closes.inScope h.stack_eq hstack)
  | idle _ => exact hresumed _ _
  | verdict _ _ h => exact (hresumed _ _).trans h.alike.closes

theorem Run.closed_of_pos (h : Run cfg next s) (id : ScopeId) (hpos : 0 < id)
    (hid : id < s.scopes.size) : id ∈ s.dead := by
  have hcloses : (State.initial next).Closes s := by
    clear hid
    induction h with
    | start => exact .of_eq rfl rfl
    | walk h => exact h.closes
    | stroke _ h ih => exact ih.trans h.closes
    | @close s _ ih =>
      have hclose : s.Closes { s with functions := none } := .of_eq rfl rfl
      exact ih.trans hclose
  exact hcloses.closed id hpos hid

end Runs

namespace State

def atEnd (s : State) : State :=
  { s with assignments := none, stack := [], dead := s.dead.push 0 }

end State

namespace Check

theorem run_eq_ok (h : run cfg (State.initial next) = .ok () t) :
    ∃ s u, passes cfg (visit cfg) (State.initial next) = .ok () s ∧ Run cfg next s ∧
      judgeDead cfg s.atEnd = .ok () u ∧ reportRemarks cfg u = .ok () t := by
  obtain ⟨_, s, hpasses, hrest⟩ := bind_apply_eq_ok.mp h
  have hrun : Run cfg next s := by
    rw [← visitUntil_never] at hpasses
    exact run_of_passes hpasses
  obtain ⟨-, inner, hstack, -⟩ := hrun.orderly.stack_based
  obtain ⟨_, s₁, hclose, hrest⟩ := bind_apply_eq_ok.mp hrest
  obtain ⟨_, s₂, hpop, hrest⟩ := bind_apply_eq_ok.mp hrest
  obtain ⟨_, u, hjudge, hremarks⟩ := bind_apply_eq_ok.mp hrest
  cases hclose
  obtain ⟨id, rest, hid, rfl⟩ := popScope_eq_ok hpop
  have hlast : s.stack.getLast?.toList = [0] := by simp [hstack]
  obtain ⟨rfl, rfl⟩ : 0 = id ∧ [] = rest := cons.inj (hlast.symm.trans hid)
  exact ⟨s, u, hpasses, hrun, hjudge, hremarks⟩

end Check

namespace Scope

/-- The list of exported names that is in force. -/
def exporter? (scope : Scope) : Option Binding :=
  (scope.find? (.text "__all__")).filter (·.kind.isExported)

def exported (scope : Scope) : List Datum :=
  scope.exporter?.elim [] fun b => b.exports.toOption.getD []

/-- Exported names that are not bound. Where names come from elsewhere, they do not count. -/
def missing (cfg : Setup) (scope : Scope) : List Datum :=
  if !scope.starred && !cfg.isPackageFile then
    (Datum.distinct scope.exported).filter fun name => !scope.entries.any fun e => name.hasKey e.key
  else []

def leftOver (scope : Scope) : List Binding :=
  scope.bindings.filter fun b => b.isUnusedImport && !Datum.among scope.exported b.name

/-- What is said about the scope once it is closed. -/
def verdict (cfg : Setup) (scope : Scope) (s : State) : List Event :=
  (scope.exporter?.toList.flatMap fun b =>
    (scope.missing cfg).map fun name => .reported .undefinedExport [s.datumOf b.source, name]) ++
  scope.leftOver.map fun b => .reported .unusedImport [s.datumOf b.source, b.name]

/-- Whether the list of exported names in the scope holds the name. -/
def Exports (scope : Scope) (name : Datum) : Prop :=
  ∃ b names, scope.find? (.text "__all__") = some b ∧ b.kind.isExported = true ∧
    b.exports = .ok names ∧ Datum.among names name = true

theorem exports_of_among {name : Datum} (h : Datum.among scope.exported name = true) :
    scope.Exports name := by
  unfold exported at h
  cases hb : scope.exporter? with
  | none =>
    rw [hb] at h
    cases h
  | some b =>
    obtain ⟨hfind, hkind⟩ := Option.filter_eq_some_iff.mp hb
    rw [hb] at h
    cases hnames : b.exports with
    | error e =>
      simp only [Option.elim_some, hnames] at h
      cases h
    | ok names =>
      simp only [Option.elim_some, hnames] at h
      exact ⟨b, names, hfind, hkind, hnames, h⟩

end Scope

/-- It has been said that what `n` imports under the name is not used. -/
def ToldUnused (h : List Event) (n : Node) (name : Datum) : Prop :=
  ∃ d, .reported .unusedImport [d, name] ∈ h ∧ d.IsOf n

namespace State

theorem Says.history_subset (h : s.Says kinds t) : s.history ⊆ t.history := by
  obtain ⟨es, hes, -⟩ := h.notes
  rw [hes]
  exact subset_append_right _ _

theorem Says.datumOf_eq (h : s.Says kinds t) : t.datumOf = s.datumOf := by
  funext v
  unfold datumOf position?
  rw [h.frame]

end State

namespace Check

/-- Reports of one kind about one thing after the other. -/
theorem forM_report_eq_ok {α : Type} {k : Kind} {subject : α → Value} {name : α → Datum} {xs : List α}
    (h : (xs.forM fun a => report cfg k (subject a) [name a]) s = .ok () t) :
    s.Says [k] t ∧ t.history =
      (xs.map fun a => .reported k [s.datumOf (subject a), name a]).reverse ++ s.history := by
  induction xs generalizing s with
  | nil =>
    cases h
    exact ⟨.refl _, rfl⟩
  | cons x rest ih =>
    obtain ⟨_, t₁, hfirst, hrest⟩ := bind_apply_eq_ok.mp h
    have hspeech : s.Says [k] t₁ := (told_report (mem_singleton.mpr rfl) _ _).ok hfirst
    obtain ⟨hrestSpeech, hhistory⟩ := ih hrest
    refine ⟨hspeech.trans hrestSpeech, ?_⟩
    rw [hhistory, report_eq_ok hfirst, hspeech.datumOf_eq]
    simp

theorem reportExports_eq_ok {b : Binding} {names : List Datum} (hb : scope.exporter? = some b)
    (hnames : b.exports = .ok names) (h : reportExports cfg scope b names s = .ok () t) :
    s.Says [.undefinedExport] t ∧ t.history =
      ((scope.missing cfg).map fun name =>
        .reported .undefinedExport [s.datumOf b.source, name]).reverse ++ s.history := by
  have hexported : scope.exported = names := by simp [Scope.exported, hb, hnames, Except.toOption]
  unfold reportExports at h
  rw [Scope.missing, hexported]
  split at h
  · rename_i hcond
    rw [if_pos hcond]
    obtain ⟨found, hfound, h⟩ := lift_bind_eq_ok.mp h
    obtain rfl : Datum.distinct names = found := by
      unfold Datum.setOf at hfound
      cases hkeys : names.mapM Datum.key with
      | error e =>
        rw [hkeys] at hfound
        cases hfound
      | ok keys =>
        rw [hkeys] at hfound
        exact Except.ok.inj hfound
    exact forM_report_eq_ok h
  · rename_i hcond
    rw [if_neg hcond]
    cases h
    exact ⟨.refl _, rfl⟩

theorem judgeScope_eq_ok (h : judgeScope cfg scope s = .ok () t) :
    s.Says judged t ∧ t.history = (scope.verdict cfg s).reverse ++ s.history := by
  refine ⟨(told_judgeScope scope).ok h, ?_⟩
  -- without a list in force, nothing is exported
  have hnone (hb : scope.exporter? = none) (hrest : ((scope.bindings.filter fun b =>
      b.isUnusedImport && !Datum.among [] b.name).forM fun b =>
        report cfg .unusedImport b.source [b.name]) s = .ok () t) :
      t.history = (scope.verdict cfg s).reverse ++ s.history := by
    rw [(forM_report_eq_ok hrest).2]
    simp [Scope.verdict, Scope.leftOver, Scope.exported, hb]
  unfold judgeScope at h
  dsimp only at h
  cases hall : scope.find? (.text "__all__") with
  | none =>
    rw [hall] at h
    exact hnone (by simp [Scope.exporter?, hall]) h
  | some b =>
    rw [hall] at h
    dsimp only at h
    split at h
    · rename_i hkind
      obtain ⟨names, hnames, h⟩ := lift_bind_eq_ok.mp h
      obtain ⟨_, r, hexports, h⟩ := bind_apply_eq_ok.mp h
      have hb : scope.exporter? = some b := by simp [Scope.exporter?, hall, hkind]
      obtain ⟨hspeech, hhistory⟩ := reportExports_eq_ok hb hnames hexports
      have hexported : scope.exported = names := by
        simp [Scope.exported, hb, hnames, Except.toOption]
      rw [(forM_report_eq_ok h).2, hhistory, hspeech.datumOf_eq]
      simp [Scope.verdict, Scope.leftOver, hexported, hb]
    · rename_i hkind
      exact hnone (by simp [Scope.exporter?, hall, hkind]) h

/-- The scopes are those in `s`, and so are the places of nodes. -/
private theorem forM_judgeScope_eq_ok {ids : List ScopeId} {r : State} (hplace : r.datumOf = s.datumOf)
    (h : (ids.forM fun id => match s.scope? id with
      | some scope => judgeScope cfg scope
      | none => return) r = .ok () t) :
    t.history = ((ids.filterMap s.scope?).flatMap (·.verdict cfg s)).reverse ++ r.history := by
  induction ids generalizing r with
  | nil =>
    cases h
    rfl
  | cons id rest ih =>
    obtain ⟨_, u, hfirst, hrest⟩ := bind_apply_eq_ok.mp h
    dsimp only at hfirst
    cases hscope : s.scope? id with
    | none =>
      rw [hscope] at hfirst
      cases hfirst
      simpa [hscope] using ih hplace hrest
    | some scope =>
      rw [hscope] at hfirst
      obtain ⟨hspeech, hhistory⟩ := judgeScope_eq_ok hfirst
      have hverdict : scope.verdict cfg r = scope.verdict cfg s := by
        simp only [Scope.verdict, hplace]
      rw [ih (hspeech.datumOf_eq.trans hplace) hrest, hhistory, hverdict]
      simp [hscope]

/-- What is said about the closed scopes, one after the other. -/
theorem judgeDead_eq_ok (h : judgeDead cfg s = .ok () t) : t.history =
    ((s.dead.toList.filterMap s.scope?).flatMap (·.verdict cfg s)).reverse ++ s.history := by
  replace h := get_bind_eq_ok.mp h
  exact forM_judgeScope_eq_ok rfl h

end Check

/-- What further checkers have said, all in all. Without a file they are not asked. -/
def Setup.remarked (cfg : Setup) : List Remark :=
  if cfg.filename = noFile then [] else cfg.remarks.flatMap fun said => said.toOption.getD []

def Remark.event (r : Remark) : Event := .reported r.kind r.args

namespace Check

theorem reportAll_eq_ok {remarks : List Remark} (hk : ∀ r ∈ remarks, r.kind ∈ kinds)
    (h : (remarks.forM fun r => reportWith cfg r.kind r.args r.named) s = .ok () t) :
    s.Says kinds t ∧ t.history = (remarks.map Remark.event).reverse ++ s.history := by
  induction remarks generalizing s with
  | nil =>
    cases h
    exact ⟨.refl _, rfl⟩
  | cons r rest ih =>
    obtain ⟨_, t₁, hfirst, hrest⟩ := bind_apply_eq_ok.mp h
    obtain ⟨hspeech, hhistory⟩ := ih (fun a ha => hk a (mem_cons_of_mem _ ha)) hrest
    have hr := (speaks_reportWith cfg (hk r mem_cons_self) r.args r.named).ok hfirst
    refine ⟨hr.trans hspeech, ?_⟩
    rw [hhistory, reportWith_eq_ok hfirst]
    simp [Remark.event]

/-- Checkers that are heard one after the other, if none of them fails. -/
private theorem forM_flatMap_eq_ok {g : Remark → Check Unit}
    {remarks : List (Except Fault (List Remark))}
    (h : (remarks.forM fun said => do (← lift said).forM g) s = .ok () t) :
    (remarks.flatMap fun said => said.toOption.getD []).forM g s = .ok () t := by
  induction remarks generalizing s with
  | nil => exact h
  | cons said rest ih =>
    obtain ⟨_, t₁, hsaid, hrest⟩ := bind_apply_eq_ok.mp h
    obtain ⟨first, rfl, hfirst⟩ := lift_bind_eq_ok.mp hsaid
    have happend (others : List Remark) :
        (first ++ others).forM g = (first.forM g >>= fun _ => others.forM g) := forM_append
    rw [flatMap_cons]
    refine (congrFun (happend _) s).trans (bind_apply_eq_ok.mpr ⟨_, t₁, hfirst, ?_⟩)
    exact ih hrest

theorem forM_remarked_eq_ok (h : reportRemarks cfg s = .ok () t) :
    (cfg.remarked.forM fun r => reportWith cfg r.kind r.args r.named) s = .ok () t := by
  unfold Setup.remarked
  unfold reportRemarks at h
  split at h
  · rename_i hfile
    rwa [if_pos hfile]
  · rename_i hfile
    rw [if_neg hfile]
    exact forM_flatMap_eq_ok h

theorem reportRemarks_eq_ok (h : reportRemarks cfg s = .ok () t) :
    s.Says (cfg.remarked.map (·.kind)) t ∧
      t.history = (cfg.remarked.map Remark.event).reverse ++ s.history :=
  reportAll_eq_ok (fun _ hr => mem_map_of_mem hr) (forM_remarked_eq_ok h)

end Check

end ScopeLint
