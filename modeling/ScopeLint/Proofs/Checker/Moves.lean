import ScopeLint.Proofs.Checker.Chronicle
import ScopeLint.Proofs.Checker.Passes

/-! # What a run does to names

Seen from the names, a run is a sequence of moves: a load marks a binding, a statement binds a name,
gives way or deletes one, and everything else leaves what the scopes hold as it is. At every moment
the scopes hold what the record tells. -/
namespace ScopeLint

open List Check

namespace State

/-- A value as the subject or argument of a diagnostic, in this state. -/
def datumOf (s : State) : Value → Datum
  | .node n =>
    match s.position? n with
    | some p => .object n.kind (some n.id) [("lineno", p.line), ("col_offset", p.column)]
    | none => (Value.node n).datum
  | v => v.datum

theorem isOf_datumOf (s : State) (n : Node) : (s.datumOf (.node n)).IsOf n := by
  unfold datumOf
  dsimp only
  split
  · exact ⟨_, rfl⟩
  · exact ⟨[], rfl⟩

variable {kinds : List Kind} {s t : State}

theorem Says.isNote {es : List Event} (h : s.Says kinds t) (hes : t.history = es ++ s.history) :
    ∀ e ∈ es, e.IsNote kinds := by
  obtain ⟨es', hes', hnotes⟩ := h.notes
  obtain rfl : es = es' := append_cancel_right (hes.symm.trans hes')
  exact hnotes

theorem Says.binding?_eq (h : s.Says kinds t) (id : ScopeId) (key : Datum.Key) :
    t.binding? id key = s.binding? id key := by
  rw [h.frame]
  rfl

end State

namespace Check

variable {cfg : Setup} {s t : State} {n m : Node} {key : Datum.Key} {b : Binding} {k : Kind}
  {args : List Datum} {id top : ScopeId} {hidden : Bool} {old : Binding} {existing : Option Binding}

theorem datum_apply (v : Value) (s : State) : datum v s = .ok (s.datumOf v) s := by
  cases v with
  | node n =>
    simp only [datum, bind_apply, get_apply, State.datumOf]
    cases s.position? n <;> rfl
  | _ => rfl

theorem reportWith_eq_ok {named : Named} (h : reportWith cfg k args named s = .ok () t) :
    t.history = .reported k args :: s.history := by
  unfold reportWith at h
  dsimp only at h
  split at h
  · cases h
  · obtain ⟨_, t₁, hrecord, hrest⟩ := bind_apply_eq_ok.mp h
    cases hrecord
    obtain ⟨ignored, -, hrest⟩ := lift_bind_eq_ok.mp hrest
    split at hrest
    · obtain ⟨d, -, hrest⟩ := lift_bind_eq_ok.mp hrest
      obtain ⟨hidden, -, hrest⟩ := lift_bind_eq_ok.mp hrest
      split at hrest <;> cases hrest <;> rfl
    · cases hrest
      rfl

theorem report_eq_ok {subject : Value} (h : report cfg k subject args s = .ok () t) :
    t.history = .reported k (s.datumOf subject :: args) :: s.history := by
  obtain ⟨d, t₁, hd, h⟩ := bind_apply_eq_ok.mp h
  rw [datum_apply] at hd
  cases hd
  exact reportWith_eq_ok h

theorem differentForks_eq_ok {apart : Bool} (h : differentForks cfg n (.node m) s = .ok apart t) :
    t.history = .compared n m apart :: s.history := by
  have hrest := get_bind_eq_ok.mp h
  obtain ⟨found, -, hrecord⟩ := lift_bind_eq_ok.mp hrest
  cases hrecord
  rfl

/-- The report that the name is bound at `n` while what `m` binds to it is unused. -/
private theorem toldOf_of_report {v : Value} {d name : Datum} {r : State} (hv : v = .node m)
    (hd : datum v s = .ok d r)
    (h : report cfg .redefinedWhileUnused (.node n) [name, d] r = .ok () t) :
    ∃ es, t.history = es ++ s.history ∧ ToldOf es n m name := by
  rw [datum_apply, hv] at hd
  cases hd
  refine ⟨[_], report_eq_ok h, _, _, mem_singleton.mpr rfl, ?_, ?_⟩
  · exact s.isOf_datumOf n
  · exact s.isOf_datumOf m

/-- An unused import in a scope that `b` hides is reported, unless the two are on branches that
exclude each other. -/
theorem reportHiddenIn_eq_ok (h : reportHiddenIn cfg n key b id s = .ok hidden t)
    (hold : s.binding? id key = some old) (hhides : hides b old = true)
    (hsource : old.source = .node m) :
    ∃ es, t.history = es ++ s.history ∧ AccountedFor es n m b.name := by
  have hrest := get_bind_eq_ok.mp h
  simp only [hold, if_pos hhides] at hrest
  obtain ⟨apart, t₂, hforks, hrest⟩ := bind_apply_eq_ok.mp hrest
  rw [hsource] at hforks
  have hcompared := differentForks_eq_ok hforks
  split at hrest
  · rename_i hapart
    cases hrest
    refine ⟨[_], hcompared, .inl ?_⟩
    rw [hapart]
    exact mem_singleton.mpr rfl
  · obtain ⟨d, t₃, hd, hrest⟩ := bind_apply_eq_ok.mp hrest
    obtain ⟨_, t₄, hreport, hrest⟩ := bind_apply_eq_ok.mp hrest
    cases hrest
    obtain ⟨es, hes, htold⟩ := toldOf_of_report hsource hd hreport
    refine ⟨es ++ [.compared n m apart], ?_, .inr (htold.mono (subset_append_left _ _))⟩
    rw [hes, hcompared]
    simp

theorem reportHidden_eq_ok {ids : List ScopeId} (h : reportHidden cfg n key b ids s = .ok hidden t)
    (hid : id ∈ ids) (hold : s.binding? id key = some old) (hhides : hides b old = true)
    (hsource : old.source = .node m) :
    ∃ es, t.history = es ++ s.history ∧ AccountedFor es n m b.name := by
  induction ids generalizing s hidden with
  | nil => cases hid
  | cons first rest ih =>
    obtain ⟨found, t₁, hfirst, hrest⟩ := bind_apply_eq_ok.mp h
    obtain ⟨others, t₂, hothers, hend⟩ := bind_apply_eq_ok.mp hrest
    cases hend
    have hspeech := (told_reportHiddenIn n key b first).ok hfirst
    rcases mem_cons.mp hid with rfl | hid
    · obtain ⟨es, hes, hsaid⟩ := reportHiddenIn_eq_ok hfirst hold hhides hsource
      obtain ⟨more, hmore, -⟩ := ((told_reportHidden n key b rest).ok hothers).notes
      have hsub : es ⊆ more ++ es := subset_append_right _ _
      exact ⟨more ++ es, by rw [hmore, hes, append_assoc], hsaid.mono hsub⟩
    · have hold₁ : t₁.binding? id key = some old := by rw [hspeech.binding?_eq, hold]
      obtain ⟨more, hmore, hsaid⟩ := ih hothers hid hold₁
      obtain ⟨es, hes, -⟩ := hspeech.notes
      have hsub : more ⊆ more ++ es := subset_append_left _ _
      exact ⟨more ++ es, by rw [hmore, hes, append_assoc], hsaid.mono hsub⟩

/-- What a binding in the scope on top hides there is reported, unless there is no need. -/
theorem hidesOpenly_of_reportRebinding {rest : List ScopeId} {scope : Scope}
    (hstack : s.stack = top :: rest) (hscope : s.scope? top = some scope)
    (h : reportRebinding cfg n key b scope.kind existing s = .ok () t) :
    ∃ es, t.history = es ++ s.history ∧
      HidesOpenly s top (s.binding? top key) es n b := by
  have hspeech := (told_reportRebinding n key b scope.kind existing).ok h
  obtain ⟨all, hall, -⟩ := hspeech.notes
  refine ⟨all, hall, fun old m hold hunused hsource => ?_⟩
  have hkind : s.kindOf top = some scope.kind := by simp [State.kindOf, hscope]
  by_cases hclass : scope.kind = .classBody
  · exact .inl (hclass ▸ hkind)
  right
  cases hhides : hides b old with
  | false => exact .inl rfl
  | true =>
    right
    unfold reportRebinding at h
    dsimp only at h
    rw [if_pos (by simpa using hclass)] at h
    have h₁ := get_bind_eq_ok.mp h
    obtain ⟨hidden, t₂, hhidden, h₂⟩ := bind_apply_eq_ok.mp h₁
    obtain ⟨es, hes, hsaid⟩ := reportHidden_eq_ok hhidden (by simp [hstack]) hold hhides hsource
    have hlist : ∃ more, t.history = more ++ t₂.history := by
      split at h₂
      · obtain ⟨more, hmore, -⟩ := ((told_reportListComp n b existing).ok h₂).notes
        exact ⟨more, hmore⟩
      · cases h₂
        exact ⟨[], rfl⟩
    obtain ⟨more, hmore⟩ := hlist
    have heq : all ++ s.history = (more ++ es) ++ s.history := by
      rw [← hall, hmore, hes, append_assoc]
    rw [append_cancel_right heq]
    exact hsaid.mono (subset_append_right _ _)

theorem keptDefinition?_eq_some (h : keptDefinition? cfg n existing s = .ok (some old) t) :
    existing = some old ∧ old.isUnusedDefinition = true ∧
      ∀ m, old.source = .node m → t.history = .compared n m false :: s.history := by
  cases existing with
  | none => cases h
  | some found =>
    simp only [keptDefinition?] at h
    split at h
    · rename_i hunused
      obtain ⟨apart, t₁, hforks, hrest⟩ := bind_apply_eq_ok.mp h
      cases apart with
      | true => cases hrest
      | false =>
        cases hrest
        refine ⟨rfl, hunused, fun m hm => ?_⟩
        rw [hm] at hforks
        exact differentForks_eq_ok hforks
    · cases h

/-- A binding is put in its place, or it gives way to an unused definition. -/
theorem place_eq_ok (h : place cfg n key b top existing s = .ok () t) :
    ∃ r es, s.Says Kind.besides r ∧ r.history = es ++ s.history ∧
      (t = r.withBinding top key n b ∨
        (t = r.withRefusal top key n b ∧ RefusedOpenly existing es n b)) := by
  obtain ⟨kept, t₁, hkept, hrest⟩ := bind_apply_eq_ok.mp h
  have hspeech₁ : s.Says Kind.besides t₁ := (told_keptDefinition? n existing).ok hkept
  obtain ⟨es₁, hes₁, -⟩ := hspeech₁.notes
  cases kept with
  | none =>
    cases hrest
    exact ⟨t₁, es₁, hspeech₁, hes₁, .inl rfl⟩
  | some old =>
    obtain ⟨d, t₂, hd, hrest⟩ := bind_apply_eq_ok.mp hrest
    obtain ⟨_, t₃, hreport, hrecord⟩ := bind_apply_eq_ok.mp hrest
    cases hrecord
    obtain rfl : t₂ = t₁ := (reads_datum _).ok hd
    have hkind : .redefinedWhileUnused ∈ Kind.besides := by simp [Kind.besides]
    have hspeech₂ := (told_report hkind _ _).ok hreport
    obtain ⟨hexisting, hunused, hcompared⟩ := keptDefinition?_eq_some hkept
    obtain ⟨es₂, hes₂, -⟩ := hspeech₂.notes
    refine ⟨t₃, es₂ ++ es₁, hspeech₁.trans hspeech₂, by rw [hes₂, hes₁, append_assoc],
      .inr ⟨rfl, ?_⟩⟩
    refine ⟨old, hexisting, hunused, fun m hm => ⟨?_, ?_⟩⟩
    · have heq : es₁ ++ s.history = [.compared n m false] ++ s.history := hes₁ ▸ hcompared m hm
      rw [append_cancel_right heq]
      simp
    · obtain ⟨es, hes, htold⟩ := toldOf_of_report hm hd hreport
      have heq : es₂ ++ t₂.history = es ++ t₂.history := hes₂ ▸ hes
      rw [append_cancel_right heq]
      exact htold.mono (subset_append_left _ _)

theorem bind_eq_ok {reportsHidden : Bool} (h : bind cfg n b reportsHidden s = .ok () t) :
    ∃ top rest key r es, s.stack = top :: rest ∧ (s.scope? top).isSome = true ∧
      b.name.key = .ok key ∧ s.Says Kind.besides r ∧ r.history = es ++ s.history ∧
      ((t = r.withBinding top key n b ∧
          (reportsHidden = true → HidesOpenly s top (s.binding? top key) es n b)) ∨
        (t = r.withRefusal top key n b ∧ RefusedOpenly (s.binding? top key) es n b)) := by
  obtain ⟨top, rest, scope, hstack, hscope, hrest⟩ := current_bind_eq_ok h
  obtain ⟨key, hkey, hbind⟩ := lift_bind_eq_ok.mp hrest
  have hold : scope.find? key = s.binding? top key := by simp [State.binding?, hscope]
  dsimp only at hbind
  rw [hold] at hbind
  refine ⟨top, rest, key, ?_⟩
  cases reportsHidden with
  | false =>
    obtain ⟨r, es, hspeech, hes, hend⟩ := place_eq_ok hbind
    refine ⟨r, es, hstack, by simp [hscope], hkey, hspeech, hes, ?_⟩
    exact hend.imp_left fun hplaced => ⟨hplaced, by simp⟩
  | true =>
    obtain ⟨_, t₃, hreported, hplace⟩ := bind_apply_eq_ok.mp hbind
    have hspeech₁ := (told_reportRebinding n key b scope.kind _).ok hreported
    obtain ⟨es₁, hes₁, hhides⟩ := hidesOpenly_of_reportRebinding hstack hscope hreported
    obtain ⟨r, es₂, hspeech₂, hes₂, hend⟩ := place_eq_ok hplace
    refine ⟨r, es₂ ++ es₁, hstack, by simp [hscope], hkey, hspeech₁.trans hspeech₂,
      by rw [hes₂, hes₁, append_assoc], ?_⟩
    refine hend.imp ?_ ?_
    · intro hplaced
      exact ⟨hplaced, fun _ => hhides.mono (subset_append_right _ _) fun _ hk => hk⟩
    · rintro ⟨hrefused, hopenly⟩
      exact ⟨hrefused, hopenly.mono (subset_append_left _ _)⟩

end Check

/-- The scopes hold what they held, and nothing but notes has been put on record. -/
structure State.Keeps (kinds : List Kind) (s t : State) : Prop where
  entriesOf_eq : ∀ id, t.entriesOf id = s.entriesOf id
  kindOf_some : ∀ id kind, s.kindOf id = some kind → t.kindOf id = some kind
  notes : ∃ es, t.history = es ++ s.history ∧ ∀ e ∈ es, e.IsNote kinds

namespace State

variable {kinds : List Kind} {s t u : State}

theorem Keeps.of_eq (hscopes : t.scopes = s.scopes) (hhistory : t.history = s.history) :
    s.Keeps kinds t where
  entriesOf_eq := fun id => by simp [entriesOf, scope?, hscopes]
  kindOf_some := fun id kind h => by simpa [kindOf, scope?, hscopes] using h
  notes := ⟨[], hhistory, by simp⟩

theorem Keeps.trans (h : s.Keeps kinds t) (k : t.Keeps kinds u) : s.Keeps kinds u := by
  obtain ⟨es, hes, hnotes⟩ := h.notes
  obtain ⟨more, hmore, hmoreNotes⟩ := k.notes
  refine ⟨fun id => (k.entriesOf_eq id).trans (h.entriesOf_eq id),
    fun id kind hid => k.kindOf_some id kind (h.kindOf_some id kind hid), more ++ es, ?_, ?_⟩
  · rw [hmore, hes, append_assoc]
  · intro e he
    exact (mem_append.mp he).elim (hmoreNotes e) (hnotes e)

theorem Still.keeps (h : s.Still t) : s.Keeps Kind.walked t := by
  obtain ⟨es, hes, hnotes⟩ := h.notes
  exact ⟨h.entriesOf_eq, fun id _ hid => (h.kindOf_eq id).trans hid, es, hes,
    fun e he => (hnotes e he).mono Kind.acted_subset⟩

theorem Says.keeps (h : s.Says kinds t) : s.Keeps kinds t where
  entriesOf_eq := fun id => by simp [entriesOf, scope?, h.scopes_eq]
  kindOf_some := fun id _ hid => (h.alike.kindOf_eq id).trans hid
  notes := h.notes

theorem keeps_opened (s : State) (kind : ScopeKind) : s.Keeps kinds (s.opened kind) := by
  refine ⟨fun id => ?_, fun id k hk => ?_, [], rfl, by simp⟩
  · simp only [entriesOf, scope?, opened, Array.getElem?_push]
    split
    · rename_i heq
      subst heq
      simp [Scope.empty]
    · rfl
  · rwa [kindOf_opened_of_lt s kind (lt_size_of_kindOf hk)]

theorem binding?_opened (s : State) (kind : ScopeKind) (id : ScopeId) (key : Datum.Key) :
    (s.opened kind).binding? id key = s.binding? id key := by
  have hkeeps : s.Keeps [] (s.opened kind) := s.keeps_opened kind
  exact binding?_congr (hkeeps.entriesOf_eq id) key

end State

/-- Whether the stack is the one in use, or has scopes still to come on top of it. -/
def State.Carries (s : State) (stack : List ScopeId) : Prop :=
  ∃ inner, stack = inner ++ s.stack ∧ ∀ id ∈ inner, s.scopes.size ≤ id

/-- The scope `id` is the first that a load looks into where the name is bound. -/
structure State.Hits (s : State) (id : ScopeId) (key : Datum.Key) (use : Use) : Prop where
  top : ∃ rest, s.stack = use.scope :: rest
  kind : ∃ kind, s.kindOf use.scope = some kind
  found : ∃ visible, s.visibleScopes = .ok visible ∧
    visible.find? (fun id => (s.binding? id key).isSome) = some id

/-- What counts as used when it is bound in the scope `id` is used there, or was used before. -/
def Binding.UsedIn (b : Binding) (id : ScopeId) (old : Option Binding) : Prop :=
  ∀ use, b.used = some use → use.scope = id ∨ old.bind (·.used) = some use

/-- One step, seen from the names. Names are looked up from the stack in use, which is one of these,
and they are bound and deleted in the scope on top of it. -/
inductive Move (on : List ScopeId → Prop) : State → State → Prop where
  | keep {s t} : s.Keeps Kind.walked t → Move on s t
  | load {s} (id : ScopeId) (key : Datum.Key) (use : Use) : on s.stack → s.Hits id key use →
      Move on s (s.withUse id key use)
  | bind {s r es} (id : ScopeId) (key : Datum.Key) (n : Node) (b : Binding) :
      (∃ rest, on (id :: rest)) → (s.scope? id).isSome = true → s.Says Kind.walked r →
      r.history = es ++ s.history → b.MadeAt n (s.binding? id key) →
      b.UsedIn id (s.binding? id key) → HidesOpenly s id (s.binding? id key) es n b →
      Move on s (r.withBinding id key n b)
  | refuse {s r es} (id : ScopeId) (key : Datum.Key) (n : Node) (b : Binding) :
      s.Says Kind.walked r → r.history = es ++ s.history →
      RefusedOpenly (s.binding? id key) es n b → Move on s (r.withRefusal id key n b)
  | delete {s} (id : ScopeId) (key : Datum.Key) : (∃ rest, on (id :: rest)) →
      Move on s (s.withoutBinding id key)

variable {cfg : Setup} {s t : State} {on : List ScopeId → Prop} {n : Node} {b : Binding}
  {key : Datum.Key} {id : ScopeId}

abbrev Moves (on : List ScopeId → Prop) : State → State → Prop := Relation.ReflTransGen (Move on)

variable {all : List ScopeId → Prop}

theorem Move.mono (h : Move on s t) (hsub : ∀ stack, on stack → all stack) : Move all s t := by
  cases h with
  | keep h => exact .keep h
  | load id key use hon hhits => exact .load id key use (hsub _ hon) hhits
  | bind id key n b hon hid hspeech hes hmade hused hhides =>
    exact .bind id key n b (hon.imp fun _ => hsub _) hid hspeech hes hmade hused hhides
  | refuse id key n b hspeech hes hrefused => exact .refuse id key n b hspeech hes hrefused
  | delete id key hon => exact .delete id key (hon.imp fun _ => hsub _)

theorem Moves.mono (h : Moves on s t) (hsub : ∀ stack, on stack → all stack) : Moves all s t := by
  induction h with
  | refl => exact .refl
  | tail _ h ih => exact ih.tail (h.mono hsub)

theorem State.Keeps.moves (h : s.Keeps Kind.walked t) : Moves on s t :=
  .single (.keep h)

def Ending.moves (on : List ScopeId → Prop) : Ending :=
  ⟨Moves on, Moves on, fun _ => .refl, fun _ => .refl, .trans, .trans⟩

namespace Check

variable {act : Check Unit} {e : Fault} {reportsHidden : Bool}

theorem Calm.moves (h : Calm act) : Ends (.moves on) act :=
  ends_of (fun _ _ _ ha => (h.ok ha).keeps.moves) fun _ _ _ ha => (h.fail ha).keeps.moves

theorem Speaks.moves (h : Speaks Kind.walked act) : Ends (.moves on) act :=
  ends_of (fun _ _ _ ha => (h.ok ha).keeps.moves) fun _ _ _ ha => (h.fail ha).keeps.moves

theorem moves_load (cfg : Setup) (v : Value) (hon : on s.stack) :
    EndsAt (.moves on) (load cfg v) s := by
  unfold load
  split
  · exact ends_pure _ s
  · refine (ends_get s).bind fun _ r hget => ?_
    cases hget
    refine (ends_lift _ _).bind fun visible r hlift => ?_
    obtain ⟨hvisible, rfl⟩ := lift_apply_eq_ok.mp hlift
    refine (ends_lift _ _).bind fun key r' hlift => ?_
    obtain ⟨-, rfl⟩ := lift_apply_eq_ok.mp hlift
    split
    · rename_i id hfind
      refine (reads_current.ends _).bind fun ⟨top, scope⟩ t hcurrent => ?_
      obtain ⟨rfl, hstack, hscope⟩ := current_eq_ok hcurrent
      have hkind : ∃ kind, t.kindOf top = some kind := ⟨scope.kind, by simp [State.kindOf, hscope]⟩
      exact .single (.load id key ⟨top, v⟩ hon ⟨hstack, hkind, visible, hvisible, hfind⟩)
    · split
      · exact ends_pure _ _
      · split
        · exact ends_pure _ _
        · refine (ends_lift _ _).bind fun guarded r'' _ => ?_
          split
          · exact Speaks.moves ((told_report (by simp [Kind.walked]) _ _).ends cfg) _
          · exact ends_pure _ _

theorem place_eq_error {top : ScopeId} {existing : Option Binding}
    (h : place cfg n key b top existing s = .error e t) : s.Says Kind.besides t := by
  rcases bind_apply_eq_error.mp h with hkept | ⟨kept, t₁, hkept, hrest⟩
  · exact (told_keptDefinition? n existing).fail hkept
  have hspeech : s.Says Kind.besides t₁ := (told_keptDefinition? n existing).ok hkept
  cases kept with
  | none => cases hrest
  | some old =>
    have hkind : .redefinedWhileUnused ∈ Kind.besides := by simp [Kind.besides]
    rcases bind_apply_eq_error.mp hrest with hd | ⟨d, t₂, hd, hreports⟩
    · rw [datum_apply] at hd
      cases hd
    obtain rfl : t₂ = t₁ := (reads_datum _).ok hd
    rcases bind_apply_eq_error.mp hreports with hreport | ⟨_, t₃, -, hrecord⟩
    · exact hspeech.trans ((told_report hkind _ _).fail hreport)
    · cases hrecord

/-- A statement that fails to bind a name changes no binding. -/
theorem bind_eq_error (h : bind cfg n b reportsHidden s = .error e t) : s.Says Kind.besides t := by
  rcases bind_apply_eq_error.mp h with hcurrent | ⟨⟨top, scope⟩, t₁, hcurrent, hrest⟩
  · obtain rfl : t = s := reads_current.fail hcurrent
    exact .refl _
  obtain ⟨rfl, -⟩ := current_eq_ok hcurrent
  rcases bind_apply_eq_error.mp hrest with hkey | ⟨key, t₂, hkey, hbind⟩
  · have hkeyed : Reads (lift b.name.key) := ends_lift _
    obtain rfl := hkeyed.fail hkey
    exact .refl _
  obtain ⟨-, rfl⟩ := lift_apply_eq_ok.mp hkey
  dsimp only at hbind
  split at hbind
  · have hspeaks := told_reportRebinding n key b scope.kind (scope.find? key)
    rcases bind_apply_eq_error.mp hbind with hreported | ⟨_, t₃, hreported, hplace⟩
    · exact hspeaks.fail hreported
    · exact (hspeaks.ok hreported).trans (place_eq_error hplace)
  · exact place_eq_error hbind

/-- A statement that binds a name in the scope on top is one move. -/
theorem moves_bind (h : ∀ top rest key, s.stack = top :: rest → b.name.key = .ok key →
      on (top :: rest) ∧ b.MadeAt n (s.binding? top key) ∧ b.UsedIn top (s.binding? top key) ∧
        (reportsHidden = true ∨ ∀ o, s.binding? top key = some o → o.isUnusedImport = false)) :
    EndsAt (.moves on) (bind cfg n b reportsHidden) s := by
  rw [EndsAt, Lands]
  cases hbind : bind cfg n b reportsHidden s with
  | error e t => exact (bind_eq_error hbind).walked.keeps.moves
  | ok u t =>
    obtain ⟨top, rest, key, r, es, hstack, hscope, hkey, hspeech, hes, hend⟩ := bind_eq_ok hbind
    obtain ⟨hon, hmade, hused, hhidden⟩ := h top rest key hstack hkey
    refine .single ?_
    rcases hend with ⟨rfl, hhides⟩ | ⟨rfl, hrefused⟩
    · refine .bind top key n b ⟨rest, hon⟩ hscope hspeech.walked hes hmade hused ?_
      rcases hhidden with hreports | hunused
      · exact hhides hreports
      · intro o m ho himport
        rw [hunused o ho] at himport
        cases himport
    · exact .refuse top key n b hspeech.walked hes hrefused

theorem storeKind_eq_ok {scope : Scope} {parent : Option Node} {kind : BindingKind} {source : Value}
    (h : storeKind scope parent key n = .ok (kind, source)) : kind.isStored = true := by
  unfold storeKind at h
  split at h
  · cases h
    rfl
  · split at h
    · cases h
      rfl
    · split at h
      · rename_i p _ _
        cases hvalue : p.get "value" with
        | error e =>
          rw [hvalue] at h
          cases h
        | ok v =>
          rw [hvalue] at h
          cases h
          rfl
      · cases h
        rfl

theorem moves_store (hon : on s.stack) : EndsAt (.moves on) (store cfg n) s := by
  unfold store
  split
  · exact ends_pure _ s
  · rename_i name hname
    refine (reads_current.ends s).bind fun ⟨top, scope⟩ t hcurrent => ?_
    obtain ⟨rfl, ⟨rest, hstack⟩, hscope⟩ := current_eq_ok hcurrent
    refine (ends_lift _ _).bind fun key t₁ hlift => ?_
    obtain ⟨hkey, rfl⟩ := lift_apply_eq_ok.mp hlift
    have hspeaks := (told_reportUsedBefore top scope key name).ends cfg
    refine (Speaks.calm hspeaks |>.moves _).bind fun _ r hr => ?_
    have hspeech : State.Says Kind.acted _ r := hspeaks.ok hr
    refine (ends_get r).bind fun _ r' hget => ?_
    cases hget
    refine (ends_lift _ _).bind fun ⟨kind, source⟩ r' hlift => ?_
    obtain ⟨hkind, rfl⟩ := lift_apply_eq_ok.mp hlift
    have hold : (scope.find? key).bind (·.used) = (r'.binding? top key).bind (·.used) := by
      rw [hspeech.binding?_eq]
      simp [State.binding?, hscope]
    dsimp only
    rw [hold]
    refine moves_bind fun top' rest' key' hstack' hkey' => ?_
    rw [hspeech.alike.stack_eq, hstack] at hstack'
    obtain ⟨rfl, rfl⟩ := cons.inj hstack'
    obtain rfl := Except.ok.inj (hkey.symm.trans hkey')
    exact ⟨hstack ▸ hon, .stored name kind source (storeKind_eq_ok hkind), fun _ => .inr, .inl rfl⟩

theorem moves_delete (hon : on s.stack) : EndsAt (.moves on) (delete cfg n) s := by
  unfold delete
  split
  · exact ends_pure _ s
  · refine (reads_current.ends s).bind fun ⟨top, scope⟩ t hcurrent => ?_
    obtain ⟨rfl, ⟨rest, hstack⟩, -⟩ := current_eq_ok hcurrent
    refine (ends_lift _ _).bind fun key t₁ hkey => ?_
    obtain ⟨-, rfl⟩ := lift_apply_eq_ok.mp hkey
    split
    · have hforget : Quiet (updateScope top (·.forgetGlobal key)) :=
        quiet_updateScope top fun _ => ⟨rfl, rfl⟩
      exact hforget.calm.moves _
    · split
      · exact .single (.delete top key ⟨rest, hstack ▸ hon⟩)
      · exact Speaks.moves ((told_report (by simp [Kind.walked]) _ _).ends cfg) _

/-- What the rule of a node does between visits is made of moves in the scope on top. -/
theorem moves_act (a : Act) (h : a.IsOf n ∧ a.UsesTop s) (hon : on s.stack) :
    EndsAt (.moves on) (a.run cfg) s := by
  cases a with
  | load v => exact moves_load cfg v hon
  | store m => exact moves_store hon
  | delete m => exact moves_delete hon
  | bind m b reportsHidden =>
    obtain ⟨⟨rfl, hstated, rfl⟩, htop⟩ := h
    refine moves_bind fun top rest _ hstack _ =>
      ⟨hstack ▸ hon, .stated hstated, fun use huse => .inl ?_, .inl rfl⟩
    simpa [hstack, eq_comm] using htop use huse
  | globals m => exact (Quiet.calm ((told_ruleGlobal m).ends cfg)).moves s
  | locals m => exact (Quiet.calm ((told_noteLocals m).ends cfg)).moves s
  | star m module => exact (Quiet.calm ((told_importStar m module).ends cfg)).moves s
  | callee m => exact (Speaks.mono ((told_checkCallee m).ends cfg) Kind.besides_subset).calm.moves s
  | shadowing m name =>
      exact (Speaks.mono ((told_reportShadowing m name).ends cfg) Kind.besides_subset).calm.moves s
  | lateImports => exact (Quiet.calm (told_lateImports.ends cfg)).moves s
  | report k subject args => exact Speaks.moves ((told_report h.1 subject args).ends cfg) s

end Check

namespace State

variable {stack rest : List ScopeId} {kind : ScopeKind}

theorem carries_stack (s : State) : s.Carries s.stack := ⟨[], rfl, by simp⟩

/-- What is on top later was still to come before, if the stack is the same again. -/
theorem Carries.of_grows (h : t.Carries stack) (hstack : t.stack = s.stack) (hg : s.Grows t) :
    s.Carries stack := by
  obtain ⟨inner, rfl, hinner⟩ := h
  exact ⟨inner, by rw [hstack], fun id hid => Nat.le_trans hg.size_le (hinner id hid)⟩

theorem Carries.of_opened (h : (s.opened kind).Carries stack) : s.Carries stack := by
  obtain ⟨inner, rfl, hinner⟩ := h
  refine ⟨inner ++ [s.scopes.size], by simp [opened], fun id hid => ?_⟩
  rcases mem_append.mp hid with hid | hid
  · exact Nat.le_trans (grows_opened s kind).size_le (hinner id hid)
  · exact Nat.le_of_eq (mem_singleton.mp hid).symm

/-- Nothing but the scope just opened and scopes still to come can be on top of it. -/
theorem Carries.size_le (h : (s.opened kind).Carries (id :: rest)) : s.scopes.size ≤ id := by
  obtain ⟨inner, hstack, hinner⟩ := h
  cases inner with
  | nil => exact Nat.le_of_eq (cons.inj hstack).1.symm
  | cons first inner =>
    obtain ⟨rfl, -⟩ := cons.inj hstack
    exact Nat.le_trans (grows_opened s kind).size_le (hinner id mem_cons_self)

end State

variable {vs : List Value}

/-- A course is made of moves in the scope on top and in scopes that it opens. -/
theorem Course.moves (h : Course cfg n vs s t) : Moves s.Carries s t := by
  induction h with
  | done => exact .refl
  | next hc _ ih ih' =>
    exact ih.trans (ih'.mono fun _ hid => hid.of_grows hc.level.stack_eq hc.grows)
  | @act n vs s t a hof h => exact (moves_act a hof s.carries_stack).ok h
  | @scope n vs s t u kind _ _ hp ih =>
    obtain ⟨top, rest, -, rfl⟩ := popScope_eq_ok hp
    have hclosed : t.Keeps Kind.walked (t.closed top rest) := .of_eq rfl rfl
    exact ((s.keeps_opened kind).moves.trans (ih.mono fun _ hid => hid.of_opened)).trans hclosed.moves
  | @guard n vs s t names _ ih =>
    have hguarded : s.Keeps Kind.walked (s.guarded names) := .of_eq rfl rfl
    have hunguarded : t.Keeps Kind.walked t.unguarded := .of_eq rfl rfl
    exact (hguarded.moves.trans ih).trans hunguarded.moves
  | task task _ hd =>
    obtain ⟨entries, -, rfl⟩ := defer_eq_ok hd
    exact State.Keeps.moves (.of_eq rfl rfl)
  | @node n vs s t u v m _ he hc ht ih =>
    obtain ⟨r, hr, rfl⟩ := enterNode_eq_ok he
    have hentered : r.Keeps Kind.walked (r.entered m n) := .of_eq rfl rfl
    have hrisen : u.Keeps Kind.walked u.risen := .of_eq rfl rfl
    have hend := ((told_traceLine _).ok ht).keeps
    refine (hr.keeps.trans hentered).moves.trans (.trans (ih.mono fun _ hid => ?_)
      (hrisen.trans hend).moves)
    exact hid.of_grows hr.stack_eq (hr.grows.trans (r.grows_entered m n))

theorem Cut.moves (h : Cut cfg n vs s t) : Moves s.Carries s t := by
  induction h with
  | here => exact .refl
  | next hc _ ih =>
    exact hc.moves.trans (ih.mono fun _ hid => hid.of_grows hc.level.stack_eq hc.grows)
  | @act n vs s t e a hof h => exact (moves_act a hof s.carries_stack).fail h
  | @scope n vs s t kind _ _ ih =>
    exact (s.keeps_opened kind).moves.trans (ih.mono fun _ hid => hid.of_opened)
  | @guard n vs s t names _ ih =>
    have hguarded : s.Keeps Kind.walked (s.guarded names) := .of_eq rfl rfl
    exact hguarded.moves.trans ih
  | entry m _ he => exact (enterNode_eq_error he).keeps.moves
  | @node n vs s t u m _ he _ ih =>
    obtain ⟨r, hr, rfl⟩ := enterNode_eq_ok he
    have hentered : r.Keeps Kind.walked (r.entered m n) := .of_eq rfl rfl
    have hrisen : u.Keeps Kind.walked u.risen := .of_eq rfl rfl
    refine ((hr.keeps.trans hentered).moves.trans (ih.mono fun _ hid => ?_)).trans hrisen.moves
    exact hid.of_grows hr.stack_eq (hr.grows.trans (r.grows_entered m n))
  | stray v _ _ _ hr =>
    obtain ⟨u, hu, rfl | rfl⟩ := refuse_eq_error hr
    · exact hu.keeps.moves
    · have hdeeper : u.Keeps Kind.walked { u with depth := u.depth + 1 } := .of_eq rfl rfl
      exact (hu.keeps.trans hdeeper).moves

namespace State.Recorded

variable {kinds : List Kind}

variable (h : s.Recorded)

include h

theorem keeps (k : s.Keeps kinds t) : t.Recorded := by
  obtain ⟨es, hes, hnotes⟩ := k.notes
  have hall : ∀ e ∈ es, e.isNote = true := fun e he => (hnotes e he).isNote
  refine ⟨fun id => ?_, fun id key => ?_, ?_⟩
  · rw [keysOf, k.entriesOf_eq]
    exact h.keys_nodup id
  · rw [binding?_congr (k.entriesOf_eq id), h.binding?_eq, hes, replayed_notes hall]
  · rw [hes]
    exact (h.chronicle.mono k.kindOf_some).notes hall

private theorem recorded_of_modified {f : Scope → Scope} {e : Event}
    (hkeys : ∀ scope, scope.keys.Nodup → (f scope).keys.Nodup)
    (hkind : ∀ scope, (f scope).kind = scope.kind)
    (hscopes : t.scopes = s.scopes.modify id f) (hhistory : t.history = e :: s.history)
    (hbinding : ∀ other k, t.binding? other k = e.after other k (s.binding? other k))
    (hsound : e.Sound s s.history) : t.Recorded := by
  refine ⟨nodup_keysOf_modified hscopes hkeys h.keys_nodup, fun other k => ?_, ?_⟩
  · rw [hbinding, h.binding?_eq, hhistory]
    rfl
  · have hc : Chronicle s t.history := by
      rw [hhistory]
      exact ⟨hsound, h.chronicle⟩
    exact hc.mono fun other kind hk => (kindOf_modified hscopes hkind other).trans hk

theorem withUse (use : Use) : (s.withUse id key use).Recorded := by
  refine recorded_of_modified (f := (·.markUsed key use)) h (fun scope hkeys => ?_) (fun _ => rfl)
    rfl rfl (fun other k => ?_) trivial
  · rwa [Scope.keys_markUsed]
  · rw [binding?_withUse, Event.after]
    split
    · rename_i heq
      obtain ⟨rfl, rfl⟩ := heq
      rfl
    · rfl

theorem withoutBinding : (s.withoutBinding id key).Recorded := by
  refine recorded_of_modified (f := (·.erase key)) h (fun scope hkeys => ?_) (fun _ => rfl) rfl rfl
    (fun other k => ?_) trivial
  · exact Scope.nodup_keys_erase key hkeys
  · rw [binding?_withoutBinding, Event.after]

theorem withBinding (hid : (s.scope? id).isSome = true)
    (hsound : (Event.bound id key n b).Sound s s.history) :
    (s.withBinding id key n b).Recorded := by
  refine recorded_of_modified (f := (·.insert key b)) h (fun scope hkeys => ?_) (fun _ => rfl) rfl rfl
    (fun other k => ?_) hsound
  · exact Scope.nodup_keys_insert key hkeys b
  · rw [binding?_withBinding hid, Event.after]

theorem withRefusal (hsound : (Event.refused id key n b).Sound s s.history) :
    (s.withRefusal id key n b).Recorded where
  keys_nodup := h.keys_nodup
  binding?_eq := h.binding?_eq
  chronicle := ⟨hsound, h.chronicle.mono fun _ _ hk => hk⟩

end State.Recorded

/-- What a statement is told of the scopes is what is on record, and its notes are on record. -/
private theorem recorded_notes {r : State} {es : List Event} (hs : s.Recorded)
    (hspeech : s.Says Kind.walked r) (hes : r.history = es ++ s.history) (id : ScopeId)
    (key : Datum.Key) : s.binding? id key = replayed id key r.history ∧ es ⊆ notesOf r.history := by
  have hall : ∀ e ∈ es, e.isNote = true := fun e he => (hspeech.isNote hes e he).isNote
  constructor
  · rw [hes, replayed_notes hall, hs.binding?_eq]
  · rw [hes]
    exact subset_notesOf hall

theorem Move.recorded (h : Move on s t) (hs : s.Recorded) : t.Recorded := by
  cases h with
  | keep h => exact hs.keeps h
  | load id key use _ _ => exact hs.withUse use
  | bind id key n b _ hid hspeech hes hmade _ hhides =>
    obtain ⟨hold, hsub⟩ := recorded_notes hs hspeech hes id key
    rw [hold] at hmade hhides
    refine (hs.keeps hspeech.keeps).withBinding ?_ ⟨hmade, hhides.mono hsub ?_⟩
    · rwa [State.scope?, hspeech.scopes_eq]
    · exact fun kind hk => (hspeech.alike.kindOf_eq id).trans hk
  | refuse id key n b hspeech hes hrefused =>
    obtain ⟨hold, hsub⟩ := recorded_notes hs hspeech hes id key
    rw [hold] at hrefused
    exact (hs.keeps hspeech.keeps).withRefusal (hrefused.mono hsub)
  | delete id key _ => exact hs.withoutBinding

theorem Moves.recorded (h : Moves on s t) (hs : s.Recorded) : t.Recorded := by
  induction h with
  | refl => exact hs
  | tail _ h ih => exact h.recorded ih

end ScopeLint
