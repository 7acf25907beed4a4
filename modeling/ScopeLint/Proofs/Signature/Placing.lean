import Mathlib.Data.List.Nodup
import Mathlib.Data.List.Perm.Subperm
import Mathlib.Data.List.Range
import ScopeLint.Proofs.Effects

/-! # Which argument goes to which parameter

The rules for calls are said apart from the check: an argument goes to a parameter by its place or
by its name, and what no parameter takes goes to a starred one. The slots that the check fills are
then the parameters that an argument goes to, and its answer tells whether every argument finds a
place and which parameters are left without one. -/
namespace ScopeLint

open List

/-- An argument of a call: the one at place `i`, or the one with a keyword. -/
inductive Argument where
  | place (i : Nat)
  | keyword (name : String)
  deriving DecidableEq

/-- What takes arguments: parameters, by place, and the two starred ones. -/
inductive Receiver where
  | positional (i : Nat)
  | keywordOnly (i : Nat)
  | more
  | keywords

namespace Receiver

/-- A parameter takes one argument, a starred one any number. -/
def IsSingle : Receiver → Prop
  | .positional _ | .keywordOnly _ => True
  | .more | .keywords => False

@[simp] theorem isSingle_positional (i : Nat) : (positional i).IsSingle := trivial

@[simp] theorem isSingle_keywordOnly (i : Nat) : (keywordOnly i).IsSingle := trivial

end Receiver

/-- How a call is written: the number of arguments by place, the keywords in their order, and
whether `*` and `**` stand for further arguments. -/
structure Arguments where
  count : Nat
  keywords : List String
  more : Bool
  others : Bool

/-- So many arguments by place, then the keywords. -/
def Argument.listOf (count : Nat) (keywords : List String) : List Argument :=
  (range count).map .place ++ keywords.map .keyword

def Arguments.listed (a : Arguments) : List Argument := Argument.listOf a.count a.keywords

/-- The fields of `call` say the arguments `a`. -/
structure NodeOf.States (call : Node) (a : Arguments) : Prop where
  positional : ∃ items, call.itemsOf "args" = .ok items ∧ items.length = a.count
  keywords : ∃ items, call.itemsOf "keywords" = .ok items ∧
    List.Forall₂ (fun item k => item.get "arg" = .ok (.text k)) items a.keywords
  more : Signature.given call "starargs" = .ok a.more
  others : Signature.given call "kwargs" = .ok a.others

/-- The call does not fit the parameters, whatever it leaves out. -/
def CallProblem.Misplaces : CallProblem → Prop
  | .tooMany _ | .unexpected _ | .repeated _ => True
  | .tooFew _ | .missingKeywordOnly _ => False

namespace Signature

variable {s : Signature} {ps ks keywords : List String} {args few : List Argument}
  {a : Argument} {k : String} {r : Receiver} {f g : Filled} {i n d : Nat}

/-- What an argument goes to. -/
inductive Goes (s : Signature) : Argument → Receiver → Prop
  | place {i : Nat} : i < s.positional.length → Goes s (.place i) (.positional i)
  | surplus {i : Nat} : s.positional.length ≤ i → s.takesMore = true → Goes s (.place i) .more
  | name {k : String} {i : Nat} : s.positional[i]? = some (.text k) →
      Goes s (.keyword k) (.positional i)
  | keywordOnly {k : String} {i : Nat} : s.keywordOnly[i]? = some (.text k) →
      Goes s (.keyword k) (.keywordOnly i)
  | other {k : String} : .text k ∉ s.positional → .text k ∉ s.keywordOnly →
      s.takesKeywords = true → Goes s (.keyword k) .keywords

/-- One of the arguments goes to `r`. -/
def Given (s : Signature) (args : List Argument) (r : Receiver) : Prop :=
  ∃ a ∈ args, s.Goes a r

/-- Every argument goes somewhere, and no parameter gets two. -/
structure Placed (s : Signature) (args : List Argument) : Prop where
  goes : ∀ a ∈ args, ∃ r, s.Goes a r
  single : args.Pairwise fun a b => ∀ r : Receiver, r.IsSingle → s.Goes a r → ¬ s.Goes b r

/-- The arguments can be bound, but for keyword-only parameters that may lack theirs. -/
structure Binds (s : Signature) (args : List Argument) : Prop extends Placed s args where
  nodup : args.Nodup
  given : ∀ i < s.positional.length - s.defaults, s.Given args (.positional i)

/-- One more argument finds a place beside the others. -/
structure Free (s : Signature) (args : List Argument) (a : Argument) : Prop where
  goes : ∃ r, s.Goes a r
  single : ∀ r : Receiver, r.IsSingle → s.Goes a r → ¬ s.Given args r

/-- Parameters have texts for names, no two of them the same. -/
structure Named (s : Signature) (ps ks : List String) : Prop where
  positional : s.positional = ps.map .text
  keywordOnly : s.keywordOnly = ks.map .text
  nodup : (ps ++ ks).Nodup

@[simp] theorem given_append : s.Given (args ++ [a]) r ↔ s.Given args r ∨ s.Goes a r := by
  simp [Given, or_and_right, exists_or]

theorem Placed.of_sublist (h : s.Placed args) (hfew : few.Sublist args) : s.Placed few :=
  ⟨fun a ha => h.goes a (hfew.subset ha), h.single.sublist hfew⟩

theorem placed_append_iff : s.Placed (args ++ [a]) ↔ s.Placed args ∧ s.Free args a := by
  constructor
  · intro h
    refine ⟨h.of_sublist (sublist_append_left _ _), h.goes a (by simp), ?_⟩
    rintro r hr ha ⟨b, hb, hbr⟩
    exact (pairwise_append.mp h.single).2.2 b hb a (by simp) r hr hbr ha
  · rintro ⟨h, ha⟩
    refine ⟨?_, ?_⟩
    · intro b hb
      rcases mem_append.mp hb with hb | hb
      · exact h.goes b hb
      · rw [mem_singleton.mp hb]
        exact ha.goes
    · refine pairwise_append.mpr ⟨h.single, pairwise_singleton _ _, ?_⟩
      intro b hb c hc r hr hbr hcr
      rw [mem_singleton.mp hc] at hcr
      exact ha.single r hr hcr ⟨b, hb, hbr⟩

theorem listOf_sublist (count m : Nat) (keywords extra : List String) :
    (Argument.listOf count keywords).Sublist (Argument.listOf (count + m) (keywords ++ extra)) := by
  apply List.Sublist.append
  · rw [range_add, map_append]
    exact sublist_append_left _ _
  · rw [map_append]
    exact sublist_append_left _ _

theorem nodup_listOf {count : Nat} (h : keywords.Nodup) :
    (Argument.listOf count keywords).Nodup := by
  apply List.Nodup.append
  · exact nodup_range.map fun i j hij => by cases hij; rfl
  · exact h.map fun i j hij => by cases hij; rfl
  · intro a ha hb
    obtain ⟨i, -, rfl⟩ := mem_map.mp ha
    simp at hb

section Names

theorem slotOf_map (names : List String) (k : String) :
    slotOf (names.map .text) (.text k) = names.findIdx? (· == k) := by
  rw [slotOf, findIdx?_map]
  congr 1
  funext x
  simp [Datum.same]

theorem slotOf_eq_none_iff : slotOf (ps.map .text) (.text k) = none ↔ k ∉ ps := by
  rw [slotOf_map, findIdx?_eq_none_iff]
  constructor
  · intro h hk
    simpa using h k hk
  · rintro h x hx
    simpa using fun hxk : x = k => h (hxk ▸ hx)

theorem getElem?_of_slotOf (h : slotOf (ps.map .text) (.text k) = some i) : ps[i]? = some k := by
  rw [slotOf_map] at h
  obtain ⟨hi, hk, -⟩ := findIdx?_eq_some_iff_getElem.mp h
  rw [getElem?_eq_getElem hi, eq_of_beq hk]

theorem getElem?_map_text : (ps.map Datum.text)[i]? = some (.text k) ↔ ps[i]? = some k := by
  simp [getElem?_map]

theorem text_mem_map : Datum.text k ∈ ps.map Datum.text ↔ k ∈ ps := by simp

theorem getElem?_unique (hnodup : ps.Nodup) {j : Nat} (hi : ps[i]? = some k)
    (hj : ps[j]? = some k) : i = j := by
  obtain ⟨hi, rfl⟩ := List.getElem?_eq_some_iff.mp hi
  obtain ⟨hj, hij⟩ := List.getElem?_eq_some_iff.mp hj
  exact ((hnodup.getElem_inj_iff).mp hij).symm

variable (hs : s.Named ps ks)

include hs

theorem Named.positional_nodup : ps.Nodup := hs.nodup.of_append_left

theorem Named.keywordOnly_nodup : ks.Nodup := hs.nodup.of_append_right

theorem Named.disjoint (hp : k ∈ ps) : k ∉ ks :=
  fun hk => disjoint_of_nodup_append hs.nodup hp hk

theorem Named.goes_positional_iff : s.Goes (.keyword k) (.positional i) ↔ ps[i]? = some k := by
  rw [← getElem?_map_text, ← hs.positional]
  exact ⟨fun h => by cases h; assumption, .name⟩

theorem Named.goes_keywordOnly_iff : s.Goes (.keyword k) (.keywordOnly i) ↔ ks[i]? = some k := by
  rw [← getElem?_map_text, ← hs.keywordOnly]
  exact ⟨fun h => by cases h; assumption, .keywordOnly⟩

theorem Named.goes_keywords_iff :
    s.Goes (.keyword k) .keywords ↔ k ∉ ps ∧ k ∉ ks ∧ s.takesKeywords = true := by
  rw [← @text_mem_map ps, ← @text_mem_map ks, ← hs.positional, ← hs.keywordOnly]
  exact ⟨fun h => by cases h; exact ⟨‹_›, ‹_›, ‹_›⟩, fun h => .other h.1 h.2.1 h.2.2⟩

end Names

section Slots

/-- The slots are the places of which `p` holds, each once. -/
structure Lists (slots : List Int) (p : Nat → Prop) : Prop where
  nodup : slots.Nodup
  mem_iff : ∀ j : Int, j ∈ slots ↔ ∃ i : Nat, j = i ∧ p i

variable {slots : List Int} {p q : Nat → Prop} {j : Int} {xs ys : List Int}

theorem Lists.natCast_mem (h : Lists slots p) : (i : Int) ∈ slots ↔ p i := by
  rw [h.mem_iff]
  constructor
  · rintro ⟨j, hij, hj⟩
    rwa [Int.ofNat_inj.mp hij]
  · exact fun hi => ⟨i, rfl, hi⟩

theorem Lists.congr (h : Lists slots p) (hpq : ∀ i, q i ↔ p i) : Lists slots q :=
  ⟨h.nodup, by simpa only [hpq] using h.mem_iff⟩

theorem Lists.append (h : Lists slots p) (hi : ¬ p i) :
    Lists (slots ++ [(i : Int)]) fun j => p j ∨ j = i := by
  refine ⟨?_, ?_⟩
  · refine h.nodup.append (nodup_singleton _) ?_
    rw [disjoint_singleton, h.natCast_mem]
    exact hi
  · intro j
    rw [mem_append, mem_singleton, h.mem_iff]
    constructor
    · rintro (⟨l, rfl, hl⟩ | rfl)
      · exact ⟨l, rfl, .inl hl⟩
      · exact ⟨i, rfl, .inr rfl⟩
    · rintro ⟨l, rfl, hl | rfl⟩
      · exact .inl ⟨l, rfl, hl⟩
      · exact .inr rfl

theorem mem_lastSlots : j ∈ lastSlots n d ↔ (n : Int) - d ≤ j ∧ j < n := by
  rw [lastSlots, mem_map]
  constructor
  · rintro ⟨i, hi, rfl⟩
    have := mem_range.mp hi
    omega
  · intro h
    refine ⟨(j - (n - d)).toNat, mem_range.mpr ?_, ?_⟩ <;> omega

theorem nodup_lastSlots : (lastSlots n d).Nodup := by
  refine nodup_range.map fun i j hij => ?_
  have : (n : Int) - d + i = n - d + j := hij
  omega

theorem nodup_firstSlots (n : Nat) : ((range n).map fun i : Nat => (i : Int)).Nodup :=
  nodup_range.map fun _ _ hij => Int.ofNat_inj.mp hij

theorem mem_union : j ∈ union xs ys ↔ j ∈ xs ∨ j ∈ ys := by
  rw [union, mem_append, mem_filter]
  by_cases hj : j ∈ xs <;> simp [hj]

theorem nodup_union (hx : xs.Nodup) (hy : ys.Nodup) : (union xs ys).Nodup := by
  refine hx.append (hy.filter _) ?_
  intro j hj hmem
  simp [hj] at hmem

/-- With the slots of defaults, fewer than all are filled just if a parameter without a default has
nothing. -/
theorem Lists.length_union_lt_iff (h : Lists slots p) (hp : ∀ i, p i → i < n) :
    (union slots (lastSlots n d)).length < n ↔ ∃ i < n - d, ¬ p i := by
  have hnodup := nodup_union h.nodup (nodup_lastSlots (n := n) (d := d))
  constructor
  · intro hlt
    by_contra hgiven
    have hsub : (range n).map (fun i : Nat => (i : Int)) ⊆ union slots (lastSlots n d) := by
      intro j hj
      obtain ⟨i, hi, rfl⟩ := mem_map.mp hj
      have hi := mem_range.mp hi
      rw [mem_union, h.natCast_mem, mem_lastSlots]
      by_cases hlow : i < n - d
      · exact .inl (by_contra fun hpi => hgiven ⟨i, hlow, hpi⟩)
      · right
        omega
    have := (subperm_of_subset (nodup_firstSlots n) hsub).length_le
    simp only [length_map, length_range] at this
    omega
  · rintro ⟨i, hi, hpi⟩
    have hnot : (i : Int) ∉ union slots (lastSlots n d) := by
      rw [mem_union, h.natCast_mem, mem_lastSlots]
      rintro (hmem | hmem)
      · exact hpi hmem
      · omega
    have hsub : (i : Int) :: union slots (lastSlots n d) ⊆
        (range n).map fun i : Nat => (i : Int) := by
      intro j hj
      rw [mem_cons, mem_union, h.mem_iff, mem_lastSlots] at hj
      rw [mem_map]
      rcases hj with rfl | ⟨l, rfl, hl⟩ | hj
      · exact ⟨i, mem_range.mpr (by omega), rfl⟩
      · exact ⟨l, mem_range.mpr (hp l hl), rfl⟩
      · exact ⟨j.toNat, mem_range.mpr (by omega), by omega⟩
    have hcons := nodup_cons.mpr ⟨hnot, hnodup⟩
    have := (subperm_of_subset hcons hsub).length_le
    simp only [length_cons, length_map, length_range] at this
    omega

/-- What a filter of numbered items leaves if it takes items up to a place only. -/
theorem filter_zipIdx_lt {α : Type} (q : α → Bool) (xs : List α) (m start : Nat) :
    ((xs.zipIdx start).filter fun e => decide (e.2 < start + m) && q e.1).map (·.1) =
      (xs.take m).filter q := by
  induction xs generalizing m start with
  | nil => simp
  | cons x rest ih =>
    cases m with
    | zero =>
      have hnone : ((x :: rest).zipIdx start).filter
          (fun e => decide (e.2 < start + 0) && q e.1) = [] := by
        rw [filter_eq_nil_iff]
        rintro ⟨y, i⟩ hmem
        have := le_snd_of_mem_zipIdx hmem
        simp only [Bool.and_eq_true, decide_eq_true_eq, not_and]
        omega
      rw [hnone]
      rfl
    | succ m =>
      have hplace : start + (m + 1) = start + 1 + m := by omega
      have hhere : start < start + 1 + m := by omega
      rw [zipIdx_cons, take_succ_cons, filter_cons, filter_cons, hplace,
        ← ih m (start + 1)]
      cases hq : q x with
      | true => simp [hhere]
      | false => simp

/-- The keyword-only parameters before the last `d` that none of the keywords is for. -/
def omitted (ks : List String) (d : Nat) (keywords : List String) : List String :=
  (ks.take (ks.length - d)).filter (· ∉ keywords)

theorem Lists.unfilled_eq (h : Lists slots p) (hp : ∀ i k, ks[i]? = some k → (p i ↔ k ∈ keywords)) :
    unfilled (ks.map .text) (union slots (lastSlots ks.length d)) =
      (omitted ks d keywords).map .text := by
  rw [omitted, ← filter_zipIdx_lt _ ks (ks.length - d) 0, unfilled, zipIdx_map,
    filter_map, map_map, map_map]
  refine congrArg _ (filter_congr fun e he => ?_)
  have hk : ks[e.2]? = some e.1 := mem_zipIdx_iff_getElem?.mp he
  obtain ⟨hlt, -⟩ := List.getElem?_eq_some_iff.mp hk
  have hmem : (e.2 : Int) ∈ union slots (lastSlots ks.length d) ↔
      e.1 ∈ keywords ∨ ks.length - d ≤ e.2 := by
    rw [mem_union, h.natCast_mem, hp e.2 e.1 hk, mem_lastSlots]
    constructor
    · rintro (hin | hlast)
      · exact .inl hin
      · right
        omega
    · rintro (hin | hlast)
      · exact .inl hin
      · right
        omega
  rw [Bool.eq_iff_iff]
  simp only [Function.comp_apply, Prod.map_snd, id_eq, Bool.not_eq_true', contains_eq_mem,
    decide_eq_false_iff_not, hmem, Bool.and_eq_true, decide_eq_true_eq, Nat.zero_add]
  rw [not_or, Nat.not_le, and_comm]

end Slots

section Filling

/-- The filled slots are those that the arguments go to. -/
structure Filled.Fits (s : Signature) (args : List Argument) (f : Filled) : Prop where
  positional : Lists f.positional fun i => s.Given args (.positional i)
  keywordOnly : Lists f.keywordOnly fun i => s.Given args (.keywordOnly i)

/-- An argument that can only go to one parameter finds a place if nothing else went there. -/
theorem free_iff_of_goes (hr : r.IsSingle) (ha : ∀ q, s.Goes a q ↔ q = r) :
    s.Free args a ↔ ¬ s.Given args r := by
  constructor
  · exact fun h => h.single r hr ((ha r).mpr rfl)
  · intro h
    refine ⟨⟨r, (ha r).mpr rfl⟩, ?_⟩
    intro q _ hq
    rwa [(ha q).mp hq]

theorem Named.goes_iff_positional (hs : s.Named ps ks) (hk : ps[i]? = some k) (q : Receiver) :
    s.Goes (.keyword k) q ↔ q = .positional i := by
  have hp := mem_of_getElem? hk
  constructor
  · intro h
    cases q with
    | positional j => rw [getElem?_unique hs.positional_nodup hk (hs.goes_positional_iff.mp h)]
    | keywordOnly j =>
      exact absurd (mem_of_getElem? (hs.goes_keywordOnly_iff.mp h)) (hs.disjoint hp)
    | more => cases h
    | keywords => exact absurd hp (hs.goes_keywords_iff.mp h).1
  · rintro rfl
    exact hs.goes_positional_iff.mpr hk

theorem Named.goes_iff_keywordOnly (hs : s.Named ps ks) (hk : ks[i]? = some k) (q : Receiver) :
    s.Goes (.keyword k) q ↔ q = .keywordOnly i := by
  have hks := mem_of_getElem? hk
  constructor
  · intro h
    cases q with
    | positional j =>
      exact absurd hks (hs.disjoint (mem_of_getElem? (hs.goes_positional_iff.mp h)))
    | keywordOnly j =>
      rw [getElem?_unique hs.keywordOnly_nodup hk (hs.goes_keywordOnly_iff.mp h)]
    | more => cases h
    | keywords => exact absurd hks (hs.goes_keywords_iff.mp h).2.1
  · rintro rfl
    exact hs.goes_keywordOnly_iff.mpr hk

theorem Named.goes_iff_keywords (hs : s.Named ps ks) (hp : k ∉ ps) (hk : k ∉ ks) (q : Receiver) :
    s.Goes (.keyword k) q ↔ q = .keywords ∧ s.takesKeywords = true := by
  constructor
  · intro h
    cases q with
    | positional j => exact absurd (mem_of_getElem? (hs.goes_positional_iff.mp h)) hp
    | keywordOnly j => exact absurd (mem_of_getElem? (hs.goes_keywordOnly_iff.mp h)) hk
    | more => cases h
    | keywords => exact ⟨rfl, (hs.goes_keywords_iff.mp h).2.2⟩
  · rintro ⟨rfl, htakes⟩
    exact hs.goes_keywords_iff.mpr ⟨hp, hk, htakes⟩

/-- One more keyword: it is taken if it finds a place, and refused if it does not. -/
theorem Filled.Fits.add (hs : s.Named ps ks) (hf : f.Fits s args) (k : String) :
    (∃ g, f.add s (.text k) = .ok g ∧ g.Fits s (args ++ [.keyword k]) ∧
      s.Free args (.keyword k)) ∨
    (∃ p, f.add s (.text k) = .error p ∧ p.Misplaces ∧ ¬ s.Free args (.keyword k)) := by
  unfold Filled.add
  cases hslot : slotOf s.positional (.text k) with
  | some i =>
    rw [hs.positional] at hslot
    have hgoes := hs.goes_iff_positional (getElem?_of_slotOf hslot)
    rw [free_iff_of_goes (by simp) hgoes]
    by_cases hgiven : s.Given args (.positional i)
    · right
      simp [hf.positional.natCast_mem, hgiven, CallProblem.Misplaces]
    · left
      simp only [contains_eq_mem, hf.positional.natCast_mem, hgiven]
      refine ⟨_, rfl, ⟨?_, ?_⟩, not_false⟩
      · exact (hf.positional.append hgiven).congr fun j => by simp [hgoes]
      · exact hf.keywordOnly.congr fun j => by simp [hgoes]
  | none =>
    rw [hs.positional, slotOf_eq_none_iff] at hslot
    cases hslot' : slotOf s.keywordOnly (.text k) with
    | some i =>
      rw [hs.keywordOnly] at hslot'
      have hgoes := hs.goes_iff_keywordOnly (getElem?_of_slotOf hslot')
      rw [free_iff_of_goes (by simp) hgoes]
      by_cases hgiven : s.Given args (.keywordOnly i)
      · right
        simp [hf.keywordOnly.natCast_mem, hgiven, CallProblem.Misplaces]
      · left
        simp only [contains_eq_mem, hf.keywordOnly.natCast_mem, hgiven]
        refine ⟨_, rfl, ⟨?_, ?_⟩, not_false⟩
        · exact hf.positional.congr fun j => by simp [hgoes]
        · exact (hf.keywordOnly.append hgiven).congr fun j => by simp [hgoes]
    | none =>
      rw [hs.keywordOnly, slotOf_eq_none_iff] at hslot'
      have hgoes := hs.goes_iff_keywords hslot hslot'
      cases htakes : s.takesKeywords with
      | true =>
        left
        refine ⟨f, rfl, ⟨?_, ?_⟩, ⟨.keywords, (hgoes _).mpr ⟨rfl, htakes⟩⟩, ?_⟩
        · exact hf.positional.congr fun j => by simp [hgoes]
        · exact hf.keywordOnly.congr fun j => by simp [hgoes]
        · intro q hq hgo
          rw [((hgoes q).mp hgo).1] at hq
          cases hq
      | false =>
        right
        refine ⟨_, rfl, trivial, ?_⟩
        rintro ⟨⟨q, hq⟩, -⟩
        rw [((hgoes q).mp hq).2] at htakes
        cases htakes

theorem bindKeywords_cons {item : Value} (hitem : item.get "arg" = .ok (.text k))
    (items : List Value) : s.bindKeywords f (item :: items) =
      match f.add s (.text k) with
      | .ok g => s.bindKeywords g items
      | .error p => .ok (.error p) := by
  rw [Signature.bindKeywords, hitem]
  rfl

/-- Keywords one after the other, by induction on them: all find a place, or one does not. -/
theorem Filled.Fits.bindKeywords (hs : s.Named ps ks) {items : List Value}
    (hitems : List.Forall₂ (fun item k => item.get "arg" = .ok (.text k)) items keywords)
    (hf : f.Fits s args) (hplaced : s.Placed args) : (∃ g, s.bindKeywords f items = .ok (.ok g) ∧
      g.Fits s (args ++ keywords.map .keyword) ∧ s.Placed (args ++ keywords.map .keyword)) ∨
    (∃ p, s.bindKeywords f items = .ok (.error p) ∧ p.Misplaces ∧
      ¬ s.Placed (args ++ keywords.map .keyword)) := by
  induction hitems generalizing f args with
  | nil =>
    left
    rw [map_nil, append_nil]
    exact ⟨f, rfl, hf, hplaced⟩
  | @cons item k items keywords hitem _ ih =>
    have hlist : args ++ (k :: keywords).map .keyword =
        (args ++ [.keyword k]) ++ keywords.map .keyword := by simp
    rw [hlist]
    rcases hf.add hs k with ⟨g, hg, hfits, hfree⟩ | ⟨p, hp, hmis, hnot⟩
    · rcases ih hfits (placed_append_iff.mpr ⟨hplaced, hfree⟩) with ⟨g', hg', h⟩ | ⟨p, hp, h⟩
      · left
        refine ⟨g', ?_, h⟩
        rw [bindKeywords_cons hitem, hg]
        exact hg'
      · right
        refine ⟨p, ?_, h⟩
        rw [bindKeywords_cons hitem, hg]
        exact hp
    · right
      refine ⟨p, ?_, hmis, ?_⟩
      · rw [bindKeywords_cons hitem, hp]
      · intro hall
        have := hall.of_sublist (sublist_append_left _ _)
        exact hnot (placed_append_iff.mp this).2

end Filling

section Answer

variable {call : Node} {a : Arguments} {count : Nat}

theorem given_places_iff : s.Given ((range count).map .place) (.positional i) ↔
    i < min count s.positional.length := by
  rw [Nat.lt_min]
  constructor
  · rintro ⟨b, hb, hgoes⟩
    obtain ⟨j, hj, rfl⟩ := mem_map.mp hb
    cases hgoes with
    | place hlt => exact ⟨mem_range.mp hj, hlt⟩
  · rintro ⟨hi, hlt⟩
    exact ⟨.place i, mem_map.mpr ⟨i, mem_range.mpr hi, rfl⟩, .place hlt⟩

theorem not_given_places_keywordOnly :
    ¬ s.Given ((range count).map .place) (.keywordOnly i) := by
  rintro ⟨b, hb, hgoes⟩
  obtain ⟨j, -, rfl⟩ := mem_map.mp hb
  cases hgoes

theorem fits_places (s : Signature) (count : Nat) : Filled.Fits s ((range count).map .place)
      ⟨(range (min count s.positional.length)).map fun i : Nat => (i : Int), []⟩ := by
  refine ⟨⟨nodup_firstSlots _, fun j => ?_⟩, nodup_nil, fun j => ?_⟩
  · rw [mem_map]
    constructor
    · rintro ⟨i, hi, rfl⟩
      exact ⟨i, rfl, given_places_iff.mpr (mem_range.mp hi)⟩
    · rintro ⟨i, rfl, hi⟩
      exact ⟨i, mem_range.mpr (given_places_iff.mp hi), rfl⟩
  · simp [not_given_places_keywordOnly]

/-- Arguments by place alone need as many parameters, or a starred one. -/
theorem placed_places_iff : s.Placed ((range count).map .place) ↔
    count ≤ s.positional.length ∨ s.takesMore = true := by
  constructor
  · intro h
    by_contra hnot
    rw [not_or, Nat.not_le] at hnot
    obtain ⟨r, hr⟩ := h.goes (.place s.positional.length)
      (mem_map.mpr ⟨_, mem_range.mpr hnot.1, rfl⟩)
    cases hr with
    | place hlt => exact absurd hlt (Nat.lt_irrefl _)
    | surplus _ htakes => exact hnot.2 htakes
  · intro h
    refine ⟨?_, ?_⟩
    · intro b hb
      obtain ⟨i, hi, rfl⟩ := mem_map.mp hb
      have hi := mem_range.mp hi
      by_cases hlt : i < s.positional.length
      · exact ⟨_, .place hlt⟩
      · exact ⟨_, .surplus (Nat.le_of_not_lt hlt) (h.resolve_left (by omega))⟩
    · rw [pairwise_map]
      refine nodup_range.imp fun {i j} hne r hr hi hj => ?_
      cases hi with
      | place => cases hj with
        | place => exact hne rfl
      | surplus => cases hr

/-- The answers of the check, told from the rules: there is an argument without a place, or a
parameter without an argument that could still get one. Parameters that only keywords reach are
looked at last. -/
inductive Answers (s : Signature) (ks : List String) (a : Arguments) : Option CallProblem → Prop
  | misplaced {p : CallProblem} : p.Misplaces → ¬ s.Placed a.listed →
      Answers s ks a (some p)
  | tooFew {i : Nat} : s.Placed a.listed → a.more = false → a.others = false →
      i < s.positional.length - s.defaults →
      ¬ s.Given a.listed (.positional i) →
      Answers s ks a (some (.tooFew s.fewest))
  | missing : s.Placed a.listed →
      (a.more = false → ∀ i < s.positional.length - s.defaults,
        s.Given a.listed (.positional i)) →
      a.others = false → omitted ks s.keywordOnlyDefaults a.keywords ≠ [] →
      Answers s ks a (some (.missingKeywordOnly
        ((omitted ks s.keywordOnlyDefaults a.keywords).map .text)))
  | fits : s.Placed a.listed →
      (a.more = false → a.others = false → ∀ i < s.positional.length - s.defaults,
        s.Given a.listed (.positional i)) →
      (a.others = false → omitted ks s.keywordOnlyDefaults a.keywords = []) →
      Answers s ks a none

theorem Given.positional_lt (h : s.Given args (.positional i)) : i < s.positional.length := by
  obtain ⟨b, -, hgoes⟩ := h
  cases hgoes with
  | place hlt => exact hlt
  | name hk => exact (List.getElem?_eq_some_iff.mp hk).1

theorem Given.keywordOnly_lt (h : s.Given args (.keywordOnly i)) : i < s.keywordOnly.length := by
  obtain ⟨b, -, hgoes⟩ := h
  cases hgoes with
  | keywordOnly hk => exact (List.getElem?_eq_some_iff.mp hk).1

theorem mem_omitted : k ∈ omitted ks d keywords ↔
    (∃ i < ks.length - d, ks[i]? = some k) ∧ k ∉ keywords := by
  rw [omitted, mem_filter, decide_eq_true_eq, mem_iff_getElem?]
  refine and_congr_left fun _ => exists_congr fun i => ?_
  rw [getElem?_take]
  by_cases hi : i < ks.length - d <;> simp [hi]

/-- The end of the check, where all arguments have their places. -/
theorem answers_of_placed (hplaced : s.Placed a.listed)
    (hgiven : a.more = false → a.others = false → ∀ i < s.positional.length - s.defaults,
      s.Given a.listed (.positional i)) :
    s.Answers ks a (if omitted ks s.keywordOnlyDefaults a.keywords ≠ [] then
      if !a.others then
        some (.missingKeywordOnly ((omitted ks s.keywordOnlyDefaults a.keywords).map .text))
      else none else none) := by
  by_cases hnone : omitted ks s.keywordOnlyDefaults a.keywords = []
  · simp only [hnone, ne_eq, not_true_eq_false, if_false]
    exact .fits hplaced hgiven fun _ => hnone
  · cases hothers : a.others with
    | true =>
      simp only [Bool.not_true, Bool.false_eq_true, if_false, ite_self]
      exact .fits hplaced hgiven fun h => by simp [hothers] at h
    | false =>
      simp only [ne_eq, hnone, not_false_eq_true, if_true, Bool.not_false]
      exact .missing hplaced (fun hmore => hgiven hmore hothers) hothers hnone

variable (hs : s.Named ps ks)

include hs

/-- A keyword-only parameter gets an argument just if its name is among the keywords. -/
theorem Named.given_keywordOnly_iff (hk : ks[i]? = some k) :
    s.Given (Argument.listOf count keywords) (.keywordOnly i) ↔ k ∈ keywords := by
  constructor
  · rintro ⟨b, hb, hgoes⟩
    cases hgoes with
    | @keywordOnly k' _ hk' =>
      rw [hs.keywordOnly, getElem?_map_text, hk] at hk'
      cases hk'
      simpa [Argument.listOf] using hb
  · intro hmem
    exact ⟨.keyword k, by simp [Argument.listOf, hmem], hs.goes_keywordOnly_iff.mpr hk⟩

/-- Some keyword-only parameter before the last `d` gets nothing just if its name is omitted. -/
theorem Named.exists_not_given_iff :
    (∃ i < s.keywordOnly.length - d, ¬ s.Given (Argument.listOf count keywords) (.keywordOnly i)) ↔
      omitted ks d keywords ≠ [] := by
  have hlen : s.keywordOnly.length = ks.length := by rw [hs.keywordOnly, length_map]
  rw [hlen]
  constructor
  · rintro ⟨i, hi, hnot⟩
    have hlt : i < ks.length := by omega
    have hk := getElem?_eq_getElem hlt
    have hmem := mem_omitted.mpr ⟨⟨i, hi, hk⟩, fun h => hnot ((hs.given_keywordOnly_iff hk).mpr h)⟩
    exact ne_nil_of_mem hmem
  · intro hne
    obtain ⟨k, hk⟩ := exists_mem_of_ne_nil _ hne
    obtain ⟨⟨i, hi, hik⟩, hnot⟩ := mem_omitted.mp hk
    exact ⟨i, hi, fun h => hnot ((hs.given_keywordOnly_iff hik).mp h)⟩

theorem exists_answer (hfits : g.Fits s a.listed) (hplaced : s.Placed a.listed) :
    let positional := union g.positional (lastSlots s.positional.length s.defaults)
    let keywordOnly := union g.keywordOnly (lastSlots s.keywordOnly.length s.keywordOnlyDefaults)
    let last : Except Fault (Option CallProblem) :=
      if keywordOnly.length < s.keywordOnly.length then
        if !a.others then pure (some (.missingKeywordOnly (unfilled s.keywordOnly keywordOnly)))
        else pure none
      else pure none
    ∃ p, (if positional.length < s.positional.length then
        if !a.more then if !a.others then pure (some (.tooFew s.fewest)) else last else last
      else last) = .ok p ∧ s.Answers ks a p := by
  intro positional keywordOnly last
  have hfew : positional.length < s.positional.length ↔ _ :=
    hfits.positional.length_union_lt_iff fun _ => Given.positional_lt
  have hleft : keywordOnly.length < s.keywordOnly.length ↔ _ :=
    (hfits.keywordOnly.length_union_lt_iff fun _ => Given.keywordOnly_lt).trans
      hs.exists_not_given_iff
  have hnames : unfilled s.keywordOnly keywordOnly =
      (omitted ks s.keywordOnlyDefaults a.keywords).map .text := by
    have hlen : s.keywordOnly.length = ks.length := by rw [hs.keywordOnly, length_map]
    rw [← hfits.keywordOnly.unfilled_eq fun _ _ hk => hs.given_keywordOnly_iff hk, ← hlen,
      ← hs.keywordOnly]
  have hlast : last = .ok (if omitted ks s.keywordOnlyDefaults a.keywords ≠ [] then
      if !a.others then
        some (.missingKeywordOnly ((omitted ks s.keywordOnlyDefaults a.keywords).map .text))
      else none
    else none) := by
    simp only [last, hleft, hnames]
    split_ifs <;> rfl
  by_cases hall : ∃ i < s.positional.length - s.defaults, ¬ s.Given a.listed (.positional i)
  · rw [if_pos (hfew.mpr hall), hlast]
    obtain ⟨i, hi, hnot⟩ := hall
    cases hmore : a.more with
    | true => exact ⟨_, rfl, answers_of_placed hplaced fun h => by simp [hmore] at h⟩
    | false =>
      cases hothers : a.others with
      | true =>
        have hanswers : s.Answers ks a _ :=
          answers_of_placed hplaced fun _ h => by simp [hothers] at h
        rw [hothers] at hanswers
        exact ⟨_, rfl, hanswers⟩
      | false => exact ⟨_, rfl, .tooFew hplaced hmore hothers hi hnot⟩
  · rw [if_neg (mt hfew.mp hall), hlast]
    refine ⟨_, rfl, answers_of_placed hplaced fun _ _ i hi => ?_⟩
    by_contra hnot
    exact hall ⟨i, hi, hnot⟩

/-- The check answers what the rules say. -/
theorem problem?_answers (hplain : s.decorated = false)
    (hcall : call.States a) : ∃ p, s.problem? call = .ok p ∧ s.Answers ks a p := by
  obtain ⟨args, hargs, hcount⟩ := hcall.positional
  obtain ⟨items, hitems, hkeywords⟩ := hcall.keywords
  unfold problem?
  rw [hplain, hargs, hitems, hcall.more, hcall.others]
  simp only [Bool.false_eq_true, if_false, ok_bind, hcount]
  by_cases hmany : s.positional.length < a.count ∧ !s.takesMore
  · refine ⟨_, if_pos hmany, .misplaced trivial fun hplaced => ?_⟩
    have hplaces := placed_places_iff.mp (hplaced.of_sublist (sublist_append_left _ _))
    simp only [Bool.not_eq_true'] at hmany
    rcases hplaces with hle | htakes
    · omega
    · simp [htakes] at hmany
  · rw [if_neg hmany]
    have hplaces : s.Placed ((range a.count).map .place) := by
      rw [placed_places_iff]
      by_contra hnot
      rw [not_or, Nat.not_le, Bool.not_eq_true] at hnot
      exact hmany ⟨hnot.1, by simp [hnot.2]⟩
    rcases (fits_places s a.count).bindKeywords hs hkeywords hplaces with
      ⟨g, hg, hfits, hplaced⟩ | ⟨p, hp, hmis, hnot⟩
    · rw [hg, ok_bind]
      exact exists_answer hs hfits hplaced
    · rw [hp]
      exact ⟨_, rfl, .misplaced hmis hnot⟩

end Answer

end Signature

end ScopeLint
