import Mathlib.Order.Basic
import Mathlib.Order.RelClasses
import Mathlib.Algebra.Order.Ring.Int
import Mathlib.Data.List.Forall2

/-!
# `Lib.Compare` — three-way comparisons that may not return

A comparison answers `-1`, `0` or `1`. On linked data it recurses along pointers and need not return, so
a comparison here is a partial function `Cmp α`. `Lawful` is what an order needs of it, with partiality
kept: swapping the operands negates the answer, and `≤` composes, *returning* whenever both links do.

The combinators are the ones size-first, element-wise comparison of containers is built from: `ofLT`
(scalars), `ranked` (a rank first), `pair` (first component, then second), `elems` (position by
position), `sized` (size first, then `elems`). Each keeps `Lawful`, and each is monotone in the comparison of the
elements (`Cmp.Le`), so they can be iterated to any depth.
-/

namespace Cclib
namespace Compare

variable {α β : Type*}

/-- A three-way comparison; `none` when it does not return. -/
abbrev Cmp (α : Type*) := α → α → Option Int

/-- What an order needs of a comparison. -/
structure Lawful (cmp : Cmp α) : Prop where
  /-- Swapping the operands negates the answer. -/
  swap : ∀ {a b : α} {r : Int}, cmp a b = some r → cmp b a = some (-r)
  /-- `≤` composes, and the composite is an equality only when both links are. -/
  trans : ∀ {a b c : α} {r s : Int}, cmp a b = some r → cmp b c = some s → r ≤ 0 → s ≤ 0 →
    ∃ t, cmp a c = some t ∧ t ≤ 0 ∧ (t = 0 ↔ r = 0 ∧ s = 0)

/-- `cmp'` answers whatever `cmp` answers. -/
def Cmp.Le (cmp cmp' : Cmp α) : Prop := ∀ a b r, cmp a b = some r → cmp' a b = some r

/-- `cmp'` answers on related operands whatever `cmp` answers. -/
def Cmp.LeVia (cmp : Cmp α) (R : α → β → Prop) (cmp' : Cmp β) : Prop :=
  ∀ ⦃a b : α⦄ ⦃a' b' : β⦄ ⦃r : Int⦄, R a a' → R b b' → cmp a b = some r → cmp' a' b' = some r

theorem Cmp.Le.via {cmp cmp' : Cmp α} (h : cmp.Le cmp') : cmp.LeVia Eq cmp' := by
  rintro a b _ _ r rfl rfl hr
  exact h a b r hr

/-- `cmp` and `cmp'` both obey `Lawful.trans` at `a`, `b`, `c`: the shape every combinator passes on. -/
def TransAt (cmp : Cmp α) (a b c : α) : Prop :=
  ∀ r s : Int, cmp a b = some r → cmp b c = some s → r ≤ 0 → s ≤ 0 →
    ∃ t, cmp a c = some t ∧ t ≤ 0 ∧ (t = 0 ↔ r = 0 ∧ s = 0)

theorem Lawful.transAt {cmp : Cmp α} (h : Lawful cmp) (a b c : α) : TransAt cmp a b c :=
  fun _ _ hab hbc hr hs => h.trans hab hbc hr hs

/-! ## Scalars -/

/-- Comparison of scalars with `<`. -/
def ofLT [LT α] [DecidableLT α] (a b : α) : Int := if a < b then -1 else if b < a then 1 else 0

section OfLT
variable [LT α] [DecidableLT α]

theorem ofLT_lt_iff {a b : α} : ofLT a b < 0 ↔ a < b := by
  unfold ofLT
  split
  · simp_all
  · split <;> simp_all

theorem ofLT_self [Std.Irrefl (fun a b : α => a < b)] (a : α) : ofLT a a = 0 := by
  have h : ¬ a < a := Std.Irrefl.irrefl a
  simp [ofLT, h]

variable [Std.Asymm (fun a b : α => a < b)]

theorem ofLT_swap (a b : α) : ofLT b a = - ofLT a b := by
  unfold ofLT
  by_cases hab : a < b
  · have hba : ¬ b < a := Std.Asymm.asymm a b hab
    simp [hab, hba]
  · by_cases hba : b < a <;> simp [hab, hba]

variable [Std.Trichotomous (fun a b : α => a < b)]

theorem ofLT_eq_zero_iff {a b : α} : ofLT a b = 0 ↔ a = b := by
  unfold ofLT
  constructor
  · intro h
    by_cases hab : a < b
    · simp [hab] at h
    · by_cases hba : b < a
      · simp [hab, hba] at h
      · exact Std.Trichotomous.trichotomous a b hab hba
  · rintro rfl
    have h : ¬ a < a := fun h => Std.Asymm.asymm a a h h
    simp [h]

/-- A total `<` gives a lawful comparison. -/
theorem lawful_ofLT [Trans (fun a b : α => a < b) (fun a b : α => a < b) (fun a b : α => a < b)] :
    Lawful (fun a b : α => some (ofLT a b)) where
  swap := by
    intro a b r h
    rw [← Option.some.inj h, ofLT_swap]
  trans := by
    intro a b c r s hr hs hr0 hs0
    obtain rfl := Option.some.inj hr
    obtain rfl := Option.some.inj hs
    refine ⟨ofLT a c, rfl, ?_⟩
    rcases Int.lt_or_eq_of_le hr0 with hab | hab
    · rcases Int.lt_or_eq_of_le hs0 with hbc | hbc
      · have hac : a < c := Trans.trans (ofLT_lt_iff.mp hab) (ofLT_lt_iff.mp hbc)
        have := ofLT_lt_iff.mpr hac
        omega
      · obtain rfl := ofLT_eq_zero_iff.mp hbc
        omega
    · obtain rfl := ofLT_eq_zero_iff.mp hab
      omega

end OfLT

/-! ## Ranks -/

/-- Rank first; on a tie, `cmp`. -/
def ranked (rank : α → Nat) (cmp : Cmp α) : Cmp α := fun a b =>
  if rank a ≠ rank b then some (if rank a < rank b then -1 else 1) else cmp a b

theorem ranked_of_eq {rank : α → Nat} {cmp : Cmp α} {a b : α} (h : rank a = rank b) :
    ranked rank cmp a b = cmp a b := by
  simp [ranked, h]

theorem ranked_of_ne {rank : α → Nat} {cmp : Cmp α} {a b : α} (h : rank a ≠ rank b) :
    ranked rank cmp a b = some (if rank a < rank b then -1 else 1) := by
  simp [ranked, h]

theorem ranked_rel {rank : α → Nat} {rank' : β → Nat} {cmp : Cmp α} {cmp' : Cmp β} {a b : α} {a' b' : β}
    {r : Int} (ha : rank a = rank' a') (hb : rank b = rank' b')
    (hle : rank a = rank b → cmp a b = some r → cmp' a' b' = some r) (h : ranked rank cmp a b = some r) :
    ranked rank' cmp' a' b' = some r := by
  by_cases hab : rank a = rank b
  · rw [ranked_of_eq hab] at h
    rw [ranked_of_eq (by omega)]
    exact hle hab h
  · rw [ranked_of_ne hab] at h
    rw [ranked_of_ne (by omega), ← ha, ← hb]
    exact h

/-- `ranked` is lawful as soon as `cmp` is lawful inside each rank. -/
theorem lawful_ranked {rank : α → Nat} {cmp : Cmp α}
    (hswap : ∀ a b r, rank a = rank b → cmp a b = some r → cmp b a = some (-r))
    (htrans : ∀ a b c, rank a = rank b → rank b = rank c → TransAt cmp a b c) :
    Lawful (ranked rank cmp) where
  swap := by
    intro a b r hr
    by_cases hab : rank a = rank b
    · rw [ranked_of_eq hab] at hr
      rw [ranked_of_eq hab.symm]
      exact hswap a b r hab hr
    · rw [ranked_of_ne hab] at hr
      rw [ranked_of_ne (Ne.symm hab), ← Option.some.inj hr]
      split <;> split <;> simp <;> omega
  trans := by
    intro a b c r s hr hs hr0 hs0
    by_cases hab : rank a = rank b
    · by_cases hbc : rank b = rank c
      · rw [ranked_of_eq hab] at hr
        rw [ranked_of_eq hbc] at hs
        rw [ranked_of_eq (hab.trans hbc)]
        exact htrans a b c hab hbc r s hr hs hr0 hs0
      -- the ranks decide as soon as two of them differ
      · rw [ranked_of_ne hbc] at hs
        rw [ranked_of_ne (by omega)]
        refine ⟨_, rfl, ?_⟩
        split at hs <;> simp only [Option.some.injEq] at hs <;> split <;> omega
    · rw [ranked_of_ne hab] at hr
      by_cases hbc : rank b = rank c
      · rw [ranked_of_ne (by omega)]
        refine ⟨_, rfl, ?_⟩
        split at hr <;> simp only [Option.some.injEq] at hr <;> split <;> omega
      · rw [ranked_of_ne hbc] at hs
        split at hr <;> simp only [Option.some.injEq] at hr <;>
          split at hs <;> simp only [Option.some.injEq] at hs <;> try omega
        rw [ranked_of_ne (by omega), if_pos (by omega)]
        exact ⟨-1, rfl, by omega⟩

/-! ## Pairs -/

/-- First components first; on a tie, second components. -/
def pair (cmp : Cmp α) : Cmp (α × α) := fun a b => do
  let r ← cmp a.1 b.1
  if r ≠ 0 then some r else cmp a.2 b.2

theorem pair_eq_of_fst {cmp : Cmp α} {a b : α × α} {r : Int} (h : cmp a.1 b.1 = some r) :
    pair cmp a b = if r ≠ 0 then some r else cmp a.2 b.2 := by
  simp [pair, h]

theorem fst_of_pair {cmp : Cmp α} {a b : α × α} {r : Int} (h : pair cmp a b = some r) :
    ∃ p, cmp a.1 b.1 = some p ∧ ((p ≠ 0 ∧ r = p) ∨ (p = 0 ∧ cmp a.2 b.2 = some r)) := by
  cases hp : cmp a.1 b.1 with
  | none => simp [pair, hp] at h
  | some p =>
      refine ⟨p, rfl, ?_⟩
      rw [pair_eq_of_fst hp] at h
      by_cases hp0 : p = 0
      · exact Or.inr ⟨hp0, by simpa [hp0] using h⟩
      · rw [if_pos hp0] at h
        exact Or.inl ⟨hp0, (Option.some.inj h).symm⟩

theorem pair_rel {cmp : Cmp α} {cmp' : Cmp β} {R : α → β → Prop} (hle : cmp.LeVia R cmp') :
    (pair cmp).LeVia (fun e f => R e.1 f.1 ∧ R e.2 f.2) (pair cmp') := by
  intro a b a' b' r ha hb h
  obtain ⟨p, hp, ⟨hp0, rfl⟩ | ⟨rfl, hsnd⟩⟩ := fst_of_pair h
  · rw [pair_eq_of_fst (hle ha.1 hb.1 hp), if_pos hp0]
  · rw [pair_eq_of_fst (hle ha.1 hb.1 hp)]
    simpa using hle ha.2 hb.2 hsnd

theorem pair_mono {cmp cmp' : Cmp α} (hle : cmp.Le cmp') : (pair cmp).Le (pair cmp') :=
  fun _ _ _ h => pair_rel hle.via ⟨rfl, rfl⟩ ⟨rfl, rfl⟩ h

theorem pair_total {cmp : Cmp α} {a b : α × α} (h : ∃ r, cmp a.1 b.1 = some r) (h' : ∃ r, cmp a.2 b.2 = some r) :
    ∃ r, pair cmp a b = some r := by
  obtain ⟨r, hr⟩ := h
  rw [pair_eq_of_fst hr]
  split
  · exact ⟨r, rfl⟩
  · exact h'

theorem pair_tie {cmp : Cmp α} {a b : α × α} (h : cmp a.1 b.1 = some 0) (h' : cmp a.2 b.2 = some 0) :
    pair cmp a b = some 0 := by
  rw [pair_eq_of_fst h]
  simpa using h'

theorem Lawful.pair {cmp : Cmp α} (h : Lawful cmp) : Lawful (pair cmp) where
  swap := by
    intro a b r hr
    obtain ⟨p, hp, ⟨hp0, rfl⟩ | ⟨rfl, hsnd⟩⟩ := fst_of_pair hr
    · rw [pair_eq_of_fst (h.swap hp), if_pos (by omega)]
    · rw [pair_eq_of_fst (h.swap hp)]
      simpa using h.swap hsnd
  trans := by
    intro a b c r s hr hs hr0 hs0
    obtain ⟨p, hp, hp'⟩ := fst_of_pair hr
    obtain ⟨q, hq, hq'⟩ := fst_of_pair hs
    have hp0 : p ≤ 0 := by rcases hp' with ⟨_, rfl⟩ | ⟨rfl, _⟩ <;> omega
    have hq0 : q ≤ 0 := by rcases hq' with ⟨_, rfl⟩ | ⟨rfl, _⟩ <;> omega
    obtain ⟨u, hu, hu0, hu'⟩ := h.trans hp hq hp0 hq0
    by_cases hz : u = 0
    · obtain ⟨rfl, rfl⟩ := hu'.mp hz
      simp only [ne_eq, not_true_eq_false, false_and, true_and, false_or] at hp' hq'
      obtain ⟨t, ht, ht0, ht'⟩ := h.trans hp' hq' hr0 hs0
      exact ⟨t, by rw [pair_eq_of_fst hu]; simpa [hz] using ht, ht0, ht'⟩
    · refine ⟨u, by rw [pair_eq_of_fst hu, if_pos hz], hu0, ?_⟩
      rcases hp' with ⟨_, rfl⟩ | ⟨rfl, _⟩ <;> rcases hq' with ⟨_, rfl⟩ | ⟨rfl, _⟩ <;> omega

/-! ## Sequences -/

/-- Position by position; the first difference decides. Meant for sequences of one length. -/
def elems (cmp : Cmp α) : List α → List α → Option Int
  | a :: as, b :: bs => do
    let r ← cmp a b
    if r ≠ 0 then some r else elems cmp as bs
  | _, _ => some 0

/-- Size first; sequences of one size position by position. -/
def sized (cmp : Cmp α) : Cmp (List α) := ranked List.length (elems cmp)

theorem head_of_elems {cmp : Cmp α} {a b : α} {as bs : List α} {r : Int}
    (h : elems cmp (a :: as) (b :: bs) = some r) :
    ∃ p, cmp a b = some p ∧ ((p ≠ 0 ∧ r = p) ∨ (p = 0 ∧ elems cmp as bs = some r)) := by
  cases hp : cmp a b with
  | none => simp [elems, hp] at h
  | some p =>
      refine ⟨p, rfl, ?_⟩
      by_cases hp0 : p = 0
      · exact Or.inr ⟨hp0, by simpa [elems, hp, hp0] using h⟩
      · exact Or.inl ⟨hp0, by simpa [elems, hp, hp0, eq_comm] using h⟩

theorem elems_of_ne {cmp : Cmp α} {a b : α} {as bs : List α} {p : Int} (hp : cmp a b = some p)
    (hp0 : p ≠ 0) : elems cmp (a :: as) (b :: bs) = some p := by
  simp [elems, hp, hp0]

theorem elems_of_eq {cmp : Cmp α} {a b : α} {as bs : List α} (hp : cmp a b = some 0) :
    elems cmp (a :: as) (b :: bs) = elems cmp as bs := by
  simp [elems, hp]

/-- Sequences whose elements tie position by position. -/
theorem elems_tie {cmp : Cmp α} {as bs : List α} (h : List.Forall₂ (fun a b => cmp a b = some 0) as bs) :
    elems cmp as bs = some 0 := by
  induction h with
  | nil => rfl
  | cons hab _ ih => rw [elems_of_eq hab, ih]

theorem elems_rel {cmp : Cmp α} {cmp' : Cmp β} {R : α → β → Prop} (hle : cmp.LeVia R cmp') :
    ∀ {as : List α} {as' : List β} {bs : List α} {bs' : List β} {r : Int}, List.Forall₂ R as as' →
      List.Forall₂ R bs bs' → elems cmp as bs = some r → elems cmp' as' bs' = some r
  | _, _, _, _, r, .nil, _, h => by simpa [elems] using h
  | _, _, _, _, r, .cons _ _, .nil, h => by simpa [elems] using h
  | _, _, _, _, r, .cons ha has, .cons hb hbs, h => by
      obtain ⟨p, hp, ⟨hp0, rfl⟩ | ⟨rfl, htl⟩⟩ := head_of_elems h
      · exact elems_of_ne (hle ha hb hp) hp0
      · rw [elems_of_eq (hle ha hb hp)]
        exact elems_rel hle has hbs htl

theorem elems_mono {cmp cmp' : Cmp α} (hle : cmp.Le cmp') (as bs : List α) (r : Int)
    (h : elems cmp as bs = some r) : elems cmp' as bs = some r :=
  elems_rel hle.via (List.forall₂_refl as) (List.forall₂_refl bs) h

theorem elems_total {cmp : Cmp α} : ∀ {as bs : List α}, (∀ a ∈ as, ∀ b ∈ bs, ∃ r, cmp a b = some r) →
    ∃ r, elems cmp as bs = some r
  | [], _, _ => ⟨0, by simp [elems]⟩
  | _ :: _, [], _ => ⟨0, by simp [elems]⟩
  | a :: as, b :: bs, h => by
      obtain ⟨p, hp⟩ := h a (by simp) b (by simp)
      by_cases hp0 : p = 0
      · rw [elems_of_eq (hp0 ▸ hp)]
        exact elems_total (fun x hx y hy => h x (List.mem_cons_of_mem a hx) y (List.mem_cons_of_mem b hy))
      · exact ⟨p, elems_of_ne hp hp0⟩

theorem elems_swap {cmp : Cmp α} (h : Lawful cmp) : ∀ (as bs : List α) (r : Int),
    elems cmp as bs = some r → elems cmp bs as = some (-r)
  | [], [], r, hr => by simp_all [elems, eq_comm]
  | [], _ :: _, r, hr => by simp_all [elems, eq_comm]
  | _ :: _, [], r, hr => by simp_all [elems, eq_comm]
  | a :: as, b :: bs, r, hr => by
      obtain ⟨p, hp, ⟨hp0, rfl⟩ | ⟨rfl, htl⟩⟩ := head_of_elems hr
      · exact elems_of_ne (h.swap hp) (by omega)
      · rw [elems_of_eq (by simpa using h.swap hp)]
        exact elems_swap h as bs r htl

theorem elems_trans {cmp : Cmp α} (h : Lawful cmp) : ∀ (as bs cs : List α),
    as.length = bs.length → bs.length = cs.length → TransAt (elems cmp) as bs cs
  | [], [], [], _, _ => by
      intro r s hr hs _ _
      simp only [elems, Option.some.injEq] at hr hs
      exact ⟨0, rfl, le_refl 0, by omega⟩
  | a :: as, b :: bs, c :: cs, hab, hbc => by
      intro r s hr hs hr0 hs0
      obtain ⟨p, hp, hp'⟩ := head_of_elems hr
      obtain ⟨q, hq, hq'⟩ := head_of_elems hs
      have hp0 : p ≤ 0 := by rcases hp' with ⟨_, rfl⟩ | ⟨rfl, _⟩ <;> omega
      have hq0 : q ≤ 0 := by rcases hq' with ⟨_, rfl⟩ | ⟨rfl, _⟩ <;> omega
      obtain ⟨u, hu, hu0, hu'⟩ := h.trans hp hq hp0 hq0
      by_cases hz : u = 0
      · obtain ⟨rfl, rfl⟩ := hu'.mp hz
        simp only [ne_eq, not_true_eq_false, false_and, true_and, false_or] at hp' hq'
        obtain ⟨t, ht, ht'⟩ := elems_trans h as bs cs (by simpa using hab) (by simpa using hbc)
          r s hp' hq' hr0 hs0
        exact ⟨t, by rw [elems_of_eq (by rw [hu, hz]), ht], ht'⟩
      · refine ⟨u, elems_of_ne hu hz, hu0, ?_⟩
        rcases hp' with ⟨_, rfl⟩ | ⟨rfl, _⟩ <;> rcases hq' with ⟨_, rfl⟩ | ⟨rfl, _⟩ <;> omega

theorem sized_rel {cmp : Cmp α} {cmp' : Cmp β} {R : α → β → Prop} (hle : cmp.LeVia R cmp') :
    (sized cmp).LeVia (List.Forall₂ R) (sized cmp') :=
  fun _ _ _ _ _ has hbs h => ranked_rel has.length_eq hbs.length_eq (fun _ h => elems_rel hle has hbs h) h

theorem sized_tie {cmp : Cmp α} {as bs : List α} (h : List.Forall₂ (fun a b => cmp a b = some 0) as bs) :
    sized cmp as bs = some 0 := (ranked_of_eq h.length_eq).trans (elems_tie h)

theorem sized_total {cmp : Cmp α} {as bs : List α} (h : ∀ a ∈ as, ∀ b ∈ bs, ∃ r, cmp a b = some r) :
    ∃ r, sized cmp as bs = some r := by
  by_cases hlen : as.length = bs.length
  · obtain ⟨r, hr⟩ := elems_total h
    exact ⟨r, (ranked_of_eq hlen).trans hr⟩
  · exact ⟨_, ranked_of_ne hlen⟩

theorem Lawful.sized {cmp : Cmp α} (h : Lawful cmp) : Lawful (sized cmp) :=
  lawful_ranked (fun as bs r _ hr => elems_swap h as bs r hr)
    (fun as bs cs hab hbc => elems_trans h as bs cs hab hbc)

/-! ## Searching in an ordered sequence -/

/-- Linear lower bound: the position of the first element that is not below `k`, and whether it ties with
    `k`. -/
def search (cmp : Cmp α) (k : α) : List α → Option (Nat × Bool)
  | [] => some (0, false)
  | x :: xs => do
    let r ← cmp x k
    if r < 0 then
      let (i, found) ← search cmp k xs
      return (i + 1, found)
    else
      let r' ← cmp k x
      return (0, decide (¬ r' < 0))

theorem search_mono {cmp cmp' : Cmp α} (hle : cmp.Le cmp') {k : α} : ∀ {xs : List α} {res : Nat × Bool},
    search cmp k xs = some res → search cmp' k xs = some res
  | [], _, h => h
  | x :: xs, res, h => by
      unfold search at h ⊢
      obtain ⟨r, hr, h⟩ := Option.bind_eq_some_iff.mp h
      simp only [hle x k r hr, Option.bind_eq_bind, Option.bind_some]
      split at h
      · rename_i hr0
        obtain ⟨res', hres', h⟩ := Option.bind_eq_some_iff.mp h
        simp only [hr0, if_true, search_mono hle hres']
        exact h
      · rename_i hr0
        obtain ⟨r', hr', h⟩ := Option.bind_eq_some_iff.mp h
        simp only [hr0, if_false, hle k x r' hr']
        exact h

/-- The search depends on the comparisons with `k` only. -/
theorem search_congr {cmp cmp' : Cmp α} {k : α} : ∀ {xs : List α},
    (∀ x ∈ xs, cmp x k = cmp' x k ∧ cmp k x = cmp' k x) → search cmp k xs = search cmp' k xs
  | [], _ => rfl
  | x :: xs, h => by
      obtain ⟨hx, hx'⟩ := h x (by simp)
      unfold search
      rw [hx, hx', search_congr (fun y hy => h y (List.mem_cons_of_mem x hy))]

/-- Sequences whose elements compare alike with `k` are searched alike. -/
theorem search_forall₂ {cmp : Cmp α} {k : α} {xs ys : List α}
    (h : List.Forall₂ (fun x y => cmp x k = cmp y k ∧ cmp k x = cmp k y) xs ys) : search cmp k xs = search cmp k ys := by
  induction h with
  | nil => rfl
  | cons hxy _ ih =>
      unfold search
      rw [hxy.1, hxy.2, ih]

/-- Passing an element that is below `k`. -/
theorem search_cons_of_lt {cmp : Cmp α} {k x : α} {xs : List α} {r : Int} (hr : cmp x k = some r) (hr0 : r < 0) :
    search cmp k (x :: xs) = (search cmp k xs).map (fun res => (res.1 + 1, res.2)) := by
  rw [search]
  simp only [hr, Option.bind_eq_bind, Option.bind_some, hr0, if_true]
  cases search cmp k xs <;> rfl

/-- Where all comparisons with `k` return, the search does; what it finds is in range. -/
theorem search_total {cmp : Cmp α} {k : α} : ∀ {xs : List α},
    (∀ x ∈ xs, (∃ r, cmp x k = some r) ∧ ∃ r, cmp k x = some r) →
    ∃ i found, search cmp k xs = some (i, found) ∧ (found = true → i < xs.length)
  | [], _ => ⟨0, false, rfl, by simp⟩
  | x :: xs, h => by
      obtain ⟨⟨r, hr⟩, r', hr'⟩ := h x (by simp)
      by_cases hr0 : r < 0
      · obtain ⟨i, found, hs, hi⟩ := search_total (fun y hy => h y (List.mem_cons_of_mem x hy))
        exact ⟨i + 1, found, by rw [search_cons_of_lt hr hr0, hs]; rfl, fun hf => Nat.succ_lt_succ (hi hf)⟩
      · refine ⟨0, decide (¬ r' < 0), ?_, fun _ => Nat.succ_pos _⟩
        unfold search
        simp [hr, hr', hr0]

theorem search_le_length {cmp : Cmp α} {k : α} : ∀ {xs : List α} {i : Nat} {found : Bool},
    search cmp k xs = some (i, found) → i ≤ xs.length
  | [], i, found, h => by
      obtain ⟨rfl, -⟩ := Prod.mk.inj (Option.some.inj h)
      exact Nat.le_refl 0
  | x :: xs, i, found, h => by
      unfold search at h
      obtain ⟨r, -, h⟩ := Option.bind_eq_some_iff.mp h
      split at h
      · obtain ⟨⟨j, found'⟩, hj, h⟩ := Option.bind_eq_some_iff.mp h
        obtain ⟨rfl, -⟩ := Prod.mk.inj (Option.some.inj h)
        exact Nat.succ_le_succ (search_le_length hj)
      · obtain ⟨r', -, h⟩ := Option.bind_eq_some_iff.mp h
        obtain ⟨rfl, -⟩ := Prod.mk.inj (Option.some.inj h)
        exact Nat.zero_le _

/-- What is found is in range. -/
theorem search_lt_length {cmp : Cmp α} {k : α} : ∀ {xs : List α} {i : Nat},
    search cmp k xs = some (i, true) → i < xs.length
  | [], _, h => by simp [search] at h
  | x :: xs, i, h => by
      unfold search at h
      obtain ⟨r, -, h⟩ := Option.bind_eq_some_iff.mp h
      split at h
      · obtain ⟨⟨j, found⟩, hj, h⟩ := Option.bind_eq_some_iff.mp h
        obtain ⟨rfl, rfl⟩ := Prod.mk.inj (Option.some.inj h)
        exact Nat.succ_lt_succ (search_lt_length hj)
      · obtain ⟨r', -, h⟩ := Option.bind_eq_some_iff.mp h
        obtain ⟨rfl, -⟩ := Prod.mk.inj (Option.some.inj h)
        exact Nat.zero_lt_succ _

/-- An element that was missing is found where it is inserted. -/
theorem search_insertIdx {cmp : Cmp α} {k : α} (hk : cmp k k = some 0) : ∀ {xs : List α} {i : Nat},
    search cmp k xs = some (i, false) → search cmp k (xs.insertIdx i k) = some (i, true)
  | [], i, h => by
      obtain ⟨rfl, -⟩ := Prod.mk.inj (Option.some.inj h)
      simp [search, hk]
  | x :: xs, i, h => by
      unfold search at h
      obtain ⟨r, hr, h⟩ := Option.bind_eq_some_iff.mp h
      split at h
      · rename_i hr0
        obtain ⟨⟨j, found⟩, hj, h⟩ := Option.bind_eq_some_iff.mp h
        obtain ⟨rfl, rfl⟩ := Prod.mk.inj (Option.some.inj h)
        rw [List.insertIdx_succ_cons, search_cons_of_lt hr hr0, search_insertIdx hk hj]
        rfl
      · obtain ⟨r', -, h⟩ := Option.bind_eq_some_iff.mp h
        obtain ⟨rfl, -⟩ := Prod.mk.inj (Option.some.inj h)
        simp [search, hk]

/-- Everything below `k` is passed. -/
theorem search_of_forall_lt {cmp : Cmp α} {k : α} : ∀ {xs : List α}, (∀ x ∈ xs, ∃ r, cmp x k = some r ∧ r < 0) →
    search cmp k xs = some (xs.length, false)
  | [], _ => rfl
  | x :: xs, h => by
      obtain ⟨r, hr, hr0⟩ := h x (by simp)
      rw [search_cons_of_lt hr hr0, search_of_forall_lt (fun y hy => h y (List.mem_cons_of_mem x hy))]
      rfl

/-- What is found ties. -/
theorem tie_of_search {cmp : Cmp α} (hlaw : Lawful cmp) {k : α} : ∀ {xs : List α} {i : Nat},
    search cmp k xs = some (i, true) → ∃ x ∈ xs, cmp x k = some 0
  | [], _, h => by simp [search] at h
  | x :: xs, i, h => by
      unfold search at h
      obtain ⟨r, hr, h⟩ := Option.bind_eq_some_iff.mp h
      split at h
      · obtain ⟨⟨j, found⟩, hj, h⟩ := Option.bind_eq_some_iff.mp h
        obtain ⟨-, rfl⟩ : j + 1 = i ∧ found = true := by simpa using h
        obtain ⟨y, hy, hy0⟩ := tie_of_search hlaw hj
        exact ⟨y, List.mem_cons_of_mem x hy, hy0⟩
      · rename_i hr0
        obtain ⟨r', hr', h⟩ := Option.bind_eq_some_iff.mp h
        have hr'0 : 0 ≤ r' := by simpa using congrArg Prod.snd (Option.some.inj h)
        have hswap := Option.some.inj (hr'.symm.trans (hlaw.swap hr))
        obtain rfl : r = 0 := by omega
        exact ⟨x, by simp, hr⟩

/-- Every element on the right has its partner on the left. -/
theorem exists_of_mem_right {R : α → β → Prop} {xs : List α} {ys : List β} (h : List.Forall₂ R xs ys) {y : β}
    (hy : y ∈ ys) : ∃ x ∈ xs, R x y := by
  induction h with
  | nil => cases hy
  | @cons x _ _ _ hxy _ ih =>
      rcases List.mem_cons.mp hy with rfl | hy
      · exact ⟨x, List.mem_cons_self, hxy⟩
      · obtain ⟨z, hz, hzy⟩ := ih hy
        exact ⟨z, List.mem_cons_of_mem x hz, hzy⟩

/-- In an ordered sequence the elements in front of an element are below it. -/
theorem pairwise_take {R : α → α → Prop} {xs : List α} (h : xs.Pairwise R) {i : Nat} (hi : i < xs.length) :
    ∀ x ∈ xs.take i, R x xs[i] := by
  intro x hx
  rw [← List.take_append_drop i xs, List.drop_eq_getElem_cons hi] at h
  exact (List.pairwise_append.mp h).2.2 x hx _ List.mem_cons_self

section Depth

/-! A comparison that is followed deeper and deeper: `cmp n` answers more the larger `n` is. -/

variable {cmp : Nat → Cmp α}

/-- What stays with more depth has a common depth on finitely many elements. -/
theorem exists_common {P : Nat → α → Prop} (hmono : ∀ n m x, n ≤ m → P n x → P m x) (xs : List α)
    (h : ∀ x ∈ xs, ∃ n, P n x) : ∃ n, ∀ x ∈ xs, P n x := by
  induction xs with
  | nil => exact ⟨0, by simp⟩
  | cons x xs ih =>
      obtain ⟨n, hn⟩ := h x List.mem_cons_self
      obtain ⟨m, hm⟩ := ih (fun y hy => h y (List.mem_cons_of_mem x hy))
      refine ⟨max n m, fun y hy => ?_⟩
      rcases List.mem_cons.mp hy with rfl | hy
      · exact hmono n _ y (Nat.le_max_left n m) hn
      · exact hmono m _ y (Nat.le_max_right n m) (hm y hy)

/-- `x` compares below `y` at some depth. -/
def Below (cmp : Nat → Cmp α) (x y : α) : Prop := ∃ n r, cmp n x y = some r ∧ r < 0

/-- `x` ties with `y` at some depth. -/
def Ties (cmp : Nat → Cmp α) (x y : α) : Prop := ∃ n, cmp n x y = some 0

/-- An ordered sequence is in order at any depth that is large enough. -/
theorem pairwise_common (hmono : ∀ n m, n ≤ m → (cmp n).Le (cmp m)) {xs : List α} (h : xs.Pairwise (Below cmp)) :
    ∃ n, ∀ m, n ≤ m → xs.Pairwise (fun x y => ∃ r, cmp m x y = some r ∧ r < 0) := by
  induction h with
  | nil => exact ⟨0, fun _ _ => .nil⟩
  | @cons x xs hx _ ih =>
      obtain ⟨n, hn⟩ := ih
      obtain ⟨k, hk⟩ := exists_common (P := fun k y => ∃ r, cmp k x y = some r ∧ r < 0)
        (fun n m y hnm ⟨r, hr, hr0⟩ => ⟨r, hmono n m hnm _ _ _ hr, hr0⟩) xs hx
      refine ⟨max n k, fun m hm => .cons (fun y hy => ?_) (hn m (by omega))⟩
      obtain ⟨r, hr, hr0⟩ := hk y hy
      exact ⟨r, hmono k m (by omega) _ _ _ hr, hr0⟩

variable (hmono : ∀ n m, n ≤ m → (cmp n).Le (cmp m)) (hlaw : ∀ n, Lawful (cmp n))

include hmono hlaw

theorem Below.trans {x y z : α} (hxy : Below cmp x y) (hyz : Below cmp y z) : Below cmp x z := by
  obtain ⟨n, r, hr, hr0⟩ := hxy
  obtain ⟨m, s, hs, hs0⟩ := hyz
  obtain ⟨t, ht, ht0, hiff⟩ := (hlaw (max n m)).trans (hmono n _ (Nat.le_max_left n m) _ _ _ hr)
    (hmono m _ (Nat.le_max_right n m) _ _ _ hs) (by omega) (by omega)
  have htne : t ≠ 0 := fun h => by have := hiff.mp h; omega
  exact ⟨_, t, ht, by omega⟩

/-- In an ordered sequence the search finds what is there. -/
theorem search_of_tie {k : α} : ∀ {xs : List α}, xs.Pairwise (Below cmp) → (∃ x ∈ xs, Ties cmp x k) →
    ∃ n i, search (cmp n) k xs = some (i, true)
  | [], _, h => by simp at h
  | y :: ys, hp, h => by
      obtain ⟨hy, hys⟩ := List.pairwise_cons.mp hp
      obtain ⟨x, hx, n, hn⟩ := h
      rcases List.mem_cons.mp hx with rfl | hx
      · refine ⟨n, 0, ?_⟩
        have hswap := (hlaw n).swap hn
        unfold search
        simp only [hn, hswap, Option.bind_eq_bind, Option.bind_some]
        simp
      · -- `y` is below the element that ties with `k`, so it is below `k` and is passed
        obtain ⟨m, r, hr, hr0⟩ := hy x hx
        obtain ⟨m', i, hm'⟩ := search_of_tie hys ⟨x, hx, n, hn⟩
        let N := max (max n m) m'
        obtain ⟨t, ht, ht0, hiff⟩ := (hlaw N).trans (hmono m N (by omega) _ _ _ hr)
          (hmono n N (by omega) _ _ _ hn) (by omega) (by omega)
        have htne : t ≠ 0 := fun h => by have := hiff.mp h; omega
        refine ⟨N, i + 1, ?_⟩
        rw [search_cons_of_lt ht (by omega), search_mono (hmono m' N (by omega)) hm']
        rfl

theorem search_iff {k : α} {xs : List α} (hp : xs.Pairwise (Below cmp)) :
    (∃ n i, search (cmp n) k xs = some (i, true)) ↔ ∃ x ∈ xs, Ties cmp x k := by
  constructor
  · rintro ⟨n, i, h⟩
    obtain ⟨x, hx, hx0⟩ := tie_of_search (hlaw n) h
    exact ⟨x, hx, n, hx0⟩
  · exact search_of_tie hmono hlaw hp

end Depth

theorem insertIdx_eq_append {k : α} : ∀ {l : List α} {i : Nat}, i ≤ l.length →
    l.insertIdx i k = l.take i ++ k :: l.drop i
  | _, 0, _ => rfl
  | [], i + 1, h => by simp at h
  | x :: l, i + 1, h => by simp [insertIdx_eq_append (k := k) (Nat.le_of_succ_le_succ h)]

/-- Inserting between a smaller and a larger neighbour keeps a sequence ordered. -/
theorem pairwise_insertIdx {R : α → α → Prop} (htrans : ∀ {x y z}, R x y → R y z → R x z) {l : List α} {i : Nat}
    {k : α} (hl : l.Pairwise R) (hi : i ≤ l.length) (hbefore : ∀ x, (l.take i).getLast? = some x → R x k)
    (hafter : ∀ x, (l.drop i).head? = some x → R k x) : (l.insertIdx i k).Pairwise R := by
  rw [insertIdx_eq_append hi]
  rw [← List.take_append_drop i l] at hl
  obtain ⟨htake, hdrop, hcross⟩ := List.pairwise_append.mp hl
  -- the neighbours stand for the rest, by transitivity
  have hbefore' : ∀ x ∈ l.take i, R x k := by
    intro x hx
    rcases List.eq_nil_or_concat (l.take i) with h | ⟨init, last, h⟩
    · rw [h] at hx
      simp at hx
    · rw [List.concat_eq_append] at h
      have hlast := hbefore last (by rw [h]; simp)
      rw [h] at hx htake
      rcases List.mem_append.mp hx with hx | hx
      · exact htrans ((List.pairwise_append.mp htake).2.2 x hx last (by simp)) hlast
      · rw [List.mem_singleton.mp hx]
        exact hlast
  have hafter' : ∀ x ∈ l.drop i, R k x := by
    intro x hx
    cases h : l.drop i with
    | nil =>
        rw [h] at hx
        simp at hx
    | cons y ys =>
        have hy := hafter y (by rw [h]; rfl)
        rw [h] at hx hdrop
        rcases List.mem_cons.mp hx with rfl | hx
        · exact hy
        · exact htrans hy ((List.pairwise_cons.mp hdrop).1 x hx)
  refine List.pairwise_append.mpr ⟨htake, List.pairwise_cons.mpr ⟨hafter', hdrop⟩, fun x hx y hy => ?_⟩
  rcases List.mem_cons.mp hy with rfl | hy
  · exact hbefore' x hx
  · exact hcross x hx y hy

end Compare
end Cclib
