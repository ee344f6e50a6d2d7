import Cclib.Cclstr.Split

/-!
# `Cclstr.Join` — which token lists `split` gives back

`join` undoes `split` at every delimiter; `split` undoes `join` only where the delimiter shows nothing but the
boundaries. A token may not contain the delimiter, and a token with another one behind it may not even begin an
occurrence that the delimiter after it completes (`a:` joined by `::` is cut one character too early).

## Contents
- `occurs_before_iff`: where an occurrence begins before a delimiter.
- `Separable`: the exact condition on the tokens; `cut_of_separable`, `separable_of_leftmost`.
- `split_join_iff`: `split(join(ts,d),d) = ts`.
-/

namespace Cclib
namespace Cclstr

open Cuts

/-! ## Occurrences before a delimiter -/

/-- An occurrence of `d` that begins in `t` lies in `t` and all but the last character of the `d` behind it. -/
theorem occurs_before_iff {α : Type} {t d r : List α} (hd : d ≠ []) :
    (∃ k < t.length, d <+: (t ++ (d ++ r)).drop k) ↔ d <:+: t ++ d.dropLast := by
  have htext : t ++ (d ++ r) = (t ++ d.dropLast) ++ (d.getLast hd :: r) := by
    calc t ++ (d ++ r)
        = t ++ ((d.dropLast ++ [d.getLast hd]) ++ r) := by rw [List.dropLast_append_getLast hd]
      _ = (t ++ d.dropLast) ++ (d.getLast hd :: r) := by simp
  have hlen : (t ++ d.dropLast).length + 1 = t.length + d.length := by
    have hpos := List.length_pos_iff.mpr hd
    rw [List.length_append, List.length_dropLast]
    omega
  rw [htext]
  constructor
  · rintro ⟨k, hk, hocc⟩
    rw [List.drop_append_of_le_length (by omega)] at hocc
    have hprefix : d <+: (t ++ d.dropLast).drop k :=
      List.prefix_of_prefix_length_le hocc (List.prefix_append _ _) (by rw [List.length_drop]; omega)
    exact hprefix.isInfix.trans (List.drop_suffix k _).isInfix
  · rintro ⟨a, b, hab⟩
    have hlen' := congrArg List.length hab
    simp only [List.length_append] at hlen'
    rw [List.length_append] at hlen
    refine ⟨a.length, by omega, b ++ (d.getLast hd :: r), ?_⟩
    rw [← hab, List.append_assoc, List.append_assoc, List.drop_left]

variable {s d : StringT} {p : Nat} {t : StringT} {ts : List StringT}

theorem firstAt_iff {r : StringT} (hd : d ≠ []) (hs : s.drop p = t ++ (d ++ r)) :
    FirstAt s d p (p + t.length) ↔ ¬ d <:+: t ++ d.dropLast := by
  rw [← occurs_before_iff (r := r) hd]
  constructor
  · rintro ⟨-, -, hfirst⟩ ⟨k, hk, hocc⟩
    rw [← hs, List.drop_drop] at hocc
    exact hfirst (p + k) (Nat.le_add_right _ _) (by omega) hocc
  · intro hnone
    refine ⟨Nat.le_add_right _ _, ⟨r, ?_⟩, fun k hk hlt hocc => hnone ⟨k - p, by omega, ?_⟩⟩
    · rw [← List.drop_drop, hs, List.drop_left]
    · rwa [← hs, List.drop_drop, Nat.add_sub_of_le hk]

/-- Behind the last boundary the delimiter occurs nowhere. -/
theorem nowhere_iff (hs : s.drop p = t) : (∀ k, p ≤ k → ¬ d <+: s.drop k) ↔ ¬ d <:+: t := by
  constructor
  · intro hnone hinfix
    obtain ⟨k, hk, -, hocc⟩ := exists_of_infix (r := []) hinfix (by rw [hs, List.append_nil])
    exact hnone k hk hocc
  · intro hnone k hk hocc
    have hdrop : s.drop k = t.drop (k - p) := by
      rw [← hs, List.drop_drop, Nat.add_sub_of_le hk]
    rw [hdrop] at hocc
    exact hnone (hocc.isInfix.trans (List.drop_suffix _ _).isInfix)

/-! ## Separable tokens -/

/-- **The tokens that joining keeps apart**: there is one, none but the last together with the delimiter behind it
    begins an occurrence too early, and the last does not contain the delimiter. -/
def Separable (d : StringT) (ts : List StringT) : Prop :=
  ts ≠ [] ∧ (∀ t ∈ ts.dropLast, ¬ d <:+: t ++ d.dropLast) ∧ ∀ t ∈ ts.getLast?, ¬ d <:+: t

theorem separable_singleton : Separable d [t] ↔ ¬ d <:+: t := by
  simp [Separable]

theorem separable_cons_cons {u : StringT} :
    Separable d (t :: u :: ts) ↔ ¬ d <:+: t ++ d.dropLast ∧ Separable d (u :: ts) := by
  simp only [Separable, List.dropLast_cons_cons, List.forall_mem_cons, List.getLast?_cons_cons]
  simp only [ne_eq, reduceCtorEq, not_false_eq_true, true_and, and_assoc]

theorem join_cons_cons (t u : StringT) (ts : List StringT) (d : StringT) :
    join (t :: u :: ts) d = t ++ (d ++ join (u :: ts) d) := by
  rw [join_eq_intercalate, join_eq_intercalate, List.intercalate_cons_cons, List.append_assoc]

/-- Behind a token and its delimiter stands the rest of the tokens. -/
theorem drop_join {u : StringT} (hs : s.drop p = join (t :: u :: ts) d) :
    s.drop (p + t.length + d.length) = join (u :: ts) d := by
  rw [← List.drop_drop, ← List.drop_drop, hs, join_cons_cons, List.drop_left, List.drop_left]

/-- Tokens that are kept apart are the pieces of a cutting. -/
theorem cut_of_separable (hd : d ≠ []) : ∀ {ts : List StringT} {p : Nat}, Separable d ts → s.drop p = join ts d →
    ∃ cuts last, Cut (delimiter s d) s p cuts last ∧ tokens cuts last = ts
  | [], _, h, _ => absurd rfl h.1
  | [t], p, h, hs => by
      refine ⟨[], s.drop p, .last (delimiter_eq_none.mpr (find_eq_none.mpr fun k hk _ => ?_)), ?_⟩
      · exact (nowhere_iff hs).mpr (separable_singleton.mp h) k hk
      · rw [hs]
        rfl
  | t :: u :: ts, p, h, hs => by
      obtain ⟨ht, hrest⟩ := separable_cons_cons.mp h
      have hsplit : s.drop p = t ++ (d ++ join (u :: ts) d) := hs.trans (join_cons_cons t u ts d)
      have hfirst := (firstAt_iff hd hsplit).mpr ht
      have hle : p + t.length ≤ s.length := by
        by_contra hgt
        have hnil := hfirst.2.1
        rw [List.drop_eq_nil_of_le (by omega)] at hnil
        exact hd (List.prefix_nil.mp hnil)
      obtain ⟨cuts, last, hcut, htokens⟩ := cut_of_separable hd hrest (drop_join hs)
      refine ⟨_, last, .cut (delimiter_eq_some.mpr ⟨⟨hfirst, hle⟩, rfl⟩) hcut, ?_⟩
      have hslice : slice s p (p + t.length) = t := by
        rw [slice, hsplit, Nat.add_sub_cancel_left, List.take_left]
      rw [← htokens, ← hslice]
      simp [tokens, hslice]

/-- The tokens of the leftmost cutting of their own join are kept apart. -/
theorem separable_of_leftmost (hd : d ≠ []) : ∀ {ts : List StringT} {p : Nat}, Leftmost s d p ts →
    s.drop p = join ts d → Separable d ts
  | [], _, h, _ => h.elim
  | [t], p, h, hs => separable_singleton.mpr ((nowhere_iff hs).mp h.2)
  | t :: u :: ts, p, h, hs => by
      have hsplit : s.drop p = t ++ (d ++ join (u :: ts) d) := hs.trans (join_cons_cons t u ts d)
      exact separable_cons_cons.mpr
        ⟨(firstAt_iff hd hsplit).mp h.1.2, separable_of_leftmost hd h.2 (drop_join hs)⟩

/-- Separable tokens are found again. -/
theorem split_of_separable (hd : d ≠ []) (h : Separable d ts) :
    ∃ fuel, split (join ts d) d fuel = some (.ok ts) := by
  obtain ⟨cuts, last, hcut, rfl⟩ := cut_of_separable hd h List.drop_zero
  exact split_of_cut hcut

/-- Tokens that are found again are separable. -/
theorem separable_of_split {fuel : Nat} (hd : d ≠ []) (h : split (join ts d) d fuel = some (.ok ts)) :
    Separable d ts := by
  obtain ⟨cuts, last, hcut⟩ := cut_of_split h
  have htokens : tokens cuts last = ts :=
    Except.ok.inj (Loop.Returns.unique (split_of_cut hcut) ⟨fuel, h⟩)
  have hleft := leftmost_of_cut hd hcut (Nat.zero_le _)
  rw [htokens] at hleft
  exact separable_of_leftmost hd hleft List.drop_zero

/-- **`split` undoes `join`** exactly for a delimiter that is not empty and tokens that joining keeps apart. -/
theorem split_join_iff (ts : List StringT) (d : StringT) :
    (∃ fuel, split (join ts d) d fuel = some (.ok ts)) ↔ d ≠ [] ∧ ts ≠ []
      ∧ (∀ t ∈ ts.dropLast, ¬ d <:+: t ++ d.dropLast) ∧ ∀ t ∈ ts.getLast?, ¬ d <:+: t := by
  by_cases hd : d = []
  · rw [hd]
    exact ⟨fun ⟨fuel, h⟩ => absurd h (split_nil _ fuel _), fun h => absurd rfl h.1⟩
  · exact ⟨fun ⟨_, h⟩ => ⟨hd, separable_of_split hd h⟩, fun h => split_of_separable hd h.2⟩

end Cclstr
end Cclib
