import Cclib.Lib.Loop
import Mathlib.Data.List.Basic

/-!
# `Lib.Cuts` — cutting a text at successive matches

A **matcher** answers, for a position in a text, where the next match starts and where it stops, both counted
from the beginning of the text. `Cut` is the cutting it leads to: from a position on, up to the first match;
then from where that match stops, and so on, up to a position without a match. `Cut` is a relation: where a
match stops at the position it was looked for, the same match is found for ever and there is no cutting.

A loop that looks for the next match and goes on behind it computes the cutting, whatever it does with the
pieces: `Cut.returns`, `cut_of_returns`.

## Contents
- **Slices.** `slice`, and how slices put a text together.
- **Cuttings.** `Cut`, `Cut.text`.
- **Existence.** `Chain`: the positions at which matches are looked for; `cut_iff`: there is a cutting exactly
  when each match found there goes forward.
- **Loops.** `Cut.returns`, `cut_of_returns`.
- **Joining.** `intercalate_tokens`: the pieces joined by a text are the cutting with that text for each match.
-/

namespace Cclib
namespace Cuts

variable {α : Type*}

/-! ## Slices -/

/-- What stands from position `i` up to position `j`. -/
def slice (s : List α) (i j : Nat) : List α := (s.drop i).take (j - i)

theorem slice_append_drop {s : List α} {i j : Nat} (h : i ≤ j) : slice s i j ++ s.drop j = s.drop i := by
  have hj : s.drop j = (s.drop i).drop (j - i) := by rw [List.drop_drop, Nat.add_sub_of_le h]
  rw [slice, hj, List.take_append_drop]

theorem length_slice {s : List α} {i j : Nat} (hj : j ≤ s.length) : (slice s i j).length = j - i := by
  rw [slice, List.length_take, List.length_drop]
  omega

/-! ## Cuttings -/

/-- Where the next match from a position on starts and stops. -/
abbrev Matcher := Nat → Option (Nat × Nat)

/-- Matches lie in the text, behind the position they are looked for at. -/
def Matcher.Within (next : Matcher) (s : List α) : Prop :=
  ∀ p ≤ s.length, ∀ i j, next p = some (i, j) → p ≤ i ∧ i ≤ j ∧ j ≤ s.length

/-- The text from a position on, cut at successive matches: the pieces before the matches with these, and the
last piece. -/
inductive Cut (next : Matcher) (s : List α) : Nat → List (List α × List α) → List α → Prop
  | last {p : Nat} (h : next p = none) : Cut next s p [] (s.drop p)
  | cut {p i j : Nat} {cuts : List (List α × List α)} {last : List α} (h : next p = some (i, j))
      (hrest : Cut next s j cuts last) : Cut next s p ((slice s p i, slice s i j) :: cuts) last

variable {next : Matcher} {s : List α} {p : Nat} {cuts : List (List α × List α)} {last : List α}

/-- The pieces and the matches between them are the text. -/
theorem Cut.text (hwithin : next.Within s) (h : Cut next s p cuts last) (hp : p ≤ s.length) :
    cuts.flatMap (fun c => c.1 ++ c.2) ++ last = s.drop p := by
  induction h with
  | last _ => rfl
  | cut hsome _ ih =>
      obtain ⟨hpi, hij, hj⟩ := hwithin _ hp _ _ hsome
      rw [List.flatMap_cons, List.append_assoc, ih hj, List.append_assoc, slice_append_drop hij,
        slice_append_drop hpi]

/-- What holds of every match in the text holds of those of a cutting. -/
theorem Cut.forall_matches (hwithin : next.Within s) {P : List α → Prop}
    (hP : ∀ p ≤ s.length, ∀ i j, next p = some (i, j) → P (slice s i j)) (h : Cut next s p cuts last)
    (hp : p ≤ s.length) : ∀ c ∈ cuts, P c.2 := by
  induction h with
  | last _ =>
      intro c hc
      exact absurd hc List.not_mem_nil
  | cut hsome _ ih =>
      intro c hc
      rcases List.mem_cons.mp hc with rfl | hc
      · exact hP _ hp _ _ hsome
      · exact ih (hwithin _ hp _ _ hsome).2.2 c hc

/-! ## Existence -/

/-- The positions at which matches are looked for, from the beginning on. -/
inductive Chain (next : Matcher) : Nat → Prop
  | zero : Chain next 0
  | next {p i j : Nat} (hp : Chain next p) (h : next p = some (i, j)) : Chain next j

theorem Chain.le_length (hwithin : next.Within s) (h : Chain next p) : p ≤ s.length := by
  induction h with
  | zero => exact Nat.zero_le _
  | next _ hsome ih => exact (hwithin _ ih _ _ hsome).2.2

/-- From a position of the chain there is a cutting, provided no match found from the chain's positions on stops
where it was looked for. -/
theorem cut_of_forward (hwithin : next.Within s)
    (hforward : ∀ p, Chain next p → ∀ i j, next p = some (i, j) → p < j) (hp : Chain next p) :
    ∃ cuts last, Cut next s p cuts last := by
  -- Each match leaves less of the text.
  induction hn : s.length - p using Nat.strong_induction_on generalizing p with
  | _ n ih =>
      cases hsome : next p with
      | none => exact ⟨[], _, Cut.last hsome⟩
      | some ij =>
          obtain ⟨i, j⟩ := ij
          have hlt := hforward p hp i j hsome
          have hj := (hwithin p (hp.le_length hwithin) i j hsome).2.2
          obtain ⟨cuts, last, hrest⟩ := ih (s.length - j) (by omega) (hp.next hsome) rfl
          exact ⟨_, last, Cut.cut hsome hrest⟩

/-- Where a match is found that stops where it was looked for, there is no cutting. -/
theorem Cut.ne_of_stuck {i : Nat} (h : Cut next s p cuts last) (hstuck : next p = some (i, p)) : False := by
  -- The cutting would contain itself.
  induction h with
  | last hnone => exact absurd (hnone.symm.trans hstuck) (by simp)
  | cut hsome _ ih =>
      obtain ⟨rfl, rfl⟩ := Prod.mk.inj (Option.some.inj (hsome.symm.trans hstuck))
      exact ih hstuck

/-- The cutting from the beginning goes through every position of the chain. -/
theorem Cut.of_chain (h : Cut next s 0 cuts last) (hp : Chain next p) : ∃ cuts' last', Cut next s p cuts' last' := by
  induction hp with
  | zero => exact ⟨cuts, last, h⟩
  | next _ hsome ih =>
      obtain ⟨cuts', last', hcut⟩ := ih
      cases hcut with
      | last hnone => exact absurd (hnone.symm.trans hsome) (by simp)
      | cut hsome' hrest =>
          obtain ⟨rfl, rfl⟩ := Prod.mk.inj (Option.some.inj (hsome.symm.trans hsome'))
          exact ⟨_, _, hrest⟩

/-- **Existence.** A text can be cut exactly when no match stops where it was looked for. -/
theorem cut_iff (hwithin : next.Within s) :
    (∃ cuts last, Cut next s 0 cuts last) ↔ ∀ p, Chain next p → ∀ i j, next p = some (i, j) → p < j := by
  constructor
  · rintro ⟨cuts, last, h⟩ p hp i j hsome
    obtain ⟨hpi, hij, hj⟩ := hwithin p (hp.le_length hwithin) i j hsome
    refine Nat.lt_of_le_of_ne (Nat.le_trans hpi hij) ?_
    rintro rfl
    obtain ⟨cuts', last', hcut⟩ := h.of_chain hp
    exact hcut.ne_of_stuck hsome
  · intro hforward
    exact cut_of_forward hwithin hforward Chain.zero

/-! ## Loops -/

section Loops

variable {β ρ : Type*} {body : Loop.Body (Nat × β) ρ} (add : β → List α × List α → β) (finish : β → List α → ρ)

/-- **Following a cutting.** A loop that goes on behind each match and leaves where there is none returns what it
makes of the pieces. -/
theorem Cut.returns (hwithin : next.Within s)
    (hcut : ∀ p b i j, p ≤ s.length → next p = some (i, j) →
      body (p, b) = some (.inl (j, add b (slice s p i, slice s i j))))
    (hlast : ∀ p b, p ≤ s.length → next p = none → body (p, b) = some (.inr (finish b (s.drop p))))
    (h : Cut next s p cuts last) (hp : p ≤ s.length) (b : β) :
    Loop.Returns body (p, b) (finish (cuts.foldl add b) last) := by
  induction h generalizing b with
  | last hnone => exact Loop.returns_of_done (hlast _ b hp hnone)
  | cut hsome _ ih =>
      have hj := (hwithin _ hp _ _ hsome).2.2
      have hround : Loop.Next body _ _ := hcut _ b _ _ hp hsome
      rw [hround.returns_iff, List.foldl_cons]
      exact ih hj _

/-- Such a loop returns only by following a cutting. -/
theorem cut_of_returns (hwithin : next.Within s)
    (hcut : ∀ p b i j, p ≤ s.length → next p = some (i, j) →
      body (p, b) = some (.inl (j, add b (slice s p i, slice s i j))))
    {b : β} {r : ρ} (hp : p ≤ s.length) (h : Loop.Returns body (p, b) r) : ∃ cuts last, Cut next s p cuts last := by
  obtain ⟨n, hn⟩ := h
  induction n generalizing p b with
  | zero => simp [Loop.run] at hn
  | succ n ih =>
      cases hsome : next p with
      | none => exact ⟨[], _, Cut.last hsome⟩
      | some ij =>
          obtain ⟨i, j⟩ := ij
          have hj := (hwithin p hp i j hsome).2.2
          have hround : Loop.Next body _ _ := hcut p b i j hp hsome
          rw [Loop.run_next hround] at hn
          obtain ⟨cuts, last, hrest⟩ := ih hj hn
          exact ⟨_, last, Cut.cut hsome hrest⟩

end Loops

/-! ## Joining -/

/-- The pieces of a cutting. -/
def tokens (cuts : List (List α × List α)) (last : List α) : List (List α) := cuts.map Prod.fst ++ [last]

theorem foldl_tokens (cuts : List (List α × List α)) (last : List α) (ts : List (List α)) :
    cuts.foldl (fun ts c => ts ++ [c.1]) ts ++ [last] = ts ++ tokens cuts last := by
  induction cuts generalizing ts with
  | nil => rfl
  | cons c cs ih => rw [List.foldl_cons, ih, tokens, tokens, List.map_cons, List.append_assoc]; rfl

theorem foldl_filled (d : List α) (cuts : List (List α × List α)) (last r : List α) :
    cuts.foldl (fun r c => r ++ c.1 ++ d) r ++ last = r ++ (cuts.flatMap (fun c => c.1 ++ d) ++ last) := by
  induction cuts generalizing r with
  | nil => rfl
  | cons c cs ih =>
      rw [List.foldl_cons, ih, List.flatMap_cons]
      simp only [List.append_assoc]

/-- **Joining.** Joining the pieces puts the text `d` where each match was. -/
theorem intercalate_tokens (d : List α) (cuts : List (List α × List α)) (last : List α) :
    d.intercalate (tokens cuts last) = cuts.flatMap (fun c => c.1 ++ d) ++ last := by
  induction cuts with
  | nil => exact List.intercalate_singleton
  | cons c cs ih =>
      have hne : tokens cs last ≠ [] := by simp [tokens]
      have hcons : tokens (c :: cs) last = c.1 :: tokens cs last := rfl
      rw [hcons, List.intercalate_cons_of_ne_nil hne, ih, List.flatMap_cons]
      simp only [List.append_assoc]

end Cuts
end Cclib
