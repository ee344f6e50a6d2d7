import Mathlib.Logic.Relation
import Mathlib.Order.WellFounded

/-!
# `Lib.Loop` — `do … while` loops with explicit fuel

A loop is given by its **body**: one round takes a state and either goes on with a new state or leaves
the loop with a result. A round may call something that itself never returns; the body is then `none`.
`run` executes the loop with a bounded number of rounds, so it is computable and structurally recursive;
everything proved about loops is stated about `Returns` (some amount of fuel gives the result) and
`Reaches` (some number of rounds leads there), which do not mention fuel.

## Contents
- **Runs.** `run_mono` / `Returns.unique`: fuel does not change a result.
- **Rounds.** `Reaches.returns_iff`: a loop can be followed round by round.
- **Invariants.** `Reaches.invariant` and `Returns.exit`: what every round preserves holds where the loop
  leaves.
- **Variants.** `returns_of_variant`: a well-founded variant makes the loop return.
- **Endless loops.** `not_returns`: a loop that always comes back to a set of states does not return.
- **Counted loops.** `foldlM_range`: an invariant that counts along makes a counted loop return.
-/

namespace Cclib
namespace Loop

variable {σ ρ : Type*}

/-- One round: `none` when the round itself does not return, otherwise the next state or the result. -/
abbrev Body (σ ρ : Type*) := σ → Option (σ ⊕ ρ)

/-- Run at most `fuel` rounds. -/
def run (body : Body σ ρ) : Nat → σ → Option ρ
  | 0, _ => none
  | fuel + 1, s =>
    match body s with
    | none => none
    | some (.inl s') => run body fuel s'
    | some (.inr r) => some r

/-- One round leads from `s` to `s'`. -/
def Next (body : Body σ ρ) (s s' : σ) : Prop := body s = some (.inl s')

/-- Some number of rounds leads from `s` to `s'`. -/
abbrev Reaches (body : Body σ ρ) : σ → σ → Prop := Relation.ReflTransGen (Next body)

/-- The loop entered at `s` is left with result `r`. -/
def Returns (body : Body σ ρ) (s : σ) (r : ρ) : Prop := ∃ fuel, run body fuel s = some r

variable {body : Body σ ρ} {s s' : σ} {r r' : ρ}

/-! ## Runs -/

theorem run_next (h : Next body s s') (fuel : Nat) : run body (fuel + 1) s = run body fuel s' := by
  unfold Next at h
  simp only [run, h]

theorem run_done (h : body s = some (.inr r)) (fuel : Nat) : run body (fuel + 1) s = some r := by
  simp only [run, h]

/-- More fuel gives the same result. -/
theorem run_mono {n m : Nat} (hnm : n ≤ m) (h : run body n s = some r) : run body m s = some r := by
  induction n generalizing m s with
  | zero => simp [run] at h
  | succ n ih =>
      obtain ⟨k, rfl⟩ : ∃ k, m = k + 1 := ⟨m - 1, by omega⟩
      unfold run at h ⊢
      split at h
      · exact absurd h (by simp)
      · exact ih (by omega) h
      · exact h

/-- A loop has at most one result. -/
theorem Returns.unique (h : Returns body s r) (h' : Returns body s r') : r = r' := by
  obtain ⟨n, hn⟩ := h
  obtain ⟨m, hm⟩ := h'
  have hn' := run_mono (Nat.le_max_left n m) hn
  have hm' := run_mono (Nat.le_max_right n m) hm
  exact Option.some.inj (hn'.symm.trans hm')

/-! ## Rounds -/

theorem returns_of_done (h : body s = some (.inr r)) : Returns body s r := ⟨1, run_done h 0⟩

theorem Next.returns_iff (h : Next body s s') : Returns body s r ↔ Returns body s' r := by
  constructor
  · rintro ⟨n, hn⟩
    cases n with
    | zero => simp [run] at hn
    | succ n => exact ⟨n, by rw [← hn, run_next h]⟩
  · rintro ⟨n, hn⟩
    exact ⟨n + 1, by rw [run_next h, hn]⟩

/-- **Following a loop.** Rounds taken from `s` do not change what the loop returns. -/
theorem Reaches.returns_iff (h : Reaches body s s') : Returns body s r ↔ Returns body s' r := by
  induction h with
  | refl => exact Iff.rfl
  | tail _ hnext ih => exact ih.trans hnext.returns_iff

/-! ## Invariants -/

/-- What every round preserves holds of every state reached. -/
theorem Reaches.invariant (Inv : σ → Prop) (hstep : ∀ s s', Inv s → Next body s s' → Inv s')
    (hs : Inv s) (h : Reaches body s s') : Inv s' := by
  induction h with
  | refl => exact hs
  | tail _ hnext ih => exact hstep _ _ ih hnext

/-- A loop that returns does so from some state it reached. -/
theorem Returns.exit (h : Returns body s r) : ∃ s', Reaches body s s' ∧ body s' = some (.inr r) := by
  obtain ⟨n, hn⟩ := h
  induction n generalizing s with
  | zero => simp [run] at hn
  | succ n ih =>
      unfold run at hn
      split at hn
      · exact absurd hn (by simp)
      · rename_i s₁ hbody
        obtain ⟨s', hreach, hdone⟩ := ih hn
        exact ⟨s', Relation.ReflTransGen.head hbody hreach, hdone⟩
      · rename_i r₁ hbody
        rw [← Option.some.inj hn]
        exact ⟨s, Relation.ReflTransGen.refl, hbody⟩

/-! ## Variants -/

/-- **Variant rule.** If every round returns and decreases a well-founded variant, the loop returns. -/
theorem returns_of_variant {α : Type*} {lt : α → α → Prop} (hwf : WellFounded lt) (μ : σ → α)
    (Inv : σ → Prop) (hbody : ∀ s, Inv s → ∃ out, body s = some out)
    (hstep : ∀ s s', Inv s → Next body s s' → Inv s' ∧ lt (μ s') (μ s)) (hs : Inv s) :
    ∃ r, Returns body s r := by
  induction hμ : μ s using hwf.induction generalizing s with
  | _ a ih =>
      subst hμ
      obtain ⟨out, hout⟩ := hbody s hs
      cases out with
      | inl s' =>
          obtain ⟨hs', hlt⟩ := hstep s s' hs hout
          obtain ⟨r, hr⟩ := ih (μ s') hlt hs' rfl
          exact ⟨r, (Next.returns_iff hout).mpr hr⟩
      | inr r => exact ⟨r, returns_of_done hout⟩

/-! ## Endless loops -/

/-- **Endless loops.** A loop that comes from each state of a set back to the set, after at least one round, does
not return from there. -/
theorem not_returns (Inv : σ → Prop) (hstep : ∀ s, Inv s → ∃ s', Relation.TransGen (Next body) s s' ∧ Inv s')
    (hs : Inv s) : ¬ Returns body s r := by
  rintro ⟨n, hn⟩
  -- Each time around uses fuel up.
  have hless : ∀ {s s' : σ} {n : Nat}, Relation.TransGen (Next body) s s' → run body n s = some r →
      ∃ m < n, run body m s' = some r := by
    intro s s' n hrounds
    induction hrounds with
    | single hnext =>
        intro hn
        cases n with
        | zero => simp [run] at hn
        | succ n => exact ⟨n, Nat.lt_succ_self n, by rw [← hn, run_next hnext]⟩
    | tail _ hnext ih =>
        intro hn
        obtain ⟨m, hm, hrun⟩ := ih hn
        cases m with
        | zero => simp [run] at hrun
        | succ m => exact ⟨m, by omega, by rw [← hrun, run_next hnext]⟩
  induction n using Nat.strong_induction_on generalizing s with
  | _ n ih =>
      obtain ⟨s', hrounds, hs'⟩ := hstep s hs
      obtain ⟨m, hm, hrun⟩ := hless hrounds hn
      exact ih m hm hs' hrun

/-! ## Loops inside loops -/

/-- `body'` answers whatever `body` answers. -/
def Refines (body body' : Body σ ρ) : Prop := ∀ s out, body s = some out → body' s = some out

/-- A loop whose inner calls get more fuel keeps its results. -/
theorem run_refines {body' : Body σ ρ} (h : Refines body body') {n : Nat}
    (hr : run body n s = some r) : run body' n s = some r := by
  induction n generalizing s with
  | zero => simp [run] at hr
  | succ n ih =>
      unfold run at hr ⊢
      split at hr
      · exact absurd hr (by simp)
      · rename_i s₁ hbody
        rw [h s _ hbody]
        exact ih hr
      · rename_i r₁ hbody
        rw [h s _ hbody]
        exact hr

/-! ## Counted loops -/

/-- **A counted loop.** What each turn returns with for the next one, the loop returns with for the last. -/
theorem foldlM_range {f : σ → Nat → Option σ} {P : Nat → σ → Prop} {n : Nat}
    (hstep : ∀ i < n, ∀ s, P i s → ∃ s', f s i = some s' ∧ P (i + 1) s') {s : σ} (hs : P 0 s) :
    ∃ s', (List.range n).foldlM f s = some s' ∧ P n s' := by
  induction n with
  | zero => exact ⟨s, rfl, hs⟩
  | succ n ih =>
      obtain ⟨s₁, hs₁, hinv⟩ := ih (fun i hi => hstep i (Nat.lt_succ_of_lt hi))
      obtain ⟨s₂, hs₂, hinv'⟩ := hstep n (Nat.lt_succ_self n) s₁ hinv
      refine ⟨s₂, ?_, hinv'⟩
      simp [List.range_succ, List.foldlM_append, hs₁, hs₂]

/-- Steps that answer more answer more one after the other. -/
theorem bind_mono {α β : Type*} {x y : Option α} {f g : α → Option β} (hxy : ∀ a, x = some a → y = some a)
    (hfg : ∀ a b, f a = some b → g a = some b) {b : β} (h : x.bind f = some b) : y.bind g = some b := by
  obtain ⟨a, ha, h⟩ := Option.bind_eq_some_iff.mp h
  exact Option.bind_eq_some_iff.mpr ⟨a, hxy a ha, hfg a b h⟩

/-- A loop over a list whose turns answer more keeps its results. -/
theorem foldlM_mono {α : Type*} {f g : σ → α → Option σ} (h : ∀ s a s', f s a = some s' → g s a = some s')
    {as : List α} {s s' : σ} (hf : as.foldlM f s = some s') : as.foldlM g s = some s' := by
  induction as generalizing s s' with
  | nil => exact hf
  | cons a as ih =>
      rw [List.foldlM_cons] at hf ⊢
      exact bind_mono (h s a) (fun s₁ s' => ih) hf

end Loop
end Cclib
