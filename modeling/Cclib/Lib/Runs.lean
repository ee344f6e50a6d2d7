import Mathlib.Logic.Basic

/-!
# `Lib.Runs` — what holds throughout a run, and conditions on its steps

A system is given by its step function, which is `none` where a step is not possible. `Throughout P` says that
`P` holds in every state a run comes through, `Along Good` that every step of it meets a condition. The two
rules: a condition that keeps an invariant is **enough** (`throughout_of_along`); one without which a step ends in
a state that is not `P` is also **necessary** (`throughout_iff_along`).
-/

namespace Cclib
namespace Runs

variable {σ α : Type}

/-- The steps of a list one after the other. -/
def run (step : σ → α → Option σ) : σ → List α → Option σ
  | s, [] => some s
  | s, a :: as => do
    let s' ← step s a
    run step s' as

/-- `P` holds at the start, at the end and between any two steps. -/
def Throughout (step : σ → α → Option σ) (P : σ → Prop) : σ → List α → Prop
  | s, [] => P s
  | s, a :: as => P s ∧ ∀ s', step s a = some s' → Throughout step P s' as

/-- Every step that is taken meets the condition. -/
def Along (step : σ → α → Option σ) (Good : σ → α → Prop) : σ → List α → Prop
  | _, [] => True
  | s, a :: as => ∀ s', step s a = some s' → Good s a ∧ Along step Good s' as

variable {step : σ → α → Option σ} {P Inv : σ → Prop} {Good : σ → α → Prop}

/-- One step more. -/
theorem run_snoc : ∀ (s : σ) (as : List α) (a : α), run step s (as ++ [a]) = (run step s as).bind (fun s => step s a)
  | s, [], a => by
      change (step s a).bind some = step s a
      cases step s a <;> rfl
  | s, b :: bs, a => by
      change (step s b).bind (fun s => run step s (bs ++ [a])) = ((step s b).bind (fun s => run step s bs)).bind _
      rw [Option.bind_assoc]
      exact congrArg _ (funext (fun s => run_snoc s bs a))

/-- The empty run has no cut. -/
theorem nil_ne_cut {before after : List α} {a : α} : [] ≠ before ++ a :: after :=
  (List.append_ne_nil_of_right_ne_nil _ (List.cons_ne_nil _ _)).symm

/-- A cut of a run with one step more. -/
theorem snoc_eq_cut {l before after : List α} {a b : α} :
    l ++ [a] = before ++ b :: after ↔
      (after = [] ∧ before = l ∧ b = a) ∨ ∃ after', after = after' ++ [a] ∧ l = before ++ b :: after' := by
  rcases List.eq_nil_or_concat after with rfl | ⟨after', c, rfl⟩
  · constructor
    · intro h
      obtain ⟨hl, hab⟩ := List.append_inj' h rfl
      cases hab
      exact Or.inl ⟨rfl, hl.symm, rfl⟩
    · rintro (⟨-, rfl, rfl⟩ | ⟨after', h, -⟩)
      · rfl
      · exact absurd h nil_ne_cut
  · rw [List.concat_eq_append]
    constructor
    · intro h
      rw [← List.cons_append, ← List.append_assoc] at h
      obtain ⟨hl, hac⟩ := List.append_inj' h rfl
      cases hac
      exact Or.inr ⟨after', rfl, hl⟩
    · rintro (⟨h, -⟩ | ⟨after'', h, rfl⟩)
      · exact absurd h.symm nil_ne_cut
      · rw [h, ← List.cons_append, ← List.append_assoc]

theorem Throughout.start : ∀ {s : σ} {as : List α}, Throughout step P s as → P s
  | _, [], h => h
  | _, _ :: _, h => h.1

/-- What holds throughout holds at the end. -/
theorem Throughout.final : ∀ {s s' : σ} {as : List α}, Throughout step P s as → run step s as = some s' → P s'
  | s, s', [], h, hr => Option.some.inj hr ▸ h
  | s, s', a :: as, h, hr => by
      obtain ⟨s₁, h₁, hr⟩ := Option.bind_eq_some_iff.mp hr
      exact (h.2 s₁ h₁).final hr

/-- **Enough**: a condition under which every step keeps an invariant. -/
theorem throughout_of_along (hP : ∀ s, Inv s → P s)
    (hstep : ∀ s a s', Inv s → Good s a → step s a = some s' → Inv s') :
    ∀ {s : σ} {as : List α}, Inv s → Along step Good s as → Throughout step P s as
  | s, [], hs, _ => hP s hs
  | s, a :: as, hs, h => by
      refine ⟨hP s hs, fun s' hs' => ?_⟩
      obtain ⟨hgood, htail⟩ := h s' hs'
      exact throughout_of_along hP hstep (hstep s a s' hs hgood hs') htail

/-- An invariant that every step keeps. -/
theorem throughout_of_step (hP : ∀ s, Inv s → P s) (hstep : ∀ s a s', Inv s → step s a = some s' → Inv s') :
    ∀ {s : σ} {as : List α}, Inv s → Throughout step P s as
  | s, [], hs => hP s hs
  | s, a :: _, hs => ⟨hP s hs, fun s' hs' => throughout_of_step hP hstep (hstep s a s' hs hs')⟩

/-- **Exact**: without the condition the step ends where `P` does not hold. -/
theorem throughout_iff_along (hP : ∀ s, Inv s → P s)
    (hstep : ∀ s a s', Inv s → Good s a → step s a = some s' → Inv s')
    (hbad : ∀ s a s', Inv s → step s a = some s' → P s' → Good s a) :
    ∀ {s : σ} {as : List α}, Inv s → (Throughout step P s as ↔ Along step Good s as)
  | s, [], hs => ⟨fun _ => trivial, fun _ => hP s hs⟩
  | s, a :: as, hs => by
      constructor
      · intro h s' hs'
        have hgood := hbad s a s' hs hs' (h.2 s' hs').start
        exact ⟨hgood, (throughout_iff_along hP hstep hbad (hstep s a s' hs hgood hs')).mp (h.2 s' hs')⟩
      · exact throughout_of_along hP hstep hs

end Runs
end Cclib
