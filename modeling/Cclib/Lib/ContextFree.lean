import Mathlib.Computability.ContextFreeGrammar

/-!
# `Lib.ContextFree` — derivations of a context-free grammar, symbol by symbol

`ContextFreeGrammar.Derives` rewrites anywhere in a string of symbols, so a derivation carries no
structure to induct on. `Yields g u w` is the structured form: `u` is read symbol by symbol, a terminal
yields itself and a nonterminal whatever the body of one of its rules yields. `derives_iff_yields` says
that the two generate the same words.
-/

namespace Cclib
namespace ContextFree

variable {T : Type*} {g : ContextFreeGrammar T}

/-- The string of symbols `u` yields the word `w`. -/
inductive Yields (g : ContextFreeGrammar T) : List (Symbol T g.NT) → List T → Prop
  | nil : Yields g [] []
  | terminal {t : T} {u : List (Symbol T g.NT)} {w : List T} (hu : Yields g u w) :
      Yields g (.terminal t :: u) (t :: w)
  | nonterminal {r : ContextFreeRule T g.NT} {u : List (Symbol T g.NT)} {v w : List T}
      (hr : r ∈ g.rules) (hbody : Yields g r.output v) (hu : Yields g u w) :
      Yields g (.nonterminal r.input :: u) (v ++ w)

theorem Yields.append {u u' : List (Symbol T g.NT)} {w w' : List T} (h : Yields g u w)
    (h' : Yields g u' w') : Yields g (u ++ u') (w ++ w') := by
  induction h with
  | nil => exact h'
  | terminal _ ih => exact .terminal ih
  | nonterminal hr hbody _ _ ih =>
      rw [List.append_assoc]
      exact .nonterminal hr hbody ih

/-- A word of a concatenation splits. -/
theorem Yields.split (u u' : List (Symbol T g.NT)) {w : List T} (h : Yields g (u ++ u') w) :
    ∃ v v', w = v ++ v' ∧ Yields g u v ∧ Yields g u' v' := by
  induction u generalizing w with
  | nil => exact ⟨[], w, rfl, .nil, h⟩
  | cons s u ih =>
      rw [List.cons_append] at h
      cases h with
      | terminal hu =>
          obtain ⟨v, v', rfl, hv, hv'⟩ := ih hu
          exact ⟨_ :: v, v', rfl, .terminal hv, hv'⟩
      | nonterminal hr hbody hu =>
          obtain ⟨v, v', rfl, hv, hv'⟩ := ih hu
          exact ⟨_ ++ v, v', (List.append_assoc _ _ _).symm, .nonterminal hr hbody hv, hv'⟩

/-- A word of a nonterminal is one of the body of one of its rules. -/
theorem Yields.inv {a : g.NT} {w : List T} (h : Yields g [.nonterminal a] w) :
    ∃ r ∈ g.rules, r.input = a ∧ Yields g r.output w := by
  generalize hu : [Symbol.nonterminal a] = u at h
  cases h with
  | nil => cases hu
  | terminal _ => cases hu
  | nonterminal hr hbody htail =>
      cases hu
      cases htail
      exact ⟨_, hr, rfl, by rwa [List.append_nil]⟩

/-- A word of a terminal in front. -/
theorem Yields.inv_terminal {t : T} {u : List (Symbol T g.NT)} {w : List T}
    (h : Yields g (.terminal t :: u) w) : ∃ v, w = t :: v ∧ Yields g u v := by
  cases h with
  | terminal hu => exact ⟨_, rfl, hu⟩

/-- A word yields itself. -/
theorem yields_terminals (w : List T) : Yields g (w.map .terminal) w := by
  induction w with
  | nil => exact .nil
  | cons t w ih => exact .terminal ih

/-- What a derivation arrives at, its start yields. -/
theorem yields_of_derives {u : List (Symbol T g.NT)} {w : List T}
    (h : g.Derives u (w.map .terminal)) : Yields g u w := by
  induction h using Relation.ReflTransGen.head_induction_on with
  | refl => exact yields_terminals w
  | head hstep _ ih =>
      obtain ⟨r, hr, hrw⟩ := hstep
      obtain ⟨p, q, rfl, rfl⟩ := hrw.exists_parts
      obtain ⟨v, v', rfl, hv, hv'⟩ := ih.split
      obtain ⟨v₁, v₂, rfl, hv₁, hv₂⟩ := hv.split
      rw [List.append_assoc]
      have hA : Yields g [.nonterminal r.input] v₂ := by
        simpa using Yields.nonterminal hr hv₂ .nil
      simpa [List.append_assoc] using hv₁.append (hA.append hv')

/-- What a string yields, it derives. -/
theorem derives_of_yields {u : List (Symbol T g.NT)} {w : List T} (h : Yields g u w) :
    g.Derives u (w.map .terminal) := by
  induction h with
  | nil => exact Relation.ReflTransGen.refl
  | @terminal t u w _ ih =>
      have := ih.append_left [.terminal t]
      simpa using this
  | @nonterminal r u v w hr _ _ ihbody ih =>
      have h₁ : g.Derives (.nonterminal r.input :: u) (r.output ++ u) :=
        Relation.ReflTransGen.single ⟨r, hr, .head u⟩
      have h₂ : g.Derives (r.output ++ u) (v.map .terminal ++ u) := ihbody.append_right u
      have h₃ : g.Derives (v.map .terminal ++ u) (v.map .terminal ++ w.map .terminal) :=
        ih.append_left _
      rw [List.map_append]
      exact (h₁.trans h₂).trans h₃

/-- **Rewriting and symbol-by-symbol derivation generate the same words.** -/
theorem mem_language_iff_yields {w : List T} :
    w ∈ g.language ↔ Yields g [.nonterminal g.initial] w :=
  ⟨yields_of_derives, derives_of_yields⟩

end ContextFree
end Cclib
