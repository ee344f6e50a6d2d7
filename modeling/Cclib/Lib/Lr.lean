import Mathlib.Data.List.Basic

/-!
# `Lib.Lr` — paths of an LR automaton

The stack of a shift/reduce parser spells a path of its automaton: every element holds a state, and the
symbol between two elements is the one that leads from the lower state to the upper. `Path` says so of a
stack of elements and the symbols (the **nodes**) between them, both with the top first.

Two ways of using a path are developed, one for each half of a parser's correctness.

- **Backwards.** A reduction is right when every path into the reducing state ends with the body of the
  rule. `reads` checks that on the automaton alone, and `Path.pop` applies it to a stack.
- **Forwards.** `walk` follows a string of symbols; a parser that is fed what they derive builds the path
  of the walk.
-/

namespace Cclib
namespace Lr

/-- The states of an automaton with, for every state, the symbol it is entered by and the states it is
    entered from. State 0 is the start and is never entered. -/
structure Automaton where
  edge : Nat → Nat → Option Nat
  access : Nat → Nat
  before : Nat → List Nat
  edge_enters : ∀ {p x q : Nat}, edge p x = some q → q ≠ 0 ∧ access q = x ∧ p ∈ before q

/-- How a stack element names a state, a node its symbol, and what a node says of the element above it. -/
structure Reading (ε ν : Type*) where
  state : ε → Nat
  sym : ν → Nat
  tag : ν → ε → Prop

variable {ε ν : Type*}

/-- The nodes lead from the stack `base` to the stack above it. -/
inductive Path (A : Automaton) (R : Reading ε ν) (base : List ε) : List ε → List ν → Prop
  | bottom : Path A R base base []
  | push {e p : ε} {n : ν} {stack : List ε} {ns : List ν} (h : Path A R base (p :: stack) ns)
      (hedge : A.edge (R.state p) (R.sym n) = some (R.state e)) (htag : R.tag n e) :
      Path A R base (e :: p :: stack) (n :: ns)

variable {A : Automaton} {R : Reading ε ν} {base stack : List ε} {ns : List ν}

/-- A path grows its stack by one element a node. -/
theorem Path.drop (h : Path A R base stack ns) : stack.drop ns.length = base := by
  induction h with
  | bottom => rfl
  | push _ _ _ ih => simpa using ih

theorem Path.trans {stack' : List ε} {ns' : List ν} (h : Path A R base stack ns)
    (h' : Path A R stack stack' ns') : Path A R base stack' (ns' ++ ns) := by
  induction h' with
  | bottom => exact h
  | push _ hedge htag ih => exact ih.push hedge htag

/-! ## Backwards -/

/-- Every path into `q` ends with the symbols `xs`, last first, and starts them in a `good` state. -/
def reads (A : Automaton) (good : Nat → Bool) : List Nat → Nat → Bool
  | [], q => good q
  | x :: xs, q => q != 0 && A.access q == x && (A.before q).all (reads A good xs)

/-- **Popping a rule's body.** On a stack whose top state `reads` the symbols `xs`, the last nodes are
    theirs, and dropping as many elements uncovers the state they started in. -/
theorem Path.pop {e₀ e : ε} (h₀ : R.state e₀ = 0) {good : Nat → Bool} {xs : List Nat}
    (h : Path A R [e₀] (e :: stack) ns) (hreads : reads A good xs (R.state e) = true) :
    ∃ body rest popped p below, ns = body ++ rest ∧ e :: stack = popped ++ p :: below ∧
      body.map R.sym = xs ∧ List.Forall₂ R.tag body popped ∧ Path A R [e₀] (p :: below) rest ∧
      good (R.state p) = true := by
  induction xs generalizing e stack ns with
  | nil => exact ⟨[], ns, [], e, stack, rfl, rfl, rfl, .nil, h, hreads⟩
  | cons x xs ih =>
      simp only [reads, Bool.and_eq_true, bne_iff_ne, ne_eq, beq_iff_eq, List.all_eq_true] at hreads
      obtain ⟨⟨hne, haccess⟩, hbefore⟩ := hreads
      cases h with
      | bottom => exact absurd h₀ hne
      | @push _ _ n _ _ h hedge htag =>
          obtain ⟨-, hsym, hmem⟩ := A.edge_enters hedge
          obtain ⟨body, rest, popped, p, below, rfl, hstack, hmap, htags, hpath, hgood⟩ :=
            ih h (hbefore _ hmem)
          refine ⟨n :: body, rest, e :: popped, p, below, rfl, ?_, ?_, .cons htag htags, hpath, hgood⟩
          · rw [List.cons_append, hstack]
          · rw [List.map_cons, hmap, ← hsym, haccess]

/-- What the edges preserve holds at the end of every path. -/
theorem Path.invariant (Φ : Nat → List ν → Prop) {e₀ e : ε} (h₀ : Φ (R.state e₀) [])
    (hstep : ∀ p n e ns, A.edge p (R.sym n) = some (R.state e) → R.tag n e → Φ p ns →
      Φ (R.state e) (n :: ns))
    (h : Path A R [e₀] (e :: stack) ns) : Φ (R.state e) ns := by
  generalize hl : e :: stack = l at h
  induction h generalizing e stack with
  | bottom =>
      cases hl
      exact h₀
  | push _ hedge htag ih =>
      cases hl
      exact hstep _ _ _ _ hedge htag (ih rfl)

/-- Only the start has no way into it. -/
theorem Path.eq_nil {e₀ e : ε} (h : Path A R [e₀] (e :: stack) ns) (he : R.state e = 0) : ns = [] := by
  cases h with
  | bottom => rfl
  | push _ hedge _ => exact absurd he (A.edge_enters hedge).1

/-! ## Forwards -/

/-- Follow a string of symbols. -/
def walk (A : Automaton) : Nat → List Nat → Option Nat
  | q, [] => some q
  | q, x :: xs => (A.edge q x).bind (fun q' => walk A q' xs)

theorem walk_append (q : Nat) (xs ys : List Nat) :
    walk A q (xs ++ ys) = (walk A q xs).bind (fun q' => walk A q' ys) := by
  induction xs generalizing q with
  | nil => rfl
  | cons x xs ih =>
      simp only [List.cons_append, walk]
      cases A.edge q x with
      | none => rfl
      | some q' => exact ih q'

/-- A walk one symbol longer. -/
theorem walk_snoc {q q' : Nat} {xs : List Nat} {x : Nat} (h : walk A q (xs ++ [x]) = some q') :
    ∃ p, walk A q xs = some p ∧ A.edge p x = some q' := by
  rw [walk_append] at h
  obtain ⟨p, hp, hx⟩ := Option.bind_eq_some_iff.mp h
  obtain ⟨q'', hedge, hq⟩ := Option.bind_eq_some_iff.mp hx
  exact ⟨p, hp, hedge.trans hq⟩

/-- The nodes of a path lead from its first state to its last. -/
theorem Path.walk {e₀ e : ε} (h : Path A R [e₀] (e :: stack) ns) :
    Lr.walk A (R.state e₀) (ns.reverse.map R.sym) = some (R.state e) := by
  generalize hl : e :: stack = l at h
  induction h generalizing e stack with
  | bottom =>
      cases hl
      rfl
  | push _ hedge _ ih =>
      cases hl
      rw [List.reverse_cons, List.map_append, walk_append, ih rfl, Option.bind_some, List.map_singleton, Lr.walk, hedge]
      rfl

end Lr
end Cclib
