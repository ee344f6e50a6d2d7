import Mathlib.Data.Fintype.Card
import Mathlib.Data.Finite.Prod
import Mathlib.Data.Set.Finite.Basic
import Mathlib.Logic.Relation

/-!
# `Lib.Acyclic` — going on until there is nowhere to go

Where only finitely many points can be reached from a point and none of them can be reached from itself, every way
from there ends: `acc_of_noCycle`. A step on pairs that either goes on in the first component or stays there and
goes on in the second has no cycle but one of the second component (`cycle_of_lex`).
-/

namespace Cclib
namespace Acyclic

open Relation

variable {α β : Type*}

/-- A point from which no way leads back to a point on it. -/
def NoCycle (R : α → α → Prop) (a : α) : Prop := ∀ b, ReflTransGen R a b → ¬ TransGen R b b

theorem NoCycle.step {R : α → α → Prop} {a b : α} (h : NoCycle R a) (hab : R a b) : NoCycle R b :=
  fun c hc => h c (.head hab hc)

/-- **Every way ends** where there are finitely many points and no cycle. -/
theorem acc_of_noCycle {R : α → α → Prop} {a : α} (hfin : {b | ReflTransGen R a b}.Finite) (h : NoCycle R a) :
    Acc (fun x y => R y x) a := by
  let Point := {b // ReflTransGen R a b}
  have hPoint : Finite Point := hfin
  -- on the points that can be reached, being further is a strict order
  let Further : Point → Point → Prop := fun x y => TransGen R y.1 x.1
  have htrans : IsTrans Point Further := ⟨fun _ _ _ hxy hyz => hyz.trans hxy⟩
  have hirrefl : Std.Irrefl Further := ⟨fun x hx => h x.1 x.2 hx⟩
  have hwf : WellFounded Further := Finite.wellFounded_of_trans_of_irrefl Further
  have hacc : ∀ x : Point, Acc (fun x y => R y x) x.1 := by
    intro x
    induction x using hwf.induction with
    | _ x ih =>
        refine .intro x.1 (fun y hy => ?_)
        exact ih ⟨y, x.2.tail hy⟩ (.single hy)
  exact hacc ⟨a, .refl⟩

theorem noCycle_of_acc {R : α → α → Prop} {a : α} (h : Acc (fun x y => R y x) a) : NoCycle R a := by
  induction h with
  | intro a _ ih =>
      intro b hb hcycle
      rcases ReflTransGen.cases_head hb with rfl | ⟨c, hac, hcb⟩
      · -- the cycle goes through a point after `a`
        obtain ⟨c, hac, hca⟩ := TransGen.head'_iff.mp hcycle
        exact ih c hac c .refl (.tail' hca hac)
      · exact ih c hac b hcb hcycle

/-- A cycle of steps that go on in the first component, or stay there and go on in the second, is a cycle of the second
    component, or there is one of the first. -/
theorem cycle_of_lex {R : α → α → Prop} {S : α → β → β → Prop} {T : α × β → α × β → Prop}
    (hT : ∀ x y, T x y → R x.1 y.1 ∨ (x.1 = y.1 ∧ S x.1 x.2 y.2)) {x y : α × β} (h : TransGen T x y) :
    TransGen R x.1 y.1 ∨ (x.1 = y.1 ∧ TransGen (S x.1) x.2 y.2) := by
  induction h with
  | single hxy =>
      rcases hT _ _ hxy with h | ⟨heq, h⟩
      · exact .inl (.single h)
      · exact .inr ⟨heq, .single h⟩
  | tail _ hyz ih =>
      rcases ih, hT _ _ hyz with ⟨ih | ⟨heq, ih⟩, h | ⟨heq', h⟩⟩
      · exact .inl (ih.tail h)
      · exact .inl (heq' ▸ ih)
      · exact .inl (heq ▸ .single h)
      · exact .inr ⟨heq.trans heq', ih.tail (heq ▸ h)⟩

end Acyclic
end Cclib
