import Cclib.Lib.Acyclic
import Cclib.Cclvar.Ordered

/-!
# `Cclvar.Acyclic` — values without a cycle

A container can contain itself, and `compare` and `copy` then follow handles for ever. From a cell that is
`Acyclic` every way along handles ends, because there are finitely many cells: `Closed.acc`. This is the
induction for everything that recurses along handles, and `compare_total` the first use of it: a comparison
returns as soon as one of the operands is acyclic.
-/

namespace Cclib
namespace Cclvar

open Compare Relation Acyclic

variable {F : Type}

/-- A comparison of contents returns if the comparisons of the handles do. -/
theorem compareLoc_total [LT F] [DecidableLT F] {X : Type} {cmp : Cmp X} {d e : Data F X}
    (h : ∀ x ∈ d.handles, ∀ y ∈ e.handles, ∃ r, cmp x y = some r) : ∃ r, compareLoc cmp d e = some r := by
  by_cases htype : d.type = e.type
  · rw [compareLoc_of_type_eq htype]
    cases d <;> cases e <;> simp [Data.type] at htype
    case array.array | set.set | list.list => exact sized_total h
    case dict.dict es fs =>
      refine sized_total (fun a ha b hb => pair_total (h _ ?_ _ ?_) (h _ ?_ _ ?_))
      all_goals exact List.mem_flatMap.mpr ⟨_, ‹_›, by simp⟩
    all_goals exact ⟨_, rfl⟩
  · exact ⟨_, compareLoc_of_type_ne htype⟩

namespace Store

/-- A handle that is stored in the cell `a` leads to `b`. -/
def Child (s : Store F) (a b : Addr) : Prop := ∃ d, s.look a = some d ∧ b ∈ d.handles

/-- No cell that can be reached from `a` can be reached from what it contains. -/
def Acyclic (s : Store F) (a : Addr) : Prop := NoCycle (Child s) a

variable {s : Store F} {a b : Nat}

theorem reach_iff : Reach s a b ↔ ReflTransGen (Child s) a b := by
  constructor
  · intro h
    induction h with
    | refl => exact .refl
    | step _ hd hb ih => exact ih.tail ⟨_, hd, hb⟩
  · intro h
    induction h with
    | refl => exact .refl
    | tail _ hb ih =>
        obtain ⟨d, hd, hb⟩ := hb
        exact .step ih hd hb

theorem Child.lt (hc : Closed s) (h : Child s a b) : b < s.cells.length := by
  obtain ⟨d, hd, hb⟩ := h
  exact hc.handles a b d hd hb

theorem Reach.lt (hc : Closed s) (ha : a < s.cells.length) (h : Reach s a b) : b < s.cells.length := by
  cases h with
  | refl => exact ha
  | step _ hd hb => exact hc.handles _ _ _ hd hb

/-- **The induction along handles**: below an acyclic cell every way ends. -/
theorem Closed.acc (hc : Closed s) (h : Acyclic s a) : Acc (fun x y => Child s y x) a := by
  refine acc_of_noCycle (Set.Finite.subset (s := insert a {b | b < s.cells.length}) ?_ ?_) h
  · exact (Set.finite_lt_nat s.cells.length).insert a
  · intro b hb
    cases hb with
    | refl => exact Set.mem_insert a _
    | tail _ hchild => exact Set.mem_insert_of_mem a (hchild.lt hc)

/-- A store given cell by cell has no cycle if its handles lead to later cells. -/
theorem acyclic_of_ascending (h : ∀ x ∈ s.cells.zipIdx, ∀ b ∈ x.1.handles, x.2 < b) (a : Addr) : Acyclic s a := by
  have hchild : ∀ b c : Nat, Child s b c → b < c := by
    rintro b c ⟨d, hd, hc⟩
    exact h (d, b) (List.mem_zipIdx_iff_getElem?.mpr hd) c hc
  have htrans : ∀ b c : Nat, TransGen (Child s) b c → b < c := by
    intro b c hbc
    induction hbc with
    | single hbc => exact hchild _ _ hbc
    | tail _ hbc ih => exact Nat.lt_trans ih (hchild _ _ hbc)
  exact fun b _ hb => Nat.lt_irrefl b (htrans b b hb)

theorem Acyclic.child (h : Acyclic s a) (hab : Child s a b) : Acyclic s b := NoCycle.step h hab

section Compare

variable [LT F] [DecidableLT F]

theorem compare_succ {x y : Addr} {d e : Data F Addr} (hd : s.look x = some d) (he : s.look y = some e) (n : Nat) :
    s.compare (n + 1) x y = compareLoc (s.compare n) d e := by
  show compareAt s.look (n + 1) x y = _
  unfold compareAt
  rw [hd, he]
  rfl

/-- A comparison with an acyclic value returns, whichever operand it is. -/
theorem compare_total (hc : Closed s) (h : Acyclic s a) (ha : a < s.cells.length) (hb : b < s.cells.length) :
    ∃ n, (∃ r, s.compare n a b = some r) ∧ ∃ r, s.compare n b a = some r := by
  have hacc := hc.acc h
  clear h
  induction hacc generalizing b with
  | intro a _ ih =>
      obtain ⟨d, hd⟩ := look_lt ha
      obtain ⟨e, he⟩ := look_lt hb
      have hmono : ∀ (x : Addr) (n m : Nat) (y : Addr), n ≤ m →
          ((∃ r, s.compare n x y = some r) ∧ ∃ r, s.compare n y x = some r) →
          (∃ r, s.compare m x y = some r) ∧ ∃ r, s.compare m y x = some r := by
        rintro x n m y hnm ⟨⟨r, hr⟩, r', hr'⟩
        exact ⟨⟨r, compareAt_mono s.look hnm x y r hr⟩, r', compareAt_mono s.look hnm y x r' hr'⟩
      -- one depth for all handles of the two cells
      obtain ⟨n, hn⟩ := exists_common
        (P := fun n x => ∀ y ∈ e.handles, (∃ r, s.compare n x y = some r) ∧ ∃ r, s.compare n y x = some r)
        (fun n m x hnm h y hy => hmono x n m y hnm (h y hy)) d.handles (fun x hx => by
          refine exists_common (hmono x) e.handles (fun y hy => ?_)
          exact ih x ⟨d, hd, hx⟩ (hc.handles a x d hd hx) (hc.handles b y e he hy))
      refine ⟨n + 1, ?_, ?_⟩
      · rw [compare_succ hd he]
        exact compareLoc_total (fun x hx y hy => (hn x hx y hy).1)
      · rw [compare_succ he hd]
        exact compareLoc_total (fun y hy x hx => (hn x hx y hy).2)

end Compare

end Store
end Cclvar
end Cclib
