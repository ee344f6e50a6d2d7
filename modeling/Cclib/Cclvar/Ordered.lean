import Cclib.Cclvar.Store
import Cclib.Cclvar.Order

/-!
# `Cclvar.Ordered` — sets and dicts stay in order

`set_t` and `dict_t` order their elements and keys by `var_c::operator<`, which follows handles: the
place of an element depends on cells that any other handle may modify. What keeps a set or dict in order
is that nobody modifies a container below one of its elements or keys (`KeepsOrder`); then the elements
and keys of every container that a program can reach are strictly increasing after any run, and
`loc_c::has_key` finds a key exactly when one that compares equal is stored
(`containers_stay_ordered`). Floats are taken from a linear order for this; a modified key and a NaN below
keys are the two ways to lose the order (`order_lost`).
-/

namespace Cclib
namespace Cclvar

open Compare

variable {F : Type}

namespace Data

variable {X : Type}

/-- What a container keeps in order: the elements of a set, the keys of a dict. -/
def ordered : Data F X → List X
  | .set xs => xs
  | .dict es => es.map Prod.fst
  | _ => []

/-- Sets and dicts. -/
def isOrdered : Data F X → Bool
  | .set _ => true
  | .dict _ => true
  | _ => false

theorem mem_handles_of_mem_ordered {d : Data F X} {x : X} (h : x ∈ d.ordered) : x ∈ d.handles := by
  cases d with
  | set xs => exact h
  | dict es =>
      obtain ⟨e, he, rfl⟩ := List.mem_map.mp h
      exact List.mem_flatMap.mpr ⟨e, he, by simp⟩
  | _ => simp [ordered] at h

/-- Keys and elements are `const`. -/
theorem ordered_put {d d' : Data F X} {i : Nat} {x : X} (h : d.put i x = some d') : d'.ordered = d.ordered := by
  cases d with
  | array xs =>
      simp only [put, Option.ite_none_right_eq_some, Option.some.injEq] at h
      obtain ⟨-, rfl⟩ := h
      rfl
  | list xs =>
      simp only [put, Option.ite_none_right_eq_some, Option.some.injEq] at h
      obtain ⟨-, rfl⟩ := h
      rfl
  | dict es =>
      simp only [put, Option.ite_none_right_eq_some, Option.map_eq_some_iff] at h
      obtain ⟨-, e, he, rfl⟩ := h
      obtain ⟨hlt, rfl⟩ := List.getElem?_eq_some_iff.mp he
      show (es.set _ _).map Prod.fst = es.map Prod.fst
      rw [List.map_set]
      apply List.ext_getElem?
      intro j
      rw [List.getElem?_set]
      split
      · rename_i hj
        subst hj
        simp [hlt]
      · rfl
  | _ => simp [put] at h

theorem ordered_erase {d d' : Data F X} {i : Nat} {xs : List X} (h : d.erase i = some (xs, d')) :
    d'.ordered.Sublist d.ordered := by
  cases d with
  | array ys =>
      simp only [erase, Option.ite_none_right_eq_some, Option.map_eq_some_iff, Prod.mk.injEq] at h
      obtain ⟨-, x, -, -, rfl⟩ := h
      exact List.Sublist.refl _
  | list ys =>
      simp only [erase, Option.map_eq_some_iff, Prod.mk.injEq] at h
      obtain ⟨x, -, -, rfl⟩ := h
      exact List.Sublist.refl _
  | set ys =>
      simp only [erase, Option.map_eq_some_iff, Prod.mk.injEq] at h
      obtain ⟨x, -, -, rfl⟩ := h
      exact List.eraseIdx_sublist ys i
  | dict es =>
      simp only [erase, Option.map_eq_some_iff, Prod.mk.injEq] at h
      obtain ⟨e, -, -, rfl⟩ := h
      exact (List.eraseIdx_sublist es i).map Prod.fst
  | _ => simp [erase] at h

/-- An insertion puts the new key where it fits. -/
theorem ordered_insert {cmp : Cmp X} {d d' : Data F X} {i : Nat} {xs : List X} (h : d.insert cmp i xs = some d') :
    d'.ordered = d.ordered ∨ ∃ k, xs.head? = some k ∧ d.isOrdered = true ∧ fits cmp d.ordered i k = true
      ∧ d'.ordered = d.ordered.insertIdx i k := by
  unfold insert at h
  split at h
  case h_1 x ys =>
    simp only [Option.ite_none_right_eq_some, Option.some.injEq] at h
    obtain ⟨-, rfl⟩ := h
    exact .inl rfl
  case h_2 x ys =>
    simp only [Option.ite_none_right_eq_some, Option.some.injEq] at h
    obtain ⟨-, rfl⟩ := h
    exact .inl rfl
  case h_3 x ys =>
    simp only [Option.ite_none_right_eq_some, Option.some.injEq] at h
    obtain ⟨hfit, rfl⟩ := h
    exact .inr ⟨x, rfl, rfl, hfit, rfl⟩
  case h_4 k v es =>
    simp only [Option.ite_none_right_eq_some, Option.some.injEq] at h
    obtain ⟨hfit, rfl⟩ := h
    refine .inr ⟨k, rfl, rfl, hfit, ?_⟩
    exact List.map_insertIdx Prod.fst es i (k, v)
  case h_5 => simp at h

end Data

namespace Store

/-! ## What a program can reach -/

/-- `c` can be reached from `a` along stored handles. -/
inductive Reach (s : Store F) (a : Addr) : Addr → Prop where
  | refl : Reach s a a
  | step {b c : Addr} {d : Data F Addr} : Reach s a b → s.look b = some d → c ∈ d.handles → Reach s a c

/-- `c` can be reached from an object outside of containers. -/
inductive Live (s : Store F) : Addr → Prop where
  | root {x : Nat} {a : Addr} : s.cellOf (.var x) = some a → Live s a
  | step {b c : Addr} {d : Data F Addr} : Live s b → s.look b = some d → c ∈ d.handles → Live s c

/-- Handles lead to cells that exist. -/
structure Closed (s : Store F) : Prop where
  vars : ∀ (x a : Nat), s.cellOf (.var x) = some a → a < s.cells.length
  handles : ∀ (a b : Nat) (d : Data F Addr), s.look a = some d → b ∈ d.handles → b < s.cells.length

variable {s s' : Store F} {a b c m : Nat} {d d' : Data F Addr}

/-- A store given cell by cell is closed if its handles are in range. -/
theorem Closed.of_forall (hvars : ∀ o ∈ s.vars, ∀ a ∈ o, a < s.cells.length)
    (hcells : ∀ d ∈ s.cells, ∀ b ∈ d.handles, b < s.cells.length) : Closed s where
  vars := by
    intro x a h
    exact hvars _ (List.mem_of_getElem? (cellOf_var.mp h)) a rfl
  handles := by
    intro a b d hd hb
    exact hcells d (List.mem_of_getElem? hd) b hb

theorem Reach.head (hd : s.look a = some d) (hb : b ∈ d.handles) (h : Reach s b c) : Reach s a c := by
  induction h with
  | refl => exact .step .refl hd hb
  | step _ he hc ih => exact .step ih he hc

/-- A scalar and an empty container lead nowhere else. -/
theorem Reach.of_leaf (h : Reach s a c) (hd : s.look a = some d) (hl : d.handles = []) : c = a := by
  induction h with
  | refl => rfl
  | step _ he hc ih =>
      rw [ih] at he
      obtain rfl := Option.some.inj (he.symm.trans hd)
      rw [hl] at hc
      simp at hc

theorem Closed.cellOf (hc : Closed s) {p : Place} (hp : s.cellOf p = some a) : a < s.cells.length := by
  cases p with
  | var x => exact hc.vars x a hp
  | slot b i =>
      obtain ⟨d, hd, hi⟩ := cellOf_slot.mp hp
      exact hc.handles b a d hd (List.mem_of_getElem? hi)

theorem Live.cellOf {p : Place} (hp : s.cellOf p = some a) (hl : ∀ b, p.holder = some b → Live s b) : Live s a := by
  cases p with
  | var x => exact .root hp
  | slot b i =>
      obtain ⟨d, hd, hi⟩ := cellOf_slot.mp hp
      exact .step (hl b rfl) hd (List.mem_of_getElem? hi)

theorem Given.lt {op : Op F} (hc : Closed s) (hlen : s.cells.length ≤ s'.cells.length) (hg : Given s op s' b) :
    b < s'.cells.length := by
  rcases hg with ⟨q, -, hq⟩ | ⟨rfl, hlt⟩
  · exact Nat.lt_of_lt_of_le (hc.cellOf hq) hlen
  · exact hlt

theorem Change.handles {cmp : Cmp Addr} {Gives : Addr → Prop} {key : Option Addr}
    (hc : Change cmp Gives key d d') (hb : b ∈ d'.handles) : b ∈ d.handles ∨ Gives b := by
  cases hc with
  | put i x hx h =>
      rcases List.mem_cons.mp ((Data.put_perm h).mem_iff.mp hb) with rfl | hb
      · exact .inr hx
      · exact .inl (List.mem_of_mem_eraseIdx hb)
  | insert i bs hbs _ h =>
      rcases List.mem_append.mp ((Data.insert_perm h).mem_iff.mp hb) with hb | hb
      · exact .inr (hbs b hb)
      · exact .inl hb
  | erase i bs h => exact .inl ((Data.erase_perm h).mem_iff.mp (List.mem_append_right bs hb))

/-- Where a handle of a cell after an operation comes from. -/
theorem Effect.handle {cmp : Cmp Addr} {op : Op F} (he : Effect cmp s op s') (hd : s'.look a = some d')
    (hb : b ∈ d'.handles) : (∃ d, s.look a = some d ∧ b ∈ d.handles) ∨ Given s op s' b := by
  by_cases ha : a < s.cells.length
  · obtain ⟨d, hd₀⟩ := look_lt ha
    by_cases hm : s.modifies op = some a
    · obtain ⟨e, e', he₀, he', hc⟩ := he.changed a hm
      obtain rfl := Option.some.inj (he'.symm.trans hd)
      rcases hc.handles hb with hb | hb
      · exact .inl ⟨e, he₀, hb⟩
      · exact .inr hb
    · obtain rfl := Option.some.inj ((he.kept a d hd₀ hm).symm.trans hd)
      exact .inl ⟨d, hd₀, hb⟩
  · rw [he.fresh a d' (by omega) hd] at hb
    simp at hb

theorem Effect.closed {cmp : Cmp Addr} {op : Op F} (he : Effect cmp s op s') (hc : Closed s) : Closed s' := by
  constructor
  · intro x a ha
    rcases he.vars x a ha with ⟨y, hy⟩ | hg
    · exact Nat.lt_of_lt_of_le (hc.vars y a hy) he.length
    · exact hg.lt hc he.length
  · intro a b d' hd hb
    rcases he.handle hd hb with ⟨d, hd₀, hb₀⟩ | hg
    · exact Nat.lt_of_lt_of_le (hc.handles a b d hd₀ hb₀) he.length
    · exact hg.lt hc he.length

/-- An operation on reachable handles reaches nothing new but the cell it makes. -/
theorem Effect.live {cmp : Cmp Addr} {op : Op F} (he : Effect cmp s op s')
    (hp : ∀ p ∈ op.places, ∀ b, p.holder = some b → Live s b) (hl : Live s' a) :
    Live s a ∨ s.cells.length ≤ a := by
  have hgiven : ∀ b : Nat, Given s op s' b → Live s b ∨ s.cells.length ≤ b := by
    rintro b (⟨q, hq, hb⟩ | ⟨rfl, -⟩)
    · exact .inl (Live.cellOf hb (hp q (Op.sources_subset hq)))
    · exact .inr (Nat.le_refl _)
  induction hl with
  | root hx =>
      rcases he.vars _ _ hx with ⟨y, hy⟩ | hg
      · exact .inl (.root hy)
      · exact hgiven _ hg
  | step _ hd hb ih =>
      rename_i a b d'
      rcases he.handle hd hb with ⟨d, hd₀, hb₀⟩ | hg
      · rcases ih with hl | hl
        · exact .inl (.step hl hd₀ hb₀)
        · have := lt_of_look hd₀
          omega
      · exact hgiven _ hg

/-! ## Who keeps the order -/

/-- `m` can be reached from an element of a reachable set or from a key of a reachable dict. -/
def KeyReach (s : Store F) (m : Addr) : Prop :=
  ∃ (c : Addr) (d : Data F Addr) (x : Addr), Live s c ∧ s.look c = some d ∧ x ∈ d.ordered ∧ Reach s x m

/-- The operation uses reachable handles, does not modify a container below an element or a key, and makes
    no element or key of one below which the set or dict itself is. -/
structure KeepsOrder (s : Store F) (op : Op F) : Prop where
  places : ∀ p ∈ op.places, ∀ b, p.holder = some b → Live s b
  modified : ∀ m, s.modifies op = some m → ¬ KeyReach s m
  key : ∀ m d k, s.modifies op = some m → s.look m = some d → d.isOrdered = true →
    op.key.bind s.cellOf = some k → ¬ Reach s k m

section Ordered

variable [LinearOrder F]

/-- Every set and dict that can be reached is in order. -/
structure InOrder (s : Store F) : Prop where
  closed : Closed s
  ordered : ∀ a d, Live s a → s.look a = some d → d.ordered.Pairwise (Below s.compare)

theorem compare_le (s : Store F) (n m : Nat) (h : n ≤ m) : (s.compare n).Le (s.compare m) := compareAt_mono _ h

theorem below_trans {x y z : Addr} (hxy : Below s.compare x y) (hyz : Below s.compare y z) : Below s.compare x z :=
  hxy.trans (compare_le s) (lawful_compareAt s.look) hyz

theorem below_of_less {cmp : Cmp Addr} {n : Nat} (hcmp : cmp = s.compare n) {x y : Addr}
    (h : Data.less cmp x y = true) : Below s.compare x y := by
  subst hcmp
  unfold Data.less at h
  split at h
  · rename_i r hr
    exact ⟨n, r, hr, of_decide_eq_true h⟩
  · simp at h

/-- A comparison that does not come to the modified container is the same after the operation. -/
theorem Effect.below {cmp : Cmp Addr} {op : Op F} (he : Effect cmp s op s') {x y : Addr}
    (hx : ∀ m, s.modifies op = some m → ¬ Reach s x m) (hy : ∀ m, s.modifies op = some m → ¬ Reach s y m)
    (h : Below s.compare x y) : Below s'.compare x y := by
  obtain ⟨n, r, hr, hr0⟩ := h
  let R : Addr → Addr → Prop := fun x y => x = y ∧ ∀ m, s.modifies op = some m → ¬ Reach s x m
  have hR : ∀ x y d, R x y → s.look x = some d → ∃ d', s'.look y = some d' ∧ d.Rel R d' := by
    rintro x _ d ⟨rfl, hm⟩ hd
    refine ⟨d, he.kept x d hd (fun h => hm x h .refl), Data.Rel.of_handles (fun c hc => ⟨rfl, fun m h hr => ?_⟩)⟩
    exact hm m h (hr.head hd hc)
  exact ⟨n, r, compareAt_rel hR n ⟨rfl, hx⟩ ⟨rfl, hy⟩ hr, hr0⟩

/-- What a change does to an ordered container, compared in the state before. -/
theorem Change.pairwise {cmp : Cmp Addr} {n : Nat} (hcmp : cmp = s.compare n) {Gives : Addr → Prop} {key : Option Addr}
    (hc : Change cmp Gives key d d') (hd : d.ordered.Pairwise (Below s.compare)) :
    d'.ordered.Pairwise (Below s.compare) := by
  cases hc with
  | put i b _ h =>
      rw [Data.ordered_put h]
      exact hd
  | erase i bs h => exact hd.sublist (Data.ordered_erase h)
  | insert i bs _ _ h =>
      rcases Data.ordered_insert h with heq | ⟨k, -, -, hfit, heq⟩
      · rw [heq]
        exact hd
      · rw [heq]
        simp only [Data.fits, Bool.and_eq_true, decide_eq_true_eq, Option.all_eq_true] at hfit
        obtain ⟨⟨hi, hbefore⟩, hafter⟩ := hfit
        refine pairwise_insertIdx (R := Below s.compare) below_trans hd hi ?_ ?_
        · intro x hx
          exact below_of_less hcmp (hbefore x hx)
        · intro x hx
          exact below_of_less hcmp (hafter x hx)

omit [LinearOrder F] in
/-- An element or key after a change was one before, or is the key of the operation. -/
theorem Change.mem_ordered {cmp : Cmp Addr} {Gives : Addr → Prop} {key : Option Addr} (hc : Change cmp Gives key d d')
    {x : Addr} (hx : x ∈ d'.ordered) : x ∈ d.ordered ∨ (d.isOrdered = true ∧ key = some x) := by
  cases hc with
  | put i b _ h =>
      rw [Data.ordered_put h] at hx
      exact .inl hx
  | erase i bs h => exact .inl ((Data.ordered_erase h).mem hx)
  | insert i bs _ hkey h =>
      rcases Data.ordered_insert h with heq | ⟨k, hk, hord, hfit, heq⟩
      · rw [heq] at hx
        exact .inl hx
      · rw [heq] at hx
        rcases List.eq_or_mem_of_mem_insertIdx hx with rfl | hx
        · exact .inr ⟨hord, hkey.symm.trans hk⟩
        · exact .inl hx

/-- One operation keeps everything in order. -/
theorem InOrder.exec {op : Op F} {depth : Nat} (hs : InOrder s) (hk : KeepsOrder s op)
    (h : s.exec depth op = some s') : InOrder s' := by
  have he := exec_effect h
  refine ⟨he.closed hs.closed, fun a d' hl hd' => ?_⟩
  rcases he.live hk.places hl with hl | hnew
  · -- an old container: its elements and keys do not lead to the modified one
    have hkeys : ∀ d, s.look a = some d → ∀ x ∈ d.ordered, ∀ m, s.modifies op = some m → ¬ Reach s x m :=
      fun d hd x hx m hm hr => hk.modified m hm ⟨a, d, x, hl, hd, hx, hr⟩
    by_cases hm : s.modifies op = some a
    · obtain ⟨d, e, hd, he', hc⟩ := he.changed a hm
      obtain rfl := Option.some.inj (he'.symm.trans hd')
      have hfree : ∀ x ∈ e.ordered, ∀ m, s.modifies op = some m → ¬ Reach s x m := by
        intro x hx m hm'
        rcases hc.mem_ordered hx with hx | ⟨hord, hkey⟩
        · exact hkeys d hd x hx m hm'
        · obtain rfl := Option.some.inj (hm.symm.trans hm')
          exact hk.key a d x hm hd hord hkey
      apply List.Pairwise.imp_of_mem _ (hc.pairwise rfl (hs.ordered a d hl hd))
      intro x y hx hy hxy
      exact he.below (hfree x hx) (hfree y hy) hxy
    · obtain ⟨d, hd⟩ := look_lt (s := s) (a := a) (by
        cases hl with
        | root hx => exact hs.closed.vars _ _ hx
        | step _ hb hc => exact hs.closed.handles _ _ _ hb hc)
      obtain rfl := Option.some.inj ((he.kept a d hd hm).symm.trans hd')
      apply List.Pairwise.imp_of_mem _ (hs.ordered a d hl hd)
      intro x y hx hy hxy
      exact he.below (hkeys d hd x hx) (hkeys d hd y hy) hxy
  · -- the cell the operation made holds no handles
    have hnil := he.fresh a d' hnew hd'
    have : d'.ordered = [] := by
      apply List.eq_nil_iff_forall_not_mem.mpr
      intro x hx
      have := Data.mem_handles_of_mem_ordered hx
      rw [hnil] at this
      simp at this
    rw [this]
    exact .nil

/-- A run keeps everything in order. -/
theorem InOrder.steps (hs : InOrder s) (h : Steps KeepsOrder s s') : InOrder s' := by
  induction h with
  | refl => exact hs
  | step _ hk he ih => exact ih.exec hk he

theorem inOrder_empty : InOrder (Store.empty : Store F) := by
  refine ⟨⟨fun x a h => ?_, fun a b d h _ => ?_⟩, fun a d _ h => ?_⟩
  · simp [cellOf, handleAt, empty] at h
  · simp [look, empty] at h
  · simp [look, empty] at h

end Ordered

/-- `loc_c::has_key` on the dict at `a`, as a search through the keys in their order: keys that are in order are found
    in their tree where they are found so (`SearchTree.find_eq_seek`, `SearchTree.parted_of_ordered`). `none` when it
    throws or a comparison does not return. -/
def hasKey [LT F] [DecidableLT F] (depth : Nat) (s : Store F) (a k : Addr) : Option Bool :=
  match s.look a with
  | some (.dict es) => (search (s.compare depth) k (es.map Prod.fst)).map Prod.snd
  | _ => none

/-- **Sets and dicts stay in order**, and so `has_key` finds what is there, as long as nobody modifies a
    container below an element or a key. -/
theorem containers_stay_ordered [LinearOrder F] {s : Store F} (hs : Steps KeepsOrder Store.empty s) {a : Addr}
    {d : Data F Addr} (hl : Live s a) (hd : s.look a = some d) :
    d.ordered.Pairwise (Below s.compare)
      ∧ ∀ es, d = .dict es → ∀ k, (∃ n, s.hasKey n a k = some true) ↔ ∃ e ∈ es, Ties s.compare e.1 k := by
  have hord := (inOrder_empty.steps hs).ordered a d hl hd
  refine ⟨hord, ?_⟩
  rintro es rfl k
  have hsearch := search_iff (compare_le s) (lawful_compareAt s.look) (k := k) hord
  constructor
  · rintro ⟨n, hn⟩
    unfold hasKey at hn
    rw [hd] at hn
    obtain ⟨⟨i, found⟩, hi, rfl⟩ := Option.map_eq_some_iff.mp hn
    obtain ⟨x, hx, ht⟩ := hsearch.mp ⟨n, i, hi⟩
    obtain ⟨e, he, rfl⟩ := List.mem_map.mp hx
    exact ⟨e, he, ht⟩
  · rintro ⟨e, he, ht⟩
    obtain ⟨n, i, hi⟩ := hsearch.mpr ⟨e.1, List.mem_map.mpr ⟨e, he, rfl⟩, ht⟩
    refine ⟨n, ?_⟩
    unfold hasKey
    rw [hd]
    exact congrArg (Option.map Prod.snd) hi

/-- The theorem for the dict that a run has put the keys 7 and 9 into: it finds both. -/
theorem containers_stay_ordered_two :
    let s : Store Nat := ⟨[.dict [(1, 2), (3, 4)], .integer 7, .blank, .integer 9, .blank], [some 0, some 1, some 3]⟩
    (Data.ordered (F := Nat) (.dict [((1 : Addr), (2 : Addr)), (3, 4)])).Pairwise (Below s.compare)
      ∧ ∀ k, (k = 1 ∨ k = 3) → ∃ n, s.hasKey n 0 k = some true := by
  intro s
  let s₂ : Store Nat := ⟨[.dict [], .integer 7], [some 0, some 1]⟩
  let s₄ : Store Nat := ⟨[.dict [(1, 2)], .integer 7, .blank, .integer 9], [some 0, some 1, some 3]⟩
  have kconstruct : ∀ (s : Store Nat) (d : Data Nat Empty), KeepsOrder s (.construct d) :=
    fun s d => ⟨by simp [Op.places], by simp [modifies], by simp [modifies]⟩
  have h₂ : Steps KeepsOrder Store.empty s₂ :=
    .step (.step (.refl _) (kconstruct _ (.dict [])) (show exec 1 _ _ = _ from rfl)) (kconstruct _ (.integer 7))
      (show exec 1 _ _ = _ from rfl)
  have k₃ : KeepsOrder s₂ (.index (.var 0) 0 (.var 1)) := by
    refine ⟨?_, ?_, ?_⟩
    · simp [Op.places, Place.holder]
    · -- there is no key yet
      rintro m - ⟨c, d, x, -, hd, hx, -⟩
      have hc : c < 2 := lt_of_look hd
      obtain rfl | rfl := Nat.le_one_iff_eq_zero_or_eq_one.mp (Nat.le_of_lt_succ hc) <;>
        obtain rfl := Option.some.inj hd <;> simp [Data.ordered] at hx
    · -- the new key is an integer
      intro m d k hm _ _ hk hr
      obtain rfl : 0 = m := Option.some.inj hm
      obtain rfl : 1 = k := Option.some.inj hk
      exact absurd (hr.of_leaf (d := .integer 7) rfl rfl) (by decide)
  have h₄ : Steps KeepsOrder Store.empty s₄ :=
    .step (.step h₂ k₃ (show exec 1 _ _ = _ from rfl)) (kconstruct _ (.integer 9)) (show exec 1 _ _ = _ from rfl)
  have k₅ : KeepsOrder s₄ (.index (.var 0) 1 (.var 2)) := by
    refine ⟨?_, ?_, ?_⟩
    · simp [Op.places, Place.holder]
    · -- the dict that is modified is not below its key, an integer
      rintro m hm ⟨c, d, x, -, hd, hx, hr⟩
      obtain rfl : 0 = m := Option.some.inj hm
      have hkey : x = 1 := by
        obtain _ | _ | _ | _ | c := c
        · obtain rfl := Option.some.inj hd
          exact List.mem_singleton.mp hx
        iterate 3
          · obtain rfl := Option.some.inj hd
            exact absurd hx List.not_mem_nil
        · cases hd
      subst hkey
      exact absurd (hr.of_leaf (d := .integer 7) rfl rfl) (by decide)
    · intro m d k hm _ _ hk hr
      obtain rfl : 0 = m := Option.some.inj hm
      obtain rfl : 3 = k := Option.some.inj hk
      exact absurd (hr.of_leaf (d := .integer 9) rfl rfl) (by decide)
  have h₅ : Steps KeepsOrder Store.empty s := .step h₄ k₅ (show exec 1 _ _ = _ from rfl)
  obtain ⟨hordered, hfinds⟩ := containers_stay_ordered h₅ (.root (x := 0) rfl) (d := .dict [(1, 2), (3, 4)]) rfl
  refine ⟨hordered, ?_⟩
  rintro k (rfl | rfl)
  · exact (hfinds _ rfl 1).mpr ⟨(1, 2), by simp, 1, by decide⟩
  · exact (hfinds _ rfl 3).mpr ⟨(3, 4), by simp, 1, by decide⟩

/-- A `double` that is NaN or not. -/
inductive Double where
  | nan
  | num (n : Nat)
deriving DecidableEq

instance : LT Double where
  lt
    | .num a, .num b => a < b
    | _, _ => False

instance : DecidableLT Double
  | .num a, .num b => inferInstanceAs (Decidable (a < b))
  | .nan, _ => isFalse (fun h => h)
  | .num _, .nan => isFalse (fun h => h)

/-- Two ways out of order. The keys `[1]` and `[2]` of a dict, of which the first becomes `[3]` by an
    assignment to its element: the dict does not find `[2]` any more. And the keys `[5, 0]`, `[NaN, 1]`,
    `[0, 2]`, inserted in order, of which the second is erased. -/
theorem order_lost : (∃ s : Store Nat,
    [Op.construct (.array []), .construct (.integer 1), .construct (.integer 2), .construct (.array []),
        .construct (.integer 3), .insert (.var 0) 0 [.var 1], .insert (.var 3) 0 [.var 2], .construct (.dict []),
        .index (.var 5) 0 (.var 0), .index (.var 5) 1 (.var 3), .assign (.slot 0 0) (.var 4)].foldlM
        (exec 2) empty = some s
      ∧ s.look 5 = some (.dict [(0, 6), (3, 7)]) ∧ s.compare 2 3 0 = some (-1)
      ∧ s.compare 2 3 3 = some 0 ∧ s.hasKey 2 5 3 = some false)
    ∧ ∃ s : Store Double,
    [Op.construct (.array []), .construct (.array []), .construct (.array []), .construct (.float (.num 5)),
        .construct (.float (.num 0)), .construct (.float .nan), .construct (.float (.num 1)),
        .construct (.float (.num 2)), .insert (.var 0) 0 [.var 3], .insert (.var 0) 1 [.var 4],
        .insert (.var 1) 0 [.var 5], .insert (.var 1) 1 [.var 6], .insert (.var 2) 0 [.var 4],
        .insert (.var 2) 1 [.var 7], .construct (.dict []), .index (.var 8) 0 (.var 1), .index (.var 8) 0 (.var 0),
        .index (.var 8) 2 (.var 2), .erase (.var 8) 1].foldlM (exec 2) empty = some s
      ∧ s.look 8 = some (.dict [(0, 10), (2, 11)]) ∧ s.compare 2 2 0 = some (-1) :=
  ⟨⟨_, rfl, by decide, by decide, by decide, by decide⟩, _, rfl, by decide, by decide⟩

end Store
end Cclvar
end Cclib
