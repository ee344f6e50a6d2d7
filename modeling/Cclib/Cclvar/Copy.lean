import Cclib.Cclvar.Acyclic
import Cclib.Lib.Loop

/-!
# `Cclvar.Copy` — `var_c::copy`

`copy` as a program of the operations of `Cclvar.Store`, a move being a copy and the destruction of what is
moved from. It recurses along handles, so it returns on acyclic values only.

- `copy_deep` — the copy of an acyclic value with its sets and dicts in order compares equal to the value
  and has no container in common with it, so a program that modifies the containers of one of them does not
  touch the other.

The copy is related to what it was made of by `Twin`: level by level the same contents, in cells of its own
except for scalars. While a container is filled, what is in it so far is the twin of a front part of the
source (`Filling`).
-/

namespace Cclib
namespace Cclvar

open Compare Relation

variable {F : Type} [LT F] [DecidableLT F]

namespace Store

/-! ## The program -/

/-- `push_back` on the array or list of `c`. -/
def pushBack (depth : Nat) (s : Store F) (c q : Place) : Option (Store F) := do
  let t ← s.cellOf c
  let d ← s.look t
  s.exec depth (.insert c d.handles.length [q])

/-- `insert` on the set of `c`, which leaves it alone when the element is there. The hint `end()` does not
    change where the element goes. -/
def insertElem (depth : Nat) (s : Store F) (c q : Place) : Option (Store F) := do
  let t ← s.cellOf c
  let k ← s.cellOf q
  let d ← s.look t
  let (i, found) ← search (s.compare depth) k d.ordered
  if found then return s else s.exec depth (.insert c i [q])

/-- `operator[]` on the dict of `c` with the key `k`, and the assignment of `v` to what it gives. -/
def assignAt (depth : Nat) (s : Store F) (c k v : Place) : Option (Store F) := do
  let t ← s.cellOf c
  let key ← s.cellOf k
  let d ← s.look t
  let (i, found) ← search (s.compare depth) key d.ordered
  let s ← if found then some s else s.exec depth (.index c i k)
  s.exec depth (.assign (.slot t (2 * i + 1)) v)

/-- One turn of a loop over an array, list or set at `a`: copy the element, add the copy, destroy the
    temporary. -/
def copyElem (depth : Nat) (copyAt : Store F → Place → Option (Store F))
    (add : Store F → Place → Option (Store F)) (a : Addr) (s : Store F) (i : Nat) : Option (Store F) := do
  let element := s.vars.length
  let s ← copyAt s (.slot a i)
  let s ← add s (.var element)
  s.exec depth (.destroy element)

/-- One turn of the loop over the dict at `a`. Which of the two copies is made first is left open by the
    language; here it is the key. -/
def copyEntry (depth : Nat) (copyAt : Store F → Place → Option (Store F))
    (add : Store F → Place → Place → Option (Store F)) (a : Addr) (s : Store F) (i : Nat) : Option (Store F) := do
  let key := s.vars.length
  let s ← copyAt s (.slot a (2 * i))
  let value := s.vars.length
  let s ← copyAt s (.slot a (2 * i + 1))
  let s ← add s (.var key) (.var value)
  let s ← s.exec depth (.destroy value)
  s.exec depth (.destroy key)

/-- `copy` on the `var_c` at `p` makes the next object. -/
def copy : Nat → Store F → Place → Option (Store F)
  | 0, _, _ => none
  | fuel + 1, s, p => do
    let a ← s.cellOf p
    let d ← s.look a
    let res_value : Place := .var s.vars.length
    match d with
    | .array source =>
      let s ← s.exec fuel (.construct (.array []))
      (List.range source.length).foldlM (copyElem fuel (copy fuel) (fun s q => s.pushBack fuel res_value q) a) s
    | .list source =>
      let s ← s.exec fuel (.construct (.list []))
      (List.range source.length).foldlM (copyElem fuel (copy fuel) (fun s q => s.pushBack fuel res_value q) a) s
    | .set source =>
      let s ← s.exec fuel (.construct (.set []))
      (List.range source.length).foldlM (copyElem fuel (copy fuel) (fun s q => s.insertElem fuel res_value q) a) s
    | .dict source =>
      let s ← s.exec fuel (.construct (.dict []))
      (List.range source.length).foldlM
        (copyEntry fuel (copy fuel) (fun s k v => s.assignAt fuel res_value k v) a) s
    | _ => s.exec fuel (.copyConstruct p)

/-- `copy` at `p` returns and leads from `s` to `s'`. -/
def Copies (s : Store F) (p : Place) (s' : Store F) : Prop := ∃ fuel, copy fuel s p = some s'

/-! ## Twins -/

section Twins

omit [LT F] [DecidableLT F]

/-- The cell `c` of `s'` has, down to `n` handles deep, the contents that `a` has in `s`, in containers from
    `N` on and in the same scalars. -/
def Twin (s s' : Store F) (N : Nat) : Nat → Addr → Addr → Prop
  | 0, _, _ => False
  | n + 1, a, c => ∃ d e, s.look a = some d ∧ s'.look c = some e ∧ d.Rel (Twin s s' N n) e ∧
      if d.isContainer then N ≤ c else c = a

/-- The cells of `s` are in `s'` with the same contents. -/
def Over (s s' : Store F) : Prop := ∀ b d, s.look b = some d → s'.look b = some d

variable {s s₁ s' s'' : Store F} {N N' n m : Nat} {a b c : Addr} {d e : Data F Addr}

theorem Over.length (h : Over s s') : s.cells.length ≤ s'.cells.length := by
  rcases Nat.eq_zero_or_pos s.cells.length with h₀ | h₀
  · rw [h₀]
    exact Nat.zero_le _
  · obtain ⟨d, hd⟩ := look_lt (s := s) (a := s.cells.length - 1) (by omega)
    have hlt := lt_of_look (h _ d hd)
    omega

theorem Twin.mono (hnm : n ≤ m) (h : Twin s s' N n a c) : Twin s s' N m a c := by
  induction n generalizing m a c with
  | zero => exact h.elim
  | succ n ih =>
      obtain ⟨m, rfl⟩ : ∃ m', m = m' + 1 := ⟨m - 1, by omega⟩
      obtain ⟨d, e, hd, he, hrel, hc⟩ := h
      exact ⟨d, e, hd, he, hrel.imp (fun x y hxy => ih (by omega) hxy), hc⟩

/-- Other cells may change, and containers may be asked to be less new. -/
theorem Twin.keep (hkeep : ∀ b e, s'.look b = some e → N ≤ b ∨ b < s.cells.length → s''.look b = some e)
    (hN : N' ≤ N) (h : Twin s s' N n a c) : Twin s s'' N' n a c := by
  induction n generalizing a c with
  | zero => exact h.elim
  | succ n ih =>
      obtain ⟨d, e, hd, he, hrel, hc⟩ := h
      refine ⟨d, e, hd, hkeep c e he ?_, hrel.imp (fun x y hxy => ih hxy), ?_⟩
      · split at hc
        · exact Or.inl hc
        · exact Or.inr (hc ▸ lt_of_look hd)
      · split
        · rename_i hcont
          rw [if_pos hcont] at hc
          exact Nat.le_trans hN hc
        · rename_i hcont
          rw [if_neg hcont] at hc
          exact hc

/-- A container below the copy is a new one. -/
theorem Twin.new (h : Twin s s' N n a c) (hb : Reach s' c b) (he : s'.look b = some e)
    (hcont : e.isContainer = true) : N ≤ b := by
  induction n generalizing a c with
  | zero => exact h.elim
  | succ n ih =>
      obtain ⟨d, e', hd, he', hrel, hc⟩ := h
      rcases ReflTransGen.cases_head (reach_iff.mp hb) with rfl | ⟨y, hy, hyb⟩
      · obtain rfl := Option.some.inj (he'.symm.trans he)
        rw [hrel.isContainer_eq, hcont, if_pos rfl] at hc
        exact hc
      · obtain ⟨e'', he'', hmem⟩ := hy
        obtain rfl := Option.some.inj (he''.symm.trans he')
        obtain ⟨x, -, hxy⟩ := exists_of_mem_right hrel.handles hmem
        exact ih hxy (reach_iff.mpr hyb)

end Twins

/-- A comparison of twins is the comparison of what they were made of. -/
theorem Twin.compare {s s' : Store F} {N n k : Nat} {a b c d : Addr} {r : Int} (hac : Twin s s' N n a c)
    (hbd : Twin s s' N n b d) (h : s.compare k a b = some r) : s'.compare k c d = some r := by
  have hR : ∀ x y e, (∃ m, Twin s s' N m x y) → s.look x = some e →
      ∃ e', s'.look y = some e' ∧ e.Rel (fun x y => ∃ m, Twin s s' N m x y) e' := by
    rintro x y e ⟨m, hxy⟩ he
    cases m with
    | zero => exact hxy.elim
    | succ m =>
        obtain ⟨e₁, e', he₁, he', hrel, -⟩ := hxy
        obtain rfl := Option.some.inj (he₁.symm.trans he)
        exact ⟨e', he', hrel.imp (fun x y hxy => ⟨m, hxy⟩)⟩
  exact compareAt_rel hR k ⟨n, hac⟩ ⟨n, hbd⟩ h

end Store

/-- Contents compare equal if related handles do. -/
theorem compareLoc_tie [Std.Irrefl (fun f g : F => f < g)] {X : Type} {cmp : Cmp X} {d e : Data F X}
    (h : d.Rel (fun x y => cmp x y = some 0) e) : compareLoc cmp d e = some 0 := by
  rw [compareLoc_of_type_eq h.type_eq]
  cases h with
  | array h | set h | list h => exact sized_tie h
  | dict h => exact sized_tie (h.imp (fun _ _ he => pair_tie he.1 he.2))
  | blank => rfl
  | bool b => exact congrArg some (ofLT_self _)
  | integer n => exact congrArg some (ofLT_self _)
  | float f => exact congrArg some (ofLT_self f)
  | string s => exact congrArg some (ofLT_self s)

namespace Store

/-- **A copy compares equal** to what it was made of, either way round. -/
theorem Twin.tie [Std.Irrefl (fun f g : F => f < g)] {s s' : Store F} (hover : Over s s') {N n : Nat} {a c : Addr}
    (h : Twin s s' N n a c) : s'.compare n c a = some 0 ∧ s'.compare n a c = some 0 := by
  induction n generalizing a c with
  | zero => exact h.elim
  | succ n ih =>
      obtain ⟨d, e, hd, he, hrel, -⟩ := h
      rw [compare_succ he (hover a d hd), compare_succ (hover a d hd) he]
      constructor
      · exact compareLoc_tie (hrel.flip.imp (fun x y hxy => (ih hxy).1))
      · exact compareLoc_tie (hrel.imp (fun x y hxy => (ih hxy).2))

/-! ## Operations on a container that is being filled -/

section Filling

omit [LT F] [DecidableLT F]

/-- `s'` has one object more than `s`, which leads to `c`, and perhaps others behind it; the cells of `s`
    are as they were. -/
structure Made (s s' : Store F) (c : Addr) : Prop where
  closed : Closed s'
  base : Over s s'
  vars : ∀ x < s.vars.length, s'.cellOf (.var x) = s.cellOf (.var x)
  res : s'.cellOf (.var s.vars.length) = some c

/-- The object is on a new cell, whose contents so far are the twin of `D`. -/
structure Filling (s s₀ : Store F) (n : Nat) (D : Data F Addr) (s' : Store F) : Prop where
  made : Made s₀ s' s₀.cells.length
  target : ∃ e, s'.look s₀.cells.length = some e ∧ D.Rel (Twin s s' (s₀.cells.length + 1) n) e

variable {s s₀ s' s₁ s₂ : Store F} {n : Nat} {D D' : Data F Addr} {a b c x : Nat} {d e : Data F Addr}

theorem lt_of_cellOf_var (h : s.cellOf (.var x) = some c) : x < s.vars.length :=
  (List.getElem?_eq_some_iff.mp (cellOf_var.mp h)).1

theorem cellOf_push (x : Nat) : (s.push a).cellOf (.var x) = if x = s.vars.length then some a else s.cellOf (.var x) := by
  unfold cellOf handleAt push
  simp only [List.getElem?_append]
  split
  · rename_i hlt
    rw [if_neg (by omega)]
  · rename_i hge
    split
    · rename_i heq
      simp [heq]
    · rw [List.getElem?_eq_none (by simp; omega), List.getElem?_eq_none (by omega)]

theorem Over.trans (h : Over s s₁) (h' : Over s₁ s₂) : Over s s₂ := fun b d hd => h' b d (h b d hd)

theorem Made.lt (h : Made s s' c) : s.vars.length < s'.vars.length := lt_of_cellOf_var h.res

/-- Making another object leaves the first. -/
theorem Made.more (h : Made s s₁ c) (h' : Made s₁ s₂ b) : Made s s₂ c where
  closed := h'.closed
  base := h.base.trans h'.base
  vars := by
    intro x hx
    rw [h'.vars x (Nat.lt_trans hx h.lt), h.vars x hx]
  res := by rw [h'.vars _ h.lt, h.res]

/-- What is below the new container does not change with it. -/
theorem Filling.twin_keep (hbase : Over s s₀) (hkeep : ∀ b d, b ≠ s₀.cells.length → s₁.look b = some d → s₂.look b = some d)
    (h : Twin s s₁ (s₀.cells.length + 1) n a c) : Twin s s₂ (s₀.cells.length + 1) n a c := by
  have hlen := hbase.length
  refine h.keep ?_ (Nat.le_refl _)
  intro b e he hb
  refine hkeep b e ?_ he
  rintro rfl
  rcases hb with hb | hb
  · exact Nat.not_succ_le_self _ hb
  · exact Nat.not_lt_of_le hlen hb

theorem Filling.more (hbase : Over s s₀) (h : Filling s s₀ n D s₁) (h' : Made s₁ s₂ b) : Filling s s₀ n D s₂ := by
  obtain ⟨e, he, hrel⟩ := h.target
  refine ⟨h.made.more h', e, h'.base _ e he, ?_⟩
  exact hrel.imp (fun x y hxy => twin_keep hbase (fun b d _ hd => h'.base b d hd) hxy)

/-- Only the new container changes. -/
theorem Filling.fill (hbase : Over s s₀) (h : Filling s s₀ n D s₁) (hclosed : Closed s₂)
    (hkeep : ∀ b d, b ≠ s₀.cells.length → s₁.look b = some d → s₂.look b = some d)
    (hvars : ∀ x, s₂.cellOf (.var x) = s₁.cellOf (.var x)) (he : s₂.look s₀.cells.length = some e)
    (hrel : D'.Rel (Twin s s₁ (s₀.cells.length + 1) n) e) : Filling s s₀ n D' s₂ where
  made :=
    { closed := hclosed
      base := by
        intro b d hd
        have hlt := lt_of_look hd
        exact hkeep b d (by omega) (h.made.base b d hd)
      vars := by
        intro x hx
        rw [hvars, h.made.vars x hx]
      res := by rw [hvars, h.made.res] }
  target := ⟨e, he, hrel.imp (fun x y hxy => twin_keep hbase hkeep hxy)⟩

end Filling

variable {s s₀ s' s₁ s₂ : Store F} {n depth : Nat} {D : Data F Addr} {a b c x : Nat}

/-- A temporary is destroyed. -/
theorem Filling.destroy (depth : Nat) (h : Filling s s₀ n D s₁) (hx : s₀.vars.length < x)
    (hc : s₁.cellOf (.var x) = some c) :
    ∃ s₂, s₁.exec depth (.destroy x) = some s₂ ∧ Filling s s₀ n D s₂ ∧
      ∀ y, y ≠ x → s₂.cellOf (.var y) = s₁.cellOf (.var y) := by
  have hexec : s₁.exec depth (.destroy x) = some { s₁ with vars := s₁.vars.set x none } := by
    simp only [exec, hc]
    rfl
  have hother : ∀ y, y ≠ x →
      ({ s₁ with vars := s₁.vars.set x none } : Store F).cellOf (.var y) = s₁.cellOf (.var y) := by
    intro y hy
    show (s₁.vars.set x none)[y]?.join = s₁.vars[y]?.join
    rw [List.getElem?_set_ne (Ne.symm hy)]
  obtain ⟨e, he, hrel⟩ := h.target
  refine ⟨_, hexec, ⟨⟨(exec_effect hexec).closed h.made.closed, h.made.base, ?_, ?_⟩, e, he, ?_⟩, hother⟩
  · intro y hy
    rw [hother y (by omega), h.made.vars y hy]
  · rw [hother _ (by omega), h.made.res]
  · refine hrel.imp (fun x y hxy => hxy.keep ?_ (Nat.le_refl _))
    intro b e he _
    exact he

/-- The empty container. -/
theorem Filling.construct (depth : Nat) (hc : Closed s₀) (d : Data F Empty) {D : Data F Addr}
    (hD : D.Rel (fun _ _ => False) (d.map Empty.elim : Data F Addr)) :
    ∃ s₁, s₀.exec depth (.construct d) = some s₁ ∧ Filling s s₀ n D s₁ := by
  have hexec : s₀.exec depth (.construct d) = some ((s₀.alloc (d.map Empty.elim)).push s₀.cells.length) := rfl
  refine ⟨_, hexec, ⟨(exec_effect hexec).closed hc, ?_, ?_, ?_⟩, ?_⟩
  · intro b e he
    exact look_alloc_old he
  · intro y hy
    rw [cellOf_push, if_neg]
    · rfl
    · exact Nat.ne_of_lt hy
  · rw [cellOf_push]
    exact if_pos rfl
  · exact ⟨_, look_alloc_new, hD.imp (fun _ _ h => h.elim)⟩

/-! ### Adding to it -/

/-- The object of the container and another one are there. -/
theorem Filling.insert (hbase : Over s s₀) (h : Filling s s₀ n D s₁) {q : Place} {y : Addr} {i : Nat}
    (hq : s₁.cellOf q = some y) {D' e e' : Data F Addr} (he : s₁.look s₀.cells.length = some e)
    (hins : e.insert (s₁.compare depth) i [y] = some e') (hrel : D'.Rel (Twin s s₁ (s₀.cells.length + 1) n) e') :
    ∃ s₂, s₁.exec depth (.insert (.var s₀.vars.length) i [q]) = some s₂ ∧ Filling s s₀ n D' s₂ ∧
      ∀ x, s₂.cellOf (.var x) = s₁.cellOf (.var x) := by
  have hexec : s₁.exec depth (.insert (.var s₀.vars.length) i [q]) = some (s₁.setData s₀.cells.length e') := by
    simp [exec, h.made.res, hq, he, hins]
  have hvars : ∀ x, (s₁.setData s₀.cells.length e').cellOf (.var x) = s₁.cellOf (.var x) := fun _ => rfl
  refine ⟨_, hexec, ?_, hvars⟩
  refine h.fill hbase ((exec_effect hexec).closed h.made.closed) ?_ hvars (look_setData_self (lt_of_look he)) hrel
  intro b d hb hd
  rw [look_setData_ne (Ne.symm hb)]
  exact hd

/-- An array or a list at its end. -/
theorem Filling.pushBack (hbase : Over s s₀) {mk : List Addr → Data F Addr} (hmk : mk = .array ∨ mk = .list)
    {xs : List Addr} (h : Filling s s₀ n (mk xs) s₁) {q : Place} {x y : Addr} (hq : s₁.cellOf q = some y)
    (hxy : Twin s s₁ (s₀.cells.length + 1) n x y) :
    ∃ s₂, s₁.pushBack depth (.var s₀.vars.length) q = some s₂ ∧ Filling s s₀ n (mk (xs ++ [x])) s₂ ∧
      ∀ x, s₂.cellOf (.var x) = s₁.cellOf (.var x) := by
  obtain ⟨e, he, hrel⟩ := h.target
  have hpush : s₁.pushBack depth (.var s₀.vars.length) q =
      s₁.exec depth (.insert (.var s₀.vars.length) e.handles.length [q]) := by
    simp [Store.pushBack, h.made.res, he]
  rw [hpush]
  rcases hmk with rfl | rfl
  · cases hrel with
    | array hys =>
        refine h.insert hbase hq he (if_pos rfl) (.array ?_)
        exact List.rel_append hys (.cons hxy .nil)
  · cases hrel with
    | @list _ ys hys =>
        refine h.insert hbase hq he (if_pos (Nat.le_refl _)) (.list ?_)
        rw [show (Data.list ys : Data F Addr).handles = ys from rfl, List.insertIdx_length_self]
        exact List.rel_append hys (.cons hxy .nil)

/-- What is compared so in `s` is compared so among the copies. -/
theorem twins_below {N : Nat} {xs ys : List Addr} {x y : Addr} (hys : List.Forall₂ (Twin s s₁ N n) xs ys)
    (hxy : Twin s s₁ N n x y) (h : ∀ z ∈ xs, ∃ r, s.compare depth z x = some r ∧ r < 0) :
    ∀ z ∈ ys, ∃ r, s₁.compare depth z y = some r ∧ r < 0 := by
  intro z hz
  obtain ⟨w, hw, hwz⟩ := exists_of_mem_right hys hz
  obtain ⟨r, hr, hr0⟩ := h w hw
  exact ⟨r, hwz.compare hxy hr, hr0⟩

theorem fits_of_below {cmp : Cmp Addr} {xs : List Addr} {k : Addr} (h : ∀ x ∈ xs, ∃ r, cmp x k = some r ∧ r < 0) :
    Data.fits cmp xs xs.length k = true := by
  refine Data.fits_length (fun x hx => ?_)
  obtain ⟨r, hr, hr0⟩ := h x hx
  simp [Data.less, hr, hr0]

/-- A set, by an element above all others. -/
theorem Filling.insertElem (hbase : Over s s₀) {xs : List Addr} (h : Filling s s₀ n (.set xs) s₁) {q : Place}
    {x y : Addr} (hq : s₁.cellOf q = some y) (hxy : Twin s s₁ (s₀.cells.length + 1) n x y)
    (hbelow : ∀ z ∈ xs, ∃ r, s.compare depth z x = some r ∧ r < 0) :
    ∃ s₂, s₁.insertElem depth (.var s₀.vars.length) q = some s₂ ∧ Filling s s₀ n (.set (xs ++ [x])) s₂ ∧
      ∀ x, s₂.cellOf (.var x) = s₁.cellOf (.var x) := by
  obtain ⟨e, he, hrel⟩ := h.target
  cases hrel with
  | @set _ ys hys =>
      have hbelow' := twins_below hys hxy hbelow
      have hinsert : s₁.insertElem depth (.var s₀.vars.length) q =
          s₁.exec depth (.insert (.var s₀.vars.length) ys.length [q]) := by
        simp [Store.insertElem, h.made.res, hq, he, Data.ordered, search_of_forall_lt hbelow']
      rw [hinsert]
      refine h.insert hbase hq he (if_pos (fits_of_below hbelow')) (.set ?_)
      rw [List.insertIdx_length_self]
      exact List.rel_append hys (.cons hxy .nil)

/-- A dict, by a key above all others and its value. -/
theorem Filling.assignAt (hbase : Over s s₀) {es : List (Addr × Addr)} (h : Filling s s₀ n (.dict es) s₁)
    {p : Place} {k v k' v' : Addr} (hp : s₁.cellOf p = some k') (hq : s₁.cellOf (.var x) = some v')
    (hk : Twin s s₁ (s₀.cells.length + 1) n k k') (hv : Twin s s₁ (s₀.cells.length + 1) n v v')
    (hbelow : ∀ z ∈ es.map Prod.fst, ∃ r, s.compare depth z k = some r ∧ r < 0) :
    ∃ s₂, s₁.assignAt depth (.var s₀.vars.length) p (.var x) = some s₂ ∧ Filling s s₀ n (.dict (es ++ [(k, v)])) s₂ ∧
      ∀ x, s₂.cellOf (.var x) = s₁.cellOf (.var x) := by
  obtain ⟨e, he, hrel⟩ := h.target
  cases hrel with
  | @dict _ fs hfs =>
      have hkeys : List.Forall₂ (Twin s s₁ (s₀.cells.length + 1) n) (es.map Prod.fst) (fs.map Prod.fst) :=
        List.rel_map (fun _ _ hef => hef.1) hfs
      have hbelow' := twins_below hkeys hk hbelow
      have hfits : Data.fits (s₁.compare depth) (fs.map Prod.fst) fs.length k' = true := by
        simpa using fits_of_below hbelow'
      -- the key with a blank
      let dict₂ : Data F Addr := .dict (fs ++ [(k', s₁.cells.length)])
      have hindex : s₁.exec depth (.index (.var s₀.vars.length) fs.length p) =
          some ((s₁.alloc .blank).setData s₀.cells.length dict₂) := by
        simp [exec, h.made.res, hp, he, Data.insert, hfits, List.insertIdx_length_self, dict₂]
      have hlt := lt_of_look he
      have hlook₂ : ((s₁.alloc .blank).setData s₀.cells.length dict₂).look s₀.cells.length = some dict₂ := by
        refine look_setData_self ?_
        rw [length_alloc]
        exact Nat.lt_succ_of_lt hlt
      -- the value
      let dict₃ : Data F Addr := .dict (fs ++ [(k', v')])
      have hput : dict₂.put (2 * fs.length + 1) v' = some dict₃ := by
        have hdiv : (2 * fs.length + 1) / 2 = fs.length := by omega
        have hmod : (2 * fs.length + 1) % 2 = 1 := by omega
        simp [Data.put, dict₂, dict₃, hdiv, hmod]
      have hassign : ((s₁.alloc .blank).setData s₀.cells.length dict₂).exec depth
          (.assign (.slot s₀.cells.length (2 * fs.length + 1)) (.var x)) =
          some (((s₁.alloc .blank).setData s₀.cells.length dict₂).setData s₀.cells.length dict₃) := by
        have hvalue : ((s₁.alloc .blank).setData s₀.cells.length dict₂).cellOf (.var x) = some v' := hq
        simp [exec, write, hvalue, hlook₂, hput]
      have hexec : s₁.assignAt depth (.var s₀.vars.length) p (.var x) =
          some (((s₁.alloc .blank).setData s₀.cells.length dict₂).setData s₀.cells.length dict₃) := by
        rw [← hassign]
        simp [Store.assignAt, h.made.res, hp, he, Data.ordered, search_of_forall_lt hbelow', hindex]
      refine ⟨_, hexec, ?_, fun _ => rfl⟩
      have hclosed := (exec_effect hassign).closed ((exec_effect hindex).closed h.made.closed)
      refine h.fill hbase hclosed ?_ (fun _ => rfl) (look_setData_self ?_) (.dict ?_)
      · intro b d hb hd
        rw [look_setData_ne (Ne.symm hb), look_setData_ne (Ne.symm hb)]
        exact look_alloc_old hd
      · rw [length_setData, length_alloc]
        exact Nat.lt_succ_of_lt hlt
      · exact List.rel_append hfs (.cons ⟨hk, hv⟩ .nil)

/-! ## The copy -/

/-- Made in any store over `s`, the copy of `a` is its twin on new cells. -/
def Makes (s : Store F) (fuel n : Nat) (a : Addr) : Prop :=
  ∀ s₀ p, Over s s₀ → Closed s₀ → s₀.cellOf p = some a →
    ∃ s' c, copy fuel s₀ p = some s' ∧ Made s₀ s' c ∧ Twin s s' s₀.cells.length n a c

/-- The copy of a part, in front of the cells of the next one, for the container that is being filled. -/
theorem Filling.makes (hbase : Over s s₀) (h : Filling s s₀ n D s₁) {fuel : Nat} {x : Addr} (hx : Makes s fuel n x)
    {p : Place} (hp : s₁.cellOf p = some x) :
    ∃ s₂ y, copy fuel s₁ p = some s₂ ∧ Filling s s₀ n D s₂ ∧ Made s₁ s₂ y ∧
      Twin s s₂ (s₀.cells.length + 1) n x y := by
  obtain ⟨s₂, y, hcopy, hmade, htwin⟩ := hx s₁ p (hbase.trans h.made.base) h.made.closed hp
  obtain ⟨e, he, -⟩ := h.target
  have hlt := lt_of_look he
  exact ⟨s₂, y, hcopy, h.more hbase hmade, hmade, htwin.keep (fun b e he _ => he) hlt⟩

/-- A turn of the loop over elements. -/
theorem Filling.copyElem (hbase : Over s s₀) (h : Filling s s₀ n D s₁) {fuel i : Nat} {x : Addr}
    (hx : Makes s fuel n x) (hslot : s₁.cellOf (.slot a i) = some x) {D' : Data F Addr}
    {add : Store F → Place → Option (Store F)}
    (hadd : ∀ s₂ q y, Filling s s₀ n D s₂ → s₂.cellOf q = some y → Twin s s₂ (s₀.cells.length + 1) n x y →
      ∃ s₃, add s₂ q = some s₃ ∧ Filling s s₀ n D' s₃ ∧ ∀ x, s₃.cellOf (.var x) = s₂.cellOf (.var x)) :
    ∃ s₂, copyElem depth (copy fuel) add a s₁ i = some s₂ ∧ Filling s s₀ n D' s₂ := by
  obtain ⟨s₂, y, hcopy, hfill₂, hmade, htwin⟩ := h.makes hbase hx hslot
  obtain ⟨s₃, hadd, hfill₃, hvars⟩ := hadd s₂ (.var s₁.vars.length) y hfill₂ hmade.res htwin
  obtain ⟨s₄, hdestroy, hfill₄, -⟩ := hfill₃.destroy depth h.made.lt (by rw [hvars, hmade.res])
  refine ⟨s₄, ?_, hfill₄⟩
  simp [Store.copyElem, hcopy, hadd, hdestroy]

/-- A turn of the loop over entries. -/
theorem Filling.copyEntry (hbase : Over s s₀) (h : Filling s s₀ n D s₁) {fuel i : Nat} {k v : Addr}
    (hk : Makes s fuel n k) (hv : Makes s fuel n v) (hkslot : s₁.cellOf (.slot a (2 * i)) = some k)
    (hvslot : ∀ s₂, Over s₁ s₂ → s₂.cellOf (.slot a (2 * i + 1)) = some v) {D' : Data F Addr}
    {add : Store F → Place → Place → Option (Store F)}
    (hadd : ∀ s₃ p x k' v', Filling s s₀ n D s₃ → s₃.cellOf p = some k' → s₃.cellOf (.var x) = some v' →
      Twin s s₃ (s₀.cells.length + 1) n k k' → Twin s s₃ (s₀.cells.length + 1) n v v' →
      ∃ s₄, add s₃ p (.var x) = some s₄ ∧ Filling s s₀ n D' s₄ ∧ ∀ x, s₄.cellOf (.var x) = s₃.cellOf (.var x)) :
    ∃ s₂, copyEntry depth (copy fuel) add a s₁ i = some s₂ ∧ Filling s s₀ n D' s₂ := by
  obtain ⟨s₂, k', hcopy, hfill₂, hmade, hktwin⟩ := h.makes hbase hk hkslot
  obtain ⟨s₃, v', hcopy', hfill₃, hmade', hvtwin⟩ := hfill₂.makes hbase hv (hvslot s₂ hmade.base)
  have hkey : s₃.cellOf (.var s₁.vars.length) = some k' := by rw [hmade'.vars _ hmade.lt, hmade.res]
  have hktwin' := hktwin.keep (fun b e he _ => hmade'.base b e he) (Nat.le_refl _)
  obtain ⟨s₄, hadd, hfill₄, hvars⟩ :=
    hadd s₃ (.var s₁.vars.length) s₂.vars.length k' v' hfill₃ hkey hmade'.res hktwin' hvtwin
  obtain ⟨s₅, hdestroy, hfill₅, hvars'⟩ :=
    hfill₄.destroy depth hfill₂.made.lt (by rw [hvars, hmade'.res])
  have hkey' : s₅.cellOf (.var s₁.vars.length) = some k' := by
    rw [hvars' _ (Nat.ne_of_lt hmade.lt), hvars, hkey]
  obtain ⟨s₆, hdestroy', hfill₆, -⟩ := hfill₅.destroy depth h.made.lt hkey'
  refine ⟨s₆, ?_, hfill₆⟩
  simp [Store.copyEntry, hcopy, hcopy', hadd, hdestroy, hdestroy']

omit [LT F] [DecidableLT F] in
/-- The container with everything in it. -/
theorem Filling.twin (h : Filling s s₀ n D s₁) (hd : s.look a = some D) (hcont : D.isContainer = true) :
    Twin s s₁ s₀.cells.length (n + 1) a s₀.cells.length := by
  obtain ⟨e, he, hrel⟩ := h.target
  refine ⟨D, e, hd, he, hrel.imp (fun x y hxy => ?_), ?_⟩
  · exact hxy.keep (fun b e he _ => he) (Nat.le_succ _)
  · rw [if_pos hcont]

/-- The loop over elements, of a container `mk` of them. -/
theorem Filling.elems (hbase : Over s s₀) {mk : List Addr → Data F Addr} {xs : List Addr}
    (hd : s.look a = some (mk xs)) (hmk : (mk xs).handles = xs) (h : Filling s s₀ n (mk []) s₁) {fuel : Nat}
    (hx : ∀ x ∈ xs, Makes s fuel n x) {add : Store F → Place → Option (Store F)}
    (hadd : ∀ i (hi : i < xs.length) s₂ q y, Filling s s₀ n (mk (xs.take i)) s₂ → s₂.cellOf q = some y →
      Twin s s₂ (s₀.cells.length + 1) n xs[i] y → ∃ s₃, add s₂ q = some s₃ ∧
        Filling s s₀ n (mk (xs.take i ++ [xs[i]])) s₃ ∧ ∀ x, s₃.cellOf (.var x) = s₂.cellOf (.var x)) :
    ∃ s₂, (List.range xs.length).foldlM (Store.copyElem depth (copy fuel) add a) s₁ = some s₂ ∧
      Filling s s₀ n (mk xs) s₂ := by
  have hloop := Loop.foldlM_range (P := fun i s₂ => Filling s s₀ n (mk (xs.take i)) s₂)
    (f := Store.copyElem depth (copy fuel) add a) (n := xs.length) ?_ h
  · rw [List.take_length] at hloop
    exact hloop
  · intro i hi s₂ h₂
    rw [← List.take_concat_get' _ _ hi]
    have hslot : s₂.cellOf (.slot a i) = some xs[i] := by
      refine cellOf_slot.mpr ⟨mk xs, h₂.made.base a _ (hbase a _ hd), ?_⟩
      rw [hmk]
      exact List.getElem?_eq_getElem hi
    exact h₂.copyElem hbase (hx _ (List.getElem_mem hi)) hslot (hadd i hi)

/-- The loop over entries. -/
theorem Filling.entries (hbase : Over s s₀) {es : List (Addr × Addr)} (hd : s.look a = some (.dict es))
    (h : Filling s s₀ n (.dict []) s₁) {fuel : Nat} (hx : ∀ e ∈ es, Makes s fuel n e.1 ∧ Makes s fuel n e.2)
    (hbelow : (es.map Prod.fst).Pairwise (fun x y => ∃ r, s.compare depth x y = some r ∧ r < 0)) :
    ∃ s₂, (List.range es.length).foldlM (Store.copyEntry depth (copy fuel)
        (fun s k v => s.assignAt depth (.var s₀.vars.length) k v) a) s₁ = some s₂ ∧
      Filling s s₀ n (.dict es) s₂ := by
  have hloop := Loop.foldlM_range (P := fun i s₂ => Filling s s₀ n (.dict (es.take i)) s₂)
    (f := Store.copyEntry depth (copy fuel) (fun s k v => s.assignAt depth (.var s₀.vars.length) k v) a)
    (n := es.length) ?_ h
  · rw [List.take_length] at hloop
    exact hloop
  · intro i hi s₂ h₂
    rw [← List.take_concat_get' _ _ hi]
    have hlook : s₂.look a = some (.dict es) := h₂.made.base a _ (hbase a _ hd)
    have hdiv : (2 * i + 1) / 2 = i := by omega
    have hget : es[i]? = some es[i] := List.getElem?_eq_getElem hi
    obtain ⟨hk, hv⟩ := hx _ (List.getElem_mem hi)
    refine h₂.copyEntry hbase hk hv ?_ ?_ ?_
    · refine cellOf_slot.mpr ⟨_, hlook, ?_⟩
      simp [Data.handles_dict_getElem?, hget]
    · intro s₃ hover
      refine cellOf_slot.mpr ⟨_, hover a _ hlook, ?_⟩
      simp [Data.handles_dict_getElem?, hdiv, hget, Nat.add_mod]
    · intro s₃ p x k' v' h₃ hp hq hktwin hvtwin
      refine h₃.assignAt hbase hp hq hktwin hvtwin ?_
      have hi' : i < (es.map Prod.fst).length := by rwa [List.length_map]
      have htake := pairwise_take hbelow hi'
      rw [List.getElem_map] at htake
      rwa [List.map_take]

/-- A scalar is shared. -/
theorem makes_scalar {d : Data F Addr} (hd : s.look a = some d) (hscalar : d.isContainer = false) (fuel n : Nat) :
    Makes s (fuel + 1) (n + 1) a := by
  intro s₀ p hbase hc hp
  have hlook := hbase a d hd
  have hexec : s₀.exec fuel (.copyConstruct p) = some (s₀.push a) := by simp [exec, hp]
  have hcopy : copy (fuel + 1) s₀ p = some (s₀.push a) := by
    rw [copy, hp]
    simp only [Option.bind_eq_bind, Option.bind_some, hlook]
    cases d <;> first | exact hexec | cases hscalar
  refine ⟨s₀.push a, a, hcopy, ⟨(exec_effect hexec).closed hc, fun b d hd => hd, fun x hx => ?_, ?_⟩, ?_⟩
  · rw [cellOf_push, if_neg (Nat.ne_of_lt hx)]
  · rw [cellOf_push, if_pos rfl]
  · refine ⟨d, d, hd, hlook, Data.Rel.of_handles (fun x hx => ?_), by rw [hscalar]; rfl⟩
    rw [Data.handles_of_scalar hscalar] at hx
    cases hx

/-- **One level of a copy.** If what is stored in `a` is copied so with less fuel, and that fuel is enough to
    compare what `a` keeps in order, then `a` is copied so. -/
theorem makes_step {d : Data F Addr} (hd : s.look a = some d) {fuel : Nat} (hx : ∀ x ∈ d.handles, Makes s fuel n x)
    (hbelow : d.ordered.Pairwise (fun x y => ∃ r, s.compare fuel x y = some r ∧ r < 0)) :
    Makes s (fuel + 1) (n + 1) a := by
  cases hcont : d.isContainer with
  | false => exact makes_scalar hd hcont fuel n
  | true =>
      -- a container: every element has its copy, by `hx`, which is inserted where the element is
      intro s₀ p hbase hc hp
      have hlook := hbase a d hd
      have hfilled : ∃ s', copy (fuel + 1) s₀ p = some s' ∧ Filling s s₀ n d s' := by
        rw [copy, hp]
        simp only [Option.bind_eq_bind, Option.bind_some, hlook]
        cases d with
        | array xs =>
            obtain ⟨s₁, hconstruct, hfill⟩ := Filling.construct (s := s) (n := n) fuel hc (.array []) (.array .nil)
            simp only [hconstruct, Option.bind_some]
            exact hfill.elems hbase hd rfl hx (fun i hi s₂ q y h₂ hq hxy => h₂.pushBack hbase (.inl rfl) hq hxy)
        | list xs =>
            obtain ⟨s₁, hconstruct, hfill⟩ := Filling.construct (s := s) (n := n) fuel hc (.list []) (.list .nil)
            simp only [hconstruct, Option.bind_some]
            exact hfill.elems hbase hd rfl hx (fun i hi s₂ q y h₂ hq hxy => h₂.pushBack hbase (.inr rfl) hq hxy)
        | set xs =>
            obtain ⟨s₁, hconstruct, hfill⟩ := Filling.construct (s := s) (n := n) fuel hc (.set []) (.set .nil)
            simp only [hconstruct, Option.bind_some]
            exact hfill.elems hbase hd rfl hx
              (fun i hi s₂ q y h₂ hq hxy => h₂.insertElem hbase hq hxy (pairwise_take hbelow hi))
        | dict es =>
            obtain ⟨s₁, hconstruct, hfill⟩ := Filling.construct (s := s) (n := n) fuel hc (.dict []) (.dict .nil)
            simp only [hconstruct, Option.bind_some]
            refine hfill.entries hbase hd (fun e he => ⟨hx _ ?_, hx _ ?_⟩) hbelow
            all_goals exact List.mem_flatMap.mpr ⟨e, he, by simp⟩
        | _ => cases hcont
      obtain ⟨s', hcopy, hfill⟩ := hfilled
      exact ⟨s', _, hcopy, hfill.made, hfill.twin hd hcont⟩

/-- **The copy of an acyclic value returns**, with its twin, whenever there is enough fuel. -/
theorem makes_of_acc (hc : Closed s) (hacc : Acc (fun x y => Child s y x) a) (ha : a < s.cells.length)
    (hordered : ∀ b d, Reach s a b → s.look b = some d → d.ordered.Pairwise (Below s.compare)) :
    ∃ n, ∀ fuel, n ≤ fuel → Makes s fuel n a := by
  induction hacc with
  | intro a _ ih =>
      obtain ⟨d, hd⟩ := look_lt ha
      have hmono : ∀ n m x, n ≤ m → (∀ fuel, n ≤ fuel → Makes s fuel n x) → ∀ fuel, m ≤ fuel → Makes s fuel m x := by
        intro n m x hnm h fuel hfuel s₀ p hbase hc₀ hp
        obtain ⟨s', c, hcopy, hmade, htwin⟩ := h fuel (Nat.le_trans hnm hfuel) s₀ p hbase hc₀ hp
        exact ⟨s', c, hcopy, hmade, htwin.mono hnm⟩
      -- one bound for all handles of the cell
      obtain ⟨n, hn⟩ := exists_common hmono d.handles (fun x hx =>
        ih x ⟨d, hd, hx⟩ (hc.handles a x d hd hx) (fun b e hb he => hordered b e (hb.head hd hx) he))
      obtain ⟨m, hm⟩ := pairwise_common (fun _ _ => compareAt_mono s.look) (hordered a d .refl hd)
      refine ⟨max n m + 1, fun fuel hfuel => ?_⟩
      obtain ⟨fuel, rfl⟩ : ∃ k, fuel = k + 1 := ⟨fuel - 1, by omega⟩
      refine makes_step hd (fun x hx => ?_) (hm fuel (by omega))
      exact hmono n (max n m) x (Nat.le_max_left n m) (hn x hx) fuel (by omega)

/-! ## More fuel -/

/-- An operation that follows more handles does the same. -/
theorem exec_mono {k m : Nat} (hkm : k ≤ m) {op : Op F} (h : s.exec k op = some s') : s.exec m op = some s' := by
  have hcmp : (s.compare k).Le (s.compare m) := compareAt_mono s.look hkm
  cases op with
  | insert c i qs =>
      refine Loop.bind_mono (fun _ h => h) (fun a r h => ?_) h
      refine Loop.bind_mono (fun _ h => h) (fun bs r h => ?_) h
      refine Loop.bind_mono (fun _ h => h) (fun d r h => ?_) h
      exact Loop.bind_mono (fun d' => Data.insert_mono hcmp) (fun _ _ h => h) h
  | index c i k =>
      refine Loop.bind_mono (fun _ h => h) (fun a r h => ?_) h
      refine Loop.bind_mono (fun _ h => h) (fun b r h => ?_) h
      refine Loop.bind_mono (fun _ h => h) (fun d r h => ?_) h
      exact Loop.bind_mono (fun d' => Data.insert_mono hcmp) (fun _ _ h => h) h
  | _ => exact h

theorem pushBack_mono {k m : Nat} (hkm : k ≤ m) {p q : Place} (h : s.pushBack k p q = some s') :
    s.pushBack m p q = some s' := by
  refine Loop.bind_mono (fun _ h => h) (fun t r h => ?_) h
  exact Loop.bind_mono (fun _ h => h) (fun d r => exec_mono hkm) h

theorem insertElem_mono {k m : Nat} (hkm : k ≤ m) {p q : Place} (h : s.insertElem k p q = some s') :
    s.insertElem m p q = some s' := by
  have hcmp : (s.compare k).Le (s.compare m) := compareAt_mono s.look hkm
  refine Loop.bind_mono (fun _ h => h) (fun t r h => ?_) h
  refine Loop.bind_mono (fun _ h => h) (fun key r h => ?_) h
  refine Loop.bind_mono (fun _ h => h) (fun d r h => ?_) h
  refine Loop.bind_mono (fun res => search_mono hcmp) (fun res r h => ?_) h
  obtain ⟨i, found⟩ := res
  cases found with
  | true => exact h
  | false =>
      have hinsert : s.exec k (.insert p i [q]) = some r := h
      exact exec_mono hkm hinsert

theorem assignAt_mono {k m : Nat} (hkm : k ≤ m) {p q v : Place} (h : s.assignAt k p q v = some s') :
    s.assignAt m p q v = some s' := by
  have hcmp : (s.compare k).Le (s.compare m) := compareAt_mono s.look hkm
  refine Loop.bind_mono (fun _ h => h) (fun t r h => ?_) h
  refine Loop.bind_mono (fun _ h => h) (fun key r h => ?_) h
  refine Loop.bind_mono (fun _ h => h) (fun d r h => ?_) h
  refine Loop.bind_mono (fun res => search_mono hcmp) (fun res r h => ?_) h
  obtain ⟨i, found⟩ := res
  cases found with
  | true =>
      have hassign : s.exec k (.assign (.slot t (2 * i + 1)) v) = some r := h
      exact exec_mono hkm hassign
  | false => exact Loop.bind_mono (fun s₁ => exec_mono hkm) (fun s₁ r => exec_mono hkm) h

theorem copyElem_mono {k m i : Nat} (hkm : k ≤ m) {copyAt copyAt' : Store F → Place → Option (Store F)}
    {add add' : Store F → Place → Option (Store F)}
    (hcopy : ∀ s p s', copyAt s p = some s' → copyAt' s p = some s')
    (hadd : ∀ s q s', add s q = some s' → add' s q = some s') (h : copyElem k copyAt add a s i = some s') :
    copyElem m copyAt' add' a s i = some s' := by
  refine Loop.bind_mono (hcopy _ _) (fun s₁ r h => ?_) h
  exact Loop.bind_mono (hadd _ _) (fun s₂ r => exec_mono hkm) h

theorem copyEntry_mono {k m i : Nat} (hkm : k ≤ m) {copyAt copyAt' : Store F → Place → Option (Store F)}
    {add add' : Store F → Place → Place → Option (Store F)}
    (hcopy : ∀ s p s', copyAt s p = some s' → copyAt' s p = some s')
    (hadd : ∀ s q v s', add s q v = some s' → add' s q v = some s') (h : copyEntry k copyAt add a s i = some s') :
    copyEntry m copyAt' add' a s i = some s' := by
  refine Loop.bind_mono (hcopy _ _) (fun s₁ r h => ?_) h
  refine Loop.bind_mono (hcopy _ _) (fun s₂ r h => ?_) h
  refine Loop.bind_mono (hadd _ _ _) (fun s₃ r h => ?_) h
  exact Loop.bind_mono (fun s₄ => exec_mono hkm) (fun s₄ r => exec_mono hkm) h

theorem copy_mono {k m : Nat} (hkm : k ≤ m) {p : Place} (h : copy k s p = some s') : copy m s p = some s' := by
  induction k generalizing m s p s' with
  | zero => cases h
  | succ k ih =>
      obtain ⟨m, rfl⟩ : ∃ m', m = m' + 1 := ⟨m - 1, by omega⟩
      have hkm' : k ≤ m := by omega
      have hcopy : ∀ s p s', copy k s p = some s' → copy m s p = some s' := fun s p s' h => ih hkm' h
      rw [copy] at h ⊢
      refine Loop.bind_mono (fun _ h => h) (fun a r h => ?_) h
      refine Loop.bind_mono (fun _ h => h) (fun d r h => ?_) h
      cases d with
      | array xs | list xs =>
          refine Loop.bind_mono (fun _ h => h) (fun s₁ r => Loop.foldlM_mono ?_) h
          exact fun s i s' => copyElem_mono hkm' hcopy (fun _ _ _ => pushBack_mono hkm')
      | set xs =>
          refine Loop.bind_mono (fun _ h => h) (fun s₁ r => Loop.foldlM_mono ?_) h
          exact fun s i s' => copyElem_mono hkm' hcopy (fun _ _ _ => insertElem_mono hkm')
      | dict es =>
          refine Loop.bind_mono (fun _ h => h) (fun s₁ r => Loop.foldlM_mono ?_) h
          exact fun s i s' => copyEntry_mono hkm' hcopy (fun _ _ _ _ => assignAt_mono hkm')
      | _ => exact exec_mono hkm' h

/-- `copy` has one outcome. -/
theorem Copies.unique {p : Place} (h : Copies s p s₁) (h' : Copies s p s₂) : s₁ = s₂ := by
  obtain ⟨k, hk⟩ := h
  obtain ⟨m, hm⟩ := h'
  have hk' := copy_mono (Nat.le_max_left k m) hk
  have hm' := copy_mono (Nat.le_max_right k m) hm
  exact Option.some.inj (hk'.symm.trans hm')

/-! ## Programs after the copy -/

/-- What the operation modifies in place is part of what `a` was in `s₀`, or was made since. -/
def Within (s₀ : Store F) (a : Addr) (s : Store F) (op : Op F) : Prop :=
  ∀ m, s.modifies op = some m → Reach s₀ a m ∨ s₀.cells.length ≤ m

omit [LT F] [DecidableLT F] in
/-- Every cell that can be reached from `a` has in `s'` the contents it has in `s`. -/
def SameValue (s s' : Store F) (a : Addr) : Prop := ∀ b d, Reach s a b → s.look b = some d → s'.look b = some d

/-- **A program that works on one of two values without a common container leaves the other.** -/
theorem sameValue_of_within (hdisjoint : ∀ b d, s₁.look b = some d → d.isContainer = true → Reach s₁ a b → ¬ Reach s₁ c b)
    (h : Steps (Within s₁ a) s₁ s₂) : SameValue s₁ s₂ c := by
  induction h with
  | refl => exact fun b d _ hd => hd
  | step _ hwithin hexec ih =>
      intro b d hb hd
      refine exec_frame hexec (ih b d hb hd) (fun hmodifies => ?_)
      by_contra hscalar
      rw [Bool.not_eq_false] at hscalar
      rcases hwithin b hmodifies with ha | hlen
      · exact hdisjoint b d hd hscalar ha hb
      · exact absurd (lt_of_look hd) (Nat.not_lt_of_le hlen)

omit [LT F] [DecidableLT F] in
/-- What is made later cannot be reached from earlier cells. -/
theorem Over.reach_lt (hover : Over s s') (hc : Closed s) (ha : a < s.cells.length) (h : Reach s' a b) :
    b < s.cells.length := by
  induction h with
  | refl => exact ha
  | step _ hd hb ih =>
      obtain ⟨e, he⟩ := look_lt ih
      obtain rfl := Option.some.inj ((hover _ e he).symm.trans hd)
      exact hc.handles _ _ e he hb

/-- **`copy` is a deep copy.** On a value without a cycle, with its sets and dicts in order, it returns. The
    result compares equal to the value and has no container in common with it, and whatever is done from
    then on within one of the two leaves the other as it is. -/
theorem copy_deep [Std.Irrefl (fun f g : F => f < g)] {s : Store F} (hc : Closed s) {p : Place} {a : Addr}
    (hp : s.cellOf p = some a) (hacyclic : Acyclic s a)
    (hordered : ∀ b d, Reach s a b → s.look b = some d → d.ordered.Pairwise (Below s.compare)) :
    ∃ s' c, Copies s p s' ∧ (∀ s₂, Copies s p s₂ → s₂ = s') ∧ s'.cellOf (.var s.vars.length) = some c ∧
      Over s s' ∧ (∃ n, s'.compare n c a = some 0) ∧
      (∀ b d, s'.look b = some d → d.isContainer = true → Reach s' c b → ¬ Reach s' a b) ∧
      ∀ x y, (x = a ∧ y = c) ∨ (x = c ∧ y = a) → ∀ s'', Steps (Within s' x) s' s'' → SameValue s' s'' y := by
  have ha : a < s.cells.length := hc.cellOf hp
  obtain ⟨n, hn⟩ := makes_of_acc hc (hc.acc hacyclic) ha hordered
  obtain ⟨s', c, hcopy, hmade, htwin⟩ := hn n (Nat.le_refl n) s p (fun _ _ h => h) hc hp
  have hcopies : Copies s p s' := ⟨n, hcopy⟩
  have hdisjoint : ∀ b d, s'.look b = some d → d.isContainer = true → Reach s' c b → ¬ Reach s' a b := by
    intro b d hd hcont hcb hab
    exact absurd (hmade.base.reach_lt hc ha hab) (Nat.not_lt_of_le (htwin.new hcb hd hcont))
  refine ⟨s', c, hcopies, fun s₂ h => h.unique hcopies, hmade.res, hmade.base, ⟨n, (htwin.tie hmade.base).1⟩,
    hdisjoint, ?_⟩
  rintro x y (⟨rfl, rfl⟩ | ⟨rfl, rfl⟩) s'' hsteps
  · exact sameValue_of_within (fun b d hd hcont hab hcb => hdisjoint b d hd hcont hcb hab) hsteps
  · exact sameValue_of_within hdisjoint hsteps

/-- A dict with an array in it, which holds a set of two integers and the empty array. -/
def nested : Store Int :=
  ⟨[.dict [(1, 2)], .string [107], .array [3, 4], .set [5, 6], .array [], .integer 1, .integer 2], [some 0]⟩

theorem copy_deep_nested : ∃ s' c, Copies nested (.var 0) s' ∧ (∀ s₂, Copies nested (.var 0) s₂ → s₂ = s') ∧
    s'.cellOf (.var nested.vars.length) = some c ∧ Over nested s' ∧ (∃ n, s'.compare n c 0 = some 0) ∧
    (∀ b d, s'.look b = some d → d.isContainer = true → Reach s' c b → ¬ Reach s' 0 b) ∧
    ∀ x y, (x = 0 ∧ y = c) ∨ (x = c ∧ y = 0) → ∀ s'', Steps (Within s' x) s' s'' → SameValue s' s'' y := by
  have hclosed : Closed nested := Closed.of_forall (by decide) (by decide)
  have hacyclic : Acyclic nested 0 := acyclic_of_ascending (by decide) 0
  have hordered : ∀ d ∈ nested.cells, d.ordered.Pairwise (Below nested.compare) := by
    have hbelow : Below nested.compare 5 6 := ⟨1, -1, rfl, by decide⟩
    simpa [nested, Data.ordered] using hbelow
  exact copy_deep hclosed rfl hacyclic (fun b d _ hd => hordered d (List.mem_of_getElem? hd))

end Store
end Cclvar
end Cclib
