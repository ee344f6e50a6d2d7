import Mathlib.Data.List.Basic
import Mathlib.Data.List.Count
import Mathlib.Data.BitVec

/-!
# `Lib.RefCount` — reference-counted cells

A heap of cells, each with a counter of `w` bits and a body that stores handles to cells (`kids`). The
only operations are the ones reference counting has: `ref`, `unref` (which deletes a cell whose counter
reaches `0` and then releases every handle of its body), allocation, and replacing a body. Deleted
addresses are not used again, so a handle on one is recognised when it is followed.

## Contents
- **Counting.** `Counted kids cs ext`: every live cell's counter is the number of handles on it, those
  stored in live cells and those in `ext`, modulo `2 ^ w`, and the live cells are those with handles.
- **Release.** `unref_spec`: with fewer than `2 ^ w` handles on every cell the cascade ends, keeps the
  counting, and deletes only cells that the released handle alone kept alive (`OnlyKept`).
- **Frame.** `unref_setBody`: the body of a cell that survives a cascade has no influence on it.
-/

namespace Cclib
namespace RefCount

/-- A counter and a body. -/
structure Cell (w : Nat) (β : Type) where
  count : BitVec w
  body : β
deriving DecidableEq

/-- The cells by address; `none` is a deleted one. -/
abbrev Cells (w : Nat) (β : Type) := List (Option (Cell w β))

variable {w : Nat} {β : Type}

/-- The live cell at an address. -/
def get (cs : Cells w β) (a : Nat) : Option (Cell w β) := cs[a]?.join

/-- Replace the body of a live cell. -/
def setBody (cs : Cells w β) (a : Nat) (b : β) : Cells w β :=
  match get cs a with
  | some c => cs.set a (some { c with body := b })
  | none => cs

/-- Take one more handle on a live cell. -/
def ref (cs : Cells w β) (a : Nat) : Option (Cells w β) :=
  (get cs a).map (fun c => cs.set a (some { c with count := c.count + 1 }))

variable (kids : β → List Nat)

/-- Release a handle, following at most `fuel` nested deletions; `none` when a deleted cell is touched
    or the fuel is used up. -/
def unref : Nat → Cells w β → Nat → Option (Cells w β)
  | 0, _, _ => none
  | fuel + 1, cs, a => do
    let c ← get cs a
    if c.count - 1 = 0 then
      -- the cell dies first: its destructor then releases the handles of the body one by one
      (kids c.body).foldlM (unref fuel) (cs.set a none)
    else
      some (cs.set a (some { c with count := c.count - 1 }))

/-- The handles a cell stores; a deleted one stores none. -/
def cellKids (c : Option (Cell w β)) : List Nat := (c.map (fun c => kids c.body)).getD []

/-- The handles stored in live cells. -/
def stored (cs : Cells w β) : List Nat := cs.flatMap (cellKids kids)

/-- The number of handles on `a`, those outside of the heap being `ext`. -/
def handles (cs : Cells w β) (ext : List Nat) (a : Nat) : Nat := ext.count a + (stored kids cs).count a

/-- The number of live cells. -/
def liveCells (cs : Cells w β) : Nat := cs.countP Option.isSome

/-- What the number `n` of handles on a cell says about it: it is live while there are any, and its counter
    is `n` modulo `2 ^ w`. -/
def CountOk : Option (Cell w β) → Nat → Prop
  | some c, n => 0 < n ∧ c.count = BitVec.ofNat w n
  | none, n => n = 0

/-- **The counters are right**, at every address. -/
def Counted (cs : Cells w β) (ext : List Nat) : Prop := ∀ a, CountOk (get cs a) (handles kids cs ext a)

/-- What only a released handle kept alive: no handle outside of the heap is on the cell, and every
    stored one lies in a cell of the same kind. Least: a cycle that keeps itself alive is not meant. -/
inductive OnlyKept (cs : Cells w β) (ext : List Nat) : Nat → Prop where
  | intro (a : Nat) : a ∉ ext →
      (∀ d c, get cs d = some c → a ∈ kids c.body → OnlyKept cs ext d) → OnlyKept cs ext a

/-! ## Access -/

section Access

variable {cs : Cells w β} {a d : Nat} {c c' : Option (Cell w β)}

theorem lt_of_get {c : Cell w β} (h : get cs a = some c) : a < cs.length := by
  by_contra hge
  rw [get, List.getElem?_eq_none (by omega)] at h
  simp at h

theorem getElem?_of_get {c : Cell w β} (h : get cs a = some c) : cs[a]? = some (some c) := by
  unfold get at h
  rcases hc : cs[a]? with _ | o
  · simp [hc] at h
  · simpa [hc] using h

theorem getElem_of_get {c : Cell w β} (h : get cs a = some c) (ha : a < cs.length) :
    cs[a] = some c := by
  have h' := getElem?_of_get h
  rwa [List.getElem?_eq_getElem ha, Option.some.injEq] at h'

theorem get_set_self (h : a < cs.length) : get (cs.set a c) a = c := by
  simp [get, h]

theorem get_set_ne (h : a ≠ d) : get (cs.set a c) d = get cs d := by
  simp [get, h]

theorem get_set (h : a < cs.length) : get (cs.set a c) d = if a = d then c else get cs d := by
  by_cases had : a = d
  · subst had
    rw [if_pos rfl, get_set_self h]
  · rw [if_neg had, get_set_ne had]

theorem get_append_old (h : d < cs.length) : get (cs ++ [c]) d = get cs d := by
  simp [get, List.getElem?_append_left h]

theorem get_append_new : get (cs ++ [c]) cs.length = c := by
  simp [get]

theorem get_append_beyond (h : cs.length < d) : get (cs ++ [c]) d = none := by
  rw [get, List.getElem?_eq_none (by simp; omega)]
  rfl

theorem get_setBody (b : β) : get (setBody cs a b) d
    = if a = d then (get cs d).map (fun c => { c with body := b }) else get cs d := by
  unfold setBody
  cases h : get cs a with
  | none =>
      by_cases had : a = d
      · subst had
        simp [h]
      · simp [had]
  | some c =>
      rw [get_set (lt_of_get h)]
      by_cases had : a = d
      · subst had
        simp [h]
      · simp [had]

@[simp] theorem length_setBody (b : β) : (setBody cs a b).length = cs.length := by
  unfold setBody
  cases get cs a <;> simp

theorem setBody_set {b : β} (h : a ≠ d) : setBody (cs.set a c) d b = (setBody cs d b).set a c := by
  unfold setBody
  rw [get_set_ne h]
  cases get cs d with
  | none => rfl
  | some e => exact List.set_comm _ _ h

theorem setBody_set_self {c : Cell w β} (b : β) (h : a < cs.length) :
    setBody (cs.set a (some c)) a b = cs.set a (some { c with body := b }) := by
  simp [setBody, get_set_self h]

theorem setBody_setBody (b b' : β) : setBody (setBody cs a b) a b' = setBody cs a b' := by
  cases h : get cs a with
  | none => simp [setBody, h]
  | some c =>
      have hb : setBody cs a b = cs.set a (some { c with body := b }) := by simp [setBody, h]
      rw [hb, setBody_set_self b' (lt_of_get h)]
      simp [setBody, h]

theorem setBody_self {c : Cell w β} (h : get cs a = some c) : setBody cs a c.body = cs := by
  simp only [setBody, h]
  apply List.ext_getElem?
  intro i
  by_cases hi : a = i
  · subst hi
    rw [List.getElem?_set_self (lt_of_get h), getElem?_of_get h]
  · rw [List.getElem?_set_ne hi]

end Access

/-! ## Counting -/

section Counting

variable {kids} {cs : Cells w β} {ext ext' : List Nat} {a t : Nat} {c : Option (Cell w β)}

theorem stored_append (c : Option (Cell w β)) :
    stored kids (cs ++ [c]) = stored kids cs ++ cellKids kids c := by
  simp [stored]

/-- Replacing a cell exchanges its handles. -/
theorem count_stored_set : ∀ {cs : Cells w β} {a : Nat} (h : a < cs.length),
    (stored kids (cs.set a c)).count t + (cellKids kids cs[a]).count t
      = (stored kids cs).count t + (cellKids kids c).count t
  | c' :: cs, 0, _ => by simp [stored]; omega
  | c' :: cs, a + 1, h => by
      have ha : a < cs.length := Nat.lt_of_succ_lt_succ h
      have ih : (stored kids (cs.set a c)).count t + (cellKids kids cs[a]).count t
          = (stored kids cs).count t + (cellKids kids c).count t := count_stored_set ha
      simp only [stored, List.set_cons_succ, List.flatMap_cons, List.count_append,
        List.getElem_cons_succ] at ih ⊢
      omega

theorem count_stored_set_get {c' : Cell w β} (h : get cs a = some c') :
    (stored kids (cs.set a c)).count t + (kids c'.body).count t
      = (stored kids cs).count t + (cellKids kids c).count t := by
  have ha := lt_of_get h
  have hs : (stored kids (cs.set a c)).count t + (cellKids kids cs[a]).count t
      = (stored kids cs).count t + (cellKids kids c).count t := count_stored_set ha
  rwa [getElem_of_get h ha] at hs

theorem mem_stored : t ∈ stored kids cs ↔ ∃ d c, get cs d = some c ∧ t ∈ kids c.body := by
  unfold stored
  rw [List.mem_flatMap]
  constructor
  · rintro ⟨o, ho, ht⟩
    cases o with
    | none => simp [cellKids] at ht
    | some c =>
        obtain ⟨d, hd⟩ := List.mem_iff_getElem?.mp ho
        exact ⟨d, c, by simp [get, hd], by simpa [cellKids] using ht⟩
  · rintro ⟨d, c, hd, ht⟩
    exact ⟨some c, List.mem_iff_getElem?.mpr ⟨d, getElem?_of_get hd⟩, by simpa [cellKids] using ht⟩

theorem handles_eq_zero_iff :
    handles kids cs ext t = 0 ↔ t ∉ ext ∧ ∀ d c, get cs d = some c → t ∉ kids c.body := by
  unfold handles
  rw [Nat.add_eq_zero_iff, List.count_eq_zero, List.count_eq_zero, mem_stored]
  simp

theorem handles_cons (x : Nat) :
    handles kids cs (x :: ext) t = handles kids cs ext t + if x = t then 1 else 0 := by
  unfold handles
  rw [List.count_cons]
  simp only [beq_iff_eq]
  omega

theorem handles_append (xs : List Nat) :
    handles kids cs (xs ++ ext) t = xs.count t + handles kids cs ext t := by
  unfold handles
  rw [List.count_append]
  omega

theorem handles_perm (h : ext.Perm ext') : handles kids cs ext t = handles kids cs ext' t := by
  unfold handles
  rw [h.count_eq]

/-- A counter does not store handles. -/
theorem handles_set_count {c' : Cell w β} (n : BitVec w) (h : get cs a = some c') :
    handles kids (cs.set a (some { c' with count := n })) ext t = handles kids cs ext t := by
  have hs : (stored kids (cs.set a (some { c' with count := n }))).count t + (kids c'.body).count t
      = (stored kids cs).count t + (cellKids kids (some { c' with count := n })).count t := count_stored_set_get h
  simp only [cellKids, Option.map_some, Option.getD_some] at hs
  unfold handles
  omega

/-- Deleting a cell moves its handles out of the heap. -/
theorem handles_delete {c' : Cell w β} (h : get cs a = some c') :
    handles kids (cs.set a none) (kids c'.body ++ ext) t = handles kids cs ext t := by
  have hs : (stored kids (cs.set a none)).count t + (kids c'.body).count t
      = (stored kids cs).count t + (cellKids kids none).count t := count_stored_set_get h
  simp only [cellKids, Option.map_none, Option.getD_none, List.count_nil] at hs
  rw [handles_append]
  unfold handles
  omega

theorem Counted.perm (h : Counted kids cs ext) (hp : ext.Perm ext') : Counted kids cs ext' := by
  intro a
  rw [← handles_perm hp]
  exact h a

theorem CountOk.some {c : Cell w β} {n : Nat} (h : CountOk (some c) n) : c.count = BitVec.ofNat w n := h.2

/-- There are handles on a cell exactly while it is live. -/
theorem Counted.none_iff (h : Counted kids cs ext) : get cs a = none ↔ handles kids cs ext a = 0 := by
  have ha := h a
  cases hc : get cs a with
  | none =>
      rw [hc] at ha
      exact ⟨fun _ => ha, fun _ => rfl⟩
  | some c =>
      rw [hc] at ha
      have := ha.1
      exact ⟨fun h' => by simp at h', fun h' => by omega⟩

/-- Whatever a handle points to is live. -/
theorem Counted.isLive (h : Counted kids cs ext) (ha : a ∈ ext ∨ ∃ d c, get cs d = some c ∧ a ∈ kids c.body) :
    ∃ c, get cs a = some c := by
  cases hc : get cs a with
  | some c => exact ⟨c, rfl⟩
  | none =>
      obtain ⟨hext, hst⟩ := handles_eq_zero_iff.mp (h.none_iff.mp hc)
      rcases ha with ha | ⟨d, c, hd, ha⟩
      · exact absurd ha hext
      · exact absurd ha (hst d c hd)

end Counting

/-! ## The operations -/

section Operations

variable {kids} {cs : Cells w β} {ext : List Nat} {a : Nat}

/-- The empty heap. -/
theorem counted_nil : Counted kids ([] : Cells w β) [] := fun _ => rfl

theorem Counted.beyond (h : Counted kids cs ext) {t : Nat} (ht : cs.length ≤ t) : handles kids cs ext t = 0 := by
  apply h.none_iff.mp
  rw [get, List.getElem?_eq_none ht]
  rfl

theorem handles_alloc {b : β} (hb : kids b = []) (t : Nat) :
    handles kids (cs ++ [some ⟨1, b⟩]) (cs.length :: ext) t
      = handles kids cs ext t + if cs.length = t then 1 else 0 := by
  rw [handles_cons]
  unfold handles
  rw [stored_append]
  simp [cellKids, hb]

/-- A new cell starts with the handle of its creator. -/
theorem Counted.alloc (h : Counted kids cs ext) {b : β} (hb : kids b = []) :
    Counted kids (cs ++ [some ⟨1, b⟩]) (cs.length :: ext) := by
  intro t
  rw [handles_alloc hb]
  rcases Nat.lt_trichotomy t cs.length with ht | rfl | ht
  · rw [get_append_old ht, if_neg (by omega)]
    exact h t
  · rw [get_append_new, if_pos rfl, h.beyond (Nat.le_refl _)]
    exact ⟨Nat.one_pos, rfl⟩
  · rw [get_append_beyond ht, if_neg (by omega), h.beyond (by omega)]
    rfl

/-- `ref` adds a handle on a live cell. -/
theorem Counted.ref (h : Counted kids cs ext) {cs' : Cells w β} (hr : ref cs a = some cs') :
    Counted kids cs' (a :: ext) := by
  unfold RefCount.ref at hr
  obtain ⟨c, hc, rfl⟩ := Option.map_eq_some_iff.mp hr
  intro t
  rw [handles_set_count _ hc, handles_cons, get_set (lt_of_get hc)]
  have ht := h t
  by_cases hat : a = t
  · subst hat
    rw [hc] at ht
    rw [if_pos rfl, if_pos rfl]
    refine ⟨by omega, ?_⟩
    rw [BitVec.ofNat_add, ht.some]
    rfl
  · rw [if_neg hat, if_neg hat]
    exact ht

/-- Handles that move between a body and the outside are as many as before. -/
theorem handles_setBody {c : Cell w β} (hc : get cs a = some c) {b : β} {ext' : List Nat}
    (hp : (ext' ++ kids b).Perm (ext ++ kids c.body)) (t : Nat) :
    handles kids (setBody cs a b) ext' t = handles kids cs ext t := by
  have hset : setBody cs a b = cs.set a (some { c with body := b }) := by simp [setBody, hc]
  have hs : (stored kids (cs.set a (some { c with body := b }))).count t + (kids c.body).count t
      = (stored kids cs).count t + (cellKids kids (some { c with body := b })).count t := count_stored_set_get hc
  have hcount := hp.count_eq t
  simp only [cellKids, Option.map_some, Option.getD_some] at hs
  simp only [List.count_append] at hcount
  rw [hset]
  unfold handles
  omega

theorem Counted.setBody (h : Counted kids cs ext) {c : Cell w β} (hc : get cs a = some c) {b : β}
    {ext' : List Nat} (hp : (ext' ++ kids b).Perm (ext ++ kids c.body)) :
    Counted kids (setBody cs a b) ext' := by
  intro t
  have ht := h t
  rw [handles_setBody hc hp, get_setBody]
  by_cases hat : a = t
  · subst hat
    rw [hc] at ht
    rw [if_pos rfl, hc]
    exact ht
  · rw [if_neg hat]
    exact ht

/-- One handle of several goes. -/
theorem Counted.decrement (h : Counted kids cs (a :: ext)) {c : Cell w β} (hc : get cs a = some c)
    (h0 : handles kids cs ext a ≠ 0) :
    Counted kids (cs.set a (some { c with count := c.count - 1 })) ext := by
  intro t
  have ht := h t
  rw [handles_cons] at ht
  rw [handles_set_count _ hc, get_set (lt_of_get hc)]
  by_cases hat : a = t
  · subst hat
    rw [hc, if_pos rfl] at ht
    rw [if_pos rfl]
    refine ⟨by omega, ?_⟩
    show c.count - 1 = _
    rw [ht.some, BitVec.ofNat_add]
    exact BitVec.add_sub_cancel _ _
  · rw [if_neg hat] at ht
    rw [if_neg hat]
    exact ht

/-- The last handle goes: the cell is deleted and leaves its handles behind. -/
theorem Counted.delete (h : Counted kids cs (a :: ext)) {c : Cell w β} (hc : get cs a = some c)
    (h0 : handles kids cs ext a = 0) : Counted kids (cs.set a none) (kids c.body ++ ext) := by
  intro t
  have ht := h t
  rw [handles_cons] at ht
  rw [handles_delete hc, get_set (lt_of_get hc)]
  by_cases hat : a = t
  · subst hat
    rw [if_pos rfl]
    exact h0
  · rw [if_neg hat] at ht
    rw [if_neg hat]
    exact ht

/-- The counter tells the last handle, as long as it has not wrapped around. -/
theorem Counted.last_iff (h : Counted kids cs (a :: ext)) {c : Cell w β} (hc : get cs a = some c)
    (hb : handles kids cs (a :: ext) a < 2 ^ w) : c.count - 1 = 0 ↔ handles kids cs ext a = 0 := by
  have ha := h a
  rw [hc] at ha
  have hn : handles kids cs (a :: ext) a = handles kids cs ext a + 1 := by simp [handles_cons]
  have hcount : c.count - 1 = BitVec.ofNat w (handles kids cs ext a) := by
    rw [ha.some, hn, BitVec.ofNat_add]
    exact BitVec.add_sub_cancel _ _
  rw [hcount]
  constructor
  · intro h'
    have hnat := congrArg BitVec.toNat h'
    rw [BitVec.toNat_ofNat, Nat.mod_eq_of_lt (by omega)] at hnat
    simpa using hnat
  · intro h'
    rw [h']
    rfl

end Operations

/-! ## The cascade -/

section Cascade

variable {kids} {cs cs' cs₀ : Cells w β} {ext ext₀ : List Nat} {a d fuel : Nat}

/-- What is left of a heap after some cells were deleted by releasing handles. -/
structure Remains (kids : β → List Nat) (cs₀ : Cells w β) (ext₀ : List Nat) (cs : Cells w β) : Prop where
  length : cs.length = cs₀.length
  body : ∀ d c, get cs d = some c → ∃ c₀, get cs₀ d = some c₀ ∧ c₀.body = c.body
  only : ∀ d c₀, get cs₀ d = some c₀ → get cs d = none → OnlyKept kids cs₀ ext₀ d

theorem Remains.refl : Remains kids cs₀ ext₀ cs₀ where
  length := rfl
  body := fun _ c h => ⟨c, h, rfl⟩
  only := fun _ _ h h' => by rw [h] at h'; simp at h'

/-- A cell with another handle than the released ones is still there. -/
theorem Remains.survives (h : Remains kids cs₀ ext₀ cs) {c₀ : Cell w β} (hc : get cs₀ d = some c₀)
    (hk : ¬ OnlyKept kids cs₀ ext₀ d) : ∃ c, get cs d = some c ∧ c.body = c₀.body := by
  cases hd : get cs d with
  | none => exact absurd (h.only d c₀ hc hd) hk
  | some c =>
      obtain ⟨c₁, hc₁, hb⟩ := h.body d c hd
      obtain rfl := Option.some.inj (hc₁.symm.trans hc)
      exact ⟨c, rfl, hb.symm⟩

theorem Remains.set_count (h : Remains kids cs₀ ext₀ cs) {c : Cell w β} (hc : get cs a = some c)
    (n : BitVec w) : Remains kids cs₀ ext₀ (cs.set a (some { c with count := n })) where
  length := by rw [List.length_set, h.length]
  body := by
    intro d e he
    rw [get_set (lt_of_get hc)] at he
    by_cases had : a = d
    · subst had
      rw [if_pos rfl] at he
      obtain rfl := Option.some.inj he
      exact h.body a c hc
    · rw [if_neg had] at he
      exact h.body d e he
  only := by
    intro d e he hd
    rw [get_set (lt_of_get hc)] at hd
    by_cases had : a = d
    · rw [if_pos had] at hd
      simp at hd
    · rw [if_neg had] at hd
      exact h.only d e he hd

/-- A cell without handles was kept alive by the released ones alone. -/
theorem Remains.delete (h : Remains kids cs₀ ext₀ cs) (hsub : ext₀ ⊆ ext) {c : Cell w β}
    (hc : get cs a = some c) (h0 : handles kids cs ext a = 0) :
    Remains kids cs₀ ext₀ (cs.set a none) where
  length := by rw [List.length_set, h.length]
  body := by
    intro d e he
    rw [get_set (lt_of_get hc)] at he
    by_cases had : a = d
    · rw [if_pos had] at he
      simp at he
    · rw [if_neg had] at he
      exact h.body d e he
  only := by
    intro d e he hd
    rw [get_set (lt_of_get hc)] at hd
    by_cases had : a = d
    · subst had
      obtain ⟨hext, hst⟩ := handles_eq_zero_iff.mp h0
      refine .intro a (fun hm => hext (hsub hm)) (fun d' e' he' hm => ?_)
      -- a handle on `a` that is stored nowhere now was stored in a cell that is deleted by now
      cases hd' : get cs d' with
      | none => exact h.only d' e' he' hd'
      | some e'' =>
          obtain ⟨e₀, he₀, hb⟩ := h.body d' e'' hd'
          obtain rfl := Option.some.inj (he₀.symm.trans he')
          exact absurd (hb ▸ hm) (hst d' e'' hd')
    · rw [if_neg had] at hd
      exact h.only d e he hd

theorem liveCells_set {c : Cell w β} (h : get cs a = some c) (o : Option (Cell w β)) :
    liveCells (cs.set a o) + 1 = liveCells cs + if o.isSome then 1 else 0 := by
  unfold liveCells
  have ha := lt_of_get h
  have hget := getElem_of_get h ha
  have hpos : 0 < cs.countP Option.isSome :=
    List.countP_pos_iff.mpr ⟨cs[a], List.getElem_mem ha, by rw [hget]; rfl⟩
  rw [List.countP_set ha, hget]
  cases o <;> simp <;> omega

theorem liveCells_delete {c : Cell w β} (h : get cs a = some c) :
    liveCells (cs.set a none) + 1 = liveCells cs := by
  simpa using liveCells_set h none

theorem liveCells_set_count {c : Cell w β} (h : get cs a = some c) (n : BitVec w) :
    liveCells (cs.set a (some { c with count := n })) = liveCells cs := by
  simpa using liveCells_set h (some { c with count := n })

theorem liveCells_le : liveCells cs ≤ cs.length := List.countP_le_length

/-- What releasing handles does, the handles `ext` outside of the heap remaining: the counters stay
    right, cells only disappear, and the reason is `OnlyKept`. -/
structure Released (kids : β → List Nat) (cs₀ : Cells w β) (ext₀ : List Nat) (cs : Cells w β)
    (before ext : List Nat) (cs' : Cells w β) : Prop where
  counted : Counted kids cs' ext
  remains : Remains kids cs₀ ext₀ cs'
  cells : liveCells cs' ≤ liveCells cs
  handles : ∀ t, handles kids cs' ext t ≤ handles kids cs before t

/-- Several handles are released one after the other. -/
theorem foldlM_unref (fuel : Nat) (hstep : ∀ (cs : Cells w β) (a : Nat) (ext : List Nat),
      Counted kids cs (a :: ext) → ext₀ ⊆ ext → Remains kids cs₀ ext₀ cs →
      (∀ t, handles kids cs (a :: ext) t < 2 ^ w) → liveCells cs ≤ fuel →
      ∃ cs', unref kids fuel cs a = some cs' ∧ Released kids cs₀ ext₀ cs (a :: ext) ext cs') :
    ∀ (ks : List Nat) (cs : Cells w β), Counted kids cs (ks ++ ext) → ext₀ ⊆ ext →
      Remains kids cs₀ ext₀ cs → (∀ t, handles kids cs (ks ++ ext) t < 2 ^ w) → liveCells cs ≤ fuel →
      ∃ cs', ks.foldlM (unref kids fuel) cs = some cs' ∧ Released kids cs₀ ext₀ cs (ks ++ ext) ext cs'
  | [], cs, hC, _, hR, _, _ => ⟨cs, rfl, hC, hR, Nat.le_refl _, fun _ => Nat.le_refl _⟩
  | k :: ks, cs, hC, hsub, hR, hb, hf => by
      obtain ⟨cs₁, h₁, hrel⟩ := hstep cs k (ks ++ ext) hC
        (fun x hx => List.mem_append_right ks (hsub hx)) hR hb hf
      obtain ⟨cs', h', hrel'⟩ := foldlM_unref fuel hstep ks cs₁ hrel.counted hsub hrel.remains
        (fun t => Nat.lt_of_le_of_lt (hrel.handles t) (hb t)) (Nat.le_trans hrel.cells hf)
      refine ⟨cs', ?_, hrel'.counted, hrel'.remains, Nat.le_trans hrel'.cells hrel.cells,
        fun t => Nat.le_trans (hrel'.handles t) (hrel.handles t)⟩
      rw [List.foldlM_cons, h₁]
      exact h'

/-- **Releasing a handle.** With right counters, fewer than `2 ^ w` handles on every cell and fuel for the
    live cells, `unref` ends without touching a deleted cell, the counters stay right, and what it
    deletes was kept alive by the released handle alone. -/
theorem unref_spec : ∀ (fuel : Nat) (cs : Cells w β) (a : Nat) (ext : List Nat),
    Counted kids cs (a :: ext) → ext₀ ⊆ ext → Remains kids cs₀ ext₀ cs →
    (∀ t, handles kids cs (a :: ext) t < 2 ^ w) → liveCells cs ≤ fuel →
    ∃ cs', unref kids fuel cs a = some cs' ∧ Released kids cs₀ ext₀ cs (a :: ext) ext cs' := by
  intro fuel
  induction fuel with
  | zero =>
      intro cs a ext hC _ _ _ hf
      obtain ⟨c, hc⟩ := hC.isLive (a := a) (.inl (by simp))
      have := liveCells_delete hc
      omega
  | succ fuel ih =>
      intro cs a ext hC hsub hR hb hf
      obtain ⟨c, hc⟩ := hC.isLive (a := a) (.inl (by simp))
      have hlast := hC.last_iff hc (hb a)
      have hle : ∀ t, handles kids cs ext t ≤ handles kids cs (a :: ext) t := by
        intro t
        rw [handles_cons]
        omega
      unfold unref
      rw [hc]
      simp only [Option.bind_eq_bind, Option.bind_some]
      by_cases h0 : handles kids cs ext a = 0
      · -- the last handle on `a`: its own handles are released next
        rw [if_pos (hlast.mpr h0)]
        have hlive := liveCells_delete hc
        obtain ⟨cs', h', hrel⟩ := foldlM_unref fuel ih (kids c.body) (cs.set a none) (hC.delete hc h0) hsub
          (hR.delete hsub hc h0) (fun t => by rw [handles_delete hc]; exact Nat.lt_of_le_of_lt (hle t) (hb t))
          (by omega)
        refine ⟨cs', h', hrel.counted, hrel.remains, by have := hrel.cells; omega, fun t => ?_⟩
        have := hrel.handles t
        rw [handles_delete hc] at this
        exact Nat.le_trans this (hle t)
      · -- further handles keep `a`
        rw [if_neg (fun h => h0 (hlast.mp h))]
        refine ⟨_, rfl, hC.decrement hc h0, hR.set_count hc _, Nat.le_of_eq (liveCells_set_count hc _), fun t => ?_⟩
        rw [handles_set_count _ hc]
        exact hle t

/-- `unref` for a heap as it stands, with fuel for all of its cells. -/
theorem Counted.unref (h : Counted kids cs (a :: ext)) (hb : ∀ t, RefCount.handles kids cs (a :: ext) t < 2 ^ w) :
    ∃ cs', unref kids cs.length cs a = some cs' ∧ Released kids cs ext cs (a :: ext) ext cs' :=
  unref_spec cs.length cs a ext h (fun _ hx => hx) .refl hb liveCells_le

end Cascade

/-! ## A body that survives -/

section Frame

variable {kids} {a d fuel : Nat} {b : β}

/-- One iteration of `unref` on a live cell. -/
theorem unref_succ {cs : Cells w β} {c : Cell w β} (hc : get cs a = some c) :
    unref kids (fuel + 1) cs a = if c.count - 1 = 0 then (kids c.body).foldlM (unref kids fuel) (cs.set a none)
      else some (cs.set a (some { c with count := c.count - 1 })) := by
  unfold unref
  rw [hc]
  rfl

/-- A property that every single release has, a sequence of them has. -/
theorem foldlM_invariant {P : Cells w β → Prop} {f : Cells w β → Nat → Option (Cells w β)}
    (hf : ∀ cs k cs', f cs k = some cs' → P cs → P cs') :
    ∀ (ks : List Nat) (cs cs' : Cells w β), ks.foldlM f cs = some cs' → P cs → P cs'
  | [], cs, cs', h, hP => Option.some.inj h ▸ hP
  | k :: ks, cs, cs', h, hP => by
      rw [List.foldlM_cons] at h
      obtain ⟨cs₁, h₁, h⟩ := Option.bind_eq_some_iff.mp h
      exact foldlM_invariant hf ks cs₁ cs' h (hf cs k cs₁ h₁ hP)

/-- Fewer cells, the bodies of those that are left being what they were. -/
structure Within (cs' cs : Cells w β) : Prop where
  length : cs'.length = cs.length
  body : ∀ d c', get cs' d = some c' → ∃ c, get cs d = some c ∧ c.body = c'.body

theorem Within.refl (cs : Cells w β) : Within cs cs := ⟨rfl, fun _ c h => ⟨c, h, rfl⟩⟩

theorem Within.trans {cs₁ cs₂ cs₃ : Cells w β} (h : Within cs₁ cs₂) (h' : Within cs₂ cs₃) : Within cs₁ cs₃ := by
  refine ⟨h.length.trans h'.length, fun d c₁ hc₁ => ?_⟩
  obtain ⟨c₂, hc₂, hb⟩ := h.body d c₁ hc₁
  obtain ⟨c₃, hc₃, hb'⟩ := h'.body d c₂ hc₂
  exact ⟨c₃, hc₃, hb'.trans hb⟩

theorem within_set_count {cs : Cells w β} {c : Cell w β} (hc : get cs a = some c) (n : BitVec w) :
    Within (cs.set a (some { c with count := n })) cs := by
  refine ⟨List.length_set, fun d c' hc' => ?_⟩
  rw [get_set (lt_of_get hc)] at hc'
  split at hc'
  · rename_i had
    subst had
    obtain rfl := Option.some.inj hc'
    exact ⟨c, hc, rfl⟩
  · exact ⟨c', hc', rfl⟩

theorem within_delete {cs : Cells w β} {c : Cell w β} (hc : get cs a = some c) : Within (cs.set a none) cs := by
  refine ⟨List.length_set, fun d c' hc' => ?_⟩
  rw [get_set (lt_of_get hc)] at hc'
  split at hc'
  · simp at hc'
  · exact ⟨c', hc', rfl⟩

theorem ref_within {cs cs' : Cells w β} (h : ref cs a = some cs') : Within cs' cs := by
  obtain ⟨c, hc, rfl⟩ := Option.map_eq_some_iff.mp h
  exact within_set_count hc _

/-- A release changes no body. -/
theorem unref_within : ∀ (fuel : Nat) (cs : Cells w β) (a : Nat) (cs' : Cells w β),
    unref kids fuel cs a = some cs' → Within cs' cs := by
  intro fuel
  induction fuel with
  | zero =>
      intro cs a cs' h
      simp [unref] at h
  | succ fuel ih =>
      intro cs a cs' h
      cases hc : get cs a with
      | none => simp [unref, hc] at h
      | some c =>
          rw [unref_succ hc] at h
          split at h
          · exact foldlM_invariant (P := fun cs₁ => Within cs₁ cs)
              (fun cs₁ k cs₂ hk hw => (ih cs₁ k cs₂ hk).trans hw) _ _ _ h (within_delete hc)
          · obtain rfl := Option.some.inj h
            exact within_set_count hc _

/-- The dead stay dead. -/
theorem unref_dead (fuel : Nat) (cs : Cells w β) (a : Nat) (cs' : Cells w β)
    (h : unref kids fuel cs a = some cs') (hd : get cs d = none) : get cs' d = none := by
  cases hd' : get cs' d with
  | none => rfl
  | some c' =>
      obtain ⟨c, hc, -⟩ := (unref_within fuel cs a cs' h).body d c' hd'
      rw [hd] at hc
      simp at hc

theorem foldlM_unref_setBody (hstep : ∀ (cs : Cells w β) (a : Nat) (cs' : Cells w β) (e : Cell w β),
      unref kids fuel cs a = some cs' → get cs' d = some e →
      unref kids fuel (setBody cs d b) a = some (setBody cs' d b)) :
    ∀ (ks : List Nat) (cs cs' : Cells w β) (e : Cell w β), ks.foldlM (unref kids fuel) cs = some cs' →
      get cs' d = some e → ks.foldlM (unref kids fuel) (setBody cs d b) = some (setBody cs' d b)
  | [], cs, cs', e, h, _ => by
      obtain rfl := Option.some.inj h
      rfl
  | k :: ks, cs, cs', e, h, hd => by
      rw [List.foldlM_cons] at h ⊢
      obtain ⟨cs₁, h₁, h⟩ := Option.bind_eq_some_iff.mp h
      cases hd₁ : get cs₁ d with
      | none =>
          have := foldlM_invariant (unref_dead fuel) ks cs₁ cs' h hd₁
          rw [hd] at this
          simp at this
      | some e₁ =>
          rw [hstep cs k cs₁ e₁ h₁ hd₁]
          exact foldlM_unref_setBody hstep ks cs₁ cs' e h hd

/-- **A cell that survives a release has no part in it**: with another body the release does the same. -/
theorem unref_setBody : ∀ (fuel : Nat) (cs : Cells w β) (a : Nat) (cs' : Cells w β) (e : Cell w β),
    unref kids fuel cs a = some cs' → get cs' d = some e →
    unref kids fuel (setBody cs d b) a = some (setBody cs' d b) := by
  intro fuel
  induction fuel with
  | zero =>
      intro cs a cs' e h
      simp [unref] at h
  | succ fuel ih =>
      intro cs a cs' e h hd
      cases hc : get cs a with
      | none => simp [unref, hc] at h
      | some c =>
          rw [unref_succ hc] at h
          by_cases had : a = d
          · subst had
            have hc' : get (setBody cs a b) a = some { c with body := b } := by
              rw [get_setBody, if_pos rfl, hc]
              rfl
            rw [unref_succ hc']
            split at h
            · -- `a` would be deleted, but it survives
              have := foldlM_invariant (unref_dead fuel) _ _ _ h (get_set_self (lt_of_get hc))
              rw [hd] at this
              simp at this
            · rename_i h0
              obtain rfl := Option.some.inj h
              rw [if_neg h0, setBody_set_self b (lt_of_get hc)]
              simp [setBody, hc]
          -- a cell other than `d` is found as it was
          · have hc' : get (setBody cs d b) a = some c := by
              rw [get_setBody, if_neg (Ne.symm had), hc]
            rw [unref_succ hc']
            split at h
            · rename_i h0
              rw [if_pos h0, ← setBody_set had]
              exact foldlM_unref_setBody ih _ _ _ e h hd
            · rename_i h0
              obtain rfl := Option.some.inj h
              rw [if_neg h0, ← setBody_set had]

end Frame
end RefCount
end Cclib
