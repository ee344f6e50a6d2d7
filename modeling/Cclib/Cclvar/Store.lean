import Cclib.Cclvar.Heap

/-!
# `Cclvar.Store` — the contents of the cells

What the operations of `Cclvar.Heap` mean to a program: cells with their contents and the objects that
lead to them, without counters and without deletion. A cell that no object leads to any more is garbage
and stays where it is. Which cells a program modifies, what containers contain and what `copy` builds is
said here.

## Contents
- `exec`: one operation; `Steps`: a run of operations.
- `exec_frame`: an operation changes only the container it works on, and scalars not at all.
- `Heap.exec_simulates`: reference counting implements this (`Simulates`: on live cells the contents are
  the same).
-/

namespace Cclib
namespace Cclvar

open Compare RefCount

variable {F : Type}

/-- The contents of the cells by address, and the objects outside of containers. -/
structure Store (F : Type) where
  cells : List (Data F Addr)
  vars : List (Option Addr)
deriving DecidableEq

namespace Store

def look (s : Store F) (a : Addr) : Option (Data F Addr) := s.cells[a]?

/-- The cell the handle at a place leads to. -/
def cellOf (s : Store F) (p : Place) : Option Addr := handleAt s.look s.vars p

def alloc (s : Store F) (d : Data F Addr) : Store F := { s with cells := s.cells ++ [d] }

def push (s : Store F) (a : Addr) : Store F := { s with vars := s.vars ++ [some a] }

def setData (s : Store F) (a : Addr) (d : Data F Addr) : Store F := { s with cells := s.cells.set a d }

def write (s : Store F) (b : Addr) : Place → Option (Store F)
  | .var x => do
    let _ ← s.cellOf (.var x)
    return { s with vars := s.vars.set x (some b) }
  | .slot a i => do
    let d ← s.look a
    let d' ← d.put i b
    return s.setData a d'

/-- No cells, no objects. -/
def empty : Store F := ⟨[], []⟩

variable [LT F] [DecidableLT F]

/-- `compare`, following at most `depth` handles. -/
def compare (s : Store F) (depth : Nat) : Cmp Addr := compareAt s.look depth

/-- One operation; `none` when it throws, is not possible or does not return. -/
def exec (depth : Nat) (s : Store F) : Op F → Option (Store F)
  | .construct d => some ((s.alloc (d.map Empty.elim)).push s.cells.length)
  | .copyConstruct q => do
    let a ← s.cellOf q
    return s.push a
  | .assign p q => do
    let a ← s.cellOf q
    s.write a p
  | .destroy x => do
    let _ ← s.cellOf (.var x)
    return { s with vars := s.vars.set x none }
  | .insert c i qs => do
    let a ← s.cellOf c
    let bs ← qs.mapM s.cellOf
    let d ← s.look a
    let d' ← d.insert (s.compare depth) i bs
    return s.setData a d'
  | .index c i k => do
    let a ← s.cellOf c
    let b ← s.cellOf k
    let d ← s.look a
    let d' ← d.insert (s.compare depth) i [b, s.cells.length]
    return (s.alloc .blank).setData a d'
  | .erase c i => do
    let a ← s.cellOf c
    let d ← s.look a
    let (_, d') ← d.erase i
    return s.setData a d'

/-- The container an operation modifies in place. -/
def modifies (s : Store F) : Op F → Option Addr
  | .assign p _ => p.holder
  | .insert c _ _ => s.cellOf c
  | .index c _ _ => s.cellOf c
  | .erase c _ => s.cellOf c
  | _ => none

/-- A run of operations that `Allowed` admits. -/
inductive Steps (Allowed : Store F → Op F → Prop) : Store F → Store F → Prop where
  | refl (s : Store F) : Steps Allowed s s
  | step {s s' s'' : Store F} {op : Op F} {depth : Nat} :
      Steps Allowed s s' → Allowed s' op → s'.exec depth op = some s'' → Steps Allowed s s''

/-! ## The effect of an operation -/

/-- A handle that an operation can give away: a copy of one it uses, or one on the cell it makes. -/
def Given (s : Store F) (op : Op F) (s' : Store F) (b : Addr) : Prop :=
  (∃ q ∈ op.sources, s.cellOf q = some b) ∨ (b = s.cells.length ∧ s.cells.length < s'.cells.length)

/-- How an operation changes the container it modifies, `Gives` being the handles it has. -/
inductive Change (cmp : Cmp Addr) (Gives : Addr → Prop) (key : Option Addr) (d d' : Data F Addr) : Prop where
  | put (i : Nat) (b : Addr) : Gives b → d.put i b = some d' → Change cmp Gives key d d'
  | insert (i : Nat) (bs : List Addr) : (∀ b ∈ bs, Gives b) → bs.head? = key →
      d.insert cmp i bs = some d' → Change cmp Gives key d d'
  | erase (i : Nat) (bs : List Addr) : d.erase i = some (bs, d') → Change cmp Gives key d d'

/-- Everything an operation does. -/
structure Effect (cmp : Cmp Addr) (s : Store F) (op : Op F) (s' : Store F) : Prop where
  length : s.cells.length ≤ s'.cells.length
  fresh : ∀ (a : Nat) (d : Data F Addr), s.cells.length ≤ a → s'.look a = some d → d.handles = []
  vars : ∀ x b, s'.cellOf (.var x) = some b → (∃ y, s.cellOf (.var y) = some b) ∨ Given s op s' b
  kept : ∀ (a : Nat) (d : Data F Addr), s.look a = some d → s.modifies op ≠ some a → s'.look a = some d
  changed : ∀ a, s.modifies op = some a → ∃ d d', s.look a = some d ∧ s'.look a = some d'
    ∧ Change cmp (Given s op s') (op.key.bind s.cellOf) d d'

section Lookup

omit [LT F] [DecidableLT F]

variable {s s' : Store F} {a b c : Nat} {d e : Data F Addr} {p q : Place} {x : Nat}

theorem lt_of_look (h : s.look a = some d) : a < s.cells.length := (List.getElem?_eq_some_iff.mp h).1

theorem look_lt (h : a < s.cells.length) : ∃ d, s.look a = some d := ⟨_, List.getElem?_eq_getElem h⟩

theorem cellOf_var : s.cellOf (.var x) = some c ↔ s.vars[x]? = some (some c) := by
  unfold cellOf handleAt
  rw [Option.join_eq_some_iff]

theorem cellOf_slot {i : Nat} : s.cellOf (.slot a i) = some c ↔
    ∃ d, s.look a = some d ∧ d.handles[i]? = some c := by
  unfold cellOf handleAt
  rw [Option.bind_eq_some_iff]

theorem look_alloc_old (h : s.look a = some d) : (s.alloc e).look a = some d := by
  unfold look alloc
  rw [List.getElem?_append_left (lt_of_look h)]
  exact h

theorem look_alloc_new : (s.alloc e).look s.cells.length = some e := by
  simp [look, alloc]

theorem look_setData_self (h : a < s.cells.length) : (s.setData a e).look a = some e := by
  simp [look, setData, h]

theorem look_setData_ne (h : a ≠ b) : (s.setData a e).look b = s.look b := by
  simp [look, setData, h]

@[simp] theorem length_setData : (s.setData a e).cells.length = s.cells.length := List.length_set

@[simp] theorem length_alloc : (s.alloc e).cells.length = s.cells.length + 1 := by simp [alloc]

theorem mapM_cellOf_head : ∀ {qs : List Place} {bs : List Addr}, qs.mapM s.cellOf = some bs →
    bs.head? = qs.head?.bind s.cellOf
  | [], bs, h => by
      obtain rfl := Option.some.inj h
      rfl
  | q :: qs, bs, h => by
      rw [List.mapM_cons] at h
      obtain ⟨b, hb, h⟩ := Option.bind_eq_some_iff.mp h
      obtain ⟨bs', -, h⟩ := Option.bind_eq_some_iff.mp h
      obtain rfl := Option.some.inj h
      exact hb.symm

theorem mem_of_mapM_cellOf : ∀ {qs : List Place} {bs : List Addr}, qs.mapM s.cellOf = some bs →
    b ∈ bs → ∃ q ∈ qs, s.cellOf q = some b
  | [], bs, h, hb => by
      obtain rfl := Option.some.inj h
      simp at hb
  | q :: qs, bs, h, hb => by
      rw [List.mapM_cons] at h
      obtain ⟨b', hb', h⟩ := Option.bind_eq_some_iff.mp h
      obtain ⟨bs', hbs', h⟩ := Option.bind_eq_some_iff.mp h
      obtain rfl := Option.some.inj h
      rcases List.mem_cons.mp hb with rfl | hb
      · exact ⟨q, by simp, hb'⟩
      · obtain ⟨q', hq', h'⟩ := mem_of_mapM_cellOf hbs' hb
        exact ⟨q', List.mem_cons_of_mem q hq', h'⟩

theorem cellOf_push_var (h : (s.push a).cellOf (.var x) = some b) : s.cellOf (.var x) = some b ∨ b = a := by
  rw [cellOf_var] at h ⊢
  unfold push at h
  rcases Nat.lt_trichotomy x s.vars.length with hx | rfl | hx
  · rw [List.getElem?_append_left hx] at h
    exact .inl h
  · simp only [List.getElem?_concat_length, Option.some.injEq] at h
    exact .inr h.symm
  · rw [List.getElem?_eq_none (by simp; omega)] at h
    simp at h

theorem getElem?_set_some {vars : List (Option Addr)} {y : Nat} {o : Option Addr}
    (h : (vars.set y o)[x]? = some (some b)) : vars[x]? = some (some b) ∨ o = some b := by
  rw [List.getElem?_set] at h
  split at h
  · split at h
    · exact .inr (Option.some.inj h)
    · simp at h
  · exact .inl h

end Lookup

section Effects

variable {s s' : Store F} {depth : Nat}

omit [LT F] [DecidableLT F] in
/-- An operation that makes or moves objects outside of containers, and perhaps a cell, only. -/
theorem effect_of_vars {op : Op F} {cmp : Cmp Addr} (hm : s.modifies op = none) {new : List (Data F Addr)}
    (hnew : new = [] ∨ ∃ d, new = [d] ∧ d.handles = []) (hcells : s'.cells = s.cells ++ new)
    (hvars : ∀ (x b : Nat), s'.vars[x]? = some (some b) → s.vars[x]? = some (some b) ∨ Given s op s' b) :
    Effect cmp s op s' where
  length := by
    rw [hcells, List.length_append]
    omega
  fresh := by
    intro a d ha hd
    unfold look at hd
    rw [hcells, List.getElem?_append_right ha] at hd
    rcases hnew with rfl | ⟨e, rfl, he⟩
    · simp at hd
    · obtain ⟨hlt, rfl⟩ := List.getElem?_eq_some_iff.mp hd
      simpa using he
  vars := by
    intro x b hb
    rcases hvars x b (cellOf_var.mp hb) with h | h
    · exact .inl ⟨x, cellOf_var.mpr h⟩
    · exact .inr h
  kept := by
    intro a d hd _
    unfold look at hd ⊢
    rw [hcells, List.getElem?_append_left (List.getElem?_eq_some_iff.mp hd).1]
    exact hd
  changed := by
    intro a ha
    rw [hm] at ha
    simp at ha

omit [LT F] [DecidableLT F] in
/-- An operation that modifies one container, having made at most one cell. -/
theorem effect_of_setData {op : Op F} {cmp : Cmp Addr} {a : Nat} {d d' : Data F Addr} {s₁ : Store F}
    (hm : s.modifies op = some a) (hd : s.look a = some d) (hs₁ : s₁ = s ∨ s₁ = s.alloc .blank)
    (hs' : s' = s₁.setData a d') (hc : Change cmp (Given s op s') (op.key.bind s.cellOf) d d') :
    Effect cmp s op s' := by
  have hvars : s'.vars = s.vars := by
    rcases hs₁ with rfl | rfl <;> rw [hs'] <;> rfl
  have hlen : s.cells.length ≤ s₁.cells.length := by
    rcases hs₁ with rfl | rfl <;> simp
  have hold : ∀ (b : Nat) (e : Data F Addr), s.look b = some e → s₁.look b = some e := by
    intro b e he
    rcases hs₁ with rfl | rfl
    · exact he
    · exact look_alloc_old he
  -- the modified cell apart, a cell is as it was before the blank one was allocated
  have hne : ∀ b : Nat, a ≠ b → s'.look b = s₁.look b := fun b hb => by rw [hs', look_setData_ne hb]
  refine ⟨by rw [hs']; simpa using hlen, fun b e hb he => ?_, fun x b hb => ?_, fun b e he hb => ?_,
    fun b hb => ?_⟩
  · rw [hne b (by have := lt_of_look hd; omega)] at he
    rcases hs₁ with rfl | rfl
    · have := lt_of_look he
      omega
    · have hlt := lt_of_look he
      rw [length_alloc] at hlt
      obtain rfl : b = s.cells.length := by omega
      rw [look_alloc_new] at he
      obtain rfl := Option.some.inj he
      rfl
  · rw [cellOf_var, hvars] at hb
    exact .inl ⟨x, cellOf_var.mpr hb⟩
  · rw [hm] at hb
    rw [hne b (fun h => hb (by rw [h]))]
    exact hold b e he
  · rw [hm] at hb
    obtain rfl := Option.some.inj hb
    refine ⟨d, d', hd, ?_, hc⟩
    rw [hs', look_setData_self (Nat.lt_of_lt_of_le (lt_of_look hd) hlen)]

/-- **The effect of an operation**, the only place where the operations are looked at one by one. -/
theorem exec_effect {op : Op F} (h : s.exec depth op = some s') : Effect (s.compare depth) s op s' := by
  cases op with
  | construct d =>
      obtain rfl := Option.some.inj h
      refine effect_of_vars rfl (.inr ⟨_, rfl, Data.handles_map_elim d⟩) rfl (fun x b hb => ?_)
      rcases cellOf_push_var (cellOf_var.mpr hb) with h | rfl
      · exact .inl (cellOf_var.mp h)
      -- the new variable leads to the new cell
      · exact .inr (.inr ⟨rfl, by simp [push, alloc]⟩)
  | copyConstruct q =>
      obtain ⟨a, ha, h⟩ := Option.bind_eq_some_iff.mp h
      obtain rfl := Option.some.inj h
      refine effect_of_vars rfl (.inl rfl) (List.append_nil _).symm (fun x b hb => ?_)
      rcases cellOf_push_var (cellOf_var.mpr hb) with h | rfl
      · exact .inl (cellOf_var.mp h)
      · exact .inr (.inl ⟨q, by simp [Op.sources], ha⟩)
  | assign p q =>
      obtain ⟨b, hb, h⟩ := Option.bind_eq_some_iff.mp h
      cases p with
      | var x =>
          obtain ⟨-, -, h⟩ := Option.bind_eq_some_iff.mp h
          obtain rfl := Option.some.inj h
          refine effect_of_vars rfl (.inl rfl) (List.append_nil _).symm (fun y c hc => ?_)
          rcases getElem?_set_some hc with h | h
          · exact .inl h
          · obtain rfl := Option.some.inj h
            exact .inr (.inl ⟨q, by simp [Op.sources], hb⟩)
      | slot a i =>
          obtain ⟨d, hd, h⟩ := Option.bind_eq_some_iff.mp h
          obtain ⟨d', hput, h⟩ := Option.bind_eq_some_iff.mp h
          obtain rfl := Option.some.inj h
          exact effect_of_setData rfl hd (.inl rfl) rfl (.put i b (.inl ⟨q, by simp [Op.sources], hb⟩) hput)
  | destroy x =>
      obtain ⟨-, -, h⟩ := Option.bind_eq_some_iff.mp h
      obtain rfl := Option.some.inj h
      refine effect_of_vars rfl (.inl rfl) (List.append_nil _).symm (fun y c hc => ?_)
      rcases getElem?_set_some hc with h | h
      · exact .inl h
      · simp at h
  | insert c i qs =>
      obtain ⟨a, ha, h⟩ := Option.bind_eq_some_iff.mp h
      obtain ⟨bs, hbs, h⟩ := Option.bind_eq_some_iff.mp h
      obtain ⟨d, hd, h⟩ := Option.bind_eq_some_iff.mp h
      obtain ⟨d', hins, h⟩ := Option.bind_eq_some_iff.mp h
      obtain rfl := Option.some.inj h
      refine effect_of_setData ha hd (.inl rfl) rfl
        (.insert i bs (fun b hb => .inl ?_) (mapM_cellOf_head hbs) hins)
      exact mem_of_mapM_cellOf hbs hb
  | index c i k =>
      obtain ⟨a, ha, h⟩ := Option.bind_eq_some_iff.mp h
      obtain ⟨b, hb, h⟩ := Option.bind_eq_some_iff.mp h
      obtain ⟨d, hd, h⟩ := Option.bind_eq_some_iff.mp h
      obtain ⟨d', hins, h⟩ := Option.bind_eq_some_iff.mp h
      obtain rfl := Option.some.inj h
      -- a missing key gets a blank of its own, beside the handle of the key
      refine effect_of_setData ha hd (.inr rfl) rfl (.insert i [b, s.cells.length] (fun e he => ?_) hb.symm hins)
      rcases List.mem_pair.mp he with rfl | rfl
      · exact .inl ⟨k, by simp [Op.sources], hb⟩
      · exact .inr ⟨rfl, by simp⟩
  | erase c i =>
      obtain ⟨a, ha, h⟩ := Option.bind_eq_some_iff.mp h
      obtain ⟨d, hd, h⟩ := Option.bind_eq_some_iff.mp h
      obtain ⟨⟨bs, d'⟩, her, h⟩ := Option.bind_eq_some_iff.mp h
      obtain rfl := Option.some.inj h
      exact effect_of_setData ha hd (.inl rfl) rfl (.erase i bs her)

/-- An operation changes only the container it modifies, and no scalar. -/
theorem exec_frame {op : Op F} (h : s.exec depth op = some s') {a : Nat} {d : Data F Addr} (hd : s.look a = some d)
    (hm : s.modifies op = some a → d.isContainer = false) : s'.look a = some d := by
  have heff := exec_effect h
  by_cases ha : s.modifies op = some a
  · obtain ⟨e, e', he, -, hc⟩ := heff.changed a ha
    obtain rfl := Option.some.inj (he.symm.trans hd)
    have hcont : e.isContainer = true := by
      cases hc with
      | put i b _ h => exact Data.put_isContainer h
      | insert i bs _ _ h => exact Data.insert_isContainer h
      | erase i bs h => exact Data.erase_isContainer h
    rw [hm ha] at hcont
    simp at hcont
  · exact heff.kept a d hd ha

end Effects


end Store

/-! ## Reference counting implements it -/

namespace Heap

/-- The heap has the objects of the store, and its live cells have the contents of the store's. -/
structure Simulates (h : Heap F) (s : Store F) : Prop where
  vars : h.vars = s.vars
  length : h.cells.length = s.cells.length
  look : ∀ a d, h.look a = some d → s.look a = some d

variable {h h' : Heap F} {s : Store F} {a b : Addr} {p q : Place}

theorem bind_eq_ok {α β : Type} {x : Except Fault α} {f : α → Except Fault β} {r : β} :
    (x >>= f) = .ok r ↔ ∃ y, x = .ok y ∧ f y = .ok r := by
  cases x <;> simp

theorem cellOf_of_read (hr : h.read p = .ok a) : h.cellOf p = some a := by
  unfold read at hr
  split at hr
  · rename_i b hb
    rw [hb, Except.ok.inj hr]
  · split at hr <;> simp at hr

theorem look_of_loc {d : Data F Addr} (hl : h.loc a = .ok d) : h.look a = some d := by
  unfold loc at hl
  split at hl
  · rename_i e he
    rw [he, Except.ok.inj hl]
  · simp at hl

/-- Fewer cells with the same contents, and the same objects. -/
theorem Simulates.within (hsim : Simulates h s) {cells : Cells 32 (Data F Addr)} (hw : Within cells h.cells) :
    Simulates ⟨cells, h.vars⟩ s := by
  refine ⟨hsim.vars, hw.length.trans hsim.length, fun a d hd => ?_⟩
  obtain ⟨l', hl', rfl⟩ := look_eq_some.mp hd
  obtain ⟨l, hl, hb⟩ := hw.body a l' hl'
  exact hsim.look a l'.body (look_eq_some.mpr ⟨l, hl, hb⟩)

theorem Simulates.ref (hsim : Simulates h s) (hr : h.ref a = .ok h') : Simulates h' s ∧ h'.vars = h.vars := by
  unfold Heap.ref at hr
  split at hr
  · rename_i cells hc
    obtain rfl := Except.ok.inj hr
    exact ⟨hsim.within (ref_within hc), rfl⟩
  · simp at hr

theorem Simulates.unref (hsim : Simulates h s) (hr : h.unref a = .ok h') : Simulates h' s := by
  unfold Heap.unref at hr
  split at hr
  · rename_i cells hc
    obtain rfl := Except.ok.inj hr
    exact hsim.within (unref_within _ _ _ _ hc)
  · simp at hr

theorem Simulates.foldlM {f : Heap F → Addr → Except Fault (Heap F)}
    (hf : ∀ h a h', Simulates h s → f h a = .ok h' → Simulates h' s) :
    ∀ {bs : List Addr} {h h' : Heap F}, Simulates h s → bs.foldlM f h = .ok h' → Simulates h' s
  | [], _, _, hsim, he => Except.ok.inj he ▸ hsim
  | b :: bs, h, h', hsim, he => by
      rw [List.foldlM_cons] at he
      obtain ⟨h₁, h₁', he⟩ := bind_eq_ok.mp he
      exact Simulates.foldlM hf (hf h b h₁ hsim h₁') he

theorem Simulates.cellOf (hsim : Simulates h s) (hp : h.cellOf p = some a) : s.cellOf p = some a := by
  cases p with
  | var x =>
      rw [Store.cellOf_var, ← hsim.vars]
      exact cellOf_var.mp hp
  | slot d i =>
      obtain ⟨e, he, hi⟩ := cellOf_slot.mp hp
      exact Store.cellOf_slot.mpr ⟨e, hsim.look d e he, hi⟩

theorem Simulates.push (hsim : Simulates h s) (a : Addr) : Simulates (h.push a) (s.push a) :=
  ⟨congrArg (· ++ [some a]) hsim.vars, hsim.length, hsim.look⟩

theorem Simulates.alloc (hsim : Simulates h s) (d : Data F Addr) : Simulates (h.alloc d) (s.alloc d) := by
  refine ⟨hsim.vars, by simp [Heap.alloc, hsim.length], fun a e he => ?_⟩
  obtain ⟨l, hl, rfl⟩ := look_eq_some.mp he
  rcases Nat.lt_trichotomy a h.cells.length with ha | rfl | ha
  · rw [Heap.alloc, get_append_old ha] at hl
    exact Store.look_alloc_old (hsim.look a l.body (look_eq_some.mpr ⟨l, hl, rfl⟩))
  · rw [Heap.alloc, get_append_new] at hl
    obtain rfl := Option.some.inj hl
    rw [hsim.length]
    exact Store.look_alloc_new
  · rw [Heap.alloc, get_append_beyond ha] at hl
    simp at hl

theorem Simulates.setData (hsim : Simulates h s) (a : Nat) (d : Data F Addr) :
    Simulates (h.setData a d) (s.setData a d) := by
  refine ⟨hsim.vars, by simp [Heap.setData, hsim.length], fun b e he => ?_⟩
  obtain ⟨l, hl, rfl⟩ := look_eq_some.mp he
  rw [Heap.setData, get_setBody] at hl
  by_cases hab : a = b
  · subst hab
    rw [if_pos rfl] at hl
    obtain ⟨l₀, hl₀, rfl⟩ := Option.map_eq_some_iff.mp hl
    exact Store.look_setData_self (by rw [← hsim.length]; exact lt_of_get hl₀)
  · rw [if_neg hab] at hl
    rw [Store.look_setData_ne hab]
    exact hsim.look b l.body (look_eq_some.mpr ⟨l, hl, rfl⟩)

theorem Simulates.setVar (hsim : Simulates h s) (x : Nat) (o : Option Addr) :
    Simulates { h with vars := h.vars.set x o } { s with vars := s.vars.set x o } :=
  ⟨congrArg (·.set x o) hsim.vars, hsim.length, hsim.look⟩

theorem Simulates.compare [LT F] [DecidableLT F] (hsim : Simulates h s) (depth : Nat) :
    (h.compare depth).Le (s.compare depth) := by
  intro x y r hr
  refine compareAt_rel (R := Eq) ?_ depth rfl rfl hr
  rintro x _ d rfl hd
  exact ⟨d, hsim.look x d hd, .refl d⟩

theorem Simulates.mapM (hsim : Simulates h s) : ∀ {qs : List Place} {bs : List Addr},
    qs.mapM h.read = .ok bs → qs.mapM s.cellOf = some bs
  | [], bs, hr => by
      obtain rfl := Except.ok.inj hr
      rfl
  | q :: qs, bs, hr => by
      rw [List.mapM_cons] at hr ⊢
      obtain ⟨b, hb, hr⟩ := bind_eq_ok.mp hr
      obtain ⟨bs', hbs', hr⟩ := bind_eq_ok.mp hr
      obtain rfl := Except.ok.inj hr
      rw [hsim.cellOf (cellOf_of_read hb), Simulates.mapM hsim hbs']
      rfl

theorem Simulates.write (hsim : Simulates h s) (hp : ∃ c, s.cellOf p = some c) (hw : h.write b p = .ok h') :
    ∃ s', s.write b p = some s' ∧ Simulates h' s' := by
  cases p with
  | var x =>
      obtain rfl := Except.ok.inj hw
      obtain ⟨c, hc⟩ := hp
      refine ⟨{ s with vars := s.vars.set x (some b) }, ?_, hsim.setVar x (some b)⟩
      simp only [Store.write, hc]
      rfl
  | slot a i =>
      obtain ⟨d, hd, hw⟩ := bind_eq_ok.mp hw
      split at hw
      · rename_i d' hput
        obtain rfl := Except.ok.inj hw
        refine ⟨s.setData a d', ?_, hsim.setData a d'⟩
        simp only [Store.write, hsim.look a d (look_of_loc hd), Option.bind_eq_bind, Option.bind_some, hput]
        rfl
      · simp at hw

/-- `operator=` sets the target to the cell the source leads to. -/
theorem Simulates.assign (hsim : Simulates h s) (ha : h.assign p q = .ok h') :
    ∃ b s', s.cellOf q = some b ∧ s.write b p = some s' ∧ Simulates h' s' := by
  unfold Heap.assign at ha
  split at ha
  · obtain ⟨a, hq, ha⟩ := bind_eq_ok.mp ha
    obtain ⟨h₁, h₁', ha⟩ := bind_eq_ok.mp ha
    obtain ⟨c, hp, ha⟩ := bind_eq_ok.mp ha
    obtain ⟨h₂, h₂', ha⟩ := bind_eq_ok.mp ha
    obtain ⟨b, hq', ha⟩ := bind_eq_ok.mp ha
    have hsim₁ := (hsim.ref h₁').1
    have hsim₂ := hsim₁.unref h₂'
    obtain ⟨s', hw, hsim'⟩ := hsim₂.write ⟨c, hsim₁.cellOf (cellOf_of_read hp)⟩ ha
    exact ⟨b, s', hsim₂.cellOf (cellOf_of_read hq'), hw, hsim'⟩
  · obtain ⟨_, hr, _⟩ := bind_eq_ok.mp ha
    simp [throw, throwThe, MonadExceptOf.throw] at hr

variable [LT F] [DecidableLT F]

/-- **Reference counting implements the store**: an operation that goes through on the heap goes through on
    the store, with the same contents. -/
theorem exec_simulates {depth : Nat} {op : Op F} (hsim : Simulates h s) (he : h.exec depth op = .ok h') :
    ∃ s', s.exec depth op = some s' ∧ Simulates h' s' := by
  cases op with
  | construct d =>
      obtain rfl := Except.ok.inj he
      refine ⟨_, rfl, ?_⟩
      -- the new cell gets the same address on both sides
      rw [hsim.length]
      exact (hsim.alloc _).push _
  | copyConstruct q =>
      obtain ⟨a, ha, he⟩ := bind_eq_ok.mp he
      obtain ⟨h₁, h₁', he⟩ := bind_eq_ok.mp he
      obtain rfl := Except.ok.inj he
      refine ⟨s.push a, ?_, (hsim.ref h₁').1.push a⟩
      simp only [Store.exec, hsim.cellOf (cellOf_of_read ha)]
      rfl
  | assign p q =>
      obtain ⟨b, s', hb, hw, hsim'⟩ := hsim.assign he
      refine ⟨s', ?_, hsim'⟩
      simp only [Store.exec, hb]
      exact hw
  | destroy x =>
      obtain ⟨a, ha, he⟩ := bind_eq_ok.mp he
      refine ⟨{ s with vars := s.vars.set x none }, ?_, (hsim.setVar x none).unref he⟩
      simp only [Store.exec, hsim.cellOf (cellOf_of_read ha)]
      rfl
  | insert c i qs =>
      obtain ⟨a, ha, he⟩ := bind_eq_ok.mp he
      obtain ⟨bs, hbs, he⟩ := bind_eq_ok.mp he
      obtain ⟨d, hd, he⟩ := bind_eq_ok.mp he
      split at he
      · rename_i d' hins
        obtain ⟨h₁, h₁', he⟩ := bind_eq_ok.mp he
        obtain rfl := Except.ok.inj he
        -- the counts are no part of the store
        have hsim₁ := hsim.foldlM (fun h b h' hs hr => (hs.ref hr).1) h₁'
        refine ⟨s.setData a d', ?_, hsim₁.setData a d'⟩
        simp only [Store.exec, hsim.cellOf (cellOf_of_read ha), hsim.mapM hbs, hsim.look a d (look_of_loc hd),
          Option.bind_eq_bind, Option.bind_some, Data.insert_mono (hsim.compare depth) hins]
        rfl
      · simp [throw, throwThe, MonadExceptOf.throw] at he
  | index c i k =>
      obtain ⟨a, ha, he⟩ := bind_eq_ok.mp he
      obtain ⟨b, hb, he⟩ := bind_eq_ok.mp he
      obtain ⟨d, hd, he⟩ := bind_eq_ok.mp he
      split at he
      · rename_i d' hins
        obtain ⟨h₁, h₁', he⟩ := bind_eq_ok.mp he
        obtain rfl := Except.ok.inj he
        rw [hsim.length] at hins
        refine ⟨(s.alloc .blank).setData a d', ?_, ((hsim.ref h₁').1.alloc .blank).setData a d'⟩
        simp only [Store.exec, hsim.cellOf (cellOf_of_read ha), hsim.cellOf (cellOf_of_read hb),
          hsim.look a d (look_of_loc hd), Option.bind_eq_bind, Option.bind_some,
          Data.insert_mono (hsim.compare depth) hins]
        rfl
      · simp [throw, throwThe, MonadExceptOf.throw] at he
  | erase c i =>
      obtain ⟨a, ha, he⟩ := bind_eq_ok.mp he
      obtain ⟨d, hd, he⟩ := bind_eq_ok.mp he
      split at he
      · rename_i bs d' her
        refine ⟨s.setData a d', ?_, (hsim.setData a d').foldlM (fun h b h' hs hr => hs.unref hr) he⟩
        simp only [Store.exec, hsim.cellOf (cellOf_of_read ha), hsim.look a d (look_of_loc hd),
          Option.bind_eq_bind, Option.bind_some, her]
        rfl
      · simp [throw, throwThe, MonadExceptOf.throw] at he

/-- Every heap reached has the contents of a store that a run of the same operations reaches. -/
theorem Reached.simulates {depth : Nat} (hr : Reached depth h) :
    ∃ s, Store.Steps (fun _ _ => True) Store.empty s ∧ Simulates h s := by
  induction hr with
  | empty => exact ⟨Store.empty, .refl _, rfl, rfl, fun a d hd => by simp [Heap.look, Heap.empty, RefCount.get] at hd⟩
  | step _ _ he ih =>
      obtain ⟨s, hs, hsim⟩ := ih
      obtain ⟨s', hs', hsim'⟩ := exec_simulates hsim he
      exact ⟨s', .step hs trivial hs', hsim'⟩

end Heap
end Cclvar
end Cclib
