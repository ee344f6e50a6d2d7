import Cclib.Cclvar.Handles
import Cclib.Lib.RefCount

/-!
# `Cclvar.Heap` — `loc_c` cells with their reference counts

The heap of `loc_c` cells under the operations of `cclvar.h`: a constructor makes a cell with
`m_ref_cnt` `1`, copying a handle calls `loc_c::ref`, destroying or overwriting one calls `loc_c::unref`,
which deletes the cell at `0` and with it the handles of its container (`RefCount.unref`).

`var_c::operator=` calls `ref` on the cell of `a_var`, `unref` on its own, and then reads
`a_var.m_loc_ptr` once more; `Heap.assign` has the two reads, so that a handle `a_var` that is gone by
then is noticed.

## Contents
- `exec`: one operation, with `Fault.dangling` where a deleted cell is touched.
- `Keeps`: the handles of an operation exist, the counters do not overflow, and an assignment's operands
  are not stored in cells that only its target keeps alive.
- `reference_counts`: in every run of such operations the counters are right and nothing dangles.
-/

namespace Cclib
namespace Cclvar

open Compare RefCount

variable {F : Type}

/-- `loc_c`: `m_ref_cnt`, and `m_type` with `m_data_ptr`. -/
abbrev LocC (F : Type) := Cell 32 (Data F Addr)

/-- `m_ref_cnt`, the 32 bits of a C `int`. -/
abbrev LocC.m_ref_cnt (l : LocC F) : BitVec 32 := l.count

/-- The cells, and the objects outside of containers (`none` once destroyed). -/
structure Heap (F : Type) where
  cells : Cells 32 (Data F Addr)
  vars : List (Option Addr)
deriving DecidableEq

/-- Why an operation ends the program, or does not take place. -/
inductive Fault where
  /-- a deleted cell is touched -/
  | dangling
  /-- the handle does not exist or is `const`, an exception is thrown, or a comparison does not return -/
  | refused
deriving DecidableEq, Repr

namespace Heap

/-- The contents of a live cell. -/
def look (h : Heap F) (a : Addr) : Option (Data F Addr) := (get h.cells a).map Cell.body

/-- `m_loc_ptr` of the handle at a place. -/
def cellOf (h : Heap F) (p : Place) : Option Addr := handleAt h.look h.vars p

/-- Read `m_loc_ptr`. -/
def read (h : Heap F) (p : Place) : Except Fault Addr :=
  match h.cellOf p with
  | some a => .ok a
  | none =>
    match p.holder with
    | none => .error .refused
    | some a => .error (if (h.look a).isNone then .dangling else .refused)

/-- The `loc_c` at an address. -/
def loc (h : Heap F) (a : Addr) : Except Fault (Data F Addr) :=
  match h.look a with
  | some d => .ok d
  | none => .error .dangling

/-- `loc_c::ref`. -/
def ref (h : Heap F) (a : Addr) : Except Fault (Heap F) :=
  match RefCount.ref h.cells a with
  | some cells => .ok { h with cells := cells }
  | none => .error .dangling

/-- `loc_c::unref` and, at `0`, `loc_c::~loc_c`. The fuel is enough for one nested deletion a cell. -/
def unref (h : Heap F) (a : Addr) : Except Fault (Heap F) :=
  match RefCount.unref Data.handles h.cells.length h.cells a with
  | some cells => .ok { h with cells := cells }
  | none => .error .dangling

/-- `new loc_c`. -/
def alloc (h : Heap F) (d : Data F Addr) : Heap F := { h with cells := h.cells ++ [some ⟨1, d⟩] }

/-- The next object outside of containers. -/
def push (h : Heap F) (a : Addr) : Heap F := { h with vars := h.vars ++ [some a] }

/-- Other contents for a live cell. -/
def setData (h : Heap F) (a : Addr) (d : Data F Addr) : Heap F := { h with cells := setBody h.cells a d }

/-- The handle at `p` can be assigned to. -/
def assignable (h : Heap F) : Place → Bool
  | .var x => (h.cellOf (.var x)).isSome
  | .slot a i => (h.look a).any (fun d => (d.put i a).isSome)

/-- Write `m_loc_ptr`. -/
def write (h : Heap F) (b : Addr) : Place → Except Fault (Heap F)
  | .var x => .ok { h with vars := h.vars.set x (some b) }
  | .slot a i => do
    let d ← h.loc a
    match d.put i b with
    | some d' => .ok (h.setData a d')
    | none => .error .refused

/-- `var_c::operator=` with `this` at `p` and `a_var` at `q`. -/
def assign (h : Heap F) (p q : Place) : Except Fault (Heap F) := do
  unless h.assignable p do throw .refused
  let h ← h.ref (← h.read q)
  let h ← h.unref (← h.read p)
  -- `m_loc_ptr = a_var.m_loc_ptr` reads `a_var` again
  h.write (← h.read q) p

/-- `compare` on the heap, following at most `depth` handles. -/
def compare [LT F] [DecidableLT F] (h : Heap F) (depth : Nat) : Cmp Addr := compareAt h.look depth

variable [LT F] [DecidableLT F]

/-- One operation. -/
def exec (depth : Nat) (h : Heap F) : Op F → Except Fault (Heap F)
  | .construct d => .ok ((h.alloc (d.map Empty.elim)).push h.cells.length)
  | .copyConstruct q => do
    let a ← h.read q
    let h ← h.ref a
    return h.push a
  | .assign p q => h.assign p q
  | .destroy x => do
    let a ← h.read (.var x)
    { h with vars := h.vars.set x none }.unref a
  | .insert c i qs => do
    let a ← h.read c
    let bs ← qs.mapM h.read
    let d ← h.loc a
    match d.insert (h.compare depth) i bs with
    | some d' => return (← bs.foldlM ref h).setData a d'
    | none => throw .refused
  | .index c i k => do
    let a ← h.read c
    let b ← h.read k
    let d ← h.loc a
    match d.insert (h.compare depth) i [b, h.cells.length] with
    | some d' => return ((← h.ref b).alloc .blank).setData a d'
    | none => throw .refused
  | .erase c i => do
    let a ← h.read c
    let d ← h.loc a
    match d.erase i with
    | some (bs, d') => bs.foldlM unref (h.setData a d')
    | none => throw .refused

/-! ## Handles and counters -/

/-- The handles outside of containers. -/
def roots (h : Heap F) : List Addr := h.vars.filterMap id

/-- The number of live handles on a cell. -/
def handleCount (h : Heap F) (a : Addr) : Nat := handles Data.handles h.cells h.roots a

/-- No objects and no cells. -/
def empty : Heap F := ⟨[], []⟩

/-- `c` is kept alive only by the handle at `p`, also after the cell `a` has got a new handle: every
    other handle on `c` is stored in a cell of the same kind. -/
inductive OnlyKept (h : Heap F) (p : Place) (a : Addr) : Addr → Prop where
  | intro (c : Addr) : c ≠ a → (∀ x, .var x ≠ p → h.cellOf (.var x) ≠ some c) →
      (∀ d i, .slot d i ≠ p → h.cellOf (.slot d i) = some c → OnlyKept h p a d) → OnlyKept h p a c

/-- **What reference counting asks of an operation.** -/
structure Keeps (h : Heap F) (op : Op F) : Prop where
  /-- the handles it uses exist -/
  places : ∀ p ∈ op.places, (h.cellOf p).isSome
  /-- the handles on each cell, with those it makes, can be counted in an `int` -/
  few : ∀ a, (op.sources.filterMap h.cellOf).count a + h.handleCount a < 2 ^ 31
  /-- neither operand of an assignment lies in a cell that only the target keeps alive -/
  outlives : ∀ p q a, op = .assign p q → h.cellOf q = some a → ∀ r ∈ [p, q], ∀ c, r.holder = some c →
    ¬ OnlyKept h p a c

/-- Reached from the empty heap by operations that `Keeps` allows. -/
inductive Reached (depth : Nat) : Heap F → Prop where
  | empty : Reached depth empty
  | step {h h' : Heap F} {op : Op F} :
      Reached depth h → Keeps h op → h.exec depth op = .ok h' → Reached depth h'

/-! ## Reading -/

@[simp] theorem ok_bind {α β : Type} (x : α) (f : α → Except Fault β) : (Except.ok x >>= f) = f x := rfl

@[simp] theorem error_bind {α β : Type} (e : Fault) (f : α → Except Fault β) :
    (Except.error e >>= f) = Except.error e := rfl

section Read

omit [LT F] [DecidableLT F]

variable {h h' : Heap F} {p q : Place} {a b c : Addr} {ext : List Addr}

theorem read_eq (hp : h.cellOf p = some a) : h.read p = .ok a := by
  unfold read
  rw [hp]

theorem loc_eq {d : Data F Addr} (ha : h.look a = some d) : h.loc a = .ok d := by
  unfold loc
  rw [ha]

theorem look_eq_some {d : Data F Addr} :
    h.look a = some d ↔ ∃ l : LocC F, get h.cells a = some l ∧ l.body = d := Option.map_eq_some_iff

theorem cellOf_slot {i : Nat} : h.cellOf (.slot a i) = some c ↔
    ∃ d, h.look a = some d ∧ d.handles[i]? = some c := by
  unfold cellOf handleAt
  rw [Option.bind_eq_some_iff]

theorem cellOf_var {x : Nat} : h.cellOf (.var x) = some c ↔ h.vars[x]? = some (some c) := by
  unfold cellOf handleAt
  rw [Option.join_eq_some_iff]

theorem mem_roots : c ∈ h.roots ↔ ∃ x, h.cellOf (.var x) = some c := by
  unfold roots
  rw [List.mem_filterMap]
  simp only [cellOf_var, id_eq, exists_eq_right]
  exact List.mem_iff_getElem?

/-- The counters are right and far from their limit, `ext` being the handles that an operation in progress
    holds. -/
structure Sound (h : Heap F) (ext : List Addr) : Prop where
  counted : Counted Data.handles h.cells (ext ++ h.roots)
  few : ∀ t, handles Data.handles h.cells (ext ++ h.roots) t < 2 ^ 31

/-- A handle that exists leads to a live cell. -/
theorem Sound.look (hs : Sound h ext) (hp : h.cellOf p = some a) : ∃ d, h.look a = some d := by
  obtain ⟨l, hl⟩ : ∃ l, get h.cells a = some l := by
    apply hs.counted.isLive
    cases p with
    | var x => exact .inl (List.mem_append_right ext (mem_roots.mpr ⟨x, hp⟩))
    | slot d i =>
        obtain ⟨D, hD, hi⟩ := cellOf_slot.mp hp
        obtain ⟨l, hl, rfl⟩ := look_eq_some.mp hD
        exact .inr ⟨d, l, hl, List.mem_of_getElem? hi⟩
  exact ⟨l.body, look_eq_some.mpr ⟨l, hl, rfl⟩⟩

theorem OnlyKept.congr (he : ∀ r, h'.cellOf r = h.cellOf r) (hk : OnlyKept h p a c) : OnlyKept h' p a c := by
  induction hk with
  | intro c hne hv _ ih =>
      refine .intro c hne (fun x hx => by rw [he]; exact hv x hx) (fun d i hd hc => ?_)
      rw [he] at hc
      exact ih d i hd hc

end Read

/-! ## Counting through the operations -/

section Count

omit [LT F] [DecidableLT F]

variable {h h' : Heap F} {p q : Place} {a b c : Addr} {ext : List Addr}

theorem roots_set {vars : List (Option Addr)} {x : Nat} (hx : x < vars.length) (o : Option Addr) :
    ((vars.set x o).filterMap id).Perm (o.toList ++ (vars.eraseIdx x).filterMap id) := by
  have hp := (List.set_perm_cons_eraseIdx hx o).filterMap id
  cases o <;> simpa using hp

theorem roots_perm {x : Nat} (hx : h.cellOf (.var x) = some b) :
    h.roots.Perm (b :: (h.vars.eraseIdx x).filterMap id) := by
  obtain ⟨hlt, hb⟩ := List.getElem?_eq_some_iff.mp (cellOf_var.mp hx)
  have hp := roots_set hlt (some b)
  rw [← hb, List.set_getElem_self, hb] at hp
  exact hp

/-- Two heaps that differ in counters only. -/
structure Recounted (h h' : Heap F) : Prop where
  vars : h'.vars = h.vars
  look : h'.look = h.look
  length : h'.cells.length = h.cells.length
  counts : ∀ ext t, handles Data.handles h'.cells ext t = handles Data.handles h.cells ext t

theorem Recounted.roots (hr : Recounted h h') : h'.roots = h.roots := by
  unfold Heap.roots
  rw [hr.vars]

theorem Recounted.cellOf (hr : Recounted h h') : h'.cellOf = h.cellOf := by
  unfold Heap.cellOf
  rw [hr.look, hr.vars]

theorem Recounted.few (hr : Recounted h h') (hfew : ∀ t, handles Data.handles h.cells (ext ++ h.roots) t < 2 ^ 31) :
    ∀ t, handles Data.handles h'.cells (ext ++ h'.roots) t < 2 ^ 31 := by
  intro t
  rw [hr.counts, hr.roots]
  exact hfew t

/-- `loc_c::ref` on a live cell. -/
theorem Sound.ref (hs : Sound h ext) {d : Data F Addr} (ha : h.look a = some d)
    (hfew : ∀ t, handles Data.handles h.cells ((a :: ext) ++ h.roots) t < 2 ^ 31) :
    ∃ h', h.ref a = .ok h' ∧ Sound h' (a :: ext) ∧ Recounted h h' := by
  obtain ⟨l, hl, rfl⟩ := look_eq_some.mp ha
  have hr : RefCount.ref h.cells a = some (h.cells.set a (some { l with count := l.count + 1 })) := by
    unfold RefCount.ref
    rw [hl]
    rfl
  let h' : Heap F := ⟨h.cells.set a (some { l with count := l.count + 1 }), h.vars⟩
  have hrec : Recounted h h' := by
    refine ⟨rfl, funext (fun t => ?_), List.length_set, fun ext t => handles_set_count _ hl⟩
    unfold Heap.look
    rw [get_set (lt_of_get hl)]
    by_cases hat : a = t
    · subst hat
      simp [hl]
    · rw [if_neg hat]
  refine ⟨h', ?_, ⟨Counted.ref hs.counted hr, hrec.few hfew⟩, hrec⟩
  unfold Heap.ref
  rw [hr]

end Count

/-! ## Assignment -/

section Assign

omit [LT F] [DecidableLT F]

variable {h h' : Heap F} {p q : Place} {a b c d : Addr} {i : Nat} {D : Data F Addr}

/-- The contents `D` without its `i`-th handle, in any container. -/
def drop (D : Data F Addr) (i : Nat) : Data F Addr := .list (D.handles.eraseIdx i)

theorem drop_perm (hi : D.handles[i]? = some b) : (b :: (drop D i).handles).Perm D.handles := by
  obtain ⟨hlt, rfl⟩ := List.getElem?_eq_some_iff.mp hi
  exact List.getElem_cons_eraseIdx_perm hlt

/-- What the release of a variable deletes is what that variable alone kept alive. -/
theorem onlyKept_var {x : Nat} (hk : RefCount.OnlyKept Data.handles h.cells
      (a :: (h.vars.eraseIdx x).filterMap id) c) : OnlyKept h (.var x) a c := by
  induction hk with
  | intro c hext _ ih =>
      refine .intro c (fun hca => hext (by simp [hca])) (fun y hy hc => ?_) (fun d i _ hc => ?_)
      · apply hext
        apply List.mem_cons_of_mem
        rw [List.mem_filterMap]
        refine ⟨some c, List.mem_eraseIdx_iff_getElem?.mpr ⟨y, ?_, cellOf_var.mp hc⟩, rfl⟩
        rintro rfl
        exact hy rfl
      · obtain ⟨D, hD, hi⟩ := cellOf_slot.mp hc
        obtain ⟨l, hl, rfl⟩ := look_eq_some.mp hD
        exact ih d l hl (List.mem_of_getElem? hi)

/-- What the release of a stored handle deletes is what that handle alone kept alive. -/
theorem onlyKept_slot (hD : h.look d = some D) (hk : RefCount.OnlyKept Data.handles
      (setBody h.cells d (drop D i)) (a :: h.roots) c) : OnlyKept h (.slot d i) a c := by
  induction hk with
  | intro c hext _ ih =>
      refine .intro c (fun hca => hext (by simp [hca])) (fun y _ hc => ?_) (fun d' j hne hc => ?_)
      · exact hext (List.mem_cons_of_mem _ (mem_roots.mpr ⟨y, hc⟩))
      · obtain ⟨D', hD', hj⟩ := cellOf_slot.mp hc
        obtain ⟨l, hl, rfl⟩ := look_eq_some.mp hD'
        by_cases hd : d = d'
        · -- another handle of the same cell is still there
          subst hd
          obtain rfl := Option.some.inj (hD'.symm.trans hD)
          refine ih d { l with body := drop l.body i } ?_ ?_
          · rw [get_setBody, if_pos rfl, hl]
            rfl
          · refine List.mem_eraseIdx_iff_getElem?.mpr ⟨j, ?_, hj⟩
            rintro rfl
            exact hne rfl
        · refine ih d' l ?_ (List.mem_of_getElem? hj)
          rw [get_setBody, if_neg hd]
          exact hl

theorem write_slot {D' : Data F Addr} (hD : h.look d = some D) (hput : D.put i a = some D') :
    h.write a (.slot d i) = .ok (h.setData d D') := by
  unfold write
  simp only [loc_eq hD]
  show (match D.put i a with | some d' => Except.ok (h.setData d d') | none => _) = _
  rw [hput]

/-- What `operator=` does with a variable after `ref`, `b` being the variable's old cell. -/
theorem overwrite_var {x : Nat} (hs : Sound h [a]) (hx : h.cellOf (.var x) = some b)
    (hq : h.cellOf q = some a)
    (hout : ∀ c, q.holder = some c → ¬ OnlyKept h (.var x) a c) :
    ∃ h₂ h₃, h.unref b = .ok h₂ ∧ h₂.cellOf q = some a ∧ h₂.write a (.var x) = .ok h₃
      ∧ Sound h₃ [] ∧ h₃.cellOf (.var x) = some a := by
  have hlt : x < h.vars.length := (List.getElem?_eq_some_iff.mp (cellOf_var.mp hx)).1
  let rest := (h.vars.eraseIdx x).filterMap id
  have hperm : (a :: h.roots).Perm (b :: a :: rest) :=
    ((roots_perm hx).cons a).trans (List.Perm.swap b a rest)
  have hfew : ∀ t, handles Data.handles h.cells (b :: a :: rest) t < 2 ^ 31 := by
    intro t
    rw [← handles_perm hperm]
    exact hs.few t
  obtain ⟨cells, hu, hC, hR, -, hle⟩ := Counted.unref (hs.counted.perm hperm)
    (fun t => Nat.lt_trans (hfew t) (by decide))
  have hset : (a :: rest).Perm ((h.vars.set x (some a)).filterMap id) := (roots_set hlt (some a)).symm
  refine ⟨⟨cells, h.vars⟩, ⟨cells, h.vars.set x (some a)⟩, ?_, ?_, rfl, ?_, ?_⟩
  · unfold Heap.unref
    rw [hu]
  · cases q with
    | var y => exact hq
    | slot e j =>
        -- the cell that stores `a_var` is not among the deleted ones
        obtain ⟨E, hE, hj⟩ := cellOf_slot.mp hq
        obtain ⟨l, hl, rfl⟩ := look_eq_some.mp hE
        obtain ⟨l', hl', hb⟩ := hR.survives hl (fun hk => hout e rfl (onlyKept_var hk))
        exact cellOf_slot.mpr ⟨l'.body, look_eq_some.mpr ⟨l', hl', rfl⟩, by rw [hb]; exact hj⟩
  · refine ⟨hC.perm hset, fun t => ?_⟩
    show handles Data.handles cells ((h.vars.set x (some a)).filterMap id) t < _
    rw [← handles_perm hset]
    exact Nat.lt_of_le_of_lt (hle t) (hfew t)
  · exact cellOf_var.mpr (List.getElem?_set_self hlt)

/-- The same for a stored handle. While its old cell is released the handle is still in its place, but its
    share of the counter is gone: the cascade is that of a heap without the handle. -/
theorem overwrite_slot {D' : Data F Addr} (hs : Sound h [a]) (hD : h.look d = some D)
    (hi : D.handles[i]? = some b) (hput : D.put i a = some D')
    (hq : h.cellOf q = some a) (hout : ∀ c, c = d ∨ q.holder = some c → ¬ OnlyKept h (.slot d i) a c) :
    ∃ h₂ h₃, h.unref b = .ok h₂ ∧ h₂.cellOf q = some a ∧ h₂.write a (.slot d i) = .ok h₃
      ∧ Sound h₃ [] ∧ h₃.cellOf (.slot d i) = some a := by
  obtain ⟨l, hl, rfl⟩ := look_eq_some.mp hD
  -- the cascade is followed on the container without its handle, which the account no longer counts
  let cells₁ := setBody h.cells d (drop l.body i)
  have hperm : ((b :: a :: h.roots) ++ (drop l.body i).handles).Perm ((a :: h.roots) ++ l.body.handles) :=
    List.perm_middle.symm.trans ((drop_perm hi).append_left _)
  have hC₁ : Counted Data.handles cells₁ (b :: a :: h.roots) := hs.counted.setBody hl hperm
  have hget₁ : ∀ e, get cells₁ e
      = if d = e then (get h.cells e).map (fun c => { c with body := drop l.body i }) else get h.cells e :=
    fun e => get_setBody _
  have hfew : ∀ t, handles Data.handles cells₁ (b :: a :: h.roots) t < 2 ^ 31 := by
    intro t
    rw [handles_setBody hl hperm]
    exact hs.few t
  -- the cascade spares the container and what keeps `q`, by `hout`
  obtain ⟨cells₂, hu, hC, hR, -, hle⟩ := Counted.unref hC₁ (fun t => Nat.lt_trans (hfew t) (by decide))
  have hsurvives : ∀ e l₁, get cells₁ e = some l₁ → (e = d ∨ q.holder = some e) →
      ∃ l₂, get cells₂ e = some l₂ ∧ l₂.body = l₁.body :=
    fun e l₁ he hr => hR.survives he (fun hk => hout e hr (onlyKept_slot hD hk))
  have hd₁ : get cells₁ d = some { l with body := drop l.body i } := by
    rw [hget₁, if_pos rfl, hl]
    rfl
  obtain ⟨l₂, hl₂, hb₂⟩ := hsurvives d _ hd₁ (.inl rfl)
  -- the handle is still in its place: the real cascade runs on `D`
  have hu' : RefCount.unref Data.handles h.cells.length h.cells b = some (setBody cells₂ d l.body) := by
    have h' := unref_setBody (b := l.body) _ _ _ _ _ hu hl₂
    rwa [setBody_setBody, setBody_self hl, length_setBody] at h'
  have hlook₂ : Heap.look (⟨setBody cells₂ d l.body, h.vars⟩ : Heap F) d = some l.body := by
    unfold Heap.look
    rw [get_setBody, if_pos rfl, hl₂]
    rfl
  refine ⟨⟨setBody cells₂ d l.body, h.vars⟩, ⟨setBody cells₂ d D', h.vars⟩, ?_, ?_, ?_, ?_, ?_⟩
  · unfold Heap.unref
    rw [hu']
  · cases q with
    | var y => exact hq
    | slot e j =>
        obtain ⟨E, hE, hj⟩ := cellOf_slot.mp hq
        by_cases hed : d = e
        · subst hed
          obtain rfl := Option.some.inj (hE.symm.trans hD)
          exact cellOf_slot.mpr ⟨l.body, hlook₂, hj⟩
        · obtain ⟨k, hk, rfl⟩ := look_eq_some.mp hE
          obtain ⟨k₂, hk₂, hb⟩ := hsurvives e k (by rw [hget₁, if_neg hed]; exact hk) (.inr rfl)
          refine cellOf_slot.mpr ⟨k₂.body, look_eq_some.mpr ⟨k₂, ?_, rfl⟩, by rw [hb]; exact hj⟩
          rw [get_setBody, if_neg hed]
          exact hk₂
  · rw [write_slot hlook₂ hput]
    unfold Heap.setData
    rw [setBody_setBody]
  · have hperm₂ : (h.roots ++ D'.handles).Perm ((a :: h.roots) ++ l₂.body.handles) := by
      rw [hb₂]
      exact ((Data.put_perm hput).append_left _).trans List.perm_middle
    refine ⟨hC.setBody hl₂ hperm₂, fun t => ?_⟩
    show handles Data.handles (setBody cells₂ d D') h.roots t < _
    rw [handles_setBody hl₂ hperm₂]
    exact Nat.lt_of_le_of_lt (hle t) (hfew t)
  · refine cellOf_slot.mpr ⟨D', ?_, ?_⟩
    · unfold Heap.look
      rw [get_setBody, if_pos rfl, hl₂]
      rfl
    · obtain ⟨hlt, hD'⟩ := Data.handles_put hput
      rw [hD']
      exact List.getElem?_set_self hlt

/-- **`operator=`** with operands that do not depend on the target's old cell: `a_var` is still there at its
    second read, the counters stay right, and the target leads where the source led. -/
theorem assign_sound (hs : Sound h []) (hq : h.cellOf q = some a) (hput : h.assignable p = true)
    (hfew : ∀ t, handles Data.handles h.cells (a :: h.roots) t < 2 ^ 31)
    (hout : ∀ r ∈ [p, q], ∀ c, r.holder = some c → ¬ OnlyKept h p a c) :
    ∃ h', h.assign p q = .ok h' ∧ Sound h' [] ∧ h'.cellOf p = some a := by
  obtain ⟨A, hA⟩ := hs.look hq
  obtain ⟨h₁, hr, hs₁, hrec⟩ := hs.ref hA hfew
  have hq₁ : h₁.cellOf q = some a := by rw [hrec.cellOf, hq]
  have hkept : ∀ {c}, OnlyKept h₁ p a c → OnlyKept h p a c :=
    fun hk => hk.congr (fun r => by rw [hrec.cellOf])
  obtain ⟨b, hp, h₂, h₃, hu, hq₂, hw, hs₃, hp₃⟩ : ∃ b, h₁.cellOf p = some b ∧ ∃ h₂ h₃, h₁.unref b = .ok h₂
      ∧ h₂.cellOf q = some a ∧ h₂.write a p = .ok h₃ ∧ Sound h₃ [] ∧ h₃.cellOf p = some a := by
    -- the old handle of `p` is released while the new one is counted and not yet written
    cases p with
    | var x =>
        obtain ⟨b, hx⟩ := Option.isSome_iff_exists.mp hput
        have hx₁ : h₁.cellOf (.var x) = some b := by rw [hrec.cellOf, hx]
        exact ⟨b, hx₁, overwrite_var hs₁ hx₁ hq₁ (fun c hc hk => hout q (by simp) c hc (hkept hk))⟩
    | slot d i =>
        unfold assignable at hput
        rw [Option.any_eq_true] at hput
        obtain ⟨D, hD, hD'⟩ := hput
        rw [Data.put_isSome D i d a] at hD'
        obtain ⟨D', hD'⟩ := Option.isSome_iff_exists.mp hD'
        have hi := (Data.handles_put hD').1
        have hb := List.getElem?_eq_getElem hi
        rw [← hrec.look] at hD
        refine ⟨D.handles[i], cellOf_slot.mpr ⟨D, hD, hb⟩,
          overwrite_slot hs₁ hD hb hD' hq₁ (fun c hc hk => ?_)⟩
        rcases hc with rfl | hc
        · exact hout (.slot c i) (by simp) c rfl (hkept hk)
        · exact hout q (by simp) c hc (hkept hk)
  refine ⟨h₃, ?_, hs₃, hp₃⟩
  unfold assign
  rw [if_pos hput, read_eq hq]
  simp only [ok_bind, hr, read_eq hp, hu, read_eq hq₂]
  exact hw

end Assign

/-! ## The other operations -/

section Sequences

omit [LT F] [DecidableLT F]

variable {h h' : Heap F} {a : Addr} {ext : List Addr}

theorem Sound.perm {ext' : List Addr} (hs : Sound h ext) (hp : ext.Perm ext') : Sound h ext' := by
  refine ⟨hs.counted.perm (hp.append_right _), fun t => ?_⟩
  rw [← handles_perm (hp.append_right h.roots)]
  exact hs.few t

theorem mapM_read : ∀ {qs : List Place}, (∀ q ∈ qs, ∃ a, h.cellOf q = some a) →
    qs.mapM h.read = .ok (qs.filterMap h.cellOf)
  | [], _ => rfl
  | q :: qs, hqs => by
      obtain ⟨a, ha⟩ := hqs q (by simp)
      have ih := mapM_read (fun r hr => hqs r (List.mem_cons_of_mem q hr))
      rw [List.mapM_cons, read_eq ha, List.filterMap_cons_some ha]
      simp only [ok_bind, ih]
      rfl

/-- Copies of several handles. -/
theorem Sound.refs : ∀ {bs : List Addr} {h : Heap F} {ext : List Addr}, Sound h ext →
    (∀ b ∈ bs, ∃ d, h.look b = some d) →
    (∀ t, handles Data.handles h.cells (bs ++ (ext ++ h.roots)) t < 2 ^ 31) →
    ∃ h', bs.foldlM Heap.ref h = .ok h' ∧ Sound h' (bs ++ ext) ∧ Recounted h h'
  | [], h, ext, hs, _, _ => ⟨h, rfl, hs, rfl, rfl, rfl, fun _ _ => rfl⟩
  | b :: bs, h, ext, hs, hlive, hfew => by
      have hperm : ((b :: bs) ++ (ext ++ h.roots)).Perm (bs ++ ((b :: ext) ++ h.roots)) :=
        List.perm_middle.symm
      have hfew' : ∀ t, handles Data.handles h.cells (bs ++ ((b :: ext) ++ h.roots)) t < 2 ^ 31 := by
        intro t
        rw [← handles_perm hperm]
        exact hfew t
      obtain ⟨d, hd⟩ := hlive b (by simp)
      obtain ⟨h₁, hr₁, hs₁, hrec₁⟩ := hs.ref hd (fun t => by
        have := hfew' t
        rw [handles_append] at this
        omega)
      obtain ⟨h', hr', hs', hrec'⟩ := Sound.refs hs₁ (fun c hc => by
        rw [hrec₁.look]
        exact hlive c (List.mem_cons_of_mem b hc)) (fun t => by
        rw [hrec₁.counts, hrec₁.roots]
        exact hfew' t)
      refine ⟨h', ?_, hs'.perm List.perm_middle, hrec'.vars.trans hrec₁.vars,
        hrec'.look.trans hrec₁.look, hrec'.length.trans hrec₁.length,
        fun ext t => (hrec'.counts ext t).trans (hrec₁.counts ext t)⟩
      rw [List.foldlM_cons, hr₁]
      exact hr'

/-- Releases of several handles. -/
theorem Sound.unrefs : ∀ {bs : List Addr} {h : Heap F}, Sound h (bs ++ ext) →
    ∃ h', bs.foldlM unref h = .ok h' ∧ Sound h' ext
  | [], h, hs => ⟨h, rfl, hs⟩
  | b :: bs, h, hs => by
      obtain ⟨cells, hu, hrel⟩ := Counted.unref hs.counted (fun t => Nat.lt_trans (hs.few t) (by decide))
      obtain ⟨h', hu', hs'⟩ := Sound.unrefs (h := ⟨cells, h.vars⟩)
        ⟨hrel.counted, fun t => Nat.lt_of_le_of_lt (hrel.handles t) (hs.few t)⟩
      refine ⟨h', ?_, hs'⟩
      have hu₁ : h.unref b = .ok ⟨cells, h.vars⟩ := by
        unfold unref
        rw [hu]
      rw [List.foldlM_cons, hu₁]
      exact hu'

theorem roots_push (a : Addr) : (h.push a).roots = h.roots ++ [a] := by
  simp [roots, push]

theorem Sound.alloc (hs : Sound h ext) {d : Data F Addr} (hd : d.handles = []) :
    Sound (h.alloc d) (h.cells.length :: ext) := by
  refine ⟨hs.counted.alloc hd, fun t => ?_⟩
  show handles Data.handles (h.cells ++ [some ⟨1, d⟩]) (h.cells.length :: (ext ++ h.roots)) t < _
  rw [handles_alloc hd]
  by_cases ht : h.cells.length = t
  · rw [if_pos ht, hs.counted.beyond (by omega)]
    decide
  · rw [if_neg ht]
    exact hs.few t

theorem Sound.push (hs : Sound h (a :: ext)) : Sound (h.push a) ext := by
  have hp : ((a :: ext) ++ h.roots).Perm (ext ++ (h.push a).roots) := by
    rw [roots_push, ← List.append_assoc]
    exact (List.perm_append_singleton a (ext ++ h.roots)).symm
  refine ⟨hs.counted.perm hp, fun t => ?_⟩
  show handles Data.handles h.cells _ t < _
  rw [← handles_perm hp]
  exact hs.few t

theorem Sound.setData (hs : Sound h ext) {d d' : Data F Addr} (hd : h.look a = some d) {ext' : List Addr}
    (hp : (ext' ++ d'.handles).Perm (ext ++ d.handles)) : Sound (h.setData a d') ext' := by
  obtain ⟨l, hl, rfl⟩ := look_eq_some.mp hd
  have hperm : ((ext' ++ h.roots) ++ d'.handles).Perm ((ext ++ h.roots) ++ l.body.handles) := by
    have h₁ : ((ext' ++ h.roots) ++ d'.handles).Perm ((ext' ++ d'.handles) ++ h.roots) := by
      rw [List.append_assoc, List.append_assoc]
      exact (List.perm_append_comm).append_left ext'
    have h₂ : ((ext ++ l.body.handles) ++ h.roots).Perm ((ext ++ h.roots) ++ l.body.handles) := by
      rw [List.append_assoc, List.append_assoc]
      exact (List.perm_append_comm).append_left ext
    exact h₁.trans ((hp.append_right _).trans h₂)
  refine ⟨hs.counted.setBody hl hperm, fun t => ?_⟩
  show handles Data.handles (setBody h.cells a d') (ext' ++ h.roots) t < _
  rw [handles_setBody hl hperm]
  exact hs.few t

end Sequences

/-- What an operation does in a sound heap: it is refused, or it leaves a sound heap behind. -/
def Fine (r : Except Fault (Heap F)) : Prop := r = .error .refused ∨ ∃ h', r = .ok h' ∧ Sound h' []

section Fine

variable {depth : Nat} {h : Heap F}

omit [LT F] [DecidableLT F] in
theorem Keeps.cell {op : Op F} (hk : Keeps h op) (p : Place) (hp : p ∈ op.places) : ∃ a, h.cellOf p = some a :=
  Option.isSome_iff_exists.mp (hk.places p hp)

omit [LT F] [DecidableLT F] in
/-- The bound of `Keeps` with the copied handles counted in. -/
theorem Keeps.below {op : Op F} (hk : Keeps h op) (t : Addr) :
    handles Data.handles h.cells (op.sources.filterMap h.cellOf ++ h.roots) t < 2 ^ 31 := by
  rw [handles_append]
  exact hk.few t

theorem fine_copyConstruct {q : Place} (hs : Sound h []) (hk : Keeps h (.copyConstruct q)) :
    Fine (h.exec depth (.copyConstruct q)) := by
  obtain ⟨a, ha⟩ := hk.cell q (by simp [Op.places])
  obtain ⟨d, hd⟩ := hs.look ha
  obtain ⟨h', hr, hs', -⟩ := hs.ref hd (fun t => by simpa [Op.sources, ha] using hk.below t)
  refine .inr ⟨h'.push a, ?_, hs'.push⟩
  simp only [exec, read_eq ha, ok_bind, hr]
  rfl

theorem fine_assign {p q : Place} (hs : Sound h []) (hk : Keeps h (.assign p q)) :
    Fine (h.exec depth (.assign p q)) := by
  obtain ⟨a, ha⟩ := hk.cell q (by simp [Op.places])
  by_cases hput : h.assignable p = true
  · obtain ⟨h', hr, hs', -⟩ := assign_sound hs ha hput
      (fun t => by simpa [Op.sources, ha] using hk.below t) (hk.outlives p q a rfl ha)
    exact .inr ⟨h', hr, hs'⟩
  · apply Or.inl
    simp only [exec, assign, hput]
    rfl

theorem fine_destroy {x : Nat} (hs : Sound h []) (hk : Keeps h (.destroy x)) :
    Fine (h.exec depth (.destroy x)) := by
  obtain ⟨a, ha⟩ := hk.cell (.var x) (by simp [Op.places])
  have hlt : x < h.vars.length := (List.getElem?_eq_some_iff.mp (cellOf_var.mp ha)).1
  let h₁ : Heap F := { h with vars := h.vars.set x none }
  have hperm : h.roots.Perm ([a] ++ h₁.roots) :=
    (roots_perm ha).trans ((roots_set hlt none).symm.cons a)
  have hs₁ : Sound h₁ ([a] ++ []) := by
    refine ⟨hs.counted.perm hperm, fun t => ?_⟩
    show handles Data.handles h.cells ([a] ++ h₁.roots) t < _
    rw [← handles_perm hperm]
    exact hs.few t
  obtain ⟨h', hu, hs'⟩ := hs₁.unrefs
  refine .inr ⟨h', ?_, hs'⟩
  simp only [exec, read_eq ha, ok_bind]
  simpa using hu

theorem fine_insert {c : Place} {i : Nat} {qs : List Place} (hs : Sound h [])
    (hk : Keeps h (.insert c i qs)) : Fine (h.exec depth (.insert c i qs)) := by
  obtain ⟨a, ha⟩ := hk.cell c (by simp [Op.places])
  have hqs : ∀ q ∈ qs, ∃ b, h.cellOf q = some b := fun q hq => hk.cell q (by simp [Op.places, hq])
  obtain ⟨d, hd⟩ := hs.look ha
  simp only [exec, read_eq ha, mapM_read hqs, loc_eq hd, ok_bind]
  cases hins : d.insert (h.compare depth) i (qs.filterMap h.cellOf) with
  | none => exact .inl rfl
  | some d' =>
      have hlive : ∀ b ∈ qs.filterMap h.cellOf, ∃ d, h.look b = some d := by
        intro b hb
        obtain ⟨q, -, hq⟩ := List.mem_filterMap.mp hb
        exact hs.look hq
      obtain ⟨h₁, hr, hs₁, hrec⟩ := hs.refs hlive hk.below
      refine .inr ⟨h₁.setData a d', ?_, ?_⟩
      · simp only [hr, ok_bind]
        rfl
      · rw [← hrec.look] at hd
        apply hs₁.setData hd
        rw [List.nil_append, List.append_nil]
        exact Data.insert_perm hins

theorem fine_index {c k : Place} {i : Nat} (hs : Sound h []) (hk : Keeps h (.index c i k)) :
    Fine (h.exec depth (.index c i k)) := by
  obtain ⟨a, ha⟩ := hk.cell c (by simp [Op.places])
  obtain ⟨b, hb⟩ := hk.cell k (by simp [Op.places])
  obtain ⟨d, hd⟩ := hs.look ha
  obtain ⟨e, he⟩ := hs.look hb
  simp only [exec, read_eq ha, read_eq hb, loc_eq hd, ok_bind]
  cases hins : d.insert (h.compare depth) i [b, h.cells.length] with
  | none => exact .inl rfl
  | some d' =>
      obtain ⟨h₁, hr, hs₁, hrec⟩ := hs.ref he (fun t => by simpa [Op.sources, hb] using hk.below t)
      refine .inr ⟨(h₁.alloc .blank).setData a d', ?_, ?_⟩
      · simp only [hr, ok_bind]
        rfl
      · -- the new pair is the copied key with the handle on the new blank
        have hs₂ : Sound (h₁.alloc .blank) [h₁.cells.length, b] := hs₁.alloc rfl
        rw [← hrec.look] at hd
        obtain ⟨l, hl, rfl⟩ := look_eq_some.mp hd
        refine hs₂.setData (look_eq_some.mpr ⟨l, ?_, rfl⟩) ?_
        · show get (h₁.cells ++ _) a = _
          rw [get_append_old (lt_of_get hl)]
          exact hl
        · rw [List.nil_append, hrec.length]
          exact (Data.insert_perm hins).trans ((List.Perm.swap _ _ []).append_right _)

theorem fine_erase {c : Place} {i : Nat} (hs : Sound h []) (hk : Keeps h (.erase c i)) :
    Fine (h.exec depth (.erase c i)) := by
  obtain ⟨a, ha⟩ := hk.cell c (by simp [Op.places])
  obtain ⟨d, hd⟩ := hs.look ha
  simp only [exec, read_eq ha, loc_eq hd, ok_bind]
  cases her : d.erase i with
  | none => exact .inl rfl
  | some r =>
      obtain ⟨bs, d'⟩ := r
      have hs₁ : Sound (h.setData a d') (bs ++ []) := by
        apply hs.setData hd
        rw [List.append_nil]
        exact Data.erase_perm her
      obtain ⟨h', hu, hs'⟩ := hs₁.unrefs
      exact .inr ⟨h', hu, hs'⟩

end Fine

/-- **Every operation keeps the counters right**, and none touches a deleted cell. -/
theorem exec_fine (depth : Nat) {h : Heap F} {op : Op F} (hs : Sound h []) (hk : Keeps h op) :
    Fine (h.exec depth op) := by
  cases op with
  | construct d => exact .inr ⟨_, rfl, (hs.alloc (Data.handles_map_elim d)).push⟩
  | copyConstruct q => exact fine_copyConstruct hs hk
  | assign p q => exact fine_assign hs hk
  | destroy x => exact fine_destroy hs hk
  | insert c i qs => exact fine_insert hs hk
  | index c i k => exact fine_index hs hk
  | erase c i => exact fine_erase hs hk

/-- The counters are right in every heap reached. -/
theorem Reached.sound {depth : Nat} {h : Heap F} (hr : Reached depth h) : Sound h [] := by
  induction hr with
  | empty => exact ⟨counted_nil, fun _ => Nat.two_pow_pos 31⟩
  | step _ hk he ih =>
      rcases exec_fine depth ih hk with hf | ⟨h', hf, hs'⟩
      · rw [hf] at he
        exact absurd he (by simp)
      · rw [hf] at he
        obtain rfl := Except.ok.inj he
        exact hs'

/-- **Reference counts.** In every heap reached by operations that `Keeps` allows, `m_ref_cnt` of each live
    cell is the number of live handles on it, and exactly the cells without handles are deleted. The next
    such operation touches no deleted cell, and an assignment leaves its target on the cell that the
    source was on. -/
theorem reference_counts {depth : Nat} {h : Heap F} (hr : Reached depth h) :
    (∀ a l, get h.cells a = some l → (LocC.m_ref_cnt l).toInt = h.handleCount a)
      ∧ (∀ a < h.cells.length, get h.cells a = none ↔ h.handleCount a = 0)
      ∧ (∀ op, Keeps h op → h.exec depth op ≠ .error .dangling)
      ∧ (∀ p q h', Keeps h (.assign p q) → h.exec depth (.assign p q) = .ok h' →
          h'.cellOf p = h.cellOf q) := by
  have hs := hr.sound
  refine ⟨fun a l hl => ?_, fun a _ => hs.counted.none_iff, fun op hk => ?_, fun p q h' hk he => ?_⟩
  · have hok := hs.counted a
    rw [hl] at hok
    have hlt : h.handleCount a < 2 ^ 31 := hs.few a
    have hnat : (LocC.m_ref_cnt l).toNat = h.handleCount a := by
      rw [LocC.m_ref_cnt, hok.some, BitVec.toNat_ofNat]
      exact Nat.mod_eq_of_lt (Nat.lt_trans hlt (by decide))
    rw [BitVec.toInt_eq_toNat_of_lt (by omega), hnat]
  · rcases exec_fine depth hs hk with hf | ⟨h', hf, -⟩ <;> rw [hf] <;> simp
  · obtain ⟨a, ha⟩ := hk.cell q (by simp [Op.places])
    by_cases hput : h.assignable p = true
    · obtain ⟨h₁, hr₁, -, hp⟩ := assign_sound hs ha hput
        (fun t => by simpa [Op.sources, ha] using hk.below t) (hk.outlives p q a rfl ha)
      have heq : h.exec depth (.assign p q) = .ok h₁ := hr₁
      rw [heq] at he
      obtain rfl := Except.ok.inj he
      rw [hp, ha]
    · simp only [exec, assign, hput] at he
      exact absurd he (by simp [throw, throwThe, MonadExceptOf.throw])

omit [LT F] [DecidableLT F] in
/-- The counters cannot overflow while there are few handles at all. -/
theorem few_of_length {h : Heap F} {qs : List Place}
    (hl : qs.length + (h.roots.length + (stored Data.handles h.cells).length) < 2 ^ 31) (a : Addr) :
    (qs.filterMap h.cellOf).count a + h.handleCount a < 2 ^ 31 := by
  have h₁ : (qs.filterMap h.cellOf).count a ≤ qs.length :=
    Nat.le_trans List.count_le_length (List.length_filterMap_le _ _)
  have h₂ : h.roots.count a ≤ h.roots.length := List.count_le_length
  have h₃ : (stored Data.handles h.cells).count a ≤ (stored Data.handles h.cells).length :=
    List.count_le_length
  unfold handleCount handles
  omega

omit [LT F] [DecidableLT F] in
/-- Only an assignment asks for more than existing handles and a bound on their number. -/
theorem Keeps.of_places {h : Heap F} {op : Op F} (hp : ∀ p ∈ op.places, (h.cellOf p).isSome)
    (hl : op.sources.length + (h.roots.length + (stored Data.handles h.cells).length) < 2 ^ 31)
    (hop : ∀ p q, op ≠ .assign p q) : Keeps h op :=
  ⟨hp, few_of_length hl, fun p q _ h => absurd h (hop p q)⟩

/-- `v = [7]; w = v; v = v[0]` as a heap: another handle keeps the list alive. -/
theorem reached_shared :
    Reached 1 (⟨[some ⟨1, .array [1]⟩, some ⟨3, .integer 7⟩], [some 1, some 1, some 0]⟩ : Heap Nat) := by
  have k₁ : Keeps (empty : Heap Nat) (.construct (.array [])) := .of_places (by decide) (by decide) (by simp)
  have h₁ : Reached 1 (⟨[some ⟨1, .array []⟩], [some 0]⟩ : Heap Nat) := .step .empty k₁ rfl
  have k₂ : Keeps (⟨[some ⟨1, .array []⟩], [some 0]⟩ : Heap Nat) (.construct (.integer 7)) :=
    .of_places (by decide) (by decide) (by simp)
  have h₂ : Reached 1 (⟨[some ⟨1, .array []⟩, some ⟨1, .integer 7⟩], [some 0, some 1]⟩ : Heap Nat) :=
    .step h₁ k₂ rfl
  have k₃ : Keeps (⟨[some ⟨1, .array []⟩, some ⟨1, .integer 7⟩], [some 0, some 1]⟩ : Heap Nat)
      (.insert (.var 0) 0 [.var 1]) := .of_places (by decide) (by decide) (by simp)
  have h₃ : Reached 1 (⟨[some ⟨1, .array [1]⟩, some ⟨2, .integer 7⟩], [some 0, some 1]⟩ : Heap Nat) :=
    .step h₂ k₃ rfl
  have k₄ : Keeps (⟨[some ⟨1, .array [1]⟩, some ⟨2, .integer 7⟩], [some 0, some 1]⟩ : Heap Nat)
      (.copyConstruct (.var 0)) := .of_places (by decide) (by decide) (by simp)
  have h₄ : Reached 1 (⟨[some ⟨2, .array [1]⟩, some ⟨2, .integer 7⟩], [some 0, some 1, some 0]⟩ : Heap Nat) :=
    .step h₃ k₄ rfl
  have k₅ : Keeps (⟨[some ⟨2, .array [1]⟩, some ⟨2, .integer 7⟩], [some 0, some 1, some 0]⟩ : Heap Nat)
      (.assign (.var 0) (.slot 0 0)) := ⟨by decide, few_of_length (by decide), ?_⟩
  · exact .step h₄ k₅ rfl
  intro p q a hop _ r hr c hc hk
  obtain ⟨rfl, rfl⟩ : Place.var 0 = p ∧ Place.slot 0 0 = q := by simpa using hop
  obtain rfl : c = 0 := by
    rcases List.mem_pair.mp hr with rfl | rfl <;> simp [Place.holder] at hc
    exact hc.symm
  cases hk with
  | intro _ _ hv _ => exact hv 2 (by decide) (by decide)

/-- The theorem at that heap. -/
theorem reference_counts_shared :
    let h : Heap Nat := ⟨[some ⟨1, .array [1]⟩, some ⟨3, .integer 7⟩], [some 1, some 1, some 0]⟩
    (∀ a l, get h.cells a = some l → (LocC.m_ref_cnt l).toInt = h.handleCount a)
      ∧ (∀ a < h.cells.length, get h.cells a = none ↔ h.handleCount a = 0)
      ∧ (∀ op, Keeps h op → h.exec 1 op ≠ .error .dangling)
      ∧ (∀ p q h', Keeps h (.assign p q) → h.exec 1 (.assign p q) = .ok h' → h'.cellOf p = h.cellOf q) :=
  reference_counts reached_shared

/-- `v = v[0]`: the target alone keeps the array with the source alive, and the second read of the source
    is in a deleted cell. -/
theorem assign_own_element : ∃ h : Heap Nat,
    [Op.construct (.array []), .construct (.integer 7), .insert (.var 0) 0 [.var 1], .destroy 1].foldlM
        (exec 1) empty = .ok h
      ∧ h.cellOf (.var 0) = some 0 ∧ h.cellOf (.slot 0 0) = some 1
      ∧ h.exec 1 (.assign (.var 0) (.slot 0 0)) = .error .dangling :=
  ⟨⟨[some ⟨1, .array [1]⟩, some ⟨1, .integer 7⟩], [some 0, none]⟩, by decide, by decide, by decide, by decide⟩

end Heap
end Cclvar
end Cclib
