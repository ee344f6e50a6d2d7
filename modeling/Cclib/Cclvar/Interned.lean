import Cclib.Cclvar.Store
import Mathlib.Logic.Relation
import Mathlib.Data.List.Basic

/-!
# `Cclvar.Interned` — the string literals that share a cell

`var_c(const char *)` looks the text up in `m_str_map` and shares the cell of the object found there; a text
it has not seen gets a new cell, and the map an object of its own that leads there. The map's objects live
among the other objects of the heap, but no program can name them: `m_str_map` is private.

## Contents
- `varCLiteral`: the constructor, over the operations of `Cclvar.Heap`; `Step`: a literal or another operation.
- `Interned`: what every step keeps; `literal_spec`: where a literal leads.
- `literals_shared`: two literals share a cell exactly when their texts are the same, whatever a program does
  before the first, between them and with the first.
-/

namespace Cclib
namespace Cclvar

open RefCount

/-- The object an operation gives another cell, or none. -/
def Op.target {F : Type} : Op F → Option Place
  | .assign p _ => some p
  | .destroy x => some (.var x)
  | _ => none

theorem Op.target_mem {F : Type} {op : Op F} {p : Place} (h : op.target = some p) : p ∈ op.places := by
  cases op <;> simp_all [target, places]

/-! ## Objects and scalars that an operation leaves alone -/

section Frame

variable {F : Type} {x : Nat} {a : Addr}

theorem getElem?_push {vars : List (Option Addr)} (h : vars[x]? = some (some a)) (o : Option Addr) :
    (vars ++ [o])[x]? = some (some a) := by
  rw [List.getElem?_append_left (List.getElem?_eq_some_iff.mp h).1]
  exact h

theorem getElem?_set_other {vars : List (Option Addr)} {y : Nat} (h : vars[x]? = some (some a)) (hne : y ≠ x)
    (o : Option Addr) : (vars.set y o)[x]? = some (some a) := by
  rw [List.getElem?_set_ne hne]
  exact h

variable [LT F] [DecidableLT F]

/-- An operation leaves the objects alone that are not its target. -/
theorem Store.exec_var {s s' : Store F} {depth : Nat} {op : Op F} (h : s.exec depth op = some s')
    (hx : s.cellOf (.var x) = some a) (ht : op.target ≠ some (.var x)) : s'.cellOf (.var x) = some a := by
  rw [cellOf_var] at hx ⊢
  cases op with
  | construct d =>
      obtain rfl := Option.some.inj h
      exact getElem?_push hx _
  | copyConstruct q =>
      obtain ⟨b, -, h⟩ := Option.bind_eq_some_iff.mp h
      obtain rfl := Option.some.inj h
      exact getElem?_push hx _
  | assign p q =>
      obtain ⟨b, -, h⟩ := Option.bind_eq_some_iff.mp h
      cases p with
      | var y =>
          obtain ⟨-, -, h⟩ := Option.bind_eq_some_iff.mp h
          obtain rfl := Option.some.inj h
          exact getElem?_set_other hx (fun hy => ht (by rw [hy, Op.target])) _
      | slot d i =>
          obtain ⟨d, -, h⟩ := Option.bind_eq_some_iff.mp h
          obtain ⟨d', -, h⟩ := Option.bind_eq_some_iff.mp h
          obtain rfl := Option.some.inj h
          exact hx
  | destroy y =>
      obtain ⟨-, -, h⟩ := Option.bind_eq_some_iff.mp h
      obtain rfl := Option.some.inj h
      exact getElem?_set_other hx (fun hy => ht (by rw [hy, Op.target])) _
  | insert c i qs =>
      obtain ⟨b, -, h⟩ := Option.bind_eq_some_iff.mp h
      obtain ⟨bs, -, h⟩ := Option.bind_eq_some_iff.mp h
      obtain ⟨d, -, h⟩ := Option.bind_eq_some_iff.mp h
      obtain ⟨d', -, h⟩ := Option.bind_eq_some_iff.mp h
      obtain rfl := Option.some.inj h
      exact hx
  | index c i k =>
      obtain ⟨b, -, h⟩ := Option.bind_eq_some_iff.mp h
      obtain ⟨e, -, h⟩ := Option.bind_eq_some_iff.mp h
      obtain ⟨d, -, h⟩ := Option.bind_eq_some_iff.mp h
      obtain ⟨d', -, h⟩ := Option.bind_eq_some_iff.mp h
      obtain rfl := Option.some.inj h
      exact hx
  | erase c i =>
      obtain ⟨b, -, h⟩ := Option.bind_eq_some_iff.mp h
      obtain ⟨d, -, h⟩ := Option.bind_eq_some_iff.mp h
      obtain ⟨d', -, h⟩ := Option.bind_eq_some_iff.mp h
      obtain rfl := Option.some.inj h
      exact hx

namespace Heap

/-- An object that leads to a string and is not the target of an operation still does after it. -/
theorem Reached.exec_string {depth : Nat} {h h' : Heap F} {op : Op F} {v : StringT} (hr : Reached depth h)
    (hk : Keeps h op) (he : h.exec depth op = .ok h') (hx : h.cellOf (.var x) = some a)
    (hv : h.look a = some (.string v)) (ht : op.target ≠ some (.var x)) :
    h'.cellOf (.var x) = some a ∧ h'.look a = some (.string v) := by
  obtain ⟨s, -, hsim⟩ := hr.simulates
  obtain ⟨s', he', hsim'⟩ := exec_simulates hsim he
  have hx' : h'.cellOf (.var x) = some a := by
    rw [cellOf_var, hsim'.vars, ← Store.cellOf_var]
    exact Store.exec_var he' (hsim.cellOf hx) ht
  -- the cell is alive as an object leads to it, and its contents are those of the store
  obtain ⟨d, hd⟩ := (Reached.step hr hk he).sound.look hx'
  have hframe := Store.exec_frame he' (hsim.look a _ hv) (fun _ => rfl)
  rw [hsim'.look a d hd] at hframe
  exact ⟨hx', hframe ▸ hd⟩

omit [LT F] [DecidableLT F] in
/-- A counter below its limit is the number of handles. -/
theorem Sound.handleCount_eq {h : Heap F} (hs : Sound h []) {l : LocC F} (hl : get h.cells a = some l) :
    h.handleCount a = (LocC.m_ref_cnt l).toNat := by
  have hok := hs.counted a
  have hlt : h.handleCount a < 2 ^ 31 := hs.few a
  rw [hl] at hok
  rw [LocC.m_ref_cnt, hok.some, BitVec.toNat_ofNat, Nat.mod_eq_of_lt]
  · rfl
  · exact Nat.lt_trans hlt (by decide)

omit [LT F] [DecidableLT F] in
/-- A constructor uses no handles. -/
theorem Sound.keeps_construct {h : Heap F} (hs : Sound h []) (d : Data F Empty) : Keeps h (.construct d) where
  places p hp := absurd hp (List.not_mem_nil (a := p))
  few t := by
    have ht : h.handleCount t < 2 ^ 31 := hs.few t
    simpa [Op.sources] using ht
  outlives p q a hop := by cases hop

/-- The copy of a handle is the next object, on the same cell. -/
theorem copyConstruct_spec {h : Heap F} (depth : Nat) {q : Place} (hs : Sound h [])
    (hk : Keeps h (.copyConstruct q)) (ha : h.cellOf q = some a) :
    ∃ h', h.exec depth (.copyConstruct q) = .ok h' ∧ h'.cellOf (.var h.vars.length) = some a := by
  obtain ⟨d, hd⟩ := hs.look ha
  obtain ⟨h', hr, -, hrec⟩ := hs.ref hd (fun t => by simpa [Op.sources, ha] using hk.below t)
  refine ⟨h'.push a, ?_, ?_⟩
  · simp only [exec, read_eq ha, ok_bind, hr]
    rfl
  · rw [cellOf_var, push, hrec.vars]
    exact List.getElem?_concat_length

end Heap

end Frame

/-! ## The constructor -/

/-- The heap, and `m_str_map`: each text with the index of the object it is mapped to. -/
structure Interning (F : Type) where
  heap : Heap F
  m_str_map : List (StringT × Nat)

namespace Interning

variable {F : Type}

/-- Nothing made yet. -/
def empty : Interning F := ⟨Heap.empty, []⟩

/-- `std::string value{a_val}`: the bytes before the first NUL. -/
def textOf (a_val : StringT) : StringT := a_val.takeWhile (fun b => b ≠ 0)

/-- `m_str_map.find`. -/
def find (m : Interning F) (value : StringT) : Option Nat := m.m_str_map.lookup value

section Constructor

variable [LT F] [DecidableLT F]

/-- `var_c(const char *)`. The object it makes is the next one. -/
def varCLiteral (depth : Nat) (m : Interning F) (a_val : StringT) : Except Fault (Interning F) :=
  let value := textOf a_val
  match m.find value with
  | some x => do
    let h ← m.heap.exec depth (.copyConstruct (.var x))
    return { m with heap := h }
  | none => do
    let this := m.heap.vars.length
    let h ← m.heap.exec depth (.construct (.string value))
    -- `m_str_map[value]` makes a blank first
    let h ← h.exec depth (.construct .blank)
    let h ← h.exec depth (.assign (.var (this + 1)) (.var this))
    return ⟨h, m.m_str_map ++ [(value, this + 1)]⟩

/-- The copy that a known text gets can be counted in an `int`. -/
def Countable (m : Interning F) (a_val : StringT) : Prop :=
  ∀ x a, m.find (textOf a_val) = some x → m.heap.cellOf (.var x) = some a → 1 + m.heap.handleCount a < 2 ^ 31

/-- What a program does next: an operation, on any objects but those of the map, or a literal. -/
inductive Step (depth : Nat) (m : Interning F) : Interning F → Prop where
  | op {h : Heap F} (op : Op F) : Heap.Keeps m.heap op →
      (∀ value x, m.find value = some x → .var x ∉ op.places) →
      m.heap.exec depth op = .ok h → Step depth m { m with heap := h }
  | literal {m' : Interning F} (a_val : StringT) : Countable m a_val →
      m.varCLiteral depth a_val = .ok m' → Step depth m m'

/-- Any number of steps. -/
abbrev Run (depth : Nat) : Interning F → Interning F → Prop := Relation.ReflTransGen (Step depth)

/-! ## What every step keeps -/

/-- `value` is mapped to an object on the cell `a`, which has that text. -/
structure Entry (m : Interning F) (value : StringT) (a : Addr) : Prop where
  found : ∃ x, m.find value = some x ∧ m.heap.cellOf (.var x) = some a
  text : m.heap.look a = some (.string value)

/-- The counters are right, and every text of the map has its cell. -/
structure Interned (depth : Nat) (m : Interning F) : Prop where
  reached : Heap.Reached depth m.heap
  entries : ∀ value x, m.find value = some x → ∃ a, Entry m value a

/-- No text loses its cell. -/
def Grown (m m' : Interning F) : Prop := ∀ value a, Entry m value a → Entry m' value a

variable {depth : Nat} {m m' : Interning F} {value : StringT} {a b x : Nat}

omit [LT F] [DecidableLT F] in
theorem interned_find (hx : m.find value = some x) (he : Entry m value a) : m.heap.cellOf (.var x) = some a := by
  obtain ⟨y, hy, ha⟩ := he.found
  obtain rfl := Option.some.inj (hx.symm.trans hy)
  exact ha

/-- An operation that has no object of the map for its target keeps every entry. -/
theorem Interned.exec {h : Heap F} {op : Op F} (hm : Interned depth m) (hk : Heap.Keeps m.heap op)
    (ht : ∀ value x, m.find value = some x → op.target ≠ some (.var x)) (he : m.heap.exec depth op = .ok h) :
    Interned depth { m with heap := h } ∧ Grown m { m with heap := h } := by
  have hgrown : Grown m { m with heap := h } := by
    intro value a hv
    obtain ⟨x, hx, ha⟩ := hv.found
    obtain ⟨ha', htext⟩ := hm.reached.exec_string hk he ha hv.text (ht value x hx)
    exact ⟨⟨x, hx, ha'⟩, htext⟩
  refine ⟨⟨.step hm.reached hk he, fun value x hx => ?_⟩, hgrown⟩
  obtain ⟨a, hv⟩ := hm.entries value x hx
  exact ⟨a, hgrown value a hv⟩

omit [LT F] [DecidableLT F] in
/-- The map with one text more. -/
theorem find_snoc (h : Heap F) (v w : StringT) (y : Nat) :
    (⟨h, m.m_str_map ++ [(v, y)]⟩ : Interning F).find w = (m.find w).or (if w = v then some y else none) := by
  unfold find
  rw [List.lookup_append]
  congr 1
  by_cases hw : w = v
  · rw [if_pos hw, hw, List.lookup_cons_self]
  · rw [if_neg hw, List.lookup_cons, beq_false_of_ne hw]
    rfl

/-- The objects of the map are among those of the heap. -/
theorem Interned.lt_vars (hm : Interned depth m) (hx : m.find value = some x) : x < m.heap.vars.length := by
  obtain ⟨a, hv⟩ := hm.entries value x hx
  exact (List.getElem?_eq_some_iff.mp (Heap.cellOf_var.mp (interned_find hx hv))).1

/-- **A literal that is known** shares its cell. -/
theorem literal_known {s : StringT} (hm : Interned depth m) (hc : Countable m s) (hx : m.find (textOf s) = some x) :
    ∃ m' a, m.varCLiteral depth s = .ok m' ∧ Interned depth m' ∧ Grown m m'
      ∧ m'.heap.cellOf (.var m.heap.vars.length) = some a ∧ Entry m' (textOf s) a := by
  obtain ⟨a, hv⟩ := hm.entries _ x hx
  have ha := interned_find hx hv
  have hs := hm.reached.sound
  have hk : Heap.Keeps m.heap (.copyConstruct (.var x)) := by
    refine ⟨fun p hp => ?_, fun t => ?_, fun p q b hop => by cases hop⟩
    · rw [List.mem_singleton.mp hp, ha]
      rfl
    · have ht : m.heap.handleCount t < 2 ^ 31 := hs.few t
      have hat := hc x a hx ha
      simp only [Op.sources, List.filterMap_cons, ha, List.filterMap_nil, List.count_singleton]
      split
      · rename_i hta
        rw [beq_iff_eq.mp hta] at hat
        exact hat
      · omega
  obtain ⟨h', he, hnew⟩ := Heap.copyConstruct_spec depth hs hk ha
  obtain ⟨hm', hgrown⟩ := hm.exec hk (fun _ _ _ => by simp [Op.target]) he
  refine ⟨{ m with heap := h' }, a, ?_, hm', hgrown, hnew, hgrown _ a hv⟩
  simp only [varCLiteral, hx, he]
  rfl

omit [LT F] [DecidableLT F] in
/-- One text more in the map, on a cell that has it. -/
theorem Entry.snoc {h : Heap F} {y : Nat} (hx : m.find value = none) (hy : h.cellOf (.var y) = some a)
    (ht : h.look a = some (.string value)) : Entry ⟨h, m.m_str_map ++ [(value, y)]⟩ value a := by
  refine ⟨⟨y, ?_, hy⟩, ht⟩
  rw [find_snoc, hx, if_pos rfl]
  rfl

omit [LT F] [DecidableLT F] in
theorem Entry.snoc_old {h : Heap F} {v : StringT} {y : Nat} (he : Entry { m with heap := h } v a) (value : StringT) :
    Entry ⟨h, m.m_str_map ++ [(value, y)]⟩ v a := by
  obtain ⟨x, hx, ha⟩ := he.found
  have hfind : m.find v = some x := hx
  refine ⟨⟨x, ?_, ha⟩, he.text⟩
  rw [find_snoc, hfind]
  rfl

theorem Interned.snoc {h : Heap F} {y : Nat} (hm : Interned depth { m with heap := h }) (hx : m.find value = none)
    (hy : h.cellOf (.var y) = some a) (ht : h.look a = some (.string value)) :
    Interned depth ⟨h, m.m_str_map ++ [(value, y)]⟩ := by
  refine ⟨hm.reached, fun v x hv => ?_⟩
  by_cases hvv : v = value
  · rw [hvv]
    exact ⟨a, Entry.snoc hx hy ht⟩
  · rw [find_snoc, if_neg hvv, Option.or_none] at hv
    obtain ⟨b, hb⟩ := hm.entries v x hv
    exact ⟨b, hb.snoc_old value⟩

/-- The heap with a cell for the text and a blank, each with an object. -/
def twoMore (h : Heap F) (value : StringT) : Heap F :=
  let h₁ := (h.alloc (.string value)).push h.cells.length
  (h₁.alloc .blank).push h₁.cells.length

section TwoMore

omit [LT F] [DecidableLT F]

variable (h : Heap F) (value : StringT)

theorem twoMore_this : (twoMore h value).cellOf (.var h.vars.length) = some h.cells.length := by
  rw [Heap.cellOf_var]
  exact getElem?_push List.getElem?_concat_length _

theorem twoMore_next : (twoMore h value).cellOf (.var (h.vars.length + 1)) = some (h.cells.length + 1) := by
  have hvars : (h.vars ++ [some h.cells.length]).length = h.vars.length + 1 := List.length_append
  have hcells : (h.alloc (.string value)).cells.length = h.cells.length + 1 := List.length_append
  rw [Heap.cellOf_var, ← hvars, ← hcells]
  exact List.getElem?_concat_length

theorem twoMore_cell : get (twoMore h value).cells h.cells.length = some ⟨1, .string value⟩ := by
  have hcells : (h.alloc (.string value)).cells.length = h.cells.length + 1 := List.length_append
  have hlt : h.cells.length < (h.alloc (.string value)).cells.length := by omega
  exact (get_append_old hlt).trans get_append_new

/-- `m_str_map[value] = *this` after it. -/
theorem keeps_assign (hs : Heap.Sound (twoMore h value) []) :
    Heap.Keeps (twoMore h value) (.assign (.var (h.vars.length + 1)) (.var h.vars.length)) := by
  have hthis := twoMore_this h value
  refine ⟨fun p hp => ?_, fun t => ?_, fun p q a hop _ r hr c hc => ?_⟩
  · rcases List.mem_pair.mp hp with rfl | rfl
    · rw [twoMore_next]
      rfl
    · rw [hthis]
      rfl
  · have ht : (twoMore h value).handleCount t < 2 ^ 31 := hs.few t
    have hone : (twoMore h value).handleCount h.cells.length = 1 := hs.handleCount_eq (twoMore_cell h value)
    simp only [Op.sources, List.filterMap_cons, hthis, List.filterMap_nil, List.count_singleton]
    split
    · rename_i hta
      rw [← beq_iff_eq.mp hta, hone]
      decide
    · omega
  -- neither operand lies in a cell
  · obtain ⟨rfl, rfl⟩ : Place.var (h.vars.length + 1) = p ∧ Place.var h.vars.length = q := by simpa using hop
    rcases List.mem_pair.mp hr with rfl | rfl <;> simp [Place.holder] at hc

end TwoMore

/-- **A literal that is new** gets a cell, and the map an object on it. -/
theorem literal_new {s : StringT} (hm : Interned depth m) (hx : m.find (textOf s) = none) :
    ∃ m' a, m.varCLiteral depth s = .ok m' ∧ Interned depth m' ∧ Grown m m'
      ∧ m'.heap.cellOf (.var m.heap.vars.length) = some a ∧ Entry m' (textOf s) a := by
  have hthis := twoMore_this m.heap (textOf s)
  have hnext := twoMore_next m.heap (textOf s)
  have hlook : (twoMore m.heap (textOf s)).look m.heap.cells.length = some (.string (textOf s)) :=
    Heap.look_eq_some.mpr ⟨_, twoMore_cell m.heap (textOf s), rfl⟩
  -- the two constructors
  have hk₁ := hm.reached.sound.keeps_construct (.string (textOf s))
  obtain ⟨hm₁, hg₁⟩ := hm.exec hk₁ (fun _ _ _ => by simp [Op.target]) rfl
  have hk₂ := hm₁.reached.sound.keeps_construct .blank
  obtain ⟨hm₂, hg₂⟩ := hm₁.exec (h := twoMore m.heap (textOf s)) hk₂ (fun _ _ _ => by simp [Op.target]) rfl
  -- the map's object leaves the blank for the new cell
  have hs₂ := hm₂.reached.sound
  have hk₃ := keeps_assign m.heap (textOf s) hs₂
  obtain ⟨h₃, he₃, -, hown⟩ := Heap.assign_sound hs₂ hthis (by rw [Heap.assignable, hnext]; rfl)
    (fun t => by simpa [Op.sources, hthis] using hk₃.below t) (hk₃.outlives _ _ _ rfl hthis)
  have ht₃ : ∀ v x, m.find v = some x →
      (Op.assign (.var (m.heap.vars.length + 1)) (.var m.heap.vars.length) : Op F).target ≠ some (.var x) := by
    intro v x hv h
    have hlt := hm.lt_vars hv
    simp only [Op.target, Option.some.injEq, Place.var.injEq] at h
    omega
  obtain ⟨hm₃, hg₃⟩ := hm₂.exec hk₃ ht₃ he₃
  obtain ⟨hthis₃, hlook₃⟩ := hm₂.reached.exec_string hk₃ he₃ hthis hlook (by simp [Op.target])
  refine ⟨⟨h₃, m.m_str_map ++ [(textOf s, m.heap.vars.length + 1)]⟩, m.heap.cells.length, ?_,
    hm₃.snoc hx hown hlook₃, fun v a hv => ?_, hthis₃, Entry.snoc hx hown hlook₃⟩
  · have he : (twoMore m.heap (textOf s)).exec depth
        (.assign (.var (m.heap.vars.length + 1)) (.var m.heap.vars.length)) = .ok h₃ := he₃
    simp only [varCLiteral, hx]
    exact Heap.bind_eq_ok.mpr ⟨_, rfl, Heap.bind_eq_ok.mpr ⟨_, rfl, Heap.bind_eq_ok.mpr ⟨_, he, rfl⟩⟩⟩
  · exact (hg₃ v a (hg₂ v a (hg₁ v a hv))).snoc_old (textOf s)

/-- **Every literal** goes through, and the object it makes leads to the cell of its text. -/
theorem literal_spec {s : StringT} (hm : Interned depth m) (hc : Countable m s) :
    ∃ m' a, m.varCLiteral depth s = .ok m' ∧ Interned depth m' ∧ Grown m m'
      ∧ m'.heap.cellOf (.var m.heap.vars.length) = some a ∧ Entry m' (textOf s) a := by
  cases hx : m.find (textOf s) with
  | some x => exact literal_known hm hc hx
  | none => exact literal_new hm hx

/-- One step keeps the map and the cells of its texts. -/
theorem Interned.step (hm : Interned depth m) (h : Step depth m m') : Interned depth m' ∧ Grown m m' := by
  cases h with
  | op op hk hown he =>
      exact hm.exec hk (fun v x hx ht => hown v x hx (Op.target_mem ht)) he
  | literal s hc he =>
      obtain ⟨m'', a, he', hm'', hg, -⟩ := literal_spec hm hc
      obtain rfl := Except.ok.inj (he.symm.trans he')
      exact ⟨hm'', hg⟩

/-- Any number of steps do. -/
theorem Interned.run (hm : Interned depth m) (h : Run depth m m') : Interned depth m' ∧ Grown m m' := by
  induction h with
  | refl => exact ⟨hm, fun _ _ hv => hv⟩
  | tail _ hstep ih =>
      obtain ⟨hm', hg⟩ := ih.1.step hstep
      exact ⟨hm', fun v a hv => hg v a (ih.2 v a hv)⟩

theorem interned_empty : Interned depth (empty : Interning F) :=
  ⟨.empty, fun value x hx => by simp [empty, find] at hx⟩

/-- **String literals are shared.** After any run of literals and other operations a literal makes an object on a
    live cell with its text, and after any further run, whatever became of that object, the cell still has the
    text. A second literal goes through, touching no deleted cell, and its object leads to the same cell exactly
    when the two texts agree up to their first NUL. -/
theorem literals_shared {m₀ m₁ m₂ : Interning F} {s t : StringT} (hr : Run depth empty m₀)
    (hs : Countable m₀ s) (h₁ : m₀.varCLiteral depth s = .ok m₁) (hrun : Run depth m₁ m₂) (ht : Countable m₂ t) :
    ∃ m₃ a b, m₂.varCLiteral depth t = .ok m₃
      ∧ m₁.heap.cellOf (.var m₀.heap.vars.length) = some a ∧ m₂.heap.look a = some (.string (textOf s))
      ∧ m₃.heap.cellOf (.var m₂.heap.vars.length) = some b ∧ m₃.heap.look b = some (.string (textOf t))
      ∧ (a = b ↔ textOf s = textOf t) := by
  have hm₀ := (interned_empty.run hr).1
  obtain ⟨m₁', a, h₁', hm₁, -, ha, hea₁⟩ := literal_spec hm₀ hs
  obtain rfl := Except.ok.inj (h₁.symm.trans h₁')
  obtain ⟨hm₂, hg₂⟩ := hm₁.run hrun
  have hea₂ := hg₂ _ a hea₁
  obtain ⟨m₃, b, h₃, hm₃, hg₃, hb, heb⟩ := literal_spec hm₂ ht
  have hea₃ := hg₃ _ a hea₂
  refine ⟨m₃, a, b, h₃, ha, hea₂.text, hb, heb.text, ?_, ?_⟩
  · intro hab
    have htext := hea₃.text
    rw [hab, heb.text] at htext
    exact (Data.string.inj (Option.some.inj htext)).symm
  · intro hst
    -- one text has one entry
    obtain ⟨x, hx, hxa⟩ := hea₃.found
    rw [hst] at hx
    exact Option.some.inj (hxa.symm.trans (interned_find hx heb))

end Constructor

/-- `{ var_c v{"a"}; } var_c w{"a\0b"};` -/
theorem literals_shared_a :
    let m₁ : Interning Nat := ⟨⟨[some ⟨2, .string [0x61]⟩, none], [some 0, some 0]⟩, [([0x61], 1)]⟩
    let m₂ : Interning Nat := ⟨⟨[some ⟨1, .string [0x61]⟩, none], [none, some 0]⟩, [([0x61], 1)]⟩
    ∃ m₃ a b, m₂.varCLiteral 1 [0x61, 0, 0x62] = .ok m₃
      ∧ m₁.heap.cellOf (.var 0) = some a ∧ m₂.heap.look a = some (.string (textOf [0x61]))
      ∧ m₃.heap.cellOf (.var 2) = some b ∧ m₃.heap.look b = some (.string (textOf [0x61, 0, 0x62]))
      ∧ (a = b ↔ textOf [0x61] = textOf [0x61, 0, 0x62]) := by
  intro m₁ m₂
  have hs : Countable (empty : Interning Nat) [0x61] := fun x a hx _ => by simp [empty, find] at hx
  have hdestroy : Step 1 m₁ m₂ := by
    refine .op (.destroy 0) (.of_places (by decide) (by decide) (by simp)) (fun v x hx hmem => ?_) rfl
    obtain rfl : 0 = x := by simpa [Op.places, eq_comm] using hmem
    simp only [m₁, find, List.lookup_cons, List.lookup_nil] at hx
    split at hx <;> simp at hx
  have ht : Countable m₂ [0x61, 0, 0x62] := by
    intro x a hx ha
    have hx1 : x = 1 := by simpa [m₂, find, textOf, List.lookup_cons, List.lookup_nil, eq_comm] using hx
    rw [hx1] at ha
    obtain rfl : 0 = a := by simpa [m₂, Heap.cellOf, handleAt] using ha
    decide
  have h₁ : (empty : Interning Nat).varCLiteral 1 [0x61] = .ok m₁ := rfl
  exact literals_shared .refl hs h₁ (.single hdestroy) ht

end Interning
end Cclvar
end Cclib
