import Mathlib.Algebra.GroupWithZero.Nat
import Mathlib.Data.List.Basic

/-!
# `Lib.Vectors` — vectors in memory, and references to their elements

A vector has its elements in a buffer; where the buffer is full, `pushBack` moves them to a larger one and gives the
old one back. A reference names a buffer and a place in it, so that it dangles once the buffer is gone. By how much a
buffer grows is a parameter.

What a push does to the memory is said once (`pushBack_spec`): it needs the buffer of the vector, leaves every other one
as it is, and makes at most one new. Where the buffer has room, references into it stay good (`pushBack_in_place`);
where it has not, they dangle (`pushBack_moved`).

## Contents
- `Buffer`, `Memory`, `Ref`, `deref`, `write`, `alloc`, `pushBack`.
- `buffer_set`, `buffer_alloc`: what an update leaves.
- `write_spec`, `pushBack_spec`, `pushBack_in_place`, `pushBack_moved`.
- `double`, `Moved`, `Doubled`, `Doubled.push`: which references are good behind pushes to a vector that doubles.
- `Doubled.frame`, `Doubled.write`: what else is done to the memory.
-/

namespace Cclib
namespace Vectors

variable {α : Type}

/-- Elements one after the other, and for how many there is room. -/
structure Buffer (α : Type) where
  elems : List α
  capacity : Nat
deriving DecidableEq, Repr

/-- The buffers by number; `none` is one that was given back. -/
abbrev Memory (α : Type) := List (Option (Buffer α))

/-- A vector: its buffer, once it has one. -/
abbrev Vec := Option Nat

/-- The address of an element. -/
structure Ref where
  buffer : Nat
  index : Nat
deriving DecidableEq, Repr

def buffer (m : Memory α) (b : Nat) : Option (Buffer α) := (m[b]?).join

/-- The elements of a vector; `none` where its buffer is gone. -/
def elems (m : Memory α) : Vec → Option (List α)
  | none => some []
  | some b => (buffer m b).map Buffer.elems

/-- What a reference leads to; `none` where it dangles. -/
def deref (m : Memory α) (p : Ref) : Option α := do
  let buf ← buffer m p.buffer
  buf.elems[p.index]?

/-- An update through a reference. -/
def write (m : Memory α) (p : Ref) (f : α → α) : Option (Memory α) := do
  let buf ← buffer m p.buffer
  let a ← buf.elems[p.index]?
  return m.set p.buffer (some { buf with elems := buf.elems.set p.index (f a) })

/-- A new buffer. -/
def alloc (m : Memory α) (buf : Buffer α) : Memory α := m ++ [some buf]

/-- `push_back`: the memory, the vector, and a reference to the new element. -/
def pushBack (grow : Nat → Nat) (m : Memory α) (v : Vec) (a : α) : Option (Memory α × Vec × Ref) :=
  match v with
  | none => some (alloc m ⟨[a], grow 0⟩, some m.length, ⟨m.length, 0⟩)
  | some b => do
    let buf ← buffer m b
    if buf.elems.length < buf.capacity then
      return (m.set b (some { buf with elems := buf.elems ++ [a] }), some b, ⟨b, buf.elems.length⟩)
    else
      return (alloc (m.set b none) ⟨buf.elems ++ [a], grow buf.capacity⟩, some m.length, ⟨m.length, buf.elems.length⟩)

variable {m m' : Memory α} {b c n : Nat} {buf : Buffer α} {o : Option (Buffer α)} {p : Ref} {v v' : Vec} {a x : α}
  {xs : List α} {grow : Nat → Nat} {f : α → α}

/-! ## Single buffers -/

theorem buffer_eq_some : buffer m b = some buf ↔ m[b]? = some (some buf) := Option.join_eq_some_iff

theorem lt_of_buffer (h : buffer m b = some buf) : b < m.length :=
  (List.getElem?_eq_some_iff.mp (buffer_eq_some.mp h)).1

theorem buffer_of_ge (h : m.length ≤ b) : buffer m b = none := by
  rw [buffer, List.getElem?_eq_none h]
  rfl

theorem buffer_set (h : b < m.length) : buffer (m.set b o) c = if c = b then o else buffer m c := by
  rw [buffer, List.getElem?_set]
  by_cases hc : c = b
  · subst hc
    rw [if_pos rfl, if_pos rfl, if_pos h]
    rfl
  · rw [if_neg (fun h => hc h.symm), if_neg hc]
    rfl

theorem buffer_alloc : buffer (alloc m buf) c = if c = m.length then some buf else buffer m c := by
  unfold buffer alloc
  rcases Nat.lt_trichotomy c m.length with hc | rfl | hc
  · rw [List.getElem?_append_left hc, if_neg (Nat.ne_of_lt hc)]
  · rw [List.getElem?_concat_length, if_pos rfl]
    rfl
  · rw [List.getElem?_eq_none (by rw [List.length_append, List.length_singleton]; omega),
      List.getElem?_eq_none (Nat.le_of_lt hc), if_neg (Nat.ne_of_gt hc)]

theorem deref_of_buffer (h : buffer m p.buffer = some buf) : deref m p = buf.elems[p.index]? := by
  rw [deref, h]
  rfl

theorem deref_of_gone (h : buffer m p.buffer = none) : deref m p = none := by
  rw [deref, h]
  rfl

/-! ## Writing -/

/-- **Writing** through a reference changes its element, and no other buffer. -/
theorem write_spec (h : deref m p = some a) :
    ∃ buf, buffer m p.buffer = some buf ∧ ∃ m', write m p f = some m' ∧
      buffer m' p.buffer = some { buf with elems := buf.elems.set p.index (f a) } ∧ m'.length = m.length ∧
      ∀ c, c ≠ p.buffer → buffer m' c = buffer m c := by
  obtain ⟨buf, hbuf, ha⟩ := Option.bind_eq_some_iff.mp h
  refine ⟨buf, hbuf, m.set p.buffer (some { buf with elems := buf.elems.set p.index (f a) }), ?_, ?_, ?_, ?_⟩
  · rw [write, hbuf]
    change (buf.elems[p.index]?).bind _ = _
    rw [ha]
    rfl
  · rw [buffer_set (lt_of_buffer hbuf), if_pos rfl]
  · exact List.length_set
  · intro c hc
    rw [buffer_set (lt_of_buffer hbuf), if_neg hc]

theorem write_of_dangling (h : deref m p = none) : write m p f = none := by
  unfold deref at h
  unfold write
  cases hbuf : buffer m p.buffer with
  | none => rfl
  | some buf =>
      rw [hbuf] at h
      have hnone : buf.elems[p.index]? = none := h
      change (buf.elems[p.index]?).bind _ = none
      rw [hnone]
      rfl

/-! ## Pushing -/

/-- **A push** puts the element at the end. It touches no buffer but that of the vector, and the one it makes when it
    moves the elements; then the old one is gone. -/
theorem pushBack_spec (grow : Nat → Nat) (a : α) (h : elems m v = some xs) :
    ∃ m' b c, pushBack grow m v a = some (m', some b, ⟨b, xs.length⟩) ∧ buffer m' b = some ⟨xs ++ [a], c⟩ ∧
      (b ∈ v ∨ b = m.length) ∧ ∀ d, d ≠ b → buffer m' d = if d ∈ v then none else buffer m d := by
  cases v with
  | none =>
      obtain rfl : [] = xs := Option.some.inj h
      refine ⟨_, m.length, grow 0, rfl, ?_, Or.inr rfl, ?_⟩
      · rw [buffer_alloc, if_pos rfl]
        rfl
      · intro d hd
        rw [buffer_alloc, if_neg hd, if_neg (by simp)]
  | some b₀ =>
      obtain ⟨buf, hbuf, rfl⟩ := Option.map_eq_some_iff.mp h
      have hlt := lt_of_buffer hbuf
      by_cases hroom : buf.elems.length < buf.capacity
      · refine ⟨m.set b₀ (some { buf with elems := buf.elems ++ [a] }), b₀, buf.capacity, ?_, ?_, Or.inl rfl, ?_⟩
        · simp only [pushBack, hbuf]
          exact if_pos hroom
        · rw [buffer_set hlt, if_pos rfl]
        · intro d hd
          rw [buffer_set hlt, if_neg hd, if_neg (fun h => hd (Option.mem_some_iff.mp h).symm)]
      · refine ⟨alloc (m.set b₀ none) ⟨buf.elems ++ [a], grow buf.capacity⟩, m.length, grow buf.capacity, ?_, ?_,
          Or.inr rfl, ?_⟩
        · simp only [pushBack, hbuf]
          exact if_neg hroom
        · rw [buffer_alloc, List.length_set, if_pos rfl]
        · intro d hd
          rw [buffer_alloc, List.length_set, if_neg hd, buffer_set hlt]
          by_cases hdb : d = b₀
          · rw [if_pos hdb, if_pos (hdb ▸ rfl)]
          · rw [if_neg hdb, if_neg (fun h => hdb (Option.mem_some_iff.mp h).symm)]

/-- Where there is room nothing moves. -/
theorem pushBack_in_place (hbuf : buffer m b = some buf) (hroom : buf.elems.length < buf.capacity) :
    pushBack grow m (some b) a =
      some (m.set b (some { buf with elems := buf.elems ++ [a] }), some b, ⟨b, buf.elems.length⟩) := by
  simp only [pushBack, hbuf]
  exact if_pos hroom

/-- Where there is none the elements go to a new buffer. -/
theorem pushBack_moved (hbuf : buffer m b = some buf) (hfull : ¬ buf.elems.length < buf.capacity) :
    pushBack grow m (some b) a = some (alloc (m.set b none) ⟨buf.elems ++ [a], grow buf.capacity⟩, some m.length,
      ⟨m.length, buf.elems.length⟩) := by
  simp only [pushBack, hbuf]
  exact if_neg hfull

/-! ## Doubling -/

/-- The growth by which a buffer doubles. -/
def double (c : Nat) : Nat := c + max c 1

/-- The elements have moved between the push of the `i`-th and the end of `n` pushes. -/
def Moved (i n : Nat) : Prop := ∃ k, i < 2 ^ k ∧ 2 ^ k < n

/-- A vector that has doubled from nothing, and the references that its pushes gave: such a reference is good as long
    as the elements have not moved since. -/
structure Doubled (m : Memory α) (v : Vec) (xs : List α) (refs : List Ref) : Prop where
  vector : xs = [] ∧ v = none ∨
    ∃ b k, v = some b ∧ buffer m b = some ⟨xs, 2 ^ k⟩ ∧ xs.length ≤ 2 ^ k ∧ 2 ^ k < 2 * xs.length
  length : refs.length = xs.length
  ref : ∀ i, i < xs.length → ∃ p, refs[i]? = some p ∧ p.buffer < m.length ∧
    (Moved i xs.length → buffer m p.buffer = none) ∧ (¬ Moved i xs.length → v = some p.buffer ∧ p.index = i)

variable {refs : List Ref} {i : Nat}

theorem doubled_nil (m : Memory α) : Doubled m none [] [] where
  vector := Or.inl ⟨rfl, rfl⟩
  length := rfl
  ref := fun _ h => absurd h (Nat.not_lt_zero _)

theorem not_moved_last (n : Nat) : ¬ Moved n (n + 1) := by
  rintro ⟨k, hlt, hle⟩
  omega

/-- Between two powers of two nothing moves. -/
theorem moved_succ_of_room {k : Nat} (hlt : n < 2 ^ k) (hle : 2 ^ k < 2 * n) : Moved i (n + 1) ↔ Moved i n := by
  constructor
  · rintro ⟨j, hij, hjn⟩
    refine ⟨j, hij, ?_⟩
    -- `2 ^ j` is not `n`, for it would be a power of two below `2 ^ k` and above its half
    rcases Nat.lt_or_ge j k with hjk | hkj
    · have hhalf : 2 ^ (j + 1) ≤ 2 ^ k := Nat.pow_le_pow_right (by decide) hjk
      rw [Nat.pow_succ] at hhalf
      omega
    · have hge : 2 ^ k ≤ 2 ^ j := Nat.pow_le_pow_right (by decide) hkj
      omega
  · rintro ⟨j, hij, hjn⟩
    exact ⟨j, hij, Nat.lt_succ_of_lt hjn⟩

theorem Doubled.elems (h : Doubled m v xs refs) : elems m v = some xs := by
  rcases h.vector with ⟨rfl, rfl⟩ | ⟨b, k, rfl, hbuf, -, -⟩
  · rfl
  · exact congrArg (Option.map Buffer.elems) hbuf

/-- A reference is good exactly as long as nothing has moved. -/
theorem Doubled.deref_iff (h : Doubled m v xs refs) (hp : refs[i]? = some p) :
    (Moved i xs.length → deref m p = none) ∧ (¬ Moved i xs.length → deref m p = xs[i]?) := by
  have hi : i < xs.length := h.length ▸ (List.getElem?_eq_some_iff.mp hp).1
  obtain ⟨q, hq, -, hmoved, hstays⟩ := h.ref i hi
  obtain rfl := Option.some.inj (hp.symm.trans hq)
  refine ⟨fun hm => deref_of_gone (hmoved hm), fun hm => ?_⟩
  obtain ⟨hv, hindex⟩ := hstays hm
  rcases h.vector with ⟨rfl, -⟩ | ⟨b, k, hb, hbuf, -, -⟩
  · exact absurd hi (Nat.not_lt_zero _)
  · obtain rfl := Option.some.inj (hv.symm.trans hb)
    rw [deref_of_buffer hbuf, hindex]

/-- The references so far, and the new one. -/
theorem getElem?_refs (h : Doubled m v xs refs) (hi : i < (xs ++ [x]).length) :
    (i < xs.length ∧ (refs ++ [p])[i]? = refs[i]?) ∨ (i = xs.length ∧ (refs ++ [p])[i]? = some p) := by
  rw [List.length_append, List.length_singleton] at hi
  rcases Nat.lt_or_ge i xs.length with hlt | hge
  · exact Or.inl ⟨hlt, List.getElem?_append_left (h.length ▸ hlt)⟩
  · obtain rfl : i = xs.length := by omega
    refine Or.inr ⟨rfl, ?_⟩
    rw [← h.length, List.getElem?_concat_length]

theorem Doubled.length_refs (h : Doubled m v xs refs) : (refs ++ [p]).length = (xs ++ [x]).length := by
  rw [List.length_append, h.length, List.length_append]
  rfl

/-- The first push. -/
theorem Doubled.push_first (h : Doubled m v [] refs) (x : α) :
    Doubled (alloc m ⟨[x], double 0⟩) (some m.length) ([] ++ [x]) (refs ++ [⟨m.length, 0⟩]) where
  vector := by
    refine Or.inr ⟨m.length, 0, rfl, ?_, Nat.le_refl 1, Nat.lt_succ_self 1⟩
    rw [buffer_alloc, if_pos rfl]
    rfl
  length := h.length_refs
  ref := by
    intro i hi
    rcases getElem?_refs (p := ⟨m.length, 0⟩) h hi with ⟨hlt, -⟩ | ⟨rfl, hp⟩
    · exact absurd hlt (Nat.not_lt_zero _)
    · refine ⟨_, hp, ?_, fun hm => absurd hm (not_moved_last 0), fun _ => ⟨rfl, rfl⟩⟩
      rw [alloc, List.length_append]
      exact Nat.lt_succ_self _

/-- A push where there is room. -/
theorem Doubled.push_room {k : Nat} (h : Doubled m (some b) xs refs) (hbuf : buffer m b = some ⟨xs, 2 ^ k⟩)
    (hroom : xs.length < 2 ^ k) (hlt : 2 ^ k < 2 * xs.length) (x : α) :
    Doubled (m.set b (some ⟨xs ++ [x], 2 ^ k⟩)) (some b) (xs ++ [x]) (refs ++ [⟨b, xs.length⟩]) where
  vector := by
    have hb := lt_of_buffer hbuf
    refine Or.inr ⟨b, k, rfl, ?_, ?_, ?_⟩
    · rw [buffer_set hb, if_pos rfl]
    · rw [List.length_append, List.length_singleton]
      exact hroom
    · rw [List.length_append, List.length_singleton]
      omega
  length := h.length_refs
  ref := by
    have hb := lt_of_buffer hbuf
    intro i hi
    have hcase := getElem?_refs (p := ⟨b, xs.length⟩) h hi
    rw [List.length_append, List.length_singleton, moved_succ_of_room hroom hlt]
    rcases hcase with ⟨hi, hp⟩ | ⟨rfl, hp⟩
    · obtain ⟨q, hq, hqlt, hmoved, hstays⟩ := h.ref i hi
      refine ⟨q, hp.trans hq, by rw [List.length_set]; exact hqlt, fun hm => ?_, hstays⟩
      rw [buffer_set hb, if_neg, hmoved hm]
      rintro heq
      rw [← heq, hmoved hm] at hbuf
      cases hbuf
    · refine ⟨_, hp, by rw [List.length_set]; exact hb, fun hm => ?_, fun _ => ⟨rfl, rfl⟩⟩
      obtain ⟨j, h₁, h₂⟩ := hm
      omega

/-- A push where the buffer is full: whatever was in it moves. -/
theorem Doubled.push_full {k : Nat} (h : Doubled m (some b) xs refs) (hbuf : buffer m b = some ⟨xs, 2 ^ k⟩)
    (hfull : xs.length = 2 ^ k) (x : α) :
    Doubled (alloc (m.set b none) ⟨xs ++ [x], double (2 ^ k)⟩) (some m.length) (xs ++ [x])
      (refs ++ [⟨m.length, xs.length⟩]) where
  vector := by
    have hpos : 0 < 2 ^ k := Nat.pow_pos (by decide)
    have hdouble : double (2 ^ k) = 2 ^ (k + 1) := by
      rw [double, Nat.max_eq_left hpos, Nat.pow_succ]
      omega
    refine Or.inr ⟨m.length, k + 1, rfl, ?_, ?_, ?_⟩
    · rw [buffer_alloc, List.length_set, if_pos rfl, hdouble]
    · rw [List.length_append, List.length_singleton, Nat.pow_succ]
      omega
    · rw [List.length_append, List.length_singleton, Nat.pow_succ]
      omega
  length := h.length_refs
  ref := by
    intro i hi
    have hlength : (alloc (m.set b none) ⟨xs ++ [x], double (2 ^ k)⟩).length = m.length + 1 := by
      rw [alloc, List.length_append, List.length_set]
      rfl
    have hcase := getElem?_refs (p := ⟨m.length, xs.length⟩) h hi
    rw [List.length_append, List.length_singleton, hlength]
    rcases hcase with ⟨hi, hp⟩ | ⟨rfl, hp⟩
    · obtain ⟨q, hq, hqlt, hmoved, hstays⟩ := h.ref i hi
      refine ⟨q, hp.trans hq, by omega, fun _ => ?_, fun hm => absurd ⟨k, hfull ▸ hi, by omega⟩ hm⟩
      rw [buffer_alloc, List.length_set, if_neg (Nat.ne_of_lt hqlt), buffer_set (lt_of_buffer hbuf)]
      by_cases hqb : q.buffer = b
      · rw [if_pos hqb]
      · rw [if_neg hqb]
        -- it was elsewhere already
        by_contra hgone
        have hnot : ¬ Moved i xs.length := fun hm => hgone (hmoved hm)
        exact hqb (Option.some.inj (hstays hnot).1).symm
    · exact ⟨_, hp, Nat.lt_succ_self _, fun hm => absurd hm (not_moved_last _), fun _ => ⟨rfl, rfl⟩⟩

/-- **One push more.** -/
theorem Doubled.push (h : Doubled m v xs refs) (x : α) :
    ∃ m' v' p, pushBack double m v x = some (m', v', p) ∧ Doubled m' v' (xs ++ [x]) (refs ++ [p]) := by
  rcases h.vector with ⟨rfl, rfl⟩ | ⟨b, k, rfl, hbuf, hle, hlt⟩
  · exact ⟨_, _, _, rfl, h.push_first x⟩
  · by_cases hroom : xs.length < 2 ^ k
    · exact ⟨_, _, _, pushBack_in_place hbuf hroom, h.push_room hbuf hroom hlt x⟩
    · exact ⟨_, _, _, pushBack_moved hbuf hroom, h.push_full hbuf (by omega) x⟩

/-- A push makes no buffer disappear from the count. -/
theorem pushBack_length (h : pushBack grow m v a = some (m', v', p)) : m.length ≤ m'.length := by
  cases v with
  | none =>
      obtain ⟨rfl, -⟩ := Prod.mk.inj (Option.some.inj h)
      exact List.length_append ▸ Nat.le_add_right _ _
  | some b =>
      obtain ⟨buf, hbuf, h⟩ := Option.bind_eq_some_iff.mp h
      split at h
      · obtain ⟨rfl, -⟩ := Prod.mk.inj (Option.some.inj h)
        exact Nat.le_of_eq List.length_set.symm
      · obtain ⟨rfl, -⟩ := Prod.mk.inj (Option.some.inj h)
        rw [alloc, List.length_append, List.length_set]
        exact Nat.le_add_right _ _

/-- **Framing**: a vector is as it was, and its references are, where its buffer is and no buffer that was gone comes
    back. -/
theorem Doubled.frame (h : Doubled m v xs refs) (hlive : ∀ b ∈ v, buffer m' b = buffer m b)
    (hlen : m.length ≤ m'.length) (hgone : ∀ b, b < m.length → buffer m b = none → buffer m' b = none) :
    Doubled m' v xs refs where
  vector := by
    rcases h.vector with hnil | ⟨b, k, hv, hbuf, hle, hlt⟩
    · exact Or.inl hnil
    · exact Or.inr ⟨b, k, hv, (hlive b hv).trans hbuf, hle, hlt⟩
  length := h.length
  ref := by
    intro i hi
    obtain ⟨q, hq, hqlt, hmoved, hstays⟩ := h.ref i hi
    exact ⟨q, hq, Nat.lt_of_lt_of_le hqlt hlen, fun hm => hgone _ hqlt (hmoved hm), hstays⟩

/-- **Writing** through a reference that is good changes its element. -/
theorem Doubled.write (h : Doubled m v xs refs) (hp : refs[i]? = some p) (hx : xs[i]? = some x) (hmoved : ¬ Moved i xs.length)
    (f : α → α) :
    v = some p.buffer ∧ ∃ m', Vectors.write m p f = some m' ∧ Doubled m' v (xs.set i (f x)) refs ∧
      m'.length = m.length ∧ ∀ c, c ≠ p.buffer → buffer m' c = buffer m c := by
  have hderef : deref m p = some x := ((h.deref_iff hp).2 hmoved).trans hx
  obtain ⟨hi, -⟩ := List.getElem?_eq_some_iff.mp hx
  obtain ⟨q, hq, -, -, hstays⟩ := h.ref i hi
  obtain rfl := Option.some.inj (hp.symm.trans hq)
  obtain ⟨hv, hindex⟩ := hstays hmoved
  obtain ⟨buf, hbuf, m', hwrite, hself, hlen, hothers⟩ := write_spec (f := f) hderef
  refine ⟨hv, m', hwrite, ⟨?_, ?_, ?_⟩, hlen, hothers⟩
  · rcases h.vector with ⟨rfl, -⟩ | ⟨b, k, hb, hbuf', hle, hlt⟩
    · exact absurd hi (Nat.not_lt_zero _)
    · obtain rfl := Option.some.inj (hv.symm.trans hb)
      obtain rfl := Option.some.inj (hbuf.symm.trans hbuf')
      rw [hindex] at hself
      rw [List.length_set]
      exact Or.inr ⟨_, k, hb, hself, hle, hlt⟩
  · rw [List.length_set]
    exact h.length
  · intro j hj
    rw [List.length_set] at hj ⊢
    obtain ⟨r, hr, hrlt, hgone, hgood⟩ := h.ref j hj
    refine ⟨r, hr, by rw [hlen]; exact hrlt, fun hm => ?_, hgood⟩
    rw [hothers, hgone hm]
    rintro heq
    rw [← heq, hgone hm] at hbuf
    cases hbuf

/-- The reference of the last push. -/
theorem Doubled.deref_last (h : Doubled m v (xs ++ [x]) (refs ++ [p])) : deref m p = some x := by
  have hlen : refs.length = xs.length := by
    have hlen := h.length
    rw [List.length_append, List.length_append] at hlen
    exact Nat.add_right_cancel hlen
  have hlast : (refs ++ [p])[xs.length]? = some p := by rw [← hlen, List.getElem?_concat_length]
  rw [(h.deref_iff hlast).2 (by rw [List.length_append]; exact not_moved_last _), List.getElem?_concat_length]

end Vectors
end Cclib
