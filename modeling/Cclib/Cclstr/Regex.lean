import Cclib.Cclstr.Split
import Mathlib.Algebra.Group.Int.Defs
import Mathlib.Algebra.Group.Nat.Defs

/-!
# `Cclstr.Regex` — `regex_c`

A compiled pattern is what `regexec` does with it: for a C string and a number of entries it gives these entries, or
reports no match. `split` and `replace` hand `regexec` the string from a position on, of which it sees what stands
before the next NUL, and go on behind the match. What is assumed of `regexec` stands at each result: where the
matches it reports for the positions of a string lie (`InBounds`, `Consumes`, `GroupsInBounds`).

As with `Cclstr.Split`, both loops follow a cutting of the string, now at the matches (`nextMatch`). A match that
ends where it was looked for is found again in the next round: such a round of `split` does not go forward, and there
is no cutting.

## Contents
- `RegmatchT`, `RegexC`: the match offsets, signed, and the compiled pattern.
- `RegexC.matches`, `splitBody`, `replaceBody`, `matchSub`.
- **Cuttings.** `nextMatch`, `split_of_cut`, `replace_of_cut`.
- **Results.** `regex_returns_iff`, `regex_replace_eq_join_split`, `match_sub_iff`.
-/

namespace Cclib
namespace Cclstr

open Cuts

/-- `regmatch_t`; `regoff_t` is `int`. -/
structure RegmatchT where
  rm_so : Int32
  rm_eo : Int32
deriving DecidableEq, Repr

/-- `regex_c`. -/
structure RegexC where
  m_regex : StringT → (nmatch : Nat) → Option (Vector RegmatchT nmatch)

/-- `std::string::npos`. -/
def npos : Nat := 2 ^ 64 - 1

/-- The conversion of an `int` to `size_t`. -/
def sizeT (i : Int32) : Nat := (i.toInt % 2 ^ 64).toNat

/-- What a C function sees of a string from position `pos` on. -/
def cStringAt (s : StringT) (pos : Nat) : StringT := (s.drop pos).takeWhile (· ≠ 0)

/-- `regex_c::match`. -/
def RegexC.matches (r : RegexC) (a_string : StringT) : Bool := (r.m_regex (cStringAt a_string 0) 1).isSome

namespace RegexC

/-! ## `regex_c` -/

/-- One round of the loop of `split`, with `last_pos` and the tokens so far. -/
def splitBody (r : RegexC) (a_string : StringT) : Loop.Body (Nat × List StringT) (Except Error (List StringT))
  | (last_pos, a_tokens) =>
    match r.m_regex (cStringAt a_string last_pos) 1 with
    | some regmatch =>
      match substr a_string last_pos (sizeT regmatch[0].rm_so) with
      | .ok token => some (.inl (last_pos + sizeT regmatch[0].rm_eo, a_tokens ++ [token]))
      | .error e => some (.inr (.error e))
    | none =>
      match substrFrom a_string last_pos with
      | .ok token => some (.inr (.ok (a_tokens ++ [token])))
      | .error e => some (.inr (.error e))

/-- `split`. -/
def split (r : RegexC) (a_string : StringT) (fuel : Nat) : Option (Except Error (List StringT)) :=
  Loop.run (r.splitBody a_string) fuel (0, [])

/-- One round of the loop of `replace`, with `pos` and the result so far. -/
def replaceBody (r : RegexC) (a_source a_new : StringT) : Loop.Body (Nat × StringT) (Except Error StringT)
  | (old_pos, result) =>
    match r.m_regex (cStringAt a_source old_pos) 1 with
    | some regmatch =>
      let pos := old_pos + sizeT regmatch[0].rm_so
      match substr a_source old_pos (pos - old_pos) with
      | .ok part =>
        if a_source.length ≤ pos then some (.inr (.ok (result ++ part)))
        else some (.inl (pos + sizeT (regmatch[0].rm_eo - regmatch[0].rm_so), result ++ part ++ a_new))
      | .error e => some (.inr (.error e))
    | none =>
      -- `pos` is the length, where the loop is left.
      match substr a_source old_pos (a_source.length - old_pos) with
      | .ok part => some (.inr (.ok (result ++ part)))
      | .error e => some (.inr (.error e))

/-- `replace`. -/
def replace (r : RegexC) (a_source a_new : StringT) (fuel : Nat) : Option (Except Error StringT) :=
  Loop.run (r.replaceBody a_source a_new) fuel (0, [])

/-- `match_sub` with `regmatch_t` entries: what it fills in where `regexec` reports a match. -/
def matchSubRegmatch (r : RegexC) (a_string : StringT) (a_nmatch : Nat) :
    Except Error (Option (Vector RegmatchT a_nmatch)) :=
  if a_nmatch < 1 then .error .regexWrongMatchCount else .ok (r.m_regex (cStringAt a_string 0) a_nmatch)

/-- The loop of `match_sub` over the entries; `a_matches` keeps what was added before an exception. -/
def pushMatches (a_string : StringT) : List RegmatchT → List StringT → Except Error Unit × List StringT
  | [], a_matches => (.ok (), a_matches)
  | match_i :: rest, a_matches =>
    match substr a_string (sizeT match_i.rm_so) (sizeT (match_i.rm_eo - match_i.rm_so)) with
    | .ok text => pushMatches a_string rest (a_matches ++ [text])
    | .error e => (.error e, a_matches)

/-- `match_sub` with strings: what it returns or throws, and `a_matches` after it. -/
def matchSub (r : RegexC) (a_string : StringT) (a_nmatch : Nat) (a_matches : List StringT) :
    Except Error Bool × List StringT :=
  match r.matchSubRegmatch a_string a_nmatch with
  | .error e => (.error e, a_matches)
  | .ok none => (.ok false, a_matches)
  | .ok (some regmatches) =>
    match pushMatches a_string regmatches.toList [] with
    | (.ok (), texts) => (.ok true, texts)
    | (.error e, texts) => (.error e, texts)

end RegexC

/-! ## Offsets -/

theorem toInt_bounds (i : Int32) : -2 ^ 31 ≤ i.toInt ∧ i.toInt < 2 ^ 31 := ⟨i.le_toInt, i.toInt_lt⟩

theorem sizeT_of_nonneg {i : Int32} (h : 0 ≤ i.toInt) : (sizeT i : Int) = i.toInt := by
  have hb := toInt_bounds i
  rw [sizeT, Int.toNat_of_nonneg (by omega)]
  omega

theorem sizeT_sub {i j : Int32} (hj : 0 ≤ j.toInt) (h : j.toInt ≤ i.toInt) : sizeT (i - j) = sizeT i - sizeT j := by
  have hi := toInt_bounds i
  have hsub : (i - j).toInt = i.toInt - j.toInt := by
    rw [Int32.toInt_sub, Int.bmod_eq_of_le] <;> omega
  have h₁ := sizeT_of_nonneg (i := i - j) (by omega)
  have h₂ := sizeT_of_nonneg hj
  have h₃ := sizeT_of_nonneg (i := i) (by omega)
  omega

/-- The offsets are those of a part of the C string. -/
def RegmatchT.Within (m : RegmatchT) (t : StringT) : Prop :=
  0 ≤ m.rm_so.toInt ∧ m.rm_so.toInt ≤ m.rm_eo.toInt ∧ m.rm_eo.toInt ≤ t.length

/-- `rm_so = rm_eo = -1`. -/
def RegmatchT.Unmatched (m : RegmatchT) : Prop := m.rm_so = -1 ∧ m.rm_eo = -1

instance (m : RegmatchT) (t : StringT) : Decidable (m.Within t) := inferInstanceAs (Decidable (_ ∧ _ ∧ _))

instance (m : RegmatchT) : Decidable m.Unmatched := inferInstanceAs (Decidable (_ ∧ _))

theorem length_cStringAt_le (s : StringT) (p : Nat) : (cStringAt s p).length ≤ s.length - p := by
  have h := (List.takeWhile_prefix (fun b : UInt8 => decide (b ≠ 0)) (l := s.drop p)).length_le
  rwa [List.length_drop] at h

/-- The offsets of a match, as positions. -/
theorem RegmatchT.Within.positions {m : RegmatchT} {s : StringT} {p : Nat} (h : m.Within (cStringAt s p))
    (hp : p ≤ s.length) : sizeT m.rm_so ≤ sizeT m.rm_eo ∧ p + sizeT m.rm_eo ≤ s.length := by
  obtain ⟨hso, hle, heo⟩ := h
  have hlen := length_cStringAt_le s p
  have h₁ := sizeT_of_nonneg hso
  have h₂ := sizeT_of_nonneg (Int.le_trans hso hle)
  omega

/-! ## Cuttings -/

namespace RegexC

/-- The matches that `regexec` reports from a position on. -/
def nextMatch (r : RegexC) (s : StringT) : Matcher := fun p =>
  (r.m_regex (cStringAt s p) 1).map (fun m => (p + sizeT m[0].rm_so, p + sizeT m[0].rm_eo))

/-- A match reported for a position of `s` lies in what `regexec` was handed. -/
def InBounds (r : RegexC) (s : StringT) : Prop :=
  ∀ p ≤ s.length, ∀ m, r.m_regex (cStringAt s p) 1 = some m → m[0].Within (cStringAt s p)

/-- Such a match is not empty either. -/
def Consumes (r : RegexC) (s : StringT) : Prop :=
  ∀ p ≤ s.length, ∀ m, r.m_regex (cStringAt s p) 1 = some m →
    0 ≤ m[0].rm_so.toInt ∧ m[0].rm_so.toInt < m[0].rm_eo.toInt ∧ m[0].rm_eo.toInt ≤ (cStringAt s p).length

theorem Consumes.inBounds {r : RegexC} {s : StringT} (h : r.Consumes s) : r.InBounds s := by
  intro p hp m hm
  obtain ⟨hso, hlt, heo⟩ := h p hp m hm
  exact ⟨hso, Int.le_of_lt hlt, heo⟩

variable {r : RegexC} {s a_new : StringT} {p i j : Nat}

theorem nextMatch_eq_some : r.nextMatch s p = some (i, j) ↔ ∃ m, r.m_regex (cStringAt s p) 1 = some m ∧
    i = p + sizeT (getElem m 0 Nat.one_pos).rm_so ∧ j = p + sizeT (getElem m 0 Nat.one_pos).rm_eo := by
  rw [nextMatch, Option.map_eq_some_iff]
  constructor
  · rintro ⟨m, hm, h⟩
    obtain ⟨rfl, rfl⟩ := Prod.mk.inj h
    exact ⟨m, hm, rfl, rfl⟩
  · rintro ⟨m, hm, rfl, rfl⟩
    exact ⟨m, hm, rfl⟩

theorem nextMatch_eq_none : r.nextMatch s p = none ↔ r.m_regex (cStringAt s p) 1 = none := Option.map_eq_none_iff

theorem InBounds.within (h : r.InBounds s) : (r.nextMatch s).Within s := by
  intro p hp i j hsome
  obtain ⟨m, hm, rfl, rfl⟩ := nextMatch_eq_some.mp hsome
  obtain ⟨hle, hj⟩ := (h p hp m hm).positions hp
  exact ⟨Nat.le_add_right _ _, by omega, hj⟩

/-- A round of `split` with a match. -/
theorem splitBody_cut (ts : List StringT) (hp : p ≤ s.length) (h : r.nextMatch s p = some (i, j)) :
    r.splitBody s (p, ts) = some (.inl (j, ts ++ [slice s p i])) := by
  obtain ⟨m, hm, rfl, rfl⟩ := nextMatch_eq_some.mp h
  have hslice := substr_slice (i := p + sizeT m[0].rm_so) hp
  rw [Nat.add_sub_cancel_left] at hslice
  simp only [splitBody, hm, hslice]

/-- The round of `split` behind the last match. -/
theorem splitBody_last (ts : List StringT) (hp : p ≤ s.length) (h : r.nextMatch s p = none) :
    r.splitBody s (p, ts) = some (.inr (.ok (ts ++ [s.drop p]))) := by
  simp only [splitBody, nextMatch_eq_none.mp h, substrFrom_drop hp]

/-- `split` returns the pieces of the cutting. -/
theorem split_of_cut (hbounds : r.InBounds s) {cuts : List (StringT × StringT)} {last : StringT}
    (h : Cut (r.nextMatch s) s 0 cuts last) : ∃ fuel, r.split s fuel = some (.ok (tokens cuts last)) := by
  have hret : Loop.Returns (r.splitBody s) (0, []) (.ok (cuts.foldl (fun ts c => ts ++ [c.1]) [] ++ [last])) :=
    h.returns (fun ts c => ts ++ [c.1]) (fun ts last => .ok (ts ++ [last])) hbounds.within
      (fun _ ts _ _ hp => splitBody_cut ts hp) (fun _ ts hp => splitBody_last ts hp) (Nat.zero_le _) []
  rwa [foldl_tokens] at hret

/-- What `split` returns comes from a cutting. -/
theorem cut_of_split (hbounds : r.InBounds s) {fuel : Nat} {out : Except Error (List StringT)}
    (h : r.split s fuel = some out) : ∃ cuts last, Cut (r.nextMatch s) s 0 cuts last :=
  cut_of_returns (fun ts c => ts ++ [c.1]) hbounds.within (fun _ ts _ _ hp => splitBody_cut ts hp)
    (Nat.zero_le _) ⟨fuel, h⟩

/-- A round of `replace` with a match that begins before the end: the offsets add up to `rm_eo`. -/
theorem replaceBody_cut (out : StringT) (hbounds : r.InBounds s) (hp : p ≤ s.length)
    (h : r.nextMatch s p = some (i, j)) (hi : i < s.length) :
    r.replaceBody s a_new (p, out) = some (.inl (j, out ++ slice s p i ++ a_new)) := by
  obtain ⟨m, hm, rfl, rfl⟩ := nextMatch_eq_some.mp h
  obtain ⟨hso, hle, heo⟩ := hbounds p hp m hm
  have hpos := (hbounds p hp m hm).positions hp
  have hjump : p + sizeT m[0].rm_so + sizeT (m[0].rm_eo - m[0].rm_so) = p + sizeT m[0].rm_eo := by
    rw [sizeT_sub hso hle]
    omega
  simp only [replaceBody, hm, substr_slice hp]
  rw [if_neg (by omega), hjump]

/-- The round of `replace` with a match that begins at the end. -/
theorem replaceBody_end (out : StringT) (hp : p ≤ s.length) (h : r.nextMatch s p = some (i, j))
    (hi : s.length ≤ i) :
    r.replaceBody s a_new (p, out) = some (.inr (.ok (out ++ slice s p i))) := by
  obtain ⟨m, hm, rfl, rfl⟩ := nextMatch_eq_some.mp h
  simp only [replaceBody, hm, substr_slice hp]
  rw [if_pos hi]

/-- The round of `replace` behind the last match. -/
theorem replaceBody_last (out : StringT) (hp : p ≤ s.length) (h : r.nextMatch s p = none) :
    r.replaceBody s a_new (p, out) = some (.inr (.ok (out ++ s.drop p))) := by
  have hslice : slice s p s.length = s.drop p := List.take_of_length_le List.length_drop.le
  simp only [replaceBody, nextMatch_eq_none.mp h, substr_slice hp, hslice]

/-- `replace` returns the cutting with the new text for each match, provided none is empty. -/
theorem replace_of_cut (h : r.Consumes s) {cuts : List (StringT × StringT)} {last : StringT}
    (hcut : Cut (r.nextMatch s) s 0 cuts last) :
    ∃ fuel, r.replace s a_new fuel = some (.ok (join (tokens cuts last) a_new)) := by
  have hround : ∀ p (out : StringT) i j, p ≤ s.length → r.nextMatch s p = some (i, j) →
      r.replaceBody s a_new (p, out) = some (.inl (j, out ++ slice s p i ++ a_new)) := by
    intro p out i j hp hsome
    refine replaceBody_cut out h.inBounds hp hsome ?_
    -- The match has a first byte.
    obtain ⟨m, hm, rfl, rfl⟩ := nextMatch_eq_some.mp hsome
    obtain ⟨hso, hlt, _⟩ := h p hp m hm
    have hpos := (h.inBounds p hp m hm).positions hp
    have h₁ := sizeT_of_nonneg hso
    have h₂ := sizeT_of_nonneg (i := m[0].rm_eo) (by omega)
    omega
  have hret : Loop.Returns (r.replaceBody s a_new) (0, [])
      (.ok (cuts.foldl (fun out c => out ++ c.1 ++ a_new) [] ++ last)) :=
    hcut.returns (fun out c => out ++ c.1 ++ a_new) (fun out last => .ok (out ++ last)) h.inBounds.within hround
      (fun _ out hp => replaceBody_last out hp) (Nat.zero_le _) []
  rwa [foldl_filled, List.nil_append, ← join_tokens] at hret

/-- A pattern that matches nothing empty cuts every string. -/
theorem Consumes.exists_cut (h : r.Consumes s) : ∃ cuts last, Cut (r.nextMatch s) s 0 cuts last := by
  rw [cut_iff h.inBounds.within]
  intro p hp i j hsome
  obtain ⟨m, hm, rfl, rfl⟩ := nextMatch_eq_some.mp hsome
  obtain ⟨hso, hlt, _⟩ := h p (hp.le_length h.inBounds.within) m hm
  have h₂ := sizeT_of_nonneg (i := m[0].rm_eo) (by omega)
  omega

/-! ## Patterns -/

/-- The pattern of one letter. -/
def letter (b : UInt8) : RegexC where
  m_regex := fun t nmatch => (t.findIdx? (· = b)).map (fun i =>
    Vector.ofFn (fun k : Fin nmatch => if k.val = 0 then ⟨Int32.ofNat i, Int32.ofNat (i + 1)⟩ else ⟨-1, -1⟩))

/-- The pattern `^`, which matches the beginning of every string. -/
def caret : RegexC where
  m_regex := fun _ nmatch => some (Vector.ofFn (fun k : Fin nmatch => if k.val = 0 then ⟨0, 0⟩ else ⟨-1, -1⟩))

theorem caret_inBounds (s : StringT) : caret.InBounds s := by
  intro p _ m hm
  obtain rfl := Option.some.inj hm
  refine ⟨?_, ?_, ?_⟩ <;> simp

theorem nextMatch_caret (s : StringT) (p : Nat) : caret.nextMatch s p = some (p, p) := by
  refine nextMatch_eq_some.mpr ⟨_, rfl, ?_, ?_⟩ <;> simp [sizeT]

/-- The matches of `-` in `a-b\0-c` are not empty. -/
theorem dash_consumes : (letter 0x2d).Consumes [0x61, 0x2d, 0x62, 0x00, 0x2d, 0x63] := by
  have h : ∀ p ≤ 6, ((letter 0x2d).m_regex (cStringAt [0x61, 0x2d, 0x62, 0x00, 0x2d, 0x63] p) 1).all
      (fun m => decide (0 ≤ m[0].rm_so.toInt ∧ m[0].rm_so.toInt < m[0].rm_eo.toInt ∧
        m[0].rm_eo.toInt ≤ ((cStringAt [0x61, 0x2d, 0x62, 0x00, 0x2d, 0x63] p).length : Int))) = true := by
    decide
  intro p hp m hm
  exact of_decide_eq_true ((Option.all_eq_true _ _).mp (h p hp) m hm)

/-! ## Results -/

/-- No match, reported for a position where one is looked for, ends there. -/
def Forward (r : RegexC) (s : StringT) : Prop :=
  ∀ p, Chain (r.nextMatch s) p → ∀ m, r.m_regex (cStringAt s p) 1 = some m → m[0].rm_eo ≠ 0

/-- Such matches go forward. -/
theorem InBounds.forward_iff (hbounds : r.InBounds s) :
    r.Forward s ↔ ∀ p, Chain (r.nextMatch s) p → ∀ i j, r.nextMatch s p = some (i, j) → p < j := by
  have heo : ∀ p, Chain (r.nextMatch s) p → ∀ m, r.m_regex (cStringAt s p) 1 = some m →
      (m[0].rm_eo ≠ 0 ↔ p < p + sizeT m[0].rm_eo) := by
    intro p hp m hm
    obtain ⟨hso, hle, _⟩ := hbounds p (hp.le_length hbounds.within) m hm
    have hsize := sizeT_of_nonneg (Int.le_trans hso hle)
    rw [← Int32.toInt_inj.ne, Int32.toInt_zero]
    omega
  constructor
  · intro h p hp i j hsome
    obtain ⟨m, hm, rfl, rfl⟩ := nextMatch_eq_some.mp hsome
    exact (heo p hp m hm).mp (h p hp m hm)
  · intro h p hp m hm
    exact (heo p hp m hm).mpr (h p hp _ _ (nextMatch_eq_some.mpr ⟨m, hm, rfl, rfl⟩))

/-- What a round of `replace` does: it leaves the loop without an exception, or goes on behind the match. -/
theorem replaceBody_cases (a_new out : StringT) (hbounds : r.InBounds s) (hp : p ≤ s.length) :
    (∃ result, r.replaceBody s a_new (p, out) = some (.inr (.ok result))) ∨
      ∃ i j out', r.nextMatch s p = some (i, j) ∧ r.replaceBody s a_new (p, out) = some (.inl (j, out')) := by
  cases hsome : r.nextMatch s p with
  | none => exact Or.inl ⟨_, replaceBody_last out hp hsome⟩
  | some ij =>
      obtain ⟨i, j⟩ := ij
      by_cases hi : i < s.length
      · exact Or.inr ⟨i, j, _, rfl, replaceBody_cut out hbounds hp hsome hi⟩
      · exact Or.inl ⟨_, replaceBody_end out hp hsome (Nat.le_of_not_lt hi)⟩

theorem replaceBody_next {st st' : Nat × StringT} (hbounds : r.InBounds s) (hp : st.1 ≤ s.length)
    (h : Loop.Next (r.replaceBody s a_new) st st') : ∃ i, r.nextMatch s st.1 = some (i, st'.1) := by
  rcases replaceBody_cases a_new st.2 hbounds hp with ⟨result, hdone⟩ | ⟨i, j, out', hsome, hgo⟩
  · exact absurd (h.symm.trans hdone) (by simp)
  · obtain rfl := Sum.inl.inj (Option.some.inj (hgo.symm.trans h))
    exact ⟨i, hsome⟩

/-- Where matches go forward, `replace` returns: each round leaves less of the string. -/
theorem replace_returns (a_new : StringT) (hbounds : r.InBounds s)
    (hforward : ∀ p, Chain (r.nextMatch s) p → ∀ i j, r.nextMatch s p = some (i, j) → p < j) :
    ∃ fuel result, r.replace s a_new fuel = some (.ok result) := by
  have hle : ∀ {p}, Chain (r.nextMatch s) p → p ≤ s.length := fun hp => hp.le_length hbounds.within
  have hstep : ∀ st st' : Nat × StringT, Chain (r.nextMatch s) st.1 → Loop.Next (r.replaceBody s a_new) st st' →
      Chain (r.nextMatch s) st'.1 ∧ s.length - st'.1 < s.length - st.1 := by
    intro st st' hp hst
    obtain ⟨i, hsome⟩ := replaceBody_next hbounds (hle hp) hst
    have hj := hle (hp.next hsome)
    have hlt := hforward _ hp _ _ hsome
    exact ⟨hp.next hsome, by omega⟩
  have hround : ∀ st : Nat × StringT, Chain (r.nextMatch s) st.1 →
      ∃ out, r.replaceBody s a_new st = some out := by
    intro st hp
    rcases replaceBody_cases a_new st.2 hbounds (hle hp) with ⟨result, hdone⟩ | ⟨i, j, out', _, hgo⟩
    · exact ⟨_, hdone⟩
    · exact ⟨_, hgo⟩
  obtain ⟨result, hret⟩ : ∃ result, Loop.Returns (r.replaceBody s a_new) (0, []) result :=
    Loop.returns_of_variant Nat.lt_wfRel.wf (fun st => s.length - st.1) (fun st => Chain (r.nextMatch s) st.1)
      hround hstep Chain.zero
  -- The round that leaves the loop throws nothing.
  obtain ⟨st, hreach, hdone⟩ := hret.exit
  have hp : Chain (r.nextMatch s) st.1 :=
    hreach.invariant (fun st => Chain (r.nextMatch s) st.1) (fun st st' hp hst => (hstep st st' hp hst).1) Chain.zero
  rcases replaceBody_cases a_new st.2 hbounds (hle hp) with ⟨result', hdone'⟩ | ⟨i, j, out', _, hgo⟩
  · obtain rfl := Sum.inr.inj (Option.some.inj (hdone.symm.trans hdone'))
    obtain ⟨fuel, hfuel⟩ := hret
    exact ⟨fuel, result', hfuel⟩
  · exact absurd (hdone.symm.trans hgo) (by simp)

/-- **Termination.** `split` and `replace` return exactly where no match, reported for a position where one is looked
for, ends at this position. -/
theorem regex_returns_iff (r : RegexC) (s : StringT) (hbounds : r.InBounds s) :
    ((∃ fuel tokens, r.split s fuel = some (.ok tokens)) ∧
      ∀ a_new, ∃ fuel result, r.replace s a_new fuel = some (.ok result)) ↔ r.Forward s := by
  rw [hbounds.forward_iff]
  constructor
  · rintro ⟨⟨fuel, ts, h⟩, _⟩
    exact (cut_iff hbounds.within).mp (cut_of_split hbounds h)
  · intro hforward
    obtain ⟨cuts, last, hcut⟩ := (cut_iff hbounds.within).mpr hforward
    obtain ⟨fuel, h⟩ := split_of_cut hbounds hcut
    exact ⟨⟨fuel, _, h⟩, fun a_new => replace_returns a_new hbounds hforward⟩

/-- The pattern `-` on `a-b\0-c`. -/
theorem dash_returns_iff :
    ((∃ fuel tokens, (letter 0x2d).split [0x61, 0x2d, 0x62, 0x00, 0x2d, 0x63] fuel = some (.ok tokens)) ∧
      ∀ a_new, ∃ fuel result,
        (letter 0x2d).replace [0x61, 0x2d, 0x62, 0x00, 0x2d, 0x63] a_new fuel = some (.ok result)) ↔
      (letter 0x2d).Forward [0x61, 0x2d, 0x62, 0x00, 0x2d, 0x63] :=
  regex_returns_iff (letter 0x2d) [0x61, 0x2d, 0x62, 0x00, 0x2d, 0x63] dash_consumes.inBounds

/-- The pattern `^` on `abc`: neither `split` nor `replace` returns. -/
theorem caret_does_not_return : caret.InBounds [0x61, 0x62, 0x63] ∧
    (¬ ∃ fuel tokens, caret.split [0x61, 0x62, 0x63] fuel = some (.ok tokens)) ∧
    ¬ ∃ fuel result, caret.replace [0x61, 0x62, 0x63] [] fuel = some (.ok result) := by
  have hbounds := caret_inBounds [0x61, 0x62, 0x63]
  refine ⟨hbounds, ?_, ?_⟩
  · rintro ⟨fuel, ts, h⟩
    obtain ⟨cuts, last, hcut⟩ := cut_of_split hbounds h
    exact hcut.ne_of_stuck (nextMatch_caret _ 0)
  · rintro ⟨fuel, result, h⟩
    refine Loop.not_returns (fun st : Nat × StringT => st.1 = 0) ?_ rfl ⟨fuel, h⟩
    rintro ⟨p, out⟩ rfl
    exact ⟨_, .single (replaceBody_cut out hbounds (Nat.zero_le _) (nextMatch_caret _ 0) (by decide)), rfl⟩

/-- **Replacement.** The tokens of `split` and the matches between them are the string, and `replace` returns the
tokens joined by the new text. -/
theorem regex_replace_eq_join_split (r : RegexC) (s a_new : StringT) (hr : r.Consumes s) :
    ∃ cuts last, Cut (r.nextMatch s) s 0 cuts last ∧ (∃ fuel, r.split s fuel = some (.ok (tokens cuts last))) ∧
      (∃ fuel, r.replace s a_new fuel = some (.ok (join (tokens cuts last) a_new))) ∧
      cuts.flatMap (fun c => c.1 ++ c.2) ++ last = s := by
  obtain ⟨cuts, last, hcut⟩ := hr.exists_cut
  exact ⟨cuts, last, hcut, split_of_cut hr.inBounds hcut, replace_of_cut hr hcut,
    hcut.text hr.inBounds.within (Nat.zero_le _)⟩

/-- The pattern `-` on `a-b\0-c`: `regexec` does not see the second one. -/
theorem dash_replace_eq_join_split :
    ∃ cuts last, Cut ((letter 0x2d).nextMatch [0x61, 0x2d, 0x62, 0x00, 0x2d, 0x63])
        [0x61, 0x2d, 0x62, 0x00, 0x2d, 0x63] 0 cuts last ∧
      (∃ fuel, (letter 0x2d).split [0x61, 0x2d, 0x62, 0x00, 0x2d, 0x63] fuel = some (.ok (tokens cuts last))) ∧
      (∃ fuel, (letter 0x2d).replace [0x61, 0x2d, 0x62, 0x00, 0x2d, 0x63] [0x2b] fuel =
        some (.ok (join (tokens cuts last) [0x2b]))) ∧
      cuts.flatMap (fun c => c.1 ++ c.2) ++ last = [0x61, 0x2d, 0x62, 0x00, 0x2d, 0x63] :=
  regex_replace_eq_join_split (letter 0x2d) [0x61, 0x2d, 0x62, 0x00, 0x2d, 0x63] [0x2b] dash_consumes

/-! ## Groups -/

/-- What the caller gets of an entry: the part of the string, or nothing for a group without a match. -/
def groupText (s : StringT) (m : RegmatchT) : StringT :=
  if m.Unmatched then [] else slice s (sizeT m.rm_so) (sizeT m.rm_eo)

/-- The entries of a match lie in the C string or are unmatched. -/
def GroupsInBounds (r : RegexC) (s : StringT) (nmatch : Nat) : Prop :=
  ∀ ms, r.m_regex (cStringAt s 0) nmatch = some ms → ∀ m ∈ ms, m.Unmatched ∨ m.Within (cStringAt s 0)

/-- `match_sub` tells whether there is a match, and what each group matched. -/
def ReturnsGroups (r : RegexC) (s : StringT) (a_nmatch : Nat) (a_matches : List StringT) : Prop :=
  (r.matchSub s a_nmatch a_matches).1 = .ok (r.m_regex (cStringAt s 0) a_nmatch).isSome ∧
    (∀ ms, r.m_regex (cStringAt s 0) a_nmatch = some ms →
      (r.matchSub s a_nmatch a_matches).2 = ms.toList.map (groupText s)) ∧
    (r.m_regex (cStringAt s 0) a_nmatch = none → (r.matchSub s a_nmatch a_matches).2 = a_matches)

theorem substr_within {m : RegmatchT} (h : m.Within (cStringAt s 0)) :
    substr s (sizeT m.rm_so) (sizeT (m.rm_eo - m.rm_so)) = .ok (slice s (sizeT m.rm_so) (sizeT m.rm_eo)) := by
  have hpos := h.positions (Nat.zero_le _)
  rw [sizeT_sub h.1 h.2.1, substr_slice (by omega)]

/-- `-1` is `npos` as a position, which lies behind every string. -/
theorem substr_unmatched {m : RegmatchT} (hs : s.length < npos) (h : m.Unmatched) (n : Nat) :
    substr s (sizeT m.rm_so) n = .error .outOfRange := by
  have hnpos : sizeT m.rm_so = npos := by rw [h.1]; decide
  rw [hnpos, substr, if_pos hs]

theorem within_not_unmatched {m : RegmatchT} {t : StringT} (h : m.Within t) : ¬ m.Unmatched := by
  rintro ⟨hso, _⟩
  have := h.1
  rw [hso] at this
  exact absurd this (by decide)

/-- Entries that matched are added one after the other. -/
theorem pushMatches_of_within {l : List RegmatchT} (h : ∀ m ∈ l, m.Within (cStringAt s 0)) (ts : List StringT) :
    pushMatches s l ts = (.ok (), ts ++ l.map (groupText s)) := by
  induction l generalizing ts with
  | nil => simp [pushMatches]
  | cons m l ih =>
      have hm := h m List.mem_cons_self
      rw [pushMatches, substr_within hm]
      show pushMatches s l (ts ++ [slice s (sizeT m.rm_so) (sizeT m.rm_eo)]) = _
      rw [ih (fun m' hm' => h m' (List.mem_cons_of_mem m hm')), List.map_cons, groupText,
        if_neg (within_not_unmatched hm), List.append_assoc, List.singleton_append]

/-- The first entry without a match throws. -/
theorem pushMatches_of_unmatched (hs : s.length < npos) {l : List RegmatchT}
    (h : ∀ m ∈ l, m.Unmatched ∨ m.Within (cStringAt s 0)) (hun : ∃ m ∈ l, m.Unmatched) (ts : List StringT) :
    (pushMatches s l ts).1 = .error .outOfRange := by
  induction l generalizing ts with
  | nil =>
      obtain ⟨m, hm, _⟩ := hun
      exact absurd hm List.not_mem_nil
  | cons m l ih =>
      rcases h m List.mem_cons_self with hm | hm
      · rw [pushMatches, substr_unmatched hs hm]
      · obtain ⟨m', hm', hun'⟩ := hun
        have hl : m' ∈ l := by
          rcases List.mem_cons.mp hm' with rfl | hl
          · exact absurd hun' (within_not_unmatched hm)
          · exact hl
        rw [pushMatches, substr_within hm]
        exact ih (fun m'' hm'' => h m'' (List.mem_cons_of_mem m hm'')) ⟨m', hl, hun'⟩ _

/-- `match_sub` with a match: the outcome of the loop. -/
theorem matchSub_of_some {n : Nat} (a_matches : List StringT) (hn : 1 ≤ n) {ms : Vector RegmatchT n}
    (hms : r.m_regex (cStringAt s 0) n = some ms) :
    r.matchSub s n a_matches =
      ((pushMatches s ms.toList []).1.map (fun _ => true), (pushMatches s ms.toList []).2) := by
  rw [matchSub, matchSubRegmatch, if_neg (by omega), hms]
  cases h : pushMatches s ms.toList [] with
  | mk outcome texts =>
      cases outcome with
      | ok _ => simp only [h, Except.map]
      | error e => simp only [h, Except.map]

theorem matchSub_of_none {n : Nat} (a_matches : List StringT) (hn : 1 ≤ n)
    (hms : r.m_regex (cStringAt s 0) n = none) : r.matchSub s n a_matches = (.ok false, a_matches) := by
  rw [matchSub, matchSubRegmatch, if_neg (by omega), hms]

/-- **Groups.** `match_sub` returns every group exactly where `regexec` does not report one of them as unmatched. -/
theorem match_sub_iff (r : RegexC) (s : StringT) (a_nmatch : Nat) (a_matches : List StringT) (hn : 1 ≤ a_nmatch)
    (hs : s.length < npos) (hgroups : r.GroupsInBounds s a_nmatch) :
    r.ReturnsGroups s a_nmatch a_matches ↔
      ∀ ms, r.m_regex (cStringAt s 0) a_nmatch = some ms → ∀ m ∈ ms, ¬ m.Unmatched := by
  cases hms : r.m_regex (cStringAt s 0) a_nmatch with
  | none =>
      have hcall := matchSub_of_none a_matches hn hms
      constructor
      · intro _ ms h
        exact absurd h (by simp)
      · intro _
        refine ⟨?_, ?_, ?_⟩
        · rw [hcall, hms]
          rfl
        · intro ms h
          exact absurd (hms.symm.trans h) (by simp)
        · intro _
          rw [hcall]
  | some ms =>
      have hcall := matchSub_of_some a_matches hn hms
      have hgs : ∀ m ∈ ms.toList, m.Unmatched ∨ m.Within (cStringAt s 0) := by
        intro m hm
        exact hgroups ms hms m (Vector.mem_toList_iff.mp hm)
      constructor
      · rintro ⟨hok, _⟩ ms' h m hm hun
        obtain rfl := Option.some.inj h
        have herr := pushMatches_of_unmatched hs hgs ⟨m, Vector.mem_toList_iff.mpr hm, hun⟩ []
        rw [hcall, herr] at hok
        exact absurd hok (by simp [Except.map])
      · intro hall
        have hloop := pushMatches_of_within (s := s) (l := ms.toList)
          (fun m hm => (hgs m hm).resolve_left (hall ms rfl m (Vector.mem_toList_iff.mp hm))) []
        rw [hloop] at hcall
        refine ⟨?_, ?_, ?_⟩
        · rw [hcall, hms]
          rfl
        · intro ms' h
          obtain rfl := Option.some.inj (hms.symm.trans h)
          rw [hcall]
          rfl
        · intro h
          exact absurd (hms.symm.trans h) (by simp)

/-- The pattern `\(a\)\(b\)`. -/
def twoGroups : RegexC where
  m_regex := fun t nmatch => ((List.range t.length).find? (fun i => (t.drop i).take 2 = [0x61, 0x62])).map (fun i =>
    Vector.ofFn (fun k : Fin nmatch =>
      match k.val with
      | 0 => ⟨Int32.ofNat i, Int32.ofNat (i + 2)⟩
      | 1 => ⟨Int32.ofNat i, Int32.ofNat (i + 1)⟩
      | 2 => ⟨Int32.ofNat (i + 1), Int32.ofNat (i + 2)⟩
      | _ => ⟨-1, -1⟩))

/-- Both groups and the whole match, in the string `xab`. -/
theorem match_sub_two :
    twoGroups.ReturnsGroups [0x78, 0x61, 0x62] 3 [] ↔
      ∀ ms, twoGroups.m_regex (cStringAt [0x78, 0x61, 0x62] 0) 3 = some ms → ∀ m ∈ ms, ¬ m.Unmatched :=
  match_sub_iff twoGroups [0x78, 0x61, 0x62] 3 [] (by decide) (by decide) (by
    intro ms hms m hm
    obtain rfl := Option.some.inj hms
    revert m
    decide)

/-- One entry more than the pattern `a` has groups: an exception. -/
theorem match_sub_oversized : ¬ (letter 0x61).ReturnsGroups [0x61] 2 [] := by
  rintro ⟨hok, _⟩
  exact absurd hok (by decide)

end RegexC

end Cclstr
end Cclib
