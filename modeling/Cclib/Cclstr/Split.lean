import Cclib.Lib.Cuts
import Mathlib.Data.List.Infix

/-!
# `Cclstr.Split` — `split`, `join`, `replace`

`split` and `replace` look for the delimiter in two loops of their own; each is given by its round
(`splitBody`, `replaceBody`) and run with explicit fuel. Positions in a string are `Nat`: they never pass its
length, which a `size_t` holds. `reserve` changes no contents and is left out.

Both loops follow the cutting of the string at the occurrences of the delimiter (`split_of_cut`, `replace_of_cut`),
so what they return is read off the cutting. The empty delimiter occurs at every position, where it is looked for:
there is no cutting, and `split` goes on for ever.

## Contents
- `substr`, `find`: the parts of `std::string`.
- `split`, `join`, `replace`.
- **Occurrences.** `FirstAt`, `find_eq_some`, `find_eq_none`; `delimiter`, the matcher.
- **Cuttings.** `split_of_cut`, `cut_of_split`, `replace_of_cut`.
- **Results.** `split_leftmost`, `replace_eq_join_split`, `split_returns_iff`.
-/

namespace Cclib
namespace Cclstr

open Cuts

/-- The bytes of a `std::string`. -/
abbrev StringT := List UInt8

/-- The exceptions of `cclstr`, and `std::out_of_range` of the parts of a string. -/
inductive Error where
  | regexInvalidExpressionString
  | regexWrongMatchCount
  | outOfRange
deriving DecidableEq, Repr

/-- The message of the exception. -/
def Error.what : Error → Option String
  | .regexInvalidExpressionString => some "invalid regular expression string"
  | .regexWrongMatchCount => some "wrong count of regex matches"
  | .outOfRange => none

/-! ## `std::string` -/

/-- `substr(pos,n)`, and the constructor that copies this part of a string. -/
def substr (s : StringT) (pos n : Nat) : Except Error StringT :=
  if s.length < pos then .error .outOfRange else .ok ((s.drop pos).take n)

/-- The constructor that copies a string from `pos` on. -/
def substrFrom (s : StringT) (pos : Nat) : Except Error StringT :=
  if s.length < pos then .error .outOfRange else .ok (s.drop pos)

/-- `find`; `none` is `npos`. The empty string is found wherever it is looked for up to the end. -/
def find (s d : StringT) (pos : Nat) : Option Nat :=
  (List.range' pos (s.length + 1 - pos)).find? (fun i => d.isPrefixOf (s.drop i))

theorem substr_slice {s : StringT} {p i : Nat} (hp : p ≤ s.length) : substr s p (i - p) = .ok (slice s p i) := by
  rw [substr, if_neg (by omega), slice]

theorem substrFrom_drop {s : StringT} {p : Nat} (hp : p ≤ s.length) : substrFrom s p = .ok (s.drop p) := by
  rw [substrFrom, if_neg (by omega)]

/-! ## `cclstr` -/

/-- One round of the loop of `split`, with `last_pos` and the tokens so far. -/
def splitBody (a_string a_delim : StringT) : Loop.Body (Nat × List StringT) (Except Error (List StringT))
  | (last_pos, a_tokens) =>
    match find a_string a_delim last_pos with
    | some pos =>
      match substr a_string last_pos (pos - last_pos) with
      | .ok token => some (.inl (pos + a_delim.length, a_tokens ++ [token]))
      | .error e => some (.inr (.error e))
    | none =>
      match substrFrom a_string last_pos with
      | .ok token => some (.inr (.ok (a_tokens ++ [token])))
      | .error e => some (.inr (.error e))

/-- `split`. -/
def split (a_string a_delim : StringT) (fuel : Nat) : Option (Except Error (List StringT)) :=
  Loop.run (splitBody a_string a_delim) fuel (0, [])

/-- `join`. -/
def join (a_tokens : List StringT) (a_delim : StringT) : StringT :=
  match a_tokens with
  | [] => []
  | token :: tokens => tokens.foldl (fun result token => result ++ a_delim ++ token) token

/-- One round of the loop of `replace`, with `pos` and the result so far. -/
def replaceBody (a_source a_old a_new : StringT) : Loop.Body (Nat × StringT) (Except Error StringT)
  | (old_pos, result) =>
    let pos := (find a_source a_old old_pos).getD a_source.length
    match substr a_source old_pos (pos - old_pos) with
    | .ok part =>
      if a_source.length ≤ pos then some (.inr (.ok (result ++ part)))
      else some (.inl (pos + a_old.length, result ++ part ++ a_new))
    | .error e => some (.inr (.error e))

/-- `replace`. -/
def replace (a_source a_old a_new : StringT) (fuel : Nat) : Option (Except Error StringT) :=
  if a_old.isEmpty then some (.ok a_source) else Loop.run (replaceBody a_source a_old a_new) fuel (0, [])

/-! ## Occurrences -/

/-- The first position from `p` on at which `d` occurs. -/
def FirstAt (s d : StringT) (p i : Nat) : Prop :=
  p ≤ i ∧ d <+: s.drop i ∧ ∀ k, p ≤ k → k < i → ¬ d <+: s.drop k

variable {s d a_new : StringT} {p i : Nat}

theorem find_eq_some : find s d p = some i ↔ FirstAt s d p i ∧ i ≤ s.length := by
  rw [find, List.find?_range'_eq_some]
  simp only [List.isPrefixOf_iff_prefix, List.mem_range'_1, Bool.not_eq_true', ← Bool.not_eq_true, FirstAt]
  constructor
  · rintro ⟨hi, ⟨hp, hlt⟩, hfirst⟩
    exact ⟨⟨hp, hi, hfirst⟩, by omega⟩
  · rintro ⟨⟨hp, hi, hfirst⟩, hlt⟩
    exact ⟨hi, ⟨hp, by omega⟩, hfirst⟩

theorem find_eq_none : find s d p = none ↔ ∀ k, p ≤ k → k ≤ s.length → ¬ d <+: s.drop k := by
  rw [find, List.find?_range'_eq_none]
  simp only [List.isPrefixOf_iff_prefix, ← Bool.not_eq_true, Bool.not_eq_true']
  constructor
  · intro h k hp hk
    exact h k hp (by omega)
  · intro h k hp hk
    exact h k hp (by omega)

/-- What occurs at a position ends within the text. -/
theorem add_length_le (hi : i ≤ s.length) (h : d <+: s.drop i) : i + d.length ≤ s.length := by
  have hle := h.length_le
  rw [List.length_drop] at hle
  omega

/-- The occurrences of the delimiter. -/
def delimiter (s d : StringT) : Matcher := fun p => (find s d p).map (fun i => (i, i + d.length))

theorem delimiter_eq_some {j : Nat} :
    delimiter s d p = some (i, j) ↔ (FirstAt s d p i ∧ i ≤ s.length) ∧ j = i + d.length := by
  rw [← find_eq_some, delimiter, Option.map_eq_some_iff]
  constructor
  · rintro ⟨k, hk, h⟩
    obtain ⟨rfl, rfl⟩ := Prod.mk.inj h
    exact ⟨hk, rfl⟩
  · rintro ⟨hi, rfl⟩
    exact ⟨i, hi, rfl⟩

theorem delimiter_eq_none : delimiter s d p = none ↔ find s d p = none := Option.map_eq_none_iff

theorem delimiter_within : (delimiter s d).Within s := by
  intro p _ i j h
  obtain ⟨⟨⟨hpi, hocc, _⟩, hi⟩, rfl⟩ := delimiter_eq_some.mp h
  exact ⟨hpi, by omega, add_length_le hi hocc⟩

/-- Every match is the delimiter. -/
theorem slice_of_delimiter {j : Nat} (h : delimiter s d p = some (i, j)) : slice s i j = d := by
  obtain ⟨⟨⟨_, hocc, _⟩, _⟩, rfl⟩ := delimiter_eq_some.mp h
  rw [slice, Nat.add_sub_cancel_left]
  exact (List.prefix_iff_eq_take.mp hocc).symm

/-! ## Cuttings -/

theorem join_eq_intercalate (ts : List StringT) (d : StringT) : join ts d = d.intercalate ts := by
  have hfold : ∀ (ts : List StringT) (t : StringT),
      ts.foldl (fun result token => result ++ d ++ token) t = d.intercalate (t :: ts) := by
    intro ts
    induction ts with
    | nil => intro t; exact List.intercalate_singleton.symm
    | cons u us ih =>
        intro t
        rw [List.foldl_cons, ih, List.intercalate_cons_cons]
        cases us with
        | nil => simp only [List.intercalate_singleton]
        | cons v vs => simp only [List.intercalate_cons_cons, List.append_assoc]
  cases ts with
  | nil => rfl
  | cons t ts => exact hfold ts t

theorem join_tokens (d : StringT) (cuts : List (StringT × StringT)) (last : StringT) :
    join (tokens cuts last) d = cuts.flatMap (fun c => c.1 ++ d) ++ last := by
  rw [join_eq_intercalate, intercalate_tokens]

/-- A round of `split` that finds the delimiter. -/
theorem splitBody_cut {j : Nat} (b : List StringT) (hp : p ≤ s.length) (h : delimiter s d p = some (i, j)) :
    splitBody s d (p, b) = some (.inl (j, b ++ [slice s p i])) := by
  obtain ⟨hfind, rfl⟩ := delimiter_eq_some.mp h
  simp only [splitBody, find_eq_some.mpr hfind, substr_slice hp]

/-- The round of `split` behind the last delimiter. -/
theorem splitBody_last (b : List StringT) (hp : p ≤ s.length) (h : delimiter s d p = none) :
    splitBody s d (p, b) = some (.inr (.ok (b ++ [s.drop p]))) := by
  simp only [splitBody, delimiter_eq_none.mp h, substrFrom_drop hp]

/-- `split` returns the pieces of the cutting. -/
theorem split_of_cut {cuts : List (StringT × StringT)} {last : StringT} (h : Cut (delimiter s d) s 0 cuts last) :
    ∃ fuel, split s d fuel = some (.ok (tokens cuts last)) := by
  have hret : Loop.Returns (splitBody s d) (0, []) (.ok (cuts.foldl (fun ts c => ts ++ [c.1]) [] ++ [last])) :=
    h.returns (fun ts c => ts ++ [c.1]) (fun ts last => .ok (ts ++ [last])) delimiter_within
      (fun _ ts _ _ hp => splitBody_cut ts hp) (fun _ ts hp => splitBody_last ts hp) (Nat.zero_le _) []
  rwa [foldl_tokens] at hret

/-- What `split` returns comes from a cutting. -/
theorem cut_of_split {fuel : Nat} {r : Except Error (List StringT)} (h : split s d fuel = some r) :
    ∃ cuts last, Cut (delimiter s d) s 0 cuts last :=
  cut_of_returns (fun ts c => ts ++ [c.1]) delimiter_within (fun _ ts _ _ hp => splitBody_cut ts hp)
    (Nat.zero_le _) ⟨fuel, h⟩

/-- A round of `replace` that finds the old text. -/
theorem replaceBody_cut {j : Nat} (r : StringT) (hd : d ≠ []) (hp : p ≤ s.length)
    (h : delimiter s d p = some (i, j)) :
    replaceBody s d a_new (p, r) = some (.inl (j, r ++ slice s p i ++ a_new)) := by
  obtain ⟨⟨hfirst, hi⟩, rfl⟩ := delimiter_eq_some.mp h
  -- What is found is not empty, so it begins before the end.
  have hlt : i < s.length := by
    have hle := add_length_le hi hfirst.2.1
    have hpos := List.length_pos_iff.mpr hd
    omega
  simp only [replaceBody, find_eq_some.mpr ⟨hfirst, hi⟩, Option.getD_some, substr_slice hp]
  rw [if_neg (by omega)]

/-- The round of `replace` behind the last old text. -/
theorem replaceBody_last (r : StringT) (hp : p ≤ s.length) (h : delimiter s d p = none) :
    replaceBody s d a_new (p, r) = some (.inr (.ok (r ++ s.drop p))) := by
  simp only [replaceBody, delimiter_eq_none.mp h, Option.getD_none, substr_slice hp, le_refl, if_true, slice,
    List.take_of_length_le (List.length_drop.le)]

/-- `replace` returns the cutting with the new text for each old one. -/
theorem replace_of_cut (hd : d ≠ []) {cuts : List (StringT × StringT)} {last : StringT}
    (h : Cut (delimiter s d) s 0 cuts last) :
    ∃ fuel, replace s d a_new fuel = some (.ok (join (tokens cuts last) a_new)) := by
  have hret : Loop.Returns (replaceBody s d a_new) (0, [])
      (.ok (cuts.foldl (fun r c => r ++ c.1 ++ a_new) [] ++ last)) :=
    h.returns (fun r c => r ++ c.1 ++ a_new) (fun r last => .ok (r ++ last)) delimiter_within
      (fun _ r _ _ hp => replaceBody_cut r hd hp) (fun _ r hp => replaceBody_last r hp) (Nat.zero_le _) []
  obtain ⟨fuel, hfuel⟩ := hret
  refine ⟨fuel, ?_⟩
  rw [replace, if_neg (by simpa using hd), hfuel, foldl_filled, List.nil_append, join_tokens]

/-- A delimiter that is not empty cuts every string. -/
theorem cut_of_ne_nil (hd : d ≠ []) : ∃ cuts last, Cut (delimiter s d) s 0 cuts last := by
  rw [cut_iff delimiter_within]
  intro p _ i j h
  obtain ⟨⟨⟨hpi, _, _⟩, _⟩, rfl⟩ := delimiter_eq_some.mp h
  have hpos := List.length_pos_iff.mpr hd
  omega

/-! ## Results -/

/-- The tokens from position `p` on: each ends where the delimiter first occurs from its beginning on, and the next
one begins behind that occurrence; from the beginning of the last token on there is none. -/
def Leftmost (s d : StringT) : Nat → List StringT → Prop
  | _, [] => False
  | p, [t] => t = s.drop p ∧ ∀ k, p ≤ k → ¬ d <+: s.drop k
  | p, t :: u :: ts =>
    (t = slice s p (p + t.length) ∧ FirstAt s d p (p + t.length)) ∧ Leftmost s d (p + t.length + d.length) (u :: ts)

theorem Leftmost.cons {t : StringT} {ts : List StringT} (ht : t = slice s p (p + t.length))
    (hfirst : FirstAt s d p (p + t.length)) (h : Leftmost s d (p + t.length + d.length) ts) :
    Leftmost s d p (t :: ts) := by
  cases ts with
  | nil => exact h.elim
  | cons u us => exact ⟨⟨ht, hfirst⟩, h⟩

theorem leftmost_of_cut (hd : d ≠ []) {cuts : List (StringT × StringT)} {last : StringT}
    (h : Cut (delimiter s d) s p cuts last) (hp : p ≤ s.length) : Leftmost s d p (tokens cuts last) := by
  induction h with
  | last hnone =>
      refine ⟨rfl, ?_⟩
      intro k hk hocc
      by_cases hle : k ≤ s.length
      · exact find_eq_none.mp (delimiter_eq_none.mp hnone) k hk hle hocc
      · rw [List.drop_eq_nil_of_le (by omega)] at hocc
        exact hd (List.prefix_nil.mp hocc)
  | @cut p i j cuts last hsome _ ih =>
      obtain ⟨⟨hfirst, hi⟩, rfl⟩ := delimiter_eq_some.mp hsome
      have hend : p + (slice s p i).length = i := by
        rw [length_slice hi]
        exact Nat.add_sub_of_le hfirst.1
      refine Leftmost.cons ?_ ?_ ?_
      · rw [hend]
      · rwa [hend]
      · rw [hend]
        exact ih (add_length_le hi hfirst.2.1)

/-- What stands in a part of the text stands at a position of the text. -/
theorem exists_of_infix {t r : StringT} (h : d <:+: t) (hs : s.drop p = t ++ r) :
    ∃ k, p ≤ k ∧ k + d.length ≤ p + t.length ∧ d <+: s.drop k := by
  obtain ⟨a, b, rfl⟩ := h
  have hdrop : s.drop (p + a.length) = d ++ (b ++ r) := by
    rw [← List.drop_drop, hs, List.append_assoc, List.append_assoc, List.drop_left]
  refine ⟨p + a.length, Nat.le_add_right _ _, ?_, b ++ r, hdrop.symm⟩
  simp only [List.length_append]
  omega

/-- No token contains the delimiter. -/
theorem Leftmost.not_infix (hd : d ≠ []) : ∀ {ts : List StringT} {p : Nat}, Leftmost s d p ts →
    ∀ t ∈ ts, ¬ d <:+: t
  | [], _, h => h.elim
  | [t], p, ⟨ht, hnone⟩ => by
      intro u hu hinfix
      rw [List.mem_singleton.mp hu] at hinfix
      obtain ⟨k, hk, _, hocc⟩ := exists_of_infix (r := []) hinfix (by rw [ht, List.append_nil])
      exact hnone k hk hocc
  | t :: u :: ts, p, ⟨⟨ht, hfirst⟩, hrest⟩ => by
      intro v hv hinfix
      rcases List.mem_cons.mp hv with rfl | hv
      · obtain ⟨k, hk, hlt, hocc⟩ := exists_of_infix hinfix
          (by rw [ht]; exact (slice_append_drop (Nat.le_add_right _ _)).symm)
        have hpos := List.length_pos_iff.mpr hd
        exact hfirst.2.2 k hk (by omega) hocc
      · exact Leftmost.not_infix hd hrest v hv hinfix

/-- Joining the pieces gives the text back. -/
theorem join_of_cut {cuts : List (StringT × StringT)} {last : StringT} (h : Cut (delimiter s d) s 0 cuts last) :
    join (tokens cuts last) d = s := by
  have hmatch : ∀ c ∈ cuts, c.2 = d :=
    h.forall_matches (P := fun m => m = d) delimiter_within (fun _ _ _ _ h => slice_of_delimiter h) (Nat.zero_le _)
  calc join (tokens cuts last) d
      = cuts.flatMap (fun c => c.1 ++ d) ++ last := join_tokens d cuts last
    _ = cuts.flatMap (fun c => c.1 ++ c.2) ++ last := by
        congr 1
        apply List.flatMap_congr
        intro c hc
        rw [hmatch c hc]
    _ = s := h.text delimiter_within (Nat.zero_le _)

/-- At a delimiter of one character `split` cuts as `List.splitOn` does. -/
theorem split_char (s : StringT) (c : UInt8) : ∃ fuel, split s [c] fuel = some (.ok (s.splitOn c)) := by
  obtain ⟨cuts, last, hcut⟩ := cut_of_ne_nil (s := s) (List.cons_ne_nil c [])
  have hnone : ∀ t ∈ tokens cuts last, c ∉ t := by
    intro t ht hc
    obtain ⟨a, b, rfl⟩ := List.append_of_mem hc
    have hleft := leftmost_of_cut (List.cons_ne_nil c []) hcut (Nat.zero_le _)
    exact hleft.not_infix (List.cons_ne_nil c []) _ ht ⟨a, b, by rw [List.append_assoc]; rfl⟩
  have hjoin := join_of_cut hcut
  rw [join_eq_intercalate] at hjoin
  have htokens : s.splitOn c = tokens cuts last := by
    rw [← hjoin]
    exact List.splitOn_intercalate c hnone (by simp [tokens])
  rw [htokens]
  exact split_of_cut hcut

/-- **Leftmost factorisation.** `split` cuts a string at the first occurrence of the delimiter, at the first one
behind it and so on; no token contains the delimiter, and joining the tokens gives the string back. -/
theorem split_leftmost (s d : StringT) (hd : d ≠ []) :
    ∃ tokens, (∃ fuel, split s d fuel = some (.ok tokens)) ∧ join tokens d = s ∧ (∀ t ∈ tokens, ¬ d <:+: t) ∧
      Leftmost s d 0 tokens := by
  obtain ⟨cuts, last, hcut⟩ := cut_of_ne_nil (s := s) hd
  have hleft := leftmost_of_cut hd hcut (Nat.zero_le _)
  exact ⟨tokens cuts last, split_of_cut hcut, join_of_cut hcut, hleft.not_infix hd, hleft⟩

/-- A delimiter that overlaps itself, behind the last place where it fits. -/
theorem split_leftmost_overlap :
    ∃ tokens, (∃ fuel, split [0x61, 0x61, 0x61] [0x61, 0x61] fuel = some (.ok tokens)) ∧
      join tokens [0x61, 0x61] = [0x61, 0x61, 0x61] ∧ (∀ t ∈ tokens, ¬ [0x61, 0x61] <:+: t) ∧
      Leftmost [0x61, 0x61, 0x61] [0x61, 0x61] 0 tokens :=
  split_leftmost [0x61, 0x61, 0x61] [0x61, 0x61] (by simp)

/-- **Replacement.** `replace` returns the tokens of `split`, joined by the new text: what was replaced is not
searched again. -/
theorem replace_eq_join_split (s a_old a_new : StringT) (hold : a_old ≠ []) :
    ∃ tokens, (∃ fuel, split s a_old fuel = some (.ok tokens)) ∧
      ∃ fuel, replace s a_old a_new fuel = some (.ok (join tokens a_new)) := by
  obtain ⟨cuts, last, hcut⟩ := cut_of_ne_nil (s := s) hold
  exact ⟨tokens cuts last, split_of_cut hcut, replace_of_cut hold hcut⟩

/-- `replace("aaa","a","aa")`: the new text contains the old one. -/
theorem replace_doubled :
    ∃ tokens, (∃ fuel, split [0x61, 0x61, 0x61] [0x61] fuel = some (.ok tokens)) ∧
      ∃ fuel, replace [0x61, 0x61, 0x61] [0x61] [0x61, 0x61] fuel = some (.ok (join tokens [0x61, 0x61])) :=
  replace_eq_join_split [0x61, 0x61, 0x61] [0x61] [0x61, 0x61] (by simp)

/-- The empty delimiter is found where it is looked for. -/
theorem split_nil (s : StringT) (fuel : Nat) (r : Except Error (List StringT)) : split s [] fuel ≠ some r := by
  intro h
  obtain ⟨cuts, last, hcut⟩ := cut_of_split h
  have hfirst : FirstAt s [] 0 0 := ⟨le_rfl, List.nil_prefix, fun k _ hk => absurd hk (Nat.not_lt_zero k)⟩
  have hstuck : delimiter s [] 0 = some (0, 0) := delimiter_eq_some.mpr ⟨⟨hfirst, Nat.zero_le _⟩, rfl⟩
  exact hcut.ne_of_stuck hstuck

/-- **Termination.** `split` returns exactly for a delimiter that is not empty. -/
theorem split_returns_iff (s d : StringT) : (∃ fuel tokens, split s d fuel = some (.ok tokens)) ↔ d ≠ [] := by
  constructor
  · rintro ⟨fuel, tokens, h⟩ rfl
    exact split_nil s fuel _ h
  · intro hd
    obtain ⟨cuts, last, hcut⟩ := cut_of_ne_nil (s := s) hd
    obtain ⟨fuel, h⟩ := split_of_cut hcut
    exact ⟨fuel, _, h⟩

/-- `split("abc","")` does not return. -/
theorem split_empty_delimiter : ¬ ∃ fuel tokens, split [0x61, 0x62, 0x63] [] fuel = some (.ok tokens) := by
  rintro ⟨fuel, tokens, h⟩
  exact split_nil _ fuel _ h

end Cclstr
end Cclib
