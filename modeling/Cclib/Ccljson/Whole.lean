import Cclib.Ccljson.Pieces

/-!
# `Ccljson.Whole` — how much of a source is read

The cursor of `parse_source` moves over the recognised terminals, one after the other, and the loop is left
in front of the end of the input. The lexer takes a NUL for that end. So a source that is parsed has been
read up to its first NUL, and what follows is never looked at.

- `reads_whole_iff` — a parsed source has been read to its end exactly when there is no NUL in it.
- `nul_cuts` — `{}`, a NUL and more.
-/

namespace Cclib
namespace Ccljson
open Cclvar

/-! ## The cursor -/

/-- The lexer, at `i`, recognises a terminal that ends at `j`. -/
def Recognises (source : StringT) (fuel i j : Nat) : Prop := ∃ t, recognizeTerminal fuel source i = some (some t, j)

/-- The byte at `k` belongs to a terminal, or to white space, that the lexer recognises on its way from the
    start of the source to `n`. -/
def Consumed (source : StringT) (fuel n k : Nat) : Prop :=
  ∃ i j, Relation.ReflTransGen (Recognises source fuel) 0 i ∧ Recognises source fuel i j ∧ i ≤ k ∧ k < j ∧
    Relation.ReflTransGen (Recognises source fuel) j n

/-- `parse_source` leaves its loop with the cursor at `n`. -/
def AcceptsAt {F : Type} [LT F] [DecidableLT F] (source : StringT) (strtod : StringT → F) (fuel n : Nat) : Prop :=
  ∃ s, Loop.run (parseRound (parserEnv source strtod fuel)) fuel (lalrInit 0 Sem.init) = some (.ok (n, s))

section Cursor

variable {source : StringT} {fuel i j k n : Nat}

/-- Nothing is read of the end of the input, and no NUL of anything else. -/
theorem Recognises.bounds (hstop : Stops source i) (h : Recognises source fuel i j) :
    i ≤ j ∧ ∀ k, i ≤ k → k < j → inChar source k ≠ 0 := by
  obtain ⟨t, hrec⟩ := h
  rcases recognized hstop hrec with ⟨-, rfl, -⟩ | ⟨lexeme, rest, hat⟩
  · exact ⟨Nat.le_refl j, by omega⟩
  · exact ⟨hat.bounds.1.le, fun k => hat.inChar_ne⟩

/-- The way of the cursor. -/
theorem way_bounds (hstop : Stops source i) (h : Relation.ReflTransGen (Recognises source fuel) i n) :
    Stops source n ∧ i ≤ n ∧ ∀ k, i ≤ k → k < n → inChar source k ≠ 0 := by
  induction h with
  | refl => exact ⟨hstop, Nat.le_refl i, by omega⟩
  | @tail j n _ hstep ih =>
      obtain ⟨hstop', hij, hfront⟩ := ih
      obtain ⟨hle, hnul⟩ := hstep.bounds hstop'
      obtain ⟨t, hrec⟩ := hstep
      refine ⟨hstop'.next hrec, hij.trans hle, fun k hik hkn => ?_⟩
      by_cases hk : k < j
      · exact hfront k hik hk
      · exact hnul k (by omega) hkn

/-- Every byte on the way is read. -/
theorem way_covers (h : Relation.ReflTransGen (Recognises source fuel) i n) (hik : i ≤ k) (hkn : k < n) :
    ∃ a b, Relation.ReflTransGen (Recognises source fuel) i a ∧ Recognises source fuel a b ∧ a ≤ k ∧ k < b ∧
      Relation.ReflTransGen (Recognises source fuel) b n := by
  induction h using Relation.ReflTransGen.head_induction_on with
  | refl => omega
  | @head i j hstep hrest ih =>
      by_cases hk : k < j
      · exact ⟨i, j, .refl, hstep, hik, hk, hrest⟩
      · obtain ⟨a, b, hto, hab, hak, hkb, hfrom⟩ := ih (by omega)
        exact ⟨a, b, hto.head hstep, hab, hak, hkb, hfrom⟩

theorem Consumed.nul (hstop : Stops source 0) (h : Consumed source fuel n k) : inChar source k ≠ 0 ∧ k < n := by
  obtain ⟨i, j, hway, hrec, hik, hkj, hrest⟩ := h
  have hstop' := (way_bounds hstop hway).1
  have hbounds := hrec.bounds hstop'
  obtain ⟨t, hrec⟩ := hrec
  have hjn := (way_bounds (hstop'.next hrec) hrest).2.1
  exact ⟨hbounds.2 k hik hkj, by omega⟩

/-- The terminals are retrieved on the way. -/
theorem way_of_supplies {toks : List Token} (h : Supplies (nextTerminal source fuel) i toks n) :
    Relation.ReflTransGen (Recognises source fuel) i n := by
  induction h with
  | nil => exact .refl
  | skip hnext _ _ ih => exact ih.head ⟨_, (recognizes_of_next hnext).1⟩
  | cons hnext _ _ ih => exact ih.head ⟨_, (recognizes_of_next hnext).1⟩

end Cursor

/-! ## Acceptance -/

section Whole

variable {F : Type} [LT F] [DecidableLT F] {source : StringT} {strtod : StringT → F} {fuel n : Nat}

theorem acceptsAt_of_parse {v : VarC F} (h : parseFuel source strtod fuel = some (.ok v)) :
    ∃ n, AcceptsAt source strtod fuel n := by
  unfold parseFuel at h
  split at h
  · cases h
  · cases h
  · rename_i n s hrun
    exact ⟨n, s, hrun⟩

/-- Up to where the source is accepted. -/
theorem AcceptsAt.way (h : AcceptsAt source strtod fuel n) :
    Stops source 0 ∧ Relation.ReflTransGen (Recognises source fuel) 0 n ∧ inChar source n = 0 := by
  obtain ⟨s, hrun⟩ := h
  obtain ⟨w, tok, ts, hsup, hend, hspelled, -⟩ :=
    accepted_spelled (means_nodesSem source strtod fuel) rfl ⟨fuel, hrun⟩
  have hterms : ∀ t ∈ w, t.term ≠ 13 := fun t ht => (hspelled.terms_lt (by simp) t ht).ne
  obtain ⟨ps, ws, rest, htext, -, hrest, -, hn, -⟩ := text_of_supplies hsup hend hterms
  refine ⟨stops_of_supplies hsup hend, way_of_supplies hsup, ?_⟩
  rw [inChar_eq, htext, hn, ← List.append_assoc, List.drop_left, hrest]
  rfl

/-- **How much of a source is read.** When `parse` returns a value, all the bytes of the source have been
    read as parts of terminals and white space exactly if there is no NUL among them. -/
theorem reads_whole_iff (strtod : StringT → F) {v : VarC F}
    (h : parseFuel source strtod fuel = some (.ok v)) :
    (∃ n, AcceptsAt source strtod fuel n ∧ ∀ k < source.length, Consumed source fuel n k) ↔ 0 ∉ source := by
  constructor
  · rintro ⟨n, haccepts, hall⟩ hmem
    obtain ⟨k, hk, hnul⟩ := List.getElem_of_mem hmem
    have hdrop : source.drop k = 0 :: source.drop (k + 1) := by rw [← hnul, List.drop_eq_getElem_cons hk]
    exact ((hall k hk).nul haccepts.way.1).1 (inChar_of_drop hdrop)
  · intro hnone
    obtain ⟨n, haccepts⟩ := acceptsAt_of_parse h
    obtain ⟨-, hway, hnul⟩ := haccepts.way
    refine ⟨n, haccepts, fun k hk => way_covers hway (Nat.zero_le k) ?_⟩
    -- the cursor stops at the end of the source, since it stops at a NUL
    by_contra hn
    have hn' : n < source.length := by omega
    have hdrop := List.drop_eq_getElem_cons hn'
    rw [inChar_of_drop hdrop] at hnul
    have hzero : source[n] = 0 := UInt8.toNat_inj.mp hnul
    exact hnone (hzero ▸ List.getElem_mem hn')

/-- `{"a":[1,"x"]}` -/
def wholeText : StringT := [0x7b, 0x22, 0x61, 0x22, 0x3a, 0x5b, 0x31, 0x2c, 0x22, 0x78, 0x22, 0x5d, 0x7d]

set_option maxRecDepth 4000 in
/-- The theorem for a document with a number and a string. -/
theorem reads_whole_iff_pair :
    (∃ n, AcceptsAt wholeText (fun _ => (0 : Int)) 60 n ∧ ∀ k < wholeText.length, Consumed wholeText 60 n k) ↔
      0 ∉ wholeText := by
  obtain ⟨v, hv⟩ : ∃ v, parseFuel wholeText (fun _ => (0 : Int)) 60 = some (.ok v) := ⟨_, rfl⟩
  exact reads_whole_iff (fun _ => (0 : Int)) hv

/-- An empty object, a NUL and a letter. -/
def nulText : StringT := [0x7b, 0x7d, 0x00, 0x78]

/-- **A NUL hides what follows.** The text is parsed to an empty object, and its last two bytes are never
    read. -/
theorem nul_cuts : parseFuel nulText (fun _ => (0 : Int)) 20 = some (.ok (.dict [])) ∧
    ∀ n, AcceptsAt nulText (fun _ => (0 : Int)) 20 n →
      ¬ Consumed nulText 20 n 2 ∧ ¬ Consumed nulText 20 n 3 := by
  refine ⟨rfl, fun n haccepts => ?_⟩
  obtain ⟨hstop, hway, -⟩ := haccepts.way
  have hle : n ≤ 2 := by
    by_contra hn
    exact (way_bounds hstop hway).2.2 2 (by omega) (by omega) rfl
  constructor
  · intro h
    exact (h.nul hstop).1 rfl
  · intro h
    have := (h.nul hstop).2
    omega

end Whole

end Ccljson
end Cclib
