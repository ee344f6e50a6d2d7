import Cclib.Ccljson.Pieces

/-!
# `Ccljson.Numbers` — the values of integer literals

`pa_json_val_integer` hands the source from the first byte of the literal on to `strtoll`, which stops at
the end of the literal, because a delimiter follows. `strtoll` gives the nearest `int64_t` for what does not
fit, and the action takes it.

- `strtoll_literal` — what `strtoll` makes of a literal.
- `integers_exact_iff` — the integers of a parsed source are exact when each of them is an `int64_t`.
- `integer_saturates` — one that is not.
-/

namespace Cclib
namespace Ccljson
open Cclvar

/-! ## Literals -/

/-- The number that an integer literal stands for. -/
def integerValue : StringT → Int
  | 45 :: ds => -(digitsValue ds : Int)
  | ds => digitsValue ds

/-- The numbers of `int64_t`. -/
def InInt64 (n : Int) : Prop := -2 ^ 63 ≤ n ∧ n < 2 ^ 63

theorem clamp_eq_iff (n : Int) : (Int64.ofIntClamp n).toInt = n ↔ InInt64 n := by
  have hmin : Int64.minValue.toInt = -2 ^ 63 := by decide
  have hmax : Int64.maxValue.toInt = 2 ^ 63 - 1 := by decide
  constructor
  · intro h
    have hlow := Int64.minValue_le_toInt (Int64.ofIntClamp n)
    have hhigh := Int64.toInt_le (Int64.ofIntClamp n)
    rw [h] at hlow hhigh
    constructor <;> omega
  · rintro ⟨hlow, hhigh⟩
    exact Int64.toInt_ofIntClamp (by omega) (by omega)

theorem rfcInt_digits {int : StringT} (h : RfcInt int) : int ≠ [] ∧ ∀ c ∈ int, isDigit c = true := by
  cases h with
  | zero => exact ⟨by simp, List.forall_mem_singleton.mpr rfl⟩
  | digits hd hds =>
      refine ⟨by simp, List.forall_mem_cons.mpr ⟨?_, fun c hc => (isDigit_iff c).mpr (hds c hc)⟩⟩
      exact (isDigit_iff _).mpr ⟨UInt8.le_trans (by decide) hd.1, hd.2⟩

/-- **What `strtoll` makes of a literal.** It does not read on. -/
theorem strtoll_literal {s rest : StringT} (h : LaxNumber [] [] s) (hrest : isDelimiter (rest.headD 0) = true) :
    strtoll (s ++ rest) = Int64.ofIntClamp (integerValue s) := by
  obtain ⟨minus, int, hminus, hint, -, -, rfl⟩ := h
  obtain ⟨hne, hdigits⟩ := rfcInt_digits hint
  simp only [List.append_nil]
  rcases hminus with rfl | rfl
  · obtain ⟨d, ds, rfl⟩ := List.exists_cons_of_ne_nil hne
    have hd : d ≠ 45 := by
      rintro rfl
      exact absurd (hdigits 45 List.mem_cons_self) (by decide)
    have hvalue : integerValue (d :: ds) = digitsValue (d :: ds) := by
      rw [integerValue]
      intro ds' heq
      exact hd (List.cons.inj heq).1
    rw [List.nil_append, strtoll_digits hne hdigits hrest, hvalue]
  · exact strtoll_minus hdigits hrest

/-! ## Trees -/

section Trees

variable {F : Type} [LT F] [DecidableLT F] (source : StringT) (strtod : StringT → F)

mutual
/-- The integers of the tree are exact: the action of each pushes the number its literal stands for, with the
    maps as they are when the action runs. -/
def ExactTree (c : Caches F) : JTree → Prop
  | .integer t => ∃ n : Int64, (leafInteger source c t.start).1 = .integer n ∧
      n.toInt = integerValue (between source t.start t.stop)
  | .string _ | .float _ | .true_ | .false_ | .null => True
  | .object ps => ExactPairs c ps
  | .array vs => ExactValues c vs

def ExactPairs (c : Caches F) : List (Token × JTree) → Prop
  | [] => True
  | (k, t) :: ps => ∀ rk, leafString source c k.start k.stop = .ok rk →
      ExactTree rk.2 t ∧ ∀ rt, evalTree source strtod rk.2 t = some rt → ExactPairs rt.2 ps

def ExactValues (c : Caches F) : List JTree → Prop
  | [] => True
  | t :: vs => ExactTree c t ∧ ∀ rt, evalTree source strtod c t = some rt → ExactValues rt.2 vs
end

/-- `strtoll` makes the right number of a token. -/
def ExactToken (t : Token) : Prop :=
  (strtoll (source.drop t.start)).toInt = integerValue (between source t.start t.stop)

variable {source strtod}

mutual
theorem exactTree_iff {c : Caches F} {r : VarC F × Caches F} (hc : c.Ok) : ∀ t : JTree,
    evalTree source strtod c t = some r →
      (ExactTree source strtod c t ↔ ∀ k ∈ t.tokens 1, ExactToken source k)
  | .integer t, _ => by
      have hleaf : (leafInteger source c t.start).1 = _ := (leafInteger_ok t.start hc).1
      rw [ExactTree, hleaf, JTree.tokens, if_pos rfl, List.forall_mem_singleton]
      constructor
      · rintro ⟨n, hn, hvalue⟩
        cases hn
        exact hvalue
      · exact fun h => ⟨_, rfl, h⟩
  | .string t, _ | .float t, _ | .true_, _ | .false_, _ | .null, _ => by
      simp [ExactTree, JTree.tokens]
  | .object ps, h => by
      obtain ⟨rp, hpairs, -⟩ := Option.map_eq_some_iff.mp h
      exact exactPairs_iff hc ps hpairs
  | .array vs, h => by
      obtain ⟨rv, hvalues, -⟩ := Option.map_eq_some_iff.mp h
      exact exactValues_iff hc vs hvalues

theorem exactPairs_iff {c : Caches F} {r : List (VarC F × VarC F) × Caches F} (hc : c.Ok) :
    ∀ ps : List (Token × JTree), evalPairs source strtod c ps = some r →
      (ExactPairs source strtod c ps ↔ ∀ k ∈ pairsTokens 1 ps, ExactToken source k)
  | [], _ => by simp [ExactPairs, pairsTokens]
  | (k, t) :: ps, h => by
      obtain ⟨rk, hk, h⟩ := Option.bind_eq_some_iff.mp h
      obtain ⟨rt, ht, h⟩ := Option.bind_eq_some_iff.mp h
      obtain ⟨rp, hp, -⟩ := Option.map_eq_some_iff.mp h
      have hleaf := toOption_eq_some hk
      obtain ⟨-, -, -, hok⟩ := leafString_ok hc hleaf
      have htree := exactTree_iff hok t ht
      have hpairs := exactPairs_iff (treeIs_of_eval source strtod hok t ht).2 ps hp
      simp only [ExactPairs, pairsTokens, hleaf, Except.ok.injEq, forall_eq', ht, Option.some.injEq, htree, hpairs]
      simp only [one_ne_zero, if_false, List.nil_append, List.forall_mem_append]

theorem exactValues_iff {c : Caches F} {r : List (VarC F) × Caches F} (hc : c.Ok) :
    ∀ vs : List JTree, evalValues source strtod c vs = some r →
      (ExactValues source strtod c vs ↔ ∀ k ∈ valuesTokens 1 vs, ExactToken source k)
  | [], _ => by simp [ExactValues, valuesTokens]
  | t :: vs, h => by
      obtain ⟨rt, ht, h⟩ := Option.bind_eq_some_iff.mp h
      obtain ⟨rv, hv, -⟩ := Option.map_eq_some_iff.mp h
      have htree := exactTree_iff hc t ht
      have hvalues := exactValues_iff (treeIs_of_eval source strtod hc t ht).2 vs hv
      simp only [ExactValues, valuesTokens, ht, Option.some.injEq, forall_eq', htree, hvalues, List.forall_mem_append]
end

end Trees

/-! ## Sources -/

section Sources

variable {F : Type} [LT F] [DecidableLT F] {source : StringT} {w : List Token} {ts : List (Token × JTree)}

omit [LT F] [DecidableLT F] in
/-- The integer tokens of a source that derives an object. -/
theorem exactToken_iff (h : Derives source w ts) {t : Token} (ht : t ∈ w) (hterm : t.term = 1) :
    ExactToken source t ↔ InInt64 (integerValue (between source t.start t.stop)) := by
  obtain ⟨ps, ws, rest, hsource, -, -, rfl, hps⟩ := text_of_derives h
  obtain ⟨lexeme, tail, hlexeme, hdrop, hbetween, -, htail⟩ := lexeme_of_token hsource hps ht
  obtain ⟨state, hstate, htext⟩ := hlexeme.text
  rw [hterm] at hstate
  rw [ExactToken, hdrop, hbetween, strtoll_literal (integer_of_text hstate htext) (htail (Or.inl hterm))]
  exact clamp_eq_iff _

/-- **The integers of a parsed source.** They are exact, each the number its literal stands for, exactly when
    every one of these numbers is an `int64_t`. -/
theorem integers_exact_iff (strtod : StringT → F) {v : VarC F} (hv : Parses source strtod v) :
    ∃ w ts c, Derives source w ts ∧ evalTree source strtod .empty (.object ts) = some (v, c) ∧
      (ExactTree source strtod .empty (.object ts) ↔
        ∀ t ∈ w, t.term = 1 → InInt64 (integerValue (between source t.start t.stop))) := by
  obtain ⟨w, ts, c, hderives, heval⟩ := hv.derives
  refine ⟨w, ts, c, hderives, heval, ?_⟩
  obtain ⟨fuel, tok, n, hsup, hend, hspelled⟩ := id hderives
  have htokens : (JTree.object ts).tokens 1 = w.filter (fun t => decide (t.term = 1)) := hspelled.tokens (by decide)
  rw [exactTree_iff Caches.ok_empty _ heval, htokens]
  simp only [List.mem_filter, decide_eq_true_eq, and_imp]
  constructor
  · exact fun h t ht hterm => (exactToken_iff hderives ht hterm).mp (h t ht hterm)
  · exact fun h t ht hterm => (exactToken_iff hderives ht hterm).mpr (h t ht hterm)

set_option maxRecDepth 2000 in
/-- The theorem for `{"a":7}`. -/
theorem integers_exact_iff_seven : ∃ w ts c, Derives [0x7b, 0x22, 0x61, 0x22, 0x3a, 0x37, 0x7d] w ts ∧
    evalTree [0x7b, 0x22, 0x61, 0x22, 0x3a, 0x37, 0x7d] (fun _ => (0 : Int)) .empty (.object ts) =
      some (.dict [(.string [0x61], .integer 7)], c) ∧
    (ExactTree [0x7b, 0x22, 0x61, 0x22, 0x3a, 0x37, 0x7d] (fun _ => (0 : Int)) .empty (.object ts) ↔
      ∀ t ∈ w, t.term = 1 →
        InInt64 (integerValue (between [0x7b, 0x22, 0x61, 0x22, 0x3a, 0x37, 0x7d] t.start t.stop))) :=
  integers_exact_iff (fun _ => (0 : Int)) ⟨40, rfl⟩

/-- An object that gives `a` the number 2⁶³. -/
def largeText : StringT :=
  [0x7b, 0x22, 0x61, 0x22, 0x3a, 0x39, 0x32, 0x32, 0x33, 0x33, 0x37, 0x32, 0x30, 0x33, 0x36, 0x38, 0x35, 0x34,
    0x37, 0x37, 0x35, 0x38, 0x30, 0x38, 0x7d]

set_option maxRecDepth 4000 in
/-- **An integer that does not fit is changed.** The text is parsed, and `a` has the value 2⁶³ - 1. -/
theorem integer_saturates :
    recognizeTerminal 30 largeText 5 = some (some 1, 24) ∧ integerValue (between largeText 5 24) = 2 ^ 63 ∧
      parseFuel largeText (fun _ => (0 : Int)) 60 = some (.ok (.dict [(.string [0x61], .integer Int64.maxValue)])) ∧
      Int64.maxValue.toInt = 2 ^ 63 - 1 := by
  refine ⟨rfl, rfl, rfl, by decide⟩

end Sources

end Ccljson
end Cclib
