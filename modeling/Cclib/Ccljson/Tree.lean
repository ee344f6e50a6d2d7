import Cclib.Ccljson.Stacks

/-!
# `Ccljson.Tree` — what a derivation tree holds

The leaves of a tree are the tokens its text spells (`Spelled.tokens`). Two questions about values become
questions about leaves:

- `evalTree_defined` — a tree has a value exactly when each of its strings can be decoded.
- `treeValue` — without floats the maps of constants do not matter, and the value of a tree is computed
  from the source alone (`evalTree_of_value`, `treeValue_of_eval`).
-/

namespace Cclib
namespace Ccljson
open Cclvar

/-! ## Leaves -/

mutual
/-- The tokens of the leaves of one kind, `0` for strings, `1` for integers and `2` for floats; keys are
    strings. -/
def JTree.tokens (kind : Nat) : JTree → List Token
  | .string t => if kind = 0 then [t] else []
  | .integer t => if kind = 1 then [t] else []
  | .float t => if kind = 2 then [t] else []
  | .true_ | .false_ | .null => []
  | .object ps => pairsTokens kind ps
  | .array vs => valuesTokens kind vs

def pairsTokens (kind : Nat) : List (Token × JTree) → List Token
  | [] => []
  | (k, t) :: ps => (if kind = 0 then [k] else []) ++ t.tokens kind ++ pairsTokens kind ps

def valuesTokens (kind : Nat) : List JTree → List Token
  | [] => []
  | t :: vs => t.tokens kind ++ valuesTokens kind vs
end

def Node.tokens (kind : Nat) : Node → List Token
  | .term t => if t.term = kind then [t] else []
  | .object ps | .dict ps | .pairs ps => pairsTokens kind ps
  | .pair p => pairsTokens kind [p]
  | .array vs | .arrayOpen vs | .values vs => valuesTokens kind vs
  | .dictBegin | .arrayBegin => []
  | .value v => v.tokens kind
  | .string t => if kind = 0 then [t] else []

/-- The leaves below the nodes of a stack, last node first. -/
def nodesTokens (kind : Nat) : List Node → List Token
  | [] => []
  | n :: ns => nodesTokens kind ns ++ n.tokens kind

theorem pairsTokens_append (kind : Nat) (ps qs : List (Token × JTree)) :
    pairsTokens kind (ps ++ qs) = pairsTokens kind ps ++ pairsTokens kind qs := by
  induction ps with
  | nil => rfl
  | cons p ps ih => simp only [List.cons_append, pairsTokens, ih, List.append_assoc]

theorem valuesTokens_append (kind : Nat) (vs us : List JTree) :
    valuesTokens kind (vs ++ us) = valuesTokens kind vs ++ valuesTokens kind us := by
  induction vs with
  | nil => rfl
  | cons v vs ih => simp only [List.cons_append, valuesTokens, ih, List.append_assoc]

/-- A reduction keeps the leaves. -/
theorem Produces.tokens {r kind : Nat} {body : List Node} {head : Node} (hr : Produces r body head)
    (hkind : kind ≤ 2) : nodesTokens kind body = head.tokens kind := by
  have hpunct : ∀ {t : Token} {n : Nat}, t.term = n → 3 ≤ n → (Node.term t).tokens kind = [] := by
    intro t n ht hn
    rw [Node.tokens, if_neg (by omega)]
  cases hr with
  | object hc | array hc | pair hc | pairsMore hc | valuesMore hc =>
      simp only [nodesTokens, hpunct hc (by decide)]
      simp [Node.tokens, pairsTokens, pairsTokens_append, valuesTokens, valuesTokens_append]
  | dictBegin ho | arrayBegin ho | valueTrue ho | valueFalse ho | valueNull ho =>
      simp only [nodesTokens, hpunct ho (by decide)]
      rfl
  | valueInteger ht | valueFloat ht | string ht =>
      simp only [nodesTokens, Node.tokens, JTree.tokens, List.nil_append, ht, eq_comm]
  | _ => simp [nodesTokens, Node.tokens, JTree.tokens, pairsTokens, valuesTokens]

/-- **The leaves of what is spelled** are the tokens of their kind. -/
theorem Spelled.tokens {kind : Nat} {ns : List Node} {w : List Token} (h : Spelled ns w) (hkind : kind ≤ 2) :
    nodesTokens kind ns = w.filter (fun t => decide (t.term = kind)) := by
  induction h with
  | nil => rfl
  | @term t ns w _ ih =>
      rw [nodesTokens, ih, List.filter_append, Node.tokens]
      by_cases ht : t.term = kind <;> simp [ht]
  | rule hr _ _ ihbody ih => rw [nodesTokens, ih, ← hr.tokens hkind, ihbody, List.filter_append]

/-! ## Trees that have values -/

variable {F : Type} [LT F] [DecidableLT F] {source : StringT} {strtod : StringT → F}

/-- The action can decode the string of a token. -/
def Decodes (source : StringT) (t : Token) : Prop := ∃ s, stringConst source t.start t.stop = .ok s

omit [LT F] [DecidableLT F] in
theorem leafString_defined {c : Caches F} {t : Token} :
    (leafString source c t.start t.stop).toOption ≠ none ↔ Decodes source t := by
  unfold leafString Decodes
  cases stringConst source t.start t.stop <;> simp [Except.toOption]

mutual
theorem evalTree_defined {c : Caches F} : ∀ t : JTree,
    evalTree source strtod c t ≠ none ↔ ∀ k ∈ t.tokens 0, Decodes source k
  | .string t => by
      rw [evalTree, leafString_defined]
      simp [JTree.tokens]
  | .integer t | .float t | .true_ | .false_ | .null => by simp [evalTree, JTree.tokens]
  | .object ps => by
      rw [evalTree, JTree.tokens, ← evalPairs_defined ps (c := c)]
      simp
  | .array vs => by
      rw [evalTree, JTree.tokens, ← evalValues_defined vs (c := c)]
      simp

theorem evalPairs_defined {c : Caches F} : ∀ ps : List (Token × JTree),
    evalPairs source strtod c ps ≠ none ↔ ∀ k ∈ pairsTokens 0 ps, Decodes source k
  | [] => by simp [evalPairs, pairsTokens]
  | (k, t) :: ps => by
      simp only [pairsTokens, if_true, List.mem_append, or_imp, forall_and, List.forall_mem_singleton,
        evalPairs]
      cases hk : (leafString source c k.start k.stop).toOption with
      | none =>
          have hleaf : ¬ Decodes source k := fun h => leafString_defined.mpr h hk
          simp [hleaf]
      | some rk =>
          have hleaf : Decodes source k := leafString_defined.mp (by rw [hk]; simp)
          have htree := evalTree_defined t (c := rk.2)
          rw [Option.bind_some]
          cases ht : evalTree source strtod rk.2 t with
          | none => simp [← htree, ht]
          | some rt =>
              rw [ht] at htree
              have hpairs := evalPairs_defined ps (c := rt.2)
              simp [hleaf, ← htree, ← hpairs]

theorem evalValues_defined {c : Caches F} : ∀ vs : List JTree,
    evalValues source strtod c vs ≠ none ↔ ∀ k ∈ valuesTokens 0 vs, Decodes source k
  | [] => by simp [evalValues, valuesTokens]
  | t :: vs => by
      simp only [valuesTokens, List.mem_append, or_imp, forall_and, evalValues]
      have htree := evalTree_defined t (c := c)
      cases ht : evalTree source strtod c t with
      | none => simp [← htree, ht]
      | some rt =>
          rw [ht] at htree
          have hvalues := evalValues_defined vs (c := rt.2)
          simp [← htree, ← hvalues]
end

/-! ## Values without floats -/

variable (source) in
mutual
/-- The value of a tree without floats. -/
def treeValue : JTree → Option (VarC F)
  | .string t => (stringConst source t.start t.stop).toOption.map .string
  | .integer t => some (.integer (strtoll (source.drop t.start)))
  | .float _ => none
  | .true_ => some (.bool true)
  | .false_ => some (.bool false)
  | .null => some .blank
  | .object ps => (pairsValue ps).map (fun es => .dict (VarC.insertAll es))
  | .array vs => (valuesValue vs).map .array

def pairsValue : List (Token × JTree) → Option (List (VarC F × VarC F))
  | [] => some []
  | (k, t) :: ps =>
    (stringConst source k.start k.stop).toOption.bind (fun s =>
      (treeValue t).bind (fun v => (pairsValue ps).map (fun es => (.string s, v) :: es)))

def valuesValue : List JTree → Option (List (VarC F))
  | [] => some []
  | t :: vs => (treeValue t).bind (fun v => (valuesValue vs).map (v :: ·))
end

omit [LT F] [DecidableLT F] in
theorem leafString_of_const {c : Caches F} {t : Token} {s : StringT} (hc : c.Ok)
    (h : stringConst source t.start t.stop = .ok s) :
    ∃ c', leafString source c t.start t.stop = .ok (.string s, c') ∧ c'.Ok := by
  cases hleaf : leafString source c t.start t.stop with
  | error e =>
      simp only [leafString, h] at hleaf
      cases hleaf
  | ok r =>
      obtain ⟨s', hs', hv, hok⟩ := leafString_ok hc hleaf
      obtain rfl : s = s' := Except.ok.inj (h.symm.trans hs')
      exact ⟨r.2, by rw [← hv], hok⟩

theorem toOption_eq_some {ε α : Type} {x : Except ε α} {a : α} (h : x.toOption = some a) : x = .ok a := by
  cases x with
  | error e => cases h
  | ok b => rw [Option.some.inj h]

mutual
/-- The maps do not matter to it. -/
theorem evalTree_of_value (strtod : StringT → F) {c : Caches F} {v : VarC F} (hc : c.Ok) : ∀ t : JTree,
    treeValue source t = some v → ∃ c', evalTree source strtod c t = some (v, c') ∧ c'.Ok
  | .string t, h => by
      obtain ⟨s, hs, rfl⟩ := Option.map_eq_some_iff.mp h
      obtain ⟨c', hleaf, hok⟩ := leafString_of_const hc (toOption_eq_some hs)
      exact ⟨c', by rw [evalTree, hleaf]; rfl, hok⟩
  | .integer t, h => by
      cases h
      have hval : (leafInteger source c t.start).1 = _ := (leafInteger_ok t.start hc).1
      exact ⟨_, by rw [evalTree, ← hval], (leafInteger_ok t.start hc).2⟩
  | .float t, h => by cases h
  | .true_, h | .false_, h | .null, h => by
      cases h
      exact ⟨c, rfl, hc⟩
  | .object ps, h => by
      obtain ⟨es, hes, rfl⟩ := Option.map_eq_some_iff.mp h
      obtain ⟨c', hpairs, hok⟩ := evalPairs_of_value strtod hc ps hes
      exact ⟨c', by rw [evalTree, hpairs]; rfl, hok⟩
  | .array vs, h => by
      obtain ⟨xs, hxs, rfl⟩ := Option.map_eq_some_iff.mp h
      obtain ⟨c', hvalues, hok⟩ := evalValues_of_value strtod hc vs hxs
      exact ⟨c', by rw [evalTree, hvalues]; rfl, hok⟩

theorem evalPairs_of_value (strtod : StringT → F) {c : Caches F} {es : List (VarC F × VarC F)} (hc : c.Ok) :
    ∀ ps : List (Token × JTree), pairsValue source ps = some es →
      ∃ c', evalPairs source strtod c ps = some (es, c') ∧ c'.Ok
  | [], h => by
      cases h
      exact ⟨c, rfl, hc⟩
  | (k, t) :: ps, h => by
      obtain ⟨s, hs, h⟩ := Option.bind_eq_some_iff.mp h
      obtain ⟨v, hv, h⟩ := Option.bind_eq_some_iff.mp h
      obtain ⟨es, hes, rfl⟩ := Option.map_eq_some_iff.mp h
      obtain ⟨c₁, hleaf, hok₁⟩ := leafString_of_const hc (toOption_eq_some hs)
      obtain ⟨c₂, htree, hok₂⟩ := evalTree_of_value strtod hok₁ t hv
      obtain ⟨c₃, hpairs, hok₃⟩ := evalPairs_of_value strtod hok₂ ps hes
      exact ⟨c₃, by simp [evalPairs, hleaf, htree, hpairs, Except.toOption], hok₃⟩

theorem evalValues_of_value (strtod : StringT → F) {c : Caches F} {xs : List (VarC F)} (hc : c.Ok) :
    ∀ vs : List JTree, valuesValue source vs = some xs →
      ∃ c', evalValues source strtod c vs = some (xs, c') ∧ c'.Ok
  | [], h => by
      cases h
      exact ⟨c, rfl, hc⟩
  | t :: vs, h => by
      obtain ⟨v, hv, h⟩ := Option.bind_eq_some_iff.mp h
      obtain ⟨xs, hxs, rfl⟩ := Option.map_eq_some_iff.mp h
      obtain ⟨c₁, htree, hok₁⟩ := evalTree_of_value strtod hc t hv
      obtain ⟨c₂, hvalues, hok₂⟩ := evalValues_of_value strtod hok₁ vs hxs
      exact ⟨c₂, by simp [evalValues, htree, hvalues], hok₂⟩
end

mutual
theorem treeValue_defined : ∀ t : JTree, t.tokens 2 = [] → (∀ k ∈ t.tokens 0, Decodes source k) →
    treeValue (F := F) source t ≠ none
  | .string t, _, h => by
      obtain ⟨s, hs⟩ := h t (by simp [JTree.tokens])
      simp [treeValue, hs, Except.toOption]
  | .integer t, _, _ | .true_, _, _ | .false_, _, _ | .null, _, _ => by simp [treeValue]
  | .float t, hfloat, _ => by simp [JTree.tokens] at hfloat
  | .object ps, hfloat, h => by
      simpa [treeValue] using pairsValue_defined ps hfloat h
  | .array vs, hfloat, h => by
      simpa [treeValue] using valuesValue_defined vs hfloat h

theorem pairsValue_defined : ∀ ps : List (Token × JTree), pairsTokens 2 ps = [] →
    (∀ k ∈ pairsTokens 0 ps, Decodes source k) → pairsValue (F := F) source ps ≠ none
  | [], _, _ => by simp [pairsValue]
  | (k, t) :: ps, hfloat, h => by
      simp only [pairsTokens, List.append_eq_nil_iff] at hfloat
      simp only [pairsTokens, if_true, List.mem_append, or_imp, forall_and, List.forall_mem_singleton] at h
      obtain ⟨⟨⟨s, hs⟩, ht⟩, hps⟩ := h
      obtain ⟨v, hv⟩ := Option.ne_none_iff_exists'.mp (treeValue_defined t hfloat.1.2 ht)
      obtain ⟨es, hes⟩ := Option.ne_none_iff_exists'.mp (pairsValue_defined ps hfloat.2 hps)
      simp [pairsValue, hs, hv, hes, Except.toOption]

theorem valuesValue_defined : ∀ vs : List JTree, valuesTokens 2 vs = [] →
    (∀ k ∈ valuesTokens 0 vs, Decodes source k) → valuesValue (F := F) source vs ≠ none
  | [], _, _ => by simp [valuesValue]
  | t :: vs, hfloat, h => by
      simp only [valuesTokens, List.append_eq_nil_iff] at hfloat
      simp only [valuesTokens, List.mem_append, or_imp, forall_and] at h
      obtain ⟨v, hv⟩ := Option.ne_none_iff_exists'.mp (treeValue_defined t hfloat.1 h.1)
      obtain ⟨xs, hxs⟩ := Option.ne_none_iff_exists'.mp (valuesValue_defined vs hfloat.2 h.2)
      simp [valuesValue, hv, hxs]
end

/-- **Without floats the value of a tree is computed from the source alone.** -/
theorem treeValue_of_eval {c c' : Caches F} {v : VarC F} {t : JTree} (hc : c.Ok) (hfloat : t.tokens 2 = [])
    (h : evalTree source strtod c t = some (v, c')) : treeValue source t = some v := by
  have hdecodes := (evalTree_defined t).mp (by rw [h]; simp)
  obtain ⟨v', hv'⟩ := Option.ne_none_iff_exists'.mp (treeValue_defined (F := F) t hfloat hdecodes)
  obtain ⟨c'', heval, -⟩ := evalTree_of_value strtod hc t hv'
  rw [h] at heval
  cases heval
  exact hv'

end Ccljson
end Cclib
