import Cclib.Ccljson.Actions
import Cclib.Ccljson.Recognise
import Mathlib.Tactic.IntervalCases

/-!
# `Ccljson.Stacks` — the parse actions build the tree

What the members of the parser hold is a function of the nodes on the parse stack: `nodesSem` runs over
them, first node first, and lets every node push its value. `means_nodesSem` says that the actions compute
it, and with `Ccljson.Recognise` that is an invariant of every run:

- `semantic_stacks` — no action ever finds a stack empty that it reads, and on acceptance the stacks hold
  the value of the tree and nothing else. `TreeIs` says what the value of a tree is.
-/

namespace Cclib
namespace Ccljson
open Cclvar

variable {F : Type} [LT F] [DecidableLT F] (source : StringT) (strtod : StringT → F)

/-! ## Values of trees -/

mutual
/-- The value of a tree, its leaves computed from left to right. -/
def evalTree (c : Caches F) : JTree → Option (VarC F × Caches F)
  | .string t => (leafString source c t.start t.stop).toOption
  | .integer t => some (leafInteger source c t.start)
  | .float t => some (leafFloat source strtod c t.start)
  | .true_ => some (.bool true, c)
  | .false_ => some (.bool false, c)
  | .null => some (.blank, c)
  | .object ps => (evalPairs c ps).map (fun r => (.dict (VarC.insertAll r.1), r.2))
  | .array vs => (evalValues c vs).map (fun r => (.array r.1, r.2))

/-- The entries of an object, in the order of the source. -/
def evalPairs (c : Caches F) : List (Token × JTree) → Option (List (VarC F × VarC F) × Caches F)
  | [] => some ([], c)
  | (k, t) :: ps =>
    (leafString source c k.start k.stop).toOption.bind (fun rk =>
      (evalTree rk.2 t).bind (fun rt =>
        (evalPairs rt.2 ps).map (fun r => ((rk.1, rt.1) :: r.1, r.2))))

/-- The values of an array, in the order of the source. -/
def evalValues (c : Caches F) : List JTree → Option (List (VarC F) × Caches F)
  | [] => some ([], c)
  | t :: vs =>
    (evalTree c t).bind (fun rt => (evalValues rt.2 vs).map (fun r => (rt.1 :: r.1, r.2)))
end

theorem evalPairs_append (c : Caches F) (ps qs : List (Token × JTree)) :
    evalPairs source strtod c (ps ++ qs) = (evalPairs source strtod c ps).bind (fun r =>
      (evalPairs source strtod r.2 qs).map (fun r' => (r.1 ++ r'.1, r'.2))) := by
  induction ps generalizing c with
  | nil => simp [evalPairs]
  | cons p ps ih =>
      simp only [List.cons_append, evalPairs, Option.map_eq_bind, Option.bind_assoc, ih]
      rfl

theorem evalValues_append (c : Caches F) (vs us : List JTree) :
    evalValues source strtod c (vs ++ us) = (evalValues source strtod c vs).bind (fun r =>
      (evalValues source strtod r.2 us).map (fun r' => (r.1 ++ r'.1, r'.2))) := by
  induction vs generalizing c with
  | nil => simp [evalValues]
  | cons v vs ih =>
      simp only [List.cons_append, evalValues, Option.map_eq_bind, Option.bind_assoc, ih]
      rfl

/-! ## Values on the stacks -/

/-- What a node does to the stacks. -/
def pushNode : Node → Sem F → Option (Sem F)
  | .term _, s => some s
  | .string t, s => (leafString source s.caches t.start t.stop).toOption.map (fun r =>
      { s with caches := r.2, m_strings := r.1 :: s.m_strings })
  | .value t, s => (evalTree source strtod s.caches t).map (fun r =>
      { s with caches := r.2, m_values := r.1 :: s.m_values })
  | .dictBegin, s => some { s with m_objects := .dict [] :: s.m_objects }
  | .dict ps, s | .object ps, s => (evalPairs source strtod s.caches ps).map (fun r =>
      { s with caches := r.2, m_objects := .dict (VarC.insertAll r.1) :: s.m_objects })
  | .pair p, s => addPairs [p] s
  | .pairs ps, s => addPairs ps s
  | .arrayBegin, s => some { s with m_arrays := .array [] :: s.m_arrays }
  | .arrayOpen vs, s | .array vs, s => (evalValues source strtod s.caches vs).map (fun r =>
      { s with caches := r.2, m_arrays := .array r.1 :: s.m_arrays })
  | .values vs, s =>
    (evalValues source strtod s.caches vs).bind (fun r =>
      match s.m_arrays with
      | .array xs :: arrays => some { s with caches := r.2, m_arrays := .array (xs ++ r.1) :: arrays }
      | _ => none)
where
  /-- Pairs go into the object on top. -/
  addPairs (ps : List (Token × JTree)) (s : Sem F) : Option (Sem F) :=
    (evalPairs source strtod s.caches ps).bind (fun r =>
      match s.m_objects with
      | .dict es :: objects =>
        some { s with
          caches := r.2
          m_objects := .dict (r.1.foldl (fun ds e => VarC.dictInsert e ds) es) :: objects }
      | _ => none)

/-- What nodes, last first, do one after the other. -/
def pushNodes : List Node → Sem F → Option (Sem F)
  | [], s => some s
  | n :: ns, s => (pushNodes ns s).bind (pushNode source strtod n)

variable {source strtod} {ns rest body : List Node} {s s₀ : Sem F}

theorem pushNodes_append (ns rest : List Node) (s : Sem F) : pushNodes source strtod (ns ++ rest) s =
    (pushNodes source strtod rest s).bind (pushNodes source strtod ns) := by
  induction ns with
  | nil => simp [pushNodes]
  | cons n ns ih => simp only [List.cons_append, pushNodes, ih, Option.bind_assoc]

theorem pushNodes_cons {n : Node} (h : pushNodes source strtod (n :: ns) s₀ = some s) :
    ∃ s₁, pushNodes source strtod ns s₀ = some s₁ ∧ pushNode source strtod n s₁ = some s :=
  Option.bind_eq_some_iff.mp h

/-- The object or array a node adds to is on top of its stack. -/
def Fitting (s : Sem F) : Node → Prop
  | .pair _ | .pairs _ => ∃ es objects, s.m_objects = .dict es :: objects
  | .values _ => ∃ xs arrays, s.m_arrays = .array xs :: arrays
  | _ => True

theorem fitting_of_hasDict (h : HasDict ns) (hs : pushNodes source strtod ns s₀ = some s) :
    ∃ es objects, s.m_objects = .dict es :: objects := by
  induction ns generalizing s with
  | nil => cases h
  | cons n ns ih =>
      obtain ⟨s₁, hs₁, hpush⟩ := pushNodes_cons hs
      cases n with
      | dictBegin =>
          cases hpush
          exact ⟨[], _, rfl⟩
      | term t =>
          cases hpush
          exact ih h hs₁
      | pairs ps =>
          obtain ⟨es, objects, hobjects⟩ := ih h hs₁
          simp only [pushNode, pushNode.addPairs, hobjects] at hpush
          obtain ⟨r, -, hr⟩ := Option.bind_eq_some_iff.mp hpush
          cases hr
          exact ⟨_, _, rfl⟩
      | _ => cases h

theorem fitting_of_hasArray (h : HasArray ns) (hs : pushNodes source strtod ns s₀ = some s) :
    ∃ xs arrays, s.m_arrays = .array xs :: arrays := by
  induction ns generalizing s with
  | nil => cases h
  | cons n ns ih =>
      obtain ⟨s₁, hs₁, hpush⟩ := pushNodes_cons hs
      cases n with
      | arrayBegin =>
          cases hpush
          exact ⟨[], _, rfl⟩
      | term t =>
          cases hpush
          exact ih h hs₁
      | values vs =>
          obtain ⟨xs, arrays, harrays⟩ := ih h hs₁
          simp only [pushNode, harrays] at hpush
          obtain ⟨r, -, hr⟩ := Option.bind_eq_some_iff.mp hpush
          cases hr
          exact ⟨_, _, rfl⟩
      | _ => cases h

theorem fitting_of_fits {n : Node} (h : Fits n ns) (hs : pushNodes source strtod ns s₀ = some s) :
    Fitting s n := by
  cases n with
  | pair _ | pairs _ => exact fitting_of_hasDict h hs
  | values _ => exact fitting_of_hasArray h hs
  | _ => trivial

/-- **The actions compute the stacks.** Running the action of a rule on what the nodes of its body left
    gives what its head leaves, or fails where the head's value does. -/
theorem parseAction_produces {rule : Nat} {head : Node} {top : StackElemC}
    (hr : Produces rule body head) (hfits : Fitting s₀ head)
    (htag : ∀ n tail, body = n :: tail → n.Tag top)
    (hs : pushNodes source strtod body s₀ = some s) :
    (parseAction source strtod rule top s).toOption = pushNode source strtod head s₀ := by
  cases hr with
  | object hc | array hc =>
      obtain ⟨s₁, hs₁, h₁⟩ := pushNodes_cons hs
      cases h₁
      exact hs₁.symm
  | pairsOne => exact hs.symm
  | dictBegin ho | arrayBegin ho =>
      cases hs
      rfl
  | dictEmpty | arrayEmpty =>
      cases hs
      rfl
  | dictPairs =>
      simp only [pushNodes, Option.bind_some, pushNode, pushNode.addPairs] at hs
      obtain ⟨r, hr, hr'⟩ := Option.bind_eq_some_iff.mp hs
      cases hr'
      simp only [pushNode, hr]
      rfl
  | arrayValues =>
      simp only [pushNodes, Option.bind_some, pushNode] at hs
      obtain ⟨r, hr, hr'⟩ := Option.bind_eq_some_iff.mp hs
      cases hr'
      simp only [pushNode, hr]
      rfl
  | @pairsMore ps p c hc =>
      -- the dict on top has the pair already: to evaluate it last is to enter it behind the others
      obtain ⟨es, objects, hobjects⟩ := hfits
      simp only [pushNodes, Option.bind_some, pushNode, pushNode.addPairs, hobjects] at hs ⊢
      rw [evalPairs_append]
      cases hps : evalPairs source strtod s₀.caches ps with
      | none => simp [hps] at hs
      | some r =>
          simp only [hps, Option.bind_some, pushNode, pushNode.addPairs] at hs ⊢
          cases hp : evalPairs source strtod r.2 [p] with
          | none => simp [hp] at hs
          | some r' =>
              simp only [hp, Option.bind_some, Option.map_some, List.foldl_append] at hs ⊢
              exact hs.symm
  | @valuesMore vs v c hc =>
      -- in the same way for the values of an array
      obtain ⟨xs, arrays, harrays⟩ := hfits
      simp only [pushNodes, Option.bind_some, pushNode, harrays] at hs ⊢
      rw [evalValues_append]
      cases hvs : evalValues source strtod s₀.caches vs with
      | none => simp [hvs] at hs
      | some r =>
          simp only [hvs, Option.bind_some, pushNode] at hs ⊢
          cases hv : evalTree source strtod r.2 v with
          | none => simp [hv] at hs
          | some r' =>
              simp only [hv, Option.map_some, Option.some.injEq] at hs
              subst hs
              simp [evalValues, hv, parseAction, jsonPaCallers, paJsonArrayValue, Except.toOption]
  | @valuesOne v =>
      obtain ⟨xs, arrays, harrays⟩ := hfits
      simp only [pushNodes, Option.bind_some, pushNode, harrays] at hs ⊢
      cases hv : evalTree source strtod s₀.caches v with
      | none => simp [hv] at hs
      | some r =>
          simp only [hv, Option.map_some, Option.some.injEq] at hs
          subst hs
          simp [evalValues, hv, parseAction, jsonPaCallers, paJsonArrayValue, Except.toOption]
  | @pair k c v hc =>
      obtain ⟨es, objects, hobjects⟩ := hfits
      simp only [pushNodes, Option.bind_some, pushNode, pushNode.addPairs, hobjects] at hs ⊢
      cases hk : leafString source s₀.caches k.start k.stop with
      | error _ => simp [hk, Except.toOption] at hs
      | ok rk =>
          simp only [hk, Except.toOption, Option.map_some, Option.bind_some, pushNode] at hs
          cases hv : evalTree source strtod rk.2 v with
          | none => simp [hv] at hs
          | some rv =>
              simp only [hv, Option.map_some, Option.some.injEq] at hs
              subst hs
              simp [evalPairs, hk, hv, parseAction, jsonPaCallers, paJsonObjectPair, Except.toOption]
  | @valueString t =>
      simp only [pushNodes, Option.bind_some, pushNode, evalTree] at hs ⊢
      cases ht : leafString source s₀.caches t.start t.stop with
      | error _ => simp [ht, Except.toOption] at hs
      | ok r =>
          simp only [ht, Except.toOption, Option.map_some, Option.some.injEq] at hs
          subst hs
          simp [parseAction, jsonPaCallers, paJsonValString, Except.toOption]
  | valueInteger ht | valueFloat ht =>
      cases hs
      -- the action reads the position of its lexeme off the top of the parse stack
      obtain ⟨-, hstart, -⟩ := htag _ _ rfl _ rfl
      simp [pushNode, evalTree, parseAction, jsonPaCallers, paJsonValInteger, paJsonValFloat,
        Except.toOption, hstart]
  | valueTrue ht | valueFalse ht | valueNull ht =>
      cases hs
      rfl
  | @valueObject ps =>
      simp only [pushNodes, Option.bind_some, pushNode, evalTree] at hs ⊢
      cases hps : evalPairs source strtod s₀.caches ps with
      | none => simp [hps] at hs
      | some r =>
          simp only [hps, Option.map_some, Option.some.injEq] at hs ⊢
          subst hs
          rfl
  | @valueArray vs =>
      simp only [pushNodes, Option.bind_some, pushNode, evalTree] at hs ⊢
      cases hvs : evalValues source strtod s₀.caches vs with
      | none => simp [hvs] at hs
      | some r =>
          simp only [hvs, Option.map_some, Option.some.injEq] at hs ⊢
          subst hs
          rfl
  | @string t ht =>
      cases hs
      obtain ⟨-, hstart, hstop⟩ := htag _ _ rfl _ rfl
      simp only [pushNode, parseAction, jsonPaCallers, List.getD_cons_succ, List.getD_cons_zero,
        paJsonString, hstart, hstop]
      cases leafString source s.caches t.start t.stop <;> rfl

/-- Where the head of a rule has a value, the nodes of its body have theirs. -/
theorem pushNodes_of_head {rule : Nat} {head : Node} (hr : Produces rule body head)
    (h : pushNode source strtod head s₀ = some s) : pushNodes source strtod body s₀ ≠ none := by
  cases hr with
  | @object ps c hc =>
      rw [pushNodes, show pushNodes source strtod [.dict ps] s₀ = some s from h]
      simp [pushNode]
  | @array vs c hc =>
      rw [pushNodes, show pushNodes source strtod [.arrayOpen vs] s₀ = some s from h]
      simp [pushNode]
  | pairsOne =>
      rw [show pushNodes source strtod [.pair _] s₀ = some s from h]
      simp
  | dictPairs =>
      obtain ⟨r, hr, -⟩ := Option.map_eq_some_iff.mp h
      simp [pushNodes, pushNode, pushNode.addPairs, hr]
  | arrayValues =>
      obtain ⟨r, hr, -⟩ := Option.map_eq_some_iff.mp h
      simp [pushNodes, pushNode, hr]
  | @pairsMore ps p c hc =>
      simp only [pushNode, pushNode.addPairs, evalPairs_append] at h
      obtain ⟨r, hr, hr'⟩ := Option.bind_eq_some_iff.mp h
      obtain ⟨r₁, hr₁, hr₂⟩ := Option.bind_eq_some_iff.mp hr
      obtain ⟨r₂, hp, -⟩ := Option.map_eq_some_iff.mp hr₂
      split at hr'
      · rename_i hobjects
        simp [pushNodes, pushNode, pushNode.addPairs, hr₁, hobjects, hp]
      · cases hr'
  | @valuesMore vs v c hc =>
      simp only [pushNode, evalValues_append] at h
      obtain ⟨r, hr, hr'⟩ := Option.bind_eq_some_iff.mp h
      obtain ⟨r₁, hr₁, hr₂⟩ := Option.bind_eq_some_iff.mp hr
      obtain ⟨r₂, hv, -⟩ := Option.map_eq_some_iff.mp hr₂
      obtain ⟨r₃, hv, -⟩ := Option.bind_eq_some_iff.mp hv
      split at hr'
      · rename_i harrays
        simp [pushNodes, pushNode, hr₁, harrays, hv]
      · cases hr'
  | @valuesOne v =>
      simp only [pushNode] at h
      obtain ⟨r, hr, -⟩ := Option.bind_eq_some_iff.mp h
      obtain ⟨r₁, hv, -⟩ := Option.bind_eq_some_iff.mp hr
      simp [pushNodes, pushNode, hv]
  | @pair k c v hc =>
      simp only [pushNode, pushNode.addPairs] at h
      obtain ⟨r, hr, -⟩ := Option.bind_eq_some_iff.mp h
      obtain ⟨rk, hk, hr⟩ := Option.bind_eq_some_iff.mp hr
      obtain ⟨rv, hv, -⟩ := Option.bind_eq_some_iff.mp hr
      simp [pushNodes, pushNode, hk, hv]
  | @valueString t =>
      obtain ⟨r, hr, -⟩ := Option.map_eq_some_iff.mp h
      simp only [evalTree] at hr
      simp [pushNodes, pushNode, hr]
  | @valueObject ps =>
      obtain ⟨r, hr, -⟩ := Option.map_eq_some_iff.mp h
      obtain ⟨r, hr, -⟩ := Option.map_eq_some_iff.mp hr
      simp [pushNodes, pushNode, hr]
  | @valueArray vs =>
      obtain ⟨r, hr, -⟩ := Option.map_eq_some_iff.mp h
      obtain ⟨r, hr, -⟩ := Option.map_eq_some_iff.mp hr
      simp [pushNodes, pushNode, hr]
  | _ => simp [pushNodes, pushNode]

variable (source strtod)

/-- What the nodes of a parse stack leave on the semantic stacks. -/
def nodesSem (ns : List Node) : Option (Sem F) := pushNodes source strtod ns .init

/-- The parser is a loop whose semantic state is the meaning of the nodes on its stack. -/
theorem means_nodesSem (fuel : Nat) : Means (parserEnv source strtod fuel) (nodesSem source strtod) where
  next_term {i j tok} h := by
    simp only [parserEnv, nextTerminal] at h
    split at h
    · cases h
    · cases h
    · rename_i term idx hrec
      cases h
      exact recognizeTerminal_lt hrec
  term t ns := by
    rw [nodesSem, nodesSem, pushNodes]
    cases pushNodes source strtod ns .init <;> rfl
  act {rule body rest head top sem} hr hfits htag hsem := by
    obtain ⟨s₀, hs₀, hs⟩ := Option.bind_eq_some_iff.mp ((pushNodes_append body rest .init).symm.trans hsem)
    rw [nodesSem, pushNodes, hs₀, Option.bind_some]
    exact parseAction_produces hr (fitting_of_fits hfits hs₀) htag hs
  below {n ns} h hnone := by
    rw [nodesSem] at hnone
    simp [nodesSem, pushNodes, hnone] at h
  parts {rule body rest head} hr h := by
    obtain ⟨s, hs⟩ := Option.ne_none_iff_exists'.mp h
    obtain ⟨s₀, hs₀, hpush⟩ := pushNodes_cons hs
    rw [nodesSem, pushNodes_append, hs₀, Option.bind_some]
    exact pushNodes_of_head hr hpush

/-! ## What is in the maps -/

variable {source strtod}

/-- The maps hold for every constant its value. -/
structure Caches.Ok (c : Caches F) : Prop where
  integer : ∀ e ∈ c.m_integer_map, e.2 = .integer e.1
  double : ∀ e ∈ c.m_double_map, e.2 = .float e.1
  string : ∀ e ∈ c.m_string_map, e.2 = .string e.1

omit [LT F] [DecidableLT F] in
theorem Caches.ok_empty : (Caches.empty : Caches F).Ok where
  integer := by simp [Caches.empty]
  double := by simp [Caches.empty]
  string := by simp [Caches.empty]

omit [LT F] [DecidableLT F] in
/-- Looking up a constant finds it, or one that is neither less nor greater, and keeps the map in order. -/
theorem mapGet_ok {K : Type} [LT K] [DecidableLT K] {mk : K → VarC F} {m : List (K × VarC F)}
    (hm : ∀ e ∈ m, e.2 = mk e.1) (k : K) :
    (∃ k', (mapGet m k (mk k)).1 = mk k' ∧ (k' = k ∨ ¬ k' < k ∧ ¬ k < k')) ∧
      ∀ e ∈ (mapGet m k (mk k)).2, e.2 = mk e.1 := by
  unfold mapGet
  split
  · rename_i e he
    have hcond := List.find?_some he
    exact ⟨⟨e.1, hm e (List.mem_of_find?_eq_some he), Or.inr (of_decide_eq_true hcond)⟩, hm⟩
  · refine ⟨⟨k, rfl, Or.inl rfl⟩, fun e he => ?_⟩
    rcases List.mem_cons.mp he with rfl | he
    · rfl
    · exact hm e he

omit [LT F] [DecidableLT F] in
/-- A string leaf is the string it decodes to. -/
theorem leafString_ok {c c' : Caches F} {v : VarC F} {start stop : Nat} (hc : c.Ok)
    (h : leafString source c start stop = .ok (v, c')) :
    ∃ str, stringConst source start stop = .ok str ∧ v = .string str ∧ c'.Ok := by
  unfold leafString at h
  split at h
  · cases h
  · rename_i str hstr
    obtain ⟨⟨k', hk', hcases⟩, hmap⟩ := mapGet_ok hc.string str
    cases h
    refine ⟨str, hstr, ?_, ⟨hc.integer, hc.double, hmap⟩⟩
    rcases hcases with rfl | ⟨h₁, h₂⟩
    · exact hk'
    · have heq : k' = str :=
        Std.Trichotomous.trichotomous (r := fun a b : StringT => a < b) k' str h₁ h₂
      rw [hk', heq]

omit [LT F] [DecidableLT F] in
/-- An integer leaf is its number. -/
theorem leafInteger_ok {c : Caches F} (start : Nat) (hc : c.Ok) :
    (leafInteger source c start).1 = .integer (strtoll (source.drop start)) ∧
      (leafInteger source c start).2.Ok := by
  obtain ⟨⟨k', hk', hcases⟩, hmap⟩ := mapGet_ok hc.integer (strtoll (source.drop start))
  refine ⟨hk'.trans (congrArg _ ?_), ⟨hmap, hc.double, hc.string⟩⟩
  rcases hcases with rfl | ⟨h₁, h₂⟩
  · rfl
  · rw [Int64.lt_iff_toInt_lt] at h₁ h₂
    exact Int64.toInt_inj.mp (by omega)

/-- A float leaf is its number, or the first one of the source that is neither less nor greater. -/
theorem leafFloat_ok {c : Caches F} (start : Nat) (hc : c.Ok) :
    (∃ f, (leafFloat source strtod c start).1 = .float f ∧
      (f = strtod (source.drop start) ∨ ¬ f < strtod (source.drop start) ∧ ¬ strtod (source.drop start) < f)) ∧
      (leafFloat source strtod c start).2.Ok := by
  obtain ⟨hval, hmap⟩ := mapGet_ok hc.double (strtod (source.drop start))
  exact ⟨hval, ⟨hc.integer, hmap, hc.string⟩⟩

variable (source strtod)

/-! ## The tree of the derivation -/

mutual
/-- `v` is the value of a tree: a leaf is what its own action computes with the maps as they are when it
    runs, an array has its values in order, an object gives every key the value of its first
    occurrence. -/
def TreeIs (c : Caches F) : JTree → VarC F → Caches F → Prop
  | .string t, v, c' => leafString source c t.start t.stop = .ok (v, c')
  | .integer t, v, c' => leafInteger source c t.start = (v, c')
  | .float t, v, c' => leafFloat source strtod c t.start = (v, c')
  | .true_, v, c' => v = .bool true ∧ c' = c
  | .false_, v, c' => v = .bool false ∧ c' = c
  | .null, v, c' => v = .blank ∧ c' = c
  | .object ps, v, c' => ∃ es ds, PairsAre c ps es c' ∧ v = .dict ds ∧ VarC.FirstOccurrences es ds
  | .array vs, v, c' => ∃ xs, ValuesAre c vs xs c' ∧ v = .array xs

/-- The entries of an object in the order of the source, each key before its value. -/
def PairsAre (c : Caches F) : List (Token × JTree) → List (VarC F × VarC F) → Caches F → Prop
  | [], es, c' => es = [] ∧ c' = c
  | (k, t) :: ps, es, c' => ∃ kv c₁ v c₂ es', leafString source c k.start k.stop = .ok (kv, c₁) ∧
      TreeIs c₁ t v c₂ ∧ PairsAre c₂ ps es' c' ∧ es = (kv, v) :: es'

/-- The values of an array in the order of the source. -/
def ValuesAre (c : Caches F) : List JTree → List (VarC F) → Caches F → Prop
  | [], xs, c' => xs = [] ∧ c' = c
  | t :: vs, xs, c' => ∃ v c₁ xs', TreeIs c t v c₁ ∧ ValuesAre c₁ vs xs' c' ∧ xs = v :: xs'
end

mutual
/-- The computed value of a tree is its value. -/
theorem treeIs_of_eval {c c' : Caches F} {v : VarC F} (hc : c.Ok) : ∀ (t : JTree),
    evalTree source strtod c t = some (v, c') → TreeIs source strtod c t v c' ∧ c'.Ok
  | .string t, h => by
      simp only [evalTree] at h
      cases hleaf : leafString source c t.start t.stop with
      | error _ => simp [hleaf, Except.toOption] at h
      | ok r =>
          rw [hleaf] at h
          cases h
          obtain ⟨-, -, -, hok⟩ := leafString_ok hc hleaf
          exact ⟨hleaf, hok⟩
  | .integer t, h => by
      simp only [evalTree, Option.some.injEq] at h
      have hok : (leafInteger source c t.start).2.Ok := (leafInteger_ok t.start hc).2
      rw [h] at hok
      exact ⟨h, hok⟩
  | .float t, h => by
      simp only [evalTree, Option.some.injEq] at h
      have hok : (leafFloat source strtod c t.start).2.Ok := (leafFloat_ok t.start hc).2
      rw [h] at hok
      exact ⟨h, hok⟩
  | .true_, h | .false_, h | .null, h => by
      cases h
      exact ⟨⟨rfl, rfl⟩, hc⟩
  | .object ps, h => by
      simp only [evalTree] at h
      obtain ⟨r, hr, heq⟩ := Option.map_eq_some_iff.mp h
      cases heq
      obtain ⟨hpairs, hkeys, hok⟩ := pairsAre_of_eval hc ps hr
      exact ⟨⟨r.1, _, hpairs, rfl, (VarC.firstOccurrences_insertAll hkeys).1⟩, hok⟩
  | .array vs, h => by
      simp only [evalTree] at h
      obtain ⟨r, hr, heq⟩ := Option.map_eq_some_iff.mp h
      cases heq
      obtain ⟨hvalues, hok⟩ := valuesAre_of_eval hc vs hr
      exact ⟨⟨r.1, hvalues, rfl⟩, hok⟩

theorem pairsAre_of_eval {c c' : Caches F} {es : List (VarC F × VarC F)} (hc : c.Ok) :
    ∀ (ps : List (Token × JTree)), evalPairs source strtod c ps = some (es, c') →
      PairsAre source strtod c ps es c' ∧ VarC.StringKeys es ∧ c'.Ok
  | [], h => by
      cases h
      exact ⟨⟨rfl, rfl⟩, by simp [VarC.StringKeys], hc⟩
  | (k, t) :: ps, h => by
      simp only [evalPairs] at h
      obtain ⟨rk, hk, h⟩ := Option.bind_eq_some_iff.mp h
      obtain ⟨rt, ht, h⟩ := Option.bind_eq_some_iff.mp h
      obtain ⟨r, hr, heq⟩ := Option.map_eq_some_iff.mp h
      cases heq
      cases hleaf : leafString source c k.start k.stop with
      | error _ => simp [hleaf, Except.toOption] at hk
      | ok rk' =>
          rw [hleaf] at hk
          cases hk
          obtain ⟨str, -, hstr, hok⟩ := leafString_ok hc hleaf
          obtain ⟨htree, hok₁⟩ := treeIs_of_eval hok t ht
          obtain ⟨hpairs, hkeys, hok₂⟩ := pairsAre_of_eval hok₁ ps hr
          refine ⟨⟨rk.1, rk.2, rt.1, rt.2, r.1, hleaf, htree, hpairs, rfl⟩, ?_, hok₂⟩
          intro e he
          rcases List.mem_cons.mp he with rfl | he
          · exact ⟨str, hstr⟩
          · exact hkeys e he

theorem valuesAre_of_eval {c c' : Caches F} {xs : List (VarC F)} (hc : c.Ok) :
    ∀ (vs : List JTree), evalValues source strtod c vs = some (xs, c') →
      ValuesAre source strtod c vs xs c' ∧ c'.Ok
  | [], h => by
      cases h
      exact ⟨⟨rfl, rfl⟩, hc⟩
  | t :: vs, h => by
      simp only [evalValues] at h
      obtain ⟨rt, ht, h⟩ := Option.bind_eq_some_iff.mp h
      obtain ⟨r, hr, heq⟩ := Option.map_eq_some_iff.mp h
      cases heq
      obtain ⟨htree, hok₁⟩ := treeIs_of_eval hc t ht
      obtain ⟨hvalues, hok₂⟩ := valuesAre_of_eval hok₁ vs hr
      exact ⟨⟨rt.1, rt.2, r.1, htree, hvalues, rfl⟩, hok₂⟩
end

/-! ## The invariant -/

/-- The stacks the action of a rule reads have what it takes from them. -/
def ActionReady (rule : Nat) (s : Sem F) : Prop :=
  match rule with
  | 8 => (∃ es objects, s.m_objects = .dict es :: objects) ∧ s.m_strings ≠ [] ∧ s.m_values ≠ []
  | 13 | 14 => (∃ xs arrays, s.m_arrays = .array xs :: arrays) ∧ s.m_values ≠ []
  | 15 => s.m_strings ≠ []
  | 18 => s.m_objects ≠ []
  | 19 => s.m_arrays ≠ []
  | _ => True

/-- Whenever the loop reduces, the stacks are ready for the action. -/
def StacksReady (s : LalrState Nat (Sem F)) : Prop :=
  ∀ tok top rule, s.ret_term = some tok → s.m_lalr_stack.head? = some top →
    lalrAction top.m_state tok.term = .reduce rule → ActionReady rule s.sem

variable {source strtod}

theorem actionReady_of_produces {rule : Nat} {head : Node} (hr : Produces rule body head)
    (hfits : Fitting s₀ head) (hs : pushNodes source strtod body s₀ = some s) : ActionReady rule s := by
  cases hr with
  | @pair k c v hc =>
      obtain ⟨es, objects, hobjects⟩ := hfits
      obtain ⟨s₁, hs₁, h₁⟩ := pushNodes_cons hs
      obtain ⟨s₂, hs₂, h₂⟩ := pushNodes_cons hs₁
      obtain ⟨s₃, hs₃, h₃⟩ := pushNodes_cons hs₂
      cases hs₃
      cases h₂
      obtain ⟨rk, -, hk⟩ := Option.map_eq_some_iff.mp h₃
      obtain ⟨rv, -, hv⟩ := Option.map_eq_some_iff.mp h₁
      subst hk hv
      exact ⟨⟨es, objects, hobjects⟩, by simp, by simp⟩
  | @valuesMore vs v c hc =>
      obtain ⟨s₁, hs₁, h₁⟩ := pushNodes_cons hs
      obtain ⟨s₂, hs₂, h₂⟩ := pushNodes_cons hs₁
      obtain ⟨s₃, hs₃, h₃⟩ := pushNodes_cons hs₂
      cases hs₃
      cases h₂
      obtain ⟨xs, arrays, harrays⟩ := hfits
      obtain ⟨r, -, hr⟩ := Option.bind_eq_some_iff.mp h₃
      rw [harrays] at hr
      cases hr
      obtain ⟨rv, -, hv⟩ := Option.map_eq_some_iff.mp h₁
      subst hv
      exact ⟨⟨_, _, rfl⟩, by simp⟩
  | valuesOne =>
      obtain ⟨s₁, hs₁, h₁⟩ := pushNodes_cons hs
      cases hs₁
      obtain ⟨rv, -, hv⟩ := Option.map_eq_some_iff.mp h₁
      subst hv
      exact ⟨hfits, by simp⟩
  | valueString | valueObject | valueArray =>
      obtain ⟨s₁, hs₁, h₁⟩ := pushNodes_cons hs
      obtain ⟨r, -, hr⟩ := Option.map_eq_some_iff.mp h₁
      subst hr
      exact List.cons_ne_nil _ _
  | _ => trivial

/-- Where the stacks are ready only the action of a string fails. -/
theorem error_of_action {rule : Nat} {top : StackElemC} {e : JsonError} (hready : ActionReady rule s)
    (h : parseAction source strtod rule top s = .error e) :
    rule = 23 ∧ leafString source s.caches top.m_term_start top.m_term_end = .error e := by
  have hlt : rule < 24 := by
    by_contra hge
    have hnone : (jsonPaCallers source strtod)[rule]? = none :=
      List.getElem?_eq_none (Nat.le_of_not_lt hge)
    rw [parseAction, List.getD_eq_getElem?_getD, hnone] at h
    cases h
  interval_cases rule
  case «8» =>
    obtain ⟨⟨es, objects, hobjects⟩, hstrings, hvalues⟩ := hready
    obtain ⟨k, strings, hstrings⟩ := List.exists_cons_of_ne_nil hstrings
    obtain ⟨v, values, hvalues⟩ := List.exists_cons_of_ne_nil hvalues
    simp [parseAction, jsonPaCallers, paJsonObjectPair, hobjects, hstrings, hvalues] at h
  case «13» | «14» =>
    obtain ⟨⟨xs, arrays, harrays⟩, hvalues⟩ := hready
    obtain ⟨v, values, hvalues⟩ := List.exists_cons_of_ne_nil hvalues
    simp [parseAction, jsonPaCallers, paJsonArrayValue, harrays, hvalues] at h
  case «15» =>
    obtain ⟨v, strings, hstrings⟩ := List.exists_cons_of_ne_nil hready
    simp [parseAction, jsonPaCallers, paJsonValString, hstrings] at h
  case «18» =>
    obtain ⟨v, objects, hobjects⟩ := List.exists_cons_of_ne_nil hready
    simp [parseAction, jsonPaCallers, paJsonValObject, hobjects] at h
  case «19» =>
    obtain ⟨v, arrays, harrays⟩ := List.exists_cons_of_ne_nil hready
    simp [parseAction, jsonPaCallers, paJsonValArray, harrays] at h
  case «23» =>
    refine ⟨rfl, ?_⟩
    change paJsonString source top s = .error e at h
    unfold paJsonString at h
    split at h
    · rename_i herror
      cases h
      exact herror
    · cases h
  -- the others do not fail
  all_goals cases h

variable (source strtod)

/-- **The semantic stacks build the right tree.** In every run of the parser, every action finds on the
    stacks what it takes from them; and when the source is accepted, the stacks of strings, values and
    arrays are empty and the one object left is the value of the tree that derives the source. -/
theorem semantic_stacks (fuel : Nat) :
    (∀ s, Loop.Reaches (parseRound (parserEnv source strtod fuel)) (lalrInit 0 Sem.init) s →
      StacksReady s) ∧
    ∀ idx s, Loop.Returns (parseRound (parserEnv source strtod fuel)) (lalrInit 0 Sem.init) (.ok (idx, s)) →
      s.m_strings = [] ∧ s.m_values = [] ∧ s.m_arrays = [] ∧
      ∃ v w tok ps, s.m_objects = [v] ∧
        Supplies (nextTerminal source fuel) 0 (w ++ [tok]) idx ∧ tok.term = 13 ∧
        Spelled [.object ps] w ∧ TreeIs source strtod .empty (.object ps) v s.caches := by
  have hmeans := means_nodesSem source strtod fuel
  have hinit : nodesSem source strtod [] = some Sem.init := rfl
  constructor
  · intro s hs tok top rule htok htop hact
    obtain ⟨ns, w, hholds⟩ := holds_of_reaches hmeans hinit hs
    obtain ⟨stack, hstack⟩ := List.head?_eq_some_iff.mp htop
    obtain ⟨body, head, rest, -, -, -, rfl, hr, hfits, -, -, -, -⟩ := hholds.reduction htok hstack hact
    have hsem := hholds.sem
    rw [nodesSem, pushNodes_append] at hsem
    obtain ⟨s₀, hs₀, hpush⟩ := Option.bind_eq_some_iff.mp hsem
    exact actionReady_of_produces hr (fitting_of_fits hfits hs₀) hpush
  · intro idx s hs
    obtain ⟨w, tok, ps, hsup, hend, hspelled, hsem⟩ := accepted_spelled hmeans hinit hs
    obtain ⟨r, hr, heq⟩ := Option.map_eq_some_iff.mp hsem
    cases heq
    have hpairs : evalPairs source strtod .empty ps = some r := hr
    have heval : evalTree source strtod .empty (.object ps) = some (.dict (VarC.insertAll r.1), r.2) := by
      rw [evalTree, hpairs, Option.map_some]
    exact ⟨rfl, rfl, rfl, _, w, tok, ps, rfl, hsup, hend, hspelled,
      (treeIs_of_eval source strtod Caches.ok_empty _ heval).1⟩

end Ccljson
end Cclib
