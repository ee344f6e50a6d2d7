import Cclib.Ccljson.Parser
import Mathlib.Data.List.Pairwise

/-!
# `Ccljson.Interning` — what the maps of constants can be seen to do

The parser looks every literal up in one of its three maps and pushes the value it finds there. Here it is compared
with the parser that does not (`uncachedAction`: the maps are empty whenever an action runs). Both are watched
(`watch`): for every literal, what the action has pushed is noted with the place of the literal.

The two run side by side, with the same states on the LALR stack, and only the noted values can differ
(`Alongside`). What the maps give for the literals of a text, one after the other, is `runLeaves`. A text or an
integer is found only as itself, a double as any that is neither less nor greater; so the values are those of the
literals exactly where no double is found for another one (`runLeaves_fresh_iff`).

## Contents
- **Watching.** `Leaf`, `watch`, `parseLeaves`, `Unobservable`.
- **Literals one after the other.** `runLeaves`, `runLeaves_fresh_iff`.
- **The parser with maps.** `watchedSem`, `means_watched`.
- **The parser without.** `Alongside`, `alongside_act`.
- `interning_unobservable_iff`, `zero_shared`.
-/

namespace Cclib
namespace Ccljson
open Cclvar

/-! ## Watching -/

/-- A literal: the rule that reads it, and where it stands. -/
structure Leaf where
  rule : Nat
  start : Nat
  stop : Nat
deriving DecidableEq, Repr

section Watching

variable {F : Type}

/-- What the action of a literal has pushed. -/
def seen (rule : Nat) (lse : StackElemC) (s : Sem F) : List (Leaf × VarC F) :=
  let leaf : Leaf := ⟨rule, lse.m_term_start, lse.m_term_end⟩
  if rule = 16 ∨ rule = 17 then s.m_values.head?.toList.map (fun v => (leaf, v))
  else if rule = 23 then s.m_strings.head?.toList.map (fun v => (leaf, v))
  else []

/-- Actions whose literals are noted. -/
def watch (act : Nat → StackElemC → Sem F → Except JsonError (Sem F)) (rule : Nat) (lse : StackElemC)
    (s : Sem F × List (Leaf × VarC F)) : Except JsonError (Sem F × List (Leaf × VarC F)) :=
  (act rule lse s.1).map (fun sem => (sem, s.2 ++ seen rule lse sem))

variable (source : StringT)

def watchedEnv (act : Nat → StackElemC → Sem F → Except JsonError (Sem F)) (fuel : Nat) :
    LalrEnv Nat (Sem F × List (Leaf × VarC F)) where
  next := nextTerminal source fuel
  act := watch act

/-- `ccljson::parse` with these actions: its value, and what was pushed for each literal. -/
def parseLeaves (act : Nat → StackElemC → Sem F → Except JsonError (Sem F)) (fuel : Nat) :
    Option (Except JsonError (VarC F × List (Leaf × VarC F))) :=
  match Loop.run (parseRound (watchedEnv source act fuel)) fuel (lalrInit 0 (Sem.init, [])) with
  | none => none
  | some (.error e) => some (.error e)
  | some (.ok (_, s, leaves)) =>
    match s.m_objects with
    | v :: _ => some (.ok (v, leaves))
    | [] => some (.error .emptyStack)

variable [LT F] [DecidableLT F] (strtod : StringT → F)

/-- The actions of a parser whose lookups find nothing. -/
def uncachedAction (rule : Nat) (lse : StackElemC) (s : Sem F) : Except JsonError (Sem F) :=
  parseAction source strtod rule lse { s with caches := .empty }

/-- **The maps are not observed**: the parser accepts what it accepts without them, and every literal has the value it
has without them. -/
structure Unobservable : Prop where
  accepts : (∃ fuel r, parseLeaves source (parseAction source strtod) fuel = some (.ok r)) ↔
    ∃ fuel r, parseLeaves source (uncachedAction source strtod) fuel = some (.ok r)
  leaves : ∀ fuel fuel' r r', parseLeaves source (parseAction source strtod) fuel = some (.ok r) →
    parseLeaves source (uncachedAction source strtod) fuel' = some (.ok r') → r.2 = r'.2

end Watching

/-! ## Literals one after the other -/

section Leaves

variable {F : Type} [LT F] [DecidableLT F] (source : StringT) (strtod : StringT → F)

/-- What is pushed for a literal, and the maps after it. -/
def leafRun (c : Caches F) (l : Leaf) : VarC F × Caches F :=
  if l.rule = 16 then leafInteger source c l.start
  else if l.rule = 17 then leafFloat source strtod c l.start
  else (leafString source c l.start l.stop).toOption.getD (.blank, c)

/-- What is pushed for each of the literals. -/
def runLeaves (c : Caches F) : List Leaf → List (Leaf × VarC F) × Caches F
  | [] => ([], c)
  | l :: ls =>
    let r := leafRun source strtod c l
    ((l, r.1) :: (runLeaves r.2 ls).1, (runLeaves r.2 ls).2)

/-- The value of a literal by itself. -/
def freshLeaf (l : Leaf) : Leaf × VarC F := (l, (leafRun source strtod .empty l).1)

/-- The double of a literal. -/
def leafDouble (l : Leaf) : F := strtod (source.drop l.start)

variable {source strtod} {c : Caches F} {l : Leaf} {ls : List Leaf}

theorem runLeaves_append (c : Caches F) (ls ls' : List Leaf) : runLeaves source strtod c (ls ++ ls') =
    ((runLeaves source strtod c ls).1 ++ (runLeaves source strtod (runLeaves source strtod c ls).2 ls').1,
      (runLeaves source strtod (runLeaves source strtod c ls).2 ls').2) := by
  induction ls generalizing c with
  | nil => rfl
  | cons l ls ih => simp only [List.cons_append, runLeaves, ih]

variable (source strtod) in
theorem map_fst_runLeaves (c : Caches F) (ls : List Leaf) : (runLeaves source strtod c ls).1.map Prod.fst = ls := by
  induction ls generalizing c with
  | nil => rfl
  | cons l ls ih => rw [runLeaves, List.map_cons, ih]

/-- Neither less nor greater. -/
def Tie (a b : F) : Prop := ¬ a < b ∧ ¬ b < a

omit [DecidableLT F] in
theorem Tie.symm {a b : F} (h : Tie a b) : Tie b a := ⟨h.2, h.1⟩

/-- No double of the map would be found for another one. -/
def Apart (m : List (F × VarC F)) : Prop := m.Pairwise (fun e e' => ¬ Tie e.1 e'.1)

omit [DecidableLT F] in
theorem Apart.eq_of_tie {m : List (F × VarC F)} (hm : Apart m) {e e' : F × VarC F} (he : e ∈ m) (he' : e' ∈ m)
    (htie : Tie e.1 e'.1) : e.1 = e'.1 := by
  have hsymm : Std.Symm (fun e e' : F × VarC F => Tie e.1 e'.1 → e.1 = e'.1) :=
    ⟨fun _ _ h htie => (h htie.symm).symm⟩
  have hpair : m.Pairwise (fun e e' => Tie e.1 e'.1 → e.1 = e'.1) := hm.imp (fun h htie => absurd htie h)
  exact hpair.forall_of_forall (fun _ _ _ => rfl) he he' htie

/-- A lookup finds a tied double, or enters the new one. -/
theorem mapGet_cases (m : List (F × VarC F)) (k : F) (v : VarC F) :
    (∃ e ∈ m, Tie e.1 k ∧ mapGet m k v = (e.2, m)) ∨ (∀ e ∈ m, ¬ Tie e.1 k) ∧ mapGet m k v = (v, (k, v) :: m) := by
  unfold mapGet
  split
  · rename_i e he
    have hcond := List.find?_some he
    have htie : ¬ e.1 < k ∧ ¬ k < e.1 := of_decide_eq_true hcond
    exact Or.inl ⟨e, List.mem_of_find?_eq_some he, htie, rfl⟩
  · rename_i hnone
    refine Or.inr ⟨?_, rfl⟩
    intro e he htie
    exact List.find?_eq_none.mp hnone e he (decide_eq_true htie)

variable (source strtod) in
/-- Texts and integers are found as themselves. -/
theorem leafRun_ne_float (hc : c.Ok) (h : l.rule ≠ 17) :
    (leafRun source strtod c l).1 = (leafRun source strtod .empty l).1 ∧ (leafRun source strtod c l).2.Ok ∧
      (leafRun source strtod c l).2.m_double_map = c.m_double_map := by
  by_cases hint : l.rule = 16
  · have hval : (leafInteger source c l.start).1 = _ ∧ _ := leafInteger_ok l.start hc
    have hval' : (leafInteger source (.empty : Caches F) l.start).1 = _ ∧ _ := leafInteger_ok l.start Caches.ok_empty
    simp only [leafRun, hint, if_true]
    exact ⟨hval.1.trans hval'.1.symm, hval.2, rfl⟩
  · simp only [leafRun, hint, h, if_false]
    cases hstr : stringConst source l.start l.stop with
    | error e => simp only [leafString, hstr, Except.toOption, Option.getD_none, hc, and_self]
    | ok str =>
        have hmap : ∀ e ∈ (mapGet c.m_string_map str (.string str)).2, e.2 = .string e.1 :=
          (mapGet_ok hc.string str).2
        have hkey : (mapGet c.m_string_map str (.string str)).1 = .string str := by
          obtain ⟨v, hleaf, hok⟩ := leafString_of_const (t := ⟨0, l.start, l.stop⟩) hc hstr
          simp only [leafString, hstr] at hleaf
          exact congrArg Prod.fst (Except.ok.inj hleaf)
        simp only [leafString, hstr, Except.toOption, Option.getD_some, hkey]
        exact ⟨rfl, ⟨hc.integer, hc.double, hmap⟩, trivial⟩

theorem leafRun_float (c : Caches F) (h : l.rule = 17) : leafRun source strtod c l =
    ((mapGet c.m_double_map (leafDouble source strtod l) (.float (leafDouble source strtod l))).1,
      { c with m_double_map :=
          (mapGet c.m_double_map (leafDouble source strtod l) (.float (leafDouble source strtod l))).2 }) := by
  simp only [leafRun, h, if_true]
  rfl

theorem freshLeaf_float (h : l.rule = 17) :
    (leafRun source strtod .empty l).1 = .float (leafDouble source strtod l) := by
  rw [leafRun_float _ h]
  rfl

theorem runLeaves_cons_eq : (runLeaves source strtod c (l :: ls)).1 = (l :: ls).map (freshLeaf source strtod) ↔
    (leafRun source strtod c l).1 = (leafRun source strtod .empty l).1 ∧
      (runLeaves source strtod (leafRun source strtod c l).2 ls).1 = ls.map (freshLeaf source strtod) := by
  rw [runLeaves, List.map_cons, List.cons.injEq, freshLeaf, Prod.mk.injEq]
  exact and_congr_left (fun _ => and_iff_right rfl)

variable (source strtod) in
/-- A float literal of `ls` that is tied with `d` has `d` for its double. -/
def Settled (d : F) (ls : List Leaf) : Prop :=
  ∀ l ∈ ls, l.rule = 17 → Tie d (leafDouble source strtod l) → d = leafDouble source strtod l

variable (source strtod) in
omit [DecidableLT F] in
/-- The first float literal against the later ones. -/
theorem pairwise_floats_cons (h : l.rule = 17) (ls : List Leaf) :
    ((l :: ls).filter (fun l => decide (l.rule = 17))).Pairwise (fun l l' =>
      Tie (leafDouble source strtod l) (leafDouble source strtod l') →
        leafDouble source strtod l = leafDouble source strtod l') ↔
      Settled source strtod (leafDouble source strtod l) ls ∧
        (ls.filter (fun l => decide (l.rule = 17))).Pairwise (fun l l' =>
          Tie (leafDouble source strtod l) (leafDouble source strtod l') →
            leafDouble source strtod l = leafDouble source strtod l') := by
  have hfilter : (l :: ls).filter (fun l => decide (l.rule = 17)) =
      l :: ls.filter (fun l => decide (l.rule = 17)) := List.filter_cons_of_pos (decide_eq_true h)
  rw [hfilter, List.pairwise_cons]
  refine and_congr_left (fun _ => forall_congr' (fun l' => ?_))
  rw [List.mem_filter, decide_eq_true_eq, and_imp]

/-- **Lookups give the literals themselves** exactly where no double is found for another one: none of those that are
in the map, and none of an earlier literal. -/
theorem runLeaves_fresh_iff (hc : c.Ok) (hapart : Apart c.m_double_map) :
    (runLeaves source strtod c ls).1 = ls.map (freshLeaf source strtod) ↔
      (∀ e ∈ c.m_double_map, Settled source strtod e.1 ls) ∧
      (ls.filter (fun l => decide (l.rule = 17))).Pairwise (fun l l' =>
        Tie (leafDouble source strtod l) (leafDouble source strtod l') →
          leafDouble source strtod l = leafDouble source strtod l') := by
  induction ls generalizing c with
  | nil => simp [runLeaves, Settled]
  | cons l ls ih =>
      rw [runLeaves_cons_eq]
      by_cases hfloat : l.rule = 17
      · rw [pairwise_floats_cons source strtod hfloat, freshLeaf_float hfloat, leafRun_float c hfloat]
        rcases mapGet_cases c.m_double_map (leafDouble source strtod l) (.float (leafDouble source strtod l)) with
          ⟨e, he, htie, hget⟩ | ⟨hnone, hget⟩
        · -- a tied double is found: it is the literal's own, or the values differ here
          rw [hget, hc.double e he, VarC.float.injEq, ih hc hapart]
          constructor
          · rintro ⟨heq, hold, hpairs⟩
            refine ⟨fun e' he' => List.forall_mem_cons.mpr ⟨?_, hold e' he'⟩, heq ▸ hold e he, hpairs⟩
            intro _ htie'
            rw [← heq] at htie' ⊢
            exact hapart.eq_of_tie he' he htie'
          · rintro ⟨hold, -, hpairs⟩
            have hnew := (List.forall_mem_cons.mp (hold e he)).1
            exact ⟨hnew hfloat htie, fun e' he' => (List.forall_mem_cons.mp (hold e' he')).2, hpairs⟩
        · -- the literal's double is entered, and the later ones are held against it
          have hok : ({ c with m_double_map :=
              (leafDouble source strtod l, .float (leafDouble source strtod l)) :: c.m_double_map } : Caches F).Ok :=
            ⟨hc.integer, List.forall_mem_cons.mpr ⟨rfl, hc.double⟩, hc.string⟩
          have hapart' : Apart ((leafDouble source strtod l, .float (leafDouble source strtod l)) :: c.m_double_map) :=
            List.pairwise_cons.mpr ⟨fun e he htie => hnone e he htie.symm, hapart⟩
          rw [hget, ih hok hapart', List.forall_mem_cons]
          constructor
          · rintro ⟨-, ⟨hfirst, hold⟩, hpairs⟩
            refine ⟨fun e he => List.forall_mem_cons.mpr ⟨?_, hold e he⟩, hfirst, hpairs⟩
            intro _ htie
            exact absurd htie (hnone e he)
          · rintro ⟨hold, hfirst, hpairs⟩
            exact ⟨rfl, ⟨hfirst, fun e he => (List.forall_mem_cons.mp (hold e he)).2⟩, hpairs⟩
      · obtain ⟨hval, hok, hmap⟩ := leafRun_ne_float source strtod hc hfloat
        have hfilter : (l :: ls).filter (fun l => decide (l.rule = 17)) = ls.filter (fun l => decide (l.rule = 17)) :=
          List.filter_cons_of_neg (by simpa using hfloat)
        rw [hfilter, ih hok (hmap ▸ hapart), hmap]
        constructor
        · rintro ⟨-, hold, hpairs⟩
          exact ⟨fun e he => List.forall_mem_cons.mpr ⟨fun h => absurd h hfloat, hold e he⟩, hpairs⟩
        · rintro ⟨hold, hpairs⟩
          exact ⟨hval, fun e he => (List.forall_mem_cons.mp (hold e he)).2, hpairs⟩

end Leaves

/-! ## The literals of a tree -/

mutual
/-- The literals of a tree, from left to right; keys are strings. -/
def JTree.leaves : JTree → List Leaf
  | .string t => [⟨23, t.start, t.stop⟩]
  | .integer t => [⟨16, t.start, t.stop⟩]
  | .float t => [⟨17, t.start, t.stop⟩]
  | .true_ | .false_ | .null => []
  | .object ps => pairsLeaves ps
  | .array vs => valuesLeaves vs

def pairsLeaves : List (Token × JTree) → List Leaf
  | [] => []
  | (k, t) :: ps => ⟨23, k.start, k.stop⟩ :: (t.leaves ++ pairsLeaves ps)

def valuesLeaves : List JTree → List Leaf
  | [] => []
  | t :: vs => t.leaves ++ valuesLeaves vs
end

/-- The literals of a node that have been reduced. -/
def Node.leaves : Node → List Leaf
  | .term _ => []
  | .object ps | .dict ps | .pairs ps => pairsLeaves ps
  | .pair p => pairsLeaves [p]
  | .array vs | .arrayOpen vs | .values vs => valuesLeaves vs
  | .dictBegin | .arrayBegin => []
  | .value v => v.leaves
  | .string t => [⟨23, t.start, t.stop⟩]

/-- The literals of the nodes of a stack, last node first. -/
def nodesLeaves : List Node → List Leaf
  | [] => []
  | n :: ns => nodesLeaves ns ++ n.leaves

theorem pairsLeaves_append (ps qs : List (Token × JTree)) :
    pairsLeaves (ps ++ qs) = pairsLeaves ps ++ pairsLeaves qs := by
  induction ps with
  | nil => rfl
  | cons p ps ih => simp only [List.cons_append, pairsLeaves, ih, List.append_assoc]

theorem valuesLeaves_append (vs us : List JTree) : valuesLeaves (vs ++ us) = valuesLeaves vs ++ valuesLeaves us := by
  induction vs with
  | nil => rfl
  | cons v vs ih => simp only [List.cons_append, valuesLeaves, ih, List.append_assoc]

theorem nodesLeaves_append (ns rest : List Node) : nodesLeaves (ns ++ rest) = nodesLeaves rest ++ nodesLeaves ns := by
  induction ns with
  | nil => simp [nodesLeaves]
  | cons n ns ih => rw [List.cons_append, nodesLeaves, ih, nodesLeaves, List.append_assoc]

/-- A reduction adds the literal it reduces to those of its body. -/
theorem Produces.leaves {rule : Nat} {body : List Node} {head : Node} (hr : Produces rule body head) :
    (head.leaves = nodesLeaves body ∧ rule ≠ 16 ∧ rule ≠ 17 ∧ rule ≠ 23) ∨
      (rule = 16 ∨ rule = 17 ∨ rule = 23) ∧ ∃ t, body = [.term t] ∧ head.leaves = [⟨rule, t.start, t.stop⟩] := by
  cases hr with
  | valueInteger ht | valueFloat ht | string ht => exact Or.inr ⟨by decide, _, rfl, rfl⟩
  | _ => exact Or.inl (by simp [nodesLeaves, Node.leaves, JTree.leaves, pairsLeaves, valuesLeaves, pairsLeaves_append,
      valuesLeaves_append])

mutual
/-- The doubles among the literals. -/
theorem JTree.filter_leaves : ∀ t : JTree, t.leaves.filter (fun l => decide (l.rule = 17)) =
    (t.tokens 2).map (fun t => ⟨17, t.start, t.stop⟩)
  | .string _ | .integer _ | .float _ | .true_ | .false_ | .null => rfl
  | .object ps => filter_pairsLeaves ps
  | .array vs => filter_valuesLeaves vs

theorem filter_pairsLeaves : ∀ ps : List (Token × JTree), (pairsLeaves ps).filter (fun l => decide (l.rule = 17)) =
    (pairsTokens 2 ps).map (fun t => ⟨17, t.start, t.stop⟩)
  | [] => rfl
  | (k, t) :: ps => by
      have ht := JTree.filter_leaves t
      have hps := filter_pairsLeaves ps
      simp [pairsLeaves, pairsTokens, ht, hps]

theorem filter_valuesLeaves : ∀ vs : List JTree, (valuesLeaves vs).filter (fun l => decide (l.rule = 17)) =
    (valuesTokens 2 vs).map (fun t => ⟨17, t.start, t.stop⟩)
  | [] => rfl
  | t :: vs => by
      have ht := JTree.filter_leaves t
      have hvs := filter_valuesLeaves vs
      simp [valuesLeaves, valuesTokens, ht, hvs]
end

/-! ## The parser with maps -/

section Cached

variable {F : Type} [LT F] [DecidableLT F] {source : StringT} {strtod : StringT → F} {c c' : Caches F} {v : VarC F}

variable (strtod) in
theorem leafRun_string {start stop : Nat} (h : (leafString source c start stop).toOption = some (v, c')) :
    leafRun source strtod c ⟨23, start, stop⟩ = (v, c') := by
  simp [leafRun, h]

mutual
/-- Evaluating a tree looks its literals up from left to right. -/
theorem caches_of_evalTree : ∀ {t : JTree} {c c' : Caches F} {v : VarC F}, evalTree source strtod c t = some (v, c') →
    (runLeaves source strtod c t.leaves).2 = c'
  | .string t, c, c', v, h => by
      simp only [JTree.leaves, runLeaves, leafRun_string strtod h]
  | .integer t, c, c', v, h | .float t, c, c', v, h => by
      cases h
      rfl
  | .true_, c, c', v, h | .false_, c, c', v, h | .null, c, c', v, h => by
      cases h
      rfl
  | .object ps, c, c', v, h => by
      obtain ⟨r, hr, heq⟩ := Option.map_eq_some_iff.mp h
      cases heq
      exact caches_of_evalPairs hr
  | .array vs, c, c', v, h => by
      obtain ⟨r, hr, heq⟩ := Option.map_eq_some_iff.mp h
      cases heq
      exact caches_of_evalValues hr

theorem caches_of_evalPairs : ∀ {ps : List (Token × JTree)} {c : Caches F} {r : List (VarC F × VarC F) × Caches F},
    evalPairs source strtod c ps = some r → (runLeaves source strtod c (pairsLeaves ps)).2 = r.2
  | [], c, r, h => by
      cases h
      rfl
  | (k, t) :: ps, c, r, h => by
      obtain ⟨rk, hk, h⟩ := Option.bind_eq_some_iff.mp h
      obtain ⟨rt, ht, h⟩ := Option.bind_eq_some_iff.mp h
      obtain ⟨r', hps, rfl⟩ := Option.map_eq_some_iff.mp h
      simp only [pairsLeaves, runLeaves, leafRun_string strtod hk, runLeaves_append, caches_of_evalTree ht]
      exact caches_of_evalPairs hps

theorem caches_of_evalValues : ∀ {vs : List JTree} {c : Caches F} {r : List (VarC F) × Caches F},
    evalValues source strtod c vs = some r → (runLeaves source strtod c (valuesLeaves vs)).2 = r.2
  | [], c, r, h => by
      cases h
      rfl
  | t :: vs, c, r, h => by
      obtain ⟨rt, ht, h⟩ := Option.bind_eq_some_iff.mp h
      obtain ⟨r', hvs, rfl⟩ := Option.map_eq_some_iff.mp h
      simp only [valuesLeaves, runLeaves_append, caches_of_evalTree ht]
      exact caches_of_evalValues hvs
end

theorem caches_of_pushNode {n : Node} {s s' : Sem F} (h : pushNode source strtod n s = some s') :
    (runLeaves source strtod s.caches n.leaves).2 = s'.caches := by
  cases n with
  | term t | dictBegin | arrayBegin =>
      cases h
      rfl
  | string t =>
      obtain ⟨r, hr, rfl⟩ := Option.map_eq_some_iff.mp h
      simp only [Node.leaves, runLeaves, leafRun_string strtod hr]
  | value t =>
      obtain ⟨r, hr, rfl⟩ := Option.map_eq_some_iff.mp h
      exact caches_of_evalTree hr
  | dict ps | object ps =>
      obtain ⟨r, hr, rfl⟩ := Option.map_eq_some_iff.mp h
      exact caches_of_evalPairs hr
  | pair p | pairs ps =>
      obtain ⟨r, hr, h⟩ := Option.bind_eq_some_iff.mp h
      split at h
      · cases h
        exact caches_of_evalPairs hr
      · cases h
  | arrayOpen vs | array vs =>
      obtain ⟨r, hr, rfl⟩ := Option.map_eq_some_iff.mp h
      exact caches_of_evalValues hr
  | values vs =>
      obtain ⟨r, hr, h⟩ := Option.bind_eq_some_iff.mp h
      split at h
      · cases h
        exact caches_of_evalValues hr
      · cases h

theorem caches_of_pushNodes {ns : List Node} {s s' : Sem F} (h : pushNodes source strtod ns s = some s') :
    (runLeaves source strtod s.caches (nodesLeaves ns)).2 = s'.caches := by
  induction ns generalizing s' with
  | nil =>
      cases h
      rfl
  | cons n ns ih =>
      obtain ⟨s₁, hs₁, hpush⟩ := pushNodes_cons h
      rw [nodesLeaves, runLeaves_append, ih hs₁]
      exact caches_of_pushNode hpush

variable (source strtod) in
/-- What the nodes of a parse stack leave on the semantic stacks, and what was noted. -/
def watchedSem (ns : List Node) : Option (Sem F × List (Leaf × VarC F)) :=
  (nodesSem source strtod ns).map (fun s => (s, (runLeaves source strtod .empty (nodesLeaves ns)).1))

theorem watchedSem_ne_none {ns : List Node} :
    watchedSem source strtod ns ≠ none ↔ nodesSem source strtod ns ≠ none := by
  rw [watchedSem, ne_eq, Option.map_eq_none_iff]

/-- What is noted when a literal is reduced. -/
theorem seen_leaf {rule : Nat} {head : Node} {top : StackElemC} {t : Token} {s₀ s : Sem F}
    (hr : Produces rule [.term t] head) (hrule : rule = 16 ∨ rule = 17 ∨ rule = 23)
    (hstart : top.m_term_start = t.start) (hstop : top.m_term_end = t.stop)
    (hpush : pushNode source strtod head s₀ = some s) : seen rule top s =
      [(⟨rule, t.start, t.stop⟩, (leafRun source strtod s₀.caches ⟨rule, t.start, t.stop⟩).1)] := by
  cases hr with
  | valueInteger | valueFloat =>
      cases hpush
      simp [seen, leafRun, hstart, hstop]
  | string =>
      obtain ⟨r, hr, rfl⟩ := Option.map_eq_some_iff.mp hpush
      simp [seen, leafRun_string strtod hr, hstart, hstop]
  | _ => simp at hrule

omit [LT F] [DecidableLT F] in
theorem seen_other {rule : Nat} {top : StackElemC} {s : Sem F} (h : rule ≠ 16 ∧ rule ≠ 17 ∧ rule ≠ 23) :
    seen rule top s = [] := by
  simp [seen, h]

variable (source strtod) in
/-- The watched parser is a loop whose state is the meaning of the nodes on its stack, too. -/
theorem means_watched (fuel : Nat) :
    Means (watchedEnv source (parseAction source strtod) fuel) (watchedSem source strtod) where
  next_term h := (means_nodesSem source strtod fuel).next_term h
  term t ns := by
    rw [watchedSem, (means_nodesSem source strtod fuel).term, nodesLeaves, Node.leaves, List.append_nil]
    rfl
  act {rule body rest head top sem} hr hfits htag hsem := by
    obtain ⟨s, hs, rfl⟩ := Option.map_eq_some_iff.mp hsem
    have hact : (parseAction source strtod rule top s).toOption = nodesSem source strtod (head :: rest) :=
      (means_nodesSem source strtod fuel).act hr hfits htag hs
    rw [watchedSem, ← hact]
    cases hout : parseAction source strtod rule top s with
    | error e => simp [watchedEnv, watch, hout, Except.map, Except.toOption]
    | ok s' =>
        rw [hout] at hact
        obtain ⟨s₀, hs₀, hpush⟩ := pushNodes_cons hact.symm
        have hnoted : (runLeaves source strtod .empty (nodesLeaves (body ++ rest))).1 ++ seen rule top s' =
            (runLeaves source strtod .empty (nodesLeaves (head :: rest))).1 := by
          rcases hr.leaves with ⟨hsame, hother⟩ | ⟨hrule, t, rfl, hleaf⟩
          · rw [seen_other hother, List.append_nil, nodesLeaves_append, nodesLeaves, hsame]
          · obtain ⟨-, hstart, hstop⟩ := htag _ _ rfl t rfl
            rw [seen_leaf hr hrule hstart hstop hpush, nodesLeaves, hleaf, runLeaves_append]
            -- the maps that the literal is looked up in are those after the nodes below
            have hcaches : (runLeaves source strtod .empty (nodesLeaves rest)).2 = s₀.caches := caches_of_pushNodes hs₀
            simp only [List.cons_append, List.nil_append, nodesLeaves, Node.leaves, List.append_nil, runLeaves]
            rw [hcaches]
        simp only [watchedEnv, watch, hout, Except.map, Except.toOption, Option.map_some, hnoted]
  below h := by
    rw [watchedSem_ne_none] at h ⊢
    exact (means_nodesSem source strtod 0).below h
  parts hr h := by
    rw [watchedSem_ne_none] at h ⊢
    exact (means_nodesSem source strtod 0).parts hr h

end Cached

/-! ## The parser without -/

section Uncached

variable {F : Type}

/-- The semantic stacks are as high as each other, those of objects hold objects and those of arrays arrays. -/
structure Shape (s s' : Sem F) : Prop where
  strings : List.Forall₂ (fun _ _ => True) s.m_strings s'.m_strings
  values : List.Forall₂ (fun _ _ => True) s.m_values s'.m_values
  arrays : List.Forall₂ (fun v v' => (∃ xs, v = .array xs) ∧ ∃ xs, v' = .array xs) s.m_arrays s'.m_arrays
  objects : List.Forall₂ (fun v v' => (∃ es, v = .dict es) ∧ ∃ es, v' = .dict es) s.m_objects s'.m_objects

/-- An action that does the same to the shape of all stacks. -/
def KeepsShape (action : ParseAction F) : Prop := ∀ lse s s', Shape s s' → Agree Shape (action lse s) (action lse s')

theorem keeps_objectBegin : KeepsShape (F := F) paJsonObjectBegin := fun _ _ _ h =>
  .ok ⟨h.strings, h.values, h.arrays, .cons ⟨⟨_, rfl⟩, _, rfl⟩ h.objects⟩

theorem keeps_objectPair [LT F] [DecidableLT F] : KeepsShape (F := F) paJsonObjectPair := by
  rintro _ ⟨_, strings, values, arrays, objects⟩ ⟨_, strings', values', arrays', objects'⟩ ⟨hs, hv, ha, ho⟩
  cases ho with
  | nil => exact .error _
  | cons hdict ho =>
      obtain ⟨⟨es, rfl⟩, es', rfl⟩ := hdict
      cases hs with
      | nil => exact .error _
      | cons _ hs =>
          cases hv with
          | nil => exact .error _
          | cons _ hv => exact .ok ⟨hs, hv, ha, .cons ⟨⟨_, rfl⟩, _, rfl⟩ ho⟩

theorem keeps_arrayBegin : KeepsShape (F := F) paJsonArrayBegin := fun _ _ _ h =>
  .ok ⟨h.strings, h.values, .cons ⟨⟨_, rfl⟩, _, rfl⟩ h.arrays, h.objects⟩

theorem keeps_arrayValue : KeepsShape (F := F) paJsonArrayValue := by
  rintro _ ⟨_, strings, values, arrays, objects⟩ ⟨_, strings', values', arrays', objects'⟩ ⟨hs, hv, ha, ho⟩
  cases ha with
  | nil => exact .error _
  | cons harray ha =>
      obtain ⟨⟨xs, rfl⟩, xs', rfl⟩ := harray
      cases hv with
      | nil => exact .error _
      | cons _ hv => exact .ok ⟨hs, hv, .cons ⟨⟨_, rfl⟩, _, rfl⟩ ha, ho⟩

theorem keeps_valString : KeepsShape (F := F) paJsonValString := by
  rintro _ ⟨_, strings, values, arrays, objects⟩ ⟨_, strings', values', arrays', objects'⟩ ⟨hs, hv, ha, ho⟩
  cases hs with
  | nil => exact .error _
  | cons _ hs => exact .ok ⟨hs, .cons trivial hv, ha, ho⟩

theorem keeps_valObject : KeepsShape (F := F) paJsonValObject := by
  rintro _ ⟨_, strings, values, arrays, objects⟩ ⟨_, strings', values', arrays', objects'⟩ ⟨hs, hv, ha, ho⟩
  cases ho with
  | nil => exact .error _
  | cons _ ho => exact .ok ⟨hs, .cons trivial hv, ha, ho⟩

theorem keeps_valArray : KeepsShape (F := F) paJsonValArray := by
  rintro _ ⟨_, strings, values, arrays, objects⟩ ⟨_, strings', values', arrays', objects'⟩ ⟨hs, hv, ha, ho⟩
  cases ha with
  | nil => exact .error _
  | cons _ ha => exact .ok ⟨hs, .cons trivial hv, ha, ho⟩

theorem keeps_val (v : VarC F) : KeepsShape (paJsonVal v) := fun _ _ _ h =>
  .ok ⟨h.strings, .cons trivial h.values, h.arrays, h.objects⟩

variable (source : StringT)

theorem keeps_valInteger : KeepsShape (F := F) (paJsonValInteger source) := fun _ _ _ h =>
  .ok ⟨h.strings, .cons trivial h.values, h.arrays, h.objects⟩

variable [LT F] [DecidableLT F] (strtod : StringT → F)

theorem keeps_valFloat : KeepsShape (paJsonValFloat source strtod) := fun _ _ _ h =>
  .ok ⟨h.strings, .cons trivial h.values, h.arrays, h.objects⟩

omit [LT F] [DecidableLT F] in
theorem keeps_string : KeepsShape (F := F) (paJsonString source) := by
  intro lse s s' h
  unfold paJsonString leafString
  cases stringConst source lse.m_term_start lse.m_term_end with
  | error e => exact .error e
  | ok str => exact .ok ⟨.cons trivial h.strings, h.values, h.arrays, h.objects⟩

/-- **Every action does.** -/
theorem keeps_parseAction (rule : Nat) : KeepsShape (parseAction source strtod rule) := by
  intro lse s s' h
  unfold parseAction
  cases haction : (jsonPaCallers source strtod).getD rule none with
  | none => exact .ok h
  | some action =>
      have hall : ∀ a ∈ jsonPaCallers source strtod, ∀ action, a = some action → KeepsShape action := by
        simp only [jsonPaCallers, List.forall_mem_cons, reduceCtorEq, false_implies, implies_true, true_and,
          Option.some.injEq, forall_eq', List.not_mem_nil, and_true]
        exact ⟨keeps_objectBegin, keeps_objectPair, keeps_arrayBegin, keeps_arrayValue, keeps_arrayValue,
          keeps_valString, keeps_valInteger source, keeps_valFloat source strtod, keeps_valObject, keeps_valArray,
          keeps_val _, keeps_val _, keeps_val _, keeps_string source⟩
      have hmem : some action ∈ jsonPaCallers source strtod := by
        rw [List.getD_eq_getElem?_getD] at haction
        cases hget : (jsonPaCallers source strtod)[rule]? with
        | none => simp [hget] at haction
        | some a =>
            rw [hget, Option.getD_some] at haction
            exact haction ▸ List.mem_of_getElem? hget
      exact hall _ hmem action rfl lse s s' h

/-- The states of the two watched parsers: what the one without maps has noted is the value of each literal by
itself. -/
structure Alongside (s s' : Sem F × List (Leaf × VarC F)) : Prop where
  shape : Shape s.1 s'.1
  leaves : s'.2 = s.2.map (fun e => freshLeaf source strtod e.1)

variable {source strtod}

/-- What the action of a literal pushes without maps. -/
theorem seen_fresh {rule : Nat} {lse : StackElemC} {s s' t t' : Sem F}
    (h : parseAction source strtod rule lse s = .ok t)
    (h' : uncachedAction source strtod rule lse s' = .ok t') :
    seen rule lse t' = (seen rule lse t).map (fun e => freshLeaf source strtod e.1) := by
  by_cases hint : rule = 16
  · subst hint
    have h : paJsonValInteger source lse s = .ok t := h
    have h' : paJsonValInteger source lse { s' with caches := .empty } = .ok t' := h'
    obtain rfl := Except.ok.inj h
    obtain rfl := Except.ok.inj h'
    rfl
  · by_cases hfloat : rule = 17
    · subst hfloat
      have h : paJsonValFloat source strtod lse s = .ok t := h
      have h' : paJsonValFloat source strtod lse { s' with caches := .empty } = .ok t' := h'
      obtain rfl := Except.ok.inj h
      obtain rfl := Except.ok.inj h'
      rfl
    · by_cases hstring : rule = 23
      · subst hstring
        have h : paJsonString source lse s = .ok t := h
        have h' : paJsonString source lse { s' with caches := .empty } = .ok t' := h'
        unfold paJsonString leafString at h h'
        cases hstr : stringConst source lse.m_term_start lse.m_term_end with
        | error e =>
            rw [hstr] at h
            cases h
        | ok str =>
            rw [hstr] at h h'
            obtain rfl := Except.ok.inj h
            obtain rfl := Except.ok.inj h'
            simp [seen, freshLeaf, leafRun, leafString, hstr, Except.toOption]
      · rw [seen_other ⟨hint, hfloat, hstring⟩, seen_other ⟨hint, hfloat, hstring⟩]
        rfl

/-- **The actions of both.** -/
theorem alongside_act (rule : Nat) (top : StackElemC) (s s' : Sem F × List (Leaf × VarC F))
    (h : Alongside source strtod s s') :
    Agree (Alongside source strtod) (watch (parseAction source strtod) rule top s)
      (watch (uncachedAction source strtod) rule top s') := by
  have hshape : Shape s.1 { s'.1 with caches := .empty } :=
    ⟨h.shape.strings, h.shape.values, h.shape.arrays, h.shape.objects⟩
  have hagree : Agree Shape (parseAction source strtod rule top s.1) (uncachedAction source strtod rule top s'.1) :=
    keeps_parseAction source strtod rule top _ _ hshape
  unfold watch
  cases hout : parseAction source strtod rule top s.1 with
  | error e =>
      rw [hout] at hagree
      generalize uncachedAction source strtod rule top s'.1 = out' at hagree ⊢
      cases hagree
      exact .error e
  | ok t =>
      cases hout' : uncachedAction source strtod rule top s'.1 with
      | error e =>
          rw [hout, hout'] at hagree
          cases hagree
      | ok t' =>
          rw [hout, hout'] at hagree
          cases hagree with
          | ok htt' =>
              refine .ok ⟨htt', ?_⟩
              show s'.2 ++ seen rule top t' = (s.2 ++ seen rule top t).map _
              rw [h.leaves, seen_fresh hout hout', List.map_append]

end Uncached

/-! ## Results -/

section Results

variable {F : Type} {source : StringT}

theorem parseLeaves_mono {act : Nat → StackElemC → Sem F → Except JsonError (Sem F)} {n m : Nat}
    {r : Except JsonError (VarC F × List (Leaf × VarC F))} (hnm : n ≤ m) (h : parseLeaves source act n = some r) :
    parseLeaves source act m = some r := by
  unfold parseLeaves at h ⊢
  cases hrun : Loop.run (parseRound (watchedEnv source act n)) n (lalrInit 0 (Sem.init, [])) with
  | none => simp [hrun] at h
  | some out =>
      have hrefines : Loop.Refines (parseRound (watchedEnv source act n)) (parseRound (watchedEnv source act m)) :=
        parseRound_refines rfl (fun _ _ => next_mono hnm)
      rw [Loop.run_mono hnm (Loop.run_refines hrefines hrun)]
      rwa [hrun] at h

variable [LT F] [DecidableLT F] {strtod : StringT → F} {w : List Token} {ts : List (Token × JTree)}
  {leaves : List (Leaf × VarC F)} {v : VarC F} {fuel : Nat}

/-- Watching changes nothing. -/
theorem parseLeaves_erase (source : StringT) (strtod : StringT → F) (fuel : Nat) :
    (parseLeaves source (parseAction source strtod) fuel).map (Except.map Prod.fst) = parseFuel source strtod fuel := by
  have hact : ∀ rule top (a : Sem F) (b : Sem F × List (Leaf × VarC F)), b.1 = a →
      Agree (fun a b => b.1 = a) ((parserEnv source strtod fuel).act rule top a)
        ((watchedEnv source (parseAction source strtod) fuel).act rule top b) := by
    rintro rule top _ b rfl
    simp only [parserEnv, watchedEnv, watch]
    cases parseAction source strtod rule top b.1 with
    | error e => exact .error e
    | ok s => exact .ok rfl
  have hinit : Beside (fun (a : Sem F) (b : Sem F × List (Leaf × VarC F)) => b.1 = a) (lalrInit 0 Sem.init)
      (lalrInit 0 (Sem.init, [])) := ⟨rfl, rfl, rfl, rfl⟩
  unfold parseLeaves parseFuel
  rcases hinit.run (parserEnv source strtod fuel)
      (watchedEnv source (parseAction source strtod) fuel) rfl hact fuel with
    ⟨hnone, hnone'⟩ | ⟨r, r', hrun, hrun', hagree⟩
  · rw [hnone, hnone']
    rfl
  · rw [hrun, hrun']
    cases hagree with
    | error e => rfl
    | @ok a b h =>
        obtain ⟨i, s⟩ := a
        obtain ⟨j, s', l⟩ := b
        obtain rfl : s' = s := h.2
        cases hobjects : s'.m_objects <;> simp [hobjects, Except.map]

/-- The values that the parser gives the literals of an accepted source. -/
theorem derives_of_parseLeaves (h : parseLeaves source (parseAction source strtod) fuel = some (.ok (v, leaves))) :
    ∃ w ts, Derives source w ts ∧ (∀ t ∈ w, t.term = 0 → Decodes source t) ∧
      leaves = (runLeaves source strtod .empty (pairsLeaves ts)).1 := by
  unfold parseLeaves at h
  split at h
  · cases h
  · cases h
  · rename_i i s l hrun
    obtain ⟨w, tok, ts, hsup, hend, hspelled, hsem⟩ :=
      accepted_spelled (means_watched source strtod fuel) rfl ⟨fuel, hrun⟩
    obtain ⟨s', hs', heq⟩ := Option.map_eq_some_iff.mp hsem
    obtain ⟨rfl, rfl⟩ := Prod.mk.inj heq
    have hderives : Derives source w ts := ⟨fuel, tok, i, hsup, hend, hspelled⟩
    have hdefined : evalTree source strtod .empty (.object ts) ≠ none := by
      obtain ⟨r, hr, -⟩ := Option.map_eq_some_iff.mp hs'
      have hpairs : evalPairs source strtod .empty ts = some r := hr
      rw [evalTree, hpairs]
      simp
    refine ⟨w, ts, hderives, (hderives.defined_iff strtod).mp hdefined, ?_⟩
    split at h
    · cases h
      rfl
    · cases h

/-- A source that derives an object whose strings can be decoded is accepted. -/
theorem parseLeaves_of_derives (strtod : StringT → F) (h : Derives source w ts)
    (hdecodes : ∀ t ∈ w, t.term = 0 → Decodes source t) : ∃ fuel v,
      parseLeaves source (parseAction source strtod) fuel =
        some (.ok (v, (runLeaves source strtod .empty (pairsLeaves ts)).1)) := by
  obtain ⟨⟨v, c⟩, heval⟩ := Option.ne_none_iff_exists'.mp ((h.defined_iff strtod).mpr hdecodes)
  obtain ⟨fuel, tok, i, hsup, hend, hspelled⟩ := h
  obtain ⟨r, hr, -⟩ := Option.map_eq_some_iff.mp heval
  have hsem : watchedSem source strtod [.object ts] = some ({ (Sem.init : Sem F) with
      caches := r.2, m_objects := .dict (VarC.insertAll r.1) :: (Sem.init : Sem F).m_objects },
        (runLeaves source strtod .empty (pairsLeaves ts)).1) := by
    have hpairs : evalPairs source strtod (Sem.init : Sem F).caches ts = some r := hr
    simp only [watchedSem, nodesSem, pushNodes, pushNode, Option.bind_some, hpairs, Option.map_some, nodesLeaves,
      Node.leaves, List.nil_append]
  have hempty : watchedSem source strtod [] = some (Sem.init, []) := rfl
  obtain ⟨k, -, n, hrun⟩ := accepts_spelled (means_watched source strtod fuel) hempty hspelled hsup hend hsem
  refine ⟨max fuel n, .dict (VarC.insertAll r.1), ?_⟩
  have hrefines : Loop.Refines (parseRound (watchedEnv source (parseAction source strtod) fuel))
      (parseRound (watchedEnv source (parseAction source strtod) (max fuel n))) :=
    parseRound_refines rfl (fun _ _ => next_mono (Nat.le_max_left fuel n))
  have hrun' := Loop.run_mono (Nat.le_max_right fuel n) (Loop.run_refines hrefines hrun)
  rw [parseLeaves, hrun']

/-- **Both parsers end alike**, and without maps every literal has its own value. -/
theorem parseLeaves_alongside (source : StringT) (strtod : StringT → F) (fuel : Nat) :
    (parseLeaves source (parseAction source strtod) fuel = none ∧
      parseLeaves source (uncachedAction source strtod) fuel = none) ∨
    ∃ r r', parseLeaves source (parseAction source strtod) fuel = some r ∧
      parseLeaves source (uncachedAction source strtod) fuel = some r' ∧
      Agree (fun a b => b.2 = a.2.map (fun e => freshLeaf source strtod e.1)) r r' := by
  have hinit : Beside (Alongside source strtod) (lalrInit 0 (Sem.init, [])) (lalrInit 0 (Sem.init, [])) :=
    ⟨rfl, rfl, rfl, ⟨⟨.nil, .nil, .nil, .nil⟩, rfl⟩⟩
  unfold parseLeaves
  rcases hinit.run (watchedEnv source (parseAction source strtod) fuel)
      (watchedEnv source (uncachedAction source strtod) fuel) rfl alongside_act fuel with
    ⟨hnone, hnone'⟩ | ⟨r, r', hrun, hrun', hagree⟩
  · rw [hnone, hnone']
    exact Or.inl ⟨rfl, rfl⟩
  · rw [hrun, hrun']
    refine Or.inr ?_
    cases hagree with
    | error e => exact ⟨_, _, rfl, rfl, .error e⟩
    | @ok a b h =>
        obtain ⟨i, s, l⟩ := a
        obtain ⟨j, s', l'⟩ := b
        have hobjects := h.2.shape.objects
        simp only
        generalize s.m_objects = objects at hobjects ⊢
        generalize s'.m_objects = objects' at hobjects ⊢
        cases hobjects with
        | nil => exact ⟨_, _, rfl, rfl, .error _⟩
        | cons _ _ => exact ⟨_, _, rfl, rfl, .ok h.2.leaves⟩

/-- A literal that has been found has its own value exactly where the maps give it. -/
theorem unobservable_iff (source : StringT) (strtod : StringT → F) : Unobservable source strtod ↔
    ∀ fuel r, parseLeaves source (parseAction source strtod) fuel = some (.ok r) →
      r.2 = r.2.map (fun e => freshLeaf source strtod e.1) := by
  constructor
  · intro h fuel r hr
    rcases parseLeaves_alongside source strtod fuel with ⟨hnone, -⟩ | ⟨out, out', hout, hout', hagree⟩
    · rw [hr] at hnone
      cases hnone
    · obtain rfl := Option.some.inj (hr.symm.trans hout)
      cases hagree with
      | ok hleaves => exact (h.leaves _ _ _ _ hr hout').trans hleaves
  · intro h
    refine ⟨⟨?_, ?_⟩, ?_⟩
    · rintro ⟨fuel, r, hr⟩
      rcases parseLeaves_alongside source strtod fuel with ⟨hnone, -⟩ | ⟨out, out', hout, hout', hagree⟩
      · rw [hr] at hnone
        cases hnone
      · obtain rfl := Option.some.inj (hr.symm.trans hout)
        cases hagree with
        | ok _ => exact ⟨fuel, _, hout'⟩
    · rintro ⟨fuel, r, hr⟩
      rcases parseLeaves_alongside source strtod fuel with ⟨-, hnone⟩ | ⟨out, out', hout, hout', hagree⟩
      · rw [hr] at hnone
        cases hnone
      · obtain rfl := Option.some.inj (hr.symm.trans hout')
        cases hagree with
        | ok _ => exact ⟨fuel, _, hout⟩
    · intro fuel fuel' r r' hr hr'
      have hmax := parseLeaves_mono (Nat.le_max_left fuel fuel') hr
      have hmax' := parseLeaves_mono (Nat.le_max_right fuel fuel') hr'
      rcases parseLeaves_alongside source strtod (max fuel fuel') with ⟨hnone, -⟩ | ⟨out, out', hout, hout', hagree⟩
      · rw [hmax] at hnone
        cases hnone
      · obtain rfl := Option.some.inj (hmax.symm.trans hout)
        obtain rfl := Option.some.inj (hmax'.symm.trans hout')
        cases hagree with
        | ok hleaves => exact (h _ _ hr).trans hleaves.symm

/-- **The maps are not observed** exactly where no two doubles of an accepted source, neither of them less than the
other, are different. -/
theorem interning_unobservable_iff (source : StringT) (strtod : StringT → F) : Unobservable source strtod ↔
    ∀ w ts, Derives source w ts → (∀ t ∈ w, t.term = 0 → Decodes source t) →
      (w.filter (fun t => decide (t.term = 2))).Pairwise (fun t t' =>
        Tie (strtod (source.drop t.start)) (strtod (source.drop t'.start)) →
          strtod (source.drop t.start) = strtod (source.drop t'.start)) := by
  have hvalues : ∀ w ts, Derives source w ts →
      ((runLeaves source strtod .empty (pairsLeaves ts)).1 =
        (runLeaves source strtod .empty (pairsLeaves ts)).1.map (fun e => freshLeaf source strtod e.1) ↔
      (w.filter (fun t => decide (t.term = 2))).Pairwise (fun t t' =>
        Tie (strtod (source.drop t.start)) (strtod (source.drop t'.start)) →
          strtod (source.drop t.start) = strtod (source.drop t'.start))) := by
    rintro w ts ⟨-, -, -, -, -, hspelled⟩
    have htokens : (JTree.object ts).tokens 2 = w.filter (fun t => decide (t.term = 2)) :=
      hspelled.tokens (by decide)
    have hfresh : (runLeaves source strtod .empty (pairsLeaves ts)).1.map (fun e => freshLeaf source strtod e.1) =
        (pairsLeaves ts).map (freshLeaf source strtod) := by
      conv_rhs => rw [← map_fst_runLeaves source strtod .empty (pairsLeaves ts)]
      rw [List.map_map]
      rfl
    rw [hfresh, runLeaves_fresh_iff Caches.ok_empty List.Pairwise.nil, filter_pairsLeaves, List.pairwise_map]
    have hpairs : pairsTokens 2 ts = w.filter (fun t => decide (t.term = 2)) := htokens
    rw [hpairs]
    exact and_iff_right (fun e he => absurd he List.not_mem_nil)
  rw [unobservable_iff]
  constructor
  · intro h w ts hderives hdecodes
    obtain ⟨fuel, v, hv⟩ := parseLeaves_of_derives strtod hderives hdecodes
    exact (hvalues w ts hderives).mp (h fuel _ hv)
  · intro h fuel r hr
    obtain ⟨w, ts, hderives, hdecodes, hleaves⟩ := derives_of_parseLeaves hr
    rw [hleaves]
    exact (hvalues w ts hderives).mpr (h w ts hderives hdecodes)

end Results

/-- The zeros of a double: neither is less than the other. -/
inductive Zero where
  | positive
  | negative
deriving DecidableEq, Repr

instance : LT Zero := ⟨fun _ _ => False⟩

instance : DecidableLT Zero := fun _ _ => .isFalse id

/-- `strtod` on the text of a zero. -/
def strtodZero (text : StringT) : Zero := if text.head? = some 0x2d then .negative else .positive

/-- `{"a":[0.0,-0.0]}` -/
def zerosText : StringT :=
  [0x7b, 0x22, 0x61, 0x22, 0x3a, 0x5b, 0x30, 0x2e, 0x30, 0x2c, 0x2d, 0x30, 0x2e, 0x30, 0x5d, 0x7d]

/-- The doubles among the values that were pushed. -/
def pushedDoubles {F : Type} (leaves : List (Leaf × VarC F)) : List F :=
  leaves.filterMap (fun e => match e.2 with
    | .float d => some d
    | _ => none)

/-- **Minus zero is found as zero.** After `0.0`, which is in the map, `-0.0` is positive. -/
theorem zero_shared : ¬ Unobservable zerosText strtodZero := by
  intro h
  have hcached : (parseLeaves zerosText (parseAction zerosText strtodZero) 60).bind
      (fun out => out.toOption.map (fun r => pushedDoubles r.2)) = some [.positive, .positive] := by
    decide +kernel
  have huncached : (parseLeaves zerosText (uncachedAction zerosText strtodZero) 60).bind
      (fun out => out.toOption.map (fun r => pushedDoubles r.2)) = some [.positive, .negative] := by
    decide +kernel
  obtain ⟨out, hout, hdoubles⟩ := Option.bind_eq_some_iff.mp hcached
  obtain ⟨out', hout', hdoubles'⟩ := Option.bind_eq_some_iff.mp huncached
  obtain ⟨r, hr, hpushed⟩ := Option.map_eq_some_iff.mp hdoubles
  obtain ⟨r', hr', hpushed'⟩ := Option.map_eq_some_iff.mp hdoubles'
  cases out with
  | error e => cases hr
  | ok a =>
      cases out' with
      | error e => cases hr'
      | ok b =>
          obtain rfl := Option.some.inj hr
          obtain rfl := Option.some.inj hr'
          rw [h.leaves _ _ _ _ hout hout', hpushed'] at hpushed
          simp at hpushed

end Ccljson
end Cclib
