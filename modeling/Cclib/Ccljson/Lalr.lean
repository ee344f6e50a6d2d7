import Cclib.Lib.Loop
import Cclib.Ccljson.Tables

/-!
# `Ccljson.Lalr` — the shift/reduce loop of `parse_source`

`parse_source` retrieves terminals, looks their action up in the table and shifts, reduces or stops.
`parseRound` is one round of that loop with two things left open: where terminals come from (`next`, the
lexer in `parse_source`) and what a reduction does besides the stack (`act`, the parse actions). The
parser proper is `Ccljson.Parser`; with a list of terminals and no actions the same loop is the
recogniser of `Ccljson.Recognise`.

A round of the model is either the retrieval of one terminal or one table action, in the order of the
source; the end of the loop (`break`) is the only successful result.
-/

namespace Cclib
namespace Ccljson

/-- How `parse` fails: the exceptions it throws, the `assert(false)` of the string action, the
    `std::length_error` of `reserve`, and the undefined uses of an empty stack (no action has one, see
    `Ccljson.Stacks`) or of a string past its closing quote. -/
inductive JsonError where
  | unrecognizedTerminal
  | invalidSyntax
  | assertFailed
  | lengthError
  | emptyStack
  | overrun
deriving DecidableEq, Repr

/-- The message of the exception. -/
def JsonError.what : JsonError → Option String
  | .unrecognizedTerminal => some "json parse, unrecognized terminal symbol"
  | .invalidSyntax => some "json parse, invalid json syntax"
  | .lengthError => some "basic_string::reserve"
  | .assertFailed | .emptyStack | .overrun => none

/-- An element of `m_lalr_stack`. -/
structure StackElemC where
  m_state : Nat
  m_term_start : Nat
  m_term_end : Nat
deriving DecidableEq, Repr

/-- `stack_elem_c(uint32_t a_state)`. -/
def StackElemC.ofState (a_state : Nat) : StackElemC := ⟨a_state, 0, 0⟩

/-- A retrieved terminal: `ret_term` with `m_old_input_idx` and `input_idx` around it. -/
structure Token where
  term : Nat
  start : Nat
  stop : Nat
deriving DecidableEq, Repr

/-- The variables of the loop; the head of `stack` is `m_lalr_stack.back()`. -/
structure LalrState (ι σ : Type) where
  input : ι
  ret_term : Option Token
  m_lalr_stack : List StackElemC
  sem : σ

/-- What `parse_source` is run with. -/
structure LalrEnv (ι σ : Type) where
  /-- The next terminal, if its retrieval returns. -/
  next : ι → Option (Except JsonError (Token × ι))
  /-- The parse action of a rule, given the top of the stack. -/
  act : Nat → StackElemC → σ → Except JsonError σ

variable {ι σ : Type}

/-- The loop starts on the bottom state alone. -/
def lalrInit (input : ι) (sem : σ) : LalrState ι σ :=
  { input := input, ret_term := none, m_lalr_stack := [.ofState 0], sem := sem }

/-- Reduce by `rule`: run its action, drop its body from the stack, push the goto state. -/
def reduceBy (env : LalrEnv ι σ) (rule : Nat) (top : StackElemC) (s : LalrState ι σ) :
    LalrState ι σ ⊕ Except JsonError (ι × σ) :=
  match env.act rule top s.sem with
  | .error e => .inr (.error e)
  | .ok sem =>
    match s.m_lalr_stack.drop (ruleLength rule) with
    | [] => .inr (.error .emptyStack)
    | back :: below =>
      .inl { s with
        m_lalr_stack := .ofState (lalrCell back.m_state (ruleHead rule)) :: back :: below
        sem := sem }

/-- The table action for the retrieved terminal. -/
def actOn (env : LalrEnv ι σ) (tok : Token) (s : LalrState ι σ) :
    LalrState ι σ ⊕ Except JsonError (ι × σ) :=
  match s.m_lalr_stack with
  | [] => .inr (.error .emptyStack)
  | top :: stack =>
    match lalrAction top.m_state tok.term with
    | .error => .inr (.error .invalidSyntax)
    | .shift state =>
      if tok.term = 13 then .inr (.ok (s.input, s.sem))
      else .inl { s with
        ret_term := none
        m_lalr_stack := ⟨state, tok.start, tok.stop⟩ :: top :: stack }
    | .reduce rule => reduceBy env rule top s

/-- One round of `parse_source`. -/
def parseRound (env : LalrEnv ι σ) : Loop.Body (LalrState ι σ) (Except JsonError (ι × σ)) := fun s =>
  match s.ret_term with
  | none =>
    match env.next s.input with
    | none => none
    | some (.error e) => some (.inr (.error e))
    -- `_SKIP_` terminals are dropped
    | some (.ok (tok, input)) =>
      some (.inl { s with input := input, ret_term := if tok.term = 12 then none else some tok })
  | some tok => some (actOn env tok s)

/-- The rounds that go on. -/
inductive Round (env : LalrEnv ι σ) (s : LalrState ι σ) : LalrState ι σ → Prop
  | retrieve {tok : Token} {input : ι} (htok : s.ret_term = none) (hnext : env.next s.input = some (.ok (tok, input))) :
      Round env s { s with input := input, ret_term := if tok.term = 12 then none else some tok }
  | shift {tok : Token} {top : StackElemC} {stack : List StackElemC} {state : Nat} (htok : s.ret_term = some tok)
      (hstack : s.m_lalr_stack = top :: stack) (hact : lalrAction top.m_state tok.term = .shift state)
      (hend : tok.term ≠ 13) : Round env s { s with
        ret_term := none, m_lalr_stack := ⟨state, tok.start, tok.stop⟩ :: top :: stack }
  | reduce {tok : Token} {top back : StackElemC} {stack below : List StackElemC} {rule : Nat} {sem : σ}
      (htok : s.ret_term = some tok) (hstack : s.m_lalr_stack = top :: stack)
      (hact : lalrAction top.m_state tok.term = .reduce rule) (hsem : env.act rule top s.sem = .ok sem)
      (hdrop : s.m_lalr_stack.drop (ruleLength rule) = back :: below) : Round env s { s with
        m_lalr_stack := .ofState (lalrCell back.m_state (ruleHead rule)) :: back :: below, sem := sem }

theorem round_of_next {env : LalrEnv ι σ} {s s' : LalrState ι σ} (h : Loop.Next (parseRound env) s s') : Round env s s' := by
  unfold Loop.Next parseRound at h
  split at h
  · rename_i htok
    split at h
    · cases h
    · cases h
    · rename_i tok input hnext
      cases h
      exact .retrieve htok hnext
  · rename_i tok htok
    rw [Option.some.injEq, actOn] at h
    split at h
    · cases h
    · rename_i top stack hstack
      split at h
      · cases h
      · rename_i state hact
        split at h
        · cases h
        · rename_i hend
          cases h
          exact .shift htok hstack hact hend
      · rename_i rule hact
        unfold reduceBy at h
        split at h
        · cases h
        · rename_i sem hsem
          split at h
          · cases h
          · rename_i back below hdrop
            cases h
            exact .reduce htok hstack hact hsem hdrop

/-- The loop ends well where it would shift the end of the input. -/
theorem accept_of_done {env : LalrEnv ι σ} {s : LalrState ι σ} {r : ι × σ} (h : parseRound env s = some (.inr (.ok r))) :
    ∃ tok top stack state, s.ret_term = some tok ∧ s.m_lalr_stack = top :: stack ∧
      lalrAction top.m_state tok.term = .shift state ∧ tok.term = 13 ∧ r = (s.input, s.sem) := by
  unfold parseRound at h
  split at h
  · split at h <;> cases h
  · rename_i tok htok
    rw [Option.some.injEq, actOn] at h
    split at h
    · cases h
    · rename_i top stack hstack
      split at h
      · cases h
      · rename_i state hact
        split at h
        · rename_i hend
          cases h
          exact ⟨tok, top, stack, state, htok, hstack, hact, hend, rfl⟩
        · cases h
      · unfold reduceBy at h
        split at h
        · cases h
        · split at h <;> cases h

/-- The rounds that fail. -/
inductive FailedRound (env : LalrEnv ι σ) (s : LalrState ι σ) : JsonError → Prop
  | retrieve {e : JsonError} (hnext : env.next s.input = some (.error e)) : FailedRound env s e
  | bottom (hstack : s.m_lalr_stack = []) : FailedRound env s .emptyStack
  | blank : FailedRound env s .invalidSyntax
  | act {tok : Token} {top : StackElemC} {stack : List StackElemC} {rule : Nat} {e : JsonError}
      (htok : s.ret_term = some tok) (hstack : s.m_lalr_stack = top :: stack)
      (hact : lalrAction top.m_state tok.term = .reduce rule) (herror : env.act rule top s.sem = .error e) :
      FailedRound env s e
  | drop {tok : Token} {top : StackElemC} {stack : List StackElemC} {rule : Nat} (htok : s.ret_term = some tok)
      (hstack : s.m_lalr_stack = top :: stack) (hact : lalrAction top.m_state tok.term = .reduce rule)
      (hdrop : s.m_lalr_stack.drop (ruleLength rule) = []) : FailedRound env s .emptyStack

theorem failedRound_of_done {env : LalrEnv ι σ} {s : LalrState ι σ} {e : JsonError}
    (h : parseRound env s = some (.inr (.error e))) : FailedRound env s e := by
  unfold parseRound at h
  split at h
  · split at h
    · cases h
    · rename_i hnext
      cases h
      exact .retrieve hnext
    · cases h
  · rename_i tok htok
    rw [Option.some.injEq, actOn] at h
    split at h
    · rename_i hstack
      cases h
      exact .bottom hstack
    · rename_i top stack hstack
      split at h
      · cases h
        exact .blank
      · split at h <;> cases h
      · rename_i rule hact
        unfold reduceBy at h
        split at h
        · rename_i herror
          cases h
          exact .act htok hstack hact herror
        · split at h
          · rename_i hdrop
            cases h
            exact .drop htok hstack hact hdrop
          · cases h

/-! ## Two loops side by side -/

/-- The same exception, or results that are related. -/
inductive Agree {α β : Type} (R : α → β → Prop) : Except JsonError α → Except JsonError β → Prop
  | ok {a : α} {b : β} (h : R a b) : Agree R (.ok a) (.ok b)
  | error (e : JsonError) : Agree R (.error e) (.error e)

/-- States of two loops that differ in what the actions work on only. -/
structure Beside {σ' : Type} (R : σ → σ' → Prop) (s : LalrState ι σ) (s' : LalrState ι σ') : Prop where
  input : s'.input = s.input
  ret_term : s'.ret_term = s.ret_term
  stack : s'.m_lalr_stack = s.m_lalr_stack
  sem : R s.sem s'.sem

section Beside

variable {σ' : Type} {R : σ → σ' → Prop} {env : LalrEnv ι σ} {env' : LalrEnv ι σ'}

/-- One round of both. -/
theorem Beside.round {s : LalrState ι σ} {s' : LalrState ι σ'} (h : Beside R s s') (hnext : env'.next = env.next)
    (hact : ∀ rule top a b, R a b → Agree R (env.act rule top a) (env'.act rule top b)) :
    (parseRound env s = none ∧ parseRound env' s' = none) ∨
    (∃ t t', parseRound env s = some (.inl t) ∧ parseRound env' s' = some (.inl t') ∧ Beside R t t') ∨
    ∃ r r', parseRound env s = some (.inr r) ∧ parseRound env' s' = some (.inr r') ∧
      Agree (fun a b => b.1 = a.1 ∧ R a.2 b.2) r r' := by
  obtain ⟨input, ret_term, stack, sem⟩ := s
  obtain ⟨input', ret_term', stack', sem'⟩ := s'
  obtain rfl : input' = input := h.input
  obtain rfl : ret_term' = ret_term := h.ret_term
  obtain rfl : stack' = stack := h.stack
  have hsem : R sem sem' := h.sem
  cases ret_term' with
  | none =>
      simp only [parseRound, hnext]
      cases env.next input' with
      | none => exact Or.inl ⟨rfl, rfl⟩
      | some out =>
          cases out with
          | error e => exact Or.inr (Or.inr ⟨_, _, rfl, rfl, .error e⟩)
          | ok r => exact Or.inr (Or.inl ⟨_, _, rfl, rfl, ⟨rfl, rfl, rfl, hsem⟩⟩)
  | some tok =>
      cases stack' with
      | nil => exact Or.inr (Or.inr ⟨_, _, rfl, rfl, .error _⟩)
      | cons top stack =>
          simp only [parseRound, actOn]
          cases lalrAction top.m_state tok.term with
          | error => exact Or.inr (Or.inr ⟨_, _, rfl, rfl, .error _⟩)
          | shift state =>
              by_cases hend : tok.term = 13
              · simp only [hend, if_true]
                exact Or.inr (Or.inr ⟨_, _, rfl, rfl, .ok ⟨rfl, hsem⟩⟩)
              · simp only [hend, if_false]
                exact Or.inr (Or.inl ⟨_, _, rfl, rfl, ⟨rfl, rfl, rfl, hsem⟩⟩)
          | reduce rule =>
              simp only [reduceBy]
              have hagree := hact rule top sem sem' hsem
              generalize env.act rule top sem = out at hagree ⊢
              generalize env'.act rule top sem' = out' at hagree ⊢
              cases hagree with
              | error e => exact Or.inr (Or.inr ⟨_, _, rfl, rfl, .error e⟩)
              | ok hsem' =>
                  cases (top :: stack).drop (ruleLength rule) with
                  | nil => exact Or.inr (Or.inr ⟨_, _, rfl, rfl, .error _⟩)
                  | cons back below => exact Or.inr (Or.inl ⟨_, _, rfl, rfl, ⟨rfl, rfl, rfl, hsem'⟩⟩)

variable (env env') in
/-- **Two loops over the same terminals, with related actions, end alike.** -/
theorem Beside.run (hnext : env'.next = env.next)
    (hact : ∀ rule top a b, R a b → Agree R (env.act rule top a) (env'.act rule top b)) (n : Nat)
    {s : LalrState ι σ} {s' : LalrState ι σ'} (h : Beside R s s') :
    (Loop.run (parseRound env) n s = none ∧ Loop.run (parseRound env') n s' = none) ∨
    ∃ r r', Loop.run (parseRound env) n s = some r ∧ Loop.run (parseRound env') n s' = some r' ∧
      Agree (fun a b => b.1 = a.1 ∧ R a.2 b.2) r r' := by
  induction n generalizing s s' with
  | zero => exact Or.inl ⟨rfl, rfl⟩
  | succ n ih =>
      rcases h.round hnext hact with ⟨hnone, hnone'⟩ | ⟨t, t', hgo, hgo', hbeside⟩ | ⟨r, r', hdone, hdone', hagree⟩
      · exact Or.inl ⟨by simp only [Loop.run, hnone], by simp only [Loop.run, hnone']⟩
      · rw [Loop.run_next hgo, Loop.run_next hgo']
        exact ih hbeside
      · exact Or.inr ⟨r, r', Loop.run_done hdone n, Loop.run_done hdone' n, hagree⟩

end Beside

/-- A loop whose retrievals answer more answers more. -/
theorem parseRound_refines {env env' : LalrEnv ι σ} (hact : env'.act = env.act)
    (hnext : ∀ i r, env.next i = some r → env'.next i = some r) :
    Loop.Refines (parseRound env) (parseRound env') := by
  intro s out h
  unfold parseRound at h ⊢
  split at h
  · split at h
    · cases h
    · rename_i e hretrieve
      rw [hnext _ _ hretrieve]
      exact h
    · rename_i tok input hretrieve
      rw [hnext _ _ hretrieve]
      exact h
  · unfold actOn reduceBy at h ⊢
    rw [hact]
    exact h

/-! ## Where terminals come from -/

/-- From `i`, retrieving terminals gives `toks`, skips left out, and arrives at `j`. -/
inductive Supplies (next : ι → Option (Except JsonError (Token × ι))) : ι → List Token → ι → Prop
  | nil {i : ι} : Supplies next i [] i
  | skip {i j k : ι} {tok : Token} {toks : List Token} (h : next i = some (.ok (tok, j)))
      (hs : tok.term = 12) (hrest : Supplies next j toks k) : Supplies next i toks k
  | cons {i j k : ι} {tok : Token} {toks : List Token} (h : next i = some (.ok (tok, j)))
      (hs : tok.term ≠ 12) (hrest : Supplies next j toks k) : Supplies next i (tok :: toks) k

variable {next : ι → Option (Except JsonError (Token × ι))} {i j k : ι} {toks toks' : List Token}

theorem Supplies.trans (h : Supplies next i toks j) (h' : Supplies next j toks' k) :
    Supplies next i (toks ++ toks') k := by
  induction h with
  | nil => exact h'
  | skip h hs _ ih => exact .skip h hs (ih h')
  | cons h hs _ ih => exact .cons h hs (ih h')

/-- One more retrieval. -/
theorem Supplies.snoc {tok : Token} (h : Supplies next i toks j) (hnext : next j = some (.ok (tok, k))) :
    Supplies next i (toks ++ if tok.term = 12 then [] else [tok]) k := by
  refine h.trans ?_
  by_cases hs : tok.term = 12
  · rw [if_pos hs]
    exact .skip hnext hs .nil
  · rw [if_neg hs]
    exact .cons hnext hs .nil

theorem Supplies.split (h : Supplies next i (toks ++ toks') k) :
    ∃ j, Supplies next i toks j ∧ Supplies next j toks' k := by
  generalize hl : toks ++ toks' = l at h
  induction h generalizing toks with
  | nil =>
      obtain ⟨rfl, rfl⟩ := List.append_eq_nil_iff.mp hl
      exact ⟨_, .nil, .nil⟩
  | skip h hs _ ih =>
      obtain ⟨j, hfront, hback⟩ := ih hl
      exact ⟨j, .skip h hs hfront, hback⟩
  | cons h hs hrest ih =>
      cases toks with
      | nil =>
          cases hl
          exact ⟨_, .nil, .cons h hs hrest⟩
      | cons t toks =>
          cases hl
          obtain ⟨j, hfront, hback⟩ := ih rfl
          exact ⟨j, .cons h hs hfront, hback⟩

/-- A source of terminals that answers whatever `next` answers supplies the same. -/
theorem Supplies.imp {next' : ι → Option (Except JsonError (Token × ι))}
    (hle : ∀ i r, next i = some r → next' i = some r) (h : Supplies next i toks j) :
    Supplies next' i toks j := by
  induction h with
  | nil => exact .nil
  | skip h hs _ ih => exact .skip (hle _ _ h) hs ih
  | cons h hs _ ih => exact .cons (hle _ _ h) hs ih

/-- Two supplies from one place agree as far as they go. -/
theorem Supplies.compare (h : Supplies next i toks j) (h' : Supplies next i toks' k) :
    (∃ rest, toks = toks' ++ rest) ∨ ∃ t rest, toks' = toks ++ t :: rest ∧ Supplies next j (t :: rest) k := by
  induction h generalizing toks' with
  | nil =>
      cases toks' with
      | nil => exact Or.inl ⟨[], rfl⟩
      | cons t rest => exact Or.inr ⟨t, rest, rfl, h'⟩
  | skip h hs _ ih =>
      cases h' with
      | nil => exact Or.inl ⟨_, rfl⟩
      | skip h₁ hs₁ hrest₁ =>
          cases Except.ok.inj (Option.some.inj (h.symm.trans h₁))
          exact ih hrest₁
      | cons h₁ hs₁ hrest₁ =>
          cases Except.ok.inj (Option.some.inj (h.symm.trans h₁))
          exact absurd hs hs₁
  | cons h hs _ ih =>
      cases h' with
      | nil => exact Or.inl ⟨_, rfl⟩
      | skip h₁ hs₁ hrest₁ =>
          cases Except.ok.inj (Option.some.inj (h.symm.trans h₁))
          exact absurd hs₁ hs
      | cons h₁ hs₁ hrest₁ =>
          cases Except.ok.inj (Option.some.inj (h.symm.trans h₁))
          rcases ih hrest₁ with ⟨rest, rfl⟩ | ⟨t, rest, rfl, hmore⟩
          · exact Or.inl ⟨rest, rfl⟩
          · exact Or.inr ⟨t, rest, rfl, hmore⟩

/-- Terminals that are read are retrieved by the loop, one after the other. -/
theorem Supplies.reaches {env : LalrEnv ι σ} {tok : Token} (h : Supplies env.next i (tok :: toks) k)
    (stack : List StackElemC) (sem : σ) : ∃ j, Supplies env.next i [tok] j ∧ Supplies env.next j toks k ∧
      Loop.Reaches (parseRound env) ⟨i, none, stack, sem⟩ ⟨j, some tok, stack, sem⟩ := by
  generalize hl : tok :: toks = l at h
  induction h with
  | nil => cases hl
  | @skip i j k tok' _ h hs _ ih =>
      obtain ⟨j', hone, hj', hreach⟩ := ih hl
      refine ⟨j', .skip h hs hone, hj', Relation.ReflTransGen.head (b := ⟨j, none, stack, sem⟩) ?_ hreach⟩
      simp [Loop.Next, parseRound, h, hs]
  | @cons i j k tok' toks' h hs hrest _ =>
      cases hl
      refine ⟨j, .cons h hs .nil, hrest, Relation.ReflTransGen.single ?_⟩
      simp [Loop.Next, parseRound, h, hs]

end Ccljson
end Cclib
