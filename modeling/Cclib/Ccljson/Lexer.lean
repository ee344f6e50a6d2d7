import Cclib.Cclvar.Value
import Cclib.Ccljson.Lalr

/-!
# `Ccljson.Lexer` — `parser_c::recognize_terminal`

The lexer is 36 labels and `goto`s. `lexArms` lists the conditions of a label in the order of the source,
`lexTerminal` what it returns. One round of `lexRound` is the code between two labels; the cursor is a
`uint32_t`.

`recognizeTerminal_of_scan` is the rule for lexing known text: it follows `scan`, the automaton on a list
of bytes, as far as the cursor does not wrap.
-/

namespace Cclib
namespace Ccljson
open Cclvar

/-- The labels of `recognize_terminal`. -/
inductive LexState where
  | state0 | state1 | state2 | state3 | state4 | state5 | state6 | state7 | state8 | state9 | state10 | state11
  | state12 | state13 | state14 | state15 | state16 | state17 | state18 | state19 | state20 | state21 | state22 | state23
  | state24 | state25 | state26 | state27 | state28 | state29 | state30 | state31 | state32 | state33 | state34 | state35
deriving DecidableEq, Repr

/-- The conditions on `in_char` with where they go, each a range from its first character up to below its
    second. -/
def lexArms : LexState → List (Nat × Nat × LexState)
  | .state0 => [(0, 1, .state1), (8, 14, .state15), (32, 33, .state15), (34, 35, .state2),
      (44, 45, .state3), (45, 46, .state4), (48, 49, .state5), (49, 58, .state6), (58, 59, .state7),
      (91, 92, .state8), (93, 94, .state9), (102, 103, .state10), (110, 111, .state11),
      (116, 117, .state12), (123, 124, .state13), (125, 126, .state14)]
  | .state2 => [(0, 34, .state2), (34, 35, .state16), (35, 92, .state2), (92, 93, .state17),
      (93, 256, .state2)]
  | .state4 => [(48, 49, .state5), (49, 58, .state6)]
  | .state5 => [(46, 47, .state18), (69, 70, .state19), (101, 102, .state19)]
  | .state6 => [(46, 47, .state18), (48, 58, .state6), (69, 70, .state19), (101, 102, .state19)]
  | .state10 => [(97, 98, .state20)]
  | .state11 => [(117, 118, .state21)]
  | .state12 => [(114, 115, .state22)]
  | .state15 => [(8, 14, .state15), (32, 33, .state15)]
  | .state17 => [(34, 35, .state2), (47, 48, .state2), (92, 93, .state2), (98, 99, .state2),
      (102, 103, .state2), (110, 111, .state2), (114, 115, .state2), (116, 117, .state2),
      (117, 118, .state23)]
  | .state18 => [(48, 58, .state18), (69, 70, .state19), (101, 102, .state19)]
  | .state19 => [(43, 44, .state24), (45, 46, .state24), (48, 58, .state25)]
  | .state20 => [(108, 109, .state26)]
  | .state21 => [(108, 109, .state27)]
  | .state22 => [(117, 118, .state28)]
  | .state23 => [(48, 58, .state29), (65, 71, .state29), (97, 103, .state29)]
  | .state24 => [(48, 58, .state25)]
  | .state25 => [(48, 58, .state25)]
  | .state26 => [(115, 116, .state30)]
  | .state27 => [(108, 109, .state31)]
  | .state28 => [(101, 102, .state32)]
  | .state29 => [(48, 58, .state33), (65, 71, .state33), (97, 103, .state33)]
  | .state30 => [(101, 102, .state34)]
  | .state33 => [(48, 58, .state35), (65, 71, .state35), (97, 103, .state35)]
  | .state35 => [(48, 58, .state2), (65, 71, .state2), (97, 103, .state2)]
  | _ => []

/-- What a label returns: the argument of `JSON_CLOSE_CHAR`, which state 0 alone does not call, and of the
    `return` at its end; `none` for `c_idx_not_exist`. -/
def lexTerminal : LexState → Option Nat
  | .state1 => some 13
  | .state3 => some 10
  | .state5 | .state6 => some 1
  | .state7 => some 11
  | .state8 => some 8
  | .state9 => some 9
  | .state13 => some 6
  | .state14 => some 7
  | .state15 => some 12
  | .state16 => some 0
  | .state18 | .state25 => some 2
  | .state31 => some 5
  | .state32 => some 3
  | .state34 => some 4
  | _ => none

/-- Where `in_char` leads from a label: to another label, or out. -/
def lexGoto (state : LexState) (in_char : Nat) : LexState ⊕ Option Nat :=
  match (lexArms state).find? (fun arm => decide (arm.1 ≤ in_char ∧ in_char < arm.2.1)) with
  | some arm => .inl arm.2.2
  | none => .inr (lexTerminal state)

/-- `JSON_GET_NEXT_CHAR`. -/
def inChar (source : StringT) (input_idx : Nat) : Nat :=
  match source[input_idx]? with
  | some c => c.toNat
  | none => 0

/-- The range of `uint32_t`. -/
def c_uint32_range : Nat := 2 ^ 32

/-- From one label to the next: `JSON_CLOSE_CHAR`, `JSON_GET_NEXT_CHAR` and the conditions. The labels
    without conditions return whatever the next character is. -/
def lexRound (source : StringT) : Loop.Body (LexState × Nat × Nat) (Option Nat × Nat)
  | (state, in_char, input_idx) =>
    if in_char = 0 then some (.inr (lexTerminal state, input_idx))
    else
      let input_idx := (input_idx + 1) % c_uint32_range
      match lexGoto state (inChar source input_idx) with
      | .inl state => some (.inl (state, inChar source input_idx, input_idx))
      | .inr term => some (.inr (term, input_idx))

/-- `parser_c::recognize_terminal` with a bound on the characters read: the terminal, `none` for
    `c_idx_not_exist`, and the cursor after it. -/
def recognizeTerminal (fuel : Nat) (source : StringT) (input_idx : Nat) : Option (Option Nat × Nat) :=
  match lexGoto .state0 (inChar source input_idx) with
  | .inl state => Loop.run (lexRound source) fuel (state, inChar source input_idx, input_idx)
  | .inr term => some (term, input_idx)

/-! ## Characters -/

/-- What holds of the 256 bytes holds of every byte. -/
theorem forall_byte {p : UInt8 → Prop} (h : ∀ n < 256, p (UInt8.ofNat n)) (c : UInt8) : p c := by
  have := h c.toNat c.toNat_lt
  rwa [UInt8.ofNat_toNat] at this

/-- What holds of the bytes of a text is found out byte by byte. -/
theorem forall_mem_of_all {l : StringT} {p : UInt8 → Prop} [DecidablePred p] (h : l.all (fun c => decide (p c)) = true) :
    ∀ c ∈ l, p c := by
  intro c hc
  exact of_decide_eq_true (List.all_eq_true.mp h c hc)

variable {source rest lexeme : StringT} {i : Nat} {state : LexState} {term : Option Nat}

theorem inChar_eq (source : StringT) (i : Nat) : inChar source i = ((source.drop i).headD 0).toNat := by
  unfold inChar
  rw [List.headD_eq_head?_getD, List.head?_drop]
  cases source[i]? <;> rfl

theorem inChar_of_drop {c : UInt8} (h : source.drop i = c :: rest) : inChar source i = c.toNat := by
  rw [inChar_eq, h, List.headD_cons]

theorem drop_succ {c : UInt8} (h : source.drop i = c :: rest) : source.drop (i + 1) = rest := by
  rw [← List.tail_drop, h, List.tail_cons]

/-! ## Lexing known text -/

/-- The label the characters lead to. -/
def scan : LexState → StringT → Option LexState
  | state, [] => some state
  | state, c :: cs =>
    match lexGoto state c.toNat with
    | .inl state => scan state cs
    | .inr _ => none

theorem scan_append (state : LexState) (cs ds : StringT) :
    scan state (cs ++ ds) = (scan state cs).bind (fun state' => scan state' ds) := by
  induction cs generalizing state with
  | nil => rfl
  | cons c cs ih =>
      simp only [List.cons_append, scan]
      split
      · exact ih _
      · rfl

/-- A round that goes on to another label. -/
theorem lexRound_goto {in_char : Nat} {state' : LexState} (hc : in_char ≠ 0)
    (hlt : i + 1 < c_uint32_range) (h : lexGoto state (inChar source (i + 1)) = .inl state') :
    Loop.Next (lexRound source) (state, in_char, i) (state', inChar source (i + 1), i + 1) := by
  simp only [Loop.Next, lexRound, if_neg hc, Nat.mod_eq_of_lt hlt, h]

/-- A round that returns. -/
theorem lexRound_return {in_char : Nat} (hc : in_char ≠ 0) (hlt : i + 1 < c_uint32_range)
    (h : lexGoto state (inChar source (i + 1)) = .inr term) :
    lexRound source (state, in_char, i) = some (.inr (term, i + 1)) := by
  simp only [lexRound, if_neg hc, Nat.mod_eq_of_lt hlt, h]

/-- The rounds over the rest of a lexeme lead to its last character. -/
theorem run_scan {c : UInt8} {state' : LexState} (fuel : Nat) (hdrop : source.drop i = c :: lexeme ++ rest)
    (hnul : ∀ d ∈ c :: lexeme, d ≠ 0) (hscan : scan state lexeme = some state')
    (hlt : i + lexeme.length < c_uint32_range) :
    ∃ last : UInt8, last ≠ 0 ∧ Loop.run (lexRound source) (lexeme.length + fuel) (state, c.toNat, i) =
      Loop.run (lexRound source) fuel (state', last.toNat, i + lexeme.length) := by
  have hc : c.toNat ≠ 0 := fun h => hnul c (by simp) (UInt8.toNat_inj.mp h)
  induction lexeme generalizing state c i with
  | nil =>
      obtain rfl : state = state' := Option.some.inj hscan
      exact ⟨c, hnul c (by simp), by simp⟩
  | cons d lexeme ih =>
      have hdrop' : source.drop (i + 1) = d :: lexeme ++ rest := drop_succ (by simpa using hdrop)
      have hnext : inChar source (i + 1) = d.toNat := inChar_of_drop (by simpa using hdrop')
      simp only [List.length_cons] at hlt ⊢
      simp only [scan] at hscan
      split at hscan
      · rename_i state₁ hstep
        have hd : d.toNat ≠ 0 := fun h => hnul d (by simp) (UInt8.toNat_inj.mp h)
        obtain ⟨last, hlast, hrun⟩ := ih hdrop' (fun e he => hnul e (List.mem_cons_of_mem _ he)) hscan
          (by omega) hd
        rw [← hnext] at hstep hrun
        refine ⟨last, hlast, ?_⟩
        rw [show lexeme.length + 1 + fuel = lexeme.length + fuel + 1 by omega,
          Loop.run_next (lexRound_goto hc (by omega) hstep), hrun,
          show i + 1 + lexeme.length = i + (lexeme.length + 1) by omega]
      · cases hscan

/-- The character after a lexeme. -/
theorem inChar_after (hdrop : source.drop i = lexeme ++ rest) :
    inChar source (i + lexeme.length) = (rest.headD 0).toNat := by
  rw [inChar_eq, ← List.drop_drop, hdrop, List.drop_left]

/-- **Lexing known text.** A lexeme is recognised where its automaton stops at what follows. -/
theorem recognizeTerminal_of_scan {fuel : Nat} (hdrop : source.drop i = lexeme ++ rest)
    (hne : lexeme ≠ []) (hnul : ∀ c ∈ lexeme, c ≠ 0)
    (hscan : scan .state0 lexeme = some state) (hgoto : lexGoto state (rest.headD 0).toNat = .inr term)
    (hlt : i + lexeme.length < c_uint32_range) (hfuel : lexeme.length ≤ fuel) :
    recognizeTerminal fuel source i = some (term, i + lexeme.length) := by
  have hafter := inChar_after hdrop
  obtain ⟨c, lexeme, rfl⟩ := List.exists_cons_of_ne_nil hne
  rw [List.length_cons] at hlt hfuel hafter ⊢
  unfold recognizeTerminal
  simp only [scan] at hscan
  rw [inChar_of_drop hdrop]
  split at hscan
  · rename_i state₁ hstep
    obtain ⟨last, hlast, hrun⟩ := run_scan 1 hdrop hnul hscan (by omega)
    have hlast' : last.toNat ≠ 0 := fun h => hlast (UInt8.toNat_inj.mp h)
    rw [← hafter] at hgoto
    refine Loop.run_mono hfuel ?_
    rw [hrun]
    exact Loop.run_done (lexRound_return hlast' (by omega) hgoto) 0
  · cases hscan

/-- A NUL ends a lexeme that could go on. -/
theorem recognizeTerminal_nul {fuel : Nat} {state' : LexState} (hdrop : source.drop i = lexeme ++ 0 :: rest)
    (hne : lexeme ≠ []) (hnul : ∀ c ∈ lexeme, c ≠ 0)
    (hscan : scan .state0 lexeme = some state) (hgoto : lexGoto state 0 = .inl state')
    (hlt : i + lexeme.length < c_uint32_range) (hfuel : lexeme.length < fuel) :
    recognizeTerminal fuel source i = some (lexTerminal state', i + lexeme.length) := by
  have hafter : inChar source (i + lexeme.length) = 0 := inChar_after hdrop
  obtain ⟨c, lexeme, rfl⟩ := List.exists_cons_of_ne_nil hne
  rw [List.length_cons] at hlt hfuel hafter ⊢
  unfold recognizeTerminal
  simp only [scan] at hscan
  rw [inChar_of_drop hdrop]
  split at hscan
  · rename_i state₁ hstep
    obtain ⟨last, hlast, hrun⟩ := run_scan 2 hdrop hnul hscan (by omega)
    have hlast' : last.toNat ≠ 0 := fun h => hlast (UInt8.toNat_inj.mp h)
    rw [← hafter] at hgoto
    have hnext : Loop.Next (lexRound source) (state, last.toNat, i + lexeme.length)
        (state', inChar source (i + (lexeme.length + 1)), i + (lexeme.length + 1)) :=
      lexRound_goto hlast' (by omega) hgoto
    refine Loop.run_mono (show lexeme.length + 2 ≤ fuel by omega) ?_
    rw [hrun, Loop.run_next hnext, hafter]
    exact Loop.run_done rfl 0
  · cases hscan

/-- At the end of the text, or at a NUL, the end of the input is recognised. -/
theorem recognizeTerminal_end {fuel : Nat} (h : inChar source i = 0) (hfuel : 0 < fuel) :
    recognizeTerminal fuel source i = some (some 13, i) := by
  obtain ⟨fuel, rfl⟩ : ∃ n, fuel = n + 1 := ⟨fuel - 1, by omega⟩
  rw [recognizeTerminal, h]
  rfl

/-! ## What is recognised -/

theorem lexTerminal_lt {t : Nat} (h : lexTerminal state = some t) : t < 14 := by
  cases state <;> simp only [lexTerminal, Option.some.injEq, reduceCtorEq] at h <;> omega

/-- A label is left for another by one of its conditions, or for good with its terminal. -/
theorem lexGoto_cases (state : LexState) (in_char : Nat) :
    (∃ arm ∈ lexArms state, lexGoto state in_char = .inl arm.2.2 ∧ arm.1 ≤ in_char ∧ in_char < arm.2.1) ∨
      lexGoto state in_char = .inr (lexTerminal state) := by
  unfold lexGoto
  split
  · rename_i arm harm
    have hcond := List.find?_some harm
    exact Or.inl ⟨arm, List.mem_of_find?_eq_some harm, rfl, of_decide_eq_true hcond⟩
  · exact Or.inr rfl

/-- What the rounds from a label return. -/
theorem lexRound_returns {in_char j : Nat} {fuel : Nat}
    (h : Loop.run (lexRound source) fuel (state, in_char, i) = some (term, j)) :
    ∃ state', term = lexTerminal state' := by
  obtain ⟨⟨state', in_char', i'⟩, -, hdone⟩ := Loop.Returns.exit ⟨fuel, h⟩
  refine ⟨state', ?_⟩
  simp only [lexRound] at hdone
  split at hdone
  · cases hdone
    rfl
  · rcases lexGoto_cases state' (inChar source ((i' + 1) % c_uint32_range)) with ⟨_, _, hgoto, -⟩ | hgoto
    · rw [hgoto] at hdone
      cases hdone
    · rw [hgoto] at hdone
      cases hdone
      rfl

/-- The terminals of the lexer are those of the table. -/
theorem recognizeTerminal_lt {fuel t j : Nat} (h : recognizeTerminal fuel source i = some (some t, j)) :
    t < 14 := by
  unfold recognizeTerminal at h
  split at h
  · obtain ⟨state', hterm⟩ := lexRound_returns h
    exact lexTerminal_lt hterm.symm
  · rename_i term hgoto
    rcases lexGoto_cases .state0 (inChar source i) with ⟨_, _, hgoto', -⟩ | hgoto'
    · rw [hgoto'] at hgoto
      cases hgoto
    · rw [hgoto'] at hgoto
      cases hgoto
      cases h

/-! ## What is read -/

/-- From `i` the cursor moves over `n` characters, none of them a NUL, to `j`. It wraps like a
    `uint32_t`. -/
def Walks (source : StringT) (i n j : Nat) : Prop :=
  j = (i + n) % c_uint32_range ∧ ∀ k < n, inChar source ((i + k) % c_uint32_range) ≠ 0

theorem Walks.refl (hi : i < c_uint32_range) : Walks source i 0 i :=
  ⟨(Nat.mod_eq_of_lt hi).symm, by omega⟩

theorem Walks.trans {n m j k : Nat} (h : Walks source i n j) (h' : Walks source j m k) :
    Walks source i (n + m) k := by
  obtain ⟨rfl, hn⟩ := h
  obtain ⟨rfl, hm⟩ := h'
  refine ⟨by rw [Nat.mod_add_mod, Nat.add_assoc], fun k hk => ?_⟩
  rcases Nat.lt_or_ge k n with hlt | hge
  · exact hn k hlt
  · have := hm (k - n) (by omega)
    rwa [Nat.mod_add_mod, show i + n + (k - n) = i + k by omega] at this

theorem Walks.lt {n j : Nat} (h : Walks source i n j) : j < c_uint32_range := by
  rw [h.1]
  exact Nat.mod_lt _ (by decide)

theorem walks_one (hi : i < c_uint32_range) (h : inChar source i ≠ 0) :
    Walks source i 1 ((i + 1) % c_uint32_range) := by
  refine ⟨rfl, fun k hk => ?_⟩
  rw [show i + k = i by omega, Nat.mod_eq_of_lt hi]
  exact h

/-- Only a NUL leads to the label that ends the input. -/
theorem in_char_of_state1 {in_char : Nat} (h : lexGoto state in_char = .inl .state1) : in_char = 0 := by
  rcases lexGoto_cases state in_char with ⟨arm, harm, hgoto, hle, hlt⟩ | hgoto
  · rw [hgoto] at h
    have hall : ∀ state, ∀ arm ∈ lexArms state, arm.2.2 = .state1 → arm.2.1 = 1 := by
      intro state
      cases state <;> decide +kernel
    have := hall state arm harm (Sum.inl.inj h)
    omega
  · rw [hgoto] at h
    cases h

theorem state1_of_lexTerminal (h : lexTerminal state = some 13) : state = .state1 := by
  cases state <;> simp [lexTerminal] at h ⊢

/-- The first round of a run: the text ends, the next character leads to another label, or it leads out. -/
theorem run_succ {fuel j in_char : Nat} (h : Loop.run (lexRound source) (fuel + 1) (state, in_char, i) = some (term, j)) :
    (in_char = 0 ∧ lexTerminal state = term ∧ j = i) ∨
    (in_char ≠ 0 ∧ ∃ state', lexGoto state (inChar source ((i + 1) % c_uint32_range)) = .inl state' ∧
      Loop.run (lexRound source) fuel
        (state', inChar source ((i + 1) % c_uint32_range), (i + 1) % c_uint32_range) = some (term, j)) ∨
    (in_char ≠ 0 ∧ lexGoto state (inChar source ((i + 1) % c_uint32_range)) = .inr term ∧
      j = (i + 1) % c_uint32_range) := by
  by_cases hc : in_char = 0
  · have hdone : lexRound source (state, in_char, i) = some (.inr (lexTerminal state, i)) := by
      rw [lexRound, if_pos hc]
    rw [Loop.run_done hdone] at h
    obtain ⟨hterm, hj⟩ := Prod.mk.inj (Option.some.inj h)
    exact .inl ⟨hc, hterm, hj.symm⟩
  · cases hgoto : lexGoto state (inChar source ((i + 1) % c_uint32_range)) with
    | inl state' =>
        have hnext : Loop.Next (lexRound source) (state, in_char, i)
            (state', inChar source ((i + 1) % c_uint32_range), (i + 1) % c_uint32_range) := by
          simp only [Loop.Next, lexRound, if_neg hc, hgoto]
        rw [Loop.run_next hnext] at h
        exact .inr (.inl ⟨hc, state', rfl, h⟩)
    | inr term' =>
        have hdone : lexRound source (state, in_char, i) = some (.inr (term', (i + 1) % c_uint32_range)) := by
          simp only [lexRound, if_neg hc, hgoto]
        rw [Loop.run_done hdone] at h
        cases h
        exact .inr (.inr ⟨hc, rfl, rfl⟩)

/-- The rounds from a label walk over the text, and return the end of the input at a NUL only. -/
theorem run_walks {fuel j : Nat} (hi : i < c_uint32_range) (hstate : state = .state1 → inChar source i = 0)
    (h : Loop.run (lexRound source) fuel (state, inChar source i, i) = some (term, j)) :
    ∃ n, Walks source i n j ∧ (term = some 13 → inChar source j = 0) := by
  induction fuel generalizing state i with
  | zero => cases h
  | succ fuel ih =>
      rcases run_succ h with ⟨hc, -, rfl⟩ | ⟨hc, state', hgoto, h⟩ | ⟨hc, hgoto, rfl⟩
      · exact ⟨0, .refl hi, fun _ => hc⟩
      · have hone := walks_one hi hc
        obtain ⟨n, hn, hend⟩ := ih hone.lt (fun hs => in_char_of_state1 (hs ▸ hgoto)) h
        exact ⟨1 + n, hone.trans hn, hend⟩
      · refine ⟨1, walks_one hi hc, ?_⟩
        -- the label of the end is reached where the text ends, and there no character was read
        rintro rfl
        rcases lexGoto_cases state (inChar source ((i + 1) % c_uint32_range)) with ⟨_, _, hg, -⟩ | hg
        · rw [hg] at hgoto
          cases hgoto
        · rw [hg] at hgoto
          exact absurd (hstate (state1_of_lexTerminal (Sum.inr.inj hgoto))) hc

/-- **What a recognised terminal reads.** -/
theorem recognizeTerminal_walks {fuel j : Nat} (hi : i < c_uint32_range)
    (h : recognizeTerminal fuel source i = some (term, j)) :
    ∃ n, Walks source i n j ∧ (term = some 13 → inChar source j = 0) := by
  unfold recognizeTerminal at h
  split at h
  · rename_i state hgoto
    exact run_walks hi (fun hs => in_char_of_state1 (hs ▸ hgoto)) h
  · rename_i term' hgoto
    cases h
    refine ⟨0, .refl hi, ?_⟩
    rintro rfl
    rcases lexGoto_cases .state0 (inChar source i) with ⟨_, _, hg, -⟩ | hg
    · rw [hg] at hgoto
      cases hgoto
    · rw [hg] at hgoto
      cases hgoto

end Ccljson
end Cclib
