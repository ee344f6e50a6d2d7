import Mathlib.Data.List.Basic

/-!
# `Ccljson.Tables` — the generated LALR tables

`json_rule_head_idxs`, `json_rule_body_lengths` and `json_lalr_table`, cell for cell. Rows are automaton
states; the first 14 columns are the terminals, the other 13 the nonterminals. The numbering of the
symbols is that of the lexer's results and of the rule heads:

* terminals: `0` string, `1` integer, `2` float, `3` true, `4` false, `5` null, `6` `\x7b`, `7` `\x7d`, `8` `[`,
  `9` `]`, `10` `,`, `11` `:`, `12` skip, `13` end of input;
* nonterminals: `14` the augmented start, `15` start, `16` object, `17` a dict up to its closing brace,
  `18` its opening brace, `19` pairs, `20` pair, `21` array, `22` an array up to its closing bracket,
  `23` its opening bracket, `24` values, `25` value, `26` string.

`access` and `before` describe the automaton the table encodes: the symbol every state is entered by, and
the states it is entered from. `lalr_edges` checks them against the table; the proofs about the parser
read paths of the automaton backwards with them.
-/

namespace Cclib
namespace Ccljson

/-- `c_idx_not_exist`, the largest `uint32_t`; also the blank cell of the table. -/
def cIdxNotExist : Nat := 0xFFFFFFFF

/-- `c_json_lalr_table_reduce_base`. -/
def cJsonLalrTableReduceBase : Nat := 0x80000000

/-- `c_json_terminal_plus_nonterminal_cnt`. -/
def cJsonTerminalPlusNonterminalCnt : Nat := 27

def jsonRuleHeadIdxs : List Nat :=
  [14, 15, 16, 17, 17, 18, 19, 19, 20, 21, 22, 22, 23, 24, 24, 25, 25, 25, 25, 25, 25, 25, 25, 26]

def jsonRuleBodyLengths : List Nat :=
  [1, 2, 2, 1, 2, 1, 3, 1, 3, 2, 1, 2, 1, 3, 1, 1, 1, 1, 1, 1, 1, 1, 1, 1]

/-- `json_lalr_table`; `bl`, `sh`, `re` and `go` are `json_blank`, `JSON_SHIFT`, `JSON_REDUCE` and
    `JSON_GOTO`. -/
def jsonLalrTable : List Nat :=
  let bl : Nat := cIdxNotExist
  let sh (value : Nat) : Nat := value
  let re (value : Nat) : Nat := cJsonLalrTableReduceBase + value
  let go (value : Nat) : Nat := value
  [ bl, bl, bl, bl, bl, bl, sh 5, bl, bl, bl, bl, bl, bl, bl,
      bl, go 1, go 2, go 3, go 4, bl, bl, bl, bl, bl, bl, bl, bl,
    bl, bl, bl, bl, bl, bl, bl, bl, bl, bl, bl, bl, bl, bl,
      bl, bl, bl, bl, bl, bl, bl, bl, bl, bl, bl, bl, bl,
    bl, bl, bl, bl, bl, bl, bl, bl, bl, bl, bl, bl, bl, sh 6,
      bl, bl, bl, bl, bl, bl, bl, bl, bl, bl, bl, bl, bl,
    bl, bl, bl, bl, bl, bl, bl, sh 7, bl, bl, bl, bl, bl, bl,
      bl, bl, bl, bl, bl, bl, bl, bl, bl, bl, bl, bl, bl,
    sh 11, bl, bl, bl, bl, bl, bl, re 3, bl, bl, bl, bl, bl, bl,
      bl, bl, bl, bl, bl, go 8, go 9, bl, bl, bl, bl, bl, go 10,
    re 5, bl, bl, bl, bl, bl, bl, re 5, bl, bl, bl, bl, bl, bl,
      bl, bl, bl, bl, bl, bl, bl, bl, bl, bl, bl, bl, bl,
    bl, bl, bl, bl, bl, bl, bl, bl, bl, bl, bl, bl, bl, bl,
      bl, bl, bl, bl, bl, bl, bl, bl, bl, bl, bl, bl, bl,
    bl, bl, bl, bl, bl, bl, bl, re 2, bl, re 2, re 2, bl, bl, re 2,
      bl, bl, bl, bl, bl, bl, bl, bl, bl, bl, bl, bl, bl,
    bl, bl, bl, bl, bl, bl, bl, re 4, bl, bl, sh 12, bl, bl, bl,
      bl, bl, bl, bl, bl, bl, bl, bl, bl, bl, bl, bl, bl,
    bl, bl, bl, bl, bl, bl, bl, re 7, bl, bl, re 7, bl, bl, bl,
      bl, bl, bl, bl, bl, bl, bl, bl, bl, bl, bl, bl, bl,
    bl, bl, bl, bl, bl, bl, bl, bl, bl, bl, bl, sh 13, bl, bl,
      bl, bl, bl, bl, bl, bl, bl, bl, bl, bl, bl, bl, bl,
    bl, bl, bl, bl, bl, bl, bl, re 23, bl, re 23, re 23, re 23, bl, bl,
      bl, bl, bl, bl, bl, bl, bl, bl, bl, bl, bl, bl, bl,
    sh 11, bl, bl, bl, bl, bl, bl, bl, bl, bl, bl, bl, bl, bl,
      bl, bl, bl, bl, bl, bl, go 14, bl, bl, bl, bl, bl, go 10,
    sh 11, sh 17, sh 18, sh 21, sh 22, sh 23, sh 5, bl, sh 26, bl, bl, bl, bl, bl,
      bl, bl, go 19, go 3, go 4, bl, bl, go 20, go 24, go 25, bl, go 15, go 16,
    bl, bl, bl, bl, bl, bl, bl, re 6, bl, bl, re 6, bl, bl, bl,
      bl, bl, bl, bl, bl, bl, bl, bl, bl, bl, bl, bl, bl,
    bl, bl, bl, bl, bl, bl, bl, re 8, bl, bl, re 8, bl, bl, bl,
      bl, bl, bl, bl, bl, bl, bl, bl, bl, bl, bl, bl, bl,
    bl, bl, bl, bl, bl, bl, bl, re 15, bl, re 15, re 15, bl, bl, bl,
      bl, bl, bl, bl, bl, bl, bl, bl, bl, bl, bl, bl, bl,
    bl, bl, bl, bl, bl, bl, bl, re 16, bl, re 16, re 16, bl, bl, bl,
      bl, bl, bl, bl, bl, bl, bl, bl, bl, bl, bl, bl, bl,
    bl, bl, bl, bl, bl, bl, bl, re 17, bl, re 17, re 17, bl, bl, bl,
      bl, bl, bl, bl, bl, bl, bl, bl, bl, bl, bl, bl, bl,
    bl, bl, bl, bl, bl, bl, bl, re 18, bl, re 18, re 18, bl, bl, bl,
      bl, bl, bl, bl, bl, bl, bl, bl, bl, bl, bl, bl, bl,
    bl, bl, bl, bl, bl, bl, bl, re 19, bl, re 19, re 19, bl, bl, bl,
      bl, bl, bl, bl, bl, bl, bl, bl, bl, bl, bl, bl, bl,
    bl, bl, bl, bl, bl, bl, bl, re 20, bl, re 20, re 20, bl, bl, bl,
      bl, bl, bl, bl, bl, bl, bl, bl, bl, bl, bl, bl, bl,
    bl, bl, bl, bl, bl, bl, bl, re 21, bl, re 21, re 21, bl, bl, bl,
      bl, bl, bl, bl, bl, bl, bl, bl, bl, bl, bl, bl, bl,
    bl, bl, bl, bl, bl, bl, bl, re 22, bl, re 22, re 22, bl, bl, bl,
      bl, bl, bl, bl, bl, bl, bl, bl, bl, bl, bl, bl, bl,
    bl, bl, bl, bl, bl, bl, bl, bl, bl, sh 27, bl, bl, bl, bl,
      bl, bl, bl, bl, bl, bl, bl, bl, bl, bl, bl, bl, bl,
    sh 11, sh 17, sh 18, sh 21, sh 22, sh 23, sh 5, bl, sh 26, re 10, bl, bl, bl, bl,
      bl, bl, go 19, go 3, go 4, bl, bl, go 20, go 24, go 25, go 28, go 29, go 16,
    re 12, re 12, re 12, re 12, re 12, re 12, re 12, bl, re 12, re 12, bl, bl, bl, bl,
      bl, bl, bl, bl, bl, bl, bl, bl, bl, bl, bl, bl, bl,
    bl, bl, bl, bl, bl, bl, bl, re 9, bl, re 9, re 9, bl, bl, bl,
      bl, bl, bl, bl, bl, bl, bl, bl, bl, bl, bl, bl, bl,
    bl, bl, bl, bl, bl, bl, bl, bl, bl, re 11, sh 30, bl, bl, bl,
      bl, bl, bl, bl, bl, bl, bl, bl, bl, bl, bl, bl, bl,
    bl, bl, bl, bl, bl, bl, bl, bl, bl, re 14, re 14, bl, bl, bl,
      bl, bl, bl, bl, bl, bl, bl, bl, bl, bl, bl, bl, bl,
    sh 11, sh 17, sh 18, sh 21, sh 22, sh 23, sh 5, bl, sh 26, bl, bl, bl, bl, bl,
      bl, bl, go 19, go 3, go 4, bl, bl, go 20, go 24, go 25, bl, go 31, go 16,
    bl, bl, bl, bl, bl, bl, bl, bl, bl, re 13, re 13, bl, bl, bl,
      bl, bl, bl, bl, bl, bl, bl, bl, bl, bl, bl, bl, bl ]

/-- The cell of state `state` and symbol `sym`. -/
def lalrCell (state sym : Nat) : Nat :=
  jsonLalrTable.getD (state * cJsonTerminalPlusNonterminalCnt + sym) cIdxNotExist

/-- What a cell tells the parser to do. -/
inductive LalrAction where
  | error
  | shift (state : Nat)
  | reduce (rule : Nat)
deriving DecidableEq, Repr

/-- How `parse_source` reads a cell. -/
def decodeAction (cell : Nat) : LalrAction :=
  if cell = cIdxNotExist then .error
  else if cell < cJsonLalrTableReduceBase then .shift cell
  else .reduce (cell - cJsonLalrTableReduceBase)

/-- What state `state` does on terminal `term`. -/
def lalrAction (state term : Nat) : LalrAction := decodeAction (lalrCell state term)

/-- `json_rule_head_idxs[rule]`. -/
def ruleHead (rule : Nat) : Nat := jsonRuleHeadIdxs.getD rule cIdxNotExist

/-- `json_rule_body_lengths[rule]`. -/
def ruleLength (rule : Nat) : Nat := jsonRuleBodyLengths.getD rule 0

/-! ## The automaton -/

/-- The number of states, `json_lalr_state_cnt`. -/
def jsonLalrStateCnt : Nat := 32

/-- The symbol a state is entered by (none enters state 0). -/
def access (state : Nat) : Nat :=
  [27, 15, 16, 17, 18, 6, 13, 7, 19, 20, 26, 0, 10, 11, 20, 25, 26, 1, 2, 16, 21, 3, 4, 5, 22, 23, 8, 9,
    24, 25, 10, 25].getD state 27

/-- The states an automaton state is entered from. -/
def before (state : Nat) : List Nat :=
  [[], [0], [0], [0, 13, 25, 30], [0, 13, 25, 30], [0, 13, 25, 30], [2], [3], [4], [4], [4, 12],
    [4, 12, 13, 25, 30], [8], [10], [12], [13], [13, 25, 30], [13, 25, 30], [13, 25, 30], [13, 25, 30],
    [13, 25, 30], [13, 25, 30], [13, 25, 30], [13, 25, 30], [13, 25, 30], [13, 25, 30], [13, 25, 30],
    [24], [25], [25], [28], [30]].getD state []

/-- The states that reduce, each with its only rule. -/
def reductions : List (Nat × Nat) :=
  [(4, 3), (5, 5), (7, 2), (8, 4), (9, 7), (11, 23), (14, 6), (15, 8), (16, 15), (17, 16), (18, 17),
    (19, 18), (20, 19), (21, 20), (22, 21), (23, 22), (25, 10), (26, 12), (27, 9), (28, 11), (29, 14),
    (31, 13)]

/-- Check every cell of the table in one pass over it. -/
def tableAll (p : Nat → Nat → Nat → Bool) : Bool :=
  jsonLalrTable.zipIdx.all (fun c =>
    p (c.2 / cJsonTerminalPlusNonterminalCnt) (c.2 % cJsonTerminalPlusNonterminalCnt) c.1)

theorem length_jsonLalrTable :
    jsonLalrTable.length = jsonLalrStateCnt * cJsonTerminalPlusNonterminalCnt := by
  decide +kernel

/-- A pass over the table checks the cell of every state and symbol. -/
theorem of_tableAll {p : Nat → Nat → Nat → Bool} (h : tableAll p = true) {state sym : Nat}
    (hs : state < jsonLalrStateCnt) (ht : sym < cJsonTerminalPlusNonterminalCnt) :
    p state sym (lalrCell state sym) = true := by
  have hlen := length_jsonLalrTable
  simp only [jsonLalrStateCnt, cJsonTerminalPlusNonterminalCnt] at hs ht hlen
  have hi : state * 27 + sym < jsonLalrTable.length := by omega
  have hcell : lalrCell state sym = jsonLalrTable[state * 27 + sym] := by
    rw [lalrCell, List.getD_eq_getElem?_getD, cJsonTerminalPlusNonterminalCnt,
      List.getElem?_eq_getElem hi, Option.getD_some]
  have hmem : (lalrCell state sym, state * 27 + sym) ∈ jsonLalrTable.zipIdx :=
    List.mk_mem_zipIdx_iff_getElem?.mpr (by rw [hcell, List.getElem?_eq_getElem hi])
  have := List.all_eq_true.mp h _ hmem
  simp only [cJsonTerminalPlusNonterminalCnt] at this
  rwa [show (state * 27 + sym) / 27 = state by omega, show (state * 27 + sym) % 27 = sym by omega] at this

/-- **The edges of the automaton.** A cell that names a state is an edge entering that state. -/
theorem lalr_edges {state sym : Nat} (hs : state < jsonLalrStateCnt)
    (ht : sym < cJsonTerminalPlusNonterminalCnt) (h : lalrCell state sym < cJsonLalrTableReduceBase) :
    lalrCell state sym < jsonLalrStateCnt ∧ lalrCell state sym ≠ 0 ∧
      access (lalrCell state sym) = sym ∧ state ∈ before (lalrCell state sym) := by
  have hall : tableAll (fun state sym cell => decide (cell < cJsonLalrTableReduceBase →
      cell < jsonLalrStateCnt ∧ cell ≠ 0 ∧ access cell = sym ∧ state ∈ before cell)) = true := by
    decide +kernel
  exact of_decide_eq_true (of_tableAll hall hs ht) h

/-- Every reduction of the table is one of `reductions`. -/
theorem lalr_reductions {state term rule : Nat} (hs : state < jsonLalrStateCnt) (ht : term < 14)
    (h : lalrAction state term = .reduce rule) : (state, rule) ∈ reductions := by
  have hall : tableAll (fun state _ cell => match decodeAction cell with
      | .reduce rule => decide ((state, rule) ∈ reductions)
      | _ => true) = true := by
    decide +kernel
  have := of_tableAll hall hs (show term < 27 by omega)
  rw [show decodeAction (lalrCell state term) = .reduce rule from h] at this
  exact of_decide_eq_true this

/-- A shift enters the state its cell names. -/
theorem lalrCell_of_shift {state term next : Nat} (h : lalrAction state term = .shift next) :
    lalrCell state term = next ∧ next < cJsonLalrTableReduceBase := by
  unfold lalrAction decodeAction at h
  split at h
  · cases h
  · split at h
    · rename_i hlt
      cases h
      exact ⟨rfl, hlt⟩
    · cases h

/-- Only state 2 shifts the end of the input. -/
theorem state_of_accept {state next : Nat} (hs : state < jsonLalrStateCnt)
    (h : lalrAction state 13 = .shift next) : state = 2 := by
  have hall : tableAll (fun state sym cell =>
      decide (sym = 13 → cell < cJsonLalrTableReduceBase → state = 2)) = true := by
    decide +kernel
  obtain ⟨hcell, hlt⟩ := lalrCell_of_shift h
  exact of_decide_eq_true (of_tableAll hall hs (show 13 < 27 by omega)) rfl (hcell ▸ hlt)

end Ccljson
end Cclib
