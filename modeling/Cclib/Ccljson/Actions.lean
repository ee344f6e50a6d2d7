import Cclib.Cclvar.Dict
import Cclib.Ccljson.Lexer

/-!
# `Ccljson.Actions` — the parse actions

The functions of `json_pa_callers`, on the members of `parser_c` they use. A stack is a list with `back()`
first. An object or array under construction is on `m_objects` or `m_arrays` alone, so changing its cell
in place is changing the element of the stack.

The three maps of constants hand out one `var_c` for all equal constants; they are kept, since for a
`double` *equal* means neither less nor greater, which `0.0` and `-0.0` are.
-/

namespace Cclib
namespace Ccljson
open Cclvar

/-! ## Constants -/

/-- `isspace` in the classic locale. -/
def isSpace (c : UInt8) : Bool := c == 32 || (9 ≤ c && c ≤ 13)

def isDigit (c : UInt8) : Bool := 48 ≤ c && c ≤ 57

theorem isDigit_iff (c : UInt8) : isDigit c = true ↔ 0x30 ≤ c ∧ c ≤ 0x39 := by
  simp [isDigit]

theorem not_space_of_digit {c : UInt8} (h : isDigit c = true) : isSpace c = false ∧ c ≠ 45 ∧ c ≠ 43 := by
  have hrange := (isDigit_iff c).mp h
  simp [isSpace, UInt8.le_iff_toNat_le, ← UInt8.toNat_inj] at hrange ⊢
  omega

/-- The number a string of decimal digits stands for. -/
def digitsValue (ds : StringT) : Nat := ds.foldl (fun n c => 10 * n + (c.toNat - 48)) 0

/-- `strtoll(…, nullptr, 10)`: white space, a sign, digits; what does not fit becomes the nearest
    `int64_t`. -/
def strtoll (s : StringT) : Int64 :=
  match s.dropWhile isSpace with
  | 45 :: s => Int64.ofIntClamp (-(digitsValue (s.takeWhile isDigit) : Int))
  | 43 :: s => Int64.ofIntClamp (digitsValue (s.takeWhile isDigit))
  | s => Int64.ofIntClamp (digitsValue (s.takeWhile isDigit))

def hexDigit (c : UInt8) : Option Nat :=
  if 48 ≤ c ∧ c ≤ 57 then some (c.toNat - 48)
  else if 97 ≤ c ∧ c ≤ 102 then some (10 + (c.toNat - 97))
  else if 65 ≤ c ∧ c ≤ 70 then some (10 + (c.toNat - 65))
  else none

/-- The value of the digits of `\u`; `none` where the loop asserts. -/
def unicodeValue (ds : StringT) : Option Nat :=
  ds.foldlM (fun value c => (hexDigit c).map (fun d => (value <<< 4) + d)) 0

/-- The UTF-8 bytes of a value of 16 bits. -/
def utf8 (value : Nat) : StringT :=
  if value ≤ 0x7f then [UInt8.ofNat value]
  else if value ≤ 0x7ff then
    [UInt8.ofNat (0xc0 ||| value >>> 6), UInt8.ofNat (0x80 ||| (value &&& 0x3f))]
  else
    [UInt8.ofNat (0xe0 ||| value >>> 12), UInt8.ofNat (0x80 ||| ((value >>> 6) &&& 0x3f)),
      UInt8.ofNat (0x80 ||| (value &&& 0x3f))]

/-- The characters the `switch` of `pa_json_string` knows. -/
def unescape (c : UInt8) : Option UInt8 :=
  if c = 98 then some 8
  else if c = 102 then some 12
  else if c = 110 then some 10
  else if c = 114 then some 13
  else if c = 116 then some 9
  else if c = 92 then some 92
  else if c = 34 then some 34
  else none

/-- The loop of `pa_json_string` on the text between the quotes. An escape that the text ends in would
    take the loop past the closing quote; that is `overrun`. -/
def decodeString : StringT → Except JsonError StringT
  | [] => .ok []
  | c :: rest =>
    if c = 92 then
      match rest with
      | [] => .error .overrun
      | e :: rest =>
        if e = 117 then
          match rest with
          | d₁ :: d₂ :: d₃ :: d₄ :: rest =>
            match unicodeValue [d₁, d₂, d₃, d₄] with
            | some value => (decodeString rest).map (utf8 value ++ ·)
            | none => .error .assertFailed
          | _ => .error .overrun
        else
          match unescape e with
          | some c => (decodeString rest).map (c :: ·)
          | none => .error .assertFailed
    else (decodeString rest).map (c :: ·)

/-! ## The members of the parser -/

/-- `m_integer_map`, `m_double_map` and `m_string_map`. -/
structure Caches (F : Type) where
  m_integer_map : List (Int64 × VarC F)
  m_double_map : List (F × VarC F)
  m_string_map : List (StringT × VarC F)

/-- The members the actions read and write. -/
structure Sem (F : Type) where
  caches : Caches F
  m_strings : List (VarC F)
  m_values : List (VarC F)
  m_arrays : List (VarC F)
  m_objects : List (VarC F)

def Caches.empty {F : Type} : Caches F := ⟨[], [], []⟩

/-- `parser_c::parser_c`. -/
def Sem.init {F : Type} : Sem F := ⟨.empty, [], [], [], []⟩

/-- `find`, and `insert` when it finds nothing: the value stored for `k`, and the map after. -/
def mapGet {K V : Type} [LT K] [DecidableLT K] (m : List (K × V)) (k : K) (v : V) : V × List (K × V) :=
  match m.find? (fun e => decide (¬ e.1 < k ∧ ¬ k < e.1)) with
  | some e => (e.2, m)
  | none => (v, (k, v) :: m)

section
variable {F : Type} [LT F] [DecidableLT F] (source : StringT) (strtod : StringT → F)

/-- The text between the quotes of a string token. -/
def stringBody (start stop : Nat) : StringT := (source.drop (start + 1)).take (stop - start - 2)

/-- The string `pa_json_string` builds. `reserve` throws on a negative length. -/
def stringConst (start stop : Nat) : Except JsonError StringT :=
  if stop < start + 2 then .error .lengthError else decodeString (stringBody source start stop)

/-- What `pa_json_string` pushes. -/
def leafString (caches : Caches F) (start stop : Nat) : Except JsonError (VarC F × Caches F) :=
  match stringConst source start stop with
  | .error e => .error e
  | .ok const_str =>
    let r := mapGet caches.m_string_map const_str (.string const_str)
    .ok (r.1, { caches with m_string_map := r.2 })

/-- What `pa_json_val_integer` pushes. -/
def leafInteger (caches : Caches F) (start : Nat) : VarC F × Caches F :=
  let const_int := strtoll (source.drop start)
  let r := mapGet caches.m_integer_map const_int (.integer const_int)
  (r.1, { caches with m_integer_map := r.2 })

/-- What `pa_json_val_float` pushes. -/
def leafFloat (caches : Caches F) (start : Nat) : VarC F × Caches F :=
  let const_float := strtod (source.drop start)
  let r := mapGet caches.m_double_map const_float (.float const_float)
  (r.1, { caches with m_double_map := r.2 })

/-! ## The actions -/

/-- An action, given `m_lalr_stack.back()`. -/
abbrev ParseAction (F : Type) := StackElemC → Sem F → Except JsonError (Sem F)

def paJsonObjectBegin : ParseAction F := fun _ s =>
  .ok { s with m_objects := .dict [] :: s.m_objects }

def paJsonObjectPair : ParseAction F := fun _ s =>
  match s.m_objects, s.m_strings, s.m_values with
  | .dict es :: objects, k :: strings, v :: values =>
    .ok { s with
      m_objects := .dict (VarC.dictInsert (k, v) es) :: objects
      m_strings := strings
      m_values := values }
  | _, _, _ => .error .emptyStack

def paJsonArrayBegin : ParseAction F := fun _ s =>
  .ok { s with m_arrays := .array [] :: s.m_arrays }

def paJsonArrayValue : ParseAction F := fun _ s =>
  match s.m_arrays, s.m_values with
  | .array xs :: arrays, v :: values =>
    .ok { s with m_arrays := .array (xs ++ [v]) :: arrays, m_values := values }
  | _, _ => .error .emptyStack

def paJsonValString : ParseAction F := fun _ s =>
  match s.m_strings with
  | v :: strings => .ok { s with m_values := v :: s.m_values, m_strings := strings }
  | [] => .error .emptyStack

def paJsonValInteger : ParseAction F := fun lse s =>
  let r := leafInteger source s.caches lse.m_term_start
  .ok { s with caches := r.2, m_values := r.1 :: s.m_values }

def paJsonValFloat : ParseAction F := fun lse s =>
  let r := leafFloat source strtod s.caches lse.m_term_start
  .ok { s with caches := r.2, m_values := r.1 :: s.m_values }

def paJsonValObject : ParseAction F := fun _ s =>
  match s.m_objects with
  | v :: objects => .ok { s with m_values := v :: s.m_values, m_objects := objects }
  | [] => .error .emptyStack

def paJsonValArray : ParseAction F := fun _ s =>
  match s.m_arrays with
  | v :: arrays => .ok { s with m_values := v :: s.m_values, m_arrays := arrays }
  | [] => .error .emptyStack

/-- `pa_json_val_true`, `pa_json_val_false` and `pa_json_val_null` push a constant. -/
def paJsonVal (v : VarC F) : ParseAction F := fun _ s =>
  .ok { s with m_values := v :: s.m_values }

def paJsonValTrue : ParseAction F := paJsonVal (.bool true)
def paJsonValFalse : ParseAction F := paJsonVal (.bool false)
def paJsonValNull : ParseAction F := paJsonVal .blank

def paJsonString : ParseAction F := fun lse s =>
  match leafString source s.caches lse.m_term_start lse.m_term_end with
  | .error e => .error e
  | .ok r => .ok { s with caches := r.2, m_strings := r.1 :: s.m_strings }

/-- `json_pa_callers`; `none` is `pa_json_null`, which is not called. -/
def jsonPaCallers : List (Option (ParseAction F)) :=
  [ none, none, none, none, none,
    some paJsonObjectBegin,
    none, none,
    some paJsonObjectPair,
    none, none, none,
    some paJsonArrayBegin,
    some paJsonArrayValue,
    some paJsonArrayValue,
    some paJsonValString,
    some (paJsonValInteger source),
    some (paJsonValFloat source strtod),
    some paJsonValObject,
    some paJsonValArray,
    some paJsonValTrue,
    some paJsonValFalse,
    some paJsonValNull,
    some (paJsonString source) ]

/-- The action of a rule. -/
def parseAction (rule : Nat) (lse : StackElemC) (s : Sem F) : Except JsonError (Sem F) :=
  match (jsonPaCallers source strtod).getD rule none with
  | some action => action lse s
  | none => .ok s

/-! ## The parser -/

/-- The retrieval of a terminal. -/
def nextTerminal (fuel : Nat) (input_idx : Nat) : Option (Except JsonError (Token × Nat)) :=
  match recognizeTerminal fuel source input_idx with
  | none => none
  | some (none, _) => some (.error .unrecognizedTerminal)
  | some (some term, idx) => some (.ok (⟨term, input_idx, idx⟩, idx))

/-- What `parse_source` is run with. -/
def parserEnv (fuel : Nat) : LalrEnv Nat (Sem F) where
  next := nextTerminal source fuel
  act := parseAction source strtod

/-- `ccljson::parse`, with a bound on the rounds of its loops. -/
def parseFuel (fuel : Nat) : Option (Except JsonError (VarC F)) :=
  match Loop.run (parseRound (parserEnv source strtod fuel)) fuel (lalrInit 0 Sem.init) with
  | none => none
  | some (.error e) => some (.error e)
  | some (.ok (_, s)) =>
    match s.m_objects with
    | v :: _ => some (.ok v)
    | [] => some (.error .emptyStack)

/-- `ccljson::parse` returns `v`. -/
def Parses (v : VarC F) : Prop := ∃ fuel, parseFuel source strtod fuel = some (.ok v)

end

end Ccljson
end Cclib
