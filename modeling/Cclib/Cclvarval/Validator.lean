import Cclib.Cclvar.Ordered

/-!
# `Cclvarval.Validator` — `validator_c`

A validator works on the cells of a `Store`: schema and value are handles, and so are the entries of the two
stacks. `Run` is a piece of its code, from the validator before to the validator after, with the exception it
throws; it is `none` while the fuel does not suffice. `validatePair` takes the fuel for the nesting of its calls
and for the comparisons; everything else ends by itself.

The local `var_c`s of the functions, the cells of the texts and numbers on the stacks and the map of interned
texts are not kept in the store. The POSIX functions are a parameter.

## Contents
- `ValidatorC`, `Run`: the object, and code that works on it.
- `reference`, `call`: the macros `VALIDATE_PAIR_REFERENCE` and `VALIDATE_PAIR_CALL`.
- `property`, `validatePair`, `validate`.
-/

namespace Cclib
namespace Cclvarval

open Cclvar Compare

/-! ## Names -/

/-- The exceptions of `cclvarval`, and those of `cclvar` and `cclstr` that it meets. -/
inductive Error where
  | invalidSchemaReference
  | invalidSchemaProperty
  | invalidSchemaType
  | invalidType
  | invalidValue
  | valueInvalidSize
  | arrayInvalidSize
  | dictMissingKey
  | variableInvalidTypeRequested
  | invalidOperationOnVariable
  | regexInvalidExpressionString
deriving DecidableEq, Repr

/-- The message of the exception. -/
def Error.what : Error → String
  | .invalidSchemaReference => "validation: invalid schema reference"
  | .invalidSchemaProperty => "validation: invalid schema property"
  | .invalidSchemaType => "validation: invalid schema type"
  | .invalidType => "validation: invalid type"
  | .invalidValue => "validation: invalid value"
  | .valueInvalidSize => "validation: invalid value size"
  | .arrayInvalidSize => "validation: invalid array size"
  | .dictMissingKey => "validation: missing dictionary key"
  | .variableInvalidTypeRequested => "cclvar: invalid variable type requested"
  | .invalidOperationOnVariable => "cclvar: invalid operation on variable"
  | .regexInvalidExpressionString => "invalid regular expression string"

/-- A string literal. -/
def bytes (s : String) : StringT := s.toList.map (fun c => UInt8.ofNat c.toNat)

/-- `prop_type`, …, `prop_all_items`. -/
inductive PropId where
  | type
  | equal | notEqual | lesser | greater | lesserEqual | greaterEqual
  | sizeEqual | sizeNotEqual | sizeLesser | sizeGreater | sizeLesserEqual | sizeGreaterEqual
  | regex
  | items | optItems | allKeys | allItems
deriving DecidableEq, Repr

/-- `c_type_map`. -/
def cTypeMap : List (StringT × DataType) :=
  [(bytes "blank", .blank), (bytes "bool", .bool), (bytes "integer", .integer), (bytes "float", .float),
   (bytes "string", .string), (bytes "array", .array), (bytes "set", .set), (bytes "list", .list),
   (bytes "dict", .dict)]

/-- `c_prop_map`. -/
def cPropMap : List (StringT × PropId) :=
  [(bytes "type", .type),
   (bytes "==", .equal), (bytes "!=", .notEqual), (bytes "<", .lesser), (bytes ">", .greater),
   (bytes "<=", .lesserEqual), (bytes ">=", .greaterEqual),
   (bytes "size ==", .sizeEqual), (bytes "size !=", .sizeNotEqual), (bytes "size <", .sizeLesser),
   (bytes "size >", .sizeGreater), (bytes "size <=", .sizeLesserEqual), (bytes "size >=", .sizeGreaterEqual),
   (bytes "regex", .regex),
   (bytes "items", .items), (bytes "opt-items", .optItems), (bytes "all-keys", .allKeys),
   (bytes "all-items", .allItems)]

/-- `compare(0,3,"ref") == 0`. -/
def isRef (name : StringT) : Bool := name.take 3 = bytes "ref"

/-! ## The object -/

/-- A `var_c` on one of the stacks: a copy of a handle, or one made of a text or of a position. -/
inductive Elem where
  | var (a : Addr)
  | string (s : StringT)
  | position (n : Nat)
deriving DecidableEq, Repr

/-- `regcomp` and `regexec`, on C strings; `R` is what `regex_t` holds. -/
structure RegexLib (R : Type) where
  regcomp : StringT → Option R
  regexec : R → StringT → Bool

/-- What a C function sees of the text. -/
def cStr (s : StringT) : StringT := s.takeWhile (· ≠ 0)

/-- `regex_c::regex_c`. -/
def RegexLib.regexC {R : Type} (lib : RegexLib R) (s : StringT) : Except Error R :=
  if s.length = 0 then .error .regexInvalidExpressionString
  else match lib.regcomp (cStr s) with
    | some r => .ok r
    | none => .error .regexInvalidExpressionString

/-- `regex_c::match`. -/
def RegexLib.matches {R : Type} (lib : RegexLib R) (r : R) (s : StringT) : Bool := lib.regexec r (cStr s)

/-- The order of the operands in `m_regex_map[k] = regex_ptr = new regex_c(k)`. -/
inductive OperandOrder where
  | keyFirst
  | newFirst
deriving DecidableEq, Repr

/-- `validator_c` and the cells it works on. A cached `regex_c *` can be null. -/
structure ValidatorC (F R : Type) where
  store : Store F
  schema : Addr
  regexMap : StringT → Option (Option R)
  valueStack : List Elem
  propsStack : List Elem

/-- `validator_c::validator_c`. -/
def ValidatorC.mk' {F R : Type} (store : Store F) (schema : Addr) : ValidatorC F R :=
  ⟨store, schema, fun _ => none, [], []⟩

/-! ## `var_c` -/

/-- The answer of an access to cells: `none` where a comparison does not come to an end. -/
abbrev Access (α : Type) := Option (Except Error α)

namespace Access

variable {F : Type}

def loc (s : Store F) (a : Addr) : Access (Data F Addr) := (s.look a).map .ok

def toStr (s : Store F) (a : Addr) : Access StringT :=
  (s.look a).map (fun
    | .string t => .ok t
    | _ => .error .variableInvalidTypeRequested)

def toInt (s : Store F) (a : Addr) : Access Int64 :=
  (s.look a).map (fun
    | .integer n => .ok n
    | _ => .error .variableInvalidTypeRequested)

def toDict (s : Store F) (a : Addr) : Access (List (Addr × Addr)) :=
  (s.look a).map (fun
    | .dict es => .ok es
    | _ => .error .variableInvalidTypeRequested)

variable [LT F] [DecidableLT F]

def compare (s : Store F) (depth : Nat) (a b : Addr) : Access Int := (s.compare depth a b).map .ok

/-- `std::map::at`, as a search through the keys in their order; `searchKey_eq` says when a tree is searched with the
    same end. -/
def hasKey (s : Store F) (depth : Nat) (a key : Addr) : Access (Option Addr) :=
  (s.look a).bind (fun
    | .dict es => (search (s.compare depth) key (es.map Prod.fst)).map
        (fun res => .ok (if res.2 then es[res.1]?.map Prod.snd else none))
    | _ => some (.error .invalidOperationOnVariable))

/-- Where the search of `loc_c::operator[]` for a text ends. -/
inductive Slot where
  /-- at the value of the entry -/
  | value (b : Addr)
  /-- without an entry, which then gets position `i` -/
  | missing (es : List (Addr × Addr)) (i : Nat)
deriving DecidableEq

/-- `loc_c::operator[]` with a text for the key, up to the search, again through the keys in their order. The index of an
    array is `a_key.to_int()`. -/
def find (s : Store F) (depth : Nat) (a : Addr) (key : StringT) : Access Slot :=
  (s.look a).bind (fun
    | .dict es =>
      (es.mapM (fun e => s.look e.1)).bind (fun keys =>
        (search (compareLoc (s.compare depth)) (.string key) keys).bind (fun
          | (i, true) => (es[i]?).map (fun e => .ok (.value e.2))
          | (i, false) => some (.ok (.missing es i))))
    | .array _ => some (.error .variableInvalidTypeRequested)
    | _ => some (.error .invalidOperationOnVariable))

end Access

/-- What ends code early: an exception, or a call on a null `regex_c *`. -/
inductive Fault where
  | exception (e : Error)
  | nullRegex
deriving DecidableEq, Repr

/-- Code of the validator; `none` while it does not come to an end. -/
def Run (F R α : Type) := ValidatorC F R → Option (Except Fault α × ValidatorC F R)

namespace Run

variable {F R α β : Type}

protected def pure (a : α) : Run F R α := fun σ => some (.ok a, σ)

protected def bind (m : Run F R α) (f : α → Run F R β) : Run F R β := fun σ =>
  match m σ with
  | none => none
  | some (.ok a, σ') => f a σ'
  | some (.error e, σ') => some (.error e, σ')

instance : Monad (Run F R) where
  pure := Run.pure
  bind := Run.bind

def hang : Run F R α := fun _ => none

/-- `cclthrow`. -/
def cclthrow (e : Error) : Run F R α := fun σ => some (.error (.exception e), σ)

/-- `try { m } catch (...) { handler; rethrow }`. -/
def onThrow (m : Run F R α) (handler : Run F R Unit) : Run F R α := fun σ =>
  match m σ with
  | some (.error (.exception e), σ') => Run.bind handler (fun _ => cclthrow e) σ'
  | r => r

/-- The body of a loop for one element after the other. -/
def forEach : List β → (β → Run F R Unit) → Run F R Unit
  | [], _ => pure ()
  | x :: xs, f => do
    f x
    forEach xs f

/-- An access that changes nothing. -/
def access (get : Store F → Access α) : Run F R α := fun σ =>
  match get σ.store with
  | none => none
  | some (.ok a) => some (.ok a, σ)
  | some (.error e) => some (.error (.exception e), σ)

def pushValue (e : Elem) : Run F R Unit := fun σ => some (.ok (), { σ with valueStack := σ.valueStack ++ [e] })

def pushProps (e : Elem) : Run F R Unit := fun σ => some (.ok (), { σ with propsStack := σ.propsStack ++ [e] })

/-- `var_c::type` and the contents. -/
def loc (a : Addr) : Run F R (Data F Addr) := access (fun s => Access.loc s a)

/-- `var_c::to_str`. -/
def toStr (a : Addr) : Run F R StringT := access (fun s => Access.toStr s a)

/-- `var_c::to_int`. -/
def toInt (a : Addr) : Run F R Int64 := access (fun s => Access.toInt s a)

/-- `var_c::to_dict`. -/
def toDict (a : Addr) : Run F R (List (Addr × Addr)) := access (fun s => Access.toDict s a)

variable [LT F] [DecidableLT F]

/-- `var_c::compare`. -/
def compare (depth : Nat) (a b : Addr) : Run F R Int := access (fun s => Access.compare s depth a b)

/-- `loc_c::has_key`, with the handle it assigns to `a_value`. -/
def hasKey (depth : Nat) (a key : Addr) : Run F R (Option Addr) := access (fun s => Access.hasKey s depth a key)

/-- The store with an entry for the text, which has a new key and a blank value. -/
def addEntry (s : Store F) (a : Addr) (es : List (Addr × Addr)) (i : Nat) (key : StringT) : Store F :=
  ((s.alloc (.string key)).alloc .blank).setData a (.dict (es.insertIdx i (s.cells.length, s.cells.length + 1)))

/-- The handle where the search has ended, in a new entry if there was none. -/
def slotValue (a : Addr) (key : StringT) : Access.Slot → Run F R Addr
  | .value b => pure b
  | .missing es i => fun σ =>
    some (.ok (σ.store.cells.length + 1), { σ with store := addEntry σ.store a es i key })

/-- `loc_c::operator[]` with a text for the key. -/
def index (depth : Nat) (a : Addr) (key : StringT) : Run F R Addr := do
  slotValue a key (← access (fun s => Access.find s depth a key))

end Run

open Run

/-! ## `validate_pair` -/

variable {F R : Type} [LT F] [DecidableLT F]

/-- `VALIDATE_PAIR_REFERENCE`, `pair` being `validate_pair`. -/
def reference (depth : Nat) (pair : Addr → Addr → Run F R Unit) (value propsRef : Addr) (invalidCode : Run F R Unit) :
    Run F R Unit := fun σ =>
  (do
    let ref ← match ← loc propsRef with
      | .string _ => hasKey depth σ.schema propsRef
      | _ => pure none
    match ref with
    | some ref =>
      onThrow (pair value ref) (do
        pushProps (.var propsRef)
        pushProps (.string (bytes "ref"))
        invalidCode)
    | none => do
      pushProps (.var propsRef)
      pushProps (.string (bytes "ref"))
      invalidCode
      cclthrow .invalidSchemaReference : Run F R Unit) σ

/-- `VALIDATE_PAIR_CALL`. -/
def call (depth : Nat) (pair : Addr → Addr → Run F R Unit) (value propsRef : Addr) (invalidCode : Run F R Unit) :
    Run F R Unit := do
  match ← loc propsRef with
  | .string _ => reference depth pair value propsRef invalidCode
  | _ => onThrow (pair value propsRef) invalidCode

/-- The three pushes of the container properties. -/
def pushAll (selector : Elem) (name : String) : Run F R Unit := do
  pushValue selector
  pushProps selector
  pushProps (.string (bytes name))

/-- `prop_type`. -/
def propType (value prop : Addr) : Run F R Unit := do
  let type ← match ← loc prop with
    | .string s => match cTypeMap.lookup s with
      | some type => pure type
      | none => cclthrow .invalidSchemaType
    | _ => cclthrow .invalidSchemaType
  if (← loc value).type ≠ type then
    cclthrow .invalidType

/-- `prop_equal`, …, `prop_greater_equal`: `bad` is the condition of the error. -/
def propCompare (bad : Int → Bool) (depth : Nat) (value prop : Addr) : Run F R Unit := do
  let result ← compare depth value prop
  if bad result then
    cclthrow .invalidValue

/-- `size()` of what has one. -/
def sizeOf? : Data F Addr → Option Nat
  | .string s => some s.length
  | .array xs => some xs.length
  | .set xs => some xs.length
  | .list xs => some xs.length
  | .dict es => some es.length
  | _ => none

/-- `prop_size_equal`, …, `prop_size_greater_equal`: `bad` is the condition of the error. -/
def propSize (bad : Int → Int → Bool) (value prop : Addr) : Run F R Unit := do
  match sizeOf? (← loc value) with
  | some valueSize =>
    let propSize ← toInt prop
    if bad valueSize propSize.toInt then
      cclthrow .valueInvalidSize
  | none => cclthrow .invalidType

/-- `new regex_c(key)`. -/
def newRegex (lib : RegexLib R) (key : StringT) : Run F R R := fun σ =>
  match lib.regexC key with
  | .ok r => some (.ok r, σ)
  | .error e => cclthrow e σ

/-- `m_regex_map[key] = ptr`. -/
def cacheRegex (key : StringT) (ptr : Option R) : Run F R Unit := fun σ =>
  some (.ok (), { σ with regexMap := Function.update σ.regexMap key (some ptr) })

/-- The regular expression for a text: the cached one, or a new one that is cached then. -/
def regexPtr (lib : RegexLib R) (order : OperandOrder) (key : StringT) : Run F R (Option R) := fun σ =>
  match σ.regexMap key with
  | some ptr => some (.ok ptr, σ)
  | none =>
    match order with
    | .keyFirst =>
      (do
        -- `m_regex_map[key]` makes an entry with a null pointer
        cacheRegex key none
        let r ← newRegex lib key
        cacheRegex key (some r)
        return some r : Run F R (Option R)) σ
    | .newFirst =>
      (do
        let r ← newRegex lib key
        cacheRegex key (some r)
        return some r : Run F R (Option R)) σ

/-- `regex_ptr->match(a_value.to_str())` -/
def matchRegex (lib : RegexLib R) (ptr : Option R) (s : StringT) : Run F R Bool := fun σ =>
  match ptr with
  | some r => some (.ok (lib.matches r s), σ)
  | none => some (.error .nullRegex, σ)

/-- `prop_regex`. -/
def propRegex (lib : RegexLib R) (order : OperandOrder) (value prop : Addr) : Run F R Unit := do
  match ← loc value with
  | .string s =>
    let ptr ← regexPtr lib order (← toStr prop)
    if !(← matchRegex lib ptr s) then
      cclthrow .invalidValue
  | _ => cclthrow .invalidType

/-- The element of an array at an index in range. -/
def arrayAt (xs : List Addr) (index : Int64) : Option Addr :=
  if index.toInt < 0 then none else xs[index.toInt.toNat]?

/-- `prop_items`. -/
def propItems (depth : Nat) (pair : Addr → Addr → Run F R Unit) (value prop : Addr) : Run F R Unit := do
  match ← loc value with
  | .array valueArr =>
    let itemsDict ← toDict prop
    forEach itemsDict (fun index_i => do
      let index ← toInt index_i.1
      match arrayAt valueArr index with
      | none => do
        pushAll (.var index_i.1) "items"
        cclthrow .arrayInvalidSize
      | some item => call depth pair item index_i.2 (pushAll (.var index_i.1) "items"))
  | .dict _ =>
    let itemsDict ← toDict prop
    forEach itemsDict (fun key_i => do
      match ← hasKey depth value key_i.1 with
      | none => do
        pushAll (.var key_i.1) "items"
        cclthrow .dictMissingKey
      | some keyValue => call depth pair keyValue key_i.2 (pushAll (.var key_i.1) "items"))
  | _ => cclthrow .invalidType

/-- `prop_opt_items`. -/
def propOptItems (depth : Nat) (pair : Addr → Addr → Run F R Unit) (value prop : Addr) : Run F R Unit := do
  match ← loc value with
  | .dict _ =>
    let optItemsDict ← toDict prop
    forEach optItemsDict (fun key_i => do
      match ← hasKey depth value key_i.1 with
      | none => pure ()
      | some keyValue => call depth pair keyValue key_i.2 (pushAll (.var key_i.1) "opt-items"))
  | _ => cclthrow .invalidType

/-- `prop_all_keys`. -/
def propAllKeys (depth : Nat) (pair : Addr → Addr → Run F R Unit) (value prop : Addr) : Run F R Unit := do
  match ← loc value with
  | .dict valueDict =>
    forEach valueDict (fun pair_i => call depth pair pair_i.1 prop (pushAll (.var pair_i.1) "all-keys"))
  | _ => cclthrow .invalidType

/-- The loop of `prop_all_items` over an array, a set or a list. -/
def eachItem (depth : Nat) (pair : Addr → Addr → Run F R Unit) (prop : Addr) (xs : List Addr) : Run F R Unit :=
  forEach xs.zipIdx (fun item_i => call depth pair item_i.1 prop (pushAll (.position item_i.2) "all-items"))

/-- `prop_all_items`. -/
def propAllItems (depth : Nat) (pair : Addr → Addr → Run F R Unit) (value prop : Addr) : Run F R Unit := do
  match ← loc value with
  | .array valueArr => eachItem depth pair prop valueArr
  | .set valueSet => eachItem depth pair prop valueSet
  | .list valueLst => eachItem depth pair prop valueLst
  | .dict valueDict =>
    forEach valueDict (fun pair_i => call depth pair pair_i.2 prop (pushAll (.var pair_i.1) "all-items"))
  | _ => cclthrow .invalidType

/-- The `switch` over `prop_id`. -/
def switchProp (lib : RegexLib R) (order : OperandOrder) (depth : Nat) (pair : Addr → Addr → Run F R Unit)
    (value prop : Addr) : PropId → Run F R Unit
  | .type => propType value prop
  | .equal => propCompare (fun r => r ≠ 0) depth value prop
  | .notEqual => propCompare (fun r => r = 0) depth value prop
  | .lesser => propCompare (fun r => r ≥ 0) depth value prop
  | .greater => propCompare (fun r => r ≤ 0) depth value prop
  | .lesserEqual => propCompare (fun r => r > 0) depth value prop
  | .greaterEqual => propCompare (fun r => r < 0) depth value prop
  | .sizeEqual => propSize (fun v p => v ≠ p) value prop
  | .sizeNotEqual => propSize (fun v p => v = p) value prop
  | .sizeLesser => propSize (fun v p => v ≥ p) value prop
  | .sizeGreater => propSize (fun v p => v ≤ p) value prop
  | .sizeLesserEqual => propSize (fun v p => v > p) value prop
  | .sizeGreaterEqual => propSize (fun v p => v < p) value prop
  | .regex => propRegex lib order value prop
  | .items => propItems depth pair value prop
  | .optItems => propOptItems depth pair value prop
  | .allKeys => propAllKeys depth pair value prop
  | .allItems => propAllItems depth pair value prop

/-- One turn of the loop over the properties. -/
def property (lib : RegexLib R) (order : OperandOrder) (depth : Nat) (pair : Addr → Addr → Run F R Unit)
    (value : Addr) (prop_i : Addr × Addr) : Run F R Unit := do
  -- in the handler of the exception, `to_str` throws again on a key that is no string
  let name ← toStr prop_i.1
  match cPropMap.lookup name with
  | some propId => switchProp lib order depth pair value prop_i.2 propId
  | none =>
    if isRef name then
      reference depth pair value prop_i.2 (pure ())
    else do
      pushProps (.string name)
      cclthrow .invalidSchemaProperty

/-- `validate_pair`. -/
def validatePair (lib : RegexLib R) (order : OperandOrder) : Nat → Addr → Addr → Run F R Unit
  | 0, _, _ => hang
  | fuel + 1, value, props => do
    let propsDict ← toDict props
    forEach propsDict (property lib order fuel (validatePair lib order fuel) value)

/-- The handler of `validate`: the stacks were filled from the failure to the root. -/
def finishStacks : Run F R Unit := do
  pushProps (.string (bytes "root"))
  fun σ => some (.ok (), { σ with valueStack := σ.valueStack.reverse, propsStack := σ.propsStack.reverse })

/-- What `validate` tries: `validate_pair(a_value,m_schema["root"])`. -/
def validateRoot (lib : RegexLib R) (order : OperandOrder) (fuel : Nat) (value : Addr) : Run F R Unit := fun σ =>
  (do
    let root ← index fuel σ.schema (bytes "root")
    validatePair lib order fuel value root : Run F R Unit) σ

/-- `validate`. -/
def validate (lib : RegexLib R) (order : OperandOrder) (fuel : Nat) (value : Addr) : Run F R Unit := fun σ =>
  onThrow (validateRoot lib order fuel value) finishStacks { σ with valueStack := [], propsStack := [] }

end Cclvarval
end Cclib
