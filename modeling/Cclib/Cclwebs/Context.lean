import Cclib.Lib.Vectors
import Mathlib.Data.List.Forall2
import Mathlib.Data.List.TakeWhile

/-!
# `Cclwebs.Context` — the protocol table of `context_c`

The constructor of `context_c` copies the names of the protocols into `m_prot_names` one by one and stores in the table
for libwebsockets, for each, what `data()` of the copy is at that time. A short name has its bytes within the
`std::string` itself, so that they move with it when a later `push_back` needs a larger buffer; a long one has them
elsewhere. When a connection is established, `protocol_func` looks for the name that its table entry points to.

The strings are those of libstdc++: up to 15 bytes in place, and vectors that double.

## Contents
- `StdString`, `NamePtr`, `LibwebsocketProtocols`, `ContextC`.
- `construct`, `protocol_idx`, `callback_on_writable`, `establishedIdx`.
- `Tabled`, `Tabled.add`, `construct_tabled`: the table behind the constructor.
- `readName_iff`: which names can be read.
- `dispatched_to_own_callback_iff`.
-/

namespace Cclib
namespace Cclwebs

open Vectors (Memory Vec Ref buffer deref pushBack double Moved Doubled)

def error_WS_CONTEXT_CREATE_ERROR : String := "error while creating websocket context"
def error_WS_CONTEXT_PROTOCOL_NAME_NOT_FOUND : String := "protocol was not found by name"
def error_WS_CONTEXT_PROTOCOL_INDEX_EXCEEDS_RANGE : String := "protocol index exceeds protocol count"

/-- The bytes of a name. -/
abbrev Name := List UInt8

/-- A `std::string`: its bytes are in the object, or in characters of their own. -/
inductive StdString where
  | inPlace (text : Name)
  | allocated (characters : Nat)
deriving DecidableEq, Repr

/-- A `const char *`: null, a literal, or `data()` of a string in a vector. -/
inductive NamePtr where
  | null
  | literal (text : Name)
  | inPlace (p : Ref)
  | allocated (characters : Nat)
deriving DecidableEq, Repr

/-- The callbacks in the table. -/
inductive TableCallback where
  | null
  | http_func
  | protocol_func
deriving DecidableEq, Repr

/-- `libwebsocket_protocols`, as far as the constructor sets it. -/
structure LibwebsocketProtocols where
  name : NamePtr
  callback : TableCallback
  per_session_data_size : Nat
  rx_buffer_size : Nat
  no_buffer_all_partial_tx : Nat
deriving DecidableEq, Repr

/-- `prot_descr_c`; a callback is a number. -/
structure ProtDescr where
  m_name : Name
  m_callback : Nat
deriving DecidableEq, Repr

/-- `context_c`, with the strings of `m_prot_names` and the characters that some of them have elsewhere. -/
structure ContextC where
  strings : Memory StdString
  characters : List Name
  m_protocols : List LibwebsocketProtocols
  m_prot_names : Vec
  m_prot_cbs : List Nat
deriving DecidableEq, Repr

/-! ## The functions -/

/-- What a string has room for in itself. -/
def localCapacity : Nat := 15

/-- The copy of a string. -/
def copyString (characters : List Name) (name : Name) : StdString × List Name :=
  if name.length ≤ localCapacity then (.inPlace name, characters) else (.allocated characters.length, characters ++ [name])

/-- `data()` of the string at a place. -/
def StdString.data (p : Ref) : StdString → NamePtr
  | .inPlace _ => .inPlace p
  | .allocated n => .allocated n

/-- What stands in front of the first NUL. -/
def cString (name : Name) : Name := name.takeWhile (fun b => b ≠ 0)

/-- The bytes of a string. -/
def StdString.text (characters : List Name) : StdString → Option Name
  | .inPlace text => some text
  | .allocated n => characters[n]?

/-- What is read through a `const char *`; `none` where it dangles. -/
def ContextC.readName (ctx : ContextC) : NamePtr → Option Name
  | .null => none
  | .literal text => some text
  | .inPlace p => do
    let s ← deref ctx.strings p
    match s with
    | .inPlace text => some (cString text)
    | .allocated _ => none
  | .allocated n => (ctx.characters[n]?).map cString

/-- One round of the loop over the descriptors, with `prot_idx`. -/
def addProtocol (s : ContextC × Nat) (descr : ProtDescr) : Option (ContextC × Nat) := do
  let (ctx, prot_idx) := s
  let (str, characters) := copyString ctx.characters descr.m_name
  let (strings, m_prot_names, back) ← pushBack double ctx.strings ctx.m_prot_names str
  let last ← deref strings back
  return ({
    strings := strings
    characters := characters
    m_prot_names := m_prot_names
    m_prot_cbs := ctx.m_prot_cbs ++ [descr.m_callback]
    m_protocols := ctx.m_protocols.set prot_idx
      { name := last.data back
        callback := .protocol_func
        per_session_data_size := 8
        rx_buffer_size := 0
        no_buffer_all_partial_tx := 1 } }, prot_idx + 1)

/-- An entry of a vector that was resized. -/
def zeroedProtocol : LibwebsocketProtocols := ⟨.null, .null, 0, 0, 0⟩

/-- `"http-only"` -/
def httpOnly : Name := [0x68, 0x74, 0x74, 0x70, 0x2d, 0x6f, 0x6e, 0x6c, 0x79]

/-- The constructor of `context_c`; `created` says whether `libwebsocket_create_context` gave a context. -/
def construct (a_prot_descrs : List ProtDescr) (created : Bool) : Option (Except String ContextC) := do
  let m_protocols := (List.replicate (2 + a_prot_descrs.length) zeroedProtocol).set 0 ⟨.literal httpOnly, .http_func, 0, 0, 0⟩
  let (ctx, prot_idx) ← a_prot_descrs.foldlM addProtocol (⟨[], [], m_protocols, none, []⟩, 1)
  let ctx := { ctx with m_protocols := ctx.m_protocols.set prot_idx ⟨.null, .null, 0, 0, 0⟩ }
  return if created then .ok ctx else .error error_WS_CONTEXT_CREATE_ERROR

/-- The names in `m_prot_names`. -/
def ContextC.protNames (ctx : ContextC) : Option (List Name) := do
  let strings ← Vectors.elems ctx.strings ctx.m_prot_names
  strings.mapM (fun s => s.text ctx.characters)

/-- `context_c::protocol_idx` -/
def ContextC.protocol_idx (ctx : ContextC) (a_prot_name : Name) : Option (Except String Nat) := do
  let names ← ctx.protNames
  return match names.findIdx? (fun name => name = a_prot_name) with
    | some idx => .ok idx
    | none => .error error_WS_CONTEXT_PROTOCOL_NAME_NOT_FOUND

/-- `context_c::callback_on_writable`: the table entry that libwebsockets is called with. -/
def ContextC.callback_on_writable (ctx : ContextC) (a_prot_idx : Nat) : Option (Except String LibwebsocketProtocols) := do
  let names ← ctx.protNames
  if names.length ≤ a_prot_idx then
    return .error error_WS_CONTEXT_PROTOCOL_INDEX_EXCEEDS_RANGE
  let entry ← ctx.m_protocols[1 + a_prot_idx]?
  return .ok entry

/-- What `protocol_func` stores in `m_prot_idx` of a connection with this table entry. `none` where the name dangles, or
    where none is found (`assert`). -/
def ContextC.establishedIdx (ctx : ContextC) (protocol : LibwebsocketProtocols) : Option Nat := do
  let names ← ctx.protNames
  let wanted ← ctx.readName protocol.name
  names.findIdx? (fun name => name = wanted)

/-! ## The loop -/

/-- The table entry of a protocol whose name is the string at a place. -/
def tableEntry (s : StdString) (p : Ref) : LibwebsocketProtocols := ⟨s.data p, .protocol_func, 8, 0, 1⟩

/-- A string with the bytes of a name, where libstdc++ keeps them. -/
inductive StringOf (characters : List Name) : StdString → Name → Prop
  | inPlace {name : Name} (h : name.length ≤ localCapacity) : StringOf characters (.inPlace name) name
  | allocated {name : Name} {n : Nat} (h : localCapacity < name.length) (hn : characters[n]? = some name) :
      StringOf characters (.allocated n) name

/-- The context when the loop has come through these descriptors: the strings, the references that the pushes gave, and
    the table entries made of them. -/
structure Tabled (ctx : ContextC) (size : Nat) (done : List ProtDescr) (strs : List StdString) (refs : List Ref) : Prop where
  vector : Doubled ctx.strings ctx.m_prot_names strs refs
  strings : List.Forall₂ (StringOf ctx.characters) strs (done.map ProtDescr.m_name)
  callbacks : ctx.m_prot_cbs = done.map ProtDescr.m_callback
  length : ctx.m_protocols.length = size
  entry : ∀ i s p, strs[i]? = some s → refs[i]? = some p → ctx.m_protocols[i + 1]? = some (tableEntry s p)

variable {ctx : ContextC} {size i : Nat} {done descrs : List ProtDescr} {descr : ProtDescr} {strs : List StdString}
  {refs : List Ref} {characters extra : List Name} {str : StdString} {name t : Name} {names : List Name} {p : Ref}

theorem StringOf.mono (h : StringOf characters str name) : StringOf (characters ++ extra) str name := by
  cases h with
  | inPlace h => exact .inPlace h
  | allocated h hn => exact .allocated h (List.getElem?_append_left (List.getElem?_eq_some_iff.mp hn).1 ▸ hn)

theorem copyString_spec (characters : List Name) (name : Name) : ∃ extra,
    (copyString characters name).2 = characters ++ extra ∧
      StringOf (characters ++ extra) (copyString characters name).1 name := by
  unfold copyString
  split
  · rename_i h
    exact ⟨[], (List.append_nil _).symm, .inPlace h⟩
  · rename_i h
    exact ⟨[name], rfl, .allocated (Nat.lt_of_not_le h) List.getElem?_concat_length⟩

theorem Tabled.length_strs (h : Tabled ctx size done strs refs) : strs.length = done.length := by
  rw [h.strings.length_eq, List.length_map]

/-- **One descriptor more.** -/
theorem Tabled.add (h : Tabled ctx size done strs refs) (descr : ProtDescr) (hsize : done.length + 1 < size) :
    ∃ ctx' str p, addProtocol (ctx, done.length + 1) descr = some (ctx', done.length + 2) ∧
      Tabled ctx' size (done ++ [descr]) (strs ++ [str]) (refs ++ [p]) := by
  obtain ⟨extra, hextra, hstr⟩ := copyString_spec ctx.characters descr.m_name
  obtain ⟨strings, m_prot_names, p, hpush, hdoubled⟩ := h.vector.push (copyString ctx.characters descr.m_name).1
  have hlen := h.length_strs
  have hrefs := h.vector.length
  refine ⟨{
    strings := strings
    characters := (copyString ctx.characters descr.m_name).2
    m_prot_names := m_prot_names
    m_prot_cbs := ctx.m_prot_cbs ++ [descr.m_callback]
    m_protocols := ctx.m_protocols.set (done.length + 1) (tableEntry (copyString ctx.characters descr.m_name).1 p) },
    (copyString ctx.characters descr.m_name).1, p, ?_, ?_⟩
  · simp only [addProtocol, hpush, hdoubled.deref_last, Option.bind_eq_bind, Option.bind_some, Option.pure_def]
    rfl
  · refine ⟨hdoubled, ?_, ?_, ?_, ?_⟩
    · rw [List.map_append, hextra]
      exact List.rel_append (h.strings.imp (fun _ _ hs => hs.mono)) (.cons hstr .nil)
    · rw [h.callbacks, List.map_append]
      rfl
    · rw [List.length_set]
      exact h.length
    · intro i s q hs hq
      rcases Nat.lt_or_ge i strs.length with hi | hi
      · rw [List.getElem?_append_left hi] at hs
        rw [List.getElem?_append_left (by omega)] at hq
        rw [List.getElem?_set_ne (by omega)]
        exact h.entry i s q hs hq
      · have hlast : i < (strs ++ [(copyString ctx.characters descr.m_name).1]).length :=
          (List.getElem?_eq_some_iff.mp hs).1
        rw [List.length_append, List.length_singleton] at hlast
        obtain rfl : i = strs.length := by omega
        rw [List.getElem?_concat_length] at hs
        rw [← hrefs, List.getElem?_concat_length] at hq
        obtain rfl := Option.some.inj hs
        obtain rfl := Option.some.inj hq
        rw [hlen, List.getElem?_set_self (by rw [h.length]; exact hsize)]

theorem foldlM_tabled (descrs : List ProtDescr) (h : Tabled ctx size done strs refs) (hsize : done.length + descrs.length + 1 < size) :
    ∃ ctx' strs' refs', descrs.foldlM addProtocol (ctx, done.length + 1) =
        some (ctx', done.length + descrs.length + 1) ∧ Tabled ctx' size (done ++ descrs) strs' refs' := by
  induction descrs generalizing ctx done strs refs with
  | nil => exact ⟨ctx, strs, refs, rfl, by rw [List.append_nil]; exact h⟩
  | cons descr descrs ih =>
      rw [List.length_cons] at hsize ⊢
      obtain ⟨ctx₁, str, p, hadd, h₁⟩ := h.add descr (by omega)
      have hlen : (done ++ [descr]).length = done.length + 1 := by rw [List.length_append, List.length_singleton]
      obtain ⟨ctx', strs', refs', hfold, h'⟩ := ih h₁ (by omega)
      refine ⟨ctx', strs', refs', ?_, ?_⟩
      · rw [List.foldlM_cons, hadd]
        rw [hlen] at hfold
        rw [show done.length + (descrs.length + 1) + 1 = done.length + 1 + descrs.length + 1 by omega]
        exact hfold
      · rw [List.append_assoc] at h'
        exact h'

/-- **The table behind the constructor.** -/
theorem construct_tabled (descrs : List ProtDescr) : ∃ ctx strs refs,
    (∀ created, construct descrs created = some (if created then .ok ctx else .error error_WS_CONTEXT_CREATE_ERROR)) ∧
      Tabled ctx (2 + descrs.length) descrs strs refs := by
  have hstart : Tabled ⟨[], [], (List.replicate (2 + descrs.length) zeroedProtocol).set 0
      ⟨.literal httpOnly, .http_func, 0, 0, 0⟩, none, []⟩ (2 + descrs.length) [] [] [] :=
    ⟨Vectors.doubled_nil [], .nil, rfl, by rw [List.length_set, List.length_replicate], by rintro i s p ⟨⟩⟩
  obtain ⟨ctx, strs, refs, hfold, h⟩ := foldlM_tabled descrs hstart (by rw [List.length_nil]; omega)
  simp only [List.length_nil, Nat.zero_add] at hfold
  rw [List.nil_append] at h
  refine ⟨{ ctx with m_protocols := ctx.m_protocols.set (descrs.length + 1) ⟨.null, .null, 0, 0, 0⟩ }, strs, refs, ?_,
    h.vector, h.strings, h.callbacks, by rw [List.length_set]; exact h.length, ?_⟩
  · intro created
    simp only [construct, hfold, Option.bind_eq_bind, Option.bind_some, Option.pure_def]
  · intro i s p hs hp
    have hi := (List.getElem?_eq_some_iff.mp hs).1
    rw [List.getElem?_set_ne (by have := h.length_strs; omega)]
    exact h.entry i s p hs hp

/-! ## Reading the table -/

/-- The names behind the constructor are those it was given. -/
theorem protNames_eq (h : Tabled ctx size done strs refs) : ctx.protNames = some (done.map ProtDescr.m_name) := by
  have hmap : ∀ {strs names}, List.Forall₂ (StringOf ctx.characters) strs names →
      strs.mapM (fun s => s.text ctx.characters) = some names := by
    intro strs names hstrs
    induction hstrs with
    | nil => rfl
    | cons hs _ ih =>
        rw [List.mapM_cons, ih]
        cases hs with
        | inPlace _ => rfl
        | allocated _ hn =>
            rw [StdString.text, hn]
            rfl
  rw [ContextC.protNames, h.vector.elems]
  exact hmap h.strings

/-- The string and the reference that a table entry was made of. -/
theorem Tabled.made (h : Tabled ctx size done strs refs) (hi : done[i]? = some descr) :
    ∃ s p, strs[i]? = some s ∧ refs[i]? = some p ∧ StringOf ctx.characters s descr.m_name := by
  obtain ⟨hlt, hget⟩ := List.getElem?_eq_some_iff.mp hi
  have hs : i < strs.length := h.length_strs ▸ hlt
  have hr : i < refs.length := h.vector.length ▸ hs
  have hn : i < (done.map ProtDescr.m_name).length := by rw [List.length_map]; exact hlt
  refine ⟨strs[i], refs[i], List.getElem?_eq_getElem hs, List.getElem?_eq_getElem hr, ?_⟩
  have hof := h.strings.get hs hn
  simp only [List.get_eq_getElem, List.getElem_map, hget] at hof
  exact hof

/-- **A name can be read** through the table exactly where it is long, or has not moved since it was stored. -/
theorem readName_iff (h : Tabled ctx size done strs refs) (hi : done[i]? = some descr) :
    ∃ entry, ctx.m_protocols[i + 1]? = some entry ∧ entry.callback = .protocol_func ∧ ∀ t,
      ctx.readName entry.name = some t ↔
        (localCapacity < descr.m_name.length ∨ ¬ Moved i done.length) ∧ t = cString descr.m_name := by
  obtain ⟨s, p, hs, hp, hof⟩ := h.made hi
  refine ⟨tableEntry s p, h.entry i s p hs hp, rfl, fun t => ?_⟩
  obtain ⟨hmoved, hstays⟩ := h.vector.deref_iff hp
  rw [h.length_strs] at hmoved hstays
  unfold tableEntry
  cases hof with
  | inPlace hshort =>
      rw [or_iff_right (Nat.not_lt.mpr hshort)]
      by_cases hm : Moved i done.length
      · simp only [StdString.data, ContextC.readName, hmoved hm]
        exact ⟨fun h => absurd h.symm (Option.some_ne_none t), fun h => absurd hm h.1⟩
      · simp only [StdString.data, ContextC.readName, hstays hm, hs]
        exact ⟨fun h => ⟨hm, (Option.some.inj h).symm⟩, fun h => congrArg some h.2.symm⟩
  | allocated hlong hn =>
      simp only [StdString.data, ContextC.readName, hn]
      exact ⟨fun h => ⟨Or.inl hlong, (Option.some.inj h).symm⟩, fun h => congrArg some h.2.symm⟩

theorem cString_eq_self : cString name = name ↔ 0 ∉ name := by
  unfold cString
  rw [List.takeWhile_eq_self_iff]
  constructor
  · intro h h0
    exact absurd (h 0 h0) (by decide)
  · intro h b hb
    exact decide_eq_true (fun heq => h (heq ▸ hb))

/-- The first name that is equal to the bytes in front of the first NUL of a name is that name itself where it has no
    NUL and is the first of its kind. -/
theorem findIdx?_cString (hi : names[i]? = some name) : names.findIdx? (fun other => other = cString name) = some i ↔
    0 ∉ name ∧ ∀ (j : Nat) (other : Name), j < i → names[j]? = some other → other ≠ name := by
  obtain ⟨hlt, hget⟩ := List.getElem?_eq_some_iff.mp hi
  rw [List.findIdx?_eq_some_iff_getElem, ← cString_eq_self]
  simp only [decide_eq_true_eq]
  constructor
  · rintro ⟨hlt, hself, hearlier⟩
    rw [hget] at hself
    refine ⟨hself.symm, fun j other hj hother => ?_⟩
    obtain ⟨hjlt, rfl⟩ := List.getElem?_eq_some_iff.mp hother
    rw [hself]
    exact hearlier j hj
  · rintro ⟨hself, hearlier⟩
    refine ⟨hlt, by rw [hget, hself], fun j hj => ?_⟩
    rw [hself]
    exact hearlier j _ hj (List.getElem?_eq_getElem (Nat.lt_trans hj hlt))

/-- **A connection goes to the callback of its own protocol** exactly where that has a long name, or one whose string has
    not moved since the table was made (no power of two lies between the protocol and the number of protocols), and where
    that name has no NUL and no earlier protocol has it too. -/
theorem dispatched_to_own_callback_iff (descrs : List ProtDescr) : ∃ ctx, construct descrs true = some (.ok ctx) ∧
    ∀ i descr, descrs[i]? = some descr → ∃ entry, ctx.m_protocols[i + 1]? = some entry ∧
      entry.callback = .protocol_func ∧ ctx.m_prot_cbs[i]? = some descr.m_callback ∧
        (ctx.establishedIdx entry = some i ↔
          (localCapacity < descr.m_name.length ∨ ¬ Moved i descrs.length) ∧ 0 ∉ descr.m_name ∧
            ∀ j other, j < i → descrs[j]? = some other → other.m_name ≠ descr.m_name) := by
  obtain ⟨ctx, strs, refs, hconstruct, h⟩ := construct_tabled descrs
  refine ⟨ctx, hconstruct true, fun i descr hi => ?_⟩
  obtain ⟨entry, hentry, hcallback, hread⟩ := readName_iff h hi
  refine ⟨entry, hentry, hcallback, ?_, ?_⟩
  · rw [h.callbacks, List.getElem?_map, hi]
    rfl
  · have hname : (descrs.map ProtDescr.m_name)[i]? = some descr.m_name := by rw [List.getElem?_map, hi]; rfl
    have hfind := findIdx?_cString hname
    have hothers : (∀ j other, j < i → (descrs.map ProtDescr.m_name)[j]? = some other → other ≠ descr.m_name) ↔
        ∀ j other, j < i → descrs[j]? = some other → other.m_name ≠ descr.m_name := by
      constructor
      · intro hall j other hj hother
        exact hall j _ hj (by rw [List.getElem?_map, hother]; rfl)
      · intro hall j other hj hother
        rw [List.getElem?_map] at hother
        obtain ⟨d, hd, rfl⟩ := Option.map_eq_some_iff.mp hother
        exact hall j d hj hd
    rw [hothers] at hfind
    by_cases hgood : localCapacity < descr.m_name.length ∨ ¬ Moved i descrs.length
    · have hwanted := (hread _).mpr ⟨hgood, rfl⟩
      simp only [ContextC.establishedIdx, protNames_eq h, hwanted, Option.bind_eq_bind, Option.bind_some]
      rw [and_iff_right hgood]
      exact hfind
    · have hnone : ctx.readName entry.name = none := by
        cases hr : ctx.readName entry.name with
        | none => rfl
        | some t => exact absurd ((hread t).mp hr).1 hgood
      simp only [ContextC.establishedIdx, protNames_eq h, hnone, Option.bind_eq_bind, Option.bind_some]
      exact ⟨fun h => absurd h.symm (Option.some_ne_none i), fun h => absurd h.1 hgood⟩

/-- `"chat"` and `"echo"`. -/
def chatEcho : List ProtDescr := [⟨[0x63, 0x68, 0x61, 0x74], 1⟩, ⟨[0x65, 0x63, 0x68, 0x6f], 2⟩]

/-- The name of the first of them dangles. -/
theorem chat_dangles : ∃ ctx entry, construct chatEcho true = some (.ok ctx) ∧ ctx.m_protocols[1]? = some entry ∧
    ctx.m_prot_cbs[0]? = some 1 ∧ ctx.establishedIdx entry ≠ some 0 := by
  obtain ⟨ctx, hctx, hall⟩ := dispatched_to_own_callback_iff chatEcho
  obtain ⟨entry, hentry, -, hcallback, hiff⟩ := hall 0 ⟨[0x63, 0x68, 0x61, 0x74], 1⟩ rfl
  refine ⟨ctx, entry, hctx, hentry, hcallback, ?_⟩
  intro h
  rcases (hiff.mp h).1 with hlong | hstays
  · exact absurd hlong (by decide)
  · exact hstays ⟨0, by decide, by decide⟩

/-! ## Protocols by index -/

/-- An index from `protocol_idx` is that of a protocol with the name, and `callback_on_writable` takes it for the table
    entry of that protocol; where there is no such protocol, `protocol_idx` throws. -/
theorem callback_on_writable_protocol_idx (descrs : List ProtDescr) (name : Name) :
    ∃ ctx, construct descrs true = some (.ok ctx) ∧
      ((∃ i descr entry, descrs[i]? = some descr ∧ descr.m_name = name ∧ ctx.m_protocols[i + 1]? = some entry ∧
          ctx.protocol_idx name = some (.ok i) ∧ ctx.callback_on_writable i = some (.ok entry)) ∨
        ((∀ descr ∈ descrs, descr.m_name ≠ name) ∧
          ctx.protocol_idx name = some (.error error_WS_CONTEXT_PROTOCOL_NAME_NOT_FOUND))) := by
  obtain ⟨ctx, strs, refs, hconstruct, h⟩ := construct_tabled descrs
  refine ⟨ctx, hconstruct true, ?_⟩
  have hnames := protNames_eq h
  cases hfind : (descrs.map ProtDescr.m_name).findIdx? (fun other => other = name) with
  | none =>
      refine Or.inr ⟨?_, ?_⟩
      · intro descr hd
        have hnot := List.findIdx?_eq_none_iff.mp hfind descr.m_name (List.mem_map_of_mem hd)
        exact of_decide_eq_false hnot
      · simp only [ContextC.protocol_idx, hnames, hfind, Option.bind_eq_bind, Option.bind_some, Option.pure_def]
  | some i =>
      obtain ⟨hlt, hname, -⟩ := List.findIdx?_eq_some_iff_getElem.mp hfind
      rw [List.length_map] at hlt
      rw [List.getElem_map, decide_eq_true_eq] at hname
      obtain ⟨entry, hentry, -⟩ := readName_iff h (List.getElem?_eq_getElem hlt)
      refine Or.inl ⟨i, descrs[i], entry, List.getElem?_eq_getElem hlt, hname, hentry, ?_, ?_⟩
      · simp only [ContextC.protocol_idx, hnames, hfind, Option.bind_eq_bind, Option.bind_some, Option.pure_def]
      · have hle : ¬ (descrs.map ProtDescr.m_name).length ≤ i := by
          rw [List.length_map]
          exact Nat.not_le.mpr hlt
        rw [Nat.add_comm] at hentry
        simp only [ContextC.callback_on_writable, hnames, if_neg hle, hentry, Option.bind_eq_bind, Option.bind_some,
          Option.pure_def]

end Cclwebs
end Cclib
