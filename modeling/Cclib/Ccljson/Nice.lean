import Cclib.Ccljson.Create

/-!
# `Ccljson.Nice` — `ccljson::create_nice`

The loop of `create` with line breaks: after `[`, `{` and `,`, and in front of the `]` and `}` of a
container that is not empty. The tabs of a line are the first `indent_size` bytes of `indent_buffer`,
which grows when the nesting gets deeper than it was before.

- `createNice_returns` — the loop prints `nicePieces`, or throws their error: every line has as many tabs
  as containers are open (`NiceBuf.At`).
- `pieces_eq` — what `create` prints is `nicePieces` without white space.
-/

namespace Cclib
namespace Ccljson
open Cclvar

/-! ## The buffers -/

/-- `strbuf`, `indent_buffer` and `indent_size`. -/
structure NiceBuf where
  strbuf : StringT
  indent_buffer : StringT
  indent_size : Nat

namespace NiceBuf

/-- The buffers at the start. -/
def new : NiceBuf := ⟨[], [], 0⟩

def put (buf : NiceBuf) (s : StringT) : NiceBuf := { buf with strbuf := buf.strbuf ++ s }

/-- `CCLJSON_CREATE_NICE_PUSH_TAB` -/
def pushTab (a_tab_str : StringT) (buf : NiceBuf) : NiceBuf :=
  let indent_size := buf.indent_size + a_tab_str.length
  let indent_buffer :=
    if indent_size > buf.indent_buffer.length then buf.indent_buffer ++ a_tab_str else buf.indent_buffer
  ⟨buf.strbuf, indent_buffer, indent_size⟩

/-- `CCLJSON_CREATE_NICE_POP_TAB` -/
def popTab (a_tab_str : StringT) (buf : NiceBuf) : NiceBuf :=
  { buf with indent_size := buf.indent_size - a_tab_str.length }

/-- `CCLJSON_CREATE_NICE_INDENT` -/
def indent (buf : NiceBuf) : NiceBuf := buf.put (10 :: buf.indent_buffer.take buf.indent_size)

/-- What the first turn on a container puts. -/
def opens (a_tab_str : StringT) (bracket : UInt8) (empty : Bool) (buf : NiceBuf) : NiceBuf :=
  if empty then buf.put [bracket] else ((buf.put [bracket]).pushTab a_tab_str).indent

/-- What a later turn puts when there is more to come. -/
def next (buf : NiceBuf) : NiceBuf := (buf.put [44]).indent

/-- What the last turn puts. -/
def closes (a_tab_str : StringT) (bracket : UInt8) (empty : Bool) (buf : NiceBuf) : NiceBuf :=
  (if empty then buf else (buf.popTab a_tab_str).indent).put [bracket]

end NiceBuf

section
variable {F : Type} (showFloat : F → StringT) (a_tab_str : StringT)

/-- One turn of the loop of `create_nice`. -/
def createNiceRound : Loop.Body (List (CreateElemC F) × NiceBuf) (Except CreateError StringT)
  | ([], buf) => some (.inr (.ok buf.strbuf))
  | (cs_elm :: below, buf) =>
    match cs_elm.m_var with
    | .blank => some (.inl (below, buf.put nullText))
    | .bool b => some (.inl (below, buf.put (if b then trueText else falseText)))
    | .integer n => some (.inl (below, buf.put (showInt n)))
    | .float f => some (.inl (below, buf.put (showFloat f)))
    | .string s => some (.inl (below, buf.put (34 :: (appendString s ++ [34]))))
    | .array xs =>
      let array_i := if cs_elm.m_init then xs else cs_elm.array_i
      let buf := if cs_elm.m_init then buf.opens a_tab_str 91 xs.isEmpty
        else if array_i = [] then buf else buf.next
      match array_i with
      | x :: array_i =>
        some (.inl (.mk' x :: { cs_elm with m_init := false, array_i := array_i } :: below, buf))
      | [] => some (.inl (below, buf.closes a_tab_str 93 xs.isEmpty))
    | .list xs =>
      let list_i := if cs_elm.m_init then xs else cs_elm.list_i
      let buf := if cs_elm.m_init then buf.opens a_tab_str 91 xs.isEmpty
        else if list_i = [] then buf else buf.next
      match list_i with
      | x :: list_i =>
        some (.inl (.mk' x :: { cs_elm with m_init := false, list_i := list_i } :: below, buf))
      | [] => some (.inl (below, buf.closes a_tab_str 93 xs.isEmpty))
    | .dict es =>
      let dict_i := if cs_elm.m_init then es else cs_elm.dict_i
      let buf := if cs_elm.m_init then buf.opens a_tab_str 123 es.isEmpty
        else if dict_i = [] then buf else buf.next
      match dict_i with
      | (.string k, v) :: dict_i =>
        some (.inl (.mk' v :: { cs_elm with m_init := false, dict_i := dict_i } :: below,
          buf.put (34 :: (appendString k ++ [34, 58]))))
      | _ :: _ => some (.inr (.error .noStringDictKey))
      | [] => some (.inl (below, buf.closes a_tab_str 125 es.isEmpty))
    | .set _ => some (.inr (.error .unsupportedVariableType))

/-- `ccljson::create_nice` on `v` with the tab `a_tab_str` ends with `r`. -/
def CreatesNice (v : VarC F) (r : Except CreateError StringT) : Prop :=
  Loop.Returns (createNiceRound showFloat a_tab_str) ([.mk' v], .new) r

end

/-! ## The printed pieces -/

/-- A piece with white space in front. -/
def Piece.after (ws : StringT) (p : Piece) : Piece := { p with ws := ws }

/-- The items of a container with commas between them, or the first error among them. -/
def joined (first : Bool) : List (Except CreateError (List Piece)) → Except CreateError (List Piece)
  | [] => .ok []
  | .error e :: _ => .error e
  | .ok ps :: items => (joined false items).map (fun qs => comma first ++ ps ++ qs)

section
variable {F : Type} (showFloat : F → StringT) (indent : Nat → StringT)

mutual
/-- What a printer writes of a value at the given depth, with `ws` in front, when the lines at depth `n`
    begin with `indent n`; or the error it throws there. -/
def nicePieces (depth : Nat) (ws : StringT) : VarC F → Except CreateError (List Piece)
  | .blank => .ok [⟨ws, 5, nullText⟩]
  | .bool b => .ok [if b then ⟨ws, 3, trueText⟩ else ⟨ws, 4, falseText⟩]
  | .integer n => .ok [⟨ws, 1, showInt n⟩]
  | .float f => .ok [⟨ws, 2, showFloat f⟩]
  | .string s => .ok [(stringPiece s).after ws]
  | .array xs | .list xs => (joined true (niceElems (depth + 1) xs)).map (fun ps =>
      (punct 8 91).after ws :: (ps ++ [(punct 9 93).after (if xs.isEmpty then [] else indent depth)]))
  | .dict es => (joined true (niceEntries (depth + 1) es)).map (fun ps =>
      (punct 6 123).after ws :: (ps ++ [(punct 7 125).after (if es.isEmpty then [] else indent depth)]))
  | .set _ => .error .unsupportedVariableType

def niceElems (depth : Nat) : List (VarC F) → List (Except CreateError (List Piece))
  | [] => []
  | x :: xs => nicePieces depth (indent depth) x :: niceElems depth xs

def niceEntry (depth : Nat) : VarC F × VarC F → Except CreateError (List Piece)
  | (.string s, v) => (nicePieces depth [] v).map (fun ps =>
      (stringPiece s).after (indent depth) :: punct 11 58 :: ps)
  | _ => .error .noStringDictKey

def niceEntries (depth : Nat) : List (VarC F × VarC F) → List (Except CreateError (List Piece))
  | [] => []
  | e :: es => niceEntry depth e :: niceEntries depth es
end

end

section

variable {F : Type} {showFloat : F → StringT} {indent : Nat → StringT}

theorem niceElems_eq (depth : Nat) (xs : List (VarC F)) :
    niceElems showFloat indent depth xs = xs.map (nicePieces showFloat indent depth (indent depth)) := by
  induction xs with
  | nil => rfl
  | cons x xs ih => rw [niceElems, ih, List.map_cons]

theorem niceEntries_eq (depth : Nat) (es : List (VarC F × VarC F)) :
    niceEntries showFloat indent depth es = es.map (niceEntry showFloat indent depth) := by
  induction es with
  | nil => rfl
  | cons e es ih => rw [niceEntries, ih, List.map_cons]

end

/-- The tabs of a line at some depth. -/
def tabs (a_tab_str : StringT) (depth : Nat) : StringT := (List.replicate depth a_tab_str).flatten

/-- A line break and the tabs of the next line. -/
def lineBreak (a_tab_str : StringT) (depth : Nat) : StringT := 10 :: tabs a_tab_str depth

/-! ## The tabs of a line -/

/-- `depth` containers are open: so many tabs are in use, of those of the deepest nesting so far. -/
structure NiceBuf.At (a_tab_str : StringT) (depth : Nat) (buf : NiceBuf) : Prop where
  size : buf.indent_size = depth * a_tab_str.length
  buffer : ∃ deepest, depth ≤ deepest ∧ buf.indent_buffer = tabs a_tab_str deepest

section Tabs

variable {a_tab_str : StringT} {depth : Nat} {buf : NiceBuf} {bracket : UInt8}

theorem length_tabs (a_tab_str : StringT) (depth : Nat) :
    (tabs a_tab_str depth).length = depth * a_tab_str.length := by
  simp [tabs, List.length_flatten]

theorem tabs_add (a_tab_str : StringT) (n m : Nat) :
    tabs a_tab_str (n + m) = tabs a_tab_str n ++ tabs a_tab_str m := by
  rw [tabs, tabs, tabs, List.replicate_add, List.flatten_append]

namespace NiceBuf

theorem at_new (a_tab_str : StringT) : new.At a_tab_str 0 := ⟨by simp [new], 0, Nat.le_refl 0, rfl⟩

theorem At.put (h : buf.At a_tab_str depth) (s : StringT) : (buf.put s).At a_tab_str depth := ⟨h.size, h.buffer⟩

@[simp] theorem put_strbuf (buf : NiceBuf) (s : StringT) : (buf.put s).strbuf = buf.strbuf ++ s := rfl
@[simp] theorem pushTab_strbuf (buf : NiceBuf) : (buf.pushTab a_tab_str).strbuf = buf.strbuf := rfl
@[simp] theorem popTab_strbuf (buf : NiceBuf) : (buf.popTab a_tab_str).strbuf = buf.strbuf := rfl

theorem At.pushTab (h : buf.At a_tab_str depth) : (buf.pushTab a_tab_str).At a_tab_str (depth + 1) := by
  obtain ⟨hsize, deepest, hle, hbuffer⟩ := h
  refine ⟨by simp only [NiceBuf.pushTab, hsize, Nat.add_mul, Nat.one_mul], ?_⟩
  simp only [NiceBuf.pushTab, hsize, hbuffer, length_tabs]
  split
  · -- deeper than ever before
    refine ⟨deepest + 1, by omega, ?_⟩
    rw [tabs_add, tabs, tabs]
    simp
  · rename_i hlarge
    by_cases hdeep : depth + 1 ≤ deepest
    · exact ⟨deepest, hdeep, rfl⟩
    · -- as deep as before, with an empty tab
      have heq : deepest = depth := by omega
      have hempty : a_tab_str = [] := List.eq_nil_of_length_eq_zero (by rw [heq] at hlarge; omega)
      exact ⟨depth + 1, Nat.le_refl _, by simp [tabs, hempty]⟩

theorem At.popTab (h : buf.At a_tab_str (depth + 1)) : (buf.popTab a_tab_str).At a_tab_str depth := by
  obtain ⟨hsize, deepest, hle, hbuffer⟩ := h
  refine ⟨?_, deepest, by omega, hbuffer⟩
  simp only [NiceBuf.popTab, hsize, Nat.add_mul, Nat.one_mul, Nat.add_sub_cancel]

/-- The tabs put are those of the open containers. -/
theorem At.indent_eq (h : buf.At a_tab_str depth) : buf.indent = buf.put (lineBreak a_tab_str depth) := by
  obtain ⟨hsize, deepest, hle, hbuffer⟩ := h
  have htake : buf.indent_buffer.take buf.indent_size = tabs a_tab_str depth := by
    rw [hsize, hbuffer, ← length_tabs, show deepest = depth + (deepest - depth) by omega, tabs_add, List.take_left]
  rw [indent, htake, lineBreak]

theorem At.indent (h : buf.At a_tab_str depth) : buf.indent.At a_tab_str depth := by
  rw [h.indent_eq]
  exact h.put _

theorem At.opens (h : buf.At a_tab_str depth) : (buf.opens a_tab_str bracket false).At a_tab_str (depth + 1) ∧
    (buf.opens a_tab_str bracket false).strbuf = buf.strbuf ++ [bracket] ++ lineBreak a_tab_str (depth + 1) := by
  have hpush := (h.put [bracket]).pushTab
  refine ⟨hpush.indent, ?_⟩
  show ((buf.put [bracket]).pushTab a_tab_str).indent.strbuf = _
  rw [hpush.indent_eq]
  rfl

theorem At.next (h : buf.At a_tab_str depth) : buf.next.At a_tab_str depth ∧
    buf.next.strbuf = buf.strbuf ++ [44] ++ lineBreak a_tab_str depth := by
  have hcomma := h.put [44]
  refine ⟨hcomma.indent, ?_⟩
  rw [NiceBuf.next, hcomma.indent_eq]
  rfl

theorem At.closes (h : buf.At a_tab_str (depth + 1)) (bracket : UInt8) :
    (buf.closes a_tab_str bracket false).At a_tab_str depth ∧
    (buf.closes a_tab_str bracket false).strbuf = buf.strbuf ++ lineBreak a_tab_str depth ++ [bracket] := by
  have hpop := h.popTab
  refine ⟨hpop.indent.put _, ?_⟩
  show ((buf.popTab a_tab_str).indent.put [bracket]).strbuf = _
  rw [hpop.indent_eq]
  rfl

end NiceBuf

end Tabs

/-! ## The loop prints the pieces -/

section Prints

variable {F : Type} (showFloat : F → StringT) (a_tab_str : StringT)

/-- From `start` the loop prints the pieces, from the text `s` on, and is left with `stack` at the depth
    `depth`; or it throws. -/
def Leads (start : List (CreateElemC F) × NiceBuf) (stack : List (CreateElemC F)) (depth : Nat) (s : StringT)
    (out : Except CreateError (List Piece)) : Prop :=
  match out with
  | .ok ps => ∃ buf, Loop.Reaches (createNiceRound showFloat a_tab_str) start (stack, buf) ∧
      buf.At a_tab_str depth ∧ buf.strbuf = s ++ render ps
  | .error e => Loop.Returns (createNiceRound showFloat a_tab_str) start (.error e)

/-- From a value on top of the stack and the white space in front of it, the loop prints it and drops it. -/
def PrintsNice (v : VarC F) : Prop :=
  ∀ depth ws below s buf, buf.At a_tab_str depth → buf.strbuf = s ++ ws →
    Leads showFloat a_tab_str (.mk' v :: below, buf) below depth s
      (nicePieces showFloat (lineBreak a_tab_str) depth ws v)

variable {showFloat} {a_tab_str} {start mid : List (CreateElemC F) × NiceBuf} {stack : List (CreateElemC F)}
  {depth : Nat} {s : StringT} {out : Except CreateError (List Piece)}

/-- Rounds in front. -/
theorem Leads.head (hreach : Loop.Reaches (createNiceRound showFloat a_tab_str) start mid)
    (h : Leads showFloat a_tab_str mid stack depth s out) : Leads showFloat a_tab_str start stack depth s out := by
  cases out with
  | error e => exact (Loop.Reaches.returns_iff hreach).mpr h
  | ok ps =>
      obtain ⟨buf, hreach', hrest⟩ := h
      exact ⟨buf, hreach.trans hreach', hrest⟩

/-- Rounds behind, which put more around the pieces. -/
theorem Leads.map {stack' : List (CreateElemC F)} {depth' : Nat} {s' : StringT} {f : List Piece → List Piece}
    (h : Leads showFloat a_tab_str start stack depth s out)
    (hstep : ∀ buf ps, buf.At a_tab_str depth → buf.strbuf = s ++ render ps →
      Leads showFloat a_tab_str (stack, buf) stack' depth' s' (.ok (f ps))) :
    Leads showFloat a_tab_str start stack' depth' s' (out.map f) := by
  cases out with
  | error e => exact h
  | ok ps =>
      obtain ⟨buf, hreach, hat, hbuf⟩ := h
      exact (hstep buf ps hat hbuf).head hreach

/-- An item, and then the others. -/
theorem Leads.cons {stack' : List (CreateElemC F)} {first : Bool} {items : List (Except CreateError (List Piece))}
    (h : Leads showFloat a_tab_str start stack depth (s ++ render (comma first)) out)
    (hrest : ∀ buf, buf.At a_tab_str depth →
      Leads showFloat a_tab_str (stack, buf) stack' depth buf.strbuf (joined false items)) :
    Leads showFloat a_tab_str start stack' depth s (joined first (out :: items)) := by
  cases out with
  | error e => exact h
  | ok ps =>
      obtain ⟨buf, hreach, hat, hbuf⟩ := h
      refine Leads.map ((hrest buf hat).head hreach) (fun buf' qs hat' hbuf' => ?_)
      exact ⟨buf', .refl, hat', by simp [hbuf', hbuf]⟩

/-- The items of a container. `frame t` is the container on the stack with the items `t` to come. -/
theorem leads_joined {ι : Type} {item : ι → Except CreateError (List Piece)} {frame : List ι → CreateElemC F}
    {below : List (CreateElemC F)} {items : List ι}
    (hitem : ∀ i ∈ items, ∀ t buf, buf.At a_tab_str depth → Leads showFloat a_tab_str
      (frame (i :: t) :: below, buf) (frame t :: below) depth (buf.strbuf ++ [44]) (item i))
    {buf : NiceBuf} (hat : buf.At a_tab_str depth) :
    Leads showFloat a_tab_str (frame items :: below, buf) (frame [] :: below) depth buf.strbuf
      (joined false (items.map item)) := by
  induction items generalizing buf with
  | nil => exact ⟨buf, .refl, hat, by simp⟩
  | cons i t ih =>
      rw [List.map_cons]
      refine Leads.cons (hitem i List.mem_cons_self t buf hat) (fun buf' hat' => ?_)
      exact ih (fun j hj => hitem j (List.mem_cons_of_mem _ hj)) hat'

/-- **A container with items.** Its first turn, on `top`, puts the bracket and starts the first item; the
    turns on its frames do the others, and the last one puts the other bracket. -/
theorem leads_container {ι : Type} {item : ι → Except CreateError (List Piece)} {frame : List ι → CreateElemC F}
    {top : CreateElemC F} {below : List (CreateElemC F)} {i : ι} {t : List ι} {buf : NiceBuf} {ws : StringT}
    {o c : Nat} {opening closing : UInt8}
    (hfirst : Leads showFloat a_tab_str (top :: below, buf) (frame t :: below) (depth + 1)
      (s ++ ws ++ [opening]) (item i))
    (hitem : ∀ j ∈ t, ∀ t buf, buf.At a_tab_str (depth + 1) → Leads showFloat a_tab_str
      (frame (j :: t) :: below, buf) (frame t :: below) (depth + 1) (buf.strbuf ++ [44]) (item j))
    (hlast : ∀ buf, Loop.Next (createNiceRound showFloat a_tab_str) (frame [] :: below, buf)
      (below, buf.closes a_tab_str closing false)) :
    Leads showFloat a_tab_str (top :: below, buf) below depth s
      ((joined true ((i :: t).map item)).map (fun ps =>
        (punct o opening).after ws :: (ps ++ [(punct c closing).after (lineBreak a_tab_str depth)]))) := by
  have hitems : Leads showFloat a_tab_str (top :: below, buf) (frame [] :: below) (depth + 1)
      (s ++ ws ++ [opening]) (joined true ((i :: t).map item)) := by
    rw [List.map_cons]
    refine Leads.cons ?_ (fun buf' hat' => leads_joined hitem hat')
    simpa [comma] using hfirst
  refine hitems.map (fun buf' ps hat' hbuf' => ?_)
  obtain ⟨hat'', hbuf''⟩ := hat'.closes closing
  refine ⟨_, Relation.ReflTransGen.single (hlast buf'), hat'', ?_⟩
  rw [hbuf'', hbuf']
  simp [Piece.after, punct]

/-- The elements of an array or list. -/
theorem leads_elems {x : VarC F} {xs : List (VarC F)} (top : CreateElemC F) (frame : List (VarC F) → CreateElemC F)
    (hx : ∀ y ∈ x :: xs, PrintsNice showFloat a_tab_str y)
    (hfirst : ∀ below buf, Loop.Next (createNiceRound showFloat a_tab_str) (top :: below, buf)
      (.mk' x :: frame xs :: below, buf.opens a_tab_str 91 false))
    (hnext : ∀ y t below buf, Loop.Next (createNiceRound showFloat a_tab_str) (frame (y :: t) :: below, buf)
      (.mk' y :: frame t :: below, buf.next))
    (hlast : ∀ below buf, Loop.Next (createNiceRound showFloat a_tab_str) (frame [] :: below, buf)
      (below, buf.closes a_tab_str 93 false))
    {ws : StringT} (below : List (CreateElemC F)) {buf : NiceBuf} (hat : buf.At a_tab_str depth)
    (hbuf : buf.strbuf = s ++ ws) :
    Leads showFloat a_tab_str (top :: below, buf) below depth s
      ((joined true (niceElems showFloat (lineBreak a_tab_str) (depth + 1) (x :: xs))).map (fun ps =>
        (punct 8 91).after ws :: (ps ++ [(punct 9 93).after (lineBreak a_tab_str depth)]))) := by
  rw [niceElems_eq]
  refine leads_container ?_ ?_ (hlast below)
  · obtain ⟨hat', hbuf'⟩ := hat.opens
    refine Leads.head (Relation.ReflTransGen.single (hfirst below buf)) ?_
    apply hx x List.mem_cons_self _ _ _ _ _ hat'
    rw [hbuf', hbuf]
  · intro y hy t buf' hat'
    obtain ⟨hat'', hbuf''⟩ := hat'.next
    refine Leads.head (Relation.ReflTransGen.single (hnext y t below buf')) ?_
    exact hx y (List.mem_cons_of_mem _ hy) _ _ _ _ _ hat'' hbuf''

/-- A dict entry whose turn puts `buf₁` in front of the key. -/
theorem leads_entry {e : VarC F × VarC F} (hv : PrintsNice showFloat a_tab_str e.2) {buf₁ : NiceBuf}
    (hat : buf₁.At a_tab_str depth) (hbuf : buf₁.strbuf = s ++ lineBreak a_tab_str depth)
    (hkey : ∀ k, e.1 = .string k → Loop.Next (createNiceRound showFloat a_tab_str) start
      (.mk' e.2 :: stack, buf₁.put (34 :: (appendString k ++ [34, 58]))))
    (hother : (∀ k, e.1 ≠ .string k) →
      createNiceRound showFloat a_tab_str start = some (.inr (.error .noStringDictKey))) :
    Leads showFloat a_tab_str start stack depth s (niceEntry showFloat (lineBreak a_tab_str) depth e) := by
  obtain ⟨k, v⟩ := e
  cases k with
  | string k =>
      refine Leads.head (Relation.ReflTransGen.single (hkey k rfl)) ?_
      have hvalue := hv depth [] stack _ _ (hat.put (34 :: (appendString k ++ [34, 58]))) (List.append_nil _).symm
      refine hvalue.map (fun buf' ps hat' hbuf' => ⟨buf', .refl, hat', ?_⟩)
      rw [hbuf', NiceBuf.put_strbuf, hbuf]
      simp [Piece.after, stringPiece, literal, punct, appendString_eq]
  | _ => exact Loop.returns_of_done (hother (by simp))

/-- **The loop prints every value as the recursive printer does.** -/
theorem prints_nice (v : VarC F) : PrintsNice showFloat a_tab_str v := by
  induction v with
  | blank | integer n | float f =>
      intro depth ws below s buf hat hbuf
      exact ⟨_, Relation.ReflTransGen.single rfl, hat.put _, by simp [hbuf]⟩
  | bool b =>
      intro depth ws below s buf hat hbuf
      refine ⟨_, Relation.ReflTransGen.single rfl, hat.put _, ?_⟩
      cases b <;> simp [hbuf]
  | string s' =>
      intro depth ws below s buf hat hbuf
      refine ⟨_, Relation.ReflTransGen.single rfl, hat.put _, ?_⟩
      simp [hbuf, Piece.after, stringPiece, literal, appendString_eq]
  | set xs ih =>
      intro depth ws below s buf hat hbuf
      exact Loop.returns_of_done rfl
  | array xs ih =>
      intro depth ws below s buf hat hbuf
      cases xs with
      | nil =>
          -- no line break inside an empty container
          have hstep : Loop.Next (createNiceRound showFloat a_tab_str) (.mk' (.array []) :: below, buf)
              (below, (buf.put [91]).put [93]) := rfl
          refine ⟨_, Relation.ReflTransGen.single hstep, (hat.put _).put _, ?_⟩
          simp [hbuf, Piece.after, punct]
      | cons x t =>
          exact leads_elems (.mk' (.array (x :: t))) (fun t' => ⟨.array (x :: t), false, t', [], []⟩) ih
            (fun _ _ => rfl) (fun _ _ _ _ => rfl) (fun _ _ => rfl) below hat hbuf
  | list xs ih =>
      intro depth ws below s buf hat hbuf
      cases xs with
      | nil =>
          have hstep : Loop.Next (createNiceRound showFloat a_tab_str) (.mk' (.list []) :: below, buf)
              (below, (buf.put [91]).put [93]) := rfl
          refine ⟨_, Relation.ReflTransGen.single hstep, (hat.put _).put _, ?_⟩
          simp [hbuf, Piece.after, punct]
      | cons x t =>
          exact leads_elems (.mk' (.list (x :: t))) (fun t' => ⟨.list (x :: t), false, [], t', []⟩) ih
            (fun _ _ => rfl) (fun _ _ _ _ => rfl) (fun _ _ => rfl) below hat hbuf
  | dict es _ ih =>
      intro depth ws below s buf hat hbuf
      cases es with
      | nil =>
          have hstep : Loop.Next (createNiceRound showFloat a_tab_str) (.mk' (.dict []) :: below, buf)
              (below, (buf.put [123]).put [125]) := rfl
          refine ⟨_, Relation.ReflTransGen.single hstep, (hat.put _).put _, ?_⟩
          simp [hbuf, Piece.after, punct]
      | cons e t =>
          rw [nicePieces, niceEntries_eq]
          let frame : List (VarC F × VarC F) → CreateElemC F := fun t' => ⟨.dict (e :: t), false, [], [], t'⟩
          have hlast : ∀ buf', Loop.Next (createNiceRound showFloat a_tab_str) (frame [] :: below, buf')
              (below, buf'.closes a_tab_str 125 false) := fun _ => rfl
          refine leads_container ?_ ?_ hlast
          -- the first entry follows the brace, the later ones a comma
          · obtain ⟨hat', hbuf'⟩ := hat.opens
            refine leads_entry (ih e List.mem_cons_self) hat' (by rw [hbuf', hbuf]) ?_ ?_
            · intro k hk
              obtain ⟨k', v⟩ := e
              cases hk
              rfl
            · intro hk
              obtain ⟨k', v⟩ := e
              cases k' with
              | string k => exact absurd rfl (hk k)
              | _ => rfl
          · intro d hd t' buf' hat'
            obtain ⟨hat'', hbuf''⟩ := hat'.next
            refine leads_entry (ih d (List.mem_cons_of_mem _ hd)) hat'' hbuf'' ?_ ?_
            · intro k hk
              obtain ⟨k', v⟩ := d
              cases hk
              rfl
            · intro hk
              obtain ⟨k', v⟩ := d
              cases k' with
              | string k => exact absurd rfl (hk k)
              | _ => rfl

/-- **`create_nice` prints the pieces of its value, or throws their error.** -/
theorem createNice_returns (showFloat : F → StringT) (a_tab_str : StringT) (v : VarC F) :
    CreatesNice showFloat a_tab_str v ((nicePieces showFloat (lineBreak a_tab_str) 0 [] v).map render) := by
  have hprints : PrintsNice showFloat a_tab_str v := prints_nice v
  have h := hprints 0 [] [] [] .new (NiceBuf.at_new a_tab_str) rfl
  cases hps : nicePieces showFloat (lineBreak a_tab_str) 0 [] v with
  | error e =>
      rw [hps] at h
      exact h
  | ok ps =>
      rw [hps] at h
      obtain ⟨buf, hreach, -, hbuf⟩ := h
      refine (Loop.Reaches.returns_iff hreach).mpr (Loop.returns_of_done ?_)
      show some (Sum.inr (Except.ok buf.strbuf)) = _
      rw [hbuf, List.nil_append]
      rfl

end Prints

/-! ## `create` -/

section

variable {F : Type} {showFloat : F → StringT}

theorem joined_elems {xs : List (VarC F)} (first : Bool)
    (h : ∀ x ∈ xs, ∀ depth, pieces showFloat x = nicePieces showFloat (fun _ => []) depth [] x) (depth : Nat) :
    elemPieces showFloat first xs = joined first (niceElems showFloat (fun _ => []) depth xs) := by
  induction xs generalizing first with
  | nil => rfl
  | cons x xs ih =>
      rw [elemPieces, niceElems, ← h x List.mem_cons_self]
      cases pieces showFloat x with
      | error e => rfl
      | ok ps =>
          simp only [joined]
          rw [ih false (fun y hy => h y (List.mem_cons_of_mem _ hy))]

theorem joined_entries {es : List (VarC F × VarC F)} (first : Bool)
    (h : ∀ e ∈ es, ∀ depth, pieces showFloat e.2 = nicePieces showFloat (fun _ => []) depth [] e.2) (depth : Nat) :
    entryPieces showFloat first es = joined first (niceEntries showFloat (fun _ => []) depth es) := by
  induction es generalizing first with
  | nil => rfl
  | cons e es ih =>
      obtain ⟨k, v⟩ := e
      have hv := h (k, v) List.mem_cons_self depth
      have hrest := ih false (fun d hd => h d (List.mem_cons_of_mem _ hd))
      cases k with
      | string s =>
          simp only [entryPieces, niceEntries, niceEntry, hv]
          cases nicePieces showFloat (fun _ => []) depth [] v with
          | error e => rfl
          | ok ps =>
              simp only [Except.map, joined, hrest]
              rfl
      | _ => rfl

/-- **`create` prints the pieces of `create_nice` without the white space.** -/
theorem pieces_eq (v : VarC F) : ∀ depth, pieces showFloat v = nicePieces showFloat (fun _ => []) depth [] v := by
  induction v with
  | blank | bool b | integer n | float f | string s | set xs _ => exact fun _ => rfl
  | array xs ih =>
      intro depth
      rw [pieces, nicePieces, joined_elems true ih (depth + 1)]
      simp only [ite_self]
      rfl
  | list xs ih =>
      intro depth
      rw [pieces, nicePieces, joined_elems true ih (depth + 1)]
      simp only [ite_self]
      rfl
  | dict es _ ih =>
      intro depth
      rw [pieces, nicePieces, joined_entries true ih (depth + 1)]
      simp only [ite_self]
      rfl

end

end Ccljson
end Cclib
