import Cclib.Ccljson.Text

/-!
# `Ccljson.Create` — `ccljson::create`

The printer is a loop over a stack of `create_elem_c`, each a value with the iterators into it.
`createRound` is one turn of that loop. `pieces` is the recursive printer, in the pieces of
`Ccljson.Text`, with the errors in the order the loop meets them; `create_returns` says that the loop
prints them, or throws their error.

`F` is printed by a parameter `showFloat`.
-/

namespace Cclib
namespace Ccljson
open Cclvar

inductive CreateError where
  | unsupportedVariableType
  | noStringDictKey
deriving DecidableEq, Repr

/-- The message of the exception. -/
def CreateError.what : CreateError → String
  | .unsupportedVariableType => "json create, unsupported variable type"
  | .noStringDictKey => "json create, dictionary key must be string value"

/-- What `append_string` puts for a character. -/
def appendChar (c : UInt8) : StringT :=
  if c = 8 then [92, 98]
  else if c = 12 then [92, 102]
  else if c = 10 then [92, 110]
  else if c = 13 then [92, 114]
  else if c = 9 then [92, 116]
  else if c = 92 then [92, 92]
  else if c = 34 then [92, 34]
  else [c]

/-- `append_string`. -/
def appendString (s : StringT) : StringT := s.flatMap appendChar

theorem appendChar_self {c : UInt8} (h : c ∉ ([8, 9, 10, 12, 13, 34, 92] : StringT)) : appendChar c = [c] := by
  simp only [List.mem_cons, List.not_mem_nil, or_false, not_or] at h
  obtain ⟨h8, h9, h10, h12, h13, h34, h92⟩ := h
  rw [appendChar, if_neg h8, if_neg h12, if_neg h10, if_neg h13, if_neg h9, if_neg h92, if_neg h34]

/-- `null`, `true` and `false`. -/
def nullText : StringT := [110, 117, 108, 108]
def trueText : StringT := [116, 114, 117, 101]
def falseText : StringT := [102, 97, 108, 115, 101]

/-- A number in decimal digits. -/
def showNat (n : Nat) : StringT := (Nat.toDigits 10 n).map (fun c => UInt8.ofNat c.toNat)

/-- `operator<<` on an `int64_t` in the classic locale. -/
def showInt (n : Int64) : StringT :=
  if n.toInt < 0 then 45 :: showNat n.toInt.natAbs else showNat n.toInt.natAbs

/-- `create_elem_c`; an iterator is the list of what it has before it. -/
structure CreateElemC (F : Type) where
  m_var : VarC F
  m_init : Bool
  array_i : List (VarC F)
  list_i : List (VarC F)
  dict_i : List (VarC F × VarC F)

/-- `create_elem_c(const var_c &a_var)`. -/
def CreateElemC.mk' {F : Type} (a_var : VarC F) : CreateElemC F := ⟨a_var, true, [], [], []⟩

section
variable {F : Type} (showFloat : F → StringT)

/-- One turn of the loop of `create`: the stack, `back()` first, and the text so far. The loop is left
    when the stack is empty. -/
def createRound : Loop.Body (List (CreateElemC F) × StringT) (Except CreateError StringT)
  | ([], strbuf) => some (.inr (.ok strbuf))
  | (cs_elm :: below, strbuf) =>
    match cs_elm.m_var with
    | .blank => some (.inl (below, strbuf ++ nullText))
    | .bool b => some (.inl (below, strbuf ++ if b then trueText else falseText))
    | .integer n => some (.inl (below, strbuf ++ showInt n))
    | .float f => some (.inl (below, strbuf ++ showFloat f))
    | .string s => some (.inl (below, strbuf ++ 34 :: (appendString s ++ [34])))
    | .array xs =>
      let array_i := if cs_elm.m_init then xs else cs_elm.array_i
      let strbuf := strbuf ++ if cs_elm.m_init then [91] else if array_i = [] then [] else [44]
      match array_i with
      | x :: array_i =>
        some (.inl (.mk' x :: { cs_elm with m_init := false, array_i := array_i } :: below, strbuf))
      | [] => some (.inl (below, strbuf ++ [93]))
    | .list xs =>
      let list_i := if cs_elm.m_init then xs else cs_elm.list_i
      let strbuf := strbuf ++ if cs_elm.m_init then [91] else if list_i = [] then [] else [44]
      match list_i with
      | x :: list_i =>
        some (.inl (.mk' x :: { cs_elm with m_init := false, list_i := list_i } :: below, strbuf))
      | [] => some (.inl (below, strbuf ++ [93]))
    | .dict es =>
      let dict_i := if cs_elm.m_init then es else cs_elm.dict_i
      let strbuf := strbuf ++ if cs_elm.m_init then [123] else if dict_i = [] then [] else [44]
      match dict_i with
      | (.string k, v) :: dict_i =>
        some (.inl (.mk' v :: { cs_elm with m_init := false, dict_i := dict_i } :: below,
          strbuf ++ 34 :: (appendString k ++ [34, 58])))
      | _ :: _ => some (.inr (.error .noStringDictKey))
      | [] => some (.inl (below, strbuf ++ [125]))
    | .set _ => some (.inr (.error .unsupportedVariableType))

/-- `ccljson::create` on `v` ends with `r`. -/
def Creates (v : VarC F) (r : Except CreateError StringT) : Prop :=
  Loop.Returns (createRound showFloat) ([.mk' v], []) r

end

/-! ## The printed pieces -/

/-- Punctuation. -/
def punct (term : Nat) (c : UInt8) : Piece := ⟨[], term, [c]⟩

/-- How `append_string` writes a character. -/
def escapeItem (c : UInt8) : Item :=
  if c = 8 then .esc 98
  else if c = 12 then .esc 102
  else if c = 10 then .esc 110
  else if c = 13 then .esc 114
  else if c = 9 then .esc 116
  else if c = 92 then .esc 92
  else if c = 34 then .esc 34
  else .raw c

/-- A printed string. -/
def stringPiece (s : StringT) : Piece := ⟨[], 0, literal (s.map escapeItem)⟩

/-- The comma between elements. -/
def comma (first : Bool) : List Piece := if first then [] else [punct 10 44]

variable {F : Type} (showFloat : F → StringT)

mutual
/-- What `create` prints of a value, or the error it throws there. -/
def pieces : VarC F → Except CreateError (List Piece)
  | .blank => .ok [⟨[], 5, nullText⟩]
  | .bool b => .ok [if b then ⟨[], 3, trueText⟩ else ⟨[], 4, falseText⟩]
  | .integer n => .ok [⟨[], 1, showInt n⟩]
  | .float f => .ok [⟨[], 2, showFloat f⟩]
  | .string s => .ok [stringPiece s]
  | .array xs | .list xs => (elemPieces true xs).map (fun ps => punct 8 91 :: (ps ++ [punct 9 93]))
  | .dict es => (entryPieces true es).map (fun ps => punct 6 123 :: (ps ++ [punct 7 125]))
  | .set _ => .error .unsupportedVariableType

def elemPieces (first : Bool) : List (VarC F) → Except CreateError (List Piece)
  | [] => .ok []
  | x :: xs =>
    match pieces x with
    | .error e => .error e
    | .ok ps => (elemPieces false xs).map (fun qs => comma first ++ ps ++ qs)

def entryPieces (first : Bool) : List (VarC F × VarC F) → Except CreateError (List Piece)
  | [] => .ok []
  | (k, v) :: es =>
    match k with
    | .string s =>
      match pieces v with
      | .error e => .error e
      | .ok ps => (entryPieces false es).map (fun qs =>
          comma first ++ stringPiece s :: punct 11 58 :: ps ++ qs)
    | _ => .error .noStringDictKey
end

/-! ### What the pieces are -/

section Pieces

variable {showFloat} {ps : List Piece} {xs : List (VarC F)} {es : List (VarC F × VarC F)} {first : Bool}

theorem map_eq_ok {ε α β : Type} {x : Except ε α} {f : α → β} {b : β} :
    x.map f = .ok b ↔ ∃ a, x = .ok a ∧ f a = b := by
  cases x <;> simp [Except.map]

theorem pieces_array : pieces showFloat (.array xs) = .ok ps ↔
    ∃ qs, elemPieces showFloat true xs = .ok qs ∧ punct 8 91 :: (qs ++ [punct 9 93]) = ps := by
  rw [pieces, map_eq_ok]

theorem pieces_list : pieces showFloat (.list xs) = .ok ps ↔
    ∃ qs, elemPieces showFloat true xs = .ok qs ∧ punct 8 91 :: (qs ++ [punct 9 93]) = ps := by
  rw [pieces, map_eq_ok]

theorem pieces_dict : pieces showFloat (.dict es) = .ok ps ↔
    ∃ qs, entryPieces showFloat true es = .ok qs ∧ punct 6 123 :: (qs ++ [punct 7 125]) = ps := by
  rw [pieces, map_eq_ok]

theorem elemPieces_cons {x : VarC F} : elemPieces showFloat first (x :: xs) = .ok ps ↔
    ∃ px qs, pieces showFloat x = .ok px ∧ elemPieces showFloat false xs = .ok qs ∧
      comma first ++ px ++ qs = ps := by
  rw [elemPieces]
  cases pieces showFloat x <;> simp [map_eq_ok]

theorem entryPieces_cons {k v : VarC F} : entryPieces showFloat first ((k, v) :: es) = .ok ps ↔
    ∃ s pv qs, k = .string s ∧ pieces showFloat v = .ok pv ∧ entryPieces showFloat false es = .ok qs ∧
      comma first ++ stringPiece s :: punct 11 58 :: pv ++ qs = ps := by
  cases k with
  | string s => cases hv : pieces showFloat v <;> simp [entryPieces, hv, map_eq_ok]
  | _ => simp [entryPieces]

theorem forall_comma {P : Piece → Prop} (hcomma : P (punct 10 44)) (first : Bool) : ∀ p ∈ comma first, P p := by
  cases first with
  | true => exact List.forall_mem_nil _
  | false => exact List.forall_mem_singleton.mpr hcomma

/-- What holds of a comma and of the pieces of every element holds of all pieces. -/
theorem forall_elemPieces {P : Piece → Prop} (hcomma : P (punct 10 44))
    (hx : ∀ x ∈ xs, ∀ px, pieces showFloat x = .ok px → ∀ p ∈ px, P p)
    (h : elemPieces showFloat first xs = .ok ps) : ∀ p ∈ ps, P p := by
  induction xs generalizing first ps with
  | nil =>
      cases h
      exact List.forall_mem_nil _
  | cons x xs ih =>
      obtain ⟨px, qs, hpx, hqs, rfl⟩ := elemPieces_cons.mp h
      have hhead := hx x List.mem_cons_self px hpx
      have htail := ih (fun y hy => hx y (List.mem_cons_of_mem _ hy)) hqs
      exact List.forall_mem_append.mpr ⟨List.forall_mem_append.mpr ⟨forall_comma hcomma first, hhead⟩, htail⟩

/-- The same for entries, whose keys are strings. -/
theorem forall_entryPieces {P : Piece → Prop} (hcomma : P (punct 10 44)) (hcolon : P (punct 11 58))
    (hkeys : ∀ e ∈ es, ∀ s, e.1 = .string s → P (stringPiece s))
    (hx : ∀ e ∈ es, ∀ pv, pieces showFloat e.2 = .ok pv → ∀ p ∈ pv, P p)
    (h : entryPieces showFloat first es = .ok ps) : ∀ p ∈ ps, P p := by
  induction es generalizing first ps with
  | nil =>
      cases h
      exact List.forall_mem_nil _
  | cons e es ih =>
      obtain ⟨s, pv, qs, hs, hpv, hqs, rfl⟩ := entryPieces_cons.mp h
      have hkey := hkeys e List.mem_cons_self s hs
      have hvalue := hx e List.mem_cons_self pv hpv
      have htail := ih (fun d hd => hkeys d (List.mem_cons_of_mem _ hd)) (fun d hd => hx d (List.mem_cons_of_mem _ hd)) hqs
      refine List.forall_mem_append.mpr ⟨List.forall_mem_append.mpr ⟨forall_comma hcomma first, ?_⟩, htail⟩
      exact List.forall_mem_cons.mpr ⟨hkey, List.forall_mem_cons.mpr ⟨hcolon, hvalue⟩⟩

end Pieces

/-! ## The loop prints the pieces -/

theorem appendChar_eq (c : UInt8) : appendChar c = (escapeItem c).text := by
  unfold appendChar escapeItem
  split_ifs <;> rfl

theorem appendString_eq (s : StringT) : appendString s = itemsText (s.map escapeItem) := by
  simp only [appendString, itemsText, List.flatMap_map]
  exact List.flatMap_congr fun c _ => appendChar_eq c

theorem render_stringPiece (s : StringT) (ps : List Piece) :
    render (stringPiece s :: ps) = 34 :: (appendString s ++ [34]) ++ render ps := by
  rw [render_cons, appendString_eq]
  rfl

/-- From a value on top of the stack, the loop prints it and drops it, or throws. -/
def Prints (v : VarC F) (out : Except CreateError (List Piece)) : Prop :=
  ∀ below strbuf, match out with
    | .ok ps => Loop.Reaches (createRound showFloat) (.mk' v :: below, strbuf) (below, strbuf ++ render ps)
    | .error e => Loop.Returns (createRound showFloat) (.mk' v :: below, strbuf) (.error e)

variable {showFloat}

/-- Where a turn on an array or list with the elements `xs` to come leads. -/
def nextElem (frame : List (VarC F) → CreateElemC F) (first : Bool) (opening : StringT)
    (below : List (CreateElemC F)) (strbuf : StringT) (xs : List (VarC F)) :
    List (CreateElemC F) × StringT :=
  match xs with
  | x :: t => (.mk' x :: frame t :: below, strbuf ++ opening ++ render (comma first))
  | [] => (below, strbuf ++ opening ++ [93])

/-- The elements of an array or list. `top` is its element on the stack, which prints `opening` before the
    first of the elements `xs` to come; `frame t` is that element with `t` to come. -/
theorem elems_loop (frame : List (VarC F) → CreateElemC F) (xs : List (VarC F)) (first : Bool)
    (top : CreateElemC F) (opening : StringT)
    (hx : ∀ x ∈ xs, Prints showFloat x (pieces showFloat x))
    (hframe : ∀ t below strbuf, Loop.Next (createRound showFloat) (frame t :: below, strbuf)
      (nextElem frame false [] below strbuf t))
    (htop : ∀ below strbuf, Loop.Next (createRound showFloat) (top :: below, strbuf)
      (nextElem frame first opening below strbuf xs))
    (below : List (CreateElemC F)) (strbuf : StringT) :
    match elemPieces showFloat first xs with
    | .ok ps => Loop.Reaches (createRound showFloat) (top :: below, strbuf)
        (below, strbuf ++ opening ++ render ps ++ [93])
    | .error e => Loop.Returns (createRound showFloat) (top :: below, strbuf) (.error e) := by
  induction xs generalizing first top opening strbuf with
  | nil => exact Relation.ReflTransGen.single (by simpa [nextElem] using htop below strbuf)
  | cons x t ih =>
      -- one turn pushes the element and leaves `frame t` below it
      have hstep := Relation.ReflTransGen.single (htop below strbuf)
      have hhead := hx x List.mem_cons_self (frame t :: below) (strbuf ++ opening ++ render (comma first))
      simp only [elemPieces]
      cases hpx : pieces showFloat x with
      | error e =>
          rw [hpx] at hhead
          exact (Loop.Reaches.returns_iff hstep).mpr hhead
      | ok px =>
          rw [hpx] at hhead
          have htail := ih false (frame t) [] (fun y hy => hx y (List.mem_cons_of_mem _ hy)) (hframe t)
            (strbuf ++ opening ++ render (comma first) ++ render px)
          cases hpt : elemPieces showFloat false t with
          | error e =>
              rw [hpt] at htail
              exact (Loop.Reaches.returns_iff (hstep.trans hhead)).mpr htail
          | ok pt =>
              rw [hpt] at htail
              simpa [Except.map] using (hstep.trans hhead).trans htail

/-- The entries of a dict, in the same way. -/
theorem entries_loop (all es : List (VarC F × VarC F)) (first : Bool) (opening : StringT)
    (hx : ∀ e ∈ es, Prints showFloat e.2 (pieces showFloat e.2))
    (hfirst : first = true → all = es ∧ opening = [123]) (hrest : first = false → opening = [])
    (below : List (CreateElemC F)) (strbuf : StringT) :
    match entryPieces showFloat first es with
    | .ok ps => Loop.Reaches (createRound showFloat)
        (⟨.dict all, first, [], [], if first then [] else es⟩ :: below, strbuf)
        (below, strbuf ++ opening ++ render ps ++ [125])
    | .error e => Loop.Returns (createRound showFloat)
        (⟨.dict all, first, [], [], if first then [] else es⟩ :: below, strbuf) (.error e) := by
  induction es generalizing first opening strbuf with
  | nil =>
      -- an empty dict opens and closes in one turn
      refine Relation.ReflTransGen.single ?_
      cases first with
      | true =>
          obtain ⟨rfl, rfl⟩ := hfirst rfl
          simp [Loop.Next, createRound]
      | false =>
          obtain rfl := hrest rfl
          simp [Loop.Next, createRound]
  | cons e t ih =>
      obtain ⟨k, v⟩ := e
      have hhead := hx (k, v) List.mem_cons_self
      cases k with
      | string k =>
          -- one turn prints the key and the colon and pushes the value
          have hstep : Loop.Reaches (createRound showFloat)
              (⟨.dict all, first, [], [], if first then [] else (.string k, v) :: t⟩ :: below, strbuf)
              (.mk' v :: ⟨.dict all, false, [], [], t⟩ :: below,
                strbuf ++ opening ++ render (comma first) ++ 34 :: (appendString k ++ [34, 58])) := by
            refine Relation.ReflTransGen.single ?_
            cases first with
            | true =>
                obtain ⟨rfl, rfl⟩ := hfirst rfl
                simp [Loop.Next, createRound, comma]
            | false =>
                obtain rfl := hrest rfl
                simp [Loop.Next, createRound, comma, punct]
          have hhead := hhead (⟨.dict all, false, [], [], t⟩ :: below)
            (strbuf ++ opening ++ render (comma first) ++ 34 :: (appendString k ++ [34, 58]))
          simp only [entryPieces]
          cases hpv : pieces showFloat v with
          | error e =>
              rw [hpv] at hhead
              exact (Loop.Reaches.returns_iff hstep).mpr hhead
          | ok pv =>
              rw [hpv] at hhead
              have htail := ih false []
                (fun y hy => hx y (List.mem_cons_of_mem _ hy)) (by simp) (fun _ => rfl)
                (strbuf ++ opening ++ render (comma first) ++ 34 :: (appendString k ++ [34, 58]) ++ render pv)
              cases hpt : entryPieces showFloat false t with
              | error e =>
                  rw [hpt] at htail
                  exact (Loop.Reaches.returns_iff (hstep.trans hhead)).mpr htail
              | ok pt =>
                  rw [hpt] at htail
                  simpa [Except.map, punct, stringPiece, literal, appendString_eq] using
                    (hstep.trans hhead).trans htail
      | _ =>
          -- a key that is no string: the turn throws
          refine Loop.returns_of_done ?_
          cases first with
          | true =>
              obtain ⟨rfl, rfl⟩ := hfirst rfl
              rfl
          | false => rfl

/-- **The loop prints every value as the recursive printer does.** -/
theorem prints_pieces (v : VarC F) : Prints showFloat v (pieces showFloat v) := by
  induction v with
  | blank | integer n | float f =>
      intro below strbuf
      exact Relation.ReflTransGen.single (by simp [Loop.Next, createRound, CreateElemC.mk'])
  | bool b =>
      intro below strbuf
      exact Relation.ReflTransGen.single (by cases b <;> simp [Loop.Next, createRound, CreateElemC.mk'])
  | string s =>
      intro below strbuf
      refine Relation.ReflTransGen.single ?_
      rw [render_stringPiece, render_nil, List.append_nil]
      simp [Loop.Next, createRound, CreateElemC.mk']
  | set xs ih =>
      intro below strbuf
      exact Loop.returns_of_done rfl
  | array xs ih =>
      intro below strbuf
      have hloop := elems_loop (fun t => ⟨.array xs, false, t, [], []⟩) xs true (.mk' (.array xs)) [91] ih
        (fun t below strbuf => by cases t <;> simp [Loop.Next, createRound, nextElem, comma, punct])
        (fun below strbuf => by cases xs <;> simp [Loop.Next, createRound, nextElem, CreateElemC.mk', comma])
        below strbuf
      rw [pieces]
      cases hps : elemPieces showFloat true xs with
      | error e => simpa [hps, Except.map] using hloop
      | ok ps => simpa [hps, Except.map, punct] using hloop
  | list xs ih =>
      intro below strbuf
      have hloop := elems_loop (fun t => ⟨.list xs, false, [], t, []⟩) xs true (.mk' (.list xs)) [91] ih
        (fun t below strbuf => by cases t <;> simp [Loop.Next, createRound, nextElem, comma, punct])
        (fun below strbuf => by cases xs <;> simp [Loop.Next, createRound, nextElem, CreateElemC.mk', comma])
        below strbuf
      rw [pieces]
      cases hps : elemPieces showFloat true xs with
      | error e => simpa [hps, Except.map] using hloop
      | ok ps => simpa [hps, Except.map, punct] using hloop
  | dict es _ ih =>
      intro below strbuf
      have hloop := entries_loop es es true [123] ih (fun _ => ⟨rfl, rfl⟩)
        (by simp) below strbuf
      rw [pieces]
      cases hps : entryPieces showFloat true es with
      | error e => simpa [hps, Except.map, CreateElemC.mk'] using hloop
      | ok ps => simpa [hps, Except.map, punct, CreateElemC.mk'] using hloop

/-- **`create` prints the pieces of its value, or throws their error.** -/
theorem create_returns (showFloat : F → StringT) (v : VarC F) : Creates showFloat v ((pieces showFloat v).map render) := by
  have hprints : Prints showFloat v (pieces showFloat v) := prints_pieces v
  have h := hprints [] []
  cases hps : pieces showFloat v with
  | error e =>
      rw [hps] at h
      exact h
  | ok ps =>
      rw [hps] at h
      exact (Loop.Reaches.returns_iff h).mpr (Loop.returns_of_done rfl)

end Ccljson
end Cclib
