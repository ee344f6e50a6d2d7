import Cclib.Ccljson.Nice

/-!
# `Ccljson.Layout` — `create` and `create_nice` side by side

Both printers throw the same error, or write the same lexemes. `create` writes nothing between them, and
`create_nice` breaks the line behind `[`, `{` and `,` and in front of `]` and `}`, but not inside the
brackets of an empty container. Behind a line break stand the tabs of the containers that are open there
(`LaidOut`).

- `nicePieces_lexemes` — the pieces of `create_nice` without their white space are those of `create`.
- `lays_nice` — the white space of the pieces, by induction on the value.
- `createNice_agrees` — the two functions side by side.
-/

namespace Cclib
namespace Ccljson
open Cclvar

/-! ## What two printed texts have in common -/

/-- What is written for one terminal: structural characters, words, numbers and strings. -/
inductive Printed {F : Type} (showFloat : F → StringT) : Nat → StringT → Prop
  | structural {term : Nat} {c : UInt8}
      (h : (term, c) ∈ ([(6, 123), (7, 125), (8, 91), (9, 93), (10, 44), (11, 58)] : List (Nat × UInt8))) :
      Printed showFloat term [c]
  | null : Printed showFloat 5 nullText
  | true_ : Printed showFloat 3 trueText
  | false_ : Printed showFloat 4 falseText
  | integer (n : Int64) : Printed showFloat 1 (showInt n)
  | float (f : F) : Printed showFloat 2 (showFloat f)
  | string (s : StringT) : Printed showFloat 0 (34 :: (appendString s ++ [34]))

/-- `{` and `[`. -/
def Piece.opening (p : Piece) : Bool := p.term == 6 || p.term == 8

/-- `}` and `]`. -/
def Piece.closing (p : Piece) : Bool := p.term == 7 || p.term == 9

/-- The containers open between `before` and `p`, without the one that `p` closes. -/
def openContainers (before : List Piece) (p : Piece) : Nat :=
  before.countP Piece.opening - (before ++ [p]).countP Piece.closing

/-- Where the line breaks between two pieces: behind a comma, behind an opening bracket unless the container
    is empty, and in front of a closing bracket unless the container is empty. -/
def breaksLine (q p : Piece) : Bool := q.term == 10 || q.opening != p.closing

/-- The white space in front of `p`, when `before` has been written. -/
def gap (a_tab_str : StringT) (before : List Piece) (p : Piece) : StringT :=
  match before.getLast? with
  | none => []
  | some q => if breaksLine q p then lineBreak a_tab_str (openContainers before p) else []

/-- `text` and `nice` consist of the lexemes of `ps`, with nothing between them in `text`, and with white
    space in `nice`: line breaks, each with as many tabs as containers are open. No line breaks inside an
    empty container, so the open ones are not empty. -/
structure LaidOut {F : Type} (showFloat : F → StringT) (a_tab_str : StringT) (ps : List Piece)
    (text nice : StringT) : Prop where
  printed : ∀ p ∈ ps, Printed showFloat p.term p.lexeme
  text_eq : text = ps.flatMap Piece.lexeme
  nice_eq : nice = ps.flatMap (fun p => p.ws ++ p.lexeme)
  skips : ∀ p ∈ ps, ∀ c ∈ p.ws, isSkip c = true
  gaps : ∀ before p after, ps = before ++ p :: after → p.ws = gap a_tab_str before p

/-! ## The lexemes -/

/-- Pieces without their white space. -/
def bare (ps : List Piece) : List Piece := ps.map (Piece.after [])

section Lexemes

variable {F : Type} {showFloat : F → StringT} {indent : Nat → StringT}

theorem render_bare (ps : List Piece) : render (bare ps) = ps.flatMap Piece.lexeme := by
  induction ps with
  | nil => rfl
  | cons p ps ih =>
      rw [bare, List.map_cons, render_cons, ← bare, ih, List.flatMap_cons]
      rfl

theorem bare_append (ps qs : List Piece) : bare (ps ++ qs) = bare ps ++ bare qs := List.map_append

theorem bare_comma (first : Bool) : bare (comma first) = comma first := by
  cases first <;> rfl

theorem map_map {ε α β γ : Type} (x : Except ε α) (f : α → β) (g : β → γ) :
    (x.map f).map g = x.map (fun a => g (f a)) := by
  cases x <;> rfl

/-- Items lose their white space one by one. -/
theorem joined_bare (first : Bool) (items : List (Except CreateError (List Piece))) :
    (joined first items).map bare = joined first (items.map (fun item => item.map bare)) := by
  induction items generalizing first with
  | nil => rfl
  | cons item items ih =>
      cases item with
      | error e => rfl
      | ok ps =>
          show ((joined false items).map (fun qs => comma first ++ ps ++ qs)).map bare =
            (joined false (items.map (fun item => item.map bare))).map (fun qs => comma first ++ bare ps ++ qs)
          rw [← ih false, map_map, map_map]
          congr 1
          funext qs
          rw [bare_append, bare_append, bare_comma]

theorem niceEntry_bare {e : VarC F × VarC F} {depth depth' : Nat}
    (h : (nicePieces showFloat indent depth [] e.2).map bare = nicePieces showFloat (fun _ => []) depth' [] e.2) :
    (niceEntry showFloat indent depth e).map bare = niceEntry showFloat (fun _ => []) depth' e := by
  obtain ⟨k, v⟩ := e
  cases k with
  | string s =>
      simp only [niceEntry]
      rw [← h]
      cases nicePieces showFloat indent depth [] v <;> rfl
  | _ => rfl

/-- A container loses its white space. -/
theorem bracketed_bare {open_ close : Piece} {ws ws' : StringT} (ho : open_.ws = []) (hc : close.ws = [])
    {first : Bool} {items items' : List (Except CreateError (List Piece))}
    (h : items.map (fun item => item.map bare) = items') :
    ((joined first items).map (fun ps => open_.after ws :: (ps ++ [close.after ws']))).map bare =
      (joined first items').map (fun ps => open_ :: (ps ++ [close])) := by
  have hafter : ∀ {p : Piece} {ws : StringT}, p.ws = [] → (p.after ws).after [] = p := by
    intro p ws hp
    cases p
    cases hp
    rfl
  rw [← h, ← joined_bare, map_map, map_map]
  congr 1
  funext ps
  simp only [bare, List.map_cons, List.map_append, List.map_nil, hafter ho, hafter hc]

/-- **The same lexemes.** Whatever stands between them, the pieces of a value are those of `create`. -/
theorem nicePieces_bare (v : VarC F) : ∀ depth depth' ws,
    (nicePieces showFloat indent depth ws v).map bare = nicePieces showFloat (fun _ => []) depth' [] v := by
  induction v with
  | blank | integer n | float f | string s | set xs _ => exact fun _ _ _ => rfl
  | bool b =>
      intro depth depth' ws
      cases b <;> rfl
  | array xs ih | list xs ih =>
      intro depth depth' ws
      have hitems : (niceElems showFloat indent (depth + 1) xs).map (fun item => item.map bare) =
          niceElems showFloat (fun _ => []) (depth' + 1) xs := by
        rw [niceElems_eq, niceElems_eq, List.map_map]
        exact List.map_congr_left fun x hx => ih x hx _ _ _
      simp only [nicePieces, ite_self]
      exact bracketed_bare rfl rfl hitems
  | dict es _ ih =>
      intro depth depth' ws
      have hitems : (niceEntries showFloat indent (depth + 1) es).map (fun item => item.map bare) =
          niceEntries showFloat (fun _ => []) (depth' + 1) es := by
        rw [niceEntries_eq, niceEntries_eq, List.map_map]
        exact List.map_congr_left fun e he => niceEntry_bare (ih e he _ _ _)
      simp only [nicePieces, ite_self]
      exact bracketed_bare rfl rfl hitems

theorem nicePieces_lexemes (indent : Nat → StringT) (v : VarC F) (depth : Nat) (ws : StringT) :
    (nicePieces showFloat indent depth ws v).map bare = pieces showFloat v := by
  rw [pieces_eq v 0, nicePieces_bare]

/-! ### Each is a printed one -/

theorem stringPiece_printed (s : StringT) :
    Printed showFloat (stringPiece s).term (stringPiece s).lexeme := by
  have h : (stringPiece s).lexeme = 34 :: (appendString s ++ [34]) := by
    rw [appendString_eq]
    rfl
  rw [h]
  exact .string s

theorem bracketed_printed {ps : List Piece} (open_ close : Nat × UInt8)
    (ho : open_ ∈ ([(6, 123), (7, 125), (8, 91), (9, 93), (10, 44), (11, 58)] : List (Nat × UInt8)))
    (hc : close ∈ ([(6, 123), (7, 125), (8, 91), (9, 93), (10, 44), (11, 58)] : List (Nat × UInt8)))
    (h : ∀ p ∈ ps, Printed showFloat p.term p.lexeme) :
    ∀ p ∈ punct open_.1 open_.2 :: (ps ++ [punct close.1 close.2]), Printed showFloat p.term p.lexeme := by
  refine List.forall_mem_cons.mpr ⟨.structural ho, List.forall_mem_append.mpr ⟨h, ?_⟩⟩
  exact List.forall_mem_singleton.mpr (.structural hc)

theorem pieces_printed (v : VarC F) :
    ∀ ps, pieces showFloat v = .ok ps → ∀ p ∈ ps, Printed showFloat p.term p.lexeme := by
  have hcomma : Printed showFloat (punct 10 44).term (punct 10 44).lexeme := .structural (by decide)
  have hcolon : Printed showFloat (punct 11 58).term (punct 11 58).lexeme := .structural (by decide)
  induction v with
  | blank =>
      intro ps h
      cases h
      exact List.forall_mem_singleton.mpr .null
  | bool b =>
      intro ps h
      cases h
      cases b
      · exact List.forall_mem_singleton.mpr .false_
      · exact List.forall_mem_singleton.mpr .true_
  | integer n =>
      intro ps h
      cases h
      exact List.forall_mem_singleton.mpr (.integer n)
  | float f =>
      intro ps h
      cases h
      exact List.forall_mem_singleton.mpr (.float f)
  | string s =>
      intro ps h
      cases h
      exact List.forall_mem_singleton.mpr (stringPiece_printed s)
  | set xs _ =>
      intro ps h
      cases h
  | array xs ih =>
      intro ps h
      obtain ⟨qs, hqs, rfl⟩ := pieces_array.mp h
      exact bracketed_printed (8, 91) (9, 93) (by decide) (by decide)
        (forall_elemPieces hcomma ih hqs)
  | list xs ih =>
      intro ps h
      obtain ⟨qs, hqs, rfl⟩ := pieces_list.mp h
      exact bracketed_printed (8, 91) (9, 93) (by decide) (by decide)
        (forall_elemPieces hcomma ih hqs)
  | dict es _ ih =>
      intro ps h
      obtain ⟨qs, hqs, rfl⟩ := pieces_dict.mp h
      exact bracketed_printed (6, 123) (7, 125) (by decide) (by decide)
        (forall_entryPieces hcomma hcolon (fun _ _ s _ => stringPiece_printed s) ih hqs)

end Lexemes

/-! ## The white space -/

section Gaps

variable {a_tab_str : StringT} {before ps qs : List Piece} {p q : Piece} {depth : Nat}

/-- So many brackets are open. -/
def Balanced (depth : Nat) (before : List Piece) : Prop :=
  before.countP Piece.opening = before.countP Piece.closing + depth

/-- A value has just been written, with so many brackets open around it. -/
structure Ends (depth : Nat) (before : List Piece) : Prop where
  balanced : Balanced depth before
  last : ∃ q, before.getLast? = some q ∧ q.opening = false ∧ q.term ≠ 10

/-- Every piece has its white space, when `before` has been written. -/
def Laid (a_tab_str : StringT) : List Piece → List Piece → Prop
  | _, [] => True
  | before, p :: ps => p.ws = gap a_tab_str before p ∧ Laid a_tab_str (before ++ [p]) ps

theorem laid_append : Laid a_tab_str before (ps ++ qs) ↔
    Laid a_tab_str before ps ∧ Laid a_tab_str (before ++ ps) qs := by
  induction ps generalizing before with
  | nil => simp [Laid]
  | cons p ps ih =>
      simp only [List.cons_append, Laid, ih, List.append_assoc, List.nil_append, and_assoc]

theorem laid_singleton : Laid a_tab_str before [p] ↔ p.ws = gap a_tab_str before p := and_iff_left trivial

theorem Balanced.snoc (h : Balanced depth before) (ho : p.opening = false) (hc : p.closing = false) :
    Balanced depth (before ++ [p]) := by
  simp only [Balanced, List.countP_append, List.countP_singleton, ho, hc] at h ⊢
  simpa using h

theorem Balanced.opens (h : Balanced depth before) (ho : p.opening = true) (hc : p.closing = false) :
    Balanced (depth + 1) (before ++ [p]) := by
  simp only [Balanced, List.countP_append, List.countP_singleton, ho, hc] at h ⊢
  simp only [if_true, Bool.false_eq_true, if_false]
  omega

theorem Balanced.closes (h : Balanced (depth + 1) before) (ho : p.opening = false) (hc : p.closing = true) :
    Balanced depth (before ++ [p]) := by
  simp only [Balanced, List.countP_append, List.countP_singleton, ho, hc] at h ⊢
  simp only [if_true, Bool.false_eq_true, if_false]
  omega

/-- What follows a piece without a bracket. -/
theorem openContainers_eq (h : Balanced depth before) (hc : p.closing = false) : openContainers before p = depth := by
  simp only [Balanced] at h
  simp only [openContainers, List.countP_append, List.countP_singleton, hc]
  simp only [Bool.false_eq_true, if_false]
  omega

theorem openContainers_closing (h : Balanced (depth + 1) before) (hc : p.closing = true) :
    openContainers before p = depth := by
  simp only [Balanced] at h
  simp only [openContainers, List.countP_append, List.countP_singleton, hc, if_true]
  omega

theorem gap_snoc : gap a_tab_str (before ++ [q]) p =
    if breaksLine q p then lineBreak a_tab_str (openContainers (before ++ [q]) p) else [] := by
  rw [gap, List.getLast?_append_of_ne_nil _ (by simp)]
  rfl

/-- Nothing stands between a value and a comma or colon. -/
theorem Ends.gap_open (h : Ends depth before) (hc : p.closing = false) : gap a_tab_str before p = [] := by
  obtain ⟨-, q, hlast, ho, hterm⟩ := h
  rw [gap, hlast]
  simp [breaksLine, ho, hc, hterm]

/-- In front of the bracket of a container that is not empty. -/
theorem Ends.gap_closing (h : Ends (depth + 1) before) (hc : p.closing = true) :
    gap a_tab_str before p = lineBreak a_tab_str depth := by
  obtain ⟨hbalanced, q, hlast, ho, hterm⟩ := h
  rw [gap, hlast, ← openContainers_closing hbalanced hc]
  simp [breaksLine, ho, hc]

/-- Behind a bracket, when a value follows. -/
theorem gap_opened (h : Balanced depth before) (hq : q.opening = true ∧ q.closing = false) (hc : p.closing = false) :
    gap a_tab_str (before ++ [q]) p = lineBreak a_tab_str (depth + 1) := by
  rw [gap_snoc, openContainers_eq (h.opens hq.1 hq.2) hc]
  simp [breaksLine, hq.1, hc]

/-- Inside the brackets of an empty container. -/
theorem gap_empty (hq : q.opening = true ∧ q.term ≠ 10) (hc : p.closing = true) :
    gap a_tab_str (before ++ [q]) p = [] := by
  rw [gap_snoc]
  simp [breaksLine, hq.1, hq.2, hc]

theorem gap_comma (h : Balanced depth before) (hc : p.closing = false) :
    gap a_tab_str (before ++ [punct 10 44]) p = lineBreak a_tab_str depth := by
  rw [gap_snoc, openContainers_eq (h.snoc rfl rfl) hc]
  rfl

theorem gap_colon (hc : p.closing = false) : gap a_tab_str (before ++ [punct 11 58]) p = [] := by
  rw [gap_snoc]
  simp [breaksLine, punct, Piece.opening, hc]

theorem Ends.snoc (h : Balanced depth before) (ho : p.opening = false) (hc : p.closing = false)
    (hterm : p.term ≠ 10) : Ends depth (before ++ [p]) :=
  ⟨h.snoc ho hc, p, by simp, ho, hterm⟩

end Gaps

/-! ### The pieces of a value -/

section Lays

variable {F : Type} {showFloat : F → StringT} {a_tab_str : StringT} {before ps : List Piece} {depth : Nat}

/-- An item can be written behind white space `ws`: it has its own white space, and ends as a value does. -/
def ItemLays (a_tab_str : StringT) (depth : Nat) (ws : StringT) (item : Except CreateError (List Piece)) : Prop :=
  ∀ ps before, item = .ok ps → Balanced depth before →
    (∀ p : Piece, p.closing = false → gap a_tab_str before p = ws) →
    Laid a_tab_str before ps ∧ Ends depth (before ++ ps)

/-- A word, number or string. -/
theorem itemLays_single {ws : StringT} {p : Piece} (hws : p.ws = ws) (ho : p.opening = false)
    (hc : p.closing = false) (hterm : p.term ≠ 10) : ItemLays a_tab_str depth ws (.ok [p]) := by
  intro ps before h hbalanced hgap
  cases h
  exact ⟨laid_singleton.mpr (hws.trans (hgap p hc).symm), .snoc hbalanced ho hc hterm⟩

/-- Further items. -/
theorem joined_lays {items : List (Except CreateError (List Piece))}
    (hitems : ∀ item ∈ items, ItemLays a_tab_str depth (lineBreak a_tab_str depth) item)
    (h : joined false items = .ok ps) (hends : Ends depth before) :
    Laid a_tab_str before ps ∧ Ends depth (before ++ ps) := by
  induction items generalizing before ps with
  | nil =>
      cases h
      exact ⟨trivial, by rwa [List.append_nil]⟩
  | cons item items ih =>
      cases item with
      | error e => cases h
      | ok px =>
          obtain ⟨qs, hqs, rfl⟩ := map_eq_ok.mp h
          have hcomma : Laid a_tab_str before [punct 10 44] := laid_singleton.mpr (hends.gap_open rfl).symm
          have hitem := hitems _ List.mem_cons_self px (before ++ [punct 10 44]) rfl (hends.balanced.snoc rfl rfl)
            (fun p hc => gap_comma hends.balanced hc)
          have hrest := ih (fun i hi => hitems i (List.mem_cons_of_mem _ hi)) hqs hitem.2
          simp only [List.append_assoc] at hrest
          have hlaid : Laid a_tab_str before ([punct 10 44] ++ (px ++ qs)) :=
            laid_append.mpr ⟨hcomma, laid_append.mpr ⟨hitem.1, by simpa using hrest.1⟩⟩
          exact ⟨by simpa [comma] using hlaid, by simpa [comma] using hrest.2⟩

/-- A container with its items. -/
theorem container_lays {items : List (Except CreateError (List Piece))} {o c : Piece} {ws : StringT}
    (ho : o.opening = true ∧ o.closing = false) (hc : c.closing = true ∧ c.opening = false)
    (hows : o.term ≠ 10 ∧ c.term ≠ 10)
    (hitems : ∀ item ∈ items, ItemLays a_tab_str (depth + 1) (lineBreak a_tab_str (depth + 1)) item) :
    ItemLays a_tab_str depth ws ((joined true items).map (fun ps =>
      o.after ws :: (ps ++ [c.after (if items.isEmpty then [] else lineBreak a_tab_str depth)]))) := by
  intro ps before h hbalanced hgap
  obtain ⟨qs, hqs, rfl⟩ := map_eq_ok.mp h
  have hopen : ws = gap a_tab_str before (o.after ws) := (hgap (o.after ws) ho.2).symm
  have hinside : Balanced (depth + 1) (before ++ [o.after ws]) := hbalanced.opens ho.1 ho.2
  cases items with
  | nil =>
      cases hqs
      -- nothing stands between the brackets
      have hclose : gap a_tab_str (before ++ [o.after ws]) (c.after []) = [] := gap_empty ⟨ho.1, hows.1⟩ hc.1
      refine ⟨⟨hopen, laid_singleton.mpr hclose.symm⟩, ?_⟩
      have hends : Balanced depth (before ++ [o.after ws] ++ [c.after []]) := hinside.closes hc.2 hc.1
      rw [List.append_assoc] at hends
      exact ⟨hends, c.after [], by simp, hc.2, hows.2⟩
  | cons item items =>
      cases item with
      | error e => cases hqs
      | ok px =>
          obtain ⟨rs, hrs, rfl⟩ := map_eq_ok.mp hqs
          have hfirst := hitems _ List.mem_cons_self px (before ++ [o.after ws]) rfl hinside
            (fun p hc => gap_opened hbalanced ho hc)
          have hrest := joined_lays (fun i hi => hitems i (List.mem_cons_of_mem _ hi)) hrs hfirst.2
          have hclose : gap a_tab_str (before ++ [o.after ws] ++ px ++ rs) (c.after (lineBreak a_tab_str depth)) =
              lineBreak a_tab_str depth := hrest.2.gap_closing hc.1
          have hlaid : Laid a_tab_str (before ++ [o.after ws])
              (px ++ (rs ++ [c.after (lineBreak a_tab_str depth)])) :=
            laid_append.mpr ⟨hfirst.1, laid_append.mpr ⟨hrest.1, laid_singleton.mpr hclose.symm⟩⟩
          have hends := hrest.2.balanced.closes (p := c.after (lineBreak a_tab_str depth)) hc.2 hc.1
          refine ⟨⟨hopen, by simpa [comma] using hlaid⟩, ?_, c.after (lineBreak a_tab_str depth), ?_, hc.2, hows.2⟩
          · simpa [comma] using hends
          · exact List.getLast?_eq_some_iff.mpr ⟨before ++ o.after ws :: (px ++ rs), by simp [comma]⟩

/-- A key, a colon and the value. -/
theorem entry_lays {e : VarC F × VarC F}
    (hv : ItemLays a_tab_str depth [] (nicePieces showFloat (lineBreak a_tab_str) depth [] e.2)) :
    ItemLays a_tab_str depth (lineBreak a_tab_str depth) (niceEntry showFloat (lineBreak a_tab_str) depth e) := by
  intro ps before h hbalanced hgap
  obtain ⟨k, v⟩ := e
  cases k with
  | string s =>
      obtain ⟨pv, hpv, rfl⟩ := map_eq_ok.mp h
      have hkey : Ends depth (before ++ [(stringPiece s).after (lineBreak a_tab_str depth)]) :=
        .snoc hbalanced rfl rfl (by simp [Piece.after, stringPiece])
      have hvalue := hv pv _ hpv (hkey.balanced.snoc (p := punct 11 58) rfl rfl) (fun p hc => gap_colon hc)
      refine ⟨⟨(hgap _ rfl).symm, (hkey.gap_open rfl).symm, hvalue.1⟩, ?_⟩
      simpa using hvalue.2
  | _ => cases h

/-- **The white space of `create_nice`.** -/
theorem lays_nice (v : VarC F) :
    ∀ depth ws, ItemLays a_tab_str depth ws (nicePieces showFloat (lineBreak a_tab_str) depth ws v) := by
  induction v with
  | blank | integer n | float f | string s =>
      intro depth ws
      exact itemLays_single rfl rfl rfl (by simp [Piece.after, stringPiece])
  | bool b =>
      intro depth ws
      cases b
      · exact itemLays_single rfl rfl rfl (by simp)
      · exact itemLays_single rfl rfl rfl (by simp)
  | set xs _ =>
      intro depth ws ps before h
      cases h
  | array xs ih | list xs ih =>
      intro depth ws
      have hitems : ∀ item ∈ niceElems showFloat (lineBreak a_tab_str) (depth + 1) xs,
          ItemLays a_tab_str (depth + 1) (lineBreak a_tab_str (depth + 1)) item := by
        intro item hitem
        rw [niceElems_eq] at hitem
        obtain ⟨x, hx, rfl⟩ := List.mem_map.mp hitem
        exact ih x hx _ _
      have hempty : xs.isEmpty = (niceElems showFloat (lineBreak a_tab_str) (depth + 1) xs).isEmpty := by
        cases xs <;> rfl
      rw [nicePieces, hempty]
      exact container_lays ⟨rfl, rfl⟩ ⟨rfl, rfl⟩ (by decide) hitems
  | dict es _ ih =>
      intro depth ws
      have hitems : ∀ item ∈ niceEntries showFloat (lineBreak a_tab_str) (depth + 1) es,
          ItemLays a_tab_str (depth + 1) (lineBreak a_tab_str (depth + 1)) item := by
        intro item hitem
        rw [niceEntries_eq] at hitem
        obtain ⟨e, he, rfl⟩ := List.mem_map.mp hitem
        exact entry_lays (ih e he _ _)
      have hempty : es.isEmpty = (niceEntries showFloat (lineBreak a_tab_str) (depth + 1) es).isEmpty := by
        cases es <;> rfl
      rw [nicePieces, hempty]
      exact container_lays ⟨rfl, rfl⟩ ⟨rfl, rfl⟩ (by decide) hitems

end Lays

/-! ## The two functions -/

section Agree

variable {F : Type} {showFloat : F → StringT} {a_tab_str : StringT} {before ps : List Piece}

theorem Laid.ws_eq (h : Laid a_tab_str before ps) {front after : List Piece} {p : Piece}
    (hps : ps = front ++ p :: after) : p.ws = gap a_tab_str (before ++ front) p := by
  subst hps
  exact (laid_append.mp h).2.1

/-- Line breaks and tabs are white space. -/
theorem gap_skips (htab : ∀ c ∈ a_tab_str, isSkip c = true) (before : List Piece) (p : Piece) :
    ∀ c ∈ gap a_tab_str before p, isSkip c = true := by
  intro c hc
  unfold gap at hc
  split at hc
  · cases hc
  · split at hc
    · rcases List.mem_cons.mp hc with rfl | hc
      · decide
      · obtain ⟨l, hl, hc⟩ := List.mem_flatten.mp hc
        rw [List.eq_of_mem_replicate hl] at hc
        exact htab c hc
    · cases hc

/-- What the pieces of `create_nice` say of the two texts. -/
theorem laidOut_nice {v : VarC F} (htab : ∀ c ∈ a_tab_str, isSkip c = true)
    (h : nicePieces showFloat (lineBreak a_tab_str) 0 [] v = .ok ps) :
    LaidOut showFloat a_tab_str ps (render (bare ps)) (render ps) := by
  have hlaid : Laid a_tab_str [] ps := (lays_nice v 0 [] ps [] h rfl fun _ _ => rfl).1
  have hgaps : ∀ before p after, ps = before ++ p :: after → p.ws = gap a_tab_str before p :=
    fun before p after hps => hlaid.ws_eq hps
  have hbare : pieces showFloat v = .ok (bare ps) := by
    rw [← nicePieces_lexemes (lineBreak a_tab_str) v 0 [], h]
    rfl
  refine ⟨?_, render_bare ps, rfl, ?_, hgaps⟩
  · intro p hp
    exact pieces_printed v _ hbare (p.after []) (List.mem_map_of_mem hp)
  · intro p hp
    obtain ⟨before, after, hps⟩ := List.append_of_mem hp
    rw [hgaps before p after hps]
    exact gap_skips htab before p

/-- **`create_nice` and `create` agree.** Both return or throw. They throw together and the same error, or
    their texts consist of the same lexemes, and the text of `create_nice` has its line breaks with as many
    tabs as containers are open there. -/
theorem createNice_agrees (showFloat : F → StringT) (v : VarC F) (a_tab_str : StringT)
    (htab : ∀ c ∈ a_tab_str, isSkip c = true) :
    (∃ r, Creates showFloat v r) ∧ (∃ r, CreatesNice showFloat a_tab_str v r) ∧
      ∀ r r', Creates showFloat v r → CreatesNice showFloat a_tab_str v r' →
        match r, r' with
        | .error e, .error e' => e = e'
        | .ok text, .ok nice => ∃ ps, LaidOut showFloat a_tab_str ps text nice
        | _, _ => False := by
  have hcreate := create_returns showFloat v
  have hnice := createNice_returns showFloat a_tab_str v
  refine ⟨⟨_, hcreate⟩, ⟨_, hnice⟩, ?_⟩
  intro r r' hr hr'
  obtain rfl := hr.unique hcreate
  obtain rfl := hr'.unique hnice
  rw [← nicePieces_lexemes (lineBreak a_tab_str) v 0 []]
  cases hps : nicePieces showFloat (lineBreak a_tab_str) 0 [] v with
  | error e => exact rfl
  | ok ps => exact ⟨ps, laidOut_nice htab hps⟩

/-- The theorem for an array with an empty one in it, and a space for the tab. -/
theorem createNice_agrees_nested :
    ∃ ps, LaidOut (fun _ : Int => []) [32] ps [91, 91, 93, 44, 116, 114, 117, 101, 93]
      [91, 10, 32, 91, 93, 44, 10, 32, 116, 114, 117, 101, 10, 93] := by
  have hcreate := create_returns (fun _ : Int => []) (.array [.array [], .bool true])
  have hnice := createNice_returns (fun _ : Int => []) [32] (.array [.array [], .bool true])
  exact (createNice_agrees (fun _ : Int => []) (.array [.array [], .bool true]) [32]
    (List.forall_mem_singleton.mpr rfl)).2.2
    _ _ hcreate hnice

end Agree

end Ccljson
end Cclib
