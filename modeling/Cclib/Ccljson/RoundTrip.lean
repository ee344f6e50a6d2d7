import Cclib.Ccljson.Rewrite

/-!
# `Ccljson.RoundTrip` — `parse` after `create`, and `create` after `parse`

- `round_trip` — a value without floats, sets and NUL bytes is parsed back from its text, with arrays for
  its lists.
- `reserialise_iff` — a parsed text is printed as one that is parsed to the same, unless a string that is
  kept has the escape of a NUL: `create` writes the byte itself, and to the lexer that ends the input.
-/

namespace Cclib
namespace Ccljson
open Cclvar

variable {F : Type} [LT F] [DecidableLT F] {showFloat : F → StringT} {strtod : StringT → F}
  {ok : StringT → Prop} {v : VarC F} {es : List (VarC F × VarC F)} {ps : List Piece}

/-! ## `parse` after `create` -/

/-- Lists become arrays, and nothing else changes. -/
theorem Plain.toArrays (h : Plain ok v) : Plain ok (toArrays v) := by
  induction h with
  | blank => exact .blank
  | bool b => exact .bool b
  | integer n => exact .integer n
  | string hs => exact .string hs
  | array _ ih | list _ ih =>
      rw [Ccljson.toArrays, elemsToArrays_eq]
      refine .array fun y hy => ?_
      obtain ⟨x, hx, rfl⟩ := List.mem_map.mp hy
      exact ih x hx
  | dict hsorted hkeys _ ih =>
      rw [Ccljson.toArrays, entriesToArrays_eq]
      refine .dict (keysSorted_toArrays hsorted hkeys) (fun d hd => ?_) (fun d hd => ?_)
      · obtain ⟨e, he, rfl⟩ := List.mem_map.mp hd
        obtain ⟨s, hs, hok⟩ := hkeys e he
        exact ⟨s, by rw [hs, Ccljson.toArrays], hok⟩
      · obtain ⟨e, he, rfl⟩ := List.mem_map.mp hd
        exact ih e he

/-- Without floats `compare` is reflexive whatever their `<` is. -/
theorem Plain.compare_self (h : Plain ok v) : VarC.compare v v = 0 := by
  induction h with
  | blank => rfl
  | bool b => exact Compare.ofLT_self b.toInt
  | integer n => exact Compare.ofLT_self n.toInt
  | string _ => exact Compare.ofLT_self _
  | array _ ih | list _ ih => simp [VarC.compare, VarC.compareElems_self ih]
  | @dict es _ hkeys _ ih =>
      have hself : ∀ e ∈ es, VarC.compare e.1 e.1 = 0 := by
        intro e he
        obtain ⟨s, hs, -⟩ := hkeys e he
        rw [hs]
        exact Compare.ofLT_self s
      simp [VarC.compare, VarC.compareEntries_self hself ih]

/-- The printed text of an object derives it. -/
theorem Plain.derives (h : Plain (fun s => 0 ∉ s) (VarC.dict es))
    (hps : pieces showFloat (VarC.dict es) = .ok ps)
    (hlt : (render ps).length < c_uint32_range) :
    ∃ w ts, Derives (render ps) w ts ∧
      treeValue (render ps) (.object ts) = some (Ccljson.toArrays (VarC.dict es)) := by
  cases h with
  | dict hsorted hkeys hvalues =>
      have hdrop : (render ps).drop 0 = render ps ++ [] := by simp
      obtain ⟨ts, hts, hval⟩ := spells_object hsorted hkeys (fun e he => (hvalues e he).written) hps hdrop
      have hlexable : Lexable ps [] := Plain.lexable (.dict hsorted hkeys hvalues) hps rfl
      exact ⟨_, ts, derives_text (List.append_nil _).symm hlexable (by simp) hlt hts, hval⟩

/-- `parse` reads it back. -/
theorem Plain.parses (h : Plain (fun s => 0 ∉ s) (VarC.dict es))
    (hps : pieces showFloat (VarC.dict es) = .ok ps) (hlt : (render ps).length < c_uint32_range) :
    Parses (render ps) strtod (Ccljson.toArrays (VarC.dict es)) := by
  obtain ⟨w, ts, hderives, hval⟩ := h.derives hps hlt
  obtain ⟨c, heval, -⟩ := evalTree_of_value strtod Caches.ok_empty _ hval
  exact hderives.parses heval

/-- **Round trip.** A dict built from blanks, booleans, integers, strings without NUL bytes, arrays, lists
    and such dicts is printed, and its text, if shorter than 2³² bytes, is parsed to a value that compares
    equal to it with an array for every list. -/
theorem round_trip (showFloat : F → StringT) (strtod : StringT → F)
    (h : Plain (fun s => 0 ∉ s) (VarC.dict es)) :
    ∃ text, Creates showFloat (.dict es) (.ok text) ∧
      (text.length < c_uint32_range →
        ∃ w, Parses text strtod w ∧ VarC.compare w (toArrays (.dict es)) = 0) := by
  obtain ⟨ps, hps⟩ := h.pieces_defined showFloat
  have hcreates := create_returns showFloat (.dict es)
  rw [hps] at hcreates
  exact ⟨render ps, hcreates, fun hlt => ⟨_, h.parses hps hlt, h.toArrays.compare_self⟩⟩

/-- The dict of `a` with the list of `1` and a blank, through its text. -/
theorem round_trip_list :
    ∃ text, Creates (fun _ : Int => []) (.dict [(.string [97], .list [.integer 1, .blank])]) (.ok text) ∧
      (text.length < c_uint32_range →
        ∃ w, Parses text (fun _ => (0 : Int)) w ∧
          VarC.compare w (toArrays (.dict [(.string [97], .list [.integer 1, .blank])])) = 0) := by
  have hlist : Plain (fun s => 0 ∉ s) (.list [.integer 1, .blank] : VarC Int) := by
    refine .list fun x hx => ?_
    simp only [List.mem_cons, List.not_mem_nil, or_false] at hx
    rcases hx with rfl | rfl
    · exact .integer 1
    · exact .blank
  have hdict : Plain (fun s => 0 ∉ s) (.dict [(.string [97], .list [.integer 1, .blank])] : VarC Int) :=
    .dict (List.pairwise_singleton _ _) (by simp) (by simpa using hlist)
  exact round_trip _ _ hdict

/-! ## Texts that are not parsed -/

/-- The first element that is not as the others. -/
theorem exists_first_not {α : Type} {P : α → Prop} {l : List α} (h : ¬ ∀ x ∈ l, P x) :
    ∃ l₁ x l₂, l = l₁ ++ x :: l₂ ∧ (∀ y ∈ l₁, P y) ∧ ¬ P x := by
  induction l with
  | nil => exact absurd (by simp) h
  | cons x l ih =>
      by_cases hx : P x
      · have htail : ¬ ∀ y ∈ l, P y := fun hall => h (List.forall_mem_cons.mpr ⟨hx, hall⟩)
        obtain ⟨l₁, y, l₂, rfl, hfirst, hy⟩ := ih htail
        exact ⟨x :: l₁, y, l₂, rfl, List.forall_mem_cons.mpr ⟨hx, hfirst⟩, hy⟩
      · exact ⟨[], x, l, rfl, by simp, hx⟩

/-- Pieces that are lexemes have no NULs. -/
theorem render_no_nul (h : ∀ p ∈ ps, p.Ok) : ∀ c ∈ render ps, c ≠ 0 := by
  intro c hc
  obtain ⟨p, hp, hc⟩ := List.mem_flatMap.mp hc
  rcases List.mem_append.mp hc with hc | hc
  · exact ne_nul_of_skip ((h p hp).ws c hc)
  · exact (h p hp).lexeme.no_nul c hc

theorem inChar_ne_zero {pre : StringT} (rest : StringT) {k : Nat} (h : ∀ c ∈ pre, c ≠ 0) (hk : k < pre.length) :
    inChar (pre ++ rest) k ≠ 0 := by
  unfold inChar
  rw [List.getElem?_append_left hk, List.getElem?_eq_getElem hk]
  intro heq
  exact h pre[k] (List.getElem_mem hk) (UInt8.toNat_inj.mp heq)

/-- A printed string is a lexeme unless it has a NUL. -/
theorem Plain.piece_cases (h : Plain ok v) (hps : pieces showFloat v = .ok ps) :
    ∀ p ∈ ps, p.term ≠ 13 ∧ (p.Ok ∨ ∃ s, 0 ∈ s ∧ p = stringPiece s) := by
  have hfixed : ∀ p ∈ fixedPieces, p.term ≠ 13 := by decide
  refine h.forall_pieces (fun p hp => ⟨hfixed p hp, Or.inl (fixedPieces_ok p hp)⟩)
    (fun n => ⟨by simp, Or.inl ⟨by simp, lexeme_showInt n⟩⟩) (fun s _ => ⟨by simp [stringPiece], ?_⟩) ps hps
  by_cases hs : 0 ∈ s
  · exact Or.inr ⟨s, hs, rfl⟩
  · exact Or.inl (stringPiece_ok hs)

theorem no_nul_of_ok {s : StringT} (h : (stringPiece s).Ok) : 0 ∉ s := by
  intro hmem
  refine h.lexeme.no_nul 0 ?_ rfl
  have htext : 0 ∈ itemsText (s.map escapeItem) :=
    List.mem_flatMap.mpr ⟨escapeItem 0, List.mem_map_of_mem hmem, List.mem_singleton_self 0⟩
  simp [stringPiece, literal, htext]

/-- A literal with a NUL in it is no terminal. -/
theorem nextTerminal_nul {source s₁ rest : StringT} {i fuel : Nat} (hs₁ : ∀ c ∈ s₁, c ≠ 0)
    (hdrop : source.drop i = 34 :: itemsText (s₁.map escapeItem) ++ 0 :: rest)
    (hlt : i + (34 :: itemsText (s₁.map escapeItem)).length < c_uint32_range)
    (hfuel : (34 :: itemsText (s₁.map escapeItem)).length < fuel) :
    nextTerminal source fuel i = some (.error .unrecognizedTerminal) := by
  have hlexes : ∀ item ∈ s₁.map escapeItem, item.Lexes := escape_lexes fun hmem => hs₁ 0 hmem rfl
  have hscan : scan .state0 (34 :: itemsText (s₁.map escapeItem)) = some .state2 := by
    have hquote : lexGoto .state0 (34 : UInt8).toNat = .inl .state2 := by rfl
    rw [scan, hquote]
    exact scan_items hlexes
  have hnul : ∀ c ∈ 34 :: itemsText (s₁.map escapeItem), c ≠ 0 := by
    refine List.forall_mem_cons.mpr ⟨by decide, fun c hc => ?_⟩
    obtain ⟨item, hitem, hc⟩ := List.mem_flatMap.mp hc
    exact item_no_nul (hlexes item hitem) c hc
  have hgoto : lexGoto .state2 0 = .inl .state2 := by rfl
  rw [nextTerminal, recognizeTerminal_nul hdrop (by simp) hnul hscan hgoto hlt hfuel]
  rfl

/-- Behind lexemes, a literal with a NUL in it keeps the parser from the end of the input. -/
theorem not_supplies_nul {source s₁ rest : StringT} {w : List Token} {tok : Token} {i fuel : Nat}
    (hsource : source = render ps ++ (34 :: itemsText (s₁.map escapeItem) ++ 0 :: rest))
    (hps : Lexable ps (34 :: itemsText (s₁.map escapeItem) ++ 0 :: rest)) (hterm : ∀ p ∈ ps, p.term ≠ 13)
    (hs₁ : ∀ c ∈ s₁, c ≠ 0) (hend : tok.term = 13) :
    ¬ Supplies (nextTerminal source fuel) 0 (w ++ [tok]) i := by
  intro hsup
  generalize hbad : 34 :: itemsText (s₁.map escapeItem) = bad at hsource hps
  -- the cursor stops at the NUL, so it does not wrap before
  obtain ⟨hlt, hnul, hbefore, -⟩ := supplies_end hsup hend
  have hbad_nul : ∀ c ∈ bad, c ≠ 0 := by
    rw [← hbad]
    refine List.forall_mem_cons.mpr ⟨by decide, fun c hc => ?_⟩
    obtain ⟨item, hitem, hc⟩ := List.mem_flatMap.mp hc
    exact item_no_nul (escape_lexes (fun hmem => hs₁ 0 hmem rfl) item hitem) c hc
  have hstop : (render ps).length + bad.length < c_uint32_range := by
    by_contra hge
    have hread := inChar_ne_zero (0 :: rest)
      (List.forall_mem_append.mpr ⟨render_no_nul hps.ok, hbad_nul⟩)
      (show tok.stop < (render ps ++ bad).length by rw [List.length_append]; omega)
    rw [List.append_assoc, ← hsource] at hread
    exact hread hnul
  -- up to the literal everything is supplied, and there the lexer fails
  let fuel' := max fuel (source.length + 1)
  have hfuel : (render ps).length + bad.length < fuel' := by
    have hlen := congrArg List.length hsource
    simp only [List.length_append, List.length_cons] at hlen
    omega
  have hpieces : Supplies (nextTerminal source fuel') 0 (tokensFrom 0 ps) (0 + (render ps).length) :=
    supplies_pieces (by rw [List.drop_zero, hsource]) hps.parted (by omega) (by omega)
  have hfail : nextTerminal source fuel' (0 + (render ps).length) = some (.error .unrecognizedTerminal) := by
    rw [Nat.zero_add]
    subst hbad
    exact nextTerminal_nul hs₁ (by rw [hsource, List.drop_left]) hstop (by omega)
  have hsup' := hsup.imp fun i r => next_mono (Nat.le_max_left fuel (source.length + 1))
  rcases hpieces.compare hsup' with ⟨more, heq⟩ | ⟨t, more, -, hmore⟩
  · have hmem : tok ∈ tokensFrom 0 ps := by simp [heq]
    exact tokensFrom_term hterm tok hmem hend
  · cases hmore with
    | skip hnext _ _ | cons hnext _ _ =>
        rw [hfail] at hnext
        cases hnext

/-- **A printed text that is parsed** has no NUL in it and fits the cursor. -/
theorem Plain.parsed (h : Plain ok v) (hps : pieces showFloat v = .ok ps) {w : VarC F}
    (hparse : Parses (render ps) strtod w) : (∀ p ∈ ps, p.Ok) ∧ (render ps).length < c_uint32_range := by
  obtain ⟨toks, ts, c, ⟨fuel, tok, i, hsup, hend, -⟩, -⟩ := hparse.derives
  obtain ⟨hlt, hnul, hbefore, -⟩ := supplies_end hsup hend
  have hok : ∀ p ∈ ps, p.Ok := by
    -- the first piece that is no lexeme stops the lexer at its first NUL
    by_contra hall
    obtain ⟨ps₁, p, ps₂, rfl, hfirst, hp⟩ := exists_first_not hall
    obtain ⟨s, hs, rfl⟩ := ((h.piece_cases hps p (by simp)).2).resolve_left hp
    have hs : ¬ ∀ c ∈ s, c ≠ 0 := fun hall => hall 0 hs rfl
    obtain ⟨s₁, z, s₂, rfl, hs₁, hz⟩ := exists_first_not hs
    obtain rfl : z = 0 := not_not.mp hz
    have htext : render (ps₁ ++ stringPiece (s₁ ++ 0 :: s₂) :: ps₂) =
        render ps₁ ++ (34 :: itemsText (s₁.map escapeItem) ++
          0 :: (itemsText (s₂.map escapeItem) ++ 34 :: render ps₂)) := by
      have hzero : (escapeItem 0).text = [0] := rfl
      simp [stringPiece, literal, itemsText, hzero]
    have hdelimited := (delimited_append.mp (pieces_delimited v _ hps [] rfl)).1
    have hlexable : Lexable ps₁ (34 :: itemsText (s₁.map escapeItem) ++
        0 :: (itemsText (s₂.map escapeItem) ++ 34 :: render ps₂)) := by
      refine ⟨hfirst, ?_⟩
      rw [List.append_nil] at hdelimited
      rw [render_append] at htext
      rwa [List.append_cancel_left htext] at hdelimited
    exact not_supplies_nul htext hlexable (fun p hp => (h.piece_cases hps p (by simp [hp])).1) hs₁ hend hsup
  refine ⟨hok, ?_⟩
  by_contra hge
  have hread := inChar_ne_zero [] (render_no_nul hok) (show tok.stop < (render ps).length by omega)
  rw [List.append_nil] at hread
  exact hread hnul

/-! ## `create` after `parse` -/

/-- The text of a string token of a parsed source has no NUL in it. -/
theorem Derives.clean {source : StringT} {w : List Token} {ts : List (Token × JTree)} (h : Derives source w ts) :
    ∀ t ∈ w, CleanBody source t := by
  obtain ⟨fuel, tok, i, hsup, hend, -⟩ := h
  obtain ⟨-, -, hbefore, hstops⟩ := supplies_end hsup hend
  intro t ht hmem
  obtain ⟨hle, hstop⟩ := hstops t ht
  obtain ⟨k, hk, hget⟩ := List.mem_iff_getElem.mp hmem
  simp only [stringBody, List.length_take, List.length_drop, List.getElem_take, List.getElem_drop] at hk hget
  refine hbefore (t.start + 1 + k) (by omega) ?_
  unfold inChar
  rw [List.getElem?_eq_getElem (by omega), hget]
  rfl

variable {source : StringT} {w : List Token} {ts : List (Token × JTree)}

/-- **When re-serialisation is stable.** A parsed source without float literals is printed as a text that
    is parsed to an equal value exactly when no string that is kept has the escape of a NUL, and the new
    text fits the cursor. -/
theorem reserialise_iff (showFloat : F → StringT) (h : Derives source w ts)
    (hfloat : ∀ t ∈ w, t.term ≠ 2) (hv : Parses source strtod v) :
    (∃ text v', Creates showFloat v (.ok text) ∧ Parses text strtod v' ∧ VarC.compare v' v = 0) ↔
      (∀ k ∈ (keepFirst source (.object ts)).tokens 0, ¬ EscapesNul source k) ∧
        writtenSize source (keepFirst source (.object ts)) < c_uint32_range := by
  have htokens : ∀ kind ≤ 2, (JTree.object ts).tokens kind = w.filter (fun t => decide (t.term = kind)) := by
    intro kind hkind
    obtain ⟨-, -, -, -, -, hspelled⟩ := id h
    exact hspelled.tokens hkind
  have hvalue : treeValue source (.object ts) = some v := by
    obtain ⟨c, heval⟩ := h.value hv
    refine treeValue_of_eval Caches.ok_empty ?_ heval
    rw [htokens 2 (by omega)]
    exact List.filter_eq_nil_iff.mpr (by simpa using hfloat)
  have hclean : ∀ k ∈ (JTree.object ts).tokens 0, CleanBody source k := by
    rw [htokens 0 (by omega)]
    exact fun k hk => h.clean k (List.mem_filter.mp hk).1
  have hwrites : Writes source showFloat (keepFirst source (.object ts)) v :=
    writes_keepFirst _ v hclean hvalue
  obtain ⟨hplain, hsize, hnul, harrays⟩ := hwrites
  obtain ⟨ps, hps⟩ := hplain.pieces_defined showFloat
  have hcreates := create_returns showFloat v
  rw [hps] at hcreates
  -- both conditions are about the printed text, by `Writes`
  rw [← hnul, ← hsize, textSize_of_pieces hps]
  constructor
  · rintro ⟨text, v', htext, hparse, -⟩
    obtain rfl := Except.ok.inj (Loop.Returns.unique htext hcreates)
    obtain ⟨hok, hlt⟩ := hplain.parsed hps hparse
    refine ⟨hplain.of_pieces ps hps fun s hs => ?_, hlt⟩
    exact no_nul_of_ok (hok _ hs)
  · rintro ⟨hfree, hlt⟩
    obtain ⟨es, hes, rfl⟩ := Option.map_eq_some_iff.mp hvalue
    have hparse : Parses (render ps) strtod _ := hfree.parses hps hlt
    rw [harrays] at hparse
    exact ⟨render ps, _, hcreates, hparse, hplain.compare_self⟩

/-! ### An escape in a text -/

/-- The text of an object that gives `a` the string of one escape, whose last two digits are `d`. -/
def escapeSource (d : UInt8) : StringT := [123, 34, 97, 34, 58, 34, 92, 117, 48, 48, d, d, 34, 125]

def escapeTokens : List Token := [⟨6, 0, 1⟩, ⟨0, 1, 4⟩, ⟨11, 4, 5⟩, ⟨0, 5, 13⟩, ⟨7, 13, 14⟩]

def escapePairs : List (Token × JTree) := [(⟨0, 1, 4⟩, .string ⟨0, 5, 13⟩)]

theorem escape_spelled : Spelled [.object escapePairs] escapeTokens := by
  have hkey : Spelled [.string ⟨0, 1, 4⟩] [⟨0, 1, 4⟩] := spelled_unit (.string rfl)
  have hvalue : Spelled [.value (.string ⟨0, 5, 13⟩)] [⟨0, 5, 13⟩] :=
    Spelled.reduceAll .valueString (spelled_unit (.string rfl))
  have hpair : Spelled [.pair (⟨0, 1, 4⟩, .string ⟨0, 5, 13⟩)] [⟨0, 1, 4⟩, ⟨11, 4, 5⟩, ⟨0, 5, 13⟩] :=
    Spelled.reduceAll (.pair rfl) ((hkey.append (spelled_token ⟨11, 4, 5⟩)).append hvalue)
  have hdict : Spelled [.dict escapePairs] [⟨6, 0, 1⟩, ⟨0, 1, 4⟩, ⟨11, 4, 5⟩, ⟨0, 5, 13⟩] :=
    Spelled.reduceAll .dictPairs ((spelled_unit (.dictBegin rfl)).append (Spelled.reduceAll .pairsOne hpair))
  exact Spelled.reduceAll (.object rfl) (hdict.append (spelled_token ⟨7, 13, 14⟩))

theorem escape_derives {d : UInt8} (hd : d = 48 ∨ d = 57) :
    Derives (escapeSource d) escapeTokens escapePairs := by
  refine ⟨20, ⟨13, 14, 14⟩, 14, ?_, rfl, escape_spelled⟩
  rcases hd with rfl | rfl
  all_goals
    refine .cons rfl (by decide) (.cons rfl (by decide) (.cons rfl (by decide) ?_))
    exact .cons rfl (by decide) (.cons rfl (by decide) (.cons rfl (by decide) .nil))

theorem escape_no_float : ∀ t ∈ escapeTokens, t.term ≠ 2 := by decide

/-- Without a NUL: the escape is of `U+0099`. -/
theorem reserialise_iff_escape :
    (∃ text v', Creates (fun _ : Int => []) (.dict [(.string [97], .string [0xc2, 0x99])]) (.ok text) ∧
      Parses text (fun _ => (0 : Int)) v' ∧ VarC.compare v' (.dict [(.string [97], .string [0xc2, 0x99])]) = 0) ↔
      (∀ k ∈ (keepFirst (escapeSource 57) (.object escapePairs)).tokens 0, ¬ EscapesNul (escapeSource 57) k) ∧
        writtenSize (escapeSource 57) (keepFirst (escapeSource 57) (.object escapePairs)) < c_uint32_range :=
  reserialise_iff _ (escape_derives (Or.inr rfl)) escape_no_float ⟨40, rfl⟩

/-- **With a NUL it fails.** The text is parsed, and what `create` prints of it is not. -/
theorem reserialise_nul :
    Derives (escapeSource 48) escapeTokens escapePairs ∧ (∀ t ∈ escapeTokens, t.term ≠ 2) ∧
      Parses (escapeSource 48) (fun _ => (0 : Int)) (.dict [(.string [97], .string [0])]) ∧
      ¬ ∃ text v', Creates (fun _ : Int => []) (.dict [(.string [97], .string [0])]) (.ok text) ∧
        Parses text (fun _ => (0 : Int)) v' ∧ VarC.compare v' (.dict [(.string [97], .string [0])]) = 0 := by
  refine ⟨escape_derives (Or.inl rfl), escape_no_float, ⟨40, rfl⟩, ?_⟩
  rintro ⟨text, v', htext, hparse, -⟩
  have hps : pieces (fun _ : Int => []) (.dict [(.string [97], .string [0])]) =
      .ok [punct 6 123, stringPiece [97], punct 11 58, stringPiece [0], punct 7 125] := rfl
  have hcreates := create_returns (fun _ : Int => []) (.dict [(.string [97], .string [0])])
  rw [hps] at hcreates
  obtain rfl := Except.ok.inj (Loop.Returns.unique htext hcreates)
  have hplain : Plain (fun _ => True) (.dict [(.string [97], .string [0])] : VarC Int) :=
    .dict (List.pairwise_singleton _ _) (by simp) (by simpa using Plain.string trivial)
  exact no_nul_of_ok ((hplain.parsed hps hparse).1 (stringPiece [0]) (by simp)) (by decide)

end Ccljson
end Cclib
