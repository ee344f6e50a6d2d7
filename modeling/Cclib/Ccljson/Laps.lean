import Cclib.Ccljson.Pieces

/-!
# `Ccljson.Laps` — a cursor that wraps

The cursor is a `uint32_t`. Where the first 2³² bytes of a source hold no NUL (`Cyclic`), it runs over them, the
**lap**, again and again, and never comes to an end of the source.

- **The stream.** `walked` for more than a lap; `recognize_walked`, `recognize_none`: a lexeme is recognised where its
  automaton stops, and nowhere else the lexer stops.
- **Endless lexemes.** `Endless`: the laps on which the first lexeme goes on for ever (`endless_iff`).
- **Lexemes of a lap.** `Tiled` lays lexemes out in a lap; `Tiled.supplies` and `Cyclic.taken_apart`: the lexer
  takes a lap apart like that.
- **Long lexemes.** `scan_le`: behind another lexeme none is longer than a lap and a character.
-/

namespace Cclib
namespace Ccljson
open Cclvar

/-- The bytes that the cursor can point at. -/
def lap (source : StringT) : StringT := source.take c_uint32_range

/-- The cursor comes to no end of the source. -/
structure Cyclic (source : StringT) : Prop where
  length_le : c_uint32_range ≤ source.length
  no_nul : ∀ c ∈ lap source, c ≠ 0

theorem c_uint32_range_pos : 0 < c_uint32_range := by decide

variable {source lexeme rest u : StringT} {i j k n m t fuel : Nat} {state state' : LexState} {term : Option Nat}
  {toks : List Token} {c : UInt8}

/-! ## The stream -/

theorem walked_append (source : StringT) (hi : i < c_uint32_range) (n m : Nat) :
    walked source i (n + m) = walked source i n ++ walked source ((i + n) % c_uint32_range) m := by
  induction n generalizing i with
  | zero => rw [Nat.zero_add, Nat.add_zero, Nat.mod_eq_of_lt hi, walked, List.nil_append]
  | succ n ih =>
      rw [Nat.succ_add, walked, ih (Nat.mod_lt _ c_uint32_range_pos), walked, List.cons_append, Nat.mod_add_mod,
        Nat.add_assoc i 1 n, Nat.add_comm 1 n]

theorem walked_snoc (source : StringT) (hi : i < c_uint32_range) (n : Nat) : walked source i (n + 1) =
    walked source i n ++ [UInt8.ofNat (inChar source ((i + n) % c_uint32_range))] := by
  rw [walked_append source hi, walked, walked]

theorem length_walked (source : StringT) (i n : Nat) : (walked source i n).length = n := by
  induction n generalizing i with
  | zero => rfl
  | succ n ih => rw [walked, List.length_cons, ih]

/-- The rounds from a label on, where the automaton stops. -/
theorem run_of_walked (hk : k < c_uint32_range) (hwalks : Walks source k (n + 1) j)
    (hscan : scan state (walked source ((k + 1) % c_uint32_range) n) = some state')
    (hout : lexGoto state' (inChar source j) = .inr term) :
    Loop.run (lexRound source) (n + 1) (state, inChar source k, k) = some (term, j) := by
  induction n generalizing state k with
  | zero =>
      obtain rfl := Option.some.inj hscan
      obtain ⟨hc, htail⟩ := hwalks.tail hk
      obtain ⟨rfl, -⟩ := htail
      have hj : ((k + 1) % c_uint32_range + 0) % c_uint32_range = (k + 1) % c_uint32_range := by
        rw [Nat.add_zero, Nat.mod_mod]
      rw [hj] at hout ⊢
      refine Loop.run_done ?_ 0
      simp only [lexRound, if_neg hc, hout]
  | succ n ih =>
      obtain ⟨hc, htail⟩ := hwalks.tail hk
      rw [walked, scan, inChar_byte] at hscan
      split at hscan
      · rename_i state₁ hgoto
        have hnext : Loop.Next (lexRound source) (state, inChar source k, k)
            (state₁, inChar source ((k + 1) % c_uint32_range), (k + 1) % c_uint32_range) := by
          simp only [Loop.Next, lexRound, if_neg hc, hgoto]
        rw [Loop.run_next hnext]
        exact ih (Nat.mod_lt _ c_uint32_range_pos) htail hscan
      · cases hscan

/-- **A lexeme is recognised** where its automaton stops, also over the end of the lap. -/
theorem recognize_walked (hi : i < c_uint32_range) (hwalks : Walks source i (n + 1) j)
    (hscan : scan .state0 (walked source i (n + 1)) = some state) (hout : lexGoto state (inChar source j) = .inr term)
    (hfuel : n < fuel) : recognizeTerminal fuel source i = some (term, j) := by
  rw [walked, scan, inChar_byte] at hscan
  unfold recognizeTerminal
  split at hscan
  · exact Loop.run_mono hfuel (run_of_walked hi hwalks hscan hout)
  · cases hscan

theorem run_none (hk : k < c_uint32_range) (h : Loop.run (lexRound source) n (state, inChar source k, k) = none) :
    Walks source k n ((k + n) % c_uint32_range) ∧
      ∃ state', scan state (walked source ((k + 1) % c_uint32_range) n) = some state' := by
  induction n generalizing state k with
  | zero =>
      rw [Nat.add_zero, Nat.mod_eq_of_lt hk]
      exact ⟨.refl hk, state, rfl⟩
  | succ n ih =>
      have hlt : (k + 1) % c_uint32_range < c_uint32_range := Nat.mod_lt _ c_uint32_range_pos
      by_cases hc : inChar source k = 0
      · simp only [Loop.run, lexRound, if_pos hc] at h
        cases h
      · cases hgoto : lexGoto state (inChar source ((k + 1) % c_uint32_range)) with
        | inl state₁ =>
            have hnext : Loop.Next (lexRound source) (state, inChar source k, k)
                (state₁, inChar source ((k + 1) % c_uint32_range), (k + 1) % c_uint32_range) := by
              simp only [Loop.Next, lexRound, if_neg hc, hgoto]
            rw [Loop.run_next hnext] at h
            obtain ⟨hwalks, state', hscan⟩ := ih hlt h
            rw [Nat.mod_add_mod, Nat.add_assoc, Nat.add_comm 1 n] at hwalks
            refine ⟨?_, state', ?_⟩
            · rw [Nat.add_comm n 1]
              rw [Nat.add_comm n 1] at hwalks
              exact (walks_one hk hc).trans hwalks
            · rw [walked, scan, inChar_byte, hgoto]
              exact hscan
        | inr term =>
            have hdone : lexRound source (state, inChar source k, k) =
                some (.inr (term, (k + 1) % c_uint32_range)) := by
              simp only [lexRound, if_neg hc, hgoto]
            rw [Loop.run_done hdone] at h
            cases h

/-- **Where the lexer does not stop** it has walked as far as its fuel allows, and its automaton goes on. -/
theorem recognize_none (hi : i < c_uint32_range) (h : recognizeTerminal fuel source i = none) :
    Walks source i fuel ((i + fuel) % c_uint32_range) ∧
      ∃ state, scan .state0 (walked source i (fuel + 1)) = some state := by
  unfold recognizeTerminal at h
  split at h
  · rename_i state hgoto
    obtain ⟨hwalks, state', hscan⟩ := run_none hi h
    refine ⟨hwalks, state', ?_⟩
    rw [walked, scan, inChar_byte, hgoto]
    exact hscan
  · cases h

theorem run_alive (hk : k < c_uint32_range) (hwalks : Walks source k n j)
    (hscan : scan state (walked source ((k + 1) % c_uint32_range) n) = some state') :
    Loop.run (lexRound source) n (state, inChar source k, k) = none := by
  induction n generalizing state k with
  | zero => rfl
  | succ n ih =>
      obtain ⟨hc, htail⟩ := hwalks.tail hk
      rw [walked, scan, inChar_byte] at hscan
      split at hscan
      · rename_i state₁ hgoto
        have hnext : Loop.Next (lexRound source) (state, inChar source k, k)
            (state₁, inChar source ((k + 1) % c_uint32_range), (k + 1) % c_uint32_range) := by
          simp only [Loop.Next, lexRound, if_neg hc, hgoto]
        rw [Loop.run_next hnext]
        exact ih (Nat.mod_lt _ c_uint32_range_pos) htail hscan
      · cases hscan

/-- While the automaton goes on the lexer does. -/
theorem recognize_alive (hi : i < c_uint32_range) (hwalks : Walks source i fuel j)
    (hscan : scan .state0 (walked source i (fuel + 1)) = some state) : recognizeTerminal fuel source i = none := by
  rw [walked, scan, inChar_byte] at hscan
  unfold recognizeTerminal
  split at hscan
  · exact run_alive hi hwalks hscan
  · cases hscan

/-- White space is retrieved as a whole. -/
theorem skip_retrieved {tok : Token} (hi : i < c_uint32_range) (h : nextTerminal source fuel i = some (.ok (tok, j)))
    (hs : tok.term = 12) : isSkip (UInt8.ofNat (inChar source i)) = true ∧
      isSkip (UInt8.ofNat (inChar source j)) = false := by
  rcases recognized_walked hi (recognizes_of_next h).1 with ⟨hend, -, -⟩ | ⟨n, state, hwalks, hscan, hterm, hout⟩
  · omega
  · rw [hs] at hterm
    have hlabel : ∀ state, lexTerminal state = some 12 → state = .state15 := by
      intro state
      cases state <;> simp [lexTerminal]
    obtain rfl := hlabel state hterm
    refine ⟨(scan_text hscan (hwalks.no_nul hi)).2 _ (by rw [walked]; exact List.mem_cons_self), ?_⟩
    by_contra hskip
    rw [Bool.not_eq_false] at hskip
    have hgoto := (lexGoto_skip hskip).2
    rw [inChar_byte, hout] at hgoto
    cases hgoto

/-- The cursor stays in range, and moves on for every token that is not the end of the input. -/
theorem supplies_far (h : Supplies (nextTerminal source fuel) i toks k) (hi : i < c_uint32_range)
    (hend : ∀ t ∈ toks, t.term ≠ 13) : ∃ n, toks.length ≤ n ∧ Walks source i n k := by
  induction h with
  | nil => exact ⟨0, Nat.le_refl 0, .refl hi⟩
  | skip hnext _ _ ih =>
      obtain ⟨-, -, n, hwalks, -⟩ := next_walks hi hnext
      obtain ⟨m, hm, hwalks'⟩ := ih hwalks.lt hend
      exact ⟨n + m, by omega, hwalks.trans hwalks'⟩
  | cons hnext _ _ ih =>
      obtain ⟨htok, hend⟩ := List.forall_mem_cons.mp hend
      rcases recognized_walked hi (recognizes_of_next hnext).1 with ⟨h13, -, -⟩ | ⟨n, -, hwalks, -⟩
      · exact absurd h13 htok
      · obtain ⟨m, hm, hwalks'⟩ := ih hwalks.lt hend
        exact ⟨n + 1 + m, by rw [List.length_cons]; omega, hwalks.trans hwalks'⟩

theorem supplies_lt (h : Supplies (nextTerminal source fuel) i toks k) (hi : i < c_uint32_range) :
    k < c_uint32_range := by
  induction h with
  | nil => exact hi
  | skip hnext _ _ ih | cons hnext _ _ ih =>
      obtain ⟨-, -, n, hwalks, -⟩ := next_walks hi hnext
      exact ih hwalks.lt

/-! ## The lap -/

section Cyclic

variable (hc : Cyclic source)
include hc

theorem Cyclic.length_lap : (lap source).length = c_uint32_range := by
  rw [lap, List.length_take, Nat.min_eq_left hc.length_le]

theorem Cyclic.lap_ne_nil : lap source ≠ [] := by
  intro hnil
  have hlen := hc.length_lap
  rw [hnil] at hlen
  exact absurd hlen (by decide)

theorem Cyclic.getElem (hk : k < c_uint32_range) : (lap source)[k]? = some (UInt8.ofNat (inChar source k)) := by
  have hlt : k < source.length := Nat.lt_of_lt_of_le hk hc.length_le
  rw [lap, List.getElem?_take_of_lt hk, inChar, List.getElem?_eq_getElem hlt, UInt8.ofNat_toNat]

theorem Cyclic.inChar_ne (hk : k < c_uint32_range) : inChar source k ≠ 0 := by
  intro hnul
  have hmem := List.mem_of_getElem? (hc.getElem hk)
  exact hc.no_nul _ hmem (by rw [hnul]; rfl)

/-- The cursor walks as far as one likes. -/
theorem Cyclic.walks (i n : Nat) : Walks source i n ((i + n) % c_uint32_range) :=
  ⟨rfl, fun _ _ => hc.inChar_ne (Nat.mod_lt _ c_uint32_range_pos)⟩

/-- Within the lap the cursor walks over a part of it. -/
theorem Cyclic.walked_eq (h : i + n ≤ c_uint32_range) : walked source i n = ((lap source).drop i).take n := by
  induction n generalizing i with
  | zero => rw [walked, List.take_zero]
  | succ n ih =>
      have hget := hc.getElem (show i < c_uint32_range by omega)
      obtain ⟨hlt, hi⟩ := List.getElem?_eq_some_iff.mp hget
      rw [List.drop_eq_getElem_cons hlt, List.take_succ_cons, hi, walked]
      rcases Nat.lt_or_ge (i + 1) c_uint32_range with hlt' | hge
      · rw [Nat.mod_eq_of_lt hlt', ih (by omega)]
      · -- the last byte of the lap
        obtain rfl : n = 0 := by omega
        rw [walked, List.take_zero]

theorem Cyclic.walked_drop (hi : i ≤ c_uint32_range) : walked source i (c_uint32_range - i) = (lap source).drop i := by
  rw [hc.walked_eq (by omega), List.take_of_length_le]
  rw [List.length_drop, hc.length_lap]

theorem Cyclic.walked_lap : walked source 0 c_uint32_range = lap source := hc.walked_drop (Nat.zero_le _)

/-- From inside the lap on, once around. -/
theorem Cyclic.walked_over (hi : i < c_uint32_range) (n : Nat) :
    walked source i (c_uint32_range - i + n) = (lap source).drop i ++ walked source 0 n := by
  rw [walked_append source hi, hc.walked_drop (Nat.le_of_lt hi),
    show i + (c_uint32_range - i) = c_uint32_range by omega, Nat.mod_self]

end Cyclic

/-! ## Endless lexemes -/

/-- The first lexeme of a lap like this goes on for ever: it is white space, a number, or a string whose closing quote
would be the opening one, which a backslash at the end of the lap escapes. -/
inductive Endless (u : StringT) : Prop
  | skips (hu : ∀ c ∈ u, isSkip c = true)
  | digits {d : UInt8} {ds : StringT} (hd : 0x31 ≤ d ∧ d ≤ 0x39) (hds : ∀ c ∈ ds, 0x30 ≤ c ∧ c ≤ 0x39)
      (hu : u = d :: ds)
  | string {items : List Item} (hitems : ∀ item ∈ items, item.Lexes) (hu : u = 0x22 :: (itemsText items ++ [0x5c]))

/-- What every character on the way keeps, and what that says of the characters. -/
theorem scan_forall {P : LexState → Prop} {Q : UInt8 → Prop}
    (hstep : ∀ state c state', P state → lexGoto state c.toNat = .inl state' → P state' ∧ Q c) {cs : StringT}
    (hP : P state) (h : scan state cs = some state') : P state' ∧ ∀ c ∈ cs, Q c := by
  induction cs generalizing state with
  | nil =>
      obtain rfl := Option.some.inj h
      exact ⟨hP, by simp⟩
  | cons c cs ih =>
      simp only [scan] at h
      split at h
      · rename_i state₁ hgoto
        obtain ⟨hP₁, hQ⟩ := hstep state c state₁ hP hgoto
        obtain ⟨hP', hcs⟩ := ih hP₁ h
        exact ⟨hP', List.forall_mem_cons.mpr ⟨hQ, hcs⟩⟩
      · cases h

/-- **An endless lexeme** leads around the lap, and around again to the same label. -/
theorem Endless.around (h : Endless u) (hne : u ≠ []) :
    ∃ state, scan .state0 u = some state ∧ scan state u = some state := by
  cases h with
  | skips hu =>
      have hskips := scan_skips hne hu
      refine ⟨.state15, hskips, ?_⟩
      -- white space leads to the same label from the start and from its own
      have hdouble : scan .state0 (u ++ u) = some .state15 :=
        scan_skips (by simpa using hne) (List.forall_mem_append.mpr ⟨hu, hu⟩)
      rwa [scan_append, hskips] at hdouble
  | digits hd hds hu =>
      have hdigit : ∀ c : UInt8, 0x30 ≤ c ∧ c ≤ 0x39 → lexGoto .state6 c.toNat = .inl .state6 :=
        forall_byte (by decide +kernel)
      have hfirst : ∀ c : UInt8, 0x31 ≤ c ∧ c ≤ 0x39 →
          lexGoto .state0 c.toNat = .inl .state6 ∧ lexGoto .state6 c.toNat = .inl .state6 :=
        forall_byte (by decide +kernel)
      obtain ⟨hstart, hloop⟩ := hfirst _ hd
      refine ⟨.state6, ?_, ?_⟩
      · rw [hu, Ccljson.scan, hstart]
        exact scan_digits hdigit hds
      · rw [hu, Ccljson.scan, hloop]
        exact scan_digits hdigit hds
  | @string items hitems hu =>
      have hbody : scan .state2 (itemsText items ++ [0x5c]) = some .state17 := by
        rw [scan_append, scan_items hitems]
        rfl
      have hquote : lexGoto .state0 (0x22 : UInt8).toNat = .inl .state2 ∧
          lexGoto .state17 (0x22 : UInt8).toNat = .inl .state2 := by decide
      refine ⟨.state17, ?_, ?_⟩
      · rw [hu, Ccljson.scan, hquote.1]
        exact hbody
      · rw [hu, Ccljson.scan, hquote.2]
        exact hbody

/-- The condition of a label that a character meets. -/
theorem lexGoto_arm {in_char : Nat} (h : lexGoto state in_char = .inl state') :
    ∃ arm ∈ lexArms state, arm.2.2 = state' ∧ arm.1 ≤ in_char ∧ in_char < arm.2.1 := by
  rcases lexGoto_cases state in_char with ⟨arm, harm, hgoto, hle, hlt⟩ | hgoto
  · rw [hgoto] at h
    exact ⟨arm, harm, Sum.inl.inj h, hle, hlt⟩
  · rw [hgoto] at h
    cases h

/-- Behind the decimal point or the letter of the exponent no other decimal point is read. -/
theorem no_point_behind {cs : StringT} (hstate : state ∈ [.state18, .state19, .state24, .state25])
    (h : scan state cs = some state') : 0x2e ∉ cs := by
  have harms : ∀ state ∈ ([.state18, .state19, .state24, .state25] : List LexState), ∀ arm ∈ lexArms state,
      arm.2.2 ∈ ([.state18, .state19, .state24, .state25] : List LexState) ∧ ¬ (arm.1 ≤ 46 ∧ 46 < arm.2.1) := by
    decide
  have hall := (scan_forall (P := fun state => state ∈ [.state18, .state19, .state24, .state25])
    (Q := fun c => c ≠ 0x2e) ?_ hstate h).2
  · intro hmem
    exact hall _ hmem rfl
  · intro state c state' hstate hgoto
    obtain ⟨arm, harm, rfl, hle, hlt⟩ := lexGoto_arm hgoto
    obtain ⟨htarget, hpoint⟩ := harms state hstate arm harm
    refine ⟨htarget, ?_⟩
    rintro rfl
    exact hpoint ⟨hle, hlt⟩

/-- Behind the letter of the exponent no other such letter is read. -/
theorem no_exponent_behind {cs : StringT} (hstate : state ∈ [.state19, .state24, .state25])
    (h : scan state cs = some state') : 0x65 ∉ cs ∧ 0x45 ∉ cs := by
  have harms : ∀ state ∈ ([.state19, .state24, .state25] : List LexState), ∀ arm ∈ lexArms state,
      arm.2.2 ∈ ([.state19, .state24, .state25] : List LexState) ∧ ¬ (arm.1 ≤ 101 ∧ 101 < arm.2.1) ∧
        ¬ (arm.1 ≤ 69 ∧ 69 < arm.2.1) := by
    decide
  have hall := (scan_forall (P := fun state => state ∈ [.state19, .state24, .state25])
    (Q := fun c => c ≠ 0x65 ∧ c ≠ 0x45) ?_ hstate h).2
  · constructor
    · intro hmem
      exact (hall _ hmem).1 rfl
    · intro hmem
      exact (hall _ hmem).2 rfl
  · intro state c state' hstate hgoto
    obtain ⟨arm, harm, rfl, hle, hlt⟩ := lexGoto_arm hgoto
    obtain ⟨htarget, hlower, hupper⟩ := harms state hstate arm harm
    refine ⟨htarget, ?_, ?_⟩
    · rintro rfl
      exact hlower ⟨hle, hlt⟩
    · rintro rfl
      exact hupper ⟨hle, hlt⟩

theorem word_length (h : state.word = some u) : u.length ≤ 5 := by
  cases state <;> first | (obtain rfl := Option.some.inj h; decide) | cases h

/-- Nothing follows a label without conditions. -/
theorem scan_no_arms (hstate : lexArms state = []) (hne : u ≠ []) : scan state u = none := by
  obtain ⟨c, cs, rfl⟩ := List.exists_cons_of_ne_nil hne
  rw [scan, lexGoto, hstate]
  rfl

/-- **A lexeme that goes on around a lap, and around again**, is endless. -/
theorem Endless.of_around (hfirst : scan .state0 u = some state) (hagain : scan state u = some state')
    (hnul : ∀ c ∈ u, c ≠ 0) (hlen : 5 < u.length) : Endless u := by
  have htext : state.Text u := scan_text hfirst hnul
  have hquote : ∀ state ∈ ([.state23, .state29, .state33, .state35] : List LexState),
      lexGoto state (0x22 : UInt8).toNat = .inr none := by decide
  have hhex : ∀ {n : Nat}, InUnicode n u →
      state ∈ ([.state23, .state29, .state33, .state35] : List LexState) → False := by
    rintro n ⟨items, ds, -, -, -, rfl⟩ hstate
    rw [Ccljson.scan, hquote state hstate] at hagain
    cases hagain
  cases state with
  | state15 => exact .skips htext.2
  | state17 =>
      obtain ⟨items, hitems, hu⟩ := htext
      exact .string hitems hu
  | state2 =>
      -- the opening quote closes the string
      obtain ⟨items, -, rfl⟩ := htext
      have hclose : lexGoto .state2 (0x22 : UInt8).toNat = .inl .state16 := by rfl
      rw [Ccljson.scan, hclose] at hagain
      have hrest : itemsText items ≠ [] := by
        intro hnil
        simp [hnil] at hlen
      have hclosed : scan .state16 (itemsText items) = none := scan_no_arms rfl hrest
      exact absurd (hclosed.symm.trans hagain) (by simp)
  | state23 => exact (hhex htext (by decide)).elim
  | state29 => exact (hhex htext (by decide)).elim
  | state33 => exact (hhex htext (by decide)).elim
  | state35 => exact (hhex htext (by decide)).elim
  | state16 =>
      have hne : u ≠ [] := List.ne_nil_of_length_pos (by omega)
      rw [scan_no_arms rfl hne] at hagain
      cases hagain
  | state5 =>
      obtain ⟨minus, hminus, rfl⟩ := htext
      rcases hminus with rfl | rfl <;> simp at hlen
  | state6 =>
      obtain ⟨minus, d, ds, hminus, hd, hds, rfl⟩ := htext
      rcases hminus with rfl | rfl
      · exact .digits hd hds rfl
      · cases hagain
  | state18 =>
      obtain ⟨m, ds, -, -, rfl⟩ := htext
      exact (no_point_behind (by decide) hagain (by simp)).elim
  | state19 =>
      obtain ⟨frac, m, e, -, he, rfl⟩ := htext
      rcases he with rfl | rfl
      · exact ((no_exponent_behind (by decide) hagain).1 (by simp)).elim
      · exact ((no_exponent_behind (by decide) hagain).2 (by simp)).elim
  | state24 =>
      obtain ⟨frac, m, e, sign, -, he, -, rfl⟩ := htext
      rcases he with rfl | rfl
      · exact ((no_exponent_behind (by decide) hagain).1 (by simp)).elim
      · exact ((no_exponent_behind (by decide) hagain).2 (by simp)).elim
  | state25 =>
      obtain ⟨frac, m, e, sign, ds, -, he, -, -, rfl⟩ := htext
      rcases he with rfl | rfl
      · exact ((no_exponent_behind (by decide) hagain).1 (by simp)).elim
      · exact ((no_exponent_behind (by decide) hagain).2 (by simp)).elim
  | _ => exact absurd (word_length htext) (by omega)

section Cyclic

variable (hc : Cyclic source)
include hc

/-- On an endless lexeme the automaton goes on from the start, however far. -/
theorem Endless.alive (h : Endless (lap source)) (n : Nat) :
    ∃ state, scan .state0 (walked source 0 n) = some state := by
  obtain ⟨state, hfirst, hagain⟩ := h.around hc.lap_ne_nil
  -- whole laps lead to the label of the lexeme, and what is left over is the beginning of another
  have hlaps : ∀ m, scan .state0 (walked source 0 ((m + 1) * c_uint32_range)) = some state := by
    intro m
    induction m with
    | zero => rw [Nat.zero_add, Nat.one_mul, hc.walked_lap, hfirst]
    | succ m ih =>
        rw [Nat.succ_mul, walked_append source c_uint32_range_pos, Nat.zero_add, Nat.mul_mod_left, hc.walked_lap,
          scan_append, ih, Option.bind_some, hagain]
  have hle : n ≤ (n + 1) * c_uint32_range :=
    Nat.le_trans (Nat.le_succ n) (Nat.le_mul_of_pos_right _ c_uint32_range_pos)
  have hwhole := hlaps n
  rw [show (n + 1) * c_uint32_range = n + ((n + 1) * c_uint32_range - n) by omega,
    walked_append source c_uint32_range_pos, scan_append] at hwhole
  obtain ⟨state', hn, -⟩ := Option.bind_eq_some_iff.mp hwhole
  exact ⟨state', hn⟩

/-- **Endless lexemes.** They are those that the lexer never ends. -/
theorem endless_iff (hfuel : 2 * c_uint32_range ≤ fuel) :
    recognizeTerminal fuel source 0 = none ↔ Endless (lap source) := by
  constructor
  · intro h
    obtain ⟨-, state, hscan⟩ := recognize_none c_uint32_range_pos h
    rw [show fuel + 1 = c_uint32_range + (c_uint32_range + (fuel + 1 - 2 * c_uint32_range)) by omega,
      walked_append source c_uint32_range_pos, scan_append, hc.walked_lap] at hscan
    obtain ⟨state₁, hfirst, hscan⟩ := Option.bind_eq_some_iff.mp hscan
    rw [Nat.zero_add, Nat.mod_self, walked_append source c_uint32_range_pos, scan_append, hc.walked_lap] at hscan
    obtain ⟨state₂, hagain, -⟩ := Option.bind_eq_some_iff.mp hscan
    exact .of_around hfirst hagain hc.no_nul (by rw [hc.length_lap]; decide)
  · intro h
    obtain ⟨state, hscan⟩ := h.alive hc (fuel + 1)
    exact recognize_alive c_uint32_range_pos (hc.walks 0 fuel) hscan

end Cyclic

/-! ## Lexemes of a lap -/

/-- Lexemes of the lap `u` from `i` to `j`, with their tokens. Each ends where what comes behind it does not go on with
it, and behind the lap comes the lap again. -/
inductive Tiled (u : StringT) : Nat → List Token → Nat → Prop
  | nil {i : Nat} : Tiled u i [] i
  | cons {i j t : Nat} {lexeme rest : StringT} {state : LexState} {toks : List Token}
      (hdrop : u.drop i = lexeme ++ rest) (hne : lexeme ≠ []) (hscan : scan .state0 lexeme = some state)
      (hout : lexGoto state ((rest ++ u).headD 0).toNat = .inr (some t)) (h : Tiled u (i + lexeme.length) toks j) :
      Tiled u i ((if t = 12 then [] else [⟨t, i, (i + lexeme.length) % c_uint32_range⟩]) ++ toks) j

/-- A token takes at least a byte. -/
theorem Tiled.length_le (h : Tiled u i toks j) : i + toks.length ≤ j := by
  induction h with
  | nil => exact Nat.le_refl _
  | cons _ hne _ _ _ ih =>
      have hpos := List.length_pos_of_ne_nil hne
      rw [List.length_append]
      split
      · rw [List.length_nil]
        omega
      · rw [List.length_singleton]
        omega

/-- The lexeme recognised at `i` goes on over the end of the lap. -/
structure Crosses (source : StringT) (fuel i : Nat) (tok : Token) (j : Nat) : Prop where
  next : nextTerminal source fuel i = some (.ok (tok, j))
  lexeme : ∃ n state, c_uint32_range < i + n ∧ j = (i + n) % c_uint32_range ∧
    scan .state0 (walked source i n) = some state ∧ lexTerminal state = some tok.term

section Cyclic

variable (hc : Cyclic source)
include hc

/-- The lexeme that stands at `i` in the lap, and the character behind it. -/
theorem Cyclic.lexeme_at (hdrop : (lap source).drop i = lexeme ++ rest) (hne : lexeme ≠ []) :
    i < c_uint32_range ∧ i + lexeme.length ≤ c_uint32_range ∧ walked source i lexeme.length = lexeme ∧
      ((rest ++ lap source).headD 0).toNat = inChar source ((i + lexeme.length) % c_uint32_range) := by
  have hlen := congrArg List.length hdrop
  rw [List.length_drop, hc.length_lap, List.length_append] at hlen
  have hpos := List.length_pos_of_ne_nil hne
  refine ⟨by omega, by omega, ?_, ?_⟩
  · rw [hc.walked_eq (by omega), hdrop, List.take_left]
  · have hrest : rest = (lap source).drop (i + lexeme.length) := by
      rw [← List.drop_drop, hdrop, List.drop_left]
    rw [List.headD_eq_head?_getD, List.head?_append, hrest, List.head?_drop, List.head?_eq_getElem?]
    rcases Nat.lt_or_ge (i + lexeme.length) c_uint32_range with hlt | hge
    · rw [hc.getElem hlt, Nat.mod_eq_of_lt hlt, Option.some_or, Option.getD_some, inChar_byte]
    · have hend : i + lexeme.length = c_uint32_range := by omega
      have hout : (lap source)[c_uint32_range]? = none := List.getElem?_eq_none (Nat.le_of_eq hc.length_lap)
      rw [hend, Nat.mod_self, hout, hc.getElem c_uint32_range_pos, Option.none_or, Option.getD_some, inChar_byte]

/-- **The lexer takes a lap apart** as its lexemes are laid out. -/
theorem Tiled.supplies (h : Tiled (lap source) i toks j) (hfuel : c_uint32_range ≤ fuel) :
    Supplies (nextTerminal source fuel) (i % c_uint32_range) toks (j % c_uint32_range) := by
  induction h with
  | nil => exact .nil
  | @cons i j t lexeme rest state toks hdrop hne hscan hout _ ih =>
      obtain ⟨hi, hle, hwalked, hbehind⟩ := hc.lexeme_at hdrop hne
      have hpos := List.length_pos_of_ne_nil hne
      obtain ⟨n, hn⟩ : ∃ n, lexeme.length = n + 1 := ⟨lexeme.length - 1, by omega⟩
      rw [hbehind] at hout
      have hrec : recognizeTerminal fuel source i = some (some t, (i + lexeme.length) % c_uint32_range) := by
        refine recognize_walked (n := n) hi ?_ ?_ hout (by omega)
        · rw [← hn]
          exact hc.walks i _
        · rw [← hn, hwalked, hscan]
      rw [Nat.mod_eq_of_lt hi]
      by_cases hskip : t = 12
      · rw [if_pos hskip]
        exact .skip (next_of_recognize hrec) hskip ih
      · rw [if_neg hskip]
        exact .cons (next_of_recognize hrec) hskip ih

/-- A terminal is retrieved for a lexeme of the lap, or for one that goes on over its end. -/
theorem Cyclic.retrieved {tok : Token} (hi : i < c_uint32_range)
    (hnext : nextTerminal source fuel i = some (.ok (tok, j))) :
    (∃ lexeme rest state, (lap source).drop i = lexeme ++ rest ∧ lexeme ≠ [] ∧ scan .state0 lexeme = some state ∧
      lexGoto state ((rest ++ lap source).headD 0).toNat = .inr (some tok.term) ∧
      j = (i + lexeme.length) % c_uint32_range ∧ i + lexeme.length ≤ c_uint32_range ∧ tok = ⟨tok.term, i, j⟩) ∨
    Crosses source fuel i tok j := by
  obtain ⟨hrec, htok⟩ := recognizes_of_next hnext
  rcases recognized_walked hi hrec with ⟨-, -, hnul⟩ | ⟨n, state, hwalks, hscan, hterm, hout⟩
  · exact absurd hnul (hc.inChar_ne hi)
  · have hj : j = (i + (n + 1)) % c_uint32_range := hwalks.1
    rcases Nat.lt_or_ge c_uint32_range (i + (n + 1)) with hgt | hle
    · exact Or.inr ⟨hnext, n + 1, state, hgt, hj, hscan, hterm⟩
    · have hdrop : (lap source).drop i = walked source i (n + 1) ++ (lap source).drop (i + (n + 1)) := by
        rw [hc.walked_eq hle, ← List.drop_drop, List.take_append_drop]
      have hne : walked source i (n + 1) ≠ [] := by
        rw [walked]
        exact List.cons_ne_nil _ _
      obtain ⟨-, -, -, hbehind⟩ := hc.lexeme_at hdrop hne
      rw [length_walked, ← hj] at hbehind
      refine Or.inl ⟨_, _, state, hdrop, hne, hscan, by rw [hbehind, hout], ?_, ?_, htok⟩
      · rw [length_walked, hj]
      · rw [length_walked]
        exact hle

/-- What the lexer retrieves from `i` on is laid out in the lap, until the lap ends or a lexeme goes on over its end. -/
def TakenApart (source : StringT) (fuel i : Nat) (toks : List Token) (k : Nat) : Prop :=
  ∃ front back j, toks = front ++ back ∧ Tiled (lap source) i front j ∧ j ≤ c_uint32_range ∧
    Supplies (nextTerminal source fuel) (j % c_uint32_range) back k ∧
    (back = [] ∨ j = c_uint32_range ∨ ∃ tok l, Crosses source fuel j tok l ∧ j < c_uint32_range)

/-- One more terminal in front. -/
theorem TakenApart.retrieve {tok : Token} (hi : i < c_uint32_range)
    (hnext : nextTerminal source fuel i = some (.ok (tok, j))) (hrest : Supplies (nextTerminal source fuel) j toks k)
    (hapart : j < c_uint32_range → TakenApart source fuel j toks k) :
    TakenApart source fuel i ((if tok.term = 12 then [] else [tok]) ++ toks) k := by
  rcases hc.retrieved hi hnext with ⟨lexeme, rest, state, hdrop, hne, hscan, hout, hj, hle, htok⟩ | hcross
  · rw [hj] at htok
    rcases Nat.lt_or_ge (i + lexeme.length) c_uint32_range with hlt | hge
    · rw [Nat.mod_eq_of_lt hlt] at hj
      obtain ⟨front, back, l, rfl, htiled, hl, hback, hend⟩ := hapart (by omega)
      have hcons := Tiled.cons hdrop hne hscan hout (hj ▸ htiled)
      rw [← htok] at hcons
      exact ⟨_, back, l, (List.append_assoc _ _ _).symm, hcons, hl, hback, hend⟩
    · -- the lap ends with this lexeme
      have hend : i + lexeme.length = c_uint32_range := by omega
      have hcons := Tiled.cons hdrop hne hscan hout .nil
      rw [← htok, List.append_nil] at hcons
      rw [hj] at hrest
      exact ⟨_, toks, _, rfl, hcons, hle, hrest, Or.inr (Or.inl hend)⟩
  · refine ⟨[], _, i, rfl, .nil, Nat.le_of_lt hi, ?_, Or.inr (Or.inr ⟨tok, j, hcross, hi⟩)⟩
    rw [Nat.mod_eq_of_lt hi]
    by_cases hskip : tok.term = 12
    · rw [if_pos hskip]
      exact .skip hnext hskip hrest
    · rw [if_neg hskip]
      exact .cons hnext hskip hrest

/-- **The lexer takes the lap apart** into lexemes that are laid out in it. -/
theorem Cyclic.taken_apart (h : Supplies (nextTerminal source fuel) i toks k) (hi : i < c_uint32_range) :
    TakenApart source fuel i toks k := by
  induction h with
  | @nil i =>
      refine ⟨[], [], i, rfl, .nil, Nat.le_of_lt hi, ?_, Or.inl rfl⟩
      rw [Nat.mod_eq_of_lt hi]
      exact .nil
  | skip hnext hs hrest ih =>
      have happart := TakenApart.retrieve hc hi hnext hrest ih
      rwa [if_pos hs] at happart
  | cons hnext hs hrest ih =>
      have happart := TakenApart.retrieve hc hi hnext hrest ih
      rwa [if_neg hs] at happart

end Cyclic

/-! ## Long lexemes -/

/-- The lap begins with white space or an opening brace, and is not all white space. -/
structure Opens (u : StringT) : Prop where
  head : ∃ c cs, u = c :: cs ∧ (isSkip c = true ∨ c = 0x7b)
  not_skips : ¬ ∀ c ∈ u, isSkip c = true

/-- The label of white space reads white space only. -/
theorem skips_of_scan {cs : StringT} (h : scan .state15 cs = some state) : ∀ c ∈ cs, isSkip c = true := by
  refine (scan_forall (P := fun state => state = .state15) (Q := fun c => isSkip c = true) ?_ rfl h).2
  rintro state c state' rfl hgoto
  cases hskip : isSkip c with
  | true =>
      rw [(lexGoto_skip hskip).2] at hgoto
      exact ⟨(Sum.inl.inj hgoto).symm, rfl⟩
  | false =>
      rw [(lexGoto_not_skip hskip).2] at hgoto
      cases hgoto

/-- The labels inside a string, and that of its end. -/
def stringLabels : List LexState :=
  [.state2, .state16, .state17, .state23, .state29, .state33, .state35]

/-- A string is left at its end only. -/
theorem scan_stringLabels {cs : StringT} (hstate : state ∈ stringLabels) (h : scan state cs = some state') :
    state' ∈ stringLabels := by
  have harms : ∀ state ∈ stringLabels, ∀ arm ∈ lexArms state, arm.2.2 ∈ stringLabels := by decide
  refine (scan_forall (P := fun state => state ∈ stringLabels) (Q := fun _ => True) ?_ hstate h).1
  intro state c state' hstate hgoto
  obtain ⟨arm, harm, rfl, -⟩ := lexGoto_arm hgoto
  exact ⟨harms state hstate arm harm, trivial⟩

/-- Inside a string a quote closes it, or is escaped. -/
theorem lexGoto_quote (hstate : state ∈ stringLabels) (h : lexGoto state 34 = .inl state') :
    state' = .state16 ∨ state = .state17 := by
  have harms : ∀ state ∈ stringLabels, state = .state17 ∨
      ∀ arm ∈ lexArms state, arm.1 ≤ 34 → 34 < arm.2.1 → arm.2.2 = .state16 := by decide
  obtain ⟨arm, harm, rfl, hle, hlt⟩ := lexGoto_arm h
  rcases harms state hstate with hescape | hclose
  · exact Or.inr hescape
  · exact Or.inl (hclose arm harm hle hlt)

theorem scan_ne_start {cs : StringT} (hne : cs ≠ []) (h : scan .state0 cs = some state) : state ≠ .state0 := by
  obtain ⟨cs, c, rfl⟩ := List.eq_nil_or_concat cs |>.resolve_left hne
  rw [List.concat_eq_append, scan_append] at h
  obtain ⟨state₁, -, hlast⟩ := Option.bind_eq_some_iff.mp h
  rw [scan] at hlast
  split at hlast
  · rename_i state₂ hgoto
    obtain rfl := Option.some.inj hlast
    exact ne_start hgoto
  · cases hlast

/-- Only white space and strings go on over white space or an opening brace. -/
theorem scan_over {front back : StringT} (hne : front ≠ []) (hc : isSkip c = true ∨ c = 0x7b)
    (h : scan .state0 (front ++ c :: back) = some state) :
    ∃ state₁, (state₁ = .state15 ∨ state₁ = .state2) ∧ scan .state0 front = some state₁ ∧
      scan state₁ (c :: back) = some state := by
  have harms : ∀ state : LexState, state = .state0 ∨ (state = .state15 ∨ state = .state2) ∨
      ∀ arm ∈ lexArms state, 32 < arm.1 ∧ arm.2.1 ≤ 123 := by
    intro state
    cases state <;> decide
  have hchar : c.toNat ≤ 32 ∨ c.toNat = 123 := by
    rcases hc with hskip | rfl
    · simp [isSkip, UInt8.le_iff_toNat_le, UInt8.lt_iff_toNat_lt, ← UInt8.toNat_inj] at hskip
      omega
    · exact Or.inr rfl
  rw [scan_append] at h
  obtain ⟨state₁, hfront, hback⟩ := Option.bind_eq_some_iff.mp h
  refine ⟨state₁, ?_, hfront, hback⟩
  rcases harms state₁ with hstart | hover | hlow
  · exact absurd hstart (scan_ne_start hne hfront)
  · exact hover
  · rw [scan] at hback
    split at hback
    · rename_i state₂ hgoto
      obtain ⟨arm, harm, -, hle, hlt⟩ := lexGoto_arm hgoto
      have := hlow arm harm
      omega
    · cases hback

section Cyclic

variable (hc : Cyclic source)
include hc

theorem Cyclic.no_nul_drop (i : Nat) : ∀ c ∈ (lap source).drop i, c ≠ 0 := fun c hmem =>
  hc.no_nul c (List.mem_of_mem_drop hmem)

theorem Cyclic.drop_ne_nil (hi : i < c_uint32_range) : (lap source).drop i ≠ [] := by
  intro hnil
  have hlen := congrArg List.length hnil
  rw [List.length_drop, hc.length_lap, List.length_nil] at hlen
  omega

/-- A lexeme that goes on over the end of the lap. -/
theorem Opens.over (hopens : Opens (lap source)) (hi : i < c_uint32_range) (hn : c_uint32_range < i + n)
    (h : scan .state0 (walked source i n) = some state) :
    ∃ state₁, (state₁ = .state15 ∨ state₁ = .state2) ∧ scan .state0 ((lap source).drop i) = some state₁ ∧
      scan state₁ (walked source 0 (i + n - c_uint32_range)) = some state := by
  obtain ⟨c, cs, hlap, hhead⟩ := hopens.head
  obtain ⟨m, hm⟩ : ∃ m, i + n - c_uint32_range = m + 1 := ⟨i + n - c_uint32_range - 1, by omega⟩
  have hfirst : walked source 0 (m + 1) = c :: walked source ((0 + 1) % c_uint32_range) m := by
    have hget := hc.getElem c_uint32_range_pos
    rw [hlap] at hget
    rw [walked, ← Option.some.inj hget]
  rw [show n = c_uint32_range - i + (m + 1) by omega, hc.walked_over hi, hfirst] at h
  rw [hm, hfirst]
  exact scan_over (hc.drop_ne_nil hi) hhead h

/-- A string that stands in the lap begins with a quote. -/
theorem Cyclic.quote_of_scan (hi : i < c_uint32_range) (h : scan .state0 ((lap source).drop i) = some .state2) :
    inChar source i = 34 := by
  obtain ⟨items, -, hdrop⟩ := scan_text h (hc.no_nul_drop i)
  have hget := hc.getElem hi
  rw [← Nat.add_zero i, ← List.getElem?_drop, hdrop] at hget
  have hbyte := congrArg UInt8.toNat (Option.some.inj hget)
  rw [inChar_byte, Nat.add_zero] at hbyte
  exact hbyte.symm

/-- Where a lap of characters leads behind a backslash, the last of them is one. -/
theorem Cyclic.backslash_of_scan (hi : i < c_uint32_range)
    (h : scan .state0 (walked source i c_uint32_range) = some .state17) :
    inChar source ((i + (c_uint32_range - 1)) % c_uint32_range) = 92 := by
  have hnul : ∀ c ∈ walked source i c_uint32_range, c ≠ 0 := (hc.walks i c_uint32_range).no_nul hi
  obtain ⟨items, -, htext⟩ := scan_text h hnul
  have hlast : walked source i c_uint32_range = walked source i (c_uint32_range - 1) ++
      [UInt8.ofNat (inChar source ((i + (c_uint32_range - 1)) % c_uint32_range))] := by
    rw [← walked_snoc source hi, Nat.sub_add_cancel c_uint32_range_pos]
  rw [hlast, ← List.cons_append] at htext
  have hbyte := congrArg UInt8.toNat (List.cons.inj (List.append_inj' htext rfl).2).1
  rwa [inChar_byte] at hbyte

/-- The lap begins with no quote. -/
theorem Opens.ne_quote (hopens : Opens (lap source)) : inChar source 0 ≠ 34 := by
  intro hquote
  obtain ⟨c, cs, hlap, hhead⟩ := hopens.head
  have hget := hc.getElem c_uint32_range_pos
  rw [hlap] at hget
  have hfirst := congrArg UInt8.toNat (Option.some.inj hget)
  rw [inChar_byte, hquote] at hfirst
  obtain rfl : c = 34 := UInt8.toNat_inj.mp hfirst
  exact absurd hhead (by decide)

/-- **No lexeme is longer than a lap and a character** where the one before it does not end with a backslash: a string
is closed by its own quote. -/
theorem Opens.scan_le (hopens : Opens (lap source)) (hi : i < c_uint32_range)
    (hprev : 0 < i → inChar source ((i + (c_uint32_range - 1)) % c_uint32_range) ≠ 92)
    (h : scan .state0 (walked source i n) = some state) : n ≤ c_uint32_range + 1 := by
  by_contra hlong
  obtain ⟨m, rfl⟩ : ∃ m, n = c_uint32_range + (m + 2) := ⟨n - c_uint32_range - 2, by omega⟩
  obtain ⟨state₁, hlabel, hfront, hback⟩ := hopens.over hc hi (by omega) h
  have haround : walked source 0 (i + (c_uint32_range + (m + 2)) - c_uint32_range) =
      walked source 0 i ++ walked source i (m + 2) := by
    rw [show i + (c_uint32_range + (m + 2)) - c_uint32_range = i + (m + 2) by omega,
      walked_append source c_uint32_range_pos, Nat.zero_add, Nat.mod_eq_of_lt hi]
  have htake : walked source 0 i = (lap source).take i := by
    rw [hc.walked_eq (by omega), List.drop_zero]
  rw [haround] at hback
  rcases hlabel with rfl | rfl
  · -- white space, all of the lap
    apply hopens.not_skips
    have hskips := (scan_text hfront (hc.no_nul_drop i)).2
    have hskips' := (List.forall_mem_append.mp (skips_of_scan hback)).1
    rw [htake] at hskips'
    rw [← List.take_append_drop i (lap source)]
    exact List.forall_mem_append.mpr ⟨hskips', hskips⟩
  · have hquote := hc.quote_of_scan hi hfront
    rw [scan_append] at hback
    obtain ⟨state₂, hstate₂, hback⟩ := Option.bind_eq_some_iff.mp hback
    have hmem : state₂ ∈ stringLabels := scan_stringLabels (by decide) hstate₂
    rw [walked, scan, inChar_byte, hquote] at hback
    split at hback
    · rename_i state₃ hgoto
      rcases lexGoto_quote hmem hgoto with rfl | rfl
      · rw [scan_no_arms rfl (by rw [walked]; exact List.cons_ne_nil _ _)] at hback
        cases hback
      · -- a backslash in front of the quote
        have hwhole : scan .state0 (walked source i c_uint32_range) = some .state17 := by
          rw [show c_uint32_range = c_uint32_range - i + i by omega, hc.walked_over hi, scan_append, hfront]
          exact hstate₂
        rcases Nat.eq_zero_or_pos i with rfl | hpos
        · exact hopens.ne_quote hc hquote
        · exact hprev hpos (hc.backslash_of_scan hi hwhole)
    · cases hback

/-- Behind another lexeme, or at the start of such a lap, the lexer returns. -/
theorem Opens.returns (hopens : Opens (lap source)) (hi : i < c_uint32_range)
    (hprev : 0 < i → inChar source ((i + (c_uint32_range - 1)) % c_uint32_range) ≠ 92) (hfuel : c_uint32_range < fuel) :
    recognizeTerminal fuel source i ≠ none := by
  intro hnone
  obtain ⟨-, state, hscan⟩ := recognize_none hi hnone
  have hle := hopens.scan_le hc hi hprev hscan
  omega

/-- **Lexemes over the end of the lap** are white space, or strings whose tokens end before they begin. -/
theorem Crosses.cases {tok : Token} (h : Crosses source fuel i tok j) (hopens : Opens (lap source))
    (hi : i < c_uint32_range) (hprev : 0 < i → inChar source ((i + (c_uint32_range - 1)) % c_uint32_range) ≠ 92) :
    (tok.term = 12 ∧ ∀ c ∈ (lap source).drop i, isSkip c = true) ∨ tok.term = 0 ∧ tok.stop < tok.start + 2 := by
  obtain ⟨n, state, hgt, hj, hscan, hterm⟩ := h.lexeme
  obtain ⟨state₁, hlabel, hfront, hback⟩ := hopens.over hc hi hgt hscan
  rcases hlabel with rfl | rfl
  · obtain rfl := scan_state15 hback
    exact Or.inl ⟨(Option.some.inj hterm).symm, (scan_text hfront (hc.no_nul_drop i)).2⟩
  · have hlabels : ∀ state ∈ stringLabels, lexTerminal state = none ∨ lexTerminal state = some 0 := by decide
    have hle := hopens.scan_le hc hi hprev hscan
    obtain ⟨-, htok⟩ := recognizes_of_next h.next
    refine Or.inr ⟨?_, ?_⟩
    · rcases hlabels state (scan_stringLabels (by decide) hback) with hnone | hzero
      · rw [hnone] at hterm
        cases hterm
      · rw [hzero] at hterm
        exact (Option.some.inj hterm).symm
    · rw [htok]
      have hmod : (i + n) % c_uint32_range ≤ i + n - c_uint32_range := by
        rw [Nat.mod_eq_sub_mod (Nat.le_of_lt hgt)]
        exact Nat.mod_le _ _
      simp only
      omega

/-- No lexeme ends with a backslash. -/
theorem Cyclic.behind_lexeme {tok : Token} (hi : i < c_uint32_range)
    (h : nextTerminal source fuel i = some (.ok (tok, j))) :
    inChar source ((j + (c_uint32_range - 1)) % c_uint32_range) ≠ 92 := by
  intro hlast
  rcases recognized_walked hi (recognizes_of_next h).1 with ⟨-, -, hnul⟩ | ⟨n, state, ⟨rfl, -⟩, hscan, hterm, -⟩
  · exact hc.inChar_ne hi hnul
  · have harms : ∀ state : LexState, ∀ arm ∈ lexArms state, arm.1 ≤ 92 → 92 < arm.2.1 → lexTerminal arm.2.2 = none := by
      intro state
      cases state <;> decide
    have hpos := c_uint32_range_pos
    rw [Nat.mod_add_mod, show i + (n + 1) + (c_uint32_range - 1) = i + n + c_uint32_range by omega,
      Nat.add_mod_right] at hlast
    rw [walked_snoc source hi, scan_append] at hscan
    obtain ⟨state₁, -, hstep⟩ := Option.bind_eq_some_iff.mp hscan
    rw [scan, inChar_byte, hlast] at hstep
    split at hstep
    · rename_i state₂ hgoto
      obtain rfl := Option.some.inj hstep
      obtain ⟨arm, harm, rfl, hle, hlt⟩ := lexGoto_arm hgoto
      rw [harms state₁ arm harm hle hlt] at hterm
      cases hterm
    · cases hstep

theorem Cyclic.behind (h : Supplies (nextTerminal source fuel) i toks k) (hi : i < c_uint32_range) :
    k = i ∨ inChar source ((k + (c_uint32_range - 1)) % c_uint32_range) ≠ 92 := by
  have hstep : ∀ {i j k : Nat} {tok : Token}, i < c_uint32_range → nextTerminal source fuel i = some (.ok (tok, j)) →
      (j < c_uint32_range → k = j ∨ inChar source ((k + (c_uint32_range - 1)) % c_uint32_range) ≠ 92) →
        inChar source ((k + (c_uint32_range - 1)) % c_uint32_range) ≠ 92 := by
    intro i j k tok hi hnext ih
    obtain ⟨-, -, n, hwalks, -⟩ := next_walks hi hnext
    rcases ih hwalks.lt with rfl | hne
    · exact hc.behind_lexeme hi hnext
    · exact hne
  induction h with
  | nil => exact Or.inl rfl
  | skip hnext _ _ ih => exact Or.inr (hstep hi hnext ih)
  | cons hnext _ _ ih => exact Or.inr (hstep hi hnext ih)

/-- What the first terminal says of the lap. -/
theorem Cyclic.opens {tok : Token} (h : nextTerminal source fuel 0 = some (.ok (tok, j)))
    (hterm : tok.term = 12 ∨ tok.term = 6) : Opens (lap source) := by
  rcases recognized_walked c_uint32_range_pos (recognizes_of_next h).1 with
    ⟨-, -, hnul⟩ | ⟨n, state, hwalks, hscan, hstate, hout⟩
  · exact absurd hnul (hc.inChar_ne c_uint32_range_pos)
  · obtain ⟨c, cs, hlap⟩ := List.exists_cons_of_ne_nil hc.lap_ne_nil
    have hget := hc.getElem c_uint32_range_pos
    rw [hlap] at hget
    have hfirst : walked source 0 (n + 1) = c :: walked source ((0 + 1) % c_uint32_range) n := by
      rw [walked, ← Option.some.inj hget]
    have htext := scan_text hscan (hwalks.no_nul c_uint32_range_pos)
    rw [hfirst] at htext
    have hlabels : ∀ state, lexTerminal state = some 12 ∨ lexTerminal state = some 6 →
        state = .state15 ∨ state = .state13 := by
      intro state
      cases state <;> simp [lexTerminal]
    have hlabel : lexTerminal state = some 12 ∨ lexTerminal state = some 6 := by
      rcases hterm with hterm | hterm
      · exact Or.inl (by rw [hstate, hterm])
      · exact Or.inr (by rw [hstate, hterm])
    rcases hlabels state hlabel with rfl | rfl
    · refine ⟨⟨c, cs, hlap, Or.inl (htext.2 c List.mem_cons_self)⟩, ?_⟩
      intro hskips
      -- the white space stops at a character that is none
      have hmem := List.mem_of_getElem? (hc.getElem hwalks.lt)
      have hgoto := (lexGoto_skip (hskips _ hmem)).2
      rw [inChar_byte, hout] at hgoto
      cases hgoto
    · obtain ⟨hbrace, -⟩ := List.cons.inj (Option.some.inj htext)
      refine ⟨⟨c, cs, hlap, Or.inr hbrace.symm⟩, ?_⟩
      intro hskips
      have hskip := hskips c (by rw [hlap]; exact List.mem_cons_self)
      rw [← hbrace] at hskip
      cases hskip

/-- White space is retrieved up to the first character that is none. -/
theorem Cyclic.next_skips (hi : i < c_uint32_range) (hskips : ∀ c ∈ walked source i (n + 1), isSkip c = true)
    (hbehind : isSkip (UInt8.ofNat (inChar source ((i + (n + 1)) % c_uint32_range))) = false) (hfuel : n < fuel) :
    nextTerminal source fuel i =
      some (.ok (⟨12, i, (i + (n + 1)) % c_uint32_range⟩, (i + (n + 1)) % c_uint32_range)) := by
  have hscan : scan .state0 (walked source i (n + 1)) = some .state15 := by
    refine scan_skips ?_ hskips
    rw [walked]
    exact List.cons_ne_nil _ _
  have hout := (lexGoto_not_skip hbehind).2
  rw [inChar_byte] at hout
  exact next_of_recognize (recognize_walked hi (hc.walks i (n + 1)) hscan hout hfuel)

omit hc in
/-- Terminals behind white space. -/
theorem supplies_skip_iff {tok : Token} (hnext : nextTerminal source fuel i = some (.ok (tok, j))) (hs : tok.term = 12)
    (hne : toks ≠ []) :
    Supplies (nextTerminal source fuel) i toks k ↔ Supplies (nextTerminal source fuel) j toks k := by
  constructor
  · intro h
    cases h with
    | nil => exact absurd rfl hne
    | skip hnext' _ hrest =>
        cases Except.ok.inj (Option.some.inj (hnext.symm.trans hnext'))
        exact hrest
    | cons hnext' hs' _ =>
        cases Except.ok.inj (Option.some.inj (hnext.symm.trans hnext'))
        exact absurd hs hs'
  · intro h
    exact .skip hnext hs h

omit hc in
/-- A supply of tokens begins with the one that is retrieved. -/
theorem supplies_next {tok : Token} (hnext : nextTerminal source fuel i = some (.ok (tok, j))) (hs : tok.term ≠ 12)
    (hne : toks ≠ []) (h : Supplies (nextTerminal source fuel) i toks k) : ∃ rest, toks = tok :: rest := by
  cases h with
  | nil => exact absurd rfl hne
  | skip hnext' hskip _ =>
      cases Except.ok.inj (Option.some.inj (hnext.symm.trans hnext'))
      exact absurd hskip hs
  | cons hnext' _ _ =>
      cases Except.ok.inj (Option.some.inj (hnext.symm.trans hnext'))
      exact ⟨_, rfl⟩

omit hc in
/-- The first character that is no white space. -/
theorem exists_not_skip (h : ¬ ∀ c ∈ u, isSkip c = true) :
    ∃ ws c rest, u = ws ++ c :: rest ∧ (∀ c ∈ ws, isSkip c = true) ∧ isSkip c = false := by
  induction u with
  | nil => exact absurd (by simp) h
  | cons c cs ih =>
      cases hskip : isSkip c with
      | false => exact ⟨[], c, cs, rfl, by simp, hskip⟩
      | true =>
          have hcs : ¬ ∀ d ∈ cs, isSkip d = true := fun hall => h (List.forall_mem_cons.mpr ⟨hskip, hall⟩)
          obtain ⟨ws, d, rest, rfl, hws, hd⟩ := ih hcs
          exact ⟨c :: ws, d, rest, rfl, List.forall_mem_cons.mpr ⟨hskip, hws⟩, hd⟩

/-- **White space at the end of the lap** is skipped with that at its beginning. -/
theorem Opens.supplies_over (hopens : Opens (lap source)) (hi : i < c_uint32_range)
    (hskips : ∀ c ∈ (lap source).drop i, isSkip c = true) (hfuel : 2 * c_uint32_range ≤ fuel) (hne : toks ≠ []) :
    Supplies (nextTerminal source fuel) i toks k ↔ Supplies (nextTerminal source fuel) 0 toks k := by
  -- `e` characters of white space at the beginning
  obtain ⟨e, he, hlead, hbehind⟩ : ∃ e, e < c_uint32_range ∧ (∀ c ∈ walked source 0 e, isSkip c = true) ∧
      isSkip (UInt8.ofNat (inChar source e)) = false := by
    obtain ⟨ws, c, rest, hlap, hws, hnot⟩ := exists_not_skip hopens.not_skips
    have hlen := hc.length_lap
    rw [hlap, List.length_append, List.length_cons] at hlen
    refine ⟨ws.length, by omega, ?_, ?_⟩
    · rwa [hc.walked_eq (by omega), List.drop_zero, hlap, List.take_left]
    · have hget := hc.getElem (show ws.length < c_uint32_range by omega)
      rw [hlap, List.getElem?_append_right (Nat.le_refl _), Nat.sub_self, List.getElem?_cons_zero] at hget
      rwa [← Option.some.inj hget]
  have hover : ∀ c ∈ walked source i (c_uint32_range - i - 1 + e + 1), isSkip c = true := by
    rw [show c_uint32_range - i - 1 + e + 1 = c_uint32_range - i + e by omega, hc.walked_over hi]
    exact List.forall_mem_append.mpr ⟨hskips, hlead⟩
  have hstop : (i + (c_uint32_range - i - 1 + e + 1)) % c_uint32_range = e := by
    rw [show i + (c_uint32_range - i - 1 + e + 1) = e + c_uint32_range by omega, Nat.add_mod_right, Nat.mod_eq_of_lt he]
  have hnext := hc.next_skips hi hover (by rw [hstop]; exact hbehind) (show _ < fuel by omega)
  rw [hstop] at hnext
  rw [supplies_skip_iff hnext rfl hne]
  cases e with
  | zero => exact Iff.rfl
  | succ e =>
      have hstop' : (0 + (e + 1)) % c_uint32_range = e + 1 := by rw [Nat.zero_add, Nat.mod_eq_of_lt he]
      have hnext' := hc.next_skips c_uint32_range_pos hlead (by rw [hstop']; exact hbehind) (show _ < fuel by omega)
      rw [hstop'] at hnext'
      exact (supplies_skip_iff hnext' rfl hne).symm

end Cyclic

/-- A cursor that walks over a lap comes to no end of the source. -/
theorem Walks.cyclic (h : Walks source i n j) (hi : i < c_uint32_range) (hn : c_uint32_range ≤ n) : Cyclic source := by
  have hread : ∀ m < c_uint32_range, inChar source m ≠ 0 := by
    intro m hm
    rcases Nat.lt_or_ge m i with hlt | hge
    · have hchar := h.2 (m + c_uint32_range - i) (by omega)
      rwa [show i + (m + c_uint32_range - i) = m + c_uint32_range by omega, Nat.add_mod_right,
        Nat.mod_eq_of_lt hm] at hchar
    · have hchar := h.2 (m - i) (by omega)
      rwa [show i + (m - i) = m by omega, Nat.mod_eq_of_lt hm] at hchar
  have hlen : c_uint32_range ≤ source.length := by
    by_contra hshort
    apply hread source.length (by omega)
    rw [inChar_eq, List.drop_length]
    rfl
  refine ⟨hlen, ?_⟩
  intro c hmem hnul
  obtain ⟨m, hm, hget⟩ := List.getElem_of_mem hmem
  rw [lap, List.length_take] at hm
  apply hread m (by omega)
  rw [inChar, List.getElem?_eq_getElem (by omega)]
  simp only [lap, List.getElem_take] at hget
  rw [hget, hnul]
  rfl

end Ccljson
end Cclib
