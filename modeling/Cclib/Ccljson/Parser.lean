import Cclib.Ccljson.Text
import Cclib.Ccljson.Tree

/-!
# `Ccljson.Parser` — what `ccljson::parse` returns

`Parses source strtod v` is `parse` returning `v` with some amount of fuel. This module removes the fuel:
more of it changes nothing (`parseFuel_mono`), so a source has one result (`Parses.unique`).

`Derives source w ts` says that a source is the tokens `w`, and that they spell the object `ts`.

- `supplies_end` — the tokens end at the first NUL of the source or at its end.
- `Derives.parses`, `Parses.derives` — a source is parsed when it derives an object that has a value.
- `Derives.parses_iff` — it has one when its strings can be decoded.
-/

namespace Cclib
namespace Ccljson
open Cclvar

variable {F : Type} [LT F] [DecidableLT F] {source : StringT} {strtod : StringT → F}

/-! ## Fuel -/

theorem recognizeTerminal_mono {n m i : Nat} {r : Option Nat × Nat} (hnm : n ≤ m)
    (h : recognizeTerminal n source i = some r) : recognizeTerminal m source i = some r := by
  unfold recognizeTerminal at h ⊢
  split at h
  · exact Loop.run_mono hnm h
  · exact h

theorem next_mono {n m i : Nat} {r : Except JsonError (Token × Nat)} (hnm : n ≤ m)
    (h : nextTerminal source n i = some r) : nextTerminal source m i = some r := by
  simp only [nextTerminal] at h ⊢
  cases hrec : recognizeTerminal n source i with
  | none => simp [hrec] at h
  | some out =>
      rw [recognizeTerminal_mono hnm hrec]
      rwa [hrec] at h

/-- More fuel for the lexer does not change a round. -/
theorem parserEnv_refines {n m : Nat} (hnm : n ≤ m) :
    Loop.Refines (parseRound (parserEnv source strtod n)) (parseRound (parserEnv source strtod m)) :=
  parseRound_refines rfl (fun _ _ => next_mono hnm)

theorem run_parserEnv_mono {n m : Nat} {s : LalrState Nat (Sem F)} {r : Except JsonError (Nat × Sem F)}
    (hnm : n ≤ m) (h : Loop.run (parseRound (parserEnv source strtod n)) n s = some r) :
    Loop.run (parseRound (parserEnv source strtod m)) m s = some r :=
  Loop.run_mono hnm (Loop.run_refines (parserEnv_refines hnm) h)

/-- More fuel does not change the result of `parse`. -/
theorem parseFuel_mono {n m : Nat} {r : Except JsonError (VarC F)} (hnm : n ≤ m)
    (h : parseFuel source strtod n = some r) : parseFuel source strtod m = some r := by
  unfold parseFuel at h ⊢
  cases hrun : Loop.run (parseRound (parserEnv source strtod n)) n (lalrInit 0 Sem.init) with
  | none => simp [hrun] at h
  | some out =>
      rw [run_parserEnv_mono hnm hrun]
      rwa [hrun] at h

/-- **`parse` has one result.** -/
theorem Parses.unique {v v' : VarC F} (h : Parses source strtod v) (h' : Parses source strtod v') :
    v = v' := by
  obtain ⟨n, hn⟩ := h
  obtain ⟨m, hm⟩ := h'
  have hn' := parseFuel_mono (Nat.le_max_left n m) hn
  have hm' := parseFuel_mono (Nat.le_max_right n m) hm
  exact Except.ok.inj (Option.some.inj (hn'.symm.trans hm'))

/-! ## What an accepted source looks like -/

theorem next_walks {fuel i j : Nat} {tok : Token} (hi : i < c_uint32_range)
    (h : nextTerminal source fuel i = some (.ok (tok, j))) :
    tok.start = i ∧ tok.stop = j ∧ ∃ n, Walks source i n j ∧ (tok.term = 13 → inChar source j = 0) := by
  simp only [nextTerminal] at h
  split at h
  · cases h
  · cases h
  · rename_i term idx hrec
    cases h
    obtain ⟨n, hn, hend⟩ := recognizeTerminal_walks hi hrec
    exact ⟨rfl, rfl, n, hn, fun ht => hend (congrArg some ht)⟩

/-- Up to the end of the input the cursor walks over the terminals, one after the other. -/
theorem supplies_walks {fuel i j : Nat} {w : List Token} {tok : Token} (hi : i < c_uint32_range)
    (h : Supplies (nextTerminal source fuel) i (w ++ [tok]) j) (hend : tok.term = 13) :
    ∃ n, Walks source i n tok.stop ∧ inChar source tok.stop = 0 ∧
      ∀ t ∈ w, ∃ n₁ n₂, n₁ ≤ n₂ ∧ n₂ ≤ n ∧ Walks source i n₁ t.start ∧ Walks source i n₂ t.stop := by
  generalize hl : w ++ [tok] = l at h
  induction h generalizing w with
  | nil => simp at hl
  | skip hnext _ _ ih =>
      obtain ⟨-, -, n, hn, -⟩ := next_walks hi hnext
      obtain ⟨m, hm, hnul, htoks⟩ := ih hn.lt hl
      refine ⟨n + m, hn.trans hm, hnul, fun t ht => ?_⟩
      obtain ⟨n₁, n₂, h₁, h₂, hstart, hstop⟩ := htoks t ht
      exact ⟨n + n₁, n + n₂, by omega, by omega, hn.trans hstart, hn.trans hstop⟩
  | @cons i j k t toks hnext _ _ ih =>
      obtain ⟨hstart, hstop, n, hn, hnul⟩ := next_walks hi hnext
      cases w with
      | nil =>
          cases hl
          exact ⟨n, by rwa [hstop], by rw [hstop, hnul hend], by simp⟩
      | cons t w =>
          cases hl
          obtain ⟨m, hm, hnul, htoks⟩ := ih hn.lt rfl
          refine ⟨n + m, hn.trans hm, hnul, fun t' ht' => ?_⟩
          rcases List.mem_cons.mp ht' with rfl | ht'
          · exact ⟨0, n, by omega, by omega, by rw [hstart]; exact .refl hi, by rw [hstop]; exact hn⟩
          · obtain ⟨n₁, n₂, h₁, h₂, hstart, hstop⟩ := htoks t' ht'
            exact ⟨n + n₁, n + n₂, by omega, by omega, hn.trans hstart, hn.trans hstop⟩

/-- **The input ends at the first NUL, or at the end of the source**, and the cursor does not wrap on the
    way there. -/
theorem supplies_end {fuel i : Nat} {w : List Token} {tok : Token}
    (h : Supplies (nextTerminal source fuel) 0 (w ++ [tok]) i) (hend : tok.term = 13) :
    tok.stop < c_uint32_range ∧ inChar source tok.stop = 0 ∧ (∀ k < tok.stop, inChar source k ≠ 0) ∧
      ∀ t ∈ w, t.start ≤ t.stop ∧ t.stop ≤ tok.stop := by
  obtain ⟨n, ⟨hstop, hwalk⟩, hnul, htoks⟩ := supplies_walks (by decide) h hend
  simp only [Nat.zero_add] at hstop hwalk
  have hlt : n < c_uint32_range := by
    by_contra hge
    have hmod : n % c_uint32_range < c_uint32_range := Nat.mod_lt _ (by decide)
    have hread := hwalk tok.stop (by omega)
    rw [Nat.mod_eq_of_lt (by omega)] at hread
    exact hread hnul
  rw [Nat.mod_eq_of_lt hlt] at hstop
  refine ⟨by omega, hnul, fun k hk => ?_, fun t ht => ?_⟩
  · have hread := hwalk k (by omega)
    rwa [Nat.mod_eq_of_lt (by omega)] at hread
  · obtain ⟨n₁, n₂, h₁, h₂, ⟨hstart', -⟩, ⟨hstop', -⟩⟩ := htoks t ht
    rw [Nat.zero_add, Nat.mod_eq_of_lt (by omega)] at hstart' hstop'
    omega

/-! ## Results -/

/-- The source is, up to the end of the input, the tokens `w`, and they spell the object `ts`. -/
def Derives (source : StringT) (w : List Token) (ts : List (Token × JTree)) : Prop :=
  ∃ fuel tok i, Supplies (nextTerminal source fuel) 0 (w ++ [tok]) i ∧ tok.term = 13 ∧ Spelled [.object ts] w

variable {w w' : List Token} {ts ts' : List (Token × JTree)} {v : VarC F} {c : Caches F}

/-- **Completeness.** -/
theorem Derives.parses (h : Derives source w ts)
    (heval : evalTree source strtod .empty (.object ts) = some (v, c)) : Parses source strtod v := by
  obtain ⟨fuel, tok, i, hsup, hend, hspelled⟩ := h
  rw [evalTree] at heval
  obtain ⟨r, hr, heq⟩ := Option.map_eq_some_iff.mp heval
  cases heq
  have hsem : nodesSem source strtod [.object ts] = some { (Sem.init : Sem F) with
      caches := r.2, m_objects := .dict (VarC.insertAll r.1) :: (Sem.init : Sem F).m_objects } := by
    have hpairs : evalPairs source strtod (Sem.init : Sem F).caches ts = some r := hr
    simp only [nodesSem, pushNodes, pushNode, Option.bind_some, hpairs, Option.map_some]
  obtain ⟨k, -, n, hrun⟩ := accepts_spelled (means_nodesSem source strtod fuel) rfl hspelled hsup hend hsem
  refine ⟨max fuel n, ?_⟩
  have hrun' := Loop.run_mono (Nat.le_max_right fuel n)
    (Loop.run_refines (parserEnv_refines (Nat.le_max_left fuel n)) hrun)
  rw [parseFuel, hrun']

/-- **Soundness.** -/
theorem Parses.derives (h : Parses source strtod v) :
    ∃ w ts c, Derives source w ts ∧ evalTree source strtod .empty (.object ts) = some (v, c) := by
  obtain ⟨fuel, h⟩ := h
  unfold parseFuel at h
  split at h
  · cases h
  · cases h
  · rename_i i s hrun
    obtain ⟨w, tok, ts, hsup, hend, hspelled, hsem⟩ :=
      accepted_spelled (means_nodesSem source strtod fuel) rfl ⟨fuel, hrun⟩
    obtain ⟨r, hr, heq⟩ := Option.map_eq_some_iff.mp hsem
    cases heq
    cases h
    have hpairs : evalPairs source strtod .empty ts = some r := hr
    refine ⟨w, ts, r.2, ⟨fuel, tok, i, hsup, hend, hspelled⟩, ?_⟩
    rw [evalTree, hpairs, Option.map_some]

/-- The tokens of a source are unique. -/
theorem Derives.tokens_unique (h : Derives source w ts) (h' : Derives source w' ts') : w = w' := by
  obtain ⟨n, tok, i, hsup, hend, hspelled⟩ := h
  obtain ⟨m, tok', i', hsup', hend', hspelled'⟩ := h'
  have hlt : ∀ t ∈ w, t.term < 13 := hspelled.terms_lt (by simp)
  have hlt' : ∀ t ∈ w', t.term < 13 := hspelled'.terms_lt (by simp)
  -- the end of the one input cannot be a token inside the other
  have hends : ∀ {u u' rest : List Token} {e e' : Token}, (∀ t ∈ u, t.term < 13) → e'.term = 13 →
      u ++ [e] = u' ++ [e'] ++ rest → rest = [] := by
    intro u u' rest e e' hu he' heq
    rcases List.eq_nil_or_concat rest with rfl | ⟨rest, x, rfl⟩
    · rfl
    · rw [List.concat_eq_append, ← List.append_assoc] at heq
      obtain ⟨rfl, -⟩ := List.append_inj' heq rfl
      have := hu e' (by simp)
      omega
  have hcompare := (hsup.imp (fun i r => next_mono (Nat.le_max_left n m))).compare
    (hsup'.imp (fun i r => next_mono (Nat.le_max_right n m)))
  rcases hcompare with ⟨rest, heq⟩ | ⟨t, rest, heq, -⟩
  · obtain rfl := hends hlt hend' heq
    rw [List.append_nil] at heq
    exact (List.append_inj' heq rfl).1
  · cases hends hlt' hend heq

/-- An object has a value when the strings of its text can be decoded. -/
theorem Derives.defined_iff (strtod : StringT → F) (h : Derives source w ts) :
    evalTree source strtod .empty (.object ts) ≠ none ↔ ∀ t ∈ w, t.term = 0 → Decodes source t := by
  obtain ⟨-, -, -, -, -, hspelled⟩ := h
  have htokens : (JTree.object ts).tokens 0 = w.filter (fun t => decide (t.term = 0)) :=
    hspelled.tokens (by decide)
  rw [evalTree_defined, htokens]
  simp

/-- **What a source must satisfy to be parsed**, besides deriving an object: its strings can be decoded. -/
theorem Derives.parses_iff (strtod : StringT → F) (h : Derives source w ts) :
    (∃ v, Parses source strtod v) ↔ ∀ t ∈ w, t.term = 0 → Decodes source t := by
  constructor
  · rintro ⟨v, hv⟩
    obtain ⟨w', ts', c, hderives, heval⟩ := hv.derives
    obtain rfl := h.tokens_unique hderives
    exact (hderives.defined_iff strtod).mp (by simp [heval])
  · intro hdecodes
    obtain ⟨⟨v, c⟩, heval⟩ := Option.ne_none_iff_exists'.mp ((h.defined_iff strtod).mpr hdecodes)
    exact ⟨v, h.parses heval⟩

/-- A parsed source has the value of each of its derivations. -/
theorem Derives.value (h : Derives source w ts) (hv : Parses source strtod v) :
    ∃ c, evalTree source strtod .empty (.object ts) = some (v, c) := by
  obtain ⟨⟨v', c⟩, heval⟩ := Option.ne_none_iff_exists'.mp ((h.defined_iff strtod).mpr ((h.parses_iff strtod).mp ⟨v, hv⟩))
  obtain rfl := hv.unique (h.parses heval)
  exact ⟨c, heval⟩

/-- A text of pieces that spell an object, up to its end or a NUL. -/
theorem derives_parted {ps : List Piece} {ws rest : StringT} (hsource : source = render ps ++ (ws ++ rest))
    (hps : Parted ps (ws ++ rest)) (hws : ∀ c ∈ ws, isSkip c = true) (hrest : rest.headD 0 = 0)
    (hlt : (render ps ++ ws).length < c_uint32_range) (hspelled : Spelled [.object ts] (tokensFrom 0 ps)) :
    Derives source (tokensFrom 0 ps) ts :=
  ⟨(render ps ++ ws).length + 1, _, _, supplies_text hsource hps hws hrest hlt (Nat.lt_succ_self _), rfl, hspelled⟩

/-- A text of pieces that spell an object. -/
theorem derives_text {ps : List Piece} {ws : StringT} (hsource : source = render ps ++ ws)
    (hps : Lexable ps ws) (hws : ∀ c ∈ ws, isSkip c = true) (hlt : source.length < c_uint32_range)
    (hspelled : Spelled [.object ts] (tokensFrom 0 ps)) : Derives source (tokensFrom 0 ps) ts := by
  rw [hsource] at hlt
  refine derives_parted ?_ ?_ hws List.headD_nil hlt hspelled
  · rw [List.append_nil, hsource]
  · rw [List.append_nil]
    exact hps.parted

end Ccljson
end Cclib
