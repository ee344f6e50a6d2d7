import Cclib.Cclcurl.Transfer
import Cclib.Ccljson.Prefix
import Cclib.Ccljson.RoundTrip

/-!
# `Cclcurl.Document` — a JSON document that is sent by PUT

`ccljson::create` prints a value, `cclcurl::PUT` sends the text, `connection_c::upload_data` hands it to the server's
application in parts, and `ccljson::parse` reads it. The server is not told where the document ends. It need not be: of
what it has received so far only the whole document can be parsed.

## Contents
- `created_end`: a printed object ends with its closing brace.
- `Plain.beginning`: which beginnings of the printed text are parsed.
- `document_put`.
-/

namespace Cclib
namespace Cclcurl

open Cclvar Ccljson Cclhttp

variable {F : Type} [LT F] [DecidableLT F] {showFloat : F → StringT} {es : List (VarC F × VarC F)} {ps : List Piece}

omit [LT F] [DecidableLT F] in
/-- A printed object ends with its closing brace. -/
theorem created_end (hps : pieces showFloat (.dict es) = .ok ps) : ∃ front, render ps = front ++ [125] := by
  obtain ⟨qs, -, rfl⟩ := pieces_dict.mp hps
  refine ⟨123 :: render qs, ?_⟩
  simp [punct]

/-- A beginning of a printed object is parsed when it is all of it. -/
theorem parses_beginning {strtod : StringT → F} {p q : StringT} {v : VarC F}
    (h : Plain (fun s => 0 ∉ s) (VarC.dict es)) (hps : pieces showFloat (VarC.dict es) = .ok ps)
    (hlt : (render ps).length < c_uint32_range) (hpq : p ++ q = render ps) :
    Parses p strtod v ↔ v = Ccljson.toArrays (VarC.dict es) ∧ p = render ps := by
  have hwhole : Parses (render ps) strtod (Ccljson.toArrays (VarC.dict es)) := h.parses hps hlt
  constructor
  · intro hp
    obtain ⟨w, ts, c, hderives, -⟩ := hp.derives
    obtain ⟨w', ts', hderives', -⟩ := h.derives hps hlt
    have hnul : 0 ∉ p ++ q := by
      rw [hpq]
      have hlexable : Lexable ps [] := h.lexable hps rfl
      intro hmem
      exact render_no_nul hlexable.ok 0 hmem rfl
    rw [← hpq] at hderives' hlt
    have hq := (hderives.beginning hderives' hnul hlt).2
    obtain ⟨front, hfront⟩ := created_end hps
    have hnil : q = [] := by
      rcases List.eq_nil_or_concat q with rfl | ⟨q, c, rfl⟩
      · rfl
      · rw [List.concat_eq_append, hfront, ← List.append_assoc] at hpq
        obtain ⟨-, hc⟩ := List.append_inj' hpq rfl
        have hskip := hq c (by simp)
        rw [(List.cons.inj hc).1] at hskip
        exact absurd hskip (by decide)
    rw [hnil, List.append_nil] at hpq
    rw [hpq] at hp
    exact ⟨hp.unique hwhole, hpq⟩
  · rintro ⟨rfl, rfl⟩
    exact hwhole

/-- **A document that is sent by PUT.** A dict of blanks, booleans, integers, strings without NUL bytes, arrays, lists
    and such dicts is printed, and when its text is shorter than 2³² bytes and is sent by PUT, then after any run of
    reads, deliveries and calls what the server has received is parsed exactly if it is the whole text, and to the
    value that was printed, lists being read back as arrays. -/
theorem document_put (showFloat : F → StringT) (strtod : StringT → F) (h : Plain (fun s => 0 ∉ s) (VarC.dict es))
    (srv : ServerC) (request : Call) (events : List PutEvent) :
    ∃ text, Creates showFloat (.dict es) (.ok text) ∧ (text.length < c_uint32_range →
      ∃ s, Runs.run (putStep srv request) (Put.start text) events = some s ∧
        ∀ v, Parses s.body.received.flatten strtod v ↔
          v = Ccljson.toArrays (.dict es) ∧ s.body.received.flatten = text) := by
  obtain ⟨ps, hps⟩ := h.pieces_defined showFloat
  have hcreates := create_returns showFloat (.dict es)
  rw [hps] at hcreates
  refine ⟨render ps, hcreates, fun hlt => ?_⟩
  obtain ⟨s, hrun, hall⟩ := put_run srv request events (Put.start (render ps))
  have hsplit : s.body.received.flatten ++ (s.body.pending ++ s.wire ++ s.read_buffer.rest) = render ps := by
    rw [← List.append_assoc, ← List.append_assoc]
    exact hall
  exact ⟨s, hrun, fun v => parses_beginning h hps hlt hsplit⟩

/-- `PUT /a HTTP/2` -/
def putCall : Call :=
  { connection := 1
    url := ⟨Cclhttp.literal "/a", by decide⟩
    method := ⟨Cclhttp.literal "PUT", by decide⟩
    version := ⟨Cclhttp.literal "HTTP/2", by decide⟩
    upload_data := []
    upload_data_size := 0
    m_connection_cb := leaves .none }

/-- `{"a":1}` in two reads, of which one has arrived. -/
theorem document_put_part :
    ∃ text, Creates (fun _ : Int => []) (.dict [(.string [97], .integer 1)]) (.ok text) ∧
      (text.length < c_uint32_range →
        ∃ s, Runs.run (putStep idle putCall) (Put.start text) [.read 1 ⟨4, by decide⟩, .deliver 4,
            .read 1 ⟨4, by decide⟩, .call 0 0 none, .call 4 1 none] = some s ∧
          ∀ v, Parses s.body.received.flatten (fun _ => (0 : Int)) v ↔
            v = Ccljson.toArrays (.dict [(.string [97], .integer 1)]) ∧ s.body.received.flatten = text) := by
  have hdict : Plain (fun s => 0 ∉ s) (.dict [(.string [97], .integer 1)] : VarC Int) :=
    .dict (List.pairwise_singleton _ _) (by simp) (by simpa using .integer 1)
  exact document_put _ _ hdict _ _ _

end Cclcurl
end Cclib
