import Cclib.Cclxml.Events

/-!
# `Cclxml.Cuttings` — character data in one call or in several

libxml2 cuts a run of character data where it meets a reference or the end of a buffer. `xml_characters` skips
a call that is exactly a line end, so a line feed is kept or lost with the place of the cuts.

- `cutting_irrelevant_iff` — the tree does not depend on the cuts exactly when each run has no line end in it or is
  nothing but one.
-/

namespace Cclib
namespace Cclxml

/-- `c` is `d` with every run cut into consecutive non-empty chunks. -/
def Cuts (c : Element (List StringT)) (d : Element StringT) : Prop :=
  c.map List.flatten = d ∧ ∀ chunks ∈ c.runs, ∀ ch ∈ chunks, ch ≠ []

/-- Neither a line feed nor a carriage return. -/
def NoLineEnd (run : StringT) : Prop := ∀ b ∈ run, b ≠ 0x0a ∧ b ≠ 0x0d

instance : DecidablePred NoLineEnd := fun run => inferInstanceAs (Decidable (∀ b ∈ run, b ≠ 0x0a ∧ b ≠ 0x0d))

/-- A run of which every cutting leaves the same. -/
def Seamless (run : StringT) : Prop := NoLineEnd run ∨ IsLineEnd run

instance : DecidablePred Seamless := fun run => inferInstanceAs (Decidable (NoLineEnd run ∨ IsLineEnd run))

/-! ## What is kept of one run -/

/-- What is kept of a run in one call. -/
def keptWhole (run : StringT) : StringT := if IsLineEnd run then [] else run

theorem NoLineEnd.not_isLineEnd {ch : StringT} (h : NoLineEnd ch) : ¬ IsLineEnd ch := by
  rintro (rfl | rfl | rfl)
  · exact (h _ (List.mem_singleton_self _)).1 rfl
  · exact (h _ (List.mem_singleton_self _)).2 rfl
  · exact (h _ (List.mem_cons_self)).2 rfl

/-- The chunks of a text without line ends are all kept. -/
theorem kept_of_noLineEnd : ∀ {chunks : List StringT}, NoLineEnd chunks.flatten → kept chunks = chunks.flatten
  | [], _ => rfl
  | ch :: chunks, h => by
      rw [List.flatten_cons] at h
      obtain ⟨hch, hchunks⟩ := List.forall_mem_append.mp h
      have ih : kept chunks = chunks.flatten := kept_of_noLineEnd hchunks
      show (if IsLineEnd ch then [] else ch) ++ kept chunks = _
      rw [if_neg (NoLineEnd.not_isLineEnd hch), ih, List.flatten_cons]

/-- The cuttings of a line end: its bytes one by one at most. -/
theorem kept_of_isLineEnd {chunks : List StringT} (hne : ∀ ch ∈ chunks, ch ≠ []) (h : IsLineEnd chunks.flatten) :
    kept chunks = [] := by
  cases chunks with
  | nil => rfl
  | cons ch chunks =>
      obtain ⟨hch, hchunks⟩ := List.forall_mem_cons.mp hne
      rw [List.flatten_cons] at h
      -- either the first chunk is everything, or it is the carriage return of "\r\n"
      have hcases : (IsLineEnd ch ∧ chunks.flatten = []) ∨ (ch = [0x0d] ∧ chunks.flatten = [0x0a]) := by
        rcases h with h | h | h
        · rcases List.append_eq_singleton_iff.mp h with ⟨h', -⟩ | ⟨rfl, h'⟩
          · exact absurd h' hch
          · exact .inl ⟨.inl rfl, h'⟩
        · rcases List.append_eq_singleton_iff.mp h with ⟨h', -⟩ | ⟨rfl, h'⟩
          · exact absurd h' hch
          · exact .inl ⟨.inr (.inl rfl), h'⟩
        · match ch, h, hch with
          | [a], h, _ =>
              injection h with ha h
              exact .inr ⟨congrArg (fun x => [x]) ha, h⟩
          | [a, b], h, _ =>
              injection h with ha h
              injection h with hb h
              exact .inl ⟨.inr (.inr (by rw [ha, hb])), h⟩
          | a :: b :: c :: ch, h, _ => cases congrArg List.length h
      rcases hcases with ⟨hend, hnil⟩ | ⟨rfl, hlf⟩
      · show (if IsLineEnd ch then [] else ch) ++ kept chunks = []
        have ih : kept chunks = [] := by
          rw [kept_of_noLineEnd (by rw [hnil]; intro b hb; cases hb), hnil]
        rw [if_pos hend, ih, List.append_nil]
      · show (if IsLineEnd [0x0d] then [] else [0x0d]) ++ kept chunks = []
        have ih : kept chunks = [] := by
          match chunks, hlf, hchunks with
          | [] :: _, _, hchunks => exact absurd rfl (hchunks _ List.mem_cons_self)
          | (b :: ch) :: chunks, hlf, _ =>
              injection hlf with hb hlf
              obtain ⟨rfl, hrest⟩ := List.append_eq_nil_iff.mp hlf
              subst hb
              show (if IsLineEnd [0x0a] then [] else [0x0a]) ++ kept chunks = []
              rw [if_pos (.inl rfl), kept_of_noLineEnd (by rw [hrest]; intro b hb; cases hb), hrest]
              rfl
        rw [if_pos (.inr (.inl rfl)), ih]
        rfl

/-- A seamless run leaves what it leaves in one call. -/
theorem kept_of_seamless {chunks : List StringT} (hne : ∀ ch ∈ chunks, ch ≠ []) (h : Seamless chunks.flatten) :
    kept chunks = keptWhole chunks.flatten := by
  rcases h with h | h
  · rw [kept_of_noLineEnd h, keptWhole, if_neg (NoLineEnd.not_isLineEnd h)]
  · rw [kept_of_isLineEnd hne h, keptWhole, if_pos h]

/-- A run in one call, and byte by byte. -/
def whole (run : StringT) : List StringT := if run = [] then [] else [run]

def bytewise (run : StringT) : List StringT := run.map (fun b => [b])

theorem kept_whole (run : StringT) : kept (whole run) = keptWhole run := by
  by_cases h : run = []
  · subst h
    rfl
  · rw [whole, if_neg h, keptWhole]
    show (if IsLineEnd run then [] else run) ++ kept [] = _
    exact List.append_nil _

/-- Byte by byte every line feed and carriage return is lost. -/
theorem kept_bytewise (run : StringT) : kept (bytewise run) = run.filter (fun b => b ≠ 0x0a ∧ b ≠ 0x0d) := by
  induction run with
  | nil => rfl
  | cons b run ih =>
      show (if IsLineEnd [b] then [] else [b]) ++ kept (bytewise run) = _
      have hend : IsLineEnd [b] ↔ ¬ (b ≠ 0x0a ∧ b ≠ 0x0d) := by
        simp only [IsLineEnd, List.cons.injEq, and_true, reduceCtorEq, and_false, or_false]
        tauto
      by_cases hb : b ≠ 0x0a ∧ b ≠ 0x0d
      · rw [if_neg (fun h => hend.mp h hb), List.filter_cons, if_pos (decide_eq_true hb), ih]
        rfl
      · rw [if_pos (hend.mpr hb), List.filter_cons, if_neg (fun h => hb (of_decide_eq_true h)), ih]
        rfl

/-- Byte by byte no more is kept than in one call, and as much only of a seamless run. -/
theorem length_kept_bytewise (run : StringT) :
    (kept (bytewise run)).length ≤ (kept (whole run)).length ∧
      ((kept (bytewise run)).length = (kept (whole run)).length → Seamless run) := by
  rw [kept_bytewise, kept_whole, keptWhole]
  by_cases h : IsLineEnd run
  · refine ⟨?_, fun _ => .inr h⟩
    rcases h with rfl | rfl | rfl <;> exact Nat.le_refl _
  · rw [if_neg h]
    refine ⟨List.length_filter_le _ _, fun heq => .inl ?_⟩
    intro b hb
    exact of_decide_eq_true (List.length_filter_eq_length_iff.mp heq b hb)

/-! ## The runs of a tree -/

section Lengths

variable {R : Type} {f g : R → StringT}

theorem Content.length_text_le (hle : ∀ run, (f run).length ≤ (g run).length) :
    ∀ c : Content R, (c.text f).length ≤ (c.text g).length := by
  intro c
  induction c using Content.text.induct with
  | case1 run => exact hle run
  | case2 run _ rest ih =>
      rw [Content.text, Content.text, List.length_append, List.length_append]
      exact Nat.add_le_add (hle run) ih

mutual
/-- If nowhere more is kept and the tree is the same, as much is kept everywhere. -/
theorem Element.lengths_of_node (hle : ∀ run, (f run).length ≤ (g run).length) :
    ∀ e : Element R, e.node f = e.node g → ∀ run ∈ e.runs, (f run).length = (g run).length
  | .mk name attrs content, h => by
      injection h with _ _ htext _ hnodes
      exact content.lengths_of_node hle htext hnodes

theorem Content.lengths_of_node (hle : ∀ run, (f run).length ≤ (g run).length) :
    ∀ c : Content R, c.text f = c.text g → c.nodes f = c.nodes g → ∀ run ∈ c.runs, (f run).length = (g run).length
  | .last run, htext, _ => List.forall_mem_singleton.mpr (congrArg List.length htext)
  | .more run e rest, htext, hnodes => by
      injection hnodes with he hrest
      have hlen := congrArg List.length htext
      rw [Content.text, Content.text, List.length_append, List.length_append] at hlen
      have hrun := hle run
      have hrestle := rest.length_text_le hle
      have heq : (f run).length = (g run).length := by omega
      refine List.forall_mem_cons.mpr ⟨heq, List.forall_mem_append.mpr ⟨e.lengths_of_node hle he, ?_⟩⟩
      exact rest.lengths_of_node hle (List.append_inj htext heq).2 hrest
end

end Lengths

/-! ## All cuttings -/

variable {c : Element (List StringT)} {d : Element StringT}

theorem build_cuts (c : Element (List StringT)) : build (c.events id) = some (c.node kept) := build_events id c

/-- What a cutting of seamless runs gives depends on the runs only. -/
theorem Cuts.node_eq (h : Cuts c d) (hd : ∀ run ∈ d.runs, Seamless run) : c.node kept = d.node keptWhole := by
  obtain ⟨rfl, hne⟩ := h
  rw [Element.node_map]
  apply Element.node_congr
  intro chunks hchunks
  have hrun : Seamless chunks.flatten := by
    apply hd
    rw [Element.runs_map]
    exact List.mem_map_of_mem hchunks
  exact kept_of_seamless (hne chunks hchunks) hrun

/-- Every way to cut single runs cuts a whole sequence. -/
theorem cuts_map {cut : StringT → List StringT} (hflatten : ∀ run, (cut run).flatten = run)
    (hne : ∀ run, ∀ ch ∈ cut run, ch ≠ []) (d : Element StringT) : Cuts (d.map cut) d := by
  constructor
  · rw [Element.map_map]
    have hid : List.flatten ∘ cut = id := funext hflatten
    rw [hid]
    exact d.map_id
  · intro chunks hchunks
    rw [Element.runs_map] at hchunks
    obtain ⟨run, -, rfl⟩ := List.mem_map.mp hchunks
    exact hne run

theorem cuts_whole (d : Element StringT) : Cuts (d.map whole) d := by
  apply cuts_map
  · intro run
    by_cases h : run = []
    · subst h
      rfl
    · rw [whole, if_neg h]
      exact List.append_nil run
  · intro run ch hch
    by_cases h : run = []
    · subst h
      cases hch
    · rw [whole, if_neg h] at hch
      rw [List.mem_singleton.mp hch]
      exact h

theorem cuts_bytewise (d : Element StringT) : Cuts (d.map bytewise) d := by
  apply cuts_map
  · intro run
    induction run with
    | nil => rfl
    | cons b run ih => exact congrArg (b :: ·) ih
  · intro run ch hch
    obtain ⟨b, -, rfl⟩ := List.mem_map.mp hch
    exact List.cons_ne_nil b []

/-- **The tree does not depend on the cuts** exactly when no run of character data has a line end in it, except
    those that are nothing but one line end. -/
theorem cutting_irrelevant_iff (d : Element StringT) :
    (∀ c c', Cuts c d → Cuts c' d → build (c.events id) = build (c'.events id)) ↔ ∀ run ∈ d.runs, Seamless run := by
  constructor
  · intro h run hrun
    have htree := h _ _ (cuts_bytewise d) (cuts_whole d)
    rw [build_cuts, build_cuts, Element.node_map, Element.node_map] at htree
    have hlen := Element.lengths_of_node (fun run => (length_kept_bytewise run).1) d (Option.some.inj htree) run hrun
    exact (length_kept_bytewise run).2 hlen
  · intro hd c c' hc hc'
    rw [build_cuts, build_cuts, hc.node_eq hd, hc'.node_eq hd]

/-- The text `"a\n"` of an element in one call and in two: the line feed is kept, and lost. -/
theorem line_end_lost :
    let d : Element StringT := .mk [0x72] [] (.last [0x61, 0x0a])
    let c : Element (List StringT) := .mk [0x72] [] (.last [[0x61, 0x0a]])
    let c' : Element (List StringT) := .mk [0x72] [] (.last [[0x61], [0x0a]])
    Cuts c d ∧ Cuts c' d ∧ build (c.events id) = some ⟨true, [0x72], [0x61, 0x0a], [], []⟩ ∧
      build (c'.events id) = some ⟨true, [0x72], [0x61], [], []⟩ ∧ build (c.events id) ≠ build (c'.events id) := by
  intro d c c'
  have hc : build (c.events id) = some ⟨true, [0x72], [0x61, 0x0a], [], []⟩ := by
    rw [build_cuts]
    rfl
  have hc' : build (c'.events id) = some ⟨true, [0x72], [0x61], [], []⟩ := by
    rw [build_cuts]
    rfl
  refine ⟨⟨rfl, ?_⟩, ⟨rfl, ?_⟩, hc, hc', ?_⟩
  · intro chunks hchunks ch hch
    rw [List.mem_singleton.mp hchunks, List.mem_singleton] at hch
    rw [hch]
    exact List.cons_ne_nil _ _
  · intro chunks hchunks ch hch
    rw [List.mem_singleton.mp hchunks] at hch
    rcases List.mem_pair.mp hch with rfl | rfl <;> exact List.cons_ne_nil _ _
  · rw [hc, hc']
    intro heq
    injection heq with heq
    injection heq with _ _ htext
    cases htext

end Cclxml
end Cclib
