import Cclib.Cclstr.Split
import Cclib.Cclsys.System
import Mathlib.Data.List.TakeWhile

/-!
# `Cclsys.Stream` — reading a stream by lines

`readln` takes a line with `getline` and cuts its last byte off, whatever that is; it answers whether the end of the
file has been seen. `readLines` is the loop of its callers, which keeps the line of every call. On a text that ends
with a newline, or is empty, this is what `cclstr::split` gives; the last line of any other text comes without its last
byte (`readLines_returns`).

## Contents
- `File`, `getline`, `readln`, `readLines`.
- `getline_line`, `getline_rest`, `getline_end`: the three things that `getline` does.
- `readLines_returns`, `reading_by_lines_iff`.
-/

namespace Cclib
namespace Cclsys

/-- The bytes of a `std::string`. -/
abbrev StringT := List UInt8

/-- A `FILE`: what is left to read, and the two flags. -/
structure File where
  content : StringT
  eof : Bool
  error : Bool
deriving DecidableEq, Repr

/-- `stream_c`. -/
structure StreamC where
  m_file : Option File
deriving DecidableEq, Repr

/-- The newline. -/
abbrev lineFeed : UInt8 := 0x0a

/-! ## The functions -/

/-- `getline`: the bytes up to the next newline with it, or up to the end of the file; `none` is -1. No read error
occurs. -/
def getline (file : File) : Option StringT × File :=
  let line := file.content.takeWhile (· ≠ lineFeed)
  match file.content.dropWhile (· ≠ lineFeed) with
  | newline :: rest => (some (line ++ [newline]), { file with content := rest })
  | [] =>
    if line.isEmpty then (none, { file with eof := true })
    else (some line, { file with content := [], eof := true })

/-- `stream_c::readln`: what it returns, and the line. -/
def readln (s : StreamC) : Except String (Bool × StringT × StreamC) :=
  match s.m_file with
  | none => .error error_STREAM_NOT_OPENED
  | some m_file =>
    match getline m_file with
    | (none, file) =>
      if file.error then .error error_STREAM_READ_ERROR else .ok (!file.eof, [], ⟨some file⟩)
    | (some data, file) => .ok (!file.eof, data.take (data.length - 1), ⟨some file⟩)

/-- A call of `readln`, and the line of it kept. -/
def readLinesBody : Loop.Body (StreamC × List StringT) (Except String (List StringT))
  | (s, lines) =>
    match readln s with
    | .error e => some (.inr (.error e))
    | .ok (true, a_line, s') => some (.inl (s', lines ++ [a_line]))
    | .ok (false, a_line, _) => some (.inr (.ok (lines ++ [a_line])))

/-- The lines of all calls of `readln`, until one returns `false`. -/
def readLines (s : StreamC) (fuel : Nat) : Option (Except String (List StringT)) :=
  Loop.run readLinesBody fuel (s, [])

/-- A stream that has just been opened. -/
def openStream (c : StringT) : StreamC := ⟨some ⟨c, false, false⟩⟩

/-! ## `getline` -/

variable {line rest : StringT}

/-- The bytes up to the first newline. -/
theorem span_line (h : lineFeed ∉ line) (rest : StringT) :
    (line ++ lineFeed :: rest).takeWhile (· ≠ lineFeed) = line ∧
      (line ++ lineFeed :: rest).dropWhile (· ≠ lineFeed) = lineFeed :: rest := by
  have hline : ∀ c ∈ line, decide (c ≠ lineFeed) = true := by
    intro c hc
    exact decide_eq_true (fun heq => h (heq ▸ hc))
  rw [List.takeWhile_append_of_pos hline, List.dropWhile_append_of_pos hline]
  simp

theorem span_rest (h : lineFeed ∉ rest) :
    rest.takeWhile (· ≠ lineFeed) = rest ∧ rest.dropWhile (· ≠ lineFeed) = [] := by
  have hrest : ∀ c ∈ rest, decide (c ≠ lineFeed) = true := by
    intro c hc
    exact decide_eq_true (fun heq => h (heq ▸ hc))
  exact ⟨List.takeWhile_eq_self_iff.mpr hrest, List.dropWhile_eq_nil_iff.mpr hrest⟩

/-- A line with its newline. -/
theorem getline_line (h : lineFeed ∉ line) (rest : StringT) (eof error : Bool) :
    getline ⟨line ++ lineFeed :: rest, eof, error⟩ = (some (line ++ [lineFeed]), ⟨rest, eof, error⟩) := by
  obtain ⟨htake, hdrop⟩ := span_line h rest
  simp only [getline, htake, hdrop]

/-- A last line without one. -/
theorem getline_rest (h : lineFeed ∉ rest) (hne : rest ≠ []) (eof error : Bool) :
    getline ⟨rest, eof, error⟩ = (some rest, ⟨[], true, error⟩) := by
  obtain ⟨htake, hdrop⟩ := span_rest h
  have hempty : ¬ rest.isEmpty = true := by
    rw [List.isEmpty_iff]
    exact hne
  simp only [getline, htake, hdrop, if_neg hempty]

/-- A text is a line and what follows its newline, or has no newline. -/
theorem line_or_rest (c : StringT) : (∃ line rest, c = line ++ lineFeed :: rest ∧ lineFeed ∉ line) ∨ lineFeed ∉ c := by
  by_cases hmem : lineFeed ∈ c
  · obtain ⟨line, rest, rfl, hline⟩ := List.eq_append_cons_of_mem hmem
    exact Or.inl ⟨line, rest, rfl, hline⟩
  · exact Or.inr hmem

/-- A call on a line. -/
theorem next_line (h : lineFeed ∉ line) (rest : StringT) (lines : List StringT) :
    Loop.Next readLinesBody (openStream (line ++ lineFeed :: rest), lines) (openStream rest, lines ++ [line]) := by
  have hlen : (line ++ [lineFeed]).take ((line ++ [lineFeed]).length - 1) = line := by
    rw [List.length_append, List.length_singleton, Nat.add_sub_cancel, List.take_left]
  simp only [Loop.Next, readLinesBody, readln, openStream, getline_line h, hlen, Bool.not_false]

/-- The last call, on what has no newline. -/
theorem last_line (h : lineFeed ∉ rest) (lines : List StringT) :
    readLinesBody (openStream rest, lines) = some (.inr (.ok (lines ++ [rest.dropLast]))) := by
  by_cases hne : rest = []
  · subst hne
    rfl
  · simp only [readLinesBody, readln, openStream, getline_rest h hne, Bool.not_true, List.dropLast_eq_take]

/-- **The lines that are read**: those of the text, the last one without its last byte. -/
theorem readLines_returns (c : StringT) (lines : List StringT) :
    Loop.Returns readLinesBody (openStream c, lines)
      (.ok (lines ++ (c.splitOn lineFeed).dropLast ++ [((c.splitOn lineFeed).getLastD []).dropLast])) := by
  induction hn : c.length using Nat.strong_induction_on generalizing c lines with
  | _ n ih =>
      subst hn
      rcases line_or_rest c with ⟨line, rest, rfl, hline⟩ | hnone
      · have hlt : rest.length < (line ++ lineFeed :: rest).length := by
          rw [List.length_append, List.length_cons]
          omega
        have hne := List.splitOn_ne_nil lineFeed rest
        have hrest := ih _ hlt rest (lines ++ [line]) rfl
        rw [(next_line hline rest lines).returns_iff, List.splitOn_append_cons_self_of_not_mem hline,
          List.dropLast_cons_of_ne_nil hne]
        have hlast : (line :: rest.splitOn lineFeed).getLastD [] = (rest.splitOn lineFeed).getLastD [] := by
          obtain ⟨t, ts, hts⟩ := List.exists_cons_of_ne_nil hne
          rw [hts]
          rfl
        rw [List.append_assoc lines] at hrest
        rw [hlast]
        exact hrest
      · rw [List.splitOn_eq_singleton hnone]
        have hdone := Loop.returns_of_done (last_line hnone lines)
        rwa [List.dropLast_singleton, List.append_nil]

/-- The last line of a text is empty where the text is, or ends with a newline. -/
theorem last_empty_iff (c : StringT) :
    (c.splitOn lineFeed).getLastD [] = [] ↔ c = [] ∨ c.getLast? = some lineFeed := by
  induction hn : c.length using Nat.strong_induction_on generalizing c with
  | _ n ih =>
      subst hn
      rcases line_or_rest c with ⟨line, rest, rfl, hline⟩ | hnone
      · have hlt : rest.length < (line ++ lineFeed :: rest).length := by
          rw [List.length_append, List.length_cons]
          omega
        obtain ⟨t, ts, hts⟩ := List.exists_cons_of_ne_nil (List.splitOn_ne_nil lineFeed rest)
        have hrest := ih _ hlt rest rfl
        rw [hts] at hrest
        rw [List.splitOn_append_cons_self_of_not_mem hline, hts]
        refine hrest.trans ?_
        cases rest with
        | nil => simp
        | cons x xs => simp [List.getLast?_append]
      · rw [List.splitOn_eq_singleton hnone]
        constructor
        · exact Or.inl
        · rintro (rfl | hlast)
          · rfl
          · exact absurd (List.mem_of_getLast? hlast) hnone

/-- **Reading by lines** gives what `split` gives, so that the lines can be joined again, exactly for the texts that
are empty or end with a newline. -/
theorem reading_by_lines_iff (c : StringT) :
    (∃ lines, (∃ fuel, readLines (openStream c) fuel = some (.ok lines)) ∧
      (∃ fuel, Cclstr.split c [lineFeed] fuel = some (.ok lines)) ∧ Cclstr.join lines [lineFeed] = c) ↔
    c = [] ∨ c.getLast? = some lineFeed := by
  have hread := readLines_returns c []
  rw [List.nil_append] at hread
  have hsplit := Cclstr.split_char c lineFeed
  have hne := List.splitOn_ne_nil lineFeed c
  have hwhole : (c.splitOn lineFeed).dropLast ++ [(c.splitOn lineFeed).getLastD []] = c.splitOn lineFeed := by
    rw [List.getLastD_eq_getLast?, List.getLast?_eq_some_getLast hne, Option.getD_some]
    exact List.dropLast_append_getLast hne
  rw [← last_empty_iff]
  constructor
  · rintro ⟨lines, hlines, hlines', -⟩
    -- both results are the only ones
    have hread' := Except.ok.inj (hread.unique hlines)
    have hsplit' := Except.ok.inj (Loop.Returns.unique hsplit hlines')
    rw [← hsplit'] at hread'
    nth_rewrite 3 [← hwhole] at hread'
    have hlast := (List.cons.inj (List.append_cancel_left hread')).1
    have hlen := congrArg List.length hlast
    rw [List.length_dropLast] at hlen
    exact List.length_eq_zero_iff.mp (by omega)
  · intro hlast
    rw [hlast] at hread hwhole
    rw [List.dropLast_nil, hwhole] at hread
    refine ⟨_, hread, hsplit, ?_⟩
    rw [Cclstr.join_eq_intercalate, List.intercalate_splitOn]

/-- The one line `a` loses its byte. -/
theorem last_byte_lost : (∃ fuel, readLines (openStream [0x61]) fuel = some (.ok [[]])) ∧
    (∃ fuel, Cclstr.split [0x61] [lineFeed] fuel = some (.ok [[0x61]])) ∧
    ¬ ∃ lines, (∃ fuel, readLines (openStream [0x61]) fuel = some (.ok lines)) ∧
      (∃ fuel, Cclstr.split [0x61] [lineFeed] fuel = some (.ok lines)) ∧
      Cclstr.join lines [lineFeed] = [0x61] := by
  have hread : ∃ fuel, readLines (openStream [0x61]) fuel = some (.ok [[]]) := ⟨1, rfl⟩
  refine ⟨hread, ⟨1, rfl⟩, ?_⟩
  rintro ⟨lines, hlines, -, hjoin⟩
  obtain rfl := Except.ok.inj (Loop.Returns.unique hread hlines)
  exact absurd hjoin (by decide)

end Cclsys
end Cclib
