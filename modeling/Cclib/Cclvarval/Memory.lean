import Cclib.Cclvarval.Reaches

/-!
# `Cclvarval.Memory` — what a validator remembers

From one call to the next a validator keeps the two stacks, which `validate` empties, the cells, where the first
call can make a blank `"root"` entry, and the cache of regular expressions. A cached pointer is what the code would
make anew, except after a pattern was rejected: then the entry holds a null pointer if `m_regex_map[k]` is evaluated
before `new regex_c(k)`, and the next call that comes to the pattern follows it.

`Meets` says, in the terms of the schema language, that a validation comes to a rejected pattern.
`outcome_iff_fresh`: a call has the outcome it has on a fresh validator exactly if the pattern it meets was not met
before, or the operands are evaluated in the other order.
-/

namespace Cclib
namespace Cclvarval

open Cclvar Compare Run

variable {F R : Type}

/-! ## Rejected patterns -/

section Meeting

variable [LT F] [DecidableLT F] (lib : RegexLib R) (s : Store F) (schema : Addr) (key : StringT)

/-- The pattern is `key`, and `regcomp` rejects it. -/
def Rejected (key' : StringT) : Prop := key' = key ∧ ∃ e, lib.regexC key = .error e

/-- **The validation of a value against a property dict comes to the rejected pattern `key`**, itself or by a nested
    validation. -/
inductive Meets : Addr → Addr → Prop where
  | intro {value props : Addr} (Sub : Addr → Addr → Prop) (hSub : ∀ value props, Sub value props → Meets value props) :
      PairReaches lib s schema (Rejected lib key) (Satisfies lib s schema) Sub value props → Meets value props

end Meeting

/-! ## Reports with a rejected pattern -/

section Reports

variable {lib : RegexLib R} {key : StringT} {pair : Addr → Addr → Result} {r : Report}

theorem taskReaches_iff {t : Task} : (∃ r, runTask lib pair t = some (.error r) ∧ r.rejected = some key) ↔
    TaskReaches (Rejected lib key) (fun value props => ∃ r, pair value props = some (.error r) ∧ r.rejected = some key) t := by
  cases t with
  | fail e values props => simp [runTask, TaskReaches]
  | hang => simp [runTask, TaskReaches]
  | regex key' text =>
      -- a pattern that compiles is not the rejected one
      simp only [runTask, TaskReaches]
      cases hk : lib.regexC key' with
      | error e =>
          constructor
          · rintro ⟨r, hr, hkey⟩
            obtain rfl := Except.error.inj (Option.some.inj hr)
            obtain rfl := Option.some.inj hkey
            exact ⟨rfl, e, hk⟩
          · rintro ⟨rfl, -⟩
            exact ⟨_, rfl, rfl⟩
      | ok r =>
          constructor
          · rintro ⟨r', hr, hkey⟩
            by_cases hm : lib.matches r text = true
            · simp [hm] at hr
            · obtain rfl : _ = r' := by simpa [hm] using hr
              simp at hkey
          · rintro ⟨rfl, e, he⟩
            rw [hk] at he
            simp at he
  | pair value props values pushed =>
      simp only [runTask, TaskReaches]
      cases pair value props with
      | none => simp
      | some x => cases x <;> simp [Report.push]

variable [LT F] [DecidableLT F] {s : Store F} {schema : Addr}

theorem meets_of_report : ∀ {fuel : Nat} {value props : Addr} {r : Report},
    report lib s schema fuel value props = some (.error r) → r.rejected = some key → Meets lib s schema key value props
  | 0, _, _, _, h, _ => by simp [report] at h
  | fuel + 1, value, props, r, h, hr => by
      have hreach : Eventually (TasksReach lib (Rejected lib key) (Satisfies lib s schema) (fun value props =>
          ∃ r, report lib s schema fuel value props = some (.error r) ∧ r.rejected = some key))
          (fun n => pairTasks s schema n value props) := by
        refine ⟨fuel, (runTasks_error.mp h).imp (fun t _ ht => ?_) (fun t _ ht => taskReaches_iff.mp ⟨r, ht, hr⟩)⟩
        exact (taskSat_of_runTask ht).imp (fun _ _ => satisfies_of_report)
      refine .intro _ ?_ (reach_pairTasks.mp hreach)
      rintro value' props' ⟨r', h', hr'⟩
      exact meets_of_report h' hr'

theorem report_of_meets {value props : Addr} (h : Meets lib s schema key value props) :
    ∃ fuel r, report lib s schema fuel value props = some (.error r) ∧ r.rejected = some key := by
  induction h with
  | @intro value props Sub _ hpair ih =>
      obtain ⟨depth, before, t, after, hts, hb, ht⟩ := reach_pairTasks.mpr hpair
      -- fuel for the tasks before the pattern is met, and for the task that meets it
      obtain ⟨fuel, hbefore⟩ := exists_fuel (fun u hu => (hb u hu).imp (fun _ _ => report_of_satisfies))
      have htask : ∃ k, ∀ m, k ≤ m →
          ∃ r, runTask lib (report lib s schema m) t = some (.error r) ∧ r.rejected = some key := by
        cases t with
        | pair value' props' values pushed =>
            obtain ⟨k, r, hr, hkey⟩ := ih value' props' ht
            exact ⟨k, fun m hm => taskReaches_iff.mpr ⟨r, report_mono hm hr, hkey⟩⟩
        | _ => exact ⟨0, fun m _ => taskReaches_iff.mpr ht⟩
      obtain ⟨k, htask⟩ := htask
      let N := max depth (max fuel k)
      have hle : TasksLe (pairTasks s schema depth value props) (pairTasks s schema N value props) :=
        pairTasks_le (by omega) value props
      have hne : t ≠ .hang := by
        rintro rfl
        exact ht
      obtain ⟨after', hN⟩ := hle.split hts (fun u hu => (hb u hu).ne_hang) hne
      obtain ⟨r, hr, hkey⟩ := htask N (by omega)
      refine ⟨N + 1, r, ?_, hkey⟩
      unfold report
      refine runTasks_error.mpr ⟨before, t, after', hN, fun u hu => ?_, hr⟩
      exact runTask_of_taskSat (hbefore N (by omega) u hu)

/-- What a validation comes to with a rejected pattern. -/
theorem report_rejected_iff {value props : Addr} :
    (∃ fuel r, report lib s schema fuel value props = some (.error r) ∧ r.rejected = some key)
      ↔ Meets lib s schema key value props :=
  ⟨fun ⟨_, _, h, hr⟩ => meets_of_report h hr, report_of_meets⟩

end Reports

/-! ## Calls on one validator -/

section Calls

variable [LT F] [DecidableLT F] (lib : RegexLib R) (order : OperandOrder) (s : Store F) (schema : Addr)

/-- What a caller sees of a call: how it ended, and the two stacks. -/
def outcome (fuel : Nat) (value : Addr) (σ : ValidatorC F R) : Option (Except Fault Unit × List Elem × List Elem) :=
  (validate lib order fuel value σ).map (fun out => (out.1, out.2.valueStack, out.2.propsStack))

/-- The call has the outcome it has on a fresh validator with the schema, and follows no null pointer. -/
def AsFresh (value : Addr) (σ : ValidatorC F R) : Prop :=
  ∀ fuel, outcome lib order fuel value σ = outcome lib order fuel value (ValidatorC.mk' s schema)
    ∧ ∀ σ', validate lib order fuel value σ ≠ some (.error .nullRegex, σ')

/-- The validation of the value against the `"root"` entry comes to the rejected pattern. -/
def RootMeets (value : Addr) (key : StringT) : Prop :=
  ∃ root, RootEntry s schema root ∧ Meets lib s schema key value root

/-- A validator after calls on these values. -/
structure Remembers (values : List Addr) (σ : ValidatorC F R) : Prop where
  coherent : Coherent lib σ
  reports : ∀ fuel value, rootReport lib σ.store σ.schema fuel value = rootReport lib s schema fuel value
  nulled : ∀ key, Nulled σ key ↔ order = .keyFirst ∧ ∃ u ∈ values, RootMeets lib s schema u key

variable {lib order s schema} {σ σ' : ValidatorC F R} {values : List Addr} {value : Addr} {key : StringT}

/-- The blank `"root"` entry that a call makes is as good as none. -/
theorem rootReport_rootStore (s : Store F) (schema : Addr) (fuel fuel' : Nat) (value : Addr) :
    rootReport lib (rootStore s schema fuel) schema fuel' value = rootReport lib s schema fuel' value := by
  unfold rootStore
  rcases hf : Access.find s fuel schema (bytes "root") with _ | e | root | ⟨es, i⟩
  · rfl
  · rfl
  · rfl
  · have hf' := find_depth (s := s) fuel' fuel schema (bytes "root")
    rw [hf] at hf'
    unfold rootReport
    rw [find_addEntry hf', hf']

theorem rootMeets_iff {fuel : Nat} {x : Except Report Unit} (h : rootReport lib s schema fuel value = some x) :
    RootMeets lib s schema value key ↔ ∃ r, x = .error r ∧ r.rejected = some key := by
  have hno : (∀ root, Access.find s fuel schema (bytes "root") ≠ some (.ok (.value root))) →
      ¬ RootMeets lib s schema value key := by
    rintro hne ⟨root, hroot, -⟩
    exact hne root (hroot.find fuel)
  unfold rootReport at h
  rcases hf : Access.find s fuel schema (bytes "root") with _ | e | root | ⟨es, i⟩
  · rw [hf] at h
    simp at h
  · rw [hf] at h
    obtain rfl := Option.some.inj h
    exact iff_of_false (hno (by simp [hf])) (by simp)
  · rw [hf] at h
    constructor
    · rintro ⟨root', hroot', hmeets⟩
      obtain rfl : root' = root := by simpa [hroot'.find fuel] using hf
      obtain ⟨fuel', r, hr, hkey⟩ := report_of_meets hmeets
      exact ⟨r, report_unique h hr, hkey⟩
    · rintro ⟨r, rfl, hkey⟩
      exact ⟨root, ⟨fuel, hf⟩, meets_of_report h hkey⟩
  · rw [hf] at h
    obtain rfl := report_missing hf h
    exact iff_of_false (hno (by simp [hf])) (by simp)

theorem RootMeets.report (h : RootMeets lib s schema value key) :
    ∃ fuel r, rootReport lib s schema fuel value = some (.error r) ∧ r.rejected = some key := by
  obtain ⟨root, hroot, hmeets⟩ := h
  obtain ⟨fuel, r, hr, hkey⟩ := report_of_meets hmeets
  exact ⟨fuel, r, (hroot.rootReport fuel value).trans hr, hkey⟩

theorem remembers_new (s : Store F) (schema : Addr) :
    Remembers lib order s schema [] (ValidatorC.mk' s schema : ValidatorC F R) where
  coherent := coherent_new s schema
  reports := fun _ _ => rfl
  nulled := fun key => by simp [Nulled, ValidatorC.mk']

/-- One call. -/
theorem Remembers.call (h : Remembers lib order s schema values σ) {fuel : Nat} {r : Except Fault Unit}
    (hr : validate lib order fuel value σ = some (r, σ')) (hne : r ≠ .error .nullRegex) :
    Remembers lib order s schema (values ++ [value]) σ' := by
  have hfin : Finishes lib order fuel σ _ (validate lib order fuel value σ) := validate_finishes fuel h.coherent value
  rw [hr, h.reports] at hfin
  have hcells : ∀ null, Validated lib fuel σ null σ' → ∀ fuel value,
      rootReport lib σ'.store σ'.schema fuel value = rootReport lib s schema fuel value := by
    intro null hv fuel' value'
    rw [hv.store, hv.schema, rootReport_rootStore, h.reports]
  generalize hreport : rootReport lib s schema fuel value = result at hfin
  cases hfin with
  | null => exact absurd rfl hne
  | returns hv =>
      refine ⟨hv.coherent, hcells _ hv, fun key => ?_⟩
      rw [hv.nulled, h.nulled]
      simp [rootMeets_iff hreport]
  | throws _ hv =>
      refine ⟨hv.coherent, hcells _ hv, fun key => ?_⟩
      rw [hv.nulled, h.nulled]
      cases order with
      | newFirst => simp
      | keyFirst => simp [rootMeets_iff hreport, or_and_right, exists_or]

/-- A run of calls. -/
theorem Called.remembers {before : List Addr} (h : Called lib order σ values σ')
    (hσ : Remembers lib order s schema before σ) : Remembers lib order s schema (before ++ values) σ' := by
  induction h generalizing before with
  | none σ => rwa [List.append_nil]
  | call hr hne _ ih =>
      rw [← List.singleton_append, ← List.append_assoc]
      exact ih (hσ.call hr hne)

/-- Where two validators have the same report and no pattern in it is cached with a null pointer, a call ends alike. -/
theorem Finishes.outcome_eq {fuel : Nat} {σ₀ : ValidatorC F R} {result : Result}
    (h : Finishes lib order fuel σ result (validate lib order fuel value σ))
    (h₀ : Finishes lib order fuel σ₀ result (validate lib order fuel value σ₀))
    (hnull : ∀ r key, result = some (.error r) → r.rejected = some key → ¬ Nulled σ key)
    (hnull₀ : ∀ r key, result = some (.error r) → r.rejected = some key → ¬ Nulled σ₀ key) :
    outcome lib order fuel value σ = outcome lib order fuel value σ₀
      ∧ ∀ σ', validate lib order fuel value σ ≠ some (.error .nullRegex, σ') := by
  unfold outcome
  generalize validate lib order fuel value σ = out at h ⊢
  generalize validate lib order fuel value σ₀ = out₀ at h₀ ⊢
  cases h with
  | runs =>
      cases h₀
      exact ⟨rfl, by simp⟩
  | returns _ hv hp =>
      cases h₀ with
      | returns _ hv₀ hp₀ => exact ⟨by simp [hv, hp, hv₀, hp₀], by simp⟩
  | throws _ _ hv hp =>
      cases h₀ with
      | throws _ _ hv₀ hp₀ => exact ⟨by simp [hv, hp, hv₀, hp₀], by simp⟩
      | null hk hn => exact absurd hn (hnull₀ _ _ rfl hk)
  | null hk hn => exact absurd hn (hnull _ _ rfl hk)

/-- **What a validator remembers**: a call after any others is as on a fresh validator exactly if `new regex_c(k)` is
    evaluated first, or no call before it met the rejected pattern that it meets. -/
theorem asFresh_iff (hσ : Called lib order (ValidatorC.mk' s schema) values σ) (value : Addr) :
    AsFresh lib order s schema value σ ↔ order = .newFirst
      ∨ ∀ u ∈ values, ∀ key, RootMeets lib s schema u key → ¬ RootMeets lib s schema value key := by
  have hrem := hσ.remembers (remembers_new s schema)
  rw [List.nil_append] at hrem
  constructor
  · intro h
    cases order with
    | newFirst => exact .inl rfl
    | keyFirst =>
        refine .inr (fun u hu key hmeets hvalue => ?_)
        -- the null pointer that the call on `u` left behind is followed
        have hnull : Nulled σ key := (hrem.nulled key).mpr ⟨rfl, u, hu, hmeets⟩
        obtain ⟨fuel, r, hreport, hkey⟩ := hvalue.report
        have hfin : Finishes lib .keyFirst fuel σ _ (validate lib .keyFirst fuel value σ) :=
          validate_finishes fuel hrem.coherent value
        rw [hrem.reports, hreport] at hfin
        have hfresh := (h fuel).2
        generalize validate lib .keyFirst fuel value σ = out at hfin hfresh
        cases hfin with
        | throws hno => exact hno key hkey hnull
        | null => exact hfresh _ rfl
  · intro h fuel
    have hfin : Finishes lib order fuel σ _ (validate lib order fuel value σ) := validate_finishes fuel hrem.coherent value
    rw [hrem.reports] at hfin
    apply hfin.outcome_eq (validate_finishes fuel (coherent_new s schema) value)
    · intro r key hreport hkey hnull
      obtain ⟨horder, u, hu, hmeets⟩ := (hrem.nulled key).mp hnull
      rcases h with rfl | h
      · simp at horder
      · exact h u hu key hmeets ((rootMeets_iff hreport).mpr ⟨r, rfl, hkey⟩)
    · intro r key _ _
      simp [Nulled, ValidatorC.mk']

/-- The theorem for the schema `{"root": {"regex": "["}}` and the text `"x"`, after a call that rejected the pattern. -/
theorem asFresh_after_rejected :
    let s : Store Nat := ⟨[.dict [(1, 2)], .string (bytes "root"), .dict [(3, 4)], .string (bytes "regex"),
      .string (bytes "["), .string (bytes "x")], []⟩
    ∃ σ, Called rejectAll .newFirst (ValidatorC.mk' s 0) [5] σ
      ∧ (AsFresh rejectAll .newFirst s 0 5 σ ↔ OperandOrder.newFirst = .newFirst
        ∨ ∀ u ∈ [5], ∀ key, RootMeets rejectAll s 0 u key → ¬ RootMeets rejectAll s 0 5 key) := by
  intro s
  have hcall : validate rejectAll .newFirst 2 5 (ValidatorC.mk' s 0)
      = some (.error (.exception .regexInvalidExpressionString), _) := rfl
  have hσ := Called.call hcall (by simp) (.none _)
  exact ⟨_, hσ, asFresh_iff hσ 5⟩

/-- With the other order of the operands the second call follows the null pointer that the first one left. -/
theorem null_regex_followed :
    let s : Store Nat := ⟨[.dict [(1, 2)], .string (bytes "root"), .dict [(3, 4)], .string (bytes "regex"),
      .string (bytes "["), .string (bytes "x")], []⟩
    ∃ σ σ', validate rejectAll .keyFirst 2 5 (ValidatorC.mk' s 0)
        = some (.error (.exception .regexInvalidExpressionString), σ)
      ∧ validate rejectAll .keyFirst 2 5 σ = some (.error .nullRegex, σ')
      ∧ ¬ AsFresh rejectAll .keyFirst s 0 5 σ := by
  intro s
  refine ⟨_, _, rfl, rfl, fun h => ?_⟩
  exact (h 2).2 _ rfl

end Calls

end Cclvarval
end Cclib
