import Cclib.Cclvarval.Entries

/-!
# `Cclvarval.Satisfies` — the schema language

`Satisfies` says when a value satisfies a property dict: every entry of the dict holds, where `PropHolds` says for
each property what that means. It does not say in which order anything is looked at, and nothing in it throws.
`validate_iff_satisfies`: `validate` returns normally exactly for the values that satisfy the `"root"` entry.

A string under `items`, `opt-items`, `all-keys` and `all-items` means the schema entry of that name (`Means`), and so
does the value of a property whose name starts with `"ref"`. The `"root"` entry itself and the entries that are
referred to have to be property dicts (`string_entry_rejected`).
-/

namespace Cclib
namespace Cclvarval

open Cclvar Compare Run

variable {F R : Type}

/-! ## What the properties mean -/

section Reading

variable [LT F] [DecidableLT F] (lib : RegexLib R) (s : Store F) (schema : Addr)

/-- The comparison of the value with the property comes out well. -/
def Compares (good : Int → Prop) (value prop : Addr) : Prop := ∃ depth r, s.compare depth value prop = some r ∧ good r

/-- The value has a size, the property is a number, and they are related. -/
def Sizes (good : Int → Int → Prop) (value prop : Addr) : Prop :=
  ∃ d size n, s.look value = some d ∧ sizeOf? d = some size ∧ s.look prop = some (.integer n) ∧ good size n.toInt

variable (Sat : Addr → Addr → Prop)

/-- The value satisfies the schema entry of that name. -/
def RefHolds (value q : Addr) : Prop := ∃ t ref, s.look q = some (.string t) ∧ Found s schema q ref ∧ Sat value ref

/-- The value satisfies the property dict, or the schema entry of that name. -/
def Means (value q : Addr) : Prop :=
  RefHolds s schema Sat value q ∨ ∃ d, s.look q = some d ∧ (∀ t, d ≠ .string t) ∧ Sat value q

/-- A property that is checked without a nested validation or a regular expression. -/
def PropId.isCheck : PropId → Bool
  | .regex | .items | .optItems | .allKeys | .allItems => false
  | _ => true

/-- What a property says of a value. -/
def PropHolds (value prop : Addr) : PropId → Prop
  | .type => ∃ t type d, s.look prop = some (.string t) ∧ cTypeMap.lookup t = some type ∧ s.look value = some d ∧ d.type = type
  | .equal => Compares s (· = 0) value prop
  | .notEqual => Compares s (· ≠ 0) value prop
  | .lesser => Compares s (· < 0) value prop
  | .greater => Compares s (· > 0) value prop
  | .lesserEqual => Compares s (· ≤ 0) value prop
  | .greaterEqual => Compares s (· ≥ 0) value prop
  | .sizeEqual => Sizes s (· = ·) value prop
  | .sizeNotEqual => Sizes s (· ≠ ·) value prop
  | .sizeLesser => Sizes s (· < ·) value prop
  | .sizeGreater => Sizes s (· > ·) value prop
  | .sizeLesserEqual => Sizes s (· ≤ ·) value prop
  | .sizeGreaterEqual => Sizes s (· ≥ ·) value prop
  | .regex => ∃ text key r, s.look value = some (.string text) ∧ s.look prop = some (.string key)
      ∧ lib.regexC key = .ok r ∧ lib.matches r text = true
  | .items =>
    (∃ xs es, s.look value = some (.array xs) ∧ s.look prop = some (.dict es) ∧ ∀ e ∈ es, ∃ n item,
      s.look e.1 = some (.integer n) ∧ arrayAt xs n = some item ∧ Means s schema Sat item e.2)
    ∨ ∃ vs es, s.look value = some (.dict vs) ∧ s.look prop = some (.dict es) ∧ ∀ e ∈ es, ∃ item,
      Found s value e.1 item ∧ Means s schema Sat item e.2
  | .optItems => ∃ vs es, s.look value = some (.dict vs) ∧ s.look prop = some (.dict es) ∧ ∀ e ∈ es,
      NotFound s value e.1 ∨ ∃ item, Found s value e.1 item ∧ Means s schema Sat item e.2
  | .allKeys => ∃ vs, s.look value = some (.dict vs) ∧ ∀ e ∈ vs, Means s schema Sat e.1 prop
  | .allItems =>
    (∃ xs, (s.look value = some (.array xs) ∨ s.look value = some (.set xs) ∨ s.look value = some (.list xs))
      ∧ ∀ x ∈ xs, Means s schema Sat x prop)
    ∨ ∃ vs, s.look value = some (.dict vs) ∧ ∀ e ∈ vs, Means s schema Sat e.2 prop

/-- An entry of a property dict holds: its name is a text, that of a property or one that starts with `"ref"`. -/
def EntryHolds (value : Addr) (e : Addr × Addr) : Prop :=
  ∃ name, s.look e.1 = some (.string name) ∧ match cPropMap.lookup name with
    | some propId => PropHolds lib s schema Sat value e.2 propId
    | none => isRef name = true ∧ RefHolds s schema Sat value e.2

/-- **A value satisfies a property dict** if every entry holds: the least relation with that property. -/
inductive Satisfies : Addr → Addr → Prop where
  | intro {value props : Addr} {es : List (Addr × Addr)} (Sat : Addr → Addr → Prop)
      (hSat : ∀ value props, Sat value props → Satisfies value props) : s.look props = some (.dict es) →
      (∀ e ∈ es, EntryHolds lib s schema Sat value e) → Satisfies value props

end Reading

/-! ## What tasks come to -/

/-- At some depth the tasks have the property. -/
def Eventually (Φ : List Task → Prop) (ts : Nat → List Task) : Prop := ∃ depth, Φ (ts depth)

/-- More depth only ends more comparisons. -/
def Grows (ts : Nat → List Task) : Prop := ∀ n m, n ≤ m → TasksLe (ts n) (ts m)

/-- Something that tasks can come to: more depth does not change it, neither a failure nor a comparison that hangs
    comes to it, and a nested validation does where `Sat` says so. -/
structure Outcome (Φ : List Task → Prop) (Sat : Addr → Addr → Prop) : Prop where
  later : ∀ {ts us}, TasksLe ts us → Φ ts → Φ us
  fail : ∀ e values props, ¬ Φ [.fail e values props]
  hang : ¬ Φ [.hang]
  pair : ∀ value props values pushed, Φ [.pair value props values pushed] ↔ Sat value props

section Outcome

variable {Φ : List Task → Prop} {Sat : Addr → Addr → Prop}

theorem eventually_const {ts : List Task} : Eventually Φ (fun _ => ts) ↔ Φ ts := by
  constructor
  · intro h
    exact h.choose_spec
  · intro h
    exact ⟨0, h⟩

theorem grows_const (ts : List Task) : Grows (fun _ => ts) := fun _ _ _ => .refl ts

theorem Outcome.not_fail (hΦ : Outcome Φ Sat) {e : Error} {values props : List Elem} :
    ¬ Eventually Φ (fun _ => [.fail e values props]) := by
  rw [eventually_const]
  exact hΦ.fail e values props

theorem Outcome.pair_iff (hΦ : Outcome Φ Sat) {value props : Addr} {values pushed : List Elem} :
    Eventually Φ (fun _ => [.pair value props values pushed]) ↔ Sat value props :=
  eventually_const.trans (hΦ.pair value props values pushed)

theorem Outcome.check (hΦ : Outcome Φ Sat) {b : Prop} [Decidable b] {e : Error} :
    Eventually Φ (fun _ => if b then [Task.fail e [] []] else []) ↔ ¬ b ∧ Φ [] := by
  rw [eventually_const]
  by_cases hb : b
  · simp only [hb, if_true, not_true_eq_false, false_and, iff_false]
    exact hΦ.fail e [] []
  · simp [hb]

/-- An access that needs depth: it has to come to an answer, from which the tasks go on. -/
theorem Outcome.after (hΦ : Outcome Φ Sat) {α : Type} {r : Nat → Access α} {f : Nat → α → List Task}
    (hr : ∀ n m x, n ≤ m → r n = some x → r m = some x) (hf : ∀ a, Grows (fun n => f n a)) :
    Eventually Φ (fun n => after (r n) (f n)) ↔ ∃ a, (∃ n, r n = some (.ok a)) ∧ Eventually Φ (fun n => f n a) := by
  constructor
  · rintro ⟨n, h⟩
    cases hn : r n with
    | none =>
        simp only [hn, Cclvarval.after] at h
        exact (hΦ.hang h).elim
    | some x =>
        cases x with
        | error e =>
            simp only [hn, Cclvarval.after] at h
            exact (hΦ.fail e [] [] h).elim
        | ok a =>
            simp only [hn, Cclvarval.after] at h
            exact ⟨a, ⟨n, hn⟩, n, h⟩
  · rintro ⟨a, ⟨n, hn⟩, m, hm⟩
    refine ⟨max n m, ?_⟩
    simp only [hr n _ _ (Nat.le_max_left n m) hn, Cclvarval.after]
    exact hΦ.later (hf a m _ (Nat.le_max_right n m)) hm

/-- An access that needs no depth. -/
theorem Outcome.look (hΦ : Outcome Φ Sat) {α : Type} {r : Access α} {f : Nat → α → List Task}
    (hf : ∀ a, Grows (fun n => f n a)) :
    Eventually Φ (fun n => Cclvarval.after r (f n)) ↔ ∃ a, r = some (.ok a) ∧ Eventually Φ (fun n => f n a) := by
  refine (hΦ.after (r := fun _ => r) (fun _ _ _ _ h => h) hf).trans ?_
  simp

theorem Outcome.look_const (hΦ : Outcome Φ Sat) {α : Type} {r : Access α} {f : α → List Task} :
    Eventually Φ (fun _ => Cclvarval.after r f) ↔ ∃ a, r = some (.ok a) ∧ Eventually Φ (fun _ => f a) :=
  hΦ.look (fun a => grows_const (f a))

end Outcome

/-! ### The properties one by one -/

section Properties

variable [LT F] [DecidableLT F] {s : Store F} {schema value prop q : Addr}

theorem grows_reference {values props : List Elem} : Grows (fun n => referenceTasks s schema n value q values props) :=
  fun _ _ h => referenceTasks_le h value q values props

theorem grows_call {selector : Elem} {name : String} : Grows (fun n => callTasks s schema n value q selector name) :=
  fun _ _ h => callTasks_le h value q selector name

theorem grows_index {xs : List Addr} (e : Addr × Addr) : Grows (fun n => indexTasks s schema n xs e) :=
  fun _ _ h => indexTasks_le h xs e

theorem grows_key (e : Addr × Addr) : Grows (fun n => keyTasks s schema n value e) := fun _ _ h => keyTasks_le h value e

theorem grows_optKey (e : Addr × Addr) : Grows (fun n => optKeyTasks s schema n value e) :=
  fun _ _ h => optKeyTasks_le h value e

theorem Grows.flatMap {β : Type} {f : Nat → β → List Task} (hf : ∀ x, Grows (fun n => f n x)) (xs : List β) :
    Grows (fun n => xs.flatMap (f n)) := fun n m h => .flatMap (fun x => hf x n m h) xs

variable {Φ : List Task → Prop} {Sat : Addr → Addr → Prop}

/-- The search for a key, in the tasks for what it finds. -/
theorem Outcome.hasKey (hΦ : Outcome Φ Sat) {a key : Addr} {f : Nat → Option Addr → List Task}
    (hf : ∀ found, Grows (fun n => f n found)) :
    Eventually Φ (fun n => Cclvarval.after (Access.hasKey s n a key) (f n)) ↔
      (NotFound s a key ∧ Eventually Φ (fun n => f n none))
        ∨ ∃ item, Found s a key item ∧ Eventually Φ (fun n => f n (some item)) := by
  refine (hΦ.after (fun n m x hnm hx => hasKey_mono hnm hx) hf).trans ?_
  constructor
  · rintro ⟨found, hn, h⟩
    cases found with
    | none => exact .inl ⟨hn, h⟩
    | some item => exact .inr ⟨item, hn, h⟩
  · rintro (⟨hn, h⟩ | ⟨item, hn, h⟩)
    · exact ⟨none, hn, h⟩
    · exact ⟨some item, hn, h⟩

theorem Outcome.hasKey_const (hΦ : Outcome Φ Sat) {a key : Addr} {f : Option Addr → List Task} :
    Eventually Φ (fun n => Cclvarval.after (Access.hasKey s n a key) f) ↔
      (NotFound s a key ∧ Eventually Φ (fun _ => f none))
        ∨ ∃ item, Found s a key item ∧ Eventually Φ (fun _ => f (some item)) :=
  hΦ.hasKey (fun found => grows_const (f found))

theorem Outcome.reference (hΦ : Outcome Φ Sat) (values props : List Elem) :
    Eventually Φ (fun n => referenceTasks s schema n value q values props) ↔ RefHolds s schema Sat value q := by
  refine (hΦ.look ?_).trans ?_
  · rintro (_ | _ | _ | _ | _ | _ | _ | _ | _)
    case string t => exact fun n m h => after_le (fun _ hr => hasKey_mono h hr) (fun ref => .refl _)
    all_goals exact grows_const _
  · constructor
    · rintro ⟨d, hd, h⟩
      cases d with
      | string t =>
          rcases hΦ.hasKey_const.mp h with ⟨-, h⟩ | ⟨ref, hfound, h⟩
          · exact (hΦ.not_fail h).elim
          · exact ⟨t, ref, loc_eq.mp hd, hfound, hΦ.pair_iff.mp h⟩
      | _ => exact (hΦ.not_fail h).elim
    · rintro ⟨t, ref, hq, hfound, hsat⟩
      refine ⟨.string t, loc_eq.mpr hq, ?_⟩
      exact hΦ.hasKey_const.mpr (.inr ⟨ref, hfound, hΦ.pair_iff.mpr hsat⟩)

theorem Outcome.call (hΦ : Outcome Φ Sat) (selector : Elem) (name : String) :
    Eventually Φ (fun n => callTasks s schema n value q selector name) ↔ Means s schema Sat value q := by
  refine (hΦ.look ?_).trans ?_
  · rintro (_ | _ | _ | _ | _ | _ | _ | _ | _)
    case string t => exact grows_reference
    all_goals exact grows_const _
  · constructor
    · rintro ⟨d, hd, h⟩
      cases d with
      | string t => exact .inl ((hΦ.reference _ _).mp h)
      | _ => exact .inr ⟨_, loc_eq.mp hd, by simp, hΦ.pair_iff.mp h⟩
    · rintro (h | ⟨d, hd, hne, hsat⟩)
      · obtain ⟨t, -, ht, -⟩ := id h
        exact ⟨.string t, loc_eq.mpr ht, (hΦ.reference _ _).mpr h⟩
      · refine ⟨d, loc_eq.mpr hd, ?_⟩
        cases d with
        | string t => exact absurd rfl (hne t)
        | _ => exact hΦ.pair_iff.mpr hsat

theorem Outcome.compare (hΦ : Outcome Φ Sat) {bad : Int → Bool} {good : Int → Prop} (hbad : ∀ r, good r ↔ ¬ bad r = true) :
    Eventually Φ (fun n => compareTasks s n value prop bad) ↔ Compares s good value prop ∧ Φ [] := by
  refine (hΦ.after (fun n m x hnm hx => compare_mono hnm hx) ?_).trans ?_
  · exact fun _ => grows_const _
  constructor
  · rintro ⟨r, ⟨n, hn⟩, h⟩
    obtain ⟨r', hr', hr⟩ := Option.map_eq_some_iff.mp hn
    obtain rfl := Except.ok.inj hr
    obtain ⟨hb, hnil⟩ := hΦ.check.mp h
    exact ⟨⟨n, r', hr', (hbad r').mpr hb⟩, hnil⟩
  · rintro ⟨⟨n, r, hr, hgood⟩, hnil⟩
    refine ⟨r, ⟨n, ?_⟩, hΦ.check.mpr ⟨(hbad r).mp hgood, hnil⟩⟩
    unfold Access.compare
    rw [hr]
    rfl

omit [LT F] [DecidableLT F] in
theorem Outcome.size (hΦ : Outcome Φ Sat) {bad : Int → Int → Bool} {good : Int → Int → Prop}
    (hbad : ∀ v p, good v p ↔ ¬ bad v p = true) :
    Eventually Φ (fun _ => sizeTasks s value prop bad) ↔ Sizes s good value prop ∧ Φ [] := by
  refine hΦ.look_const.trans ?_
  constructor
  · rintro ⟨d, hd, h⟩
    cases hsize : sizeOf? d with
    | none =>
        rw [hsize] at h
        exact (hΦ.not_fail h).elim
    | some size =>
        rw [hsize] at h
        obtain ⟨n, hn, h⟩ := hΦ.look_const.mp h
        obtain ⟨hb, hnil⟩ := hΦ.check.mp h
        exact ⟨⟨d, size, n, loc_eq.mp hd, hsize, toInt_eq.mp hn, (hbad _ _).mpr hb⟩, hnil⟩
  · rintro ⟨⟨d, size, n, hd, hsize, hn, hgood⟩, hnil⟩
    refine ⟨d, loc_eq.mpr hd, ?_⟩
    rw [hsize]
    exact hΦ.look_const.mpr ⟨n, toInt_eq.mpr hn, hΦ.check.mpr ⟨(hbad _ _).mp hgood, hnil⟩⟩

omit [LT F] [DecidableLT F] in
theorem Outcome.type (hΦ : Outcome Φ Sat) : Eventually Φ (fun _ => typeTasks s value prop) ↔
    (∃ t type d, s.look prop = some (.string t) ∧ cTypeMap.lookup t = some type ∧ s.look value = some d ∧ d.type = type)
      ∧ Φ [] := by
  refine hΦ.look_const.trans ?_
  constructor
  · rintro ⟨d, hd, h⟩
    cases d with
    | string t =>
        have hp := loc_eq.mp hd
        cases hl : cTypeMap.lookup t with
        | none =>
            simp only [hl] at h
            exact (hΦ.not_fail h).elim
        | some type =>
            simp only [hl] at h
            obtain ⟨d, hd, h⟩ := hΦ.look_const.mp h
            obtain ⟨hty, hnil⟩ := hΦ.check.mp h
            exact ⟨⟨t, type, d, hp, hl, loc_eq.mp hd, not_not.mp hty⟩, hnil⟩
    | _ => exact (hΦ.not_fail h).elim
  · rintro ⟨⟨t, type, d, hp, hl, hd, hty⟩, hnil⟩
    refine ⟨.string t, loc_eq.mpr hp, ?_⟩
    simp only [hl]
    exact hΦ.look_const.mpr ⟨d, loc_eq.mpr hd, hΦ.check.mpr ⟨not_not.mpr hty, hnil⟩⟩

theorem Outcome.checks (hΦ : Outcome Φ Sat) (lib : RegexLib R) {propId : PropId} (h : propId.isCheck = true) :
    Eventually Φ (fun n => switchTasks s schema n value prop propId)
      ↔ PropHolds lib s schema Sat value prop propId ∧ Φ [] := by
  cases propId with
  | regex | items | optItems | allKeys | allItems => simp [PropId.isCheck] at h
  | type => exact hΦ.type
  | equal | notEqual | lesser | greater | lesserEqual | greaterEqual => exact hΦ.compare (by simp)
  | sizeEqual | sizeNotEqual | sizeLesser | sizeGreater | sizeLesserEqual | sizeGreaterEqual =>
      unfold switchTasks PropHolds
      exact hΦ.size (by simp)

omit [LT F] [DecidableLT F] in
theorem Outcome.regex (hΦ : Outcome Φ Sat) : Eventually Φ (fun _ => regexTasks s value prop) ↔
    ∃ text key, s.look value = some (.string text) ∧ s.look prop = some (.string key) ∧ Φ [.regex key text] := by
  refine hΦ.look_const.trans ?_
  constructor
  · rintro ⟨d, hd, h⟩
    cases d with
    | string text =>
        obtain ⟨key, hkey, h⟩ := hΦ.look_const.mp h
        exact ⟨text, key, loc_eq.mp hd, toStr_eq.mp hkey, eventually_const.mp h⟩
    | _ => exact (hΦ.not_fail h).elim
  · rintro ⟨text, key, hv, hp, h⟩
    refine ⟨.string text, loc_eq.mpr hv, ?_⟩
    exact hΦ.look_const.mpr ⟨key, toStr_eq.mpr hp, eventually_const.mpr h⟩

theorem Outcome.index (hΦ : Outcome Φ Sat) {xs : List Addr} (e : Addr × Addr) :
    Eventually Φ (fun n => indexTasks s schema n xs e) ↔ ∃ n item,
      s.look e.1 = some (.integer n) ∧ arrayAt xs n = some item ∧ Means s schema Sat item e.2 := by
  refine (hΦ.look ?_).trans ?_
  · intro index
    cases arrayAt xs index with
    | none => exact grows_const _
    | some item => exact grows_call
  · constructor
    · rintro ⟨n, hn, h⟩
      cases hx : arrayAt xs n with
      | none =>
          rw [hx] at h
          exact (hΦ.not_fail h).elim
      | some item =>
          rw [hx] at h
          exact ⟨n, item, toInt_eq.mp hn, hx, (hΦ.call _ _).mp h⟩
    · rintro ⟨n, item, hn, hx, h⟩
      refine ⟨n, toInt_eq.mpr hn, ?_⟩
      rw [hx]
      exact (hΦ.call _ _).mpr h

theorem Outcome.key (hΦ : Outcome Φ Sat) (e : Addr × Addr) : Eventually Φ (fun n => keyTasks s schema n value e) ↔
    ∃ item, Found s value e.1 item ∧ Means s schema Sat item e.2 := by
  refine (hΦ.hasKey ?_).trans ?_
  · rintro (_ | item)
    · exact grows_const _
    · exact grows_call
  · constructor
    · rintro (⟨-, h⟩ | ⟨item, hf, h⟩)
      · exact (hΦ.not_fail h).elim
      · exact ⟨item, hf, (hΦ.call _ _).mp h⟩
    · rintro ⟨item, hf, h⟩
      exact .inr ⟨item, hf, (hΦ.call _ _).mpr h⟩

theorem Outcome.optKey (hΦ : Outcome Φ Sat) (e : Addr × Addr) :
    Eventually Φ (fun n => optKeyTasks s schema n value e) ↔
      (NotFound s value e.1 ∧ Φ []) ∨ ∃ item, Found s value e.1 item ∧ Means s schema Sat item e.2 := by
  refine (hΦ.hasKey ?_).trans ?_
  · rintro (_ | item)
    · exact grows_const _
    · exact grows_call
  · refine or_congr (and_congr_right (fun _ => eventually_const)) (exists_congr (fun item => and_congr_right (fun _ => ?_)))
    exact hΦ.call _ _

theorem Outcome.items (hΦ : Outcome Φ Sat) : Eventually Φ (fun n => itemsTasks s schema n value prop) ↔
    (∃ xs es, s.look value = some (.array xs) ∧ s.look prop = some (.dict es)
      ∧ Eventually Φ (fun n => es.flatMap (indexTasks s schema n xs)))
    ∨ ∃ vs es, s.look value = some (.dict vs) ∧ s.look prop = some (.dict es)
      ∧ Eventually Φ (fun n => es.flatMap (keyTasks s schema n value)) := by
  have hindex : ∀ (xs : List Addr) (es : List (Addr × Addr)), Grows (fun n => es.flatMap (indexTasks s schema n xs)) :=
    fun _ => .flatMap grows_index
  have hkey : ∀ es : List (Addr × Addr), Grows (fun n => es.flatMap (keyTasks s schema n value)) := .flatMap grows_key
  refine (hΦ.look ?_).trans ?_
  · rintro (_ | _ | _ | _ | _ | _ | _ | _ | _)
    case array xs => exact fun n m h => after_le (fun _ h => h) (fun es => hindex xs es n m h)
    case dict vs => exact fun n m h => after_le (fun _ h => h) (fun es => hkey es n m h)
    all_goals exact grows_const _
  · constructor
    · rintro ⟨d, hd, h⟩
      cases d with
      | array xs =>
          obtain ⟨es, hes, h⟩ := (hΦ.look (by exact hindex xs)).mp h
          exact .inl ⟨xs, es, loc_eq.mp hd, toDict_eq.mp hes, h⟩
      | dict vs =>
          obtain ⟨es, hes, h⟩ := (hΦ.look (by exact hkey)).mp h
          exact .inr ⟨vs, es, loc_eq.mp hd, toDict_eq.mp hes, h⟩
      | _ => exact (hΦ.not_fail h).elim
    · rintro (⟨xs, es, hd, hes, h⟩ | ⟨vs, es, hd, hes, h⟩)
      · refine ⟨.array xs, loc_eq.mpr hd, ?_⟩
        exact (hΦ.look (by exact hindex xs)).mpr ⟨es, toDict_eq.mpr hes, h⟩
      · refine ⟨.dict vs, loc_eq.mpr hd, ?_⟩
        exact (hΦ.look (by exact hkey)).mpr ⟨es, toDict_eq.mpr hes, h⟩

theorem Outcome.optItems (hΦ : Outcome Φ Sat) : Eventually Φ (fun n => optItemsTasks s schema n value prop) ↔
    ∃ vs es, s.look value = some (.dict vs) ∧ s.look prop = some (.dict es)
      ∧ Eventually Φ (fun n => es.flatMap (optKeyTasks s schema n value)) := by
  have hkey : ∀ es : List (Addr × Addr), Grows (fun n => es.flatMap (optKeyTasks s schema n value)) := .flatMap grows_optKey
  refine (hΦ.look ?_).trans ?_
  · rintro (_ | _ | _ | _ | _ | _ | _ | _ | _)
    case dict vs => exact fun n m h => after_le (fun _ h => h) (fun es => hkey es n m h)
    all_goals exact grows_const _
  · constructor
    · rintro ⟨d, hd, h⟩
      cases d with
      | dict vs =>
          obtain ⟨es, hes, h⟩ := (hΦ.look (by exact hkey)).mp h
          exact ⟨vs, es, loc_eq.mp hd, toDict_eq.mp hes, h⟩
      | _ => exact (hΦ.not_fail h).elim
    · rintro ⟨vs, es, hd, hes, h⟩
      refine ⟨.dict vs, loc_eq.mpr hd, ?_⟩
      exact (hΦ.look (by exact hkey)).mpr ⟨es, toDict_eq.mpr hes, h⟩

theorem Outcome.allKeys (hΦ : Outcome Φ Sat) : Eventually Φ (fun n => allKeysTasks s schema n value prop) ↔
    ∃ vs, s.look value = some (.dict vs)
      ∧ Eventually Φ (fun n => vs.flatMap (fun e => callTasks s schema n e.1 prop (.var e.1) "all-keys")) := by
  refine (hΦ.look ?_).trans ?_
  · rintro (_ | _ | _ | _ | _ | _ | _ | _ | vs)
    case dict => exact .flatMap (by exact fun _ => grows_call) vs
    all_goals exact grows_const _
  · constructor
    · rintro ⟨d, hd, h⟩
      cases d with
      | dict vs => exact ⟨vs, loc_eq.mp hd, h⟩
      | _ => exact (hΦ.not_fail h).elim
    · rintro ⟨vs, hd, h⟩
      exact ⟨.dict vs, loc_eq.mpr hd, h⟩

theorem Outcome.allItems (hΦ : Outcome Φ Sat) : Eventually Φ (fun n => allItemsTasks s schema n value prop) ↔
    (∃ xs, (s.look value = some (.array xs) ∨ s.look value = some (.set xs) ∨ s.look value = some (.list xs))
      ∧ Eventually Φ (fun n => eachItemTasks s schema n prop xs))
    ∨ ∃ vs, s.look value = some (.dict vs)
      ∧ Eventually Φ (fun n => vs.flatMap (fun e => callTasks s schema n e.2 prop (.var e.1) "all-items")) := by
  refine (hΦ.look ?_).trans ?_
  · rintro (_ | _ | _ | _ | _ | xs | xs | xs | vs)
    case array | set | list => exact .flatMap (by exact fun _ => grows_call) xs.zipIdx
    case dict => exact .flatMap (by exact fun _ => grows_call) vs
    all_goals exact grows_const _
  · constructor
    · rintro ⟨d, hd, h⟩
      have hv := loc_eq.mp hd
      cases d with
      | array xs => exact .inl ⟨xs, .inl hv, h⟩
      | set xs => exact .inl ⟨xs, .inr (.inl hv), h⟩
      | list xs => exact .inl ⟨xs, .inr (.inr hv), h⟩
      | dict vs => exact .inr ⟨vs, hv, h⟩
      | _ => exact (hΦ.not_fail h).elim
    · rintro (⟨xs, hv | hv | hv, h⟩ | ⟨vs, hv, h⟩)
      · exact ⟨.array xs, loc_eq.mpr hv, h⟩
      · exact ⟨.set xs, loc_eq.mpr hv, h⟩
      · exact ⟨.list xs, loc_eq.mpr hv, h⟩
      · exact ⟨.dict vs, loc_eq.mpr hv, h⟩

theorem Outcome.tasks (hΦ : Outcome Φ Sat) (e : Addr × Addr) : Eventually Φ (fun n => tasks s schema n value e) ↔
    ∃ name, s.look e.1 = some (.string name) ∧ match cPropMap.lookup name with
      | some propId => Eventually Φ (fun n => switchTasks s schema n value e.2 propId)
      | none => isRef name = true ∧ RefHolds s schema Sat value e.2 := by
  refine (hΦ.look ?_).trans ?_
  · intro name
    cases cPropMap.lookup name with
    | some propId => exact fun n m h => switchTasks_le h value e.2 propId
    | none =>
        show Grows (fun n => if isRef name then _ else _)
        split
        · exact grows_reference
        · exact grows_const _
  · refine exists_congr (fun name => and_congr toStr_eq ?_)
    cases cPropMap.lookup name with
    | some propId => exact Iff.rfl
    | none =>
        show Eventually Φ (fun n => if isRef name then _ else _) ↔ isRef name = true ∧ _
        by_cases hr : isRef name = true
        · simp only [hr, if_true, true_and]
          exact hΦ.reference [] []
        · simp only [hr, Bool.false_eq_true, if_false, false_and, iff_false]
          exact hΦ.not_fail

theorem Outcome.pairTasks (hΦ : Outcome Φ Sat) {props : Addr} : Eventually Φ (fun n => pairTasks s schema n value props) ↔
    ∃ es, s.look props = some (.dict es) ∧ Eventually Φ (fun n => es.flatMap (Cclvarval.tasks s schema n value)) := by
  refine (hΦ.look (by exact .flatMap (by exact fun e n m h => tasks_le h value e))).trans ?_
  exact exists_congr (fun es => and_congr_left (fun _ => toDict_eq))

end Properties

/-! ## Tasks that come out well -/

/-- A task comes out well, where `Sat` says which nested validations do. -/
def TaskSat (lib : RegexLib R) (Sat : Addr → Addr → Prop) : Task → Prop
  | .fail _ _ _ => False
  | .regex key text => ∃ r, lib.regexC key = .ok r ∧ lib.matches r text = true
  | .pair value props _ _ => Sat value props
  | .hang => False

/-- All tasks come out well, with enough depth for the comparisons. -/
def Good (lib : RegexLib R) (Sat : Addr → Addr → Prop) (ts : Nat → List Task) : Prop :=
  ∃ depth, ∀ t ∈ ts depth, TaskSat lib Sat t

section Good

variable {lib : RegexLib R} {Sat : Addr → Addr → Prop}

theorem TaskSat.ne_hang {t : Task} (h : TaskSat lib Sat t) : t ≠ .hang := by
  rintro rfl
  exact h

theorem TaskSat.imp {Sat Sat' : Addr → Addr → Prop} (h : ∀ value props, Sat value props → Sat' value props) {t : Task}
    (ht : TaskSat lib Sat t) : TaskSat lib Sat' t := by
  cases t with
  | pair value props values pushed => exact h value props ht
  | _ => exact ht

theorem outcome_good (lib : RegexLib R) (Sat : Addr → Addr → Prop) : Outcome (fun ts => ∀ t ∈ ts, TaskSat lib Sat t) Sat where
  later := by
    intro ts us hle h
    rw [hle.eq (fun t ht => (h t ht).ne_hang)]
    exact h
  fail := fun e values props h => h _ (List.mem_singleton_self _)
  hang := fun h => h _ (List.mem_singleton_self _)
  pair := by
    intro value props values pushed
    simp only [List.mem_singleton, forall_eq]
    exact Iff.rfl

theorem good_flatMap {β : Type} {f : Nat → β → List Task} (hf : ∀ x, Grows (fun n => f n x)) : ∀ {xs : List β},
    Good lib Sat (fun n => xs.flatMap (f n)) ↔ ∀ x ∈ xs, Good lib Sat (fun n => f n x)
  | [] => by simp [Good]
  | x :: xs => by
      have ih : Good lib Sat (fun n => xs.flatMap (f n)) ↔ ∀ y ∈ xs, Good lib Sat (fun n => f n y) := good_flatMap hf
      constructor
      · rintro ⟨n, h⟩ y hy
        exact ⟨n, fun t ht => h t (List.mem_flatMap.mpr ⟨y, hy, ht⟩)⟩
      · intro h
        obtain ⟨n, hn⟩ := h x List.mem_cons_self
        obtain ⟨m, hm⟩ := ih.mpr (fun y hy => h y (List.mem_cons_of_mem x hy))
        refine ⟨max n m, fun t ht => ?_⟩
        have ht' : t ∈ f (max n m) x ++ xs.flatMap (f (max n m)) := ht
        rcases List.mem_append.mp ht' with ht | ht
        · exact (outcome_good lib Sat).later (hf x n _ (Nat.le_max_left n m)) hn t ht
        · exact (outcome_good lib Sat).later (Grows.flatMap hf xs m _ (Nat.le_max_right n m)) hm t ht

variable [LT F] [DecidableLT F] {s : Store F} {schema value prop : Addr}

theorem good_items : Good lib Sat (fun n => itemsTasks s schema n value prop)
    ↔ PropHolds lib s schema Sat value prop .items := by
  have hΦ := outcome_good lib Sat
  refine hΦ.items.trans (or_congr ?_ ?_)
  · refine exists₂_congr (fun xs es => and_congr_right (fun _ => and_congr_right (fun _ => ?_)))
    exact (good_flatMap grows_index).trans (forall₂_congr (fun e _ => hΦ.index e))
  · refine exists₂_congr (fun vs es => and_congr_right (fun _ => and_congr_right (fun _ => ?_)))
    exact (good_flatMap grows_key).trans (forall₂_congr (fun e _ => hΦ.key e))

theorem good_optItems : Good lib Sat (fun n => optItemsTasks s schema n value prop)
    ↔ PropHolds lib s schema Sat value prop .optItems := by
  have hΦ := outcome_good lib Sat
  refine hΦ.optItems.trans ?_
  refine exists₂_congr (fun vs es => and_congr_right (fun _ => and_congr_right (fun _ => ?_)))
  refine (good_flatMap grows_optKey).trans (forall₂_congr (fun e _ => (hΦ.optKey e).trans ?_))
  simp

theorem good_allKeys : Good lib Sat (fun n => allKeysTasks s schema n value prop)
    ↔ PropHolds lib s schema Sat value prop .allKeys := by
  have hΦ := outcome_good lib Sat
  refine hΦ.allKeys.trans (exists_congr (fun vs => and_congr_right (fun _ => ?_)))
  exact (good_flatMap (by exact fun _ => grows_call)).trans (forall₂_congr (fun e _ => hΦ.call _ _))

theorem good_eachItem (xs : List Addr) : Good lib Sat (fun n => eachItemTasks s schema n prop xs)
    ↔ ∀ x ∈ xs, Means s schema Sat x prop := by
  have hΦ := outcome_good lib Sat
  refine (good_flatMap (by exact fun _ => grows_call)).trans ?_
  constructor
  · intro h x hx
    obtain ⟨i, hi⟩ := List.mem_iff_getElem?.mp hx
    exact (hΦ.call _ _).mp (h (x, i) (List.mem_zipIdx_iff_getElem?.mpr hi))
  · intro h x hx
    exact (hΦ.call _ _).mpr (h x.1 (List.mem_of_getElem? (List.mem_zipIdx_iff_getElem?.mp hx)))

theorem good_allItems : Good lib Sat (fun n => allItemsTasks s schema n value prop)
    ↔ PropHolds lib s schema Sat value prop .allItems := by
  have hΦ := outcome_good lib Sat
  refine hΦ.allItems.trans (or_congr ?_ ?_)
  · exact exists_congr (fun xs => and_congr_right (fun _ => good_eachItem xs))
  · refine exists_congr (fun vs => and_congr_right (fun _ => ?_))
    exact (good_flatMap (by exact fun _ => grows_call)).trans (forall₂_congr (fun e _ => hΦ.call _ _))

theorem good_regex : Good lib Sat (fun _ => regexTasks s value prop)
    ↔ PropHolds lib s schema Sat value prop .regex := by
  refine (outcome_good lib Sat).regex.trans (exists₂_congr (fun text key => ?_))
  simp [TaskSat]

theorem good_switch (propId : PropId) : Good lib Sat (fun n => switchTasks s schema n value prop propId)
    ↔ PropHolds lib s schema Sat value prop propId := by
  cases propId with
  | regex => exact good_regex
  | items => exact good_items
  | optItems => exact good_optItems
  | allKeys => exact good_allKeys
  | allItems => exact good_allItems
  | _ =>
      refine ((outcome_good lib Sat).checks lib rfl).trans (and_iff_left ?_)
      simp

/-- The tasks of an entry come out well exactly if it holds. -/
theorem good_tasks (e : Addr × Addr) : Good lib Sat (fun n => tasks s schema n value e)
    ↔ EntryHolds lib s schema Sat value e := by
  refine ((outcome_good lib Sat).tasks e).trans (exists_congr (fun name => and_congr_right (fun _ => ?_)))
  cases cPropMap.lookup name with
  | some propId => exact good_switch propId
  | none => exact Iff.rfl

theorem good_pairTasks {props : Addr} : Good lib Sat (fun n => pairTasks s schema n value props)
    ↔ ∃ es, s.look props = some (.dict es) ∧ ∀ e ∈ es, EntryHolds lib s schema Sat value e := by
  refine (outcome_good lib Sat).pairTasks.trans (exists_congr (fun es => and_congr_right (fun _ => ?_)))
  exact (good_flatMap (by exact fun e n m h => tasks_le h value e)).trans (forall₂_congr (fun e _ => good_tasks e))

end Good

/-! ## The validator decides the language -/

section Decides

variable {lib : RegexLib R} {pair : Addr → Addr → Result}

theorem taskSat_of_runTask {t : Task} (h : runTask lib pair t = some (.ok ())) :
    TaskSat lib (fun value props => pair value props = some (.ok ())) t := by
  cases t with
  | fail e values props => simp [runTask] at h
  | hang => simp [runTask] at h
  | regex key text =>
      simp only [runTask] at h
      split at h
      · simp at h
      · rename_i r hr
        split at h
        · rename_i hm
          exact ⟨r, hr, hm⟩
        · simp at h
  | pair value props values pushed =>
      simp only [runTask] at h
      split at h
      · simp at h
      · exact h

theorem taskSat_of_runTasks : ∀ {ts : List Task}, runTasks lib pair ts = some (.ok ()) →
    ∀ t ∈ ts, TaskSat lib (fun value props => pair value props = some (.ok ())) t
  | [], _ => by simp
  | t :: ts, h => by
      unfold runTasks at h
      split at h
      · rename_i ht
        intro u hu
        rcases List.mem_cons.mp hu with rfl | hu
        · exact taskSat_of_runTask ht
        · exact taskSat_of_runTasks h u hu
      · rename_i hne
        exact absurd h hne

theorem runTask_of_taskSat {t : Task} (h : TaskSat lib (fun value props => pair value props = some (.ok ())) t) :
    runTask lib pair t = some (.ok ()) := by
  cases t with
  | fail e values props => exact h.elim
  | hang => exact h.elim
  | regex key text =>
      obtain ⟨r, hr, hm⟩ := h
      simp only [runTask, hr, hm, if_true]
  | pair value props values pushed =>
      have hp : pair value props = some (.ok ()) := h
      simp only [runTask, hp]

theorem runTasks_of_taskSat {ts : List Task} : (∀ t ∈ ts, TaskSat lib (fun value props => pair value props = some (.ok ())) t) →
    runTasks lib pair ts = some (.ok ()) := by
  induction ts with
  | nil => exact fun _ => rfl
  | cons t ts ih =>
      intro h
      unfold runTasks
      rw [runTask_of_taskSat (h t List.mem_cons_self)]
      exact ih (fun u hu => h u (List.mem_cons_of_mem t hu))

variable [LT F] [DecidableLT F] {s : Store F} {schema : Addr}

theorem satisfies_of_report : ∀ {fuel : Nat} {value props : Addr}, report lib s schema fuel value props = some (.ok ()) →
    Satisfies lib s schema value props
  | 0, _, _, h => by simp [report] at h
  | fuel + 1, value, props, h => by
      have hgood : Good lib (fun value props => report lib s schema fuel value props = some (.ok ()))
          (fun n => pairTasks s schema n value props) := ⟨fuel, taskSat_of_runTasks h⟩
      obtain ⟨es, hes, hholds⟩ := good_pairTasks.mp hgood
      exact .intro _ (fun _ _ => satisfies_of_report) hes hholds

/-- One fuel for all tasks. -/
theorem exists_fuel {ts : List Task} (h : ∀ t ∈ ts, TaskSat lib
      (fun value props => ∃ fuel, report lib s schema fuel value props = some (.ok ())) t) :
    ∃ fuel, ∀ m, fuel ≤ m → ∀ t ∈ ts, TaskSat lib (fun value props => report lib s schema m value props = some (.ok ())) t := by
  induction ts with
  | nil => exact ⟨0, by simp⟩
  | cons t ts ih =>
      obtain ⟨n, hn⟩ := ih (fun u hu => h u (List.mem_cons_of_mem t hu))
      have ht : ∃ k, ∀ m, k ≤ m → TaskSat lib (fun value props => report lib s schema m value props = some (.ok ())) t := by
        have hsat := h t List.mem_cons_self
        cases t with
        | fail e values props => exact hsat.elim
        | hang => exact hsat.elim
        | regex key text => exact ⟨0, fun _ _ => hsat⟩
        | pair value props values pushed =>
            obtain ⟨k, hk⟩ := hsat
            exact ⟨k, fun m hm => report_mono hm hk⟩
      obtain ⟨k, hk⟩ := ht
      refine ⟨max n k, fun m hm u hu => ?_⟩
      rcases List.mem_cons.mp hu with rfl | hu
      · exact hk m (by omega)
      · exact hn m (by omega) u hu

theorem report_of_satisfies {value props : Addr} (h : Satisfies lib s schema value props) :
    ∃ fuel, report lib s schema fuel value props = some (.ok ()) := by
  induction h with
  | @intro value props es Sat _ hes hholds ih =>
      -- the tasks at a depth where no comparison hangs, and fuel for the nested validations
      obtain ⟨depth, hsat⟩ := good_pairTasks.mpr ⟨es, hes, hholds⟩
      have hgrows : Grows (fun n => pairTasks s schema n value props) := fun n m h => pairTasks_le h value props
      have hfuel : ∀ t ∈ pairTasks s schema depth value props, TaskSat lib
          (fun value props => ∃ fuel, report lib s schema fuel value props = some (.ok ())) t := by
        intro t ht
        have := hsat t ht
        cases t with
        | pair value props values pushed => exact ih value props this
        | _ => exact this
      obtain ⟨fuel, hfuel⟩ := exists_fuel hfuel
      let N := max depth fuel
      have hts : pairTasks s schema N value props = pairTasks s schema depth value props :=
        (hgrows depth N (Nat.le_max_left depth fuel)).eq (fun t ht hang => by
          have := hsat t ht
          rw [hang] at this
          exact this)
      refine ⟨N + 1, ?_⟩
      unfold report
      rw [hts]
      exact runTasks_of_taskSat (hfuel N (Nat.le_max_right depth fuel))

/-- What `validate_pair` comes to without an error is the declarative reading. -/
theorem report_iff_satisfies {value props : Addr} :
    (∃ fuel, report lib s schema fuel value props = some (.ok ())) ↔ Satisfies lib s schema value props :=
  ⟨fun ⟨_, h⟩ => satisfies_of_report h, report_of_satisfies⟩

variable {order : OperandOrder}

/-- A call returns normally where its report has no error. -/
theorem validate_ok_iff {values : List Addr} {σ : ValidatorC F R} {root : Addr}
    (hσ : Called lib order (ValidatorC.mk' s schema) values σ) (hroot : RootEntry σ.store σ.schema root)
    (fuel : Nat) (value : Addr) : (∃ σ', validate lib order fuel value σ = some (.ok (), σ'))
      ↔ report lib σ.store σ.schema fuel value root = some (.ok ()) := by
  have hcoherent := hσ.coherent (coherent_new s schema)
  have hfin : Finishes lib order fuel σ _ (validate lib order fuel value σ) := validate_finishes fuel hcoherent value
  rw [hroot.rootReport] at hfin
  generalize report lib σ.store σ.schema fuel value root = result at hfin ⊢
  generalize validate lib order fuel value σ = out at hfin ⊢
  cases hfin with
  | runs => simp
  | returns _ _ _ => simp
  | throws _ _ _ _ => simp
  | null _ _ => simp

/-- **The validator decides the schema language**: any call on any validator with a `"root"` entry returns normally
    exactly if the value satisfies that entry, where the dicts of schema and value are such that a search finds the same
    in every tree. -/
theorem validate_iff_satisfies {values : List Addr} {σ : ValidatorC F R} {root : Addr}
    (hσ : Called lib order (ValidatorC.mk' s schema) values σ) (hroot : RootEntry σ.store σ.schema root) {value : Addr}
    (hsearch : Searchable σ.store σ.schema value) :
    ((∃ fuel σ', validate lib order fuel value σ = some (.ok (), σ')) ↔ Satisfies lib σ.store σ.schema value root)
      ∧ FoundInTrees σ.store σ.schema value := by
  rw [← report_iff_satisfies]
  exact ⟨exists_congr (fun fuel => validate_ok_iff hσ hroot fuel value), found_in_trees hsearch⟩

/-- The theorem for the value `[7]` and a schema by which an array has an element that satisfies the entry `"item"`. -/
theorem validate_iff_satisfies_item :
    (∃ fuel σ', validate rejectAll .newFirst fuel 12 (ValidatorC.mk' itemStore 0) = some (.ok (), σ'))
      ∧ Satisfies rejectAll itemStore 0 12 4 := by
  have hroot : RootEntry itemStore 0 4 := ⟨1, by decide⟩
  have hσ : Called rejectAll .newFirst (ValidatorC.mk' itemStore 0) [] (ValidatorC.mk' itemStore 0) := .none _
  have hruns : ∃ fuel σ', validate rejectAll .newFirst fuel 12 (ValidatorC.mk' itemStore 0) = some (.ok (), σ') :=
    ⟨3, _, rfl⟩
  exact ⟨hruns, (validate_iff_satisfies hσ hroot searchable_itemStore).1.mp hruns⟩

/-- In the schema `{"root": "r", "r": {}}` the string is not taken for the entry of that name, which any value
    satisfies. -/
theorem string_entry_rejected :
    let s : Store Nat := ⟨[.dict [(2, 3), (1, 2)], .string (bytes "root"), .string (bytes "r"), .dict [], .blank], []⟩
    RootEntry s 0 2 ∧ Means s 0 (Satisfies rejectAll s 0) 4 2
      ∧ ¬ ∃ fuel σ', validate rejectAll .newFirst fuel 4 (ValidatorC.mk' s 0) = some (.ok (), σ') := by
  intro s
  have hroot : RootEntry s 0 2 := ⟨1, by decide⟩
  refine ⟨hroot, .inl ⟨bytes "r", 3, rfl, ⟨1, by decide⟩, ?_⟩, ?_⟩
  · have hempty : s.look 3 = some (.dict []) := rfl
    exact .intro (fun _ _ => False) (fun _ _ h => h.elim) hempty (by simp)
  · rintro ⟨fuel, σ', h⟩
    have hok := (validate_ok_iff (.none _) hroot fuel 4).mp ⟨σ', h⟩
    -- a string satisfies nothing: it is no property dict
    cases satisfies_of_report hok with
    | intro _ _ hes _ => exact absurd hes (by simp [ValidatorC.mk', Store.look])

end Decides

end Cclvarval
end Cclib
