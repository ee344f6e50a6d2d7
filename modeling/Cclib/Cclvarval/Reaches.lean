import Cclib.Cclvarval.Satisfies

/-!
# `Cclvarval.Reaches` — what a validation comes to

`validate_pair` takes the entries of a property dict in their order, and the elements that a container property
selects in theirs, and ends at the first that does not do well. So it comes to a regular expression or to a nested
validation exactly if everything before does well. `PairReaches` says that in the terms of the schema language, and
`reach_pairTasks` that it is where the tasks lead.
-/

namespace Cclib
namespace Cclvarval

open Cclvar Compare Run

variable {F R : Type}

/-! ## In the schema language -/

/-- `Q` of one of the elements, and `P` of all before it. -/
def FirstOf {α : Type} (P Q : α → Prop) (xs : List α) : Prop :=
  ∃ before x after, xs = before ++ x :: after ∧ (∀ y ∈ before, P y) ∧ Q x

section Reaching

variable [LT F] [DecidableLT F] (lib : RegexLib R) (s : Store F) (schema : Addr) (Pattern : StringT → Prop)
  (Sat Sub : Addr → Addr → Prop)

/-- What `items` says of the element of an array at an index. -/
def IndexMeans (xs : List Addr) (e : Addr × Addr) : Prop :=
  ∃ n item, s.look e.1 = some (.integer n) ∧ arrayAt xs n = some item ∧ Means s schema Sat item e.2

/-- What `items` says of the value of a dict at a key. -/
def KeyMeans (value : Addr) (e : Addr × Addr) : Prop := ∃ item, Found s value e.1 item ∧ Means s schema Sat item e.2

/-- A property comes to a regular expression with such a pattern or to such a nested validation, where `Sat` says which
    nested validations do well. -/
def PropReaches (value prop : Addr) : PropId → Prop
  | .regex => ∃ text key, s.look value = some (.string text) ∧ s.look prop = some (.string key) ∧ Pattern key
  | .items =>
    (∃ xs es, s.look value = some (.array xs) ∧ s.look prop = some (.dict es)
      ∧ FirstOf (IndexMeans s schema Sat xs) (IndexMeans s schema Sub xs) es)
    ∨ ∃ vs es, s.look value = some (.dict vs) ∧ s.look prop = some (.dict es)
      ∧ FirstOf (KeyMeans s schema Sat value) (KeyMeans s schema Sub value) es
  | .optItems => ∃ vs es, s.look value = some (.dict vs) ∧ s.look prop = some (.dict es)
      ∧ FirstOf (fun e => NotFound s value e.1 ∨ KeyMeans s schema Sat value e) (KeyMeans s schema Sub value) es
  | .allKeys => ∃ vs, s.look value = some (.dict vs)
      ∧ FirstOf (fun e => Means s schema Sat e.1 prop) (fun e => Means s schema Sub e.1 prop) vs
  | .allItems =>
    (∃ xs, (s.look value = some (.array xs) ∨ s.look value = some (.set xs) ∨ s.look value = some (.list xs))
      ∧ FirstOf (fun x => Means s schema Sat x prop) (fun x => Means s schema Sub x prop) xs)
    ∨ ∃ vs, s.look value = some (.dict vs)
      ∧ FirstOf (fun e => Means s schema Sat e.2 prop) (fun e => Means s schema Sub e.2 prop) vs
  | _ => False

/-- An entry of a property dict comes to such a regular expression or nested validation. -/
def EntryReaches (value : Addr) (e : Addr × Addr) : Prop :=
  ∃ name, s.look e.1 = some (.string name) ∧ match cPropMap.lookup name with
    | some propId => PropReaches s schema Pattern Sat Sub value e.2 propId
    | none => isRef name = true ∧ RefHolds s schema Sub value e.2

/-- The validation of a value against a property dict does: one of the entries, and all before it hold. -/
def PairReaches (value props : Addr) : Prop :=
  ∃ es, s.look props = some (.dict es)
    ∧ FirstOf (EntryHolds lib s schema Sat value) (EntryReaches s schema Pattern Sat Sub value) es

end Reaching

section FirstOf

variable {α β : Type} {P P' Q Q' : α → Prop} {xs ys : List α}

theorem FirstOf.imp (hP : ∀ x ∈ xs, P x → P' x) (hQ : ∀ x ∈ xs, Q x → Q' x) (h : FirstOf P Q xs) : FirstOf P' Q' xs := by
  obtain ⟨before, x, after, rfl, hb, hx⟩ := h
  exact ⟨before, x, after, rfl, fun y hy => hP y (by simp [hy]) (hb y hy), hQ x (by simp) hx⟩

theorem firstOf_congr (hP : ∀ x ∈ xs, P x ↔ P' x) (hQ : ∀ x ∈ xs, Q x ↔ Q' x) : FirstOf P Q xs ↔ FirstOf P' Q' xs :=
  ⟨.imp (fun x hx => (hP x hx).mp) (fun x hx => (hQ x hx).mp), .imp (fun x hx => (hP x hx).mpr) (fun x hx => (hQ x hx).mpr)⟩

theorem not_firstOf_nil : ¬ FirstOf P Q [] := by
  rintro ⟨before, x, after, h, -, -⟩
  simp at h

theorem firstOf_cons {x : α} : FirstOf P Q (x :: xs) ↔ Q x ∨ (P x ∧ FirstOf P Q xs) := by
  constructor
  · rintro ⟨before, y, after, h, hb, hy⟩
    rcases List.cons_eq_append_iff.mp h with ⟨rfl, h⟩ | ⟨before, rfl, rfl⟩
    · obtain ⟨rfl, -⟩ := List.cons.inj h
      exact .inl hy
    · exact .inr ⟨hb x (by simp), before, y, after, rfl, fun z hz => hb z (by simp [hz]), hy⟩
  · rintro (hx | ⟨hx, before, y, after, rfl, hb, hy⟩)
    · exact ⟨[], x, xs, rfl, by simp, hx⟩
    · refine ⟨x :: before, y, after, rfl, ?_, hy⟩
      rintro z hz
      rcases List.mem_cons.mp hz with rfl | hz
      · exact hx
      · exact hb z hz

theorem firstOf_one {x : α} : FirstOf P Q [x] ↔ Q x := by
  rw [firstOf_cons]
  simp [not_firstOf_nil]

theorem firstOf_append : FirstOf P Q (xs ++ ys) ↔ FirstOf P Q xs ∨ ((∀ x ∈ xs, P x) ∧ FirstOf P Q ys) := by
  induction xs with
  | nil => simp [not_firstOf_nil]
  | cons x xs ih =>
      rw [List.cons_append, firstOf_cons, firstOf_cons, ih]
      simp only [List.mem_cons, forall_eq_or_imp]
      tauto

theorem firstOf_flatMap {f : β → List α} {zs : List β} :
    FirstOf P Q (zs.flatMap f) ↔ FirstOf (fun z => ∀ x ∈ f z, P x) (fun z => FirstOf P Q (f z)) zs := by
  induction zs with
  | nil => simp [not_firstOf_nil]
  | cons z zs ih => rw [List.flatMap_cons, firstOf_append, firstOf_cons, ih]

theorem firstOf_map {f : β → α} {zs : List β} :
    FirstOf P Q (zs.map f) ↔ FirstOf (fun z => P (f z)) (fun z => Q (f z)) zs := by
  induction zs with
  | nil => simp [not_firstOf_nil]
  | cons z zs ih => rw [List.map_cons, firstOf_cons, firstOf_cons, ih]

end FirstOf

/-! ## The tasks that lead there -/

/-- A task is such a regular expression or nested validation. -/
def TaskReaches (Pattern : StringT → Prop) (Sub : Addr → Addr → Prop) : Task → Prop
  | .regex key _ => Pattern key
  | .pair value props _ _ => Sub value props
  | _ => False

/-- One of the tasks is, and all before it come out well. -/
def TasksReach (lib : RegexLib R) (Pattern : StringT → Prop) (Sat Sub : Addr → Addr → Prop) : List Task → Prop :=
  FirstOf (TaskSat lib Sat) (TaskReaches Pattern Sub)

section Tasks

variable {lib : RegexLib R} {Pattern : StringT → Prop} {Sat Sub : Addr → Addr → Prop}

/-- An error is that of the first task that does not come out well. -/
theorem runTasks_error {pair : Addr → Addr → Result} {r : Report} {ts : List Task} : runTasks lib pair ts = some (.error r) ↔
    FirstOf (fun t => runTask lib pair t = some (.ok ())) (fun t => runTask lib pair t = some (.error r)) ts := by
  induction ts with
  | nil => simp [runTasks, not_firstOf_nil]
  | cons t ts ih =>
      rw [firstOf_cons, ← ih, runTasks]
      cases ht : runTask lib pair t with
      | none => simp
      | some x =>
          cases x with
          | error r' => simp
          | ok u => simp

theorem outcome_reach (lib : RegexLib R) (Pattern : StringT → Prop) (Sat Sub : Addr → Addr → Prop) :
    Outcome (TasksReach lib Pattern Sat Sub) Sub where
  later := by
    rintro ts us hle ⟨before, t, after, hts, hb, ht⟩
    have hne : t ≠ .hang := by
      rintro rfl
      exact ht
    obtain ⟨after', rfl⟩ := hle.split hts (fun u hu => (hb u hu).ne_hang) hne
    exact ⟨before, t, after', rfl, hb, ht⟩
  fail := fun e values props h => firstOf_one.mp h
  hang := fun h => firstOf_one.mp h
  pair := fun value props values pushed => firstOf_one

theorem reach_flatMap {β : Type} {f : Nat → β → List Task} (hf : ∀ x, Grows (fun n => f n x)) : ∀ {xs : List β},
    Eventually (TasksReach lib Pattern Sat Sub) (fun n => xs.flatMap (f n)) ↔
      FirstOf (fun x => Good lib Sat (fun n => f n x)) (fun x => Eventually (TasksReach lib Pattern Sat Sub) (fun n => f n x)) xs
  | [] => by
      rw [iff_false_right not_firstOf_nil]
      rintro ⟨n, h⟩
      exact not_firstOf_nil h
  | x :: xs => by
      rw [firstOf_cons, ← reach_flatMap hf]
      constructor
      · rintro ⟨n, h⟩
        rcases firstOf_append.mp h with h | ⟨hgood, h⟩
        · exact .inl ⟨n, h⟩
        · exact .inr ⟨⟨n, hgood⟩, n, h⟩
      · rintro (⟨n, h⟩ | ⟨⟨n, hn⟩, m, hm⟩)
        · exact ⟨n, firstOf_append.mpr (.inl h)⟩
        · refine ⟨max n m, firstOf_append.mpr (.inr ⟨?_, ?_⟩)⟩
          · exact (outcome_good lib Sat).later (hf x n _ (Nat.le_max_left n m)) hn
          · exact (outcome_reach lib Pattern Sat Sub).later (Grows.flatMap hf xs m _ (Nat.le_max_right n m)) hm

variable [LT F] [DecidableLT F] {s : Store F} {schema value prop props : Addr}

theorem reach_call {selector : Addr × Addr → Elem} {item q : Addr × Addr → Addr} {name : String} {es : List (Addr × Addr)} :
    Eventually (TasksReach lib Pattern Sat Sub)
      (fun n => es.flatMap (fun e => callTasks s schema n (item e) (q e) (selector e) name))
    ↔ FirstOf (fun e => Means s schema Sat (item e) (q e)) (fun e => Means s schema Sub (item e) (q e)) es := by
  refine (reach_flatMap (by exact fun _ => grows_call)).trans (firstOf_congr (fun e _ => ?_) (fun e _ => ?_))
  · exact (outcome_good lib Sat).call _ _
  · exact (outcome_reach lib Pattern Sat Sub).call _ _

theorem reach_items : Eventually (TasksReach lib Pattern Sat Sub) (fun n => itemsTasks s schema n value prop)
    ↔ PropReaches s schema Pattern Sat Sub value prop .items := by
  have hgood := outcome_good lib Sat
  have hreach := outcome_reach lib Pattern Sat Sub
  refine hreach.items.trans (or_congr ?_ ?_)
  · refine exists₂_congr (fun xs es => and_congr_right (fun _ => and_congr_right (fun _ => ?_)))
    exact (reach_flatMap grows_index).trans (firstOf_congr (fun e _ => hgood.index e) (fun e _ => hreach.index e))
  · refine exists₂_congr (fun vs es => and_congr_right (fun _ => and_congr_right (fun _ => ?_)))
    exact (reach_flatMap grows_key).trans (firstOf_congr (fun e _ => hgood.key e) (fun e _ => hreach.key e))

theorem reach_optItems : Eventually (TasksReach lib Pattern Sat Sub) (fun n => optItemsTasks s schema n value prop)
    ↔ PropReaches s schema Pattern Sat Sub value prop .optItems := by
  refine (outcome_reach lib Pattern Sat Sub).optItems.trans ?_
  refine exists₂_congr (fun vs es => and_congr_right (fun _ => and_congr_right (fun _ => ?_)))
  refine (reach_flatMap grows_optKey).trans (firstOf_congr (fun e _ => ?_) (fun e _ => ?_))
  · refine ((outcome_good lib Sat).optKey e).trans (or_congr_left (and_iff_left ?_))
    simp
  · refine ((outcome_reach lib Pattern Sat Sub).optKey e).trans ?_
    exact or_iff_right (fun h => not_firstOf_nil h.2)

theorem reach_eachItem (xs : List Addr) : Eventually (TasksReach lib Pattern Sat Sub) (fun n => eachItemTasks s schema n prop xs)
    ↔ FirstOf (fun x => Means s schema Sat x prop) (fun x => Means s schema Sub x prop) xs := by
  have hxs : FirstOf (fun x => Means s schema Sat x prop) (fun x => Means s schema Sub x prop) (xs.zipIdx.map Prod.fst)
      ↔ FirstOf (fun x => Means s schema Sat x prop) (fun x => Means s schema Sub x prop) xs := by
    rw [List.zipIdx_map_fst]
  exact reach_call.trans (firstOf_map.symm.trans hxs)

theorem reach_allItems : Eventually (TasksReach lib Pattern Sat Sub) (fun n => allItemsTasks s schema n value prop)
    ↔ PropReaches s schema Pattern Sat Sub value prop .allItems := by
  refine (outcome_reach lib Pattern Sat Sub).allItems.trans (or_congr ?_ ?_)
  · exact exists_congr (fun xs => and_congr_right (fun _ => reach_eachItem xs))
  · exact exists_congr (fun vs => and_congr_right (fun _ => reach_call))

theorem reach_regex : Eventually (TasksReach lib Pattern Sat Sub) (fun _ => regexTasks s value prop)
    ↔ PropReaches s schema Pattern Sat Sub value prop .regex := by
  refine (outcome_reach lib Pattern Sat Sub).regex.trans (exists₂_congr (fun text key => ?_))
  exact and_congr_right (fun _ => and_congr_right (fun _ => firstOf_one))

theorem reach_switch (propId : PropId) :
    Eventually (TasksReach lib Pattern Sat Sub) (fun n => switchTasks s schema n value prop propId)
      ↔ PropReaches s schema Pattern Sat Sub value prop propId := by
  have hreach := outcome_reach lib Pattern Sat Sub
  cases propId with
  | regex => exact reach_regex
  | items => exact reach_items
  | optItems => exact reach_optItems
  | allKeys => exact hreach.allKeys.trans (exists_congr (fun vs => and_congr_right (fun _ => reach_call)))
  | allItems => exact reach_allItems
  | _ => exact (hreach.checks lib rfl).trans (iff_false_intro (fun h => not_firstOf_nil h.2))

theorem reach_tasks (e : Addr × Addr) : Eventually (TasksReach lib Pattern Sat Sub) (fun n => tasks s schema n value e)
    ↔ EntryReaches s schema Pattern Sat Sub value e := by
  refine ((outcome_reach lib Pattern Sat Sub).tasks e).trans (exists_congr (fun name => and_congr_right (fun _ => ?_)))
  cases cPropMap.lookup name with
  | some propId => exact reach_switch propId
  | none => exact Iff.rfl

/-- The tasks come to such a regular expression or nested validation exactly if the validation does. -/
theorem reach_pairTasks : Eventually (TasksReach lib Pattern Sat Sub) (fun n => pairTasks s schema n value props)
    ↔ PairReaches lib s schema Pattern Sat Sub value props := by
  refine (outcome_reach lib Pattern Sat Sub).pairTasks.trans (exists_congr (fun es => and_congr_right (fun _ => ?_)))
  refine (reach_flatMap (by exact fun e n m h => tasks_le h value e)).trans ?_
  exact firstOf_congr (fun e _ => good_tasks e) (fun e _ => reach_tasks e)

end Tasks

end Cclvarval
end Cclib
