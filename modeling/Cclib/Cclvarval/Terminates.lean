import Cclib.Cclvarval.Reaches

/-!
# `Cclvarval.Terminates` — when a validation ends

A nested validation is of an element of the value, or, by a reference, of the same value against another entry of
the schema. `Starts` says which nested validations a validation comes to, and `Refers` which of them by a reference.
Elements of a finite value without cycles come to an end, references need not: `validate_ends_iff` says that a
validation ends exactly if it does not come to a property dict from which references on the same value lead back to
it.
-/

namespace Cclib
namespace Cclvarval

open Cclvar Compare Run Acyclic Relation

variable {F R : Type}

/-! ## No comparison hangs -/

/-- With enough depth no comparison hangs. -/
def Settles (ts : Nat → List Task) : Prop := ∃ depth, ∀ n, depth ≤ n → Task.hang ∉ ts n

section Settles

theorem settles_const {ts : List Task} (h : Task.hang ∉ ts) : Settles (fun _ => ts) := ⟨0, fun _ _ => h⟩

theorem settles_fail {e : Error} {values props : List Elem} : Settles (fun _ => [.fail e values props]) :=
  settles_const (by simp)

theorem settles_after {α : Type} {r : Nat → Access α} {f : Nat → α → List Task}
    (hr : ∃ n x, ∀ m, n ≤ m → r m = some x) (hf : ∀ a, (∃ n, r n = some (.ok a)) → Settles (fun n => f n a)) :
    Settles (fun n => after (r n) (f n)) := by
  obtain ⟨n, x, hx⟩ := hr
  cases x with
  | error e =>
      refine ⟨n, fun m hm => ?_⟩
      show Task.hang ∉ after (r m) (f m)
      rw [hx m hm]
      simp [after]
  | ok a =>
      obtain ⟨k, hk⟩ := hf a ⟨n, hx n (Nat.le_refl n)⟩
      refine ⟨max n k, fun m hm => ?_⟩
      show Task.hang ∉ after (r m) (f m)
      rw [hx m (by omega)]
      exact hk m (by omega)

/-- An access that needs no depth. -/
theorem settles_look {α : Type} {r : Access α} {f : Nat → α → List Task} (hr : ∃ x, r = some x)
    (hf : ∀ a, r = some (.ok a) → Settles (fun n => f n a)) : Settles (fun n => after r (f n)) := by
  obtain ⟨x, hx⟩ := hr
  exact settles_after ⟨0, x, fun _ _ => hx⟩ (fun a ⟨_, ha⟩ => hf a ha)

theorem settles_flatMap {β : Type} {f : Nat → β → List Task} : ∀ {xs : List β}, (∀ x ∈ xs, Settles (fun n => f n x)) →
    Settles (fun n => xs.flatMap (f n))
  | [], _ => ⟨0, by simp⟩
  | x :: xs, h => by
      obtain ⟨n, hn⟩ := h x List.mem_cons_self
      obtain ⟨k, hk⟩ := settles_flatMap (fun y hy => h y (List.mem_cons_of_mem x hy))
      refine ⟨max n k, fun m hm => ?_⟩
      show Task.hang ∉ f m x ++ xs.flatMap (f m)
      rw [List.mem_append, not_or]
      exact ⟨hn m (by omega), hk m (by omega)⟩

end Settles

section Accesses

variable {s : Store F} {a b : Nat}

/-- Contents that are there are read. -/
theorem access_total (ha : a < s.cells.length) {α : Type} (f : Data F Addr → Except Error α) :
    ∃ x, (s.look a).map f = some x := by
  obtain ⟨d, hd⟩ := Store.look_lt ha
  rw [hd]
  exact ⟨_, rfl⟩

variable [LT F] [DecidableLT F]

theorem access_compare_total (hc : s.Closed) (h : s.Acyclic a) (ha : a < s.cells.length) (hb : b < s.cells.length) :
    ∃ n x, ∀ m, n ≤ m → Access.compare s m a b = some x := by
  obtain ⟨n, ⟨r, hr⟩, -⟩ := Store.compare_total hc h ha hb
  refine ⟨n, .ok r, fun m hm => compare_mono hm ?_⟩
  exact Option.map_eq_some_iff.mpr ⟨r, hr, rfl⟩

theorem hasKey_total (hc : s.Closed) (h : s.Acyclic a) (ha : a < s.cells.length) (hb : b < s.cells.length) :
    ∃ n x, ∀ m, n ≤ m → Access.hasKey s m a b = some x := by
  have hreturns : ∃ n x, Access.hasKey s n a b = some x := by
    obtain ⟨d, hd⟩ := Store.look_lt ha
    unfold Access.hasKey
    rw [hd]
    cases d with
    | dict es =>
        have hkey : ∀ x ∈ es.map Prod.fst, x ∈ (Data.dict es : Data F Addr).handles := by
          intro x hx
          obtain ⟨e, he, rfl⟩ := List.mem_map.mp hx
          exact List.mem_flatMap.mpr ⟨e, he, by simp⟩
        -- one depth for all keys
        obtain ⟨n, hn⟩ := exists_common
          (P := fun n x => (∃ r, s.compare n x b = some r) ∧ ∃ r, s.compare n b x = some r)
          (by
            rintro n m x hnm ⟨⟨r, hr⟩, r', hr'⟩
            exact ⟨⟨r, compareAt_mono s.look hnm x b r hr⟩, r', compareAt_mono s.look hnm b x r' hr'⟩)
          (es.map Prod.fst)
          (fun x hx => Store.compare_total hc (h.child ⟨_, hd, hkey x hx⟩) (hc.handles a x _ hd (hkey x hx)) hb)
        obtain ⟨i, found, hs, -⟩ := search_total hn
        exact ⟨n, _, Option.map_eq_some_iff.mpr ⟨(i, found), hs, rfl⟩⟩
    | _ => exact ⟨0, _, rfl⟩
  obtain ⟨n, x, hx⟩ := hreturns
  exact ⟨n, x, fun m hm => hasKey_mono hm hx⟩

/-- What a key is found with is stored in the dict. -/
theorem Found.child {key item : Addr} (h : Found s a key item) : s.Child a item := by
  obtain ⟨depth, h⟩ := h
  obtain ⟨d, hd, h⟩ := Option.bind_eq_some_iff.mp h
  cases d with
  | dict es =>
      obtain ⟨⟨i, found⟩, -, h⟩ := Option.map_eq_some_iff.mp h
      cases found with
      | false => simp at h
      | true =>
          obtain ⟨e, he, rfl⟩ := Option.map_eq_some_iff.mp (Except.ok.inj h)
          exact ⟨_, hd, List.mem_flatMap.mpr ⟨e, List.mem_of_getElem? he, by simp⟩⟩
  | _ => simp at h

end Accesses

/-- The cells that a validation works on: value and schema are there, finite and without cycles. -/
structure Finite (s : Store F) (schema value : Addr) : Prop where
  closed : s.Closed
  schema_lt : schema < s.cells.length
  value_lt : value < s.cells.length
  schema_acyclic : s.Acyclic schema
  value_acyclic : s.Acyclic value

section Properties

variable {s : Store F} {schema value prop : Nat}

theorem Finite.child {item : Nat} (h : Finite s schema value) (hitem : s.Child value item) : Finite s schema item where
  closed := h.closed
  schema_lt := h.schema_lt
  value_lt := hitem.lt h.closed
  schema_acyclic := h.schema_acyclic
  value_acyclic := h.value_acyclic.child hitem

theorem mem_of_arrayAt {xs : List Addr} {n : Int64} {item : Addr} (h : arrayAt xs n = some item) : item ∈ xs := by
  unfold arrayAt at h
  split at h
  · simp at h
  · exact List.mem_of_getElem? h

theorem mem_handles_fst {es : List (Addr × Addr)} {e : Addr × Addr} (he : e ∈ es) :
    e.1 ∈ (Data.dict es : Data F Addr).handles := List.mem_flatMap.mpr ⟨e, he, by simp⟩

theorem mem_handles_snd {es : List (Addr × Addr)} {e : Addr × Addr} (he : e ∈ es) :
    e.2 ∈ (Data.dict es : Data F Addr).handles := List.mem_flatMap.mpr ⟨e, he, by simp⟩

variable [LT F] [DecidableLT F]

theorem settles_reference (h : Finite s schema value) (hprop : prop < s.cells.length) (values props : List Elem) :
    Settles (fun n => referenceTasks s schema n value prop values props) := by
  refine settles_look (access_total hprop _) (fun d hd => ?_)
  cases d with
  | string t =>
      refine settles_after (hasKey_total h.closed h.schema_acyclic h.schema_lt hprop) (fun found _ => ?_)
      cases found with
      | none => exact settles_fail
      | some ref => exact settles_const (by simp)
  | _ => exact settles_fail

theorem settles_call (h : Finite s schema value) (hprop : prop < s.cells.length) (selector : Elem) (name : String) :
    Settles (fun n => callTasks s schema n value prop selector name) := by
  refine settles_look (access_total hprop _) (fun d hd => ?_)
  cases d with
  | string t => exact settles_reference h hprop _ _
  | _ => exact settles_const (by simp)

theorem settles_items (h : Finite s schema value) (hprop : prop < s.cells.length) :
    Settles (fun n => itemsTasks s schema n value prop) := by
  have hlt : ∀ es : List (Addr × Addr), s.look prop = some (.dict es) → ∀ e ∈ es, e.1 < s.cells.length ∧ e.2 < s.cells.length :=
    fun es hes e he => ⟨h.closed.handles _ _ _ hes (mem_handles_fst he), h.closed.handles _ _ _ hes (mem_handles_snd he)⟩
  refine settles_look (access_total h.value_lt _) (fun d hd => ?_)
  have hv := loc_eq.mp hd
  cases d with
  | array xs =>
      refine settles_look (access_total hprop _) (fun es hes => settles_flatMap (fun e he => ?_))
      obtain ⟨hkey, hitem⟩ := hlt es (toDict_eq.mp hes) e he
      refine settles_look (access_total hkey _) (fun index _ => ?_)
      cases hx : arrayAt xs index with
      | none => exact settles_fail
      | some item => exact settles_call (h.child ⟨_, hv, mem_of_arrayAt hx⟩) hitem _ _
  | dict vs =>
      refine settles_look (access_total hprop _) (fun es hes => settles_flatMap (fun e he => ?_))
      obtain ⟨hkey, hitem⟩ := hlt es (toDict_eq.mp hes) e he
      refine settles_after (hasKey_total h.closed h.value_acyclic h.value_lt hkey) (fun found hf => ?_)
      cases found with
      | none => exact settles_fail
      | some item => exact settles_call (h.child (Found.child hf)) hitem _ _
  | _ => exact settles_fail

theorem settles_optItems (h : Finite s schema value) (hprop : prop < s.cells.length) :
    Settles (fun n => optItemsTasks s schema n value prop) := by
  refine settles_look (access_total h.value_lt _) (fun d hd => ?_)
  cases d with
  | dict vs =>
      refine settles_look (access_total hprop _) (fun es hes => settles_flatMap (fun e he => ?_))
      have hp := toDict_eq.mp hes
      have hkey := h.closed.handles _ _ _ hp (mem_handles_fst he)
      refine settles_after (hasKey_total h.closed h.value_acyclic h.value_lt hkey) (fun found hf => ?_)
      cases found with
      | none => exact settles_const (by simp)
      | some item => exact settles_call (h.child (Found.child hf)) (h.closed.handles _ _ _ hp (mem_handles_snd he)) _ _
  | _ => exact settles_fail

theorem settles_allItems (h : Finite s schema value) (hprop : prop < s.cells.length) :
    Settles (fun n => allItemsTasks s schema n value prop) := by
  refine settles_look (access_total h.value_lt _) (fun d hd => ?_)
  have hv := loc_eq.mp hd
  cases d with
  | array xs | set xs | list xs =>
      refine settles_flatMap (fun x hx => settles_call (h.child ⟨_, hv, ?_⟩) hprop _ _)
      exact List.fst_mem_of_mem_zipIdx hx
  | dict vs => exact settles_flatMap (fun e he => settles_call (h.child ⟨_, hv, mem_handles_snd he⟩) hprop _ _)
  | _ => exact settles_fail

theorem settles_switch (h : Finite s schema value) (hprop : prop < s.cells.length) (propId : PropId) :
    Settles (fun n => switchTasks s schema n value prop propId) := by
  have hcheck : ∀ (b : Prop) [Decidable b] (e : Error), Task.hang ∉ (if b then [Task.fail e [] []] else []) := by
    intro b _ e
    split <;> simp
  cases propId with
  | type =>
      refine settles_look (access_total hprop _) (fun d _ => ?_)
      cases d with
      | string t =>
          cases hl : cTypeMap.lookup t with
          | none =>
              simp only [hl]
              exact settles_fail
          | some type =>
              simp only [hl]
              exact settles_look (access_total h.value_lt _) (fun d _ => settles_const (hcheck _ _))
      | _ => exact settles_fail
  | equal | notEqual | lesser | greater | lesserEqual | greaterEqual =>
      exact settles_after (access_compare_total h.closed h.value_acyclic h.value_lt hprop)
        (fun r _ => settles_const (hcheck _ _))
  | sizeEqual | sizeNotEqual | sizeLesser | sizeGreater | sizeLesserEqual | sizeGreaterEqual =>
      refine settles_look (access_total h.value_lt _) (fun d _ => ?_)
      cases sizeOf? d with
      | none => exact settles_fail
      | some size => exact settles_look (access_total hprop _) (fun n _ => settles_const (hcheck _ _))
  | regex =>
      refine settles_look (access_total h.value_lt _) (fun d _ => ?_)
      cases d with
      | string text => exact settles_look (access_total hprop _) (fun key _ => settles_const (by simp))
      | _ => exact settles_fail
  | items => exact settles_items h hprop
  | optItems => exact settles_optItems h hprop
  | allKeys =>
      refine settles_look (access_total h.value_lt _) (fun d hd => ?_)
      have hv := loc_eq.mp hd
      cases d with
      | dict vs => exact settles_flatMap (fun e he => settles_call (h.child ⟨_, hv, mem_handles_fst he⟩) hprop _ _)
      | _ => exact settles_fail
  | allItems => exact settles_allItems h hprop

/-- No comparison of a validation on finite values hangs. -/
theorem settles_pairTasks (h : Finite s schema value) {props : Nat} (hprops : props < s.cells.length) :
    Settles (fun n => pairTasks s schema n value props) := by
  refine settles_look (access_total hprops _) (fun es hes => settles_flatMap (fun e he => ?_))
  have hp := toDict_eq.mp hes
  have hprop := h.closed.handles _ _ _ hp (mem_handles_snd he)
  refine settles_look (access_total (h.closed.handles _ _ _ hp (mem_handles_fst he)) _) (fun name _ => ?_)
  cases cPropMap.lookup name with
  | some propId => exact settles_switch h hprop propId
  | none =>
      show Settles (fun n => if isRef name then _ else _)
      split
      · exact settles_reference h hprop _ _
      · exact settles_fail

end Properties

/-! ## Which nested validations there are -/

section Starts

variable [LT F] [DecidableLT F] (lib : RegexLib R) (s : Store F) (schema : Addr)

/-- Validating a value against a property dict comes to validating another value against another dict. -/
def Starts (x y : Addr × Addr) : Prop :=
  PairReaches lib s schema (fun _ => False) (Satisfies lib s schema) (fun value props => (value, props) = y) x.1 x.2

/-- Validating the value against the property dict comes to a reference, which leads to another dict. -/
def Refers (value props props' : Addr) : Prop :=
  ∃ es, s.look props = some (.dict es) ∧ FirstOf (EntryHolds lib s schema (Satisfies lib s schema) value)
    (fun e => ∃ name t, s.look e.1 = some (.string name) ∧ cPropMap.lookup name = none ∧ isRef name = true
      ∧ s.look e.2 = some (.string t) ∧ Found s schema e.2 props') es

variable {lib s schema} {value prop : Addr} {y : Addr × Addr}

/-- The nested validations of a property are of elements of the value. -/
theorem means_of_propReaches {Sat Sub : Addr → Addr → Prop} {propId : PropId}
    (h : PropReaches s schema (fun _ => False) Sat Sub value prop propId) :
    ∃ item q, s.Child value item ∧ Means s schema Sub item q := by
  cases propId with
  | regex =>
      obtain ⟨_, _, _, _, h⟩ := h
      exact h.elim
  | items =>
      rcases h with ⟨xs, es, hv, -, _, e, _, -, -, n, item, -, hx, hmeans⟩ | ⟨vs, es, hv, -, _, e, _, -, -, item, hf, hmeans⟩
      · exact ⟨item, e.2, ⟨_, hv, mem_of_arrayAt hx⟩, hmeans⟩
      · exact ⟨item, e.2, hf.child, hmeans⟩
  | optItems =>
      obtain ⟨vs, es, hv, -, _, e, _, -, -, item, hf, hmeans⟩ := h
      exact ⟨item, e.2, hf.child, hmeans⟩
  | allKeys =>
      obtain ⟨vs, hv, _, e, _, hvs, -, hmeans⟩ := h
      exact ⟨e.1, prop, ⟨_, hv, mem_handles_fst (by simp [hvs])⟩, hmeans⟩
  | allItems =>
      rcases h with ⟨xs, hv | hv | hv, _, x, _, hxs, -, hmeans⟩ | ⟨vs, hv, _, e, _, hvs, -, hmeans⟩
      · exact ⟨x, prop, ⟨_, hv, by simp [Data.handles, hxs]⟩, hmeans⟩
      · exact ⟨x, prop, ⟨_, hv, by simp [Data.handles, hxs]⟩, hmeans⟩
      · exact ⟨x, prop, ⟨_, hv, by simp [Data.handles, hxs]⟩, hmeans⟩
      · exact ⟨e.2, prop, ⟨_, hv, mem_handles_snd (by simp [hvs])⟩, hmeans⟩
  | _ => exact h.elim

/-- A nested validation is of an element of the value, or of the value by a reference. -/
theorem starts_cases {x : Addr × Addr} (h : Starts lib s schema x y) :
    s.Child x.1 y.1 ∨ (x.1 = y.1 ∧ Refers lib s schema x.1 x.2 y.2) := by
  obtain ⟨es, hes, before, e, after, hsplit, hb, name, hname, he⟩ := h
  cases hl : cPropMap.lookup name with
  | some propId =>
      rw [hl] at he
      obtain ⟨item, q, hitem, ⟨_, _, _, _, rfl⟩ | ⟨_, _, _, rfl⟩⟩ := means_of_propReaches he
      · exact .inl hitem
      · exact .inl hitem
  | none =>
      rw [hl] at he
      obtain ⟨hr, t, ref, ht, hf, rfl⟩ := he
      exact .inr ⟨rfl, es, hes, before, e, after, hsplit, hb, name, t, hname, hl, hr, ht, hf⟩

/-- It is against a cell that is there. -/
theorem starts_lt (hc : s.Closed) {x : Addr × Addr} (h : Starts lib s schema x y) : y.2 < s.cells.length := by
  obtain ⟨es, hes, before, e, after, -, -, name, -, he⟩ := h
  cases hl : cPropMap.lookup name with
  | some propId =>
      rw [hl] at he
      obtain ⟨item, q, -, ⟨_, _, _, hf, rfl⟩ | ⟨_, hq, _, rfl⟩⟩ := means_of_propReaches he
      · exact hf.child.lt hc
      · exact Store.lt_of_look hq
  | none =>
      rw [hl] at he
      obtain ⟨-, t, ref, -, hf, rfl⟩ := he
      exact hf.child.lt hc

theorem starts_of_refers {props props' : Addr} (h : Refers lib s schema value props props') :
    Starts lib s schema (value, props) (value, props') := by
  obtain ⟨es, hes, before, e, after, hsplit, hb, name, t, hname, hl, hr, ht, hf⟩ := h
  refine ⟨es, hes, before, e, after, hsplit, hb, name, hname, ?_⟩
  rw [hl]
  exact ⟨hr, t, props', ht, hf, rfl⟩

theorem taskReaches_eq {t : Task} (h : TaskReaches (fun _ => False) (fun value props => (value, props) = y) t) :
    ∃ values pushed, t = .pair y.1 y.2 values pushed := by
  cases t with
  | pair value props values pushed =>
      obtain rfl : (value, props) = y := h
      exact ⟨values, pushed, rfl⟩
  | fail e values props => exact h.elim
  | regex key text => exact h.elim
  | hang => exact h.elim

end Starts

/-! ## Validations that end -/

section Ends

variable {lib : RegexLib R}

/-- Where tasks come to an end, the first that is reached after tasks without an error does. -/
theorem runTask_of_runTasks {pair : Addr → Addr → Result} {ts us : List Task} (hle : TasksLe ts us)
    {x : Except Report Unit} (hx : runTasks lib pair ts = some x) {before after : List Task} {t : Task}
    (hus : us = before ++ t :: after) (hb : ∀ u ∈ before, ∀ r, runTask lib pair u ≠ some (.error r)) :
    ∃ y, runTask lib pair t = some y := by
  induction hle generalizing before with
  | nil => simp at hus
  | hang ts us => simp [runTasks, runTask] at hx
  | cons u hle ih =>
      unfold runTasks at hx
      cases hu : runTask lib pair u with
      | none => simp [hu] at hx
      | some y =>
          rcases List.cons_eq_append_iff.mp hus with ⟨rfl, h⟩ | ⟨before, rfl, h⟩
          · obtain ⟨rfl, -⟩ := List.cons.inj h
            exact ⟨y, hu⟩
          · cases y with
            | error r => exact absurd hu (hb u List.mem_cons_self r)
            | ok v =>
                rw [hu] at hx
                exact ih hx h (fun w hw => hb w (List.mem_cons_of_mem u hw))

variable [LT F] [DecidableLT F] {s : Store F} {schema : Addr}

/-- A task that comes out well raises no error. -/
theorem not_error_of_taskSat {fuel : Nat} {t : Task} (h : TaskSat lib (Satisfies lib s schema) t) (r : Report) :
    runTask lib (report lib s schema fuel) t ≠ some (.error r) := by
  intro hr
  cases t with
  | fail e values props => exact h
  | hang => exact h
  | regex key text =>
      obtain ⟨x, hx, hm⟩ := h
      simp [runTask, hx, hm] at hr
  | pair value props values pushed =>
      obtain ⟨fuel', hok⟩ := report_of_satisfies h
      simp only [runTask] at hr
      cases hp : report lib s schema fuel value props with
      | none => simp [hp] at hr
      | some x =>
          obtain rfl := report_unique hp hok
          simp [hp] at hr

/-- The nested validations of a validation that ends go on to an end. -/
theorem acc_of_report : ∀ {fuel : Nat} {value props : Addr} {x : Except Report Unit},
    report lib s schema fuel value props = some x → Acc (fun x y => Starts lib s schema y x) (value, props)
  | 0, _, _, _, h => by simp [report] at h
  | fuel + 1, value, props, x, h => by
      refine .intro _ (fun y hy => ?_)
      obtain ⟨depth, before, t, after, hts, hb, ht⟩ := reach_pairTasks.mpr hy
      obtain ⟨values, pushed, rfl⟩ := taskReaches_eq ht
      -- at a depth that is enough for both, the nested validation is among the tasks
      let N := max fuel depth
      have hle : TasksLe (pairTasks s schema fuel value props) (pairTasks s schema N value props) :=
        pairTasks_le (Nat.le_max_left fuel depth) value props
      have hle' : TasksLe (pairTasks s schema depth value props) (pairTasks s schema N value props) :=
        pairTasks_le (Nat.le_max_right fuel depth) value props
      obtain ⟨after', hN⟩ := hle'.split hts (fun u hu => (hb u hu).ne_hang) (by simp)
      obtain ⟨x', hx'⟩ := runTask_of_runTasks hle h hN (fun u hu => not_error_of_taskSat (hb u hu))
      cases hp : report lib s schema fuel y.1 y.2 with
      | none => simp [runTask, hp] at hx'
      | some x'' => exact acc_of_report hp

/-- Tasks come to an end if none hangs and the nested validations that they come to do. -/
theorem runTasks_ends {ts : List Task} (hhang : Task.hang ∉ ts) (good : List Task)
    (hgood : ∀ t ∈ good, TaskSat lib (Satisfies lib s schema) t)
    (hpair : ∀ before t after, good ++ ts = before ++ t :: after → (∀ u ∈ before, TaskSat lib (Satisfies lib s schema) u) →
      ∀ value props values pushed, t = .pair value props values pushed →
        ∃ fuel x, report lib s schema fuel value props = some x) :
    ∃ fuel x, ∀ m, fuel ≤ m → runTasks lib (report lib s schema m) ts = some x := by
  induction ts generalizing good with
  | nil => exact ⟨0, .ok (), fun _ _ => rfl⟩
  | cons t ts ih =>
      have htask : ∃ fuel x, ∀ m, fuel ≤ m → runTask lib (report lib s schema m) t = some x := by
        cases t with
        | fail e values props => exact ⟨0, _, fun _ _ => rfl⟩
        | hang => simp at hhang
        | regex key text =>
            have hreg : ∃ x, runTask lib (report lib s schema 0) (.regex key text) = some x := by
              simp only [runTask]
              cases lib.regexC key with
              | error e => exact ⟨_, rfl⟩
              | ok r =>
                  by_cases hm : lib.matches r text = true
                  · exact ⟨_, if_pos hm⟩
                  · exact ⟨_, if_neg hm⟩
            obtain ⟨x, hx⟩ := hreg
            exact ⟨0, x, fun _ _ => hx⟩
        | pair value props values pushed =>
            -- a call ends as the tasks before it are good, so that it comes to where it is called
            obtain ⟨fuel, x, hx⟩ := hpair good _ ts rfl hgood value props values pushed rfl
            have hrun : ∃ x', runTask lib (report lib s schema fuel) (.pair value props values pushed) = some x' := by
              simp only [runTask, hx]
              cases x <;> exact ⟨_, rfl⟩
            obtain ⟨x', hx'⟩ := hrun
            exact ⟨fuel, x', fun m hm => runTask_mono (fun _ _ _ h => report_mono hm h) hx'⟩
      obtain ⟨fuel, x, hx⟩ := htask
      cases x with
      | error r =>
          -- the first error ends the list
          refine ⟨fuel, .error r, fun m hm => ?_⟩
          unfold runTasks
          rw [hx m hm]
      | ok u =>
          have hsat : TaskSat lib (Satisfies lib s schema) t :=
            (taskSat_of_runTask (hx fuel (Nat.le_refl fuel))).imp (fun _ _ => satisfies_of_report)
          obtain ⟨fuel', x', hx'⟩ := ih (fun h => hhang (List.mem_cons_of_mem t h)) (good ++ [t])
            (by
              intro u hu
              rcases List.mem_append.mp hu with hu | hu
              · exact hgood u hu
              · exact List.mem_singleton.mp hu ▸ hsat)
            (by simpa using hpair)
          refine ⟨max fuel fuel', x', fun m hm => ?_⟩
          unfold runTasks
          rw [hx m (by omega)]
          exact hx' m (by omega)

/-- A validation on finite values ends if its nested validations do not go on for ever. -/
theorem report_of_acc {value props : Nat} (h : Finite s schema value) (hprops : props < s.cells.length)
    (hacc : Acc (fun x y => Starts lib s schema y x) (value, props)) :
    ∃ fuel x, report lib s schema fuel value props = some x := by
  generalize hx : (value, props) = x at hacc
  induction hacc generalizing value props with
  | intro x _ ih =>
      subst hx
      obtain ⟨depth, hdepth⟩ := settles_pairTasks h hprops
      have hends : ∃ fuel x, ∀ m, fuel ≤ m →
          runTasks lib (report lib s schema m) (pairTasks s schema depth value props) = some x := by
        refine runTasks_ends (hdepth depth (Nat.le_refl depth)) [] (by simp) ?_
        rintro before t after hts hb value' props' values pushed rfl
        have hstarts : Starts lib s schema (value, props) (value', props') :=
          reach_pairTasks.mp ⟨depth, before, _, after, hts, hb, rfl⟩
        refine ih _ hstarts ?_ (starts_lt h.closed hstarts) rfl
        rcases starts_cases hstarts with hchild | ⟨rfl, -⟩
        · exact h.child hchild
        · exact h
      obtain ⟨fuel, x, hx⟩ := hends
      -- more depth than that changes nothing
      let N := max depth fuel
      have hN : pairTasks s schema N value props = pairTasks s schema depth value props := by
        refine (pairTasks_le (Nat.le_max_left depth fuel) value props).eq (fun t ht => ?_)
        rintro rfl
        exact hdepth depth (Nat.le_refl depth) ht
      refine ⟨N + 1, x, ?_⟩
      unfold report
      rw [hN]
      exact hx N (Nat.le_max_right depth fuel)

/-- The nested validations of a validation go on in the value or by references. -/
theorem child_of_starts {x y : Addr × Addr} (h : ReflTransGen (Starts lib s schema) x y) :
    ReflTransGen (Store.Child s) x.1 y.1 := by
  induction h with
  | refl => exact .refl
  | tail _ hstep ih =>
      rcases starts_cases hstep with hchild | ⟨heq, -⟩
      · exact ih.tail hchild
      · exact heq ▸ ih

/-- The validation of the value against `root` comes to a property dict from which references on one and the same value
    lead back to it. -/
def Circles (lib : RegexLib R) (s : Store F) (schema value root : Addr) : Prop :=
  ∃ v p, ReflTransGen (Starts lib s schema) (value, root) (v, p) ∧ TransGen (Refers lib s schema v) p p

theorem noCycle_starts_iff {value root : Nat} (h : Finite s schema value) :
    NoCycle (Starts lib s schema) (value, root) ↔ ¬ Circles lib s schema value root := by
  constructor
  · rintro hno ⟨v, p, hreach, hcycle⟩
    exact hno (v, p) hreach (TransGen.lift (fun p => (v, p)) (fun _ _ => starts_of_refers) p p hcycle)
  · intro hno x hreach hcycle
    rcases cycle_of_lex (fun x y => starts_cases) hcycle with hchild | ⟨-, hrefers⟩
    · exact h.value_acyclic x.1 (child_of_starts hreach) hchild
    · exact hno ⟨x.1, x.2, hreach, hrefers⟩

/-- **A validation ends** exactly if it does not go round in references. -/
theorem report_ends_iff {value root : Nat} (h : Finite s schema value) (hroot : root < s.cells.length) :
    (∃ fuel x, report lib s schema fuel value root = some x) ↔ ¬ Circles lib s schema value root := by
  rw [← noCycle_starts_iff h]
  constructor
  · rintro ⟨fuel, x, hx⟩
    exact noCycle_of_acc (acc_of_report hx)
  · intro hno
    refine report_of_acc h hroot (acc_of_noCycle ?_ hno)
    let cells : Set Nat := {a | a < s.cells.length}
    have hcells : cells.Finite := Set.finite_lt_nat s.cells.length
    refine ((hcells.prod hcells).insert (value, root)).subset (fun x hx => ?_)
    cases hx with
    | refl => exact Set.mem_insert _ _
    | tail hreach hstep =>
        refine Set.mem_insert_of_mem _ ⟨?_, starts_lt h.closed hstep⟩
        exact (Store.reach_iff.mpr (child_of_starts (hreach.tail hstep))).lt h.closed h.value_lt

end Ends

/-! ## `validate` -/

section Validate

variable [LT F] [DecidableLT F] {lib : RegexLib R} {order : OperandOrder} {s : Store F} {schema : Addr}

theorem find_ends (depth : Nat) (key : StringT) (h : s.Closed) (hschema : schema < s.cells.length) :
    ∃ x, Access.find s depth schema key = some x := by
  obtain ⟨d, hd⟩ := Store.look_lt hschema
  cases d with
  | dict es =>
      rcases find_total h hd depth key with ⟨b, hb⟩ | ⟨i, hi⟩
      · exact ⟨_, hb⟩
      · exact ⟨_, hi⟩
  | _ =>
      unfold Access.find
      rw [hd]
      exact ⟨_, rfl⟩

theorem lt_of_rootEntry {root : Addr} (hc : s.Closed) (h : RootEntry s schema root) : root < s.cells.length := by
  obtain ⟨depth, h⟩ := h
  obtain ⟨d, hd, h⟩ := Option.bind_eq_some_iff.mp h
  cases d with
  | dict es =>
      obtain ⟨keys, -, h⟩ := Option.bind_eq_some_iff.mp h
      obtain ⟨⟨i, found⟩, -, h⟩ := Option.bind_eq_some_iff.mp h
      cases found with
      | false => simp at h
      | true =>
          obtain ⟨e, he, h⟩ := Option.map_eq_some_iff.mp h
          obtain rfl : e.2 = root := by simpa using h
          exact hc.handles _ _ _ hd (mem_handles_snd (List.mem_of_getElem? he))
  | _ => simp at h

theorem rootReport_ends_iff {value : Addr} (h : Finite s schema value) :
    (∃ fuel x, rootReport lib s schema fuel value = some x)
      ↔ ¬ ∃ root, RootEntry s schema root ∧ Circles lib s schema value root := by
  obtain ⟨x, hx⟩ := find_ends 1 (bytes "root") h.closed h.schema_lt
  have hfind : ∀ fuel, Access.find s fuel schema (bytes "root") = some x := fun fuel => (find_depth fuel 1 _ _).trans hx
  have hnoroot : (∀ root, x ≠ .ok (.value root)) → ¬ ∃ root, RootEntry s schema root ∧ Circles lib s schema value root := by
    rintro hne ⟨root, hroot, -⟩
    exact hne root (Option.some.inj (hx.symm.trans (hroot.find 1)))
  unfold rootReport
  simp only [hfind]
  rcases x with e | root | ⟨es, i⟩
  · exact iff_of_true ⟨0, _, rfl⟩ (hnoroot (by simp))
  · have hentry : ∀ root', RootEntry s schema root' ↔ root' = root := by
      intro root'
      constructor
      · rintro ⟨depth, hroot'⟩
        simpa [hfind] using hroot'.symm
      · rintro rfl
        exact ⟨1, hx⟩
    refine (report_ends_iff h (lt_of_rootEntry h.closed ((hentry root).mpr rfl))).trans ?_
    simp [hentry]
  · refine iff_of_true ⟨1, .error ⟨.variableInvalidTypeRequested, [], [], none⟩, ?_⟩ (hnoroot (by simp))
    show report lib (addEntry s schema es i (bytes "root")) schema 1 value (s.cells.length + 1) = _
    unfold report pairTasks
    rw [toDict_addEntry h.schema_lt]
    rfl

variable {σ : ValidatorC F R} {values : List Addr}

/-- **When a validation ends**: any call on any validator without a null pointer in its cache returns or throws, after
    finitely many calls of `validate_pair`, exactly if it does not come to a property dict from which references on one
    and the same value lead back to it. The dicts of schema and value are such that a search finds the same in every
    tree. -/
theorem validate_ends_iff (hσ : Called lib order (ValidatorC.mk' s schema) values σ) (hnull : ∀ key, ¬ Nulled σ key)
    {value : Addr} (h : Finite σ.store σ.schema value) (hsearch : Searchable σ.store σ.schema value) :
    ((∃ fuel r σ', validate lib order fuel value σ = some (r, σ') ∧ r ≠ .error .nullRegex)
      ↔ ¬ ∃ root, RootEntry σ.store σ.schema root ∧ Circles lib σ.store σ.schema value root)
      ∧ FoundInTrees σ.store σ.schema value := by
  refine ⟨?_, found_in_trees hsearch⟩
  rw [← rootReport_ends_iff h]
  refine exists_congr (fun fuel => ?_)
  have hfin : Finishes lib order fuel σ _ (validate lib order fuel value σ) :=
    validate_finishes fuel (hσ.coherent (coherent_new s schema)) value
  generalize rootReport lib σ.store σ.schema fuel value = result at hfin ⊢
  generalize validate lib order fuel value σ = out at hfin ⊢
  cases hfin with
  | runs => simp
  | returns _ _ _ => simp
  | throws _ _ _ _ => simp
  | null _ hn => exact absurd hn (hnull _)

/-- The theorem for the schema `{"root": {"all-items": "root", "type": "array"}}`, whose reference leads back to the
    entry it is in, and the value `[[]]`: the reference goes into the value, and the validation ends. -/
theorem validate_ends_nested :
    let s : Store Nat := ⟨[.dict [(1, 2)], .string (bytes "root"), .dict [(3, 4), (5, 6)], .string (bytes "all-items"),
      .string (bytes "root"), .string (bytes "type"), .string (bytes "array"), .array [8], .array []], [some 0, some 7]⟩
    (∃ fuel r σ', validate rejectAll .newFirst fuel 7 (ValidatorC.mk' s 0) = some (r, σ') ∧ r ≠ .error .nullRegex)
      ∧ ¬ ∃ root, RootEntry s 0 root ∧ Circles rejectAll s 0 7 root := by
  intro s
  have hclosed : s.Closed := .of_forall (by decide) (by decide)
  have hacyclic : ∀ a, s.Acyclic a := Store.acyclic_of_ascending (by decide)
  have hfinite : Finite s 0 7 := ⟨hclosed, by decide, by decide, hacyclic 0, hacyclic 7⟩
  have hsearch : Searchable s 0 7 := searchable_of_inOrder (inOrder_of_forall hclosed 1 (by decide)) (.root (x := 0) rfl)
    (.root (x := 1) rfl) (hacyclic 0) (hacyclic 7)
  have hσ : Called rejectAll .newFirst (ValidatorC.mk' s 0) [] (ValidatorC.mk' s 0) := .none _
  have hends : ∃ fuel r σ', validate rejectAll .newFirst fuel 7 (ValidatorC.mk' s 0) = some (r, σ') ∧ r ≠ .error .nullRegex :=
    ⟨4, .ok (), _, rfl, by simp⟩
  exact ⟨hends, (validate_ends_iff hσ (by simp [Nulled, ValidatorC.mk']) hfinite hsearch).1.mp hends⟩

/-- Against the schema `{"root": {"ref": "root"}}` the validation of a blank value does not end. -/
theorem validate_root_ref :
    let s : Store Nat := ⟨[.dict [(1, 2)], .string (bytes "root"), .dict [(3, 4)], .string (bytes "ref"),
      .string (bytes "root"), .blank], [some 0, some 5]⟩
    Finite s 0 5 ∧ Searchable s 0 5 ∧ ∀ fuel, validate rejectAll .newFirst fuel 5 (ValidatorC.mk' s 0) = none := by
  intro s
  have hclosed : s.Closed := .of_forall (by decide) (by decide)
  have hacyclic : ∀ a, s.Acyclic a := Store.acyclic_of_ascending (by decide)
  refine ⟨⟨hclosed, by decide, by decide, hacyclic 0, hacyclic 5⟩, searchable_of_inOrder
    (inOrder_of_forall hclosed 1 (by decide)) (.root (x := 0) rfl) (.root (x := 1) rfl) (hacyclic 0) (hacyclic 5),
    fun fuel => ?_⟩
  -- the reference is the only task, and it leads to the same validation
  have htasks : ∀ n, pairTasks s 0 (n + 1) 5 2 = [.pair 5 2 [] [.var 4, .string (bytes "ref")]] := by
    intro n
    have hone : pairTasks s 0 1 5 2 = [.pair 5 2 [] [.var 4, .string (bytes "ref")]] := by decide
    rw [← hone]
    refine (pairTasks_le (Nat.succ_le_succ (Nat.zero_le n)) 5 2).eq (fun t ht => ?_)
    rw [hone, List.mem_singleton] at ht
    simp [ht]
  have hreport : ∀ n, report rejectAll s 0 n 5 2 = none := by
    intro n
    induction n with
    | zero => rfl
    | succ n ih =>
        cases n with
        | zero => decide
        | succ n =>
            unfold report
            rw [htasks]
            simp only [runTasks, runTask, ih]
  have hroot : RootEntry s 0 2 := ⟨1, by decide⟩
  have hnone : rootReport rejectAll s 0 fuel 5 = none := (hroot.rootReport fuel 5).trans (hreport fuel)
  have hfin : Finishes rejectAll .newFirst fuel (ValidatorC.mk' s 0) (rootReport rejectAll s 0 fuel 5)
      (validate rejectAll .newFirst fuel 5 (ValidatorC.mk' s 0)) := validate_finishes fuel (coherent_new s 0) 5
  rw [hnone] at hfin
  generalize validate rejectAll .newFirst fuel 5 (ValidatorC.mk' s 0) = out at hfin ⊢
  cases hfin
  rfl

end Validate

end Cclvarval
end Cclib
