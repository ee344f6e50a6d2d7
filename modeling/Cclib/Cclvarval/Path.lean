import Cclib.Cclvarval.Reaches

/-!
# `Cclvarval.Path` — the error path

After a `throw` the two stacks tell where the validation was: `value_stack` the selectors from the root value to
the value that was being validated, `props_stack` the properties and references that were followed. `Step` is one
step of such a path and `Leads` says which steps lead where; `Raised` says which errors arise at the end of a path
and what they add to it. A validation comes to a property or an element only if all before it do well, and so the path
is the one that it took. `validate_path` puts them together.

The stacks are filled from the failure to the root, so a report has the path in reverse (`report_path`).
-/

namespace Cclib
namespace Cclvarval

open Cclvar Compare Run

variable {F R : Type}

/-! ## Paths -/

/-- What a validation is at: a value and its property dict, or a value and a reference to one. -/
inductive Target where
  | dict (value props : Addr)
  | named (value propsRef : Addr)

/-- One step: into an element by a container property, or to the schema entry of a reference. -/
inductive Step where
  | select (name : String) (selector : Elem)
  | ref (propsRef : Addr)

/-- What a step appends to the path of the value. -/
def Step.values : Step → List Elem
  | .select _ selector => [selector]
  | .ref _ => []

/-- What a step appends to the path of the properties. -/
def Step.props : Step → List Elem
  | .select name selector => [.string (bytes name), selector]
  | .ref propsRef => [.string (bytes "ref"), .var propsRef]

section Relations

variable [LT F] [DecidableLT F] (lib : RegexLib R) (s : Store F) (schema : Addr) (Sat : Addr → Addr → Prop)

/-- The element that a container property comes to, and what it is validated against: `Sat` says which of the
    validations before do well. -/
inductive Selects (value prop : Addr) : String → Elem → Addr → Addr → Prop where
  | index {xs : List Addr} {es : List (Addr × Addr)} {e : Addr × Addr} {n : Int64} {item : Addr} :
      s.look value = some (.array xs) → s.look prop = some (.dict es) → FirstOf (IndexMeans s schema Sat xs) (· = e) es →
      s.look e.1 = some (.integer n) → arrayAt xs n = some item → Selects value prop "items" (.var e.1) item e.2
  | key {vs es : List (Addr × Addr)} {e : Addr × Addr} {item : Addr} :
      s.look value = some (.dict vs) → s.look prop = some (.dict es) → FirstOf (KeyMeans s schema Sat value) (· = e) es →
      Found s value e.1 item → Selects value prop "items" (.var e.1) item e.2
  | optKey {vs es : List (Addr × Addr)} {e : Addr × Addr} {item : Addr} :
      s.look value = some (.dict vs) → s.look prop = some (.dict es) →
      FirstOf (fun e => NotFound s value e.1 ∨ KeyMeans s schema Sat value e) (· = e) es → Found s value e.1 item →
      Selects value prop "opt-items" (.var e.1) item e.2
  | allKeys {vs : List (Addr × Addr)} {e : Addr × Addr} :
      s.look value = some (.dict vs) → FirstOf (fun e => Means s schema Sat e.1 prop) (· = e) vs →
      Selects value prop "all-keys" (.var e.1) e.1 prop
  | item {xs : List Addr} {i : Nat} {item : Addr} :
      s.look value = some (.array xs) ∨ s.look value = some (.set xs) ∨ s.look value = some (.list xs) →
      FirstOf (fun x => Means s schema Sat x.1 prop) (· = (item, i)) xs.zipIdx →
      Selects value prop "all-items" (.position i) item prop
  | dictItem {vs : List (Addr × Addr)} {e : Addr × Addr} :
      s.look value = some (.dict vs) → FirstOf (fun e => Means s schema Sat e.2 prop) (· = e) vs →
      Selects value prop "all-items" (.var e.1) e.2 prop

/-- A property of a property dict that the validation of the value comes to: the entries before it hold. -/
def HasProp (value props : Addr) (name : StringT) (prop : Addr) : Prop :=
  ∃ es e, s.look props = some (.dict es) ∧ FirstOf (EntryHolds lib s schema Sat value) (· = e) es
    ∧ s.look e.1 = some (.string name) ∧ e.2 = prop

/-- What a validation at a target goes on with, and the steps this is. -/
inductive Leads : Target → List Step → Target → Prop where
  | select {value props prop item q : Addr} {name : String} {selector : Elem} {d : Data F Addr} :
      HasProp lib s schema Sat value props (bytes name) prop → Selects s schema Sat value prop name selector item q →
      s.look q = some d →
      Leads (.dict value props) [.select name selector]
        (match d with | .string _ => .named item q | _ => .dict item q)
  | refProp {value props prop : Addr} {name : StringT} :
      HasProp lib s schema Sat value props name prop → cPropMap.lookup name = none → isRef name = true →
      Leads (.dict value props) [] (.named value prop)
  | follow {value q ref : Addr} {t : StringT} :
      s.look q = some (.string t) → Found s schema q ref → Leads (.named value q) [.ref q] (.dict value ref)

/-- A path of steps. -/
inductive Path : Target → List Step → Target → Prop where
  | refl (t : Target) : Path t [] t
  | step {t t' t'' : Target} {path path' : List Step} :
      Leads lib s schema Sat t path t' → Path t' path' t'' → Path t (path ++ path') t''

/-- An error at a target, and what it adds to the two paths. -/
inductive Raised : Target → Error → List Elem → List Elem → Prop where
  /-- a key that the dict does not have -/
  | missing {value props prop : Addr} {vs es : List (Addr × Addr)} {e : Addr × Addr} :
      HasProp lib s schema Sat value props (bytes "items") prop → s.look value = some (.dict vs) →
      s.look prop = some (.dict es) → FirstOf (KeyMeans s schema Sat value) (· = e) es → NotFound s value e.1 →
      Raised (.dict value props) .dictMissingKey [.var e.1] [.string (bytes "items"), .var e.1]
  /-- an index that the array does not have -/
  | range {value props prop : Addr} {xs : List Addr} {es : List (Addr × Addr)} {e : Addr × Addr} {n : Int64} :
      HasProp lib s schema Sat value props (bytes "items") prop → s.look value = some (.array xs) →
      s.look prop = some (.dict es) → FirstOf (IndexMeans s schema Sat xs) (· = e) es →
      s.look e.1 = some (.integer n) → arrayAt xs n = none →
      Raised (.dict value props) .arrayInvalidSize [.var e.1] [.string (bytes "items"), .var e.1]
  /-- a property of no known name -/
  | property {value props prop : Addr} {name : StringT} :
      HasProp lib s schema Sat value props name prop → cPropMap.lookup name = none → isRef name = false →
      Raised (.dict value props) .invalidSchemaProperty [] [.string name]
  /-- a reference that is no text, or to no entry of the schema -/
  | reference {value q : Addr} {d : Data F Addr} :
      s.look q = some d → (∀ t, d = .string t → NotFound s schema q) →
      Raised (.named value q) .invalidSchemaReference [] [.string (bytes "ref"), .var q]
  /-- a value or a property that is not as it should be: validating this value against this dict pushes nothing -/
  | plain {value props : Addr} {r : Report} {fuel : Nat} :
      report lib s schema fuel value props = some (.error r) → r.values = [] → r.props = [] →
      Raised (.dict value props) r.error [] []

end Relations

section Paths

variable [LT F] [DecidableLT F] {lib : RegexLib R} {s : Store F} {schema : Addr} {Sat : Addr → Addr → Prop}

theorem Path.append {t t' t'' : Target} {path path' : List Step} (h : Path lib s schema Sat t path t')
    (h' : Path lib s schema Sat t' path' t'') : Path lib s schema Sat t (path ++ path') t'' := by
  induction h with
  | refl t => exact h'
  | step hl _ ih =>
      rw [List.append_assoc]
      exact .step hl (ih h')

theorem Path.single {t t' : Target} {path : List Step} (h : Leads lib s schema Sat t path t') :
    Path lib s schema Sat t path t' := by
  have hp := Path.step h (.refl t')
  rw [List.append_nil] at hp
  exact hp

end Paths

/-! ## The task that does not do well -/

section Lemmas

variable [LT F] [DecidableLT F] {s : Store F} {schema : Addr} {depth : Nat} {lib : RegexLib R}

/-- Where a task of the validation at `t` comes from. -/
def Origin (lib : RegexLib R) (s : Store F) (schema : Addr) (Sat : Addr → Addr → Prop) (t : Target) : Task → Prop
  | .fail e values props => (values = [] ∧ props = []) ∨ ∃ path t' values' props', Path lib s schema Sat t path t'
      ∧ Raised lib s schema Sat t' e values' props' ∧ values = (path.flatMap Step.values ++ values').reverse
      ∧ props = (path.flatMap Step.props ++ props').reverse
  | .pair value props values propsPushed => ∃ path, Path lib s schema Sat t path (.dict value props)
      ∧ values = (path.flatMap Step.values).reverse ∧ propsPushed = (path.flatMap Step.props).reverse
  | _ => True

/-- Where a task comes from, if all before it do well. -/
def Origins (lib : RegexLib R) (s : Store F) (schema : Addr) (Sat : Addr → Addr → Prop) (t : Target) (ts : List Task) : Prop :=
  ∀ u, FirstOf (TaskSat lib Sat) (· = u) ts → Origin lib s schema Sat t u

variable {Sat : Addr → Addr → Prop} {value props prop : Addr}

theorem origins_nil {t : Target} : Origins lib s schema Sat t [] := fun _ h => absurd h not_firstOf_nil

theorem origins_one {t : Target} {u : Task} (h : Origin lib s schema Sat t u) : Origins lib s schema Sat t [u] := by
  intro u' hu
  obtain rfl := firstOf_one.mp hu
  exact h

theorem origins_after {α : Type} {t : Target} {r : Access α} {f : α → List Task}
    (h : ∀ a, r = some (.ok a) → Origins lib s schema Sat t (f a)) : Origins lib s schema Sat t (after r f) := by
  rcases r with _ | e | a
  · exact origins_one trivial
  · exact origins_one (.inl ⟨rfl, rfl⟩)
  · exact h a rfl

theorem origins_plain {t : Target} {e : Error} : Origins lib s schema Sat t [.fail e [] []] :=
  origins_one (.inl ⟨rfl, rfl⟩)

/-- A failure and what it adds, or nothing to do. -/
theorem origins_check {t : Target} {b : Prop} [Decidable b] {e : Error} :
    Origins lib s schema Sat t (if b then [Task.fail e [] []] else []) := by
  split
  · exact origins_plain
  · exact origins_nil

/-- The tasks of an element are come to if all before it do well. -/
theorem origins_flatMap {β : Type} {t : Target} {f : β → List Task} {xs : List β}
    (h : ∀ x, FirstOf (fun y => ∀ u ∈ f y, TaskSat lib Sat u) (· = x) xs → Origins lib s schema Sat t (f x)) :
    Origins lib s schema Sat t (xs.flatMap f) := by
  intro u hu
  obtain ⟨before, x, after, rfl, hbefore, hx⟩ := firstOf_flatMap.mp hu
  exact h x ⟨before, x, after, rfl, hbefore, rfl⟩ u hx

/-- The tasks of a reference that a path has led to. -/
theorem origins_reference {t : Target} {path : List Step} {q : Addr} (hp : Path lib s schema Sat t path (.named value q)) :
    Origins lib s schema Sat t
      (referenceTasks s schema depth value q (path.flatMap Step.values).reverse (path.flatMap Step.props).reverse) := by
  have hmissing : ∀ d : Data F Addr, s.look q = some d → (∀ t, d = .string t → NotFound s schema q) →
      Origin lib s schema Sat t (.fail .invalidSchemaReference (path.flatMap Step.values).reverse
        (.var q :: .string (bytes "ref") :: (path.flatMap Step.props).reverse)) := by
    intro d hd h
    refine .inr ⟨path, .named value q, [], [.string (bytes "ref"), .var q], hp, .reference hd h, ?_, ?_⟩ <;> simp
  refine origins_after (fun d hd => ?_)
  have hq := loc_eq.mp hd
  cases d with
  | string t' =>
      refine origins_after (fun ref href => ?_)
      cases ref with
      | some ref =>
          refine origins_one ⟨path ++ [.ref q], hp.append (.single (.follow hq ⟨depth, href⟩)), ?_, ?_⟩ <;>
            simp [Step.values, Step.props]
      | none => exact origins_one (hmissing _ hq (fun _ _ => ⟨depth, href⟩))
  | _ => exact origins_one (hmissing _ hq (by simp))

theorem origins_call {item q : Addr} {name : String} {selector : Elem}
    (hprop : HasProp lib s schema Sat value props (bytes name) prop)
    (hsel : Selects s schema Sat value prop name selector item q) :
    Origins lib s schema Sat (.dict value props) (callTasks s schema depth item q selector name) := by
  refine origins_after (fun d hd => ?_)
  have hq := loc_eq.mp hd
  have hlead : Leads lib s schema Sat (.dict value props) _ _ := .select hprop hsel hq
  cases d with
  | string t => exact origins_reference (.single hlead)
  | _ => exact origins_one ⟨_, .single hlead, rfl, rfl⟩

theorem origins_items (hprop : HasProp lib s schema Sat value props (bytes "items") prop) :
    Origins lib s schema Sat (.dict value props) (itemsTasks s schema depth value prop) := by
  have hgood := outcome_good lib Sat
  refine origins_after (fun d hd => ?_)
  have hv := loc_eq.mp hd
  cases d with
  | array xs =>
      refine origins_after (fun es hes => origins_flatMap (fun e he => origins_after (fun n hn => ?_)))
      have hp := toDict_eq.mp hes
      have hn' := toInt_eq.mp hn
      have he' : FirstOf (IndexMeans s schema Sat xs) (· = e) es :=
        he.imp (fun y _ hy => (hgood.index y).mp ⟨depth, hy⟩) (fun _ _ hx => hx)
      cases hx : arrayAt xs n with
      | none => exact origins_one (.inr ⟨[], _, _, _, .refl _, .range hprop hv hp he' hn' hx, rfl, rfl⟩)
      | some item => exact origins_call hprop (.index hv hp he' hn' hx)
  | dict vs =>
      refine origins_after (fun es hes => origins_flatMap (fun e he => origins_after (fun found hf => ?_)))
      have hp := toDict_eq.mp hes
      have he' : FirstOf (KeyMeans s schema Sat value) (· = e) es :=
        he.imp (fun y _ hy => (hgood.key y).mp ⟨depth, hy⟩) (fun _ _ hx => hx)
      cases found with
      | none => exact origins_one (.inr ⟨[], _, _, _, .refl _, .missing hprop hv hp he' ⟨depth, hf⟩, rfl, rfl⟩)
      | some item => exact origins_call hprop (.key hv hp he' ⟨depth, hf⟩)
  | _ => exact origins_plain

theorem origins_optItems (hprop : HasProp lib s schema Sat value props (bytes "opt-items") prop) :
    Origins lib s schema Sat (.dict value props) (optItemsTasks s schema depth value prop) := by
  have hgood := outcome_good lib Sat
  refine origins_after (fun d hd => ?_)
  have hv := loc_eq.mp hd
  cases d with
  | dict vs =>
      refine origins_after (fun es hes => origins_flatMap (fun e he => origins_after (fun found hf => ?_)))
      have he' : FirstOf (fun e => NotFound s value e.1 ∨ KeyMeans s schema Sat value e) (· = e) es :=
        he.imp (fun y _ hy => ((hgood.optKey y).mp ⟨depth, hy⟩).imp And.left id) (fun _ _ hx => hx)
      cases found with
      | none => exact origins_nil
      | some item => exact origins_call hprop (.optKey hv (toDict_eq.mp hes) he' ⟨depth, hf⟩)
  | _ => exact origins_plain

theorem origins_allKeys (hprop : HasProp lib s schema Sat value props (bytes "all-keys") prop) :
    Origins lib s schema Sat (.dict value props) (allKeysTasks s schema depth value prop) := by
  refine origins_after (fun d hd => ?_)
  have hv := loc_eq.mp hd
  cases d with
  | dict vs =>
      refine origins_flatMap (fun e he => origins_call hprop (.allKeys hv (he.imp (fun y _ hy => ?_) (fun _ _ hx => hx))))
      exact ((outcome_good lib Sat).call _ _).mp ⟨depth, hy⟩
  | _ => exact origins_plain

theorem origins_allItems (hprop : HasProp lib s schema Sat value props (bytes "all-items") prop) :
    Origins lib s schema Sat (.dict value props) (allItemsTasks s schema depth value prop) := by
  have hgood := outcome_good lib Sat
  have heach : ∀ xs, s.look value = some (.array xs) ∨ s.look value = some (.set xs) ∨ s.look value = some (.list xs) →
      Origins lib s schema Sat (.dict value props) (eachItemTasks s schema depth prop xs) := by
    intro xs hv
    refine origins_flatMap (fun x hx => origins_call hprop (.item hv (hx.imp (fun y _ hy => ?_) (fun _ _ hx => hx))))
    exact (hgood.call _ _).mp ⟨depth, hy⟩
  refine origins_after (fun d hd => ?_)
  have hv := loc_eq.mp hd
  cases d with
  | array xs => exact heach xs (.inl hv)
  | set xs => exact heach xs (.inr (.inl hv))
  | list xs => exact heach xs (.inr (.inr hv))
  | dict vs =>
      refine origins_flatMap (fun e he => origins_call hprop (.dictItem hv (he.imp (fun y _ hy => ?_) (fun _ _ hx => hx))))
      exact (hgood.call _ _).mp ⟨depth, hy⟩
  | _ => exact origins_plain

theorem origins_switch {propId : PropId} (hprop : HasProp lib s schema Sat value props (bytes propId.name) prop) :
    Origins lib s schema Sat (.dict value props) (switchTasks s schema depth value prop propId) := by
  cases propId with
  | type =>
      refine origins_after (fun d _ => ?_)
      cases d with
      | string t =>
          cases hl : cTypeMap.lookup t with
          | none =>
              simp only [hl]
              exact origins_plain
          | some type =>
              simp only [hl]
              exact origins_after (fun d _ => origins_check)
      | _ => exact origins_plain
  | equal | notEqual | lesser | greater | lesserEqual | greaterEqual => exact origins_after (fun r _ => origins_check)
  | sizeEqual | sizeNotEqual | sizeLesser | sizeGreater | sizeLesserEqual | sizeGreaterEqual =>
      refine origins_after (fun d _ => ?_)
      cases sizeOf? d with
      | none => exact origins_plain
      | some size => exact origins_after (fun n _ => origins_check)
  | regex =>
      refine origins_after (fun d _ => ?_)
      cases d with
      | string text => exact origins_after (fun key _ => origins_one trivial)
      | _ => exact origins_plain
  | items => exact origins_items hprop
  | optItems => exact origins_optItems hprop
  | allKeys => exact origins_allKeys hprop
  | allItems => exact origins_allItems hprop

theorem origins_pair (depth : Nat) : Origins lib s schema Sat (.dict value props) (pairTasks s schema depth value props) := by
  refine origins_after (fun es hes => origins_flatMap (fun e he => origins_after (fun name hname => ?_)))
  have he' : FirstOf (EntryHolds lib s schema Sat value) (· = e) es :=
    he.imp (fun y _ hy => (good_tasks y).mp ⟨depth, hy⟩) (fun _ _ hx => hx)
  have hprop : HasProp lib s schema Sat value props name e.2 := ⟨es, e, toDict_eq.mp hes, he', toStr_eq.mp hname, rfl⟩
  cases hl : cPropMap.lookup name with
  | some propId => exact origins_switch (name_of_lookup hl ▸ hprop)
  | none =>
      show Origins lib s schema Sat (.dict value props) (if isRef name then _ else _)
      by_cases hr : isRef name = true
      · rw [if_pos hr]
        exact origins_reference (.single (.refProp hprop hl hr))
      · rw [if_neg hr]
        exact origins_one (.inr ⟨[], _, _, _, .refl _, .property hprop hl (Bool.not_eq_true _ ▸ hr), rfl, rfl⟩)

/-- **The pushes of a report are the path in reverse.** -/
theorem report_path : ∀ {fuel : Nat} {value props : Addr} {r : Report},
    report lib s schema fuel value props = some (.error r) →
    ∃ path t values propsAdded, Path lib s schema (Satisfies lib s schema) (.dict value props) path t
      ∧ Raised lib s schema (Satisfies lib s schema) t r.error values propsAdded
      ∧ r.values = (path.flatMap Step.values ++ values).reverse ∧ r.props = (path.flatMap Step.props ++ propsAdded).reverse
  | 0, _, _, _, h => by simp [report] at h
  | fuel + 1, value, props, r, h => by
      have hplain : r.values = [] → r.props = [] → ∃ path t values propsAdded,
          Path lib s schema (Satisfies lib s schema) (.dict value props) path t
          ∧ Raised lib s schema (Satisfies lib s schema) t r.error values propsAdded
          ∧ r.values = (path.flatMap Step.values ++ values).reverse
          ∧ r.props = (path.flatMap Step.props ++ propsAdded).reverse :=
        fun hv hp => ⟨[], _, [], [], .refl _, .plain h hv hp, hv, hp⟩
      -- the tasks before the one that fails come out well
      obtain ⟨before, t, after, hts, hbefore, hr⟩ := runTasks_error.mp h
      have horigin : Origin lib s schema (Satisfies lib s schema) (.dict value props) t := by
        refine origins_pair fuel t ⟨before, t, after, hts, fun u hu => ?_, rfl⟩
        exact (taskSat_of_runTask (hbefore u hu)).imp (fun _ _ => satisfies_of_report)
      cases t with
      | hang => simp [runTask] at hr
      | fail e values props' =>
          obtain rfl := Except.error.inj (Option.some.inj hr)
          rcases horigin with ⟨hv, hp⟩ | ⟨path, t', values', props'', hpath, hraised, hv, hp⟩
          · exact hplain hv hp
          · exact ⟨path, t', values', props'', hpath, hraised, hv, hp⟩
      | regex key text =>
          simp only [runTask] at hr
          split at hr
          · obtain rfl := Except.error.inj (Option.some.inj hr)
            exact hplain rfl rfl
          · split at hr
            · simp at hr
            · obtain rfl := Except.error.inj (Option.some.inj hr)
              exact hplain rfl rfl
      | pair value' props' values pushed =>
          -- the call: its path is the path to it and, by induction, the path from there
          obtain ⟨path, hpath, hv, hp⟩ := horigin
          simp only [runTask] at hr
          split at hr
          · rename_i r' hr'
            obtain rfl := Except.error.inj (Option.some.inj hr)
            obtain ⟨path', t', values', added, hpath', hraised, hv', hp'⟩ := report_path hr'
            refine ⟨path ++ path', t', values', added, hpath.append hpath', hraised, ?_, ?_⟩
            · simp [Report.push, hv', hv]
            · simp [Report.push, hp', hp]
          · rename_i hne
            exact absurd hr (hne r)

end Lemmas

/-! ## `validate` -/

section Validate

variable [LT F] [DecidableLT F] {lib : RegexLib R} {order : OperandOrder}

/-- What the stacks tell after a call that came out as `r`: nothing after a normal return; after a throw the selectors
    and the properties of a path from the `"root"` entry to where the error arose, and what the error adds to them.
    Without a `"root"` entry there is no path. -/
def StacksTell (lib : RegexLib R) (s : Store F) (schema value : Addr) (r : Except Fault Unit)
    (valueStack propsStack : List Elem) : Prop :=
  (r = .ok () → valueStack = [] ∧ propsStack = [])
    ∧ ∀ e, r = .error (.exception e) →
      (¬ HasEntry s schema (bytes "root") ∧ valueStack = [] ∧ propsStack = [.string (bytes "root")])
      ∨ ∃ root path t last added, RootEntry s schema root
        ∧ Path lib s schema (Satisfies lib s schema) (.dict value root) path t
        ∧ Raised lib s schema (Satisfies lib s schema) t e last added
        ∧ valueStack = path.flatMap Step.values ++ last
        ∧ propsStack = .string (bytes "root") :: (path.flatMap Step.props ++ added)

theorem stacksTell_of_validate {s : Store F} {schema value : Addr} {values : List Addr} {σ σ' : ValidatorC F R} {fuel : Nat}
    {r : Except Fault Unit} (hσ : Called lib order (ValidatorC.mk' s schema) values σ)
    (h : validate lib order fuel value σ = some (r, σ')) :
    StacksTell lib σ.store σ.schema value r σ'.valueStack σ'.propsStack := by
  have hcoherent := hσ.coherent (coherent_new s schema)
  have hfin : Finishes lib order fuel σ _ (validate lib order fuel value σ) := validate_finishes fuel hcoherent value
  rw [h] at hfin
  generalize hreport : rootReport lib σ.store σ.schema fuel value = result at hfin
  cases hfin with
  | returns _ hv hp => exact ⟨fun _ => ⟨hv, hp⟩, by simp⟩
  | null => exact ⟨by simp, by simp⟩
  | @throws r _ _ _ hv hp =>
      refine ⟨by simp, ?_⟩
      rintro e he
      obtain rfl := Fault.exception.inj (Except.error.inj he)
      have hnoroot : ∀ x : Except Error Access.Slot, Access.find σ.store fuel σ.schema (bytes "root") = some x →
          (∀ b, x ≠ .ok (.value b)) → ¬ HasEntry σ.store σ.schema (bytes "root") := by
        rintro x hx hne hentry
        obtain ⟨b, hb⟩ := hentry.find
        exact hne b (Option.some.inj (hx.symm.trans (hb fuel)))
      unfold rootReport at hreport
      rcases hf : Access.find σ.store fuel σ.schema (bytes "root") with _ | e | root | ⟨es, i⟩
      · rw [hf] at hreport
        simp at hreport
      · rw [hf] at hreport
        obtain rfl := Except.error.inj (Option.some.inj hreport)
        exact .inl ⟨hnoroot _ hf (by simp), hv, hp⟩
      · rw [hf] at hreport
        obtain ⟨path, t, last, added, hpath, hraised, hv', hp'⟩ := report_path hreport
        refine .inr ⟨root, path, t, last, added, ⟨fuel, hf⟩, hpath, hraised, ?_, ?_⟩
        · rw [hv, hv', List.reverse_reverse]
        · rw [hp, hp', List.reverse_reverse]
      · rw [hf] at hreport
        obtain rfl := Except.error.inj (report_missing hf hreport)
        exact .inl ⟨hnoroot _ hf (by simp), hv, hp⟩

/-- **The error path**, for any call on any validator, where the dicts of schema and value are such that a search finds
    the same in every tree. -/
theorem validate_path {s : Store F} {schema value : Addr} {values : List Addr} {σ σ' : ValidatorC F R} {fuel : Nat}
    {r : Except Fault Unit} (hσ : Called lib order (ValidatorC.mk' s schema) values σ)
    (hsearch : Searchable σ.store σ.schema value) (h : validate lib order fuel value σ = some (r, σ')) :
    StacksTell lib σ.store σ.schema value r σ'.valueStack σ'.propsStack ∧ FoundInTrees σ.store σ.schema value :=
  ⟨stacksTell_of_validate hσ h, found_in_trees hsearch⟩

/-- The theorem for the schema `{"root": {"all-items": {"type": "bool"}}}` and the value `[true, 7, 8]`: the path is
    `[1]` and `["root", "all-items", 1]`. -/
theorem validate_path_item :
    let s : Store Nat := ⟨[.dict [(1, 2)], .string (bytes "root"), .dict [(3, 4)], .string (bytes "all-items"),
      .dict [(5, 6)], .string (bytes "type"), .string (bytes "bool"), .array [8, 9, 10], .bool true, .integer 7,
      .integer 8], [some 0, some 7]⟩
    ∃ σ', validate rejectAll .newFirst 3 7 (ValidatorC.mk' s 0)
        = some (.error (.exception .invalidType), σ')
      ∧ σ'.valueStack = [.position 1] ∧ σ'.propsStack = [.string (bytes "root"), .string (bytes "all-items"), .position 1]
      ∧ StacksTell rejectAll s 0 7 (.error (.exception .invalidType)) σ'.valueStack σ'.propsStack := by
  intro s
  refine ⟨_, rfl, by decide, by decide, ?_⟩
  have h : validate rejectAll .newFirst 3 7 (ValidatorC.mk' s 0) = some (.error (.exception .invalidType), _) := rfl
  have hacyclic : ∀ a, s.Acyclic a := Store.acyclic_of_ascending (by decide)
  have horder : s.InOrder := inOrder_of_forall (.of_forall (by decide) (by decide)) 1 (by decide)
  have hsearch : Searchable s 0 7 :=
    searchable_of_inOrder horder (.root (x := 0) rfl) (.root (x := 1) rfl) (hacyclic 0) (hacyclic 7)
  exact (validate_path (.none _) hsearch h).1

/-- Two errors add more than a step that was taken: a property of no known name, as in `{"root": {"bogus": 7}}`, is
    the last element of `props_stack`, and so is the reference of `{"root": {"ref": "bogus"}}`, which leads nowhere. -/
theorem path_without_steps :
    let unknown : Store Nat := ⟨[.dict [(1, 2)], .string (bytes "root"), .dict [(3, 4)], .string (bytes "bogus"),
      .integer 7, .blank], []⟩
    let dangling : Store Nat := ⟨[.dict [(1, 2)], .string (bytes "root"), .dict [(3, 4)], .string (bytes "ref"),
      .string (bytes "bogus"), .blank], []⟩
    (∃ σ', validate rejectAll .newFirst 2 5 (ValidatorC.mk' unknown 0)
        = some (.error (.exception .invalidSchemaProperty), σ')
      ∧ σ'.valueStack = [] ∧ σ'.propsStack = [.string (bytes "root"), .string (bytes "bogus")])
    ∧ ∃ σ', validate rejectAll .newFirst 2 5 (ValidatorC.mk' dangling 0)
        = some (.error (.exception .invalidSchemaReference), σ')
      ∧ σ'.valueStack = [] ∧ σ'.propsStack = [.string (bytes "root"), .string (bytes "ref"), .var 4] :=
  ⟨⟨_, rfl, by decide, by decide⟩, _, rfl, by decide, by decide⟩

end Validate

end Cclvarval
end Cclib
