import Cclib.Cclvarval.Validator

/-!
# `Cclvarval.Tasks` — what a property asks for

`tasks` unfolds one property on one value into a list of `Task`s: a check that failed, a match with a regular
expression, a nested `validate_pair`. This is the only place besides the code itself where the properties are
looked at one by one; `performs_property` says that the code performs the tasks one after the other.
-/

namespace Cclib
namespace Cclvarval

open Cclvar Compare Run

variable {F R : Type}

/-! ## Tasks -/

/-- One of the things a property asks for. -/
inductive Task where
  /-- push and throw -/
  | fail (e : Error) (values props : List Elem)
  /-- match a text with the regular expression for `key` -/
  | regex (key text : StringT)
  /-- validate a value; when that throws, push -/
  | pair (value props : Addr) (values propsPushed : List Elem)
  /-- a comparison that does not come to an end -/
  | hang
deriving DecidableEq

/-- The tasks after an access. -/
def after {α : Type} (r : Access α) (f : α → List Task) : List Task :=
  match r with
  | none => [.hang]
  | some (.ok a) => f a
  | some (.error e) => [.fail e [] []]

section Tasks

variable [LT F] [DecidableLT F] (s : Store F) (schema : Addr) (depth : Nat) (value prop : Addr)

/-- `VALIDATE_PAIR_REFERENCE`. -/
def referenceTasks (values props : List Elem) : List Task :=
  after (Access.loc s prop) (fun
    | .string _ => after (Access.hasKey s depth schema prop) (fun
        | some ref => [.pair value ref values (.var prop :: .string (bytes "ref") :: props)]
        | none => [.fail .invalidSchemaReference values (.var prop :: .string (bytes "ref") :: props)])
    | _ => [.fail .invalidSchemaReference values (.var prop :: .string (bytes "ref") :: props)])

/-- `VALIDATE_PAIR_CALL` with the pushes of the container properties. -/
def callTasks (selector : Elem) (name : String) : List Task :=
  after (Access.loc s prop) (fun
    | .string _ => referenceTasks s schema depth value prop [selector] [selector, .string (bytes name)]
    | _ => [.pair value prop [selector] [selector, .string (bytes name)]])

/-- `prop_type`. -/
def typeTasks : List Task :=
  after (Access.loc s prop) (fun
    | .string t => match cTypeMap.lookup t with
      | some type => after (Access.loc s value) (fun d => if d.type ≠ type then [.fail .invalidType [] []] else [])
      | none => [.fail .invalidSchemaType [] []]
    | _ => [.fail .invalidSchemaType [] []])

/-- The comparisons. -/
def compareTasks (bad : Int → Bool) : List Task :=
  after (Access.compare s depth value prop) (fun r => if bad r then [.fail .invalidValue [] []] else [])

/-- The size relations. -/
def sizeTasks (bad : Int → Int → Bool) : List Task :=
  after (Access.loc s value) (fun d =>
    match sizeOf? d with
    | some size => after (Access.toInt s prop) (fun n => if bad size n.toInt then [.fail .valueInvalidSize [] []] else [])
    | none => [.fail .invalidType [] []])

/-- `prop_regex`. -/
def regexTasks : List Task :=
  after (Access.loc s value) (fun
    | .string text => after (Access.toStr s prop) (fun key => [.regex key text])
    | _ => [.fail .invalidType [] []])

/-- `prop_items` on an array, for one index. -/
def indexTasks (xs : List Addr) (index_i : Addr × Addr) : List Task :=
  after (Access.toInt s index_i.1) (fun index =>
    match arrayAt xs index with
    | none => [.fail .arrayInvalidSize [.var index_i.1] [.var index_i.1, .string (bytes "items")]]
    | some item => callTasks s schema depth item index_i.2 (.var index_i.1) "items")

/-- `prop_items` on a dict, for one key. -/
def keyTasks (key_i : Addr × Addr) : List Task :=
  after (Access.hasKey s depth value key_i.1) (fun
    | none => [.fail .dictMissingKey [.var key_i.1] [.var key_i.1, .string (bytes "items")]]
    | some keyValue => callTasks s schema depth keyValue key_i.2 (.var key_i.1) "items")

/-- `prop_items`. -/
def itemsTasks : List Task :=
  after (Access.loc s value) (fun
    | .array xs => after (Access.toDict s prop) (fun es => es.flatMap (indexTasks s schema depth xs))
    | .dict _ => after (Access.toDict s prop) (fun es => es.flatMap (keyTasks s schema depth value))
    | _ => [.fail .invalidType [] []])

/-- `prop_opt_items`, for one key. -/
def optKeyTasks (key_i : Addr × Addr) : List Task :=
  after (Access.hasKey s depth value key_i.1) (fun
    | none => []
    | some keyValue => callTasks s schema depth keyValue key_i.2 (.var key_i.1) "opt-items")

/-- `prop_opt_items`. -/
def optItemsTasks : List Task :=
  after (Access.loc s value) (fun
    | .dict _ => after (Access.toDict s prop) (fun es => es.flatMap (optKeyTasks s schema depth value))
    | _ => [.fail .invalidType [] []])

/-- `prop_all_keys`. -/
def allKeysTasks : List Task :=
  after (Access.loc s value) (fun
    | .dict es => es.flatMap (fun e => callTasks s schema depth e.1 prop (.var e.1) "all-keys")
    | _ => [.fail .invalidType [] []])

/-- `prop_all_items` on an array, a set or a list. -/
def eachItemTasks (xs : List Addr) : List Task :=
  xs.zipIdx.flatMap (fun x => callTasks s schema depth x.1 prop (.position x.2) "all-items")

/-- `prop_all_items`. -/
def allItemsTasks : List Task :=
  after (Access.loc s value) (fun
    | .array xs => eachItemTasks s schema depth prop xs
    | .set xs => eachItemTasks s schema depth prop xs
    | .list xs => eachItemTasks s schema depth prop xs
    | .dict es => es.flatMap (fun e => callTasks s schema depth e.2 prop (.var e.1) "all-items")
    | _ => [.fail .invalidType [] []])

/-- The `switch`. -/
def switchTasks : PropId → List Task
  | .type => typeTasks s value prop
  | .equal => compareTasks s depth value prop (fun r => r ≠ 0)
  | .notEqual => compareTasks s depth value prop (fun r => r = 0)
  | .lesser => compareTasks s depth value prop (fun r => r ≥ 0)
  | .greater => compareTasks s depth value prop (fun r => r ≤ 0)
  | .lesserEqual => compareTasks s depth value prop (fun r => r > 0)
  | .greaterEqual => compareTasks s depth value prop (fun r => r < 0)
  | .sizeEqual => sizeTasks s value prop (fun v p => v ≠ p)
  | .sizeNotEqual => sizeTasks s value prop (fun v p => v = p)
  | .sizeLesser => sizeTasks s value prop (fun v p => v ≥ p)
  | .sizeGreater => sizeTasks s value prop (fun v p => v ≤ p)
  | .sizeLesserEqual => sizeTasks s value prop (fun v p => v > p)
  | .sizeGreaterEqual => sizeTasks s value prop (fun v p => v < p)
  | .regex => regexTasks s value prop
  | .items => itemsTasks s schema depth value prop
  | .optItems => optItemsTasks s schema depth value prop
  | .allKeys => allKeysTasks s schema depth value prop
  | .allItems => allItemsTasks s schema depth value prop

/-- One property. -/
def tasks (prop_i : Addr × Addr) : List Task :=
  after (Access.toStr s prop_i.1) (fun name =>
    match cPropMap.lookup name with
    | some propId => switchTasks s schema depth value prop_i.2 propId
    | none =>
      if isRef name then referenceTasks s schema depth value prop_i.2 [] []
      else [.fail .invalidSchemaProperty [] [.string name]])

/-- `validate_pair`. -/
def pairTasks (props : Addr) : List Task :=
  after (Access.toDict s props) (fun es => es.flatMap (tasks s schema depth value))

end Tasks

/-! ## Names of the properties -/

/-- The name that `c_prop_map` has for a property. -/
def PropId.name : PropId → String
  | .type => "type"
  | .equal => "=="
  | .notEqual => "!="
  | .lesser => "<"
  | .greater => ">"
  | .lesserEqual => "<="
  | .greaterEqual => ">="
  | .sizeEqual => "size =="
  | .sizeNotEqual => "size !="
  | .sizeLesser => "size <"
  | .sizeGreater => "size >"
  | .sizeLesserEqual => "size <="
  | .sizeGreaterEqual => "size >="
  | .regex => "regex"
  | .items => "items"
  | .optItems => "opt-items"
  | .allKeys => "all-keys"
  | .allItems => "all-items"

/-- The table has every property under its name. -/
theorem lookup_name (propId : PropId) : cPropMap.lookup (bytes propId.name) = some propId := by
  cases propId <;> decide +kernel

theorem name_of_lookup {name : StringT} {propId : PropId} (h : cPropMap.lookup name = some propId) :
    name = bytes propId.name := by
  have htable : ∀ p ∈ cPropMap, p.1 = bytes p.2.name := by decide +kernel
  obtain ⟨before, after, hmap, -⟩ := List.lookup_eq_some_iff.mp h
  exact htable (name, propId) (by rw [hmap]; simp)

/-! ## Answers of the accesses -/

section Answers

variable {s : Store F} {a : Addr}

theorem loc_eq {d : Data F Addr} : Access.loc s a = some (.ok d) ↔ s.look a = some d := by
  unfold Access.loc
  cases s.look a <;> simp

theorem toStr_eq {t : StringT} : Access.toStr s a = some (.ok t) ↔ s.look a = some (.string t) := by
  unfold Access.toStr
  rcases s.look a with _ | d
  · simp
  · cases d <;> simp

theorem toInt_eq {n : Int64} : Access.toInt s a = some (.ok n) ↔ s.look a = some (.integer n) := by
  unfold Access.toInt
  rcases s.look a with _ | d
  · simp
  · cases d <;> simp

theorem toDict_eq {es : List (Addr × Addr)} : Access.toDict s a = some (.ok es) ↔ s.look a = some (.dict es) := by
  unfold Access.toDict
  rcases s.look a with _ | d
  · simp
  · cases d <;> simp

end Answers

/-! ## More depth for the comparisons -/

/-- The same tasks, up to one that did not come to an end. -/
inductive TasksLe : List Task → List Task → Prop where
  | nil : TasksLe [] []
  | cons (t : Task) {ts us : List Task} : TasksLe ts us → TasksLe (t :: ts) (t :: us)
  | hang (ts us : List Task) : TasksLe (.hang :: ts) us

theorem TasksLe.refl : ∀ ts, TasksLe ts ts
  | [] => .nil
  | t :: ts => .cons t (TasksLe.refl ts)

theorem TasksLe.append {ts ts' us us' : List Task} (h : TasksLe ts ts') (h' : TasksLe us us') :
    TasksLe (ts ++ us) (ts' ++ us') := by
  induction h with
  | nil => exact h'
  | cons t _ ih => exact .cons t ih
  | hang _ _ => exact .hang _ _

theorem TasksLe.flatMap {β : Type} {f g : β → List Task} (h : ∀ x, TasksLe (f x) (g x)) :
    ∀ xs : List β, TasksLe (xs.flatMap f) (xs.flatMap g)
  | [] => .nil
  | x :: xs => (h x).append (TasksLe.flatMap h xs)

/-- Tasks without a comparison that hangs stay the same. -/
theorem TasksLe.split {ts us : List Task} (h : TasksLe ts us) {before after : List Task} {t : Task}
    (hts : ts = before ++ t :: after) (hb : ∀ u ∈ before, u ≠ .hang) (ht : t ≠ .hang) :
    ∃ after', us = before ++ t :: after' := by
  induction h generalizing before with
  | nil => simp at hts
  | cons u h ih =>
      rcases List.cons_eq_append_iff.mp hts with ⟨rfl, hts'⟩ | ⟨before, rfl, hts'⟩
      · obtain ⟨rfl, -⟩ := List.cons.inj hts'
        exact ⟨_, rfl⟩
      · obtain ⟨after', rfl⟩ := ih hts' (fun v hv => hb v (List.mem_cons_of_mem _ hv))
        exact ⟨after', rfl⟩
  | hang ts us =>
      rcases List.cons_eq_append_iff.mp hts with ⟨rfl, hts'⟩ | ⟨before, rfl, -⟩
      · exact absurd (List.cons.inj hts').1 ht
      · exact absurd rfl (hb _ List.mem_cons_self)

theorem TasksLe.eq {ts us : List Task} (h : TasksLe ts us) (hts : ∀ t ∈ ts, t ≠ .hang) : us = ts := by
  induction h with
  | nil => rfl
  | cons t _ ih => rw [ih (fun u hu => hts u (List.mem_cons_of_mem t hu))]
  | hang _ _ => exact absurd rfl (hts _ List.mem_cons_self)

theorem after_le {α : Type} {r r' : Access α} {f g : α → List Task} (hr : ∀ a, r = some a → r' = some a)
    (h : ∀ a, TasksLe (f a) (g a)) : TasksLe (after r f) (after r' g) := by
  cases r with
  | none => exact .hang _ _
  | some a =>
      rw [hr a rfl]
      cases a with
      | ok a => exact h a
      | error e => exact .refl _

section More

variable [LT F] [DecidableLT F] {s : Store F} {schema : Addr} {depth depth' : Nat}

theorem hasKey_mono (h : depth ≤ depth') {a key : Addr} {r : Except Error (Option Addr)}
    (hr : Access.hasKey s depth a key = some r) : Access.hasKey s depth' a key = some r := by
  obtain ⟨d, hd, hr⟩ := Option.bind_eq_some_iff.mp hr
  refine Option.bind_eq_some_iff.mpr ⟨d, hd, ?_⟩
  cases d with
  | dict es =>
      obtain ⟨res, hres, rfl⟩ := Option.map_eq_some_iff.mp hr
      exact Option.map_eq_some_iff.mpr ⟨res, search_mono (compareAt_mono s.look h) hres, rfl⟩
  | _ => exact hr

theorem compare_mono (h : depth ≤ depth') {a b : Addr} {r : Except Error Int}
    (hr : Access.compare s depth a b = some r) : Access.compare s depth' a b = some r := by
  obtain ⟨x, hx, rfl⟩ := Option.map_eq_some_iff.mp hr
  exact Option.map_eq_some_iff.mpr ⟨x, compareAt_mono s.look h a b x hx, rfl⟩

theorem referenceTasks_le (h : depth ≤ depth') (value prop : Addr) (values props : List Elem) :
    TasksLe (referenceTasks s schema depth value prop values props)
      (referenceTasks s schema depth' value prop values props) := by
  refine after_le (fun _ h => h) (fun d => ?_)
  cases d with
  | string t => exact after_le (fun _ hr => hasKey_mono h hr) (fun ref => .refl _)
  | _ => exact .refl _

theorem callTasks_le (h : depth ≤ depth') (value prop : Addr) (selector : Elem) (name : String) :
    TasksLe (callTasks s schema depth value prop selector name) (callTasks s schema depth' value prop selector name) := by
  refine after_le (fun _ h => h) (fun d => ?_)
  cases d with
  | string t => exact referenceTasks_le h _ _ _ _
  | _ => exact .refl _

theorem indexTasks_le (h : depth ≤ depth') (xs : List Addr) (e : Addr × Addr) :
    TasksLe (indexTasks s schema depth xs e) (indexTasks s schema depth' xs e) := by
  refine after_le (fun _ h => h) (fun index => ?_)
  cases arrayAt xs index with
  | none => exact .refl _
  | some item => exact callTasks_le h _ _ _ _

theorem keyTasks_le (h : depth ≤ depth') (value : Addr) (e : Addr × Addr) :
    TasksLe (keyTasks s schema depth value e) (keyTasks s schema depth' value e) := by
  refine after_le (fun _ hr => hasKey_mono h hr) (fun found => ?_)
  cases found with
  | none => exact .refl _
  | some keyValue => exact callTasks_le h _ _ _ _

theorem optKeyTasks_le (h : depth ≤ depth') (value : Addr) (e : Addr × Addr) :
    TasksLe (optKeyTasks s schema depth value e) (optKeyTasks s schema depth' value e) := by
  refine after_le (fun _ hr => hasKey_mono h hr) (fun found => ?_)
  cases found with
  | none => exact .refl _
  | some keyValue => exact callTasks_le h _ _ _ _

theorem switchTasks_le (h : depth ≤ depth') (value prop : Addr) (propId : PropId) :
    TasksLe (switchTasks s schema depth value prop propId) (switchTasks s schema depth' value prop propId) := by
  cases propId with
  | equal | notEqual | lesser | greater | lesserEqual | greaterEqual =>
      exact after_le (fun _ hr => compare_mono h hr) (fun r => .refl _)
  | items =>
      refine after_le (fun _ h => h) (fun d => ?_)
      cases d with
      | array xs => exact after_le (fun _ h => h) (fun es => .flatMap (indexTasks_le h xs) es)
      | dict _ => exact after_le (fun _ h => h) (fun es => .flatMap (keyTasks_le h value) es)
      | _ => exact .refl _
  | optItems =>
      refine after_le (fun _ h => h) (fun d => ?_)
      cases d with
      | dict _ => exact after_le (fun _ h => h) (fun es => .flatMap (optKeyTasks_le h value) es)
      | _ => exact .refl _
  | allKeys =>
      refine after_le (fun _ h => h) (fun d => ?_)
      cases d with
      | dict es => exact .flatMap (fun e => callTasks_le h _ _ _ _) es
      | _ => exact .refl _
  | allItems =>
      refine after_le (fun _ h => h) (fun d => ?_)
      cases d with
      | array xs | set xs | list xs => exact .flatMap (fun x => callTasks_le h _ _ _ _) xs.zipIdx
      | dict es => exact .flatMap (fun e => callTasks_le h _ _ _ _) es
      | _ => exact .refl _
  | _ => exact .refl _

theorem tasks_le (h : depth ≤ depth') (value : Addr) (e : Addr × Addr) :
    TasksLe (tasks s schema depth value e) (tasks s schema depth' value e) := by
  refine after_le (fun _ h => h) (fun name => ?_)
  cases cPropMap.lookup name with
  | some propId => exact switchTasks_le h value e.2 propId
  | none =>
      show TasksLe (if isRef name then _ else _) (if isRef name then _ else _)
      split
      · exact referenceTasks_le h value e.2 [] []
      · exact .refl _

/-- A larger depth only ends more comparisons. -/
theorem pairTasks_le (h : depth ≤ depth') (value props : Addr) :
    TasksLe (pairTasks s schema depth value props) (pairTasks s schema depth' value props) :=
  after_le (fun _ h => h) (fun es => .flatMap (tasks_le h value) es)

end More

/-! ## The code performs the tasks -/

/-- Push on both stacks. -/
def pushes (values props : List Elem) : Run F R Unit := fun σ =>
  some (.ok (), { σ with valueStack := σ.valueStack ++ values, propsStack := σ.propsStack ++ props })

def perform (lib : RegexLib R) (order : OperandOrder) (pair : Addr → Addr → Run F R Unit) : Task → Run F R Unit
  | .fail e values props => do
    pushes values props
    cclthrow e
  | .regex key text => do
    let ptr ← regexPtr lib order key
    if !(← matchRegex lib ptr text) then
      cclthrow .invalidValue
  | .pair value props values propsPushed => onThrow (pair value props) (pushes values propsPushed)
  | .hang => hang

/-! ### Equations -/

theorem bind_eq {α β : Type} (m : Run F R α) (f : α → Run F R β) (σ : ValidatorC F R) :
    (m >>= f) σ = match m σ with
      | none => none
      | some (.ok a, σ') => f a σ'
      | some (.error e, σ') => some (.error e, σ') := rfl

theorem access_error {α : Type} {get : Store F → Access α} {e : Error} {σ : ValidatorC F R}
    (h : get σ.store = some (.error e)) : access get σ = some (.error (.exception e), σ) := by
  unfold access
  rw [h]

theorem bind_pure_unit (m : Run F R Unit) : (m >>= fun _ => pure ()) = m := by
  funext σ
  rw [bind_eq]
  split
  · rename_i h
    exact h.symm
  · rename_i h
    exact h.symm
  · rename_i h
    exact h.symm

theorem forEach_singleton {β : Type} (x : β) (f : β → Run F R Unit) : forEach [x] f = f x := bind_pure_unit (f x)

/-! ### Code that keeps the cells -/

/-- The cells stay as they are, and the schema is the same one. -/
def Keeps {α : Type} (m : Run F R α) : Prop :=
  ∀ σ r σ', m σ = some (r, σ') → σ'.store = σ.store ∧ σ'.schema = σ.schema

theorem keeps_of_same {α : Type} {m : Run F R α} (h : ∀ σ r σ', m σ = some (r, σ') → σ' = σ) : Keeps m := by
  intro σ r σ' hr
  rw [h σ r σ' hr]
  exact ⟨rfl, rfl⟩

theorem keeps_pure {α : Type} (a : α) : Keeps (pure a : Run F R α) := by
  apply keeps_of_same
  intro σ r σ' h
  exact (Prod.mk.inj (Option.some.inj h)).2.symm

theorem keeps_throw {α : Type} (e : Error) : Keeps (cclthrow e : Run F R α) := by
  apply keeps_of_same
  intro σ r σ' h
  exact (Prod.mk.inj (Option.some.inj h)).2.symm

theorem keeps_pushes (values props : List Elem) : Keeps (pushes values props : Run F R Unit) := by
  intro σ r σ' h
  rw [← (Prod.mk.inj (Option.some.inj h)).2]
  exact ⟨rfl, rfl⟩

theorem Keeps.bind {α β : Type} {m : Run F R α} {f : α → Run F R β} (hm : Keeps m) (hf : ∀ a, Keeps (f a)) :
    Keeps (m >>= f) := by
  intro σ r σ' h
  rw [bind_eq] at h
  split at h
  · simp at h
  · rename_i a σ₁ h₁
    obtain ⟨hs, hc⟩ := hm σ _ σ₁ h₁
    obtain ⟨hs', hc'⟩ := hf a σ₁ r σ' h
    exact ⟨hs'.trans hs, hc'.trans hc⟩
  · rename_i e σ₁ h₁
    obtain rfl := (Prod.mk.inj (Option.some.inj h)).2
    exact hm σ _ σ₁ h₁

theorem Keeps.onThrow {α : Type} {m : Run F R α} {handler : Run F R Unit} (hm : Keeps m) (hh : Keeps handler) :
    Keeps (onThrow m handler) := by
  intro σ r σ' h
  unfold Run.onThrow at h
  split at h
  · rename_i e σ₁ h₁
    obtain ⟨hs, hc⟩ := hm σ _ σ₁ h₁
    obtain ⟨hs', hc'⟩ := hh.bind (fun _ => keeps_throw e) σ₁ r σ' h
    exact ⟨hs'.trans hs, hc'.trans hc⟩
  · exact hm σ r σ' h

theorem Keeps.forEach {β : Type} {f : β → Run F R Unit} (hf : ∀ x, Keeps (f x)) : ∀ xs, Keeps (forEach xs f)
  | [] => keeps_pure ()
  | x :: xs => (hf x).bind (fun _ => Keeps.forEach hf xs)

theorem keeps_regexPtr (lib : RegexLib R) (order : OperandOrder) (key : StringT) :
    Keeps (regexPtr (F := F) lib order key) := by
  have hcache : ∀ ptr, Keeps (cacheRegex (F := F) key ptr : Run F R Unit) := by
    intro ptr σ r σ' h
    rw [← (Prod.mk.inj (Option.some.inj h)).2]
    exact ⟨rfl, rfl⟩
  have hnew : Keeps (newRegex (F := F) lib key) := by
    apply keeps_of_same
    intro σ r σ' h
    unfold newRegex at h
    split at h <;> exact (Prod.mk.inj (Option.some.inj h)).2.symm
  intro σ r σ' h
  unfold regexPtr at h
  split at h
  · rw [← (Prod.mk.inj (Option.some.inj h)).2]
    exact ⟨rfl, rfl⟩
  · split at h
    · exact (hcache none).bind (fun _ => hnew.bind (fun r => (hcache (some r)).bind (fun _ => keeps_pure _))) σ _ σ' h
    · exact hnew.bind (fun r => (hcache (some r)).bind (fun _ => keeps_pure _)) σ _ σ' h

variable {lib : RegexLib R} {order : OperandOrder} {pair : Addr → Addr → Run F R Unit}

theorem keeps_matchRegex (ptr : Option R) (s : StringT) : Keeps (matchRegex (F := F) lib ptr s) := by
  apply keeps_of_same
  intro σ r σ' h
  unfold matchRegex at h
  split at h <;> exact (Prod.mk.inj (Option.some.inj h)).2.symm

theorem keeps_perform (hpair : ∀ v p, Keeps (pair v p)) (t : Task) : Keeps (perform lib order pair t) := by
  cases t with
  | fail e values props => exact (keeps_pushes values props).bind (fun _ => keeps_throw e)
  | regex key text =>
      refine (keeps_regexPtr lib order key).bind (fun ptr => (keeps_matchRegex ptr text).bind (fun b => ?_))
      cases b
      · exact keeps_throw _
      · exact keeps_pure ()
  | pair value props values propsPushed => exact (hpair value props).onThrow (keeps_pushes values propsPushed)
  | hang =>
      intro σ r σ' h
      simp [perform, hang] at h

/-! ### Property by property -/

/-- On these cells, with this schema, the code performs the tasks. -/
def Performs (lib : RegexLib R) (order : OperandOrder) (pair : Addr → Addr → Run F R Unit) (s : Store F) (schema : Addr)
    (m : Run F R Unit) (ts : List Task) : Prop :=
  ∀ σ, σ.store = s → σ.schema = schema → m σ = forEach ts (perform lib order pair) σ

variable {s : Store F} {schema : Addr}

theorem performs_nil : Performs lib order pair s schema (pure ()) [] := fun _ _ _ => rfl

theorem performs_fail {e : Error} {values props : List Elem} {m : Run F R Unit}
    (h : m = (do pushes values props; cclthrow e)) : Performs lib order pair s schema m [.fail e values props] := by
  intro σ _ _
  rw [forEach_singleton, h]
  rfl

theorem performs_throw {e : Error} : Performs lib order pair s schema (cclthrow e) [.fail e [] []] := by
  intro σ _ _
  rw [forEach_singleton]
  simp [perform, bind_eq, pushes, cclthrow]

theorem performs_pair {value props : Addr} {values propsPushed : List Elem} {handler : Run F R Unit}
    (h : handler = pushes values propsPushed) :
    Performs lib order pair s schema (onThrow (pair value props) handler) [.pair value props values propsPushed] := by
  intro σ _ _
  rw [forEach_singleton, h]
  rfl

/-- An access, and what depends on it. -/
theorem performs_after {α : Type} {get : Store F → Access α} {f : α → Run F R Unit} {g : α → List Task}
    (h : ∀ a, get s = some (.ok a) → Performs lib order pair s schema (f a) (g a)) :
    Performs lib order pair s schema (access get >>= f) (after (get s) g) := by
  intro σ hs hc
  rw [bind_eq]
  unfold access after
  rw [hs]
  rcases ha : get s with _ | a | e
  · rw [forEach_singleton]
    rfl
  · exact performs_throw σ hs hc
  · exact h _ ha σ hs hc

/-- A loop performs the tasks of its turns. -/
theorem performs_forEach (hpair : ∀ v p, Keeps (pair v p)) {β : Type} {f : β → Run F R Unit} {g : β → List Task}
    (h : ∀ x, Performs lib order pair s schema (f x) (g x)) :
    ∀ xs : List β, Performs lib order pair s schema (forEach xs f) (xs.flatMap g)
  | [] => performs_nil
  | x :: xs => by
      intro σ hs hc
      have happend : ∀ (ts us : List Task) (σ : ValidatorC F R), forEach (ts ++ us) (perform lib order pair) σ
          = (forEach ts (perform lib order pair) >>= fun _ => forEach us (perform lib order pair)) σ := by
        intro ts us
        induction ts with
        | nil => exact fun _ => rfl
        | cons t ts ih =>
            intro σ
            simp only [List.cons_append, forEach, bind_eq]
            split
            · rfl
            · rename_i σ' _
              exact ih σ'
            · rfl
      rw [List.flatMap_cons, happend, forEach, bind_eq, bind_eq, h x σ hs hc]
      split
      · rfl
      · rename_i σ' h'
        obtain ⟨hs', hc'⟩ := Keeps.forEach (keeps_perform hpair) (g x) σ _ σ' h'
        exact performs_forEach hpair h xs σ' (hs'.trans hs) (hc'.trans hc)
      · rfl

/-! ### Property by property -/

theorem pushAll_eq (selector : Elem) (name : String) :
    (pushAll selector name : Run F R Unit) = pushes [selector] [selector, .string (bytes name)] := by
  funext σ
  simp [pushAll, pushValue, pushProps, bind_eq, pushes]

/-- The pushes of `VALIDATE_PAIR_REFERENCE` before the others. -/
theorem pushRef_eq {m : Run F R Unit} {values props : List Elem} (hm : m = pushes values props) (prop : Addr) :
    (do pushProps (.var prop); pushProps (.string (bytes "ref")); m : Run F R Unit)
      = pushes values (.var prop :: .string (bytes "ref") :: props) := by
  funext σ
  simp [pushProps, bind_eq, pushes, hm]

variable {depth : Nat} {value prop : Addr}

/-- A check and its error. -/
theorem performs_check {b : Prop} [Decidable b] {e : Error} :
    Performs lib order pair s schema (if b then cclthrow e else pure ()) (if b then [.fail e [] []] else []) := by
  by_cases h : b
  · rw [if_pos h, if_pos h]
    exact performs_throw
  · rw [if_neg h, if_neg h]
    exact performs_nil

theorem performs_type : Performs lib order pair s schema (propType value prop) (typeTasks s value prop) := by
  refine performs_after (fun d _ => ?_)
  cases d with
  | string t =>
      show Performs lib order pair s schema (match cTypeMap.lookup t with | some _ => _ | none => _)
        (match cTypeMap.lookup t with | some _ => _ | none => _)
      cases cTypeMap.lookup t with
      | none => exact performs_throw
      | some type => exact performs_after (fun d _ => performs_check)
  | _ => exact performs_throw

theorem performs_size {bad : Int → Int → Bool} :
    Performs lib order pair s schema (propSize bad value prop) (sizeTasks s value prop bad) := by
  refine performs_after (fun d _ => ?_)
  cases sizeOf? d with
  | some size => exact performs_after (fun _ _ => performs_check)
  | none => exact performs_throw

theorem performs_regex : Performs lib order pair s schema (propRegex lib order value prop) (regexTasks s value prop) := by
  refine performs_after (fun d _ => ?_)
  cases d with
  | string text =>
      refine performs_after (fun key _ => ?_)
      intro σ _ _
      rw [forEach_singleton]
      rfl
  | _ => exact performs_throw

section Properties

variable [LT F] [DecidableLT F]

theorem performs_reference {m : Run F R Unit} {values props : List Elem} (hm : m = pushes values props) :
    Performs lib order pair s schema (reference depth pair value prop m)
      (referenceTasks s schema depth value prop values props) := by
  have hmissing : Performs lib order pair s schema
      (do pushProps (.var prop); pushProps (.string (bytes "ref")); m; cclthrow .invalidSchemaReference : Run F R Unit)
      [.fail .invalidSchemaReference values (.var prop :: .string (bytes "ref") :: props)] := by
    apply performs_fail
    rw [← pushRef_eq hm]
    funext σ
    simp [bind_eq, pushProps]
  intro σ hs hc
  subst hc
  refine performs_after (fun d _ => ?_) σ hs rfl
  cases d with
  | string t =>
      refine performs_after (fun ref _ => ?_)
      cases ref with
      | some ref => exact performs_pair (pushRef_eq hm prop)
      | none => exact hmissing
  | _ => exact hmissing

theorem performs_call {selector : Elem} {name : String} :
    Performs lib order pair s schema (call depth pair value prop (pushAll selector name))
      (callTasks s schema depth value prop selector name) := by
  refine performs_after (fun d _ => ?_)
  cases d with
  | string t => exact performs_reference (pushAll_eq selector name)
  | _ => exact performs_pair (pushAll_eq selector name)

theorem performs_compare {bad : Int → Bool} :
    Performs lib order pair s schema (propCompare bad depth value prop) (compareTasks s depth value prop bad) :=
  performs_after (fun _ _ => performs_check)

theorem performs_items (hpair : ∀ v p, Keeps (pair v p)) :
    Performs lib order pair s schema (propItems depth pair value prop) (itemsTasks s schema depth value prop) := by
  refine performs_after (fun d _ => ?_)
  cases d with
  | array xs =>
      refine performs_after (fun es _ => performs_forEach hpair (fun e => ?_) es)
      refine performs_after (fun index _ => ?_)
      cases arrayAt xs index with
      | none =>
          apply performs_fail
          rw [pushAll_eq]
      | some item => exact performs_call
  | dict _ =>
      refine performs_after (fun es _ => performs_forEach hpair (fun e => ?_) es)
      refine performs_after (fun found _ => ?_)
      cases found with
      | none =>
          apply performs_fail
          rw [pushAll_eq]
      | some keyValue => exact performs_call
  | _ => exact performs_throw

theorem performs_optItems (hpair : ∀ v p, Keeps (pair v p)) :
    Performs lib order pair s schema (propOptItems depth pair value prop) (optItemsTasks s schema depth value prop) := by
  refine performs_after (fun d _ => ?_)
  cases d with
  | dict _ =>
      refine performs_after (fun es _ => performs_forEach hpair (fun e => ?_) es)
      refine performs_after (fun found _ => ?_)
      cases found with
      | none => exact performs_nil
      | some keyValue => exact performs_call
  | _ => exact performs_throw

theorem performs_allKeys (hpair : ∀ v p, Keeps (pair v p)) :
    Performs lib order pair s schema (propAllKeys depth pair value prop) (allKeysTasks s schema depth value prop) := by
  refine performs_after (fun d _ => ?_)
  cases d with
  | dict es => exact performs_forEach hpair (fun e => performs_call) es
  | _ => exact performs_throw

theorem performs_allItems (hpair : ∀ v p, Keeps (pair v p)) :
    Performs lib order pair s schema (propAllItems depth pair value prop) (allItemsTasks s schema depth value prop) := by
  have heach : ∀ xs, Performs lib order pair s schema (eachItem depth pair prop xs) (eachItemTasks s schema depth prop xs) :=
    fun xs => performs_forEach hpair (fun x => performs_call) xs.zipIdx
  refine performs_after (fun d _ => ?_)
  cases d with
  | array xs => exact heach xs
  | set xs => exact heach xs
  | list xs => exact heach xs
  | dict es => exact performs_forEach hpair (fun e => performs_call) es
  | _ => exact performs_throw

theorem performs_switch (hpair : ∀ v p, Keeps (pair v p)) (propId : PropId) :
    Performs lib order pair s schema (switchProp lib order depth pair value prop propId)
      (switchTasks s schema depth value prop propId) := by
  cases propId with
  | type => exact performs_type
  | regex => exact performs_regex
  | items => exact performs_items hpair
  | optItems => exact performs_optItems hpair
  | allKeys => exact performs_allKeys hpair
  | allItems => exact performs_allItems hpair
  | equal | notEqual | lesser | greater | lesserEqual | greaterEqual => exact performs_compare
  | sizeEqual | sizeNotEqual | sizeLesser | sizeGreater | sizeLesserEqual | sizeGreaterEqual =>
      unfold switchProp switchTasks
      exact performs_size

/-- **The code performs the tasks** of a property. -/
theorem performs_property (hpair : ∀ v p, Keeps (pair v p)) (e : Addr × Addr) :
    Performs lib order pair s schema (property lib order depth pair value e) (tasks s schema depth value e) := by
  refine performs_after (fun name _ => ?_)
  cases cPropMap.lookup name with
  | some propId => exact performs_switch hpair propId
  | none =>
      show Performs lib order pair s schema (if isRef name then _ else _) (if isRef name then _ else _)
      by_cases hr : isRef name = true
      · rw [if_pos hr, if_pos hr]
        apply performs_reference
        funext σ
        simp [pushes]
        rfl
      · rw [if_neg hr, if_neg hr]
        apply performs_fail
        funext σ
        simp [pushes, pushProps, bind_eq]

end Properties

end Cclvarval
end Cclib
