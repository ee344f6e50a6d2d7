import Cclib.Cclvarval.Tasks

/-!
# `Cclvarval.Report` — how a validation comes out

`report` is what `validate_pair` comes to, as a function of the cells alone: no error, or the error with what
is pushed for it. The code has a cache and two stacks besides. `Follows` is the relation between the two, and
`validatePair_follows` says that it holds from any validator whose cache is `Coherent`: the same errors with the
same pushes, but for a call on a null pointer where a pattern was rejected before.
-/

namespace Cclib
namespace Cclvarval

open Cclvar Compare Run

variable {F R : Type}

/-! ## The report -/

/-- An error, what is pushed for it from the failure to the root, and the pattern that was rejected. -/
structure Report where
  error : Error
  values : List Elem
  props : List Elem
  rejected : Option StringT
deriving DecidableEq

/-- The error after further pushes. -/
def Report.push (r : Report) (values props : List Elem) : Report :=
  { r with values := r.values ++ values, props := r.props ++ props }

/-- What a piece of a validation comes to; `none` while it does not come to an end. -/
abbrev Result := Option (Except Report Unit)

def runTask (lib : RegexLib R) (pair : Addr → Addr → Result) : Task → Result
  | .fail e values props => some (.error ⟨e, values, props, none⟩)
  | .regex key text =>
    match lib.regexC key with
    | .error e => some (.error ⟨e, [], [], some key⟩)
    | .ok r => if lib.matches r text then some (.ok ()) else some (.error ⟨.invalidValue, [], [], none⟩)
  | .pair value props values propsPushed =>
    match pair value props with
    | some (.error r) => some (.error (r.push values propsPushed))
    | result => result
  | .hang => none

/-- The first task that does not come out well decides. -/
def runTasks (lib : RegexLib R) (pair : Addr → Addr → Result) : List Task → Result
  | [] => some (.ok ())
  | t :: ts =>
    match runTask lib pair t with
    | some (.ok ()) => runTasks lib pair ts
    | result => result

section Report

variable [LT F] [DecidableLT F]

/-- What `validate_pair` comes to. -/
def report (lib : RegexLib R) (s : Store F) (schema : Addr) : Nat → Addr → Addr → Result
  | 0, _, _ => none
  | fuel + 1, value, props => runTasks lib (report lib s schema fuel) (pairTasks s schema fuel value props)

end Report

/-! ### More fuel -/

theorem runTask_mono {lib : RegexLib R} {pair pair' : Addr → Addr → Result}
    (h : ∀ value props x, pair value props = some x → pair' value props = some x) {t : Task} {x : Except Report Unit}
    (hx : runTask lib pair t = some x) : runTask lib pair' t = some x := by
  cases t with
  | pair value props values propsPushed =>
      simp only [runTask] at hx ⊢
      cases hp : pair value props with
      | none => simp [hp] at hx
      | some y =>
          rw [h value props y hp]
          rw [hp] at hx
          exact hx
  | _ => exact hx

theorem runTasks_mono {lib : RegexLib R} {pair pair' : Addr → Addr → Result}
    (h : ∀ value props x, pair value props = some x → pair' value props = some x) {ts us : List Task}
    (hle : TasksLe ts us) {x : Except Report Unit} (hx : runTasks lib pair ts = some x) :
    runTasks lib pair' us = some x := by
  induction hle with
  | nil => exact hx
  | hang ts us => simp [runTasks, runTask] at hx
  | cons t _ ih =>
      unfold runTasks at hx ⊢
      cases ht : runTask lib pair t with
      | none => simp [ht] at hx
      | some y =>
          rw [runTask_mono h ht]
          rw [ht] at hx
          cases y with
          | ok u => exact ih hx
          | error r => exact hx

section ReportMono

variable [LT F] [DecidableLT F] {lib : RegexLib R} {s : Store F} {schema : Addr}

theorem report_succ : ∀ {fuel : Nat} {value props : Addr} {x : Except Report Unit},
    report lib s schema fuel value props = some x → report lib s schema (fuel + 1) value props = some x
  | 0, _, _, _, h => by simp [report] at h
  | fuel + 1, value, props, x, h =>
      runTasks_mono (fun _ _ _ => report_succ) (pairTasks_le (Nat.le_succ fuel) value props) h

/-- What a validation comes to does not change with more fuel. -/
theorem report_mono {fuel fuel' : Nat} (hle : fuel ≤ fuel') {value props : Addr} {x : Except Report Unit}
    (h : report lib s schema fuel value props = some x) : report lib s schema fuel' value props = some x := by
  induction hle with
  | refl => exact h
  | step _ ih => exact report_succ ih

/-- It comes to one thing only. -/
theorem report_unique {fuel fuel' : Nat} {value props : Addr} {x y : Except Report Unit}
    (h : report lib s schema fuel value props = some x) (h' : report lib s schema fuel' value props = some y) : x = y := by
  have hx := report_mono (Nat.le_max_left fuel fuel') h
  have hy := report_mono (Nat.le_max_right fuel fuel') h'
  exact Option.some.inj (hx.symm.trans hy)

end ReportMono

/-! ## The code follows the report -/

/-- A cached pointer is the regular expression of its key, and null if that is rejected. -/
def Coherent (lib : RegexLib R) (σ : ValidatorC F R) : Prop :=
  ∀ key ptr, σ.regexMap key = some ptr → (lib.regexC key).toOption = ptr

/-- A null pointer is cached for the text. -/
def Nulled (σ : ValidatorC F R) (key : StringT) : Prop := σ.regexMap key = some none

/-- The validator after code that pushed this, and cached a null pointer for `null`. -/
structure Next (lib : RegexLib R) (σ : ValidatorC F R) (values props : List Elem) (null : Option StringT)
    (σ' : ValidatorC F R) : Prop where
  store : σ'.store = σ.store
  schema : σ'.schema = σ.schema
  values : σ'.valueStack = σ.valueStack ++ values
  props : σ'.propsStack = σ.propsStack ++ props
  coherent : Coherent lib σ'
  nulled : ∀ key, Nulled σ' key ↔ Nulled σ key ∨ null = some key

/-- What the code does where the report is `result`. -/
inductive Follows (lib : RegexLib R) (order : OperandOrder) (σ : ValidatorC F R) :
    Result → Option (Except Fault Unit × ValidatorC F R) → Prop where
  | runs : Follows lib order σ none none
  | returns {σ' : ValidatorC F R} : Next lib σ [] [] none σ' → Follows lib order σ (some (.ok ())) (some (.ok (), σ'))
  | throws {r : Report} {σ' : ValidatorC F R} : (∀ key, r.rejected = some key → ¬ Nulled σ key) →
      Next lib σ r.values r.props (match order with | .keyFirst => r.rejected | .newFirst => none) σ' →
      Follows lib order σ (some (.error r)) (some (.error (.exception r.error), σ'))
  | null {r : Report} {key : StringT} {σ' : ValidatorC F R} : r.rejected = some key → Nulled σ key →
      Follows lib order σ (some (.error r)) (some (.error .nullRegex, σ'))

variable {lib : RegexLib R} {order : OperandOrder} {σ σ₁ σ₂ : ValidatorC F R}

theorem Next.refl (h : Coherent lib σ) : Next lib σ [] [] none σ :=
  ⟨rfl, rfl, by simp, by simp, h, fun key => by simp⟩

theorem Next.trans {values values' props props' : List Elem} {null : Option StringT}
    (h : Next lib σ values props none σ₁) (h' : Next lib σ₁ values' props' null σ₂) :
    Next lib σ (values ++ values') (props ++ props') null σ₂ where
  store := h'.store.trans h.store
  schema := h'.schema.trans h.schema
  values := by rw [h'.values, h.values, List.append_assoc]
  props := by rw [h'.props, h.props, List.append_assoc]
  coherent := h'.coherent
  nulled := fun key => by
    rw [h'.nulled key, h.nulled key]
    simp

/-- Code that follows after code without an error. -/
theorem Follows.after {result : Result} {out : Option (Except Fault Unit × ValidatorC F R)}
    (h : Next lib σ [] [] none σ₁) (h' : Follows lib order σ₁ result out) : Follows lib order σ result out := by
  cases h' with
  | runs => exact .runs
  | returns hn => exact .returns (h.trans hn)
  | throws hr hn =>
      refine .throws (fun key hk hnull => hr key hk ?_) (h.trans hn)
      exact (h.nulled key).mpr (.inl hnull)
  | null hk hn =>
      refine .null hk ?_
      simpa using (h.nulled _).mp hn

theorem regexPtr_of_cached {key : StringT} {ptr : Option R} (h : σ.regexMap key = some ptr) :
    regexPtr lib order key σ = some (.ok ptr, σ) := by
  unfold regexPtr
  rw [h]

/-- The validator after `m_regex_map[key] = ptr`. -/
def cached (σ : ValidatorC F R) (key : StringT) (ptr : Option R) : ValidatorC F R :=
  { σ with regexMap := Function.update σ.regexMap key (some ptr) }

theorem cached_self (key : StringT) (ptr : Option R) : (cached σ key ptr).regexMap key = some ptr := by
  simp [cached]

theorem cached_ne {key key' : StringT} (h : key' ≠ key) (ptr : Option R) :
    (cached σ key ptr).regexMap key' = σ.regexMap key' := by
  simp [cached, h]

theorem cached_cached (key : StringT) (ptr ptr' : Option R) : cached (cached σ key ptr) key ptr' = cached σ key ptr' := by
  unfold cached
  simp

/-- Caching the pointer of a key keeps the cache coherent and the stacks as they are. -/
theorem next_cached {key : StringT} {ptr : Option R} (hσ : Coherent lib σ) (hnew : σ.regexMap key = none)
    (hptr : (lib.regexC key).toOption = ptr) :
    Next lib σ [] [] (if ptr.isNone then some key else none) (cached σ key ptr) where
  store := rfl
  schema := rfl
  values := (List.append_nil _).symm
  props := (List.append_nil _).symm
  coherent := by
    intro key' ptr' h
    by_cases hk : key' = key
    · rw [hk, cached_self] at h
      rw [hk, hptr]
      exact Option.some.inj h
    · rw [cached_ne hk] at h
      exact hσ key' ptr' h
  nulled := by
    intro key'
    unfold Nulled
    by_cases hk : key' = key
    · rw [hk, cached_self, hnew]
      cases ptr <;> simp
    · rw [cached_ne hk]
      cases ptr <;> simp [Ne.symm hk]

theorem newRegex_ok {key : StringT} {r : R} (h : lib.regexC key = .ok r) : newRegex lib key σ = some (.ok r, σ) := by
  unfold newRegex
  rw [h]

theorem newRegex_error {key : StringT} {e : Error} (h : lib.regexC key = .error e) :
    newRegex lib key σ = some (.error (.exception e), σ) := by
  unfold newRegex
  rw [h]
  rfl

/-- A new regular expression is cached, in either order. -/
theorem regexPtr_of_new {key : StringT} {r : R} (hnew : σ.regexMap key = none) (h : lib.regexC key = .ok r) :
    regexPtr lib order key σ = some (.ok (some r), cached σ key (some r)) := by
  unfold regexPtr
  rw [hnew]
  cases order with
  | keyFirst =>
      show ((newRegex lib key >>= fun r => (do cacheRegex key (some r); return some r)) (cached σ key none)) = _
      rw [bind_eq, newRegex_ok h]
      show some (Except.ok (some r), cached (cached σ key none) key (some r)) = _
      rw [cached_cached]
  | newFirst =>
      show ((newRegex lib key >>= fun r => (do cacheRegex key (some r); return some r)) σ) = _
      rw [bind_eq, newRegex_ok h]
      rfl

/-- Where the pattern is rejected, a null pointer stays behind if the key was looked up first. -/
theorem regexPtr_of_rejected {key : StringT} {e : Error} (hnew : σ.regexMap key = none) (h : lib.regexC key = .error e) :
    regexPtr lib order key σ = some (.error (.exception e), match order with
      | .keyFirst => cached σ key none
      | .newFirst => σ) := by
  unfold regexPtr
  rw [hnew]
  cases order with
  | keyFirst =>
      show ((newRegex lib key >>= fun r => (do cacheRegex key (some r); return some r)) (cached σ key none)) = _
      rw [bind_eq, newRegex_error h]
  | newFirst =>
      show ((newRegex lib key >>= fun r => (do cacheRegex key (some r); return some r)) σ) = _
      rw [bind_eq, newRegex_error h]

theorem follows_regex (hσ : Coherent lib σ) (pair : Addr → Addr → Run F R Unit) (pair' : Addr → Addr → Result)
    (key text : StringT) :
    Follows lib order σ (runTask lib pair' (.regex key text)) (perform lib order pair (.regex key text) σ) := by
  have hmatch : ∀ (σ₁ : ValidatorC F R) (r : R), Coherent lib σ₁ → Follows lib order σ₁
      (if lib.matches r text then some (.ok ()) else some (.error ⟨.invalidValue, [], [], none⟩))
      ((if !lib.matches r text then cclthrow .invalidValue else pure () : Run F R Unit) σ₁) := by
    intro σ₁ r h₁
    cases lib.matches r text
    · refine .throws (by simp) ?_
      cases order <;> exact Next.refl h₁
    · exact .returns (Next.refl h₁)
  show Follows lib order σ (match lib.regexC key with | .error e => _ | .ok r => _)
    ((regexPtr lib order key >>= fun ptr => _) σ)
  rw [bind_eq]
  cases hc : σ.regexMap key with
  | some ptr =>
      -- a pointer in the cache is what the pattern compiles to, or null
      have hptr := hσ key ptr hc
      rw [regexPtr_of_cached hc]
      cases hk : lib.regexC key with
      | ok r =>
          rw [hk] at hptr
          subst hptr
          exact hmatch σ r hσ
      | error e =>
          rw [hk] at hptr
          subst hptr
          exact .null rfl hc
  | none =>
      cases hk : lib.regexC key with
      | ok r =>
          have hptr : (lib.regexC key).toOption = some r := by rw [hk]; rfl
          have hnext := next_cached hσ hc hptr
          rw [regexPtr_of_new hc hk]
          exact .after hnext (hmatch _ r hnext.coherent)
      | error e =>
          -- the key was not in the cache, so there was no null pointer for it
          have hnull : ∀ key', some key = some key' → ¬ Nulled σ key' := by
            intro key' h
            rw [← Option.some.inj h, Nulled, hc]
            simp
          rw [regexPtr_of_rejected hc hk]
          refine .throws hnull ?_
          cases order with
          | keyFirst =>
              have hptr : (lib.regexC key).toOption = none := by rw [hk]; rfl
              exact next_cached hσ hc hptr
          | newFirst => exact Next.refl hσ

variable {pair : Addr → Addr → Run F R Unit} {pair' : Addr → Addr → Result}

/-- The handler pushes behind what was pushed before. -/
theorem follows_pair {value props : Addr} (h : Follows lib order σ (pair' value props) (pair value props σ))
    (values propsPushed : List Elem) :
    Follows lib order σ (runTask lib pair' (.pair value props values propsPushed))
      (perform lib order pair (.pair value props values propsPushed) σ) := by
  simp only [runTask, perform, onThrow]
  generalize pair' value props = result at h ⊢
  generalize pair value props σ = out at h ⊢
  cases h with
  | runs => exact .runs
  | returns hn => exact .returns hn
  | throws hr hn =>
      exact .throws (r := Report.push _ values propsPushed) hr
        ⟨hn.store, hn.schema, by simp [Report.push, hn.values], by simp [Report.push, hn.props], hn.coherent, hn.nulled⟩
  | null hk hn => exact .null (r := Report.push _ values propsPushed) hk hn

theorem follows_task (hσ : Coherent lib σ)
    (hpair : ∀ value props, Follows lib order σ (pair' value props) (pair value props σ)) (t : Task) :
    Follows lib order σ (runTask lib pair' t) (perform lib order pair t σ) := by
  cases t with
  | fail e values props =>
      refine .throws (r := ⟨e, values, props, none⟩) (by simp) ?_
      cases order <;> exact ⟨rfl, rfl, rfl, rfl, hσ, fun key => by simp [Nulled]⟩
  | regex key text => exact follows_regex hσ pair pair' key text
  | pair value props values propsPushed => exact follows_pair (hpair value props) values propsPushed
  | hang => exact .runs

theorem follows_tasks {s : Store F} {schema : Addr}
    (hpair : ∀ σ : ValidatorC F R, Coherent lib σ → σ.store = s → σ.schema = schema → ∀ value props,
      Follows lib order σ (pair' value props) (pair value props σ)) :
    ∀ (ts : List Task) (σ : ValidatorC F R), Coherent lib σ → σ.store = s → σ.schema = schema →
      Follows lib order σ (runTasks lib pair' ts) (forEach ts (perform lib order pair) σ)
  | [], _, hσ, _, _ => .returns (Next.refl hσ)
  | t :: ts, σ, hσ, hs, hc => by
      have ht := follows_task hσ (hpair σ hσ hs hc) t
      unfold runTasks forEach
      rw [bind_eq]
      generalize runTask lib pair' t = result at ht ⊢
      generalize perform lib order pair t σ = out at ht ⊢
      cases ht with
      | runs => exact .runs
      | returns hn =>
          exact .after hn (follows_tasks hpair ts _ hn.coherent (hn.store.trans hs) (hn.schema.trans hc))
      | throws hr hn => exact .throws hr hn
      | null hk hn => exact .null hk hn

section ValidatePair

variable [LT F] [DecidableLT F]

theorem performs_validatePair {fuel : Nat} (hpair : ∀ v p, Keeps (validatePair (F := F) lib order fuel v p))
    (s : Store F) (schema value props : Addr) :
    Performs lib order (validatePair lib order fuel) s schema (validatePair lib order (fuel + 1) value props)
      (pairTasks s schema fuel value props) :=
  performs_after (fun es _ => performs_forEach hpair (performs_property hpair) es)

theorem keeps_validatePair : ∀ (fuel : Nat) (value props : Addr), Keeps (validatePair (F := F) lib order fuel value props)
  | 0, _, _ => by
      intro σ r σ' h
      simp [validatePair, hang] at h
  | fuel + 1, value, props => by
      intro σ r σ' h
      have hpair := keeps_validatePair fuel
      rw [performs_validatePair hpair σ.store σ.schema value props σ rfl rfl] at h
      exact Keeps.forEach (keeps_perform hpair) _ σ r σ' h

/-- **The code follows the report**, whatever was validated before. -/
theorem validatePair_follows {s : Store F} {schema : Addr} : ∀ (fuel : Nat) {σ : ValidatorC F R}, Coherent lib σ →
    σ.store = s → σ.schema = schema → ∀ value props : Addr,
    Follows lib order σ (report lib s schema fuel value props) (validatePair lib order fuel value props σ)
  | 0, _, _, _, _, _, _ => .runs
  | fuel + 1, σ, hσ, hs, hc, value, props => by
      rw [performs_validatePair (keeps_validatePair fuel) s schema value props σ hs hc]
      exact follows_tasks (fun σ hσ hs hc => validatePair_follows fuel hσ hs hc) _ σ hσ hs hc

/-! ## `validate` -/

/-- The cells after `m_schema["root"]`. -/
def rootStore (s : Store F) (schema : Addr) (fuel : Nat) : Store F :=
  match Access.find s fuel schema (bytes "root") with
  | some (.ok (.missing es i)) => addEntry s schema es i (bytes "root")
  | _ => s

/-- What `validate` comes to, without the last push. -/
def rootReport (lib : RegexLib R) (s : Store F) (schema : Addr) (fuel : Nat) (value : Addr) : Result :=
  match Access.find s fuel schema (bytes "root") with
  | none => none
  | some (.error e) => some (.error ⟨e, [], [], none⟩)
  | some (.ok (.value root)) => report lib s schema fuel value root
  | some (.ok (.missing es i)) =>
    report lib (addEntry s schema es i (bytes "root")) schema fuel value (s.cells.length + 1)

/-- The validator after `validate`, but for the stacks. -/
structure Validated (lib : RegexLib R) (fuel : Nat) (σ : ValidatorC F R) (null : Option StringT) (σ' : ValidatorC F R) :
    Prop where
  store : σ'.store = rootStore σ.store σ.schema fuel
  schema : σ'.schema = σ.schema
  coherent : Coherent lib σ'
  nulled : ∀ key, Nulled σ' key ↔ Nulled σ key ∨ null = some key

/-- What `validate` does where the report is `result`. -/
inductive Finishes (lib : RegexLib R) (order : OperandOrder) (fuel : Nat) (σ : ValidatorC F R) :
    Result → Option (Except Fault Unit × ValidatorC F R) → Prop where
  | runs : Finishes lib order fuel σ none none
  | returns {σ' : ValidatorC F R} : Validated lib fuel σ none σ' → σ'.valueStack = [] → σ'.propsStack = [] →
      Finishes lib order fuel σ (some (.ok ())) (some (.ok (), σ'))
  | throws {r : Report} {σ' : ValidatorC F R} : (∀ key, r.rejected = some key → ¬ Nulled σ key) →
      Validated lib fuel σ (match order with | .keyFirst => r.rejected | .newFirst => none) σ' →
      σ'.valueStack = r.values.reverse → σ'.propsStack = .string (bytes "root") :: r.props.reverse →
      Finishes lib order fuel σ (some (.error r)) (some (.error (.exception r.error), σ'))
  | null {r : Report} {key : StringT} {σ' : ValidatorC F R} : r.rejected = some key → Nulled σ key →
      Finishes lib order fuel σ (some (.error r)) (some (.error .nullRegex, σ'))

/-- What the handler of `validate` makes of what follows a report. -/
theorem Follows.finishes {fuel : Nat} {result : Result} {m : Run F R Unit} (hs : σ₁.store = rootStore σ.store σ.schema fuel)
    (hc : σ₁.schema = σ.schema) (hmap : σ₁.regexMap = σ.regexMap) (hv : σ₁.valueStack = []) (hp : σ₁.propsStack = [])
    (h : Follows lib order σ₁ result (m σ₁)) :
    Finishes lib order fuel σ result (onThrow m finishStacks σ₁) := by
  have hnulled : ∀ key, Nulled σ₁ key ↔ Nulled σ key := fun key => by rw [Nulled, Nulled, hmap]
  unfold onThrow
  generalize m σ₁ = out at h ⊢
  cases h with
  | runs => exact .runs
  | returns hn =>
      refine .returns ⟨hn.store.trans hs, hn.schema.trans hc, hn.coherent, fun key => ?_⟩ ?_ ?_
      · rw [hn.nulled key, hnulled key]
      · rw [hn.values, hv]
        rfl
      · rw [hn.props, hp]
        rfl
  | throws hr hn =>
      refine .throws (fun key hk hnull => hr key hk ((hnulled key).mpr hnull))
        ⟨hn.store.trans hs, hn.schema.trans hc, hn.coherent, fun key => ?_⟩ ?_ ?_
      · show Nulled _ key ↔ _
        rw [← hnulled key]
        exact hn.nulled key
      · show List.reverse _ = _
        rw [hn.values, hv]
        rfl
      · show List.reverse _ = _
        rw [hn.props, hp]
        simp
  | null hk hn => exact .null hk ((hnulled _).mp hn)

theorem index_eq (depth : Nat) (a : Addr) (key : StringT) (σ : ValidatorC F R) :
    index depth a key σ = match Access.find σ.store depth a key with
      | none => none
      | some (.error e) => some (.error (.exception e), σ)
      | some (.ok (.value b)) => some (.ok b, σ)
      | some (.ok (.missing es i)) =>
        some (.ok (σ.store.cells.length + 1), { σ with store := addEntry σ.store a es i key }) := by
  unfold index
  rw [bind_eq]
  simp only [access]
  rcases Access.find σ.store depth a key with _ | e | _ | _ <;> rfl

theorem validateRoot_eq (lib : RegexLib R) (order : OperandOrder) (fuel : Nat) (value : Addr) (σ : ValidatorC F R) :
    validateRoot lib order fuel value σ = match Access.find σ.store fuel σ.schema (bytes "root") with
      | none => none
      | some (.error e) => some (.error (.exception e), σ)
      | some (.ok (.value root)) => validatePair lib order fuel value root σ
      | some (.ok (.missing es i)) => validatePair lib order fuel value (σ.store.cells.length + 1)
          { σ with store := addEntry σ.store σ.schema es i (bytes "root") } := by
  show (index fuel σ.schema (bytes "root") >>= validatePair lib order fuel value) σ = _
  rw [bind_eq, index_eq]
  rcases Access.find σ.store fuel σ.schema (bytes "root") with _ | e | _ | _ <;> rfl

/-- **`validate` follows its report**, whatever was validated before. -/
theorem validate_finishes (fuel : Nat) (hσ : Coherent lib σ) (value : Addr) :
    Finishes lib order fuel σ (rootReport lib σ.store σ.schema fuel value) (validate lib order fuel value σ) := by
  let σ₀ : ValidatorC F R := { σ with valueStack := [], propsStack := [] }
  have hroot := validateRoot_eq lib order fuel value σ₀
  -- the handler of `validate` works on what `m_schema["root"]` left
  have hfinish : ∀ (store : Store F) (result : Result), store = rootStore σ.store σ.schema fuel →
      Follows lib order { σ₀ with store := store } result (validateRoot lib order fuel value σ₀) →
      Finishes lib order fuel σ result (validate lib order fuel value σ) := by
    intro store result hs h
    have hs₀ : ({ σ₀ with store := store } : ValidatorC F R).store = rootStore σ.store σ.schema fuel := hs
    exact Follows.finishes (m := fun _ => validateRoot lib order fuel value σ₀) hs₀ rfl rfl rfl rfl h
  unfold rootReport
  cases hf : Access.find σ.store fuel σ.schema (bytes "root") with
  | none =>
      rw [show Access.find σ₀.store fuel σ₀.schema (bytes "root") = _ from hf] at hroot
      apply hfinish σ.store _ (by rw [rootStore, hf])
      rw [hroot]
      exact .runs
  | some found =>
      rw [show Access.find σ₀.store fuel σ₀.schema (bytes "root") = _ from hf] at hroot
      cases found with
      | error e =>
          apply hfinish σ.store _ (by rw [rootStore, hf])
          rw [hroot]
          refine .throws (r := ⟨e, [], [], none⟩) (by simp) ?_
          cases order <;> exact Next.refl hσ
      | ok slot =>
          cases slot with
          | value root =>
              apply hfinish σ.store _ (by rw [rootStore, hf])
              rw [hroot]
              have hσ₀ : Coherent lib σ₀ := hσ
              exact validatePair_follows fuel hσ₀ rfl rfl value root
          | missing es i =>
              apply hfinish (addEntry σ.store σ.schema es i (bytes "root")) _ (by rw [rootStore, hf])
              rw [hroot]
              have hσ₁ : Coherent lib { σ₀ with store := addEntry σ.store σ.schema es i (bytes "root") } := hσ
              exact validatePair_follows fuel hσ₁ rfl rfl value _

/-! ## Calls -/

/-- A validator after calls of `validate` on these values, each of which returned or threw. -/
inductive Called (lib : RegexLib R) (order : OperandOrder) : ValidatorC F R → List Addr → ValidatorC F R → Prop where
  | none (σ : ValidatorC F R) : Called lib order σ [] σ
  | call {σ σ₁ σ₂ : ValidatorC F R} {value : Addr} {values : List Addr} {fuel : Nat} {r : Except Fault Unit} :
      validate lib order fuel value σ = some (r, σ₁) → r ≠ .error .nullRegex → Called lib order σ₁ values σ₂ →
      Called lib order σ (value :: values) σ₂

omit [LT F] [DecidableLT F] in
theorem coherent_new (s : Store F) (schema : Addr) : Coherent lib (ValidatorC.mk' s schema : ValidatorC F R) := by
  intro key ptr h
  simp [ValidatorC.mk'] at h

theorem Finishes.validated {fuel : Nat} {result : Result} {r : Except Fault Unit} {σ' : ValidatorC F R}
    (h : Finishes lib order fuel σ result (some (r, σ'))) (hr : r ≠ .error .nullRegex) :
    ∃ null, Validated lib fuel σ null σ' := by
  cases h with
  | returns hv => exact ⟨_, hv⟩
  | throws _ hv => exact ⟨_, hv⟩
  | null => exact absurd rfl hr

theorem Called.coherent {values : List Addr} {σ' : ValidatorC F R} (h : Called lib order σ values σ')
    (hσ : Coherent lib σ) : Coherent lib σ' := by
  induction h with
  | none σ => exact hσ
  | @call σ _ _ value _ fuel _ hr hnull _ ih =>
      have hfin : Finishes lib order fuel σ _ (validate lib order fuel value σ) := validate_finishes fuel hσ value
      rw [hr] at hfin
      obtain ⟨null, hv⟩ := hfin.validated hnull
      exact ih hv.coherent

end ValidatePair

end Cclvarval
end Cclib
