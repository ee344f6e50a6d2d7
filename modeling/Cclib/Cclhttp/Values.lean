import Cclib.Cclhttp.Connection
import Cclib.Lib.Runs

/-!
# `Cclhttp.Values` — `connection_c::values`

libmicrohttpd hands the values of a connection to `key_value_func` one by one, which collects them in
`m_key_value_map`; `values` swaps the map for the caller's. The first value of a key counts. A GET argument without `=`
has no value: the `std::string` of it cannot be made, the exception goes through libmicrohttpd, which is C, to the caller
of `values`, and what has been collected stays in `m_key_value_map`, where the next call finds it. What libmicrohttpd
keeps is not known from there on, and is told with each call.

## Contents
- `HeldValue`, `selected`, `key_value_func`, `getConnectionValues`, `values`.
- `ValuesEvent`, `valuesStep`: calls of `values` one after the other.
- `firstOf`, `Right`; `getConnectionValues_spec`.
- `values_right_iff`.
-/

namespace Cclib
namespace Cclhttp

open Runs

/-! ## The functions -/

/-- `string_map_t`, by insertion. -/
abbrev StringMap := List (Bytes × Bytes)

/-- A value that libmicrohttpd has of a connection. -/
structure HeldValue where
  kind : UInt32
  key : CString
  value : Option CString

/-- The values of the kinds that are asked for. -/
def selected (held : List HeldValue) (a_kind : UInt32) : List HeldValue := held.filter (fun v => v.kind &&& a_kind ≠ 0)

/-- `std::unordered_map::insert` -/
def insertNew (m : StringMap) (key value : Bytes) : StringMap :=
  if (m.lookup key).isSome then m else m ++ [(key, value)]

/-- `key_value_func`; `none` is the exception of `std::string(nullptr)`. -/
def key_value_func (m_key_value_map : StringMap) (v : HeldValue) : Option StringMap :=
  v.value.map (fun value => insertNew m_key_value_map v.key.bytes value.bytes)

/-- `MHD_get_connection_values` with it: the map behind the last call, and whether an exception went through. -/
def getConnectionValues : StringMap → List HeldValue → StringMap × Bool
  | m, [] => (m, false)
  | m, v :: vs =>
    match key_value_func m v with
    | some m' => getConnectionValues m' vs
    | none => (m, true)

/-- `connection_c::values`: the caller's map, whether it threw, and the connection. -/
def values (held : List HeldValue) (a_kind : UInt32) (a_values_map : StringMap) (conn : ConnectionC) :
    StringMap × Bool × ConnectionC :=
  match getConnectionValues conn.m_key_value_map (selected held a_kind) with
  | (m, true) => (a_values_map, true, { conn with m_key_value_map := m })
  | (m, false) => (m, false, { conn with m_key_value_map := [] })

/-! ## Calls one after the other -/

/-- A call: what libmicrohttpd has at the time, the kind, and what is in the caller's map. -/
structure ValuesEvent where
  held : List HeldValue
  a_kind : UInt32
  a_values_map : StringMap

/-- The connection, and the calls that returned with their results. -/
structure Asked where
  conn : ConnectionC
  answers : List (ValuesEvent × StringMap)

def valuesStep (s : Asked) (e : ValuesEvent) : Option Asked :=
  match values e.held e.a_kind e.a_values_map s.conn with
  | (_, true, conn) => some { s with conn := conn }
  | (m, false, conn) => some { conn := conn, answers := s.answers ++ [(e, m)] }

/-! ## What a caller wants -/

/-- The first value of a key. -/
def firstOf (vs : List HeldValue) (key : Bytes) : Option Bytes :=
  (vs.find? (fun v => v.key.bytes = key)).bind (fun v => v.value.map CString.bytes)

/-- A result has the first value of every key, and every key once. -/
def Right (answer : ValuesEvent × StringMap) : Prop :=
  (∀ key, answer.2.lookup key = firstOf (selected answer.1.held answer.1.a_kind) key) ∧
    (answer.2.map Prod.fst).Nodup

/-- All results so far are right, and nothing is left for the next call. -/
structure Isolated (s : Asked) : Prop where
  empty : s.conn.m_key_value_map = []
  right : ∀ answer ∈ s.answers, Right answer

/-- No value is missing, or nothing stands in front of the first one that is. -/
def Undisturbed (e : ValuesEvent) : Prop :=
  (∀ v ∈ selected e.held e.a_kind, v.value.isSome) ∨ ∃ v ∈ (selected e.held e.a_kind).head?, v.value = none

variable {m : StringMap} {vs : List HeldValue} {key : Bytes}

theorem lookup_insertNew (m : StringMap) (k v key : Bytes) :
    (insertNew m k v).lookup key = (m.lookup key).or (if key = k then some v else none) := by
  unfold insertNew
  by_cases hm : (m.lookup k).isSome = true
  · rw [if_pos hm]
    by_cases hkey : key = k
    · obtain ⟨w, hw⟩ := Option.isSome_iff_exists.mp hm
      rw [hkey, hw, Option.some_or]
    · rw [if_neg hkey, Option.or_none]
  · rw [if_neg hm, List.lookup_append]
    congr 1
    by_cases hkey : key = k
    · rw [if_pos hkey, hkey, List.lookup_cons_self]
    · rw [if_neg hkey, List.lookup_cons, beq_false_of_ne hkey]
      rfl

theorem nodup_insertNew (k v : Bytes) (h : (m.map Prod.fst).Nodup) : ((insertNew m k v).map Prod.fst).Nodup := by
  unfold insertNew
  by_cases hm : (m.lookup k).isSome = true
  · rw [if_pos hm]
    exact h
  · rw [if_neg hm, List.map_append]
    refine List.nodup_append.mpr ⟨h, by simp, ?_⟩
    intro a ha b hb hab
    obtain ⟨e, he, rfl⟩ := List.mem_map.mp ha
    have hnone : m.lookup k = none := Option.not_isSome_iff_eq_none.mp hm
    have hne := List.lookup_eq_none_iff.mp hnone e he
    have hk : e.1 = k := hab.trans (List.mem_singleton.mp hb)
    simp [hk] at hne

/-- What is in the map stays in it. -/
theorem insertNew_ne_nil (m : StringMap) (k v : Bytes) : insertNew m k v ≠ [] := by
  intro hnil
  have hlookup := lookup_insertNew m k v k
  rw [hnil, if_pos rfl] at hlookup
  cases hk : m.lookup k <;> simp [hk] at hlookup

theorem getConnectionValues_cons {v : HeldValue} {value : CString} (h : v.value = some value) (m : StringMap)
    (vs : List HeldValue) :
    getConnectionValues m (v :: vs) = getConnectionValues (insertNew m v.key.bytes value.bytes) vs := by
  simp only [getConnectionValues, key_value_func, h, Option.map_some]

theorem getConnectionValues_missing {v : HeldValue} (h : v.value = none) (m : StringMap) (vs : List HeldValue) :
    getConnectionValues m (v :: vs) = (m, true) := by
  simp only [getConnectionValues, key_value_func, h, Option.map_none]

theorem firstOf_cons {v : HeldValue} {value : CString} (h : v.value = some value) (vs : List HeldValue) :
    firstOf (v :: vs) key = (if key = v.key.bytes then some value.bytes else none).or (firstOf vs key) := by
  unfold firstOf
  by_cases hkey : key = v.key.bytes
  · rw [if_pos hkey, List.find?_cons_of_pos (by simpa using hkey.symm), Option.bind_some, h]
    rfl
  · rw [if_neg hkey, List.find?_cons_of_neg (by simpa using fun h => hkey h.symm), Option.none_or]

/-- **The values are collected** behind those that were there, and an exception comes of one that is missing. -/
theorem getConnectionValues_spec (m : StringMap) (vs : List HeldValue) :
    ((getConnectionValues m vs).2 = false ↔ ∀ v ∈ vs, v.value.isSome) ∧
      ((getConnectionValues m vs).2 = false → ∀ key,
        (getConnectionValues m vs).1.lookup key = (m.lookup key).or (firstOf vs key)) ∧
      ((m.map Prod.fst).Nodup → ((getConnectionValues m vs).1.map Prod.fst).Nodup) := by
  induction vs generalizing m with
  | nil => exact ⟨by simp [getConnectionValues], fun _ key => Option.or_none.symm, fun h => h⟩
  | cons v vs ih =>
      cases hvalue : v.value with
      | none =>
          rw [getConnectionValues_missing hvalue]
          refine ⟨⟨fun h => (Bool.noConfusion h), fun h => ?_⟩, fun h => (Bool.noConfusion h), fun h => h⟩
          have hv := h v List.mem_cons_self
          rw [hvalue] at hv
          cases hv
      | some value =>
          rw [getConnectionValues_cons hvalue]
          obtain ⟨hthrew, hlookup, hnodup⟩ := ih (insertNew m v.key.bytes value.bytes)
          refine ⟨?_, fun h key => ?_, fun h => hnodup (nodup_insertNew _ _ h)⟩
          · rw [hthrew, List.forall_mem_cons, hvalue]
            simp
          · rw [hlookup h, lookup_insertNew, firstOf_cons hvalue, Option.or_assoc]

/-- What has been collected when an exception comes. -/
theorem getConnectionValues_ne_nil (vs : List HeldValue) (h : m ≠ []) : (getConnectionValues m vs).1 ≠ [] := by
  induction vs generalizing m with
  | nil => exact h
  | cons v vs ih =>
      cases hvalue : v.value with
      | none =>
          rw [getConnectionValues_missing hvalue]
          exact h
      | some value =>
          rw [getConnectionValues_cons hvalue]
          exact ih (insertNew_ne_nil _ _ _)

theorem getConnectionValues_eq_nil (h : (getConnectionValues [] vs).2 = true) :
    (getConnectionValues [] vs).1 = [] ↔ ∃ v ∈ vs.head?, v.value = none := by
  cases vs with
  | nil => cases h
  | cons v vs =>
      cases hvalue : v.value with
      | none =>
          rw [getConnectionValues_missing hvalue]
          exact ⟨fun _ => ⟨v, rfl, hvalue⟩, fun _ => rfl⟩
      | some value =>
          rw [getConnectionValues_cons hvalue]
          constructor
          · intro hnil
            exact absurd hnil (getConnectionValues_ne_nil vs (insertNew_ne_nil _ _ _))
          · rintro ⟨u, hu, hnone⟩
            obtain rfl := Option.some.inj hu
            rw [hvalue] at hnone
            cases hnone

/-- One call. -/
theorem valuesStep_iff {s s' : Asked} {e : ValuesEvent} (hs : Isolated s) (h : valuesStep s e = some s') :
    Isolated s' ↔ Undisturbed e := by
  obtain ⟨hthrew, hlookup, hnodup⟩ := getConnectionValues_spec [] (selected e.held e.a_kind)
  unfold valuesStep values at h
  rw [hs.empty] at h
  rcases hcall : getConnectionValues [] (selected e.held e.a_kind) with ⟨m, threw⟩
  rw [hcall] at h hthrew hlookup hnodup
  cases threw with
  | true =>
      obtain rfl := Option.some.inj h
      have hthrow : (getConnectionValues [] (selected e.held e.a_kind)).2 = true := by rw [hcall]
      have hleft := getConnectionValues_eq_nil hthrow
      rw [hcall] at hleft
      have hmissing : ¬ ∀ v ∈ selected e.held e.a_kind, v.value.isSome := fun hall => Bool.noConfusion (hthrew.mpr hall)
      constructor
      · intro hs'
        exact .inr (hleft.mp hs'.empty)
      · rintro (hall | hfirst)
        · exact absurd hall hmissing
        · exact ⟨hleft.mpr hfirst, hs.right⟩
  | false =>
      obtain rfl := Option.some.inj h
      refine ⟨fun _ => .inl (hthrew.mp rfl), fun _ => ⟨rfl, fun answer hmem => ?_⟩⟩
      rcases List.mem_append.mp hmem with hold | hnew
      · exact hs.right answer hold
      · obtain rfl := List.mem_singleton.mp hnew
        exact ⟨fun key => (hlookup rfl key).trans Option.none_or, hnodup List.nodup_nil⟩

/-- **The values of a connection.** In every run of calls of `values` on a connection, for whatever kinds and with
    whatever libmicrohttpd has at the time of each, every call that returns has the first value of each key of its
    kinds and nothing else, and leaves nothing behind, exactly if in no call a missing value stands behind another
    value. -/
theorem values_right_iff (conn : ConnectionC) (hconn : conn.m_key_value_map = []) (events : List ValuesEvent) :
    Throughout valuesStep Isolated ⟨conn, []⟩ events ↔ Along valuesStep (fun _ e => Undisturbed e) ⟨conn, []⟩ events := by
  refine throughout_iff_along (fun s hs => hs) (fun s e s' hs he h => (valuesStep_iff hs h).mpr he)
    (fun s e s' hs h hs' => (valuesStep_iff hs h).mp hs') ⟨hconn, ?_⟩
  intro answer h
  cases h

/-- `GET /list?a=1&b` of a host. -/
def getConnection : ConnectionC :=
  { m_srv_ptr := 1
    m_conn_type := .get
    m_conn_ptr := 2
    m_key_value_map := []
    m_user_data := 0
    m_url := ⟨literal "/list", by decide⟩
    m_method := ⟨literal "GET", by decide⟩
    m_version := ⟨literal "HTTP/1.0", by decide⟩
    m_upload_data := []
    m_upload_data_size := 0 }

def getValues : List HeldValue :=
  [⟨1, ⟨literal "Host", by decide⟩, some ⟨literal "x", by decide⟩⟩, ⟨8, ⟨literal "a", by decide⟩, some ⟨literal "1", by decide⟩⟩,
    ⟨8, ⟨literal "b", by decide⟩, .none⟩]

/-- The arguments are asked for, then the header. -/
def argumentsThenHeader : List ValuesEvent := [⟨getValues, 8, []⟩, ⟨getValues, 1, []⟩]

theorem values_right_iff_arguments :
    Throughout valuesStep Isolated ⟨getConnection, []⟩ argumentsThenHeader ↔
      Along valuesStep (fun _ e => Undisturbed e) ⟨getConnection, []⟩ argumentsThenHeader :=
  values_right_iff getConnection rfl argumentsThenHeader

-- the header's map has an argument in it
example : ((run valuesStep ⟨getConnection, []⟩ argumentsThenHeader).map (fun s => s.answers.map Prod.snd))
    = some [[(literal "a", literal "1"), (literal "Host", literal "x")]] := by decide

end Cclhttp
end Cclib
