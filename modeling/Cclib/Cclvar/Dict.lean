import Cclib.Cclvar.Order
import Mathlib.Data.List.Induction

/-!
# `Cclvar.Dict` — dicts with string keys

`std::map::insert` into a `dict_t`, on its in-order sequence of entries, for the dicts the JSON parser
builds: their keys are strings, which `var_c::operator<` orders whatever the floats are. `insertAll`
inserts entries one after the other; `firstOccurrences_insertAll` says that every key keeps its first
value.
-/

namespace Cclib
namespace Cclvar
namespace VarC

open Compare

variable {F : Type} [LT F] [DecidableLT F]

/-- `dict_t::insert`: an entry whose key is already there is dropped. -/
def dictInsert (e : VarC F × VarC F) : List (VarC F × VarC F) → List (VarC F × VarC F)
  | [] => [e]
  | d :: ds =>
    if Lt d.1 e.1 then d :: dictInsert e ds
    else if Lt e.1 d.1 then e :: d :: ds
    else d :: ds

/-- Insert entries into an empty dict. -/
def insertAll (es : List (VarC F × VarC F)) : List (VarC F × VarC F) :=
  es.foldl (fun ds e => dictInsert e ds) []

theorem insertAll_append (es es' : List (VarC F × VarC F)) :
    insertAll (es ++ es') = es'.foldl (fun ds e => dictInsert e ds) (insertAll es) := List.foldl_append

/-- The keys are strictly increasing. -/
def KeysSorted (ds : List (VarC F × VarC F)) : Prop := ds.Pairwise (fun a b => Lt a.1 b.1)

/-- The keys are strings. -/
def StringKeys (ds : List (VarC F × VarC F)) : Prop := ∀ d ∈ ds, ∃ s, d.1 = .string s

/-- `ds` is the dict that gives every key of `es` the value of its first occurrence. -/
structure FirstOccurrences (es ds : List (VarC F × VarC F)) : Prop where
  sorted : KeysSorted ds
  mem_iff (k v : VarC F) : (k, v) ∈ ds ↔
    ∃ before after, es = before ++ (k, v) :: after ∧ ∀ e ∈ before, e.1 ≠ k

/-! ## Strings as keys -/

theorem lt_string {a b : StringT} : Lt (.string a : VarC F) (.string b) ↔ a < b := ofLT_lt_iff

theorem eq_of_not_lt_string {a b : StringT} (h : ¬ Lt (.string a : VarC F) (.string b))
    (h' : ¬ Lt (.string b : VarC F) (.string a)) : a = b :=
  Std.Trichotomous.trichotomous (r := fun a b : StringT => a < b) a b
    (fun hlt => h (lt_string.mpr hlt)) (fun hlt => h' (lt_string.mpr hlt))

theorem ne_of_lt_string {a b : StringT} (h : Lt (.string a : VarC F) (.string b)) : a ≠ b := by
  rintro rfl
  have hlt := lt_string.mp h
  exact Std.Asymm.asymm (r := fun a b : StringT => a < b) a a hlt hlt

theorem lt_string_trans {a b c : StringT} (h : Lt (.string a : VarC F) (.string b))
    (h' : Lt (.string b : VarC F) (.string c)) : Lt (.string a : VarC F) (.string c) :=
  lt_string.mpr (Trans.trans (lt_string.mp h) (lt_string.mp h'))

variable {k v : VarC F} {s : StringT} {d e : VarC F × VarC F} {es ds : List (VarC F × VarC F)}

theorem dictInsert_string (hs : e.1 = .string s) (hds : StringKeys ds) : StringKeys (dictInsert e ds) := by
  induction ds with
  | nil =>
      intro x hx
      rw [List.mem_singleton.mp hx]
      exact ⟨s, hs⟩
  | cons d ds ih =>
      have hd := hds d List.mem_cons_self
      have hds' : StringKeys ds := fun x hx => hds x (List.mem_cons_of_mem _ hx)
      unfold dictInsert
      split
      · intro x hx
        rcases List.mem_cons.mp hx with rfl | hx
        · exact hd
        · exact ih hds' x hx
      · split
        · intro x hx
          rcases List.mem_cons.mp hx with rfl | hx
          · exact ⟨s, hs⟩
          · exact hds x hx
        · exact hds

/-- Inserting adds the entry, unless its key is there. -/
theorem mem_dictInsert {x : VarC F × VarC F} (hs : e.1 = .string s) (hds : StringKeys ds)
    (hsorted : KeysSorted ds) :
    x ∈ dictInsert e ds ↔ x ∈ ds ∨ (x = e ∧ ∀ d ∈ ds, d.1 ≠ e.1) := by
  induction ds with
  | nil => simp [dictInsert]
  | cons d ds ih =>
      obtain ⟨a, ha⟩ := hds d List.mem_cons_self
      have hds' : StringKeys ds := fun x hx => hds x (List.mem_cons_of_mem _ hx)
      obtain ⟨hd, hsorted'⟩ := List.pairwise_cons.mp hsorted
      unfold dictInsert
      split
      · rename_i hlt
        -- the new key goes behind `d`
        have hne : d.1 ≠ e.1 := by
          rw [ha, hs] at hlt ⊢
          exact fun heq => ne_of_lt_string hlt (VarC.string.inj heq)
        rw [List.mem_cons, List.mem_cons, ih hds' hsorted', or_assoc]
        simp [hne]
      · rename_i hnlt
        split
        · rename_i hlt
          -- the new key goes in front of `d`, and so of every later key
          have hall : ∀ x ∈ d :: ds, x.1 ≠ e.1 := by
            intro x hx
            obtain ⟨b, hb⟩ := hds x hx
            have hxlt : Lt e.1 x.1 := by
              rcases List.mem_cons.mp hx with rfl | hx
              · exact hlt
              · have hdx := hd x hx
                rw [hs, ha] at hlt
                rw [ha, hb] at hdx
                rw [hs, hb]
                exact lt_string_trans hlt hdx
            rw [hs, hb] at hxlt
            rw [hs, hb]
            exact fun heq => ne_of_lt_string hxlt (VarC.string.inj heq).symm
          rw [List.mem_cons, or_comm]
          exact or_congr_right ⟨fun hx => ⟨hx, hall⟩, fun hx => hx.1⟩
        · rename_i hnlt'
          -- `d` has the key, and stays
          have hkey : d.1 = e.1 := by
            rw [ha, hs] at hnlt hnlt' ⊢
            rw [eq_of_not_lt_string hnlt hnlt']
          refine ⟨Or.inl, ?_⟩
          rintro (hx | ⟨rfl, hall⟩)
          · exact hx
          · exact absurd hkey (hall d List.mem_cons_self)

theorem dictInsert_sorted (hs : e.1 = .string s) (hds : StringKeys ds) (hsorted : KeysSorted ds) :
    KeysSorted (dictInsert e ds) := by
  induction ds with
  | nil => exact List.pairwise_singleton _ _
  | cons d ds ih =>
      obtain ⟨a, ha⟩ := hds d List.mem_cons_self
      have hds' : StringKeys ds := fun x hx => hds x (List.mem_cons_of_mem _ hx)
      obtain ⟨hd, hsorted'⟩ := List.pairwise_cons.mp hsorted
      unfold dictInsert
      split
      · rename_i hlt
        refine List.pairwise_cons.mpr ⟨fun x hx => ?_, ih hds' hsorted'⟩
        rcases (mem_dictInsert hs hds' hsorted').mp hx with hx | ⟨rfl, -⟩
        · exact hd x hx
        · exact hlt
      · split
        · rename_i hlt
          refine List.pairwise_cons.mpr ⟨fun x hx => ?_, hsorted⟩
          rcases List.mem_cons.mp hx with rfl | hx'
          · exact hlt
          · obtain ⟨b, hb⟩ := hds x hx
            have hdx := hd x hx'
            rw [hs, ha] at hlt
            rw [ha, hb] at hdx
            rw [hs, hb]
            exact lt_string_trans hlt hdx
        · exact hsorted

omit [LT F] [DecidableLT F] in
/-- A key that occurs has a first occurrence. -/
theorem exists_first (he : e ∈ es) : ∃ before v after, es = before ++ (e.1, v) :: after ∧
    ∀ d ∈ before, d.1 ≠ e.1 := by
  induction es with
  | nil => cases he
  | cons d es ih =>
      by_cases hd : d.1 = e.1
      · exact ⟨[], d.2, es, by rw [← hd]; rfl, by simp⟩
      · rcases List.mem_cons.mp he with rfl | he
        · exact absurd rfl hd
        · obtain ⟨before, v, after, rfl, hbefore⟩ := ih he
          exact ⟨d :: before, v, after, rfl, by simpa [hd] using hbefore⟩

/-- **First occurrences.** Inserting entries with string keys one after the other keeps the first of
    every key. -/
theorem firstOccurrences_insertAll (h : StringKeys es) :
    FirstOccurrences es (insertAll es) ∧ StringKeys (insertAll es) := by
  induction es using List.reverseRecOn with
  | nil => exact ⟨⟨List.Pairwise.nil, by simp [insertAll]⟩, by simp [StringKeys, insertAll]⟩
  | append_singleton es e ih =>
      obtain ⟨s, hs⟩ := h e (by simp)
      obtain ⟨⟨hsorted, hmem⟩, hkeys⟩ := ih (fun x hx => h x (by simp [hx]))
      rw [insertAll_append]
      refine ⟨⟨dictInsert_sorted hs hkeys hsorted, fun k v => ?_⟩, dictInsert_string hs hkeys⟩
      rw [List.foldl_cons, List.foldl_nil, mem_dictInsert hs hkeys hsorted]
      constructor
      · rintro (hkv | ⟨rfl, hnew⟩)
        · obtain ⟨before, after, rfl, hbefore⟩ := (hmem k v).mp hkv
          exact ⟨before, after ++ [e], by simp, hbefore⟩
        · refine ⟨es, [], rfl, fun x hx heq => ?_⟩
          obtain ⟨before, v', after, hes, hbefore⟩ := exists_first hx
          exact hnew (x.1, v') ((hmem _ _).mpr ⟨before, after, hes, hbefore⟩) heq
      · rintro ⟨before, after, heq, hbefore⟩
        rcases List.eq_nil_or_concat after with rfl | ⟨after, e', rfl⟩
        · obtain ⟨rfl, hlast⟩ := List.append_inj' heq rfl
          refine Or.inr ⟨(List.singleton_inj.mp hlast).symm, fun d hd => ?_⟩
          obtain ⟨before', after', hes, -⟩ := (hmem d.1 d.2).mp hd
          rw [List.singleton_inj.mp hlast]
          exact hbefore d (by rw [hes]; simp)
        · rw [List.concat_eq_append, ← List.cons_append, ← List.append_assoc] at heq
          exact Or.inl ((hmem k v).mpr ⟨before, after, (List.append_inj' heq rfl).1, hbefore⟩)

/-- An entry whose key is there is dropped. -/
theorem dictInsert_old (hs : e.1 = .string s) (hds : StringKeys ds) (hsorted : KeysSorted ds)
    (hold : ∃ d ∈ ds, d.1 = e.1) : dictInsert e ds = ds := by
  induction ds with
  | nil =>
      obtain ⟨d, hd, -⟩ := hold
      cases hd
  | cons d ds ih =>
      obtain ⟨a, ha⟩ := hds d List.mem_cons_self
      obtain ⟨hd, hsorted'⟩ := List.pairwise_cons.mp hsorted
      obtain ⟨x, hx, hkey⟩ := hold
      unfold dictInsert
      split
      · rename_i hlt
        rw [ih (fun y hy => hds y (List.mem_cons_of_mem _ hy)) hsorted']
        rcases List.mem_cons.mp hx with rfl | hx
        · rw [ha, hs] at hlt hkey
          exact absurd (VarC.string.inj hkey) (ne_of_lt_string hlt)
        · exact ⟨x, hx, hkey⟩
      · split
        · rename_i hlt
          rcases List.mem_cons.mp hx with rfl | hx
          · rw [ha, hs] at hlt hkey
            exact absurd (VarC.string.inj hkey).symm (ne_of_lt_string hlt)
          · have hdx := hd x hx
            rw [hkey] at hdx
            rw [hs, ha] at hlt hdx
            exact absurd rfl (ne_of_lt_string (lt_string_trans hlt hdx))
        · rfl

/-- An entry with a new key is added. -/
theorem dictInsert_new (hs : e.1 = .string s) (hds : StringKeys ds) (hnew : ∀ d ∈ ds, d.1 ≠ e.1) :
    (dictInsert e ds).Perm (e :: ds) := by
  induction ds with
  | nil => exact List.Perm.refl _
  | cons d ds ih =>
      obtain ⟨a, ha⟩ := hds d List.mem_cons_self
      unfold dictInsert
      split
      · have htail := ih (fun y hy => hds y (List.mem_cons_of_mem _ hy))
          (fun y hy => hnew y (List.mem_cons_of_mem _ hy))
        exact (htail.cons d).trans (List.Perm.swap _ _ _)
      · split
        · exact List.Perm.refl _
        · rename_i hnlt hnlt'
          have hne := hnew d List.mem_cons_self
          rw [ha, hs] at hnlt hnlt' hne
          exact absurd (congrArg _ (eq_of_not_lt_string hnlt hnlt')) hne

/-- Inserting an entry above all others appends it. -/
theorem dictInsert_last (h : ∀ d ∈ ds, Lt d.1 e.1) : dictInsert e ds = ds ++ [e] := by
  induction ds with
  | nil => rfl
  | cons d ds ih =>
      rw [dictInsert, if_pos (h d List.mem_cons_self), ih (fun x hx => h x (List.mem_cons_of_mem _ hx)),
        List.cons_append]

/-- Entries in order are a dict already. -/
theorem insertAll_of_sorted (h : KeysSorted es) : insertAll es = es := by
  induction es using List.reverseRecOn with
  | nil => rfl
  | append_singleton es e ih =>
      obtain ⟨hes, -, hlast⟩ := List.pairwise_append.mp h
      rw [insertAll_append, ih hes, List.foldl_cons, List.foldl_nil,
        dictInsert_last (fun d hd => hlast d hd e (List.mem_singleton_self e))]

end VarC
end Cclvar
end Cclib
