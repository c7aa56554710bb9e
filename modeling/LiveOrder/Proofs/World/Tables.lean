import Mathlib.Algebra.BigOperators.Group.List.Basic
import Mathlib.Data.List.Nodup
import LiveOrder.World.Basic

/-!
# Tables

A table is a list of rows.  When no key has two rows, a row can be taken out of the table and the
rest is what `erase` leaves.

* `Table.Distinct`     no two rows of one key;
* `get?_change`, `get?_append`   lookups after a change;
* `Table.total`        something of every row, added up; `total_of_get?`, `total_put`, `total_change`
                       and `total_append` say what one row adds.
-/

namespace LiveOrder.Table

section
variable {κ α : Type} [DecidableEq κ] {t : List (κ × α)} {k : κ} {a : α}

def Distinct (t : List (κ × α)) : Prop := (t.map (·.1)).Nodup

/-! ## lookups -/

/-- A change of a row that may not be there. -/
theorem get?_change (k j : κ) (f : α → α) (t : List (κ × α)) :
    get? j (change k f t) = if j = k then (get? j t).map f else get? j t := by
  unfold get? change
  induction t with
  | nil => simp
  | cons row rows ih =>
    rw [List.map_cons, List.find?_cons, List.find?_cons]
    by_cases hk : row.1 = k
    · rw [if_pos hk]
      by_cases hj : j = k
      · simp [hj, hk]
      · have hne : ¬row.1 = j := fun e => hj (e ▸ hk)
        have hne' : ¬k = j := fun e => hj e.symm
        simp only [hne, hne', decide_false]
        exact ih
    · rw [if_neg hk]
      by_cases hj : row.1 = j
      · have hne : ¬j = k := fun e => hk (hj.trans e)
        simp [hj, hne]
      · simp only [hj, decide_false]
        exact ih

theorem get?_append (j k : κ) (a : α) (t : List (κ × α)) :
    get? j (t ++ [(k, a)]) =
      match get? j t with
      | some b => some b
      | none => if j = k then some a else none := by
  unfold get?
  rw [List.find?_append]
  cases h : t.find? (·.1 = j) with
  | some row => rfl
  | none =>
    by_cases hj : j = k
    · simp [hj]
    · simp [hj, Ne.symm hj]

theorem get?_eq_none_iff : get? k t = none ↔ k ∉ t.map (·.1) := by
  unfold get?
  rw [Option.map_eq_none_iff, List.find?_eq_none, List.mem_map]
  constructor
  · intro h ⟨row, hrow, hk⟩
    exact h row hrow (decide_eq_true hk)
  · intro h row hrow hk
    exact h ⟨row, hrow, of_decide_eq_true hk⟩

theorem mem_of_get? (h : get? k t = some a) : (k, a) ∈ t := by
  obtain ⟨row, hrow, rfl⟩ := Option.map_eq_some_iff.mp h
  have hk := List.find?_some hrow
  rw [decide_eq_true_eq] at hk
  exact hk ▸ List.mem_of_find?_eq_some hrow

theorem get?_of_mem (h : Distinct t) (hm : (k, a) ∈ t) : get? k t = some a := by
  induction t with
  | nil => exact absurd hm List.not_mem_nil
  | cons row rows ih =>
    have hnodup := List.nodup_cons.mp h
    unfold get?
    rw [List.find?_cons]
    rcases List.mem_cons.mp hm with rfl | hm
    · simp
    · have hne : ¬row.1 = k := fun e => hnodup.1 (List.mem_map.mpr ⟨_, hm, e.symm⟩)
      simp only [hne, decide_false]
      exact ih hnodup.2 hm

/-! ## one row and the rest -/

theorem erase_of_get?_eq_none (h : get? k t = none) : erase k t = t := by
  refine List.filter_eq_self.mpr fun row hrow => decide_eq_true fun e => ?_
  exact get?_eq_none_iff.mp h (List.mem_map.mpr ⟨row, hrow, e⟩)

theorem perm_of_get? (h : Distinct t) (hk : get? k t = some a) : t.Perm ((k, a) :: erase k t) := by
  induction t with
  | nil => cases hk
  | cons row rows ih =>
    have hnodup := List.nodup_cons.mp h
    by_cases hrow : row.1 = k
    · have hget : get? k (row :: rows) = some row.2 := by simp [get?, hrow]
      have hnone : get? k rows = none := get?_eq_none_iff.mpr (hrow ▸ hnodup.1)
      have herase : erase k (row :: rows) = erase k rows := by simp [erase, hrow]
      rw [herase, erase_of_get?_eq_none hnone, ← Option.some.inj (hget.symm.trans hk), ← hrow]
    · have hget : get? k (row :: rows) = get? k rows := by simp [get?, hrow]
      have herase : erase k (row :: rows) = row :: erase k rows := by simp [erase, hrow]
      rw [herase]
      exact ((ih hnodup.2 (hget.symm.trans hk)).cons row).trans (.swap _ _ _)

theorem change_change (k : κ) (f g : α → α) (t : List (κ × α)) :
    change k f (change k g t) = change k (fun a => f (g a)) t := by
  unfold change
  rw [List.map_map]
  refine List.map_congr_left fun row _ => ?_
  rw [Function.comp_apply]
  by_cases hk : row.1 = k
  · rw [if_pos hk, if_pos rfl, if_pos hk]
  · rw [if_neg hk, if_neg hk, if_neg hk]

theorem map_fst_change (k : κ) (f : α → α) (t : List (κ × α)) :
    (change k f t).map (·.1) = t.map (·.1) := by
  unfold change
  rw [List.map_map]
  refine List.map_congr_left fun row _ => ?_
  rw [Function.comp_apply]
  split
  · rename_i h
    exact h.symm
  · rfl

theorem erase_change (k : κ) (f : α → α) (t : List (κ × α)) : erase k (change k f t) = erase k t := by
  induction t with
  | nil => rfl
  | cons row rows ih =>
    unfold erase change at ih ⊢
    rw [List.map_cons]
    by_cases hk : row.1 = k
    · rw [if_pos hk]
      simpa [hk] using ih
    · rw [if_neg hk]
      simpa [hk] using ih

/-! ## distinct rows -/

/-- A change that leaves the row of its key as it is changes nothing. -/
theorem Distinct.change_eq_self (h : Distinct t) {f : α → α} (hk : get? k t = some a)
    (hf : f a = a) : Table.change k f t = t := by
  refine (List.map_congr_left fun row hrow => ?_).trans (List.map_id t)
  split
  · rename_i he
    have hrow' : get? k t = some row.2 := get?_of_mem h (he ▸ hrow)
    rw [hk] at hrow'
    cases hrow'
    rw [hf, ← he]
    rfl
  · rfl

theorem Distinct.erase (h : Distinct t) (k : κ) : Distinct (erase k t) :=
  (List.filter_sublist.map _).nodup h

theorem Distinct.put (h : Distinct t) (k : κ) (a : α) : Distinct (put k a t) := by
  refine List.nodup_cons.mpr ⟨fun hk => ?_, h.erase k⟩
  obtain ⟨row, hrow, he⟩ := List.mem_map.mp hk
  exact of_decide_eq_true (List.mem_filter.mp hrow).2 he

theorem Distinct.change (h : Distinct t) (k : κ) (f : α → α) : Distinct (change k f t) := by
  unfold Distinct
  rw [map_fst_change]
  exact h

theorem Distinct.append (h : Distinct t) (hk : get? k t = none) (a : α) :
    Distinct (t ++ [(k, a)]) := by
  unfold Distinct
  rw [List.map_append]
  refine List.Nodup.append h (List.nodup_singleton _) fun j hj hj' => ?_
  rw [List.mem_singleton.mp hj'] at hj
  exact get?_eq_none_iff.mp hk hj

end

/-! ## totals -/

section
variable {κ α M : Type} [AddCommMonoid M] {t : List (κ × α)} {k : κ} {a : α}

def total (f : α → M) (t : List (κ × α)) : M := (t.map fun row => f row.2).sum

@[simp] theorem total_nil (f : α → M) : total f ([] : List (κ × α)) = 0 := rfl

theorem total_cons (f : α → M) (row : κ × α) (t : List (κ × α)) :
    total f (row :: t) = f row.2 + total f t := by
  unfold total
  rw [List.map_cons, List.sum_cons]

theorem total_append (f : α → M) (k : κ) (a : α) (t : List (κ × α)) :
    total f (t ++ [(k, a)]) = total f t + f a := by
  unfold total
  rw [List.map_append, List.sum_append, List.map_singleton, List.sum_singleton]

variable [DecidableEq κ]

theorem total_of_get? (f : α → M) (h : Distinct t) (hk : get? k t = some a) :
    total f t = f a + total f (erase k t) := by
  rw [← total_cons f (k, a)]
  exact ((perm_of_get? h hk).map _).sum_eq

/-- A row that may not be there. -/
theorem total_take (f : α → M) (h : Distinct t) (k : κ) :
    total f t = (get? k t).elim 0 f + total f (erase k t) := by
  cases hk : get? k t with
  | none => rw [erase_of_get?_eq_none hk, Option.elim_none, zero_add]
  | some a => exact total_of_get? f h hk

theorem total_put (f : α → M) (k : κ) (a : α) (t : List (κ × α)) :
    total f (put k a t) = f a + total f (erase k t) := total_cons f (k, a) _

theorem total_change (f : α → M) (h : Distinct t) (hk : get? k t = some a) (g : α → α) :
    total f (change k g t) = f (g a) + total f (erase k t) := by
  have hget : get? k (change k g t) = some (g a) := by
    rw [get?_change, if_pos rfl, hk]
    rfl
  rw [total_of_get? f (h.change k g) hget, erase_change]

end

end LiveOrder.Table
