import LiveOrder.Proofs.Store.Nearest
import LiveOrder.Store.Basic
import Mathlib.Data.List.Nodup

/-!
# Ledgers

The plainest thing that a store could be: a list of rows in the order in which they were entered,
and the serial of the next one.  No links, no counts, nothing of what was removed.

* `Row`       serial, key and value of an entry; `Row.Sorted`, rows in the order of their serials;
* `Ledger`    rows and the next serial, with the operations of a store as operations on lists;
* `Ledger.after`   the first row after a position, which is all that a cursor needs;
* `Ledger.Sound`   no serial and no key twice; then `row?_upsert`, `row?_remove` say what an operation
                   makes of the row of a serial.
-/

namespace LiveOrder

structure Row (ν : Type) where
  serial : Nat
  key : Key
  value : ν

namespace Row

variable {ν : Type}

def pair (r : Row ν) : Key × ν := (r.key, r.value)

def revalued (f : ν → ν) (r : Row ν) : Row ν := { r with value := f r.value }

def Sorted (l : List (Row ν)) : Prop := l.Pairwise fun a b => a.serial < b.serial

/-- Rows in order are determined by which there are. -/
theorem Sorted.ext {l m : List (Row ν)} (hl : Sorted l) (hm : Sorted m)
    (h : ∀ r, r ∈ l ↔ r ∈ m) : l = m := by
  have hnodup : ∀ k : List (Row ν), Sorted k → k.Nodup := fun k hk =>
    hk.imp fun hlt e => by
      rw [e] at hlt
      exact Nat.lt_irrefl _ hlt
  have hperm : l.Perm m := (List.perm_ext_iff_of_nodup (hnodup l hl) (hnodup m hm)).mpr h
  exact hperm.eq_of_pairwise (fun _ _ _ _ hab hba => absurd hab (Nat.lt_asymm hba)) hl hm

/-- The first row with a property has the least serial of them. -/
theorem Sorted.find?_eq_some {l : List (Row ν)} (hl : Sorted l) {p : Row ν → Bool} {r : Row ν}
    (hr : r ∈ l) (hp : p r = true) (hmin : ∀ q ∈ l, p q = true → r.serial ≤ q.serial) :
    l.find? p = some r := by
  induction l with
  | nil => cases hr
  | cons a rest ih =>
    obtain ⟨hlt, hrest⟩ := List.pairwise_cons.mp hl
    rw [List.find?_cons]
    rcases List.mem_cons.mp hr with rfl | hr
    · rw [hp]
    · have hpa : p a = false := by
        cases hpa : p a with
        | false => rfl
        | true =>
          have h1 := hmin a List.mem_cons_self hpa
          have h2 := hlt r hr
          omega
      rw [hpa]
      exact ih hrest hr fun q hq => hmin q (List.mem_cons_of_mem _ hq)

end Row

structure Ledger (ν : Type) where
  rows : List (Row ν)
  /-- the serial of the next new key -/
  fresh : Nat

namespace Ledger

variable {ν : Type}

def empty : Ledger ν := ⟨[], 0⟩

/-- The row of an equal key. -/
def find? (l : Ledger ν) (k : Key) : Option (Row ν) :=
  l.rows.find? fun r => r.key.token = k.token

def row? (l : Ledger ν) (s : Nat) : Option (Row ν) := l.rows.find? (·.serial = s)

def revalued (l : Ledger ν) (s : Nat) (f : ν → ν) : Ledger ν :=
  { l with rows := l.rows.map fun r => if r.serial = s then r.revalued f else r }

/-- A new key comes last and gets the next serial; the row of an equal key has its value
replaced. -/
def upsert (l : Ledger ν) (k : Key) (v : ν) : Upsert ν × Ledger ν :=
  match l.find? k with
  | some r => (.updated r.serial k r.value, l.revalued r.serial fun _ => v)
  | none => (.inserted l.fresh, ⟨l.rows ++ [⟨l.fresh, k, v⟩], l.fresh + 1⟩)

def remove (l : Ledger ν) (k : Key) : Ledger ν :=
  { l with rows := l.rows.filter fun r => r.key.token ≠ k.token }

def clear (l : Ledger ν) : Ledger ν := { l with rows := [] }

/-- The first row after a position. -/
def after (l : Ledger ν) (at? : Option Nat) : Option (Row ν) :=
  l.rows.find? fun r => After at? r.serial

/-! ## rows of a sound ledger -/

/-- Rows in order, each under a serial that was handed out and under a key of its own. -/
structure Sound (l : Ledger ν) : Prop where
  sorted : Row.Sorted l.rows
  below : ∀ r ∈ l.rows, r.serial < l.fresh
  tokens : (l.rows.map fun r => r.key.token).Nodup

variable {l : Ledger ν} {r q : Row ν} {s : Nat} {k : Key}

theorem row?_revalued (l : Ledger ν) (u : Nat) (f : ν → ν) (s : Nat) :
    (l.revalued u f).row? s = (l.row? s).map fun r => if r.serial = u then r.revalued f else r := by
  have hserial : ∀ r : Row ν, (if r.serial = u then r.revalued f else r).serial = r.serial := by
    intro r
    split <;> rfl
  show (l.rows.map _).find? _ = _
  rw [List.find?_map]
  simp only [Function.comp_def, hserial]
  rfl

section
variable (h : l.Sound)
include h

theorem Sound.eq_of_token (hr : r ∈ l.rows) (hq : q ∈ l.rows) (e : r.key.token = q.key.token) :
    r = q :=
  List.inj_on_of_nodup_map h.tokens hr hq e

theorem Sound.row?_eq_some_iff : l.row? s = some r ↔ r ∈ l.rows ∧ r.serial = s := by
  constructor
  · intro hr
    exact ⟨List.mem_of_find?_eq_some hr, by simpa using List.find?_some hr⟩
  · rintro ⟨hr, hs⟩
    apply h.sorted.find?_eq_some hr (decide_eq_true hs)
    intro q _ hq
    exact Nat.le_of_eq (hs.trans (of_decide_eq_true hq).symm)

theorem Sound.find?_eq_some_iff : l.find? k = some r ↔ r ∈ l.rows ∧ r.key.token = k.token := by
  constructor
  · intro hr
    exact ⟨List.mem_of_find?_eq_some hr, by simpa using List.find?_some hr⟩
  · rintro ⟨hr, hk⟩
    apply h.sorted.find?_eq_some hr (decide_eq_true hk)
    intro q hq hqk
    exact Nat.le_of_eq (congrArg _ (h.eq_of_token hr hq (hk.trans (of_decide_eq_true hqk).symm)))

/-- A row is known by its serial as well as by its key. -/
theorem Sound.serial_eq_iff (hr : r ∈ l.rows) (hq : q ∈ l.rows) :
    r.serial = q.serial ↔ r.key.token = q.key.token := by
  constructor
  · intro e
    have hrow := h.row?_eq_some_iff.mpr ⟨hr, e⟩
    rw [h.row?_eq_some_iff.mpr ⟨hq, rfl⟩, Option.some.injEq] at hrow
    rw [hrow]
  · intro e
    rw [h.eq_of_token hr hq e]

/-- A serial that was handed out keeps its row, with the new value if the key is equal. -/
theorem Sound.row?_upsert (hs : s < l.fresh) (k : Key) (v : ν) :
    (l.upsert k v).2.row? s =
      (l.row? s).map fun r => if r.key.token = k.token then r.revalued fun _ => v else r := by
  rw [upsert]
  cases hk : l.find? k with
  | some q =>
    obtain ⟨hq, hqk⟩ := h.find?_eq_some_iff.mp hk
    show (l.revalued q.serial _).row? s = _
    rw [row?_revalued]
    apply Option.map_congr
    intro r hr
    have hmem := (h.row?_eq_some_iff.mp hr).1
    have hsame : r.serial = q.serial ↔ r.key.token = k.token := by
      rw [h.serial_eq_iff hmem hq, hqk]
    simp only [hsame]
  | none =>
    have hother : ¬l.fresh = s := by omega
    have hnew : (⟨l.rows ++ [⟨l.fresh, k, v⟩], l.fresh + 1⟩ : Ledger ν).row? s = l.row? s := by
      rw [row?, List.find?_append, List.find?_singleton, decide_eq_false hother]
      exact Option.or_none
    rw [hnew]
    cases hr : l.row? s with
    | none => rfl
    | some r =>
      have hno := List.find?_eq_none.mp hk r (h.row?_eq_some_iff.mp hr).1
      rw [decide_eq_true_eq] at hno
      rw [Option.map_some, if_neg hno]

theorem Sound.row?_remove (k : Key) (s : Nat) :
    (l.remove k).row? s = (l.row? s).filter fun r => r.key.token ≠ k.token := by
  show (l.rows.filter _).find? _ = _
  cases hr : l.row? s with
  | none =>
    apply List.find?_eq_none.mpr
    intro q hq
    exact List.find?_eq_none.mp hr q (List.mem_filter.mp hq).1
  | some r =>
    obtain ⟨hmem, hserial⟩ := h.row?_eq_some_iff.mp hr
    by_cases hk : r.key.token = k.token
    · rw [Option.filter_some, if_neg (by simpa using hk)]
      apply List.find?_eq_none.mpr
      intro q hq
      obtain ⟨hq, hqk⟩ := List.mem_filter.mp hq
      intro hqs
      -- only one row has the serial, and it was taken out
      rw [h.row?_eq_some_iff.mpr ⟨hq, of_decide_eq_true hqs⟩, Option.some.injEq] at hr
      rw [hr, decide_eq_true_eq] at hqk
      exact hqk hk
    · rw [Option.filter_some, if_pos (by simpa using hk)]
      have hkept : r ∈ l.rows.filter fun r => r.key.token ≠ k.token :=
        List.mem_filter.mpr ⟨hmem, decide_eq_true hk⟩
      have hsorted : Row.Sorted (l.rows.filter fun r => r.key.token ≠ k.token) :=
        h.sorted.sublist List.filter_sublist
      apply hsorted.find?_eq_some hkept (decide_eq_true hserial)
      intro q _ hq
      exact Nat.le_of_eq (hserial.trans (of_decide_eq_true hq).symm)

end

end Ledger

end LiveOrder
