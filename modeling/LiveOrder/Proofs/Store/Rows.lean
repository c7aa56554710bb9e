import LiveOrder.Proofs.Ledger
import LiveOrder.Proofs.Store.Clearing
import LiveOrder.Proofs.Store.Linking

/-!
# The rows of a chain

What a chain is to its user: its live entries, in the order of their serials.

* `Chain.rows`   serial, key and value of every live entry;
* `mem_rows`, `rows_sorted`   rows are known by their members, since their order is fixed;
* `rows_appended`, `rows_revalued`, `rows_unlinked`, `rows_emptied`, `Frees.rows`   after the operations;
* `Chain.Thread`, `Linked.thread`   following the links from the head meets the rows, one by one;
* `walk_spec`, `entries_spec`   so a walk along the links ends, and yields them.
-/

namespace LiveOrder

namespace Slot

variable {ν : Type}

def row (s : Nat) (x : Slot ν) : Row ν := ⟨s, x.key, x.value⟩

end Slot

namespace Chain

variable {ν : Type} {c d : Chain ν} {pins : Nat → Nat} {gone : List Nat} {s : Nat} {x : Slot ν}
  {r : Row ν} {key : Key} {value : ν} {hash : UInt64}

/-! ## rows -/

def row? (c : Chain ν) (s : Nat) : Option (Row ν) := (c.live? s).map (Slot.row s)

def rows (c : Chain ν) : List (Row ν) := c.arena.serials.filterMap c.row?

theorem row?_eq_some_iff :
    c.row? s = some r ↔ ∃ x, c.arena.get? s = some x ∧ x.removed = false ∧ x.row s = r := by
  simp only [row?, Option.map_eq_some_iff, live?_eq_some_iff, and_assoc]

theorem row?_of_live (hx : c.arena.get? s = some x) (hl : x.removed = false) :
    c.row? s = some (x.row s) :=
  row?_eq_some_iff.mpr ⟨x, hx, hl, rfl⟩

theorem serial_of_row? (h : c.row? s = some r) : r.serial = s := by
  obtain ⟨x, _, _, rfl⟩ := row?_eq_some_iff.mp h
  rfl

theorem live_iff_row? : c.Live s ↔ ∃ r, c.row? s = some r := by
  constructor
  · rintro ⟨x, hx, hl⟩
    exact ⟨_, row?_of_live hx hl⟩
  · rintro ⟨r, hr⟩
    obtain ⟨x, hx, hl, _⟩ := row?_eq_some_iff.mp hr
    exact ⟨x, hx, hl⟩

/-- A change that keeps keys, values and liveness is not seen. -/
theorem row?_of_map {f : Slot ν → Slot ν} (h : d.arena.get? s = (c.arena.get? s).map f)
    (hlive : ∀ x, (f x).removed = x.removed) (hrow : ∀ x, (f x).row s = x.row s) :
    d.row? s = c.row? s := by
  rw [row?, row?, live?, live?, h]
  cases c.arena.get? s with
  | none => rfl
  | some x => cases hr : x.removed <;> simp [Option.filter, hlive, hr, hrow]

theorem row?_of_not_live (h : ¬c.Live s) : c.row? s = none := by
  cases hr : c.row? s with
  | none => rfl
  | some r => exact absurd (live_iff_row?.mpr ⟨r, hr⟩) h

theorem mem_rows : r ∈ c.rows ↔ c.row? r.serial = some r := by
  rw [rows, List.mem_filterMap]
  constructor
  · rintro ⟨s, _, hs⟩
    rw [serial_of_row? hs]
    exact hs
  · intro hr
    exact ⟨r.serial, (live_iff_row?.mpr ⟨r, hr⟩).mem, hr⟩

/-- A row is what a live slot shows. -/
theorem slot_of_row (hr : r ∈ c.rows) :
    ∃ x, c.arena.get? r.serial = some x ∧ x.removed = false ∧ x.row r.serial = r :=
  row?_eq_some_iff.mp (mem_rows.mp hr)

theorem row?_eq_of_rows (h : c.rows = d.rows) (s : Nat) : c.row? s = d.row? s := by
  have hmem : ∀ e : Chain ν, ∀ r, e.row? s = some r ↔ r ∈ e.rows ∧ r.serial = s := by
    intro e r
    rw [mem_rows]
    constructor
    · intro hr
      have hs := serial_of_row? hr
      exact ⟨by rwa [hs], hs⟩
    · rintro ⟨hr, rfl⟩
      exact hr
  exact Option.ext fun r => by rw [hmem, hmem, h]

theorem mem_rows_serials : s ∈ c.rows.map (·.serial) ↔ c.Live s := by
  rw [List.mem_map, live_iff_row?]
  constructor
  · rintro ⟨r, hr, rfl⟩
    exact ⟨r, mem_rows.mp hr⟩
  · rintro ⟨r, hr⟩
    have hs := serial_of_row? hr
    exact ⟨r, mem_rows.mpr (by rwa [hs]), hs⟩

theorem rows_sorted (h : c.arena.Sound) : Row.Sorted c.rows := by
  refine List.pairwise_filterMap.mpr (h.increasing.imp fun hlt r hr q hq => ?_)
  rw [serial_of_row? hr, serial_of_row? hq]
  exact hlt

theorem rows_eq_of_row? (hc : c.arena.Sound) (hd : d.arena.Sound)
    (h : ∀ s, d.row? s = c.row? s) : d.rows = c.rows :=
  (rows_sorted hd).ext (rows_sorted hc) fun r => by rw [mem_rows, mem_rows, h]

/-! ## rows after the operations -/

theorem Frees.rows (h : Frees c d gone) (hc : c.arena.Sound) : d.rows = c.rows := by
  refine rows_eq_of_row? hc h.sound fun s => ?_
  by_cases hs : s ∈ gone
  · obtain ⟨x, hx, hr⟩ := h.dead s hs
    have hc := not_live_of_removed hx hr
    rw [row?_of_not_live hc, row?_of_not_live fun hd => hc ((h.live_iff s).mp hd)]
  · obtain ⟨n, hn⟩ := h.rest s hs
    exact row?_of_map hn (fun _ => rfl) fun _ => rfl

theorem rows_appended (h : c.Linked) :
    (c.appended key value hash).rows = c.rows ++ [⟨c.arena.fresh, key, value⟩] := by
  have hlt : ∀ r ∈ c.rows, r.serial < c.arena.fresh := fun r hr =>
    h.lt_fresh (mem_rows_serials.mp (List.mem_map_of_mem hr)).mem
  refine (rows_sorted (h.sound.insert _ |>.modifyAt _ _)).ext ?_ fun r => ?_
  · refine List.pairwise_append.mpr ⟨rows_sorted h.sound, List.pairwise_singleton _ _, ?_⟩
    intro r hr q hq
    rw [List.mem_singleton.mp hq]
    exact hlt r hr
  · have hget : (c.appended key value hash).arena.get? r.serial = _ := get?_appended h r.serial
    rw [List.mem_append, List.mem_singleton, mem_rows, mem_rows]
    by_cases hs : r.serial = c.arena.fresh
    · have hnone : c.row? r.serial = none := by
        refine row?_of_not_live fun hl => h.sound.fresh_notMem ?_
        exact hs ▸ hl.mem
      rw [if_pos hs] at hget
      rw [hnone, row?_of_live hget rfl, hs]
      simp [Slot.row, eq_comm]
    · have hne : r ≠ ⟨c.arena.fresh, key, value⟩ := fun e => hs (by rw [e])
      have hsame : (c.appended key value hash).row? r.serial = c.row? r.serial := by
        rw [if_neg hs] at hget
        split at hget
        · exact row?_of_map hget (fun _ => rfl) fun _ => rfl
        · exact row?_of_map (hget.trans Option.map_id'.symm) (fun _ => rfl) fun _ => rfl
      rw [hsame, or_iff_left hne]

theorem rows_revalued (h : c.arena.Sound) (f : ν → ν) :
    (c.revalued s f).rows =
      c.rows.map fun r => if r.serial = s then r.revalued f else r := by
  refine (rows_sorted (h.modify _ _)).ext ?_ fun r => ?_
  · refine List.pairwise_map.mpr ((rows_sorted h).imp fun {a b} hlt => ?_)
    split <;> split <;> exact hlt
  · have hserial : ∀ q : Row ν,
        (if q.serial = s then q.revalued f else q).serial = q.serial := by
      intro q
      split <;> rfl
    rw [mem_rows, List.mem_map, row?_eq_some_iff]
    constructor
    · rintro ⟨y, hy, hl, hr⟩
      rw [get?_revalued] at hy
      split at hy
      · rename_i hs
        obtain ⟨x, hx, rfl⟩ := Option.map_eq_some_iff.mp hy
        refine ⟨x.row r.serial, mem_rows.mpr (row?_of_live hx hl), ?_⟩
        rw [if_pos (show (x.row r.serial).serial = s from hs), ← hr]
        rfl
      · rename_i hs
        exact ⟨r, mem_rows.mpr (row?_eq_some_iff.mpr ⟨y, hy, hl, hr⟩), if_neg hs⟩
    · rintro ⟨q, hq, rfl⟩
      rw [hserial]
      obtain ⟨x, hx, hl, hr⟩ := slot_of_row hq
      rw [get?_revalued, hx]
      split
      · refine ⟨x.revalued f, rfl, hl, ?_⟩
        rw [← hr]
        rfl
      · exact ⟨x, rfl, hl, hr⟩

theorem rows_unlinked (h : c.Linked) (hx : c.arena.get? s = some x) (hl : x.removed = false) :
    (c.unlinked s x).rows = c.rows.filter (·.serial ≠ s) := by
  have hsound := (h.unlinked hx hl).sound
  refine (rows_sorted hsound).ext ((rows_sorted h.sound).filter _) fun r => ?_
  have hget := get?_unlinked h hx hl r.serial
  rw [List.mem_filter, decide_eq_true_eq, mem_rows, mem_rows]
  by_cases hs : r.serial = s
  · have hdead : ¬(c.unlinked s x).Live r.serial := fun hlive =>
      ((live_unlinked h hx hl r.serial).mp hlive).2 hs
    rw [row?_of_not_live hdead]
    simp [hs]
  · have hsame : (c.unlinked s x).row? r.serial = c.row? r.serial := by
      rw [if_neg hs] at hget
      split at hget
      · exact row?_of_map hget (fun _ => rfl) fun _ => rfl
      · split at hget
        · exact row?_of_map hget (fun _ => rfl) fun _ => rfl
        · exact row?_of_map (hget.trans Option.map_id'.symm) (fun _ => rfl) fun _ => rfl
    rw [hsame, and_iff_left hs]

theorem rows_emptied (h : c.Emptied d) : d.rows = [] := by
  refine List.eq_nil_iff_forall_not_mem.mpr fun r hr => ?_
  exact h.not_live r.serial (live_iff_row?.mpr ⟨r, mem_rows.mp hr⟩)

/-! ## following the links -/

/-- Following the links from one slot on meets the listed ones, each of which leads back to the one
met before it, and ends at the tail. -/
def Thread (c : Chain ν) : Option Nat → Option Nat → List Nat → Prop
  | prev, cur, [] => cur = none ∧ c.tail = prev
  | prev, cur, s :: rest => cur = some s ∧
      ∃ x, c.arena.get? s = some x ∧ x.removed = false ∧ x.prev = prev ∧
        c.Thread (some s) x.next rest

/-- From a live entry on, or from the beginning, the live entries after it are met. -/
theorem Linked.thread_from (h : c.Linked) (l : List Nat) (b cur : Option Nat)
    (hb : ∀ s, b = some s → c.Live s) (hcur : FirstAfter c.Live b cur)
    (hl : l.Pairwise (· < ·)) (hmem : ∀ s, s ∈ l ↔ c.Live s ∧ After b s) : c.Thread b cur l := by
  induction l generalizing b cur with
  | nil =>
    have hnone : ∀ s, c.Live s → ¬After b s := fun s hs hbs =>
      List.not_mem_nil ((hmem s).mpr ⟨hs, hbs⟩)
    refine ⟨hcur.unique hnone, ?_⟩
    apply h.tail.unique
    cases b with
    | none => exact fun q hq _ => hnone q hq trivial
    | some s => exact ⟨hb s rfl, trivial, fun q hq _ => Nat.not_lt.mp (hnone q hq)⟩
  | cons s rest ih =>
    obtain ⟨hlt, hrest⟩ := List.pairwise_cons.mp hl
    obtain ⟨hs, hbs⟩ := (hmem s).mp List.mem_cons_self
    have hle : ∀ q, c.Live q → After b q → s ≤ q := by
      intro q hq hbq
      rcases List.mem_cons.mp ((hmem q).mpr ⟨hq, hbq⟩) with rfl | hq'
      · exact Nat.le_refl q
      · exact Nat.le_of_lt (hlt q hq')
    obtain ⟨x, hx, hxl⟩ := id hs
    have hprev : LastBefore c.Live (some s) b := by
      cases b with
      | none => exact fun q hq hqs => Nat.not_lt.mpr (hle q hq trivial) hqs
      | some p =>
        refine ⟨hb p rfl, hbs, fun q hq hqs => ?_⟩
        by_contra hne
        have hsq := hle q hq (Nat.not_le.mp hne)
        exact Nat.not_lt.mpr hsq hqs
    refine ⟨hcur.unique ⟨hs, hbs, hle⟩, x, hx, hxl, (h.prev hx hxl).unique hprev, ?_⟩
    refine ih (some s) x.next (fun t ht => Option.some.inj ht ▸ hs) (h.next hx hxl) hrest fun q => ?_
    constructor
    · intro hq
      exact ⟨((hmem q).mp (List.mem_cons_of_mem _ hq)).1, hlt q hq⟩
    · rintro ⟨hq, hsq⟩
      have hlt' : s < q := hsq
      rcases List.mem_cons.mp ((hmem q).mpr ⟨hq, hbs.trans hlt'⟩) with rfl | hq'
      · exact absurd hlt' (Nat.lt_irrefl q)
      · exact hq'

/-- Following the links from the head meets every live entry, in the order of rows. -/
theorem Linked.thread (h : c.Linked) : c.Thread none c.head (c.rows.map (·.serial)) := by
  refine h.thread_from _ none c.head (fun _ hs => by cases hs) h.head ?_ fun s => ?_
  · exact List.pairwise_map.mpr (rows_sorted h.sound)
  · rw [mem_rows_serials]
    exact ⟨fun hs => ⟨hs, trivial⟩, fun hs => hs.1⟩

theorem Linked.length_rows (h : c.Linked) : c.rows.length = c.len := by
  rw [h.len, rows, List.length_filterMap_eq_countP, Arena.count_eq_countP_serials h.sound]
  refine List.countP_congr fun s _ => ?_
  cases hx : c.arena.get? s with
  | none => simp [row?, live?, hx]
  | some x => cases hr : x.removed <;> simp [row?, live?, hx, hr, Option.filter]

/-! ## walks -/

theorem walkFrom_spec (n : Nat) (l : List Nat) (prev cur : Option Nat) (h : c.Thread prev cur l)
    (hn : l.length ≤ n) :
    ∃ items, c.walkFrom n ⟨cur, l.length⟩ = .ok items ∧
      items.map (fun e => e.1.pair) = (l.filterMap c.row?).map Row.pair ∧
      items.map (·.2) = (List.range l.length).reverse := by
  induction l generalizing n prev cur with
  | nil =>
    rw [h.1]
    exact ⟨[], by cases n <;> rfl, rfl, rfl⟩
  | cons s rest ih =>
    obtain ⟨rfl, x, hx, hl, _, hrest⟩ := h
    cases n with
    | zero =>
      rw [List.length_cons] at hn
      omega
    | succ n =>
      obtain ⟨items, he, hp, hr⟩ := ih n (some s) x.next hrest (by simpa using hn)
      refine ⟨(x, rest.length) :: items, ?_, ?_, ?_⟩
      · rw [walkFrom, slot_of hx]
        simp only [bind, Except.bind, List.length_cons, Nat.add_one_ne_zero, if_false,
          Nat.add_one_sub_one]
        rw [he]
        rfl
      · rw [List.map_cons, hp, List.filterMap_cons_some (row?_of_live hx hl)]
        rfl
      · rw [List.map_cons, hr, List.length_cons, List.range_succ, List.reverse_append]
        rfl

/-- A walk along the links yields the rows, and knows how many are to come. -/
theorem walk_spec (h : c.Linked) :
    ∃ items, c.walk = .ok items ∧ items.map (fun e => e.1.pair) = c.rows.map Row.pair ∧
      items.map (·.2) = (List.range c.len).reverse := by
  have hn : (c.rows.map (·.serial)).length ≤ c.arena.size := by
    rw [List.length_map, ← Arena.length_serials]
    exact List.length_filterMap_le _ _
  have hrows : (c.rows.map (·.serial)).filterMap c.row? = c.rows := by
    rw [List.filterMap_map]
    refine (List.filterMap_congr fun r hr => ?_).trans List.filterMap_some
    exact mem_rows.mp hr
  obtain ⟨items, he, hp, hr⟩ := walkFrom_spec c.arena.size _ none c.head h.thread hn
  rw [List.length_map, h.length_rows] at he hr
  rw [hrows] at hp
  exact ⟨items, he, hp, hr⟩

theorem entries_spec (h : c.Linked) : c.entries = .ok (c.rows.map Row.pair) := by
  obtain ⟨items, he, hp, _⟩ := walk_spec h
  rw [← hp, entries, he]
  rfl

end Chain

end LiveOrder
