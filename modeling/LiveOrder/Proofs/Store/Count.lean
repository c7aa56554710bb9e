import LiveOrder.Proofs.Store.Nearest
import LiveOrder.Store.Arena
import Mathlib.Data.List.Perm.Subperm

/-!
# Counting the items of an arena

* `Arena.count`   the number of items with a property;
* `count_insert`, `count_modify`, `count_erase`   what the operations add to it or take from it;
* `Arena.modifyAt`   a change at a serial, or nowhere;
* `count_congr`   two arenas with the same serials of items with the property;
* `length_le_count`   different serials of items with the property are no more than these;
* `Arena.beyond`   the number of serials after one, which bounds the walks upwards.
-/

namespace LiveOrder.Arena

variable {α β : Type}

def count (a : Arena α) (p : α → Bool) : Nat := a.cells.countP fun c => p c.item

/-! ## the cell of a serial -/

/-- The cell of a serial, and the cells around it, which have other serials. -/
theorem Sound.split {a : Arena α} (h : a.Sound) {s : Nat} {x : α} (hx : a.get? s = some x) :
    ∃ l c r, a.cells = l ++ c :: r ∧ c.serial = s ∧ c.item = x ∧
      (∀ d ∈ l, d.serial ≠ s) ∧ ∀ d ∈ r, d.serial ≠ s := by
  obtain ⟨c, hc, rfl⟩ := Option.map_eq_some_iff.mp hx
  have hs : c.serial = s := by simpa using List.find?_some hc
  obtain ⟨l, r, hcells⟩ := List.append_of_mem (List.mem_of_find?_eq_some hc)
  have hinc : (l ++ c :: r).Pairwise fun d e => d.serial < e.serial := by
    rw [← hcells]
    exact List.pairwise_map.mp h.increasing
  obtain ⟨_, hcr, hlc⟩ := List.pairwise_append.mp hinc
  refine ⟨l, c, r, hcells, hs, rfl, fun d hd => ?_, fun d hd => ?_⟩
  · have hlt := hlc d hd c List.mem_cons_self
    omega
  · have hlt := (List.pairwise_cons.mp hcr).1 d hd
    omega

theorem Sound.get?_eq_some_iff {a : Arena α} (h : a.Sound) {s : Nat} {x : α} :
    a.get? s = some x ↔ ∃ c ∈ a.cells, c.serial = s ∧ c.item = x := by
  constructor
  · intro hx
    obtain ⟨l, c, r, hcells, hs, hi, _⟩ := h.split hx
    exact ⟨c, by rw [hcells]; simp, hs, hi⟩
  · rintro ⟨c, hc, rfl, rfl⟩
    have hmem : c.serial ∈ a.serials := List.mem_map_of_mem hc
    obtain ⟨y, hy⟩ := Option.isSome_iff_exists.mp (isSome_get?_iff.mpr hmem)
    obtain ⟨l, d, r, hcells, hs, hi, hl, hr⟩ := h.split hy
    rw [hcells] at hc
    rcases List.mem_append.mp hc with hc | hc
    · exact absurd rfl (hl c hc)
    · rcases List.mem_cons.mp hc with rfl | hc
      · rw [hy, hi]
      · exact absurd rfl (hr c hc)

theorem mem_serials_of_get? {a : Arena α} {s : Nat} {x : α} (h : a.get? s = some x) :
    s ∈ a.serials :=
  isSome_get?_iff.mp (by rw [h]; rfl)

theorem exists_get?_of_mem {a : Arena α} {s : Nat} (h : s ∈ a.serials) :
    ∃ x, a.get? s = some x :=
  Option.isSome_iff_exists.mp (isSome_get?_iff.mpr h)

/-! ## the count under the operations -/

theorem count_insert (a : Arena α) (x : α) (p : α → Bool) :
    (a.insert x).count p = a.count p + if p x then 1 else 0 := by
  obtain ⟨_, h⟩ := cells_insert a x
  simp [count, h, List.countP_append, List.countP_cons]

theorem count_modify {a : Arena α} (h : a.Sound) {s : Nat} {x : α} (hx : a.get? s = some x)
    (f : α → α) (p : α → Bool) :
    (a.modify s f).count p + (if p x then 1 else 0) = a.count p + if p (f x) then 1 else 0 := by
  obtain ⟨l, c, r, hcells, hs, rfl, hl, hr⟩ := h.split hx
  have hsame : ∀ m : List (Cell α), (∀ d ∈ m, d.serial ≠ s) →
      (m.map fun d => if d.serial = s then { d with item := f d.item } else d) = m := by
    intro m hm
    refine (List.map_congr_left fun d hd => if_neg (hm d hd)).trans (List.map_id' m)
  simp only [count, modify, hcells, List.map_append, List.map_cons, hsame l hl, hsame r hr,
    if_pos hs, List.countP_append, List.countP_cons]
  omega

theorem count_modify_of_eq {a : Arena α} (h : a.Sound) {s : Nat} {f : α → α} {p : α → Bool}
    (hf : ∀ x, a.get? s = some x → p (f x) = p x) : (a.modify s f).count p = a.count p := by
  by_cases hs : s ∈ a.serials
  · obtain ⟨x, hx⟩ := exists_get?_of_mem hs
    have hc := count_modify h hx f p
    rw [hf x hx] at hc
    omega
  · have hsame : (a.modify s f).cells = a.cells := by
      refine (List.map_congr_left fun d hd => if_neg ?_).trans (List.map_id' a.cells)
      rintro rfl
      exact hs (List.mem_map_of_mem hd)
    rw [count, hsame, count]

/-! ## a change at a serial or nowhere -/

def modifyAt (a : Arena α) (s? : Option Nat) (f : α → α) : Arena α :=
  match s? with
  | none => a
  | some s => a.modify s f

@[simp] theorem serials_modifyAt (a : Arena α) (s? : Option Nat) (f : α → α) :
    (a.modifyAt s? f).serials = a.serials := by
  cases s? with
  | none => rfl
  | some s => exact serials_modify a s f

@[simp] theorem fresh_modifyAt (a : Arena α) (s? : Option Nat) (f : α → α) :
    (a.modifyAt s? f).fresh = a.fresh := by
  cases s? <;> rfl

theorem Sound.modifyAt {a : Arena α} (h : a.Sound) (s? : Option Nat) (f : α → α) :
    (a.modifyAt s? f).Sound := by
  cases s? with
  | none => exact h
  | some s => exact h.modify s f

theorem get?_modifyAt (a : Arena α) (s? : Option Nat) (t : Nat) (f : α → α) :
    (a.modifyAt s? f).get? t = if s? = some t then (a.get? t).map f else a.get? t := by
  cases s? with
  | none => simp [Arena.modifyAt]
  | some s =>
    show (a.modify s f).get? t = _
    rw [get?_modify]
    by_cases h : t = s
    · simp [h]
    · simp [h, Ne.symm h]

theorem count_modifyAt_of_eq {a : Arena α} (h : a.Sound) {s? : Option Nat} {f : α → α}
    {p : α → Bool} (hf : ∀ s x, s? = some s → a.get? s = some x → p (f x) = p x) :
    (a.modifyAt s? f).count p = a.count p := by
  cases s? with
  | none => rfl
  | some s => exact count_modify_of_eq h fun x hx => hf s x rfl hx

/-! ## erasure and comparison -/

theorem count_erase {a : Arena α} (h : a.Sound) {s : Nat} {x : α} (hx : a.get? s = some x)
    (p : α → Bool) : (a.erase s).count p + (if p x then 1 else 0) = a.count p := by
  obtain ⟨l, c, r, hcells, hs, rfl, hl, hr⟩ := h.split hx
  have hsame : ∀ m : List (Cell α), (∀ d ∈ m, d.serial ≠ s) →
      m.filter (·.serial ≠ s) = m := by
    intro m hm
    exact List.filter_eq_self.mpr fun d hd => by simpa using hm d hd
  simp only [count, cells_erase, hcells, List.filter_append, hsame l hl, List.filter_cons, hs,
    ne_eq, not_true, decide_false, Bool.false_eq_true, if_false, hsame r hr, List.countP_append,
    List.countP_cons]
  omega

theorem count_pos_iff {a : Arena α} (h : a.Sound) {p : α → Bool} :
    0 < a.count p ↔ ∃ s x, a.get? s = some x ∧ p x = true := by
  rw [count, List.countP_pos_iff]
  constructor
  · rintro ⟨c, hc, hp⟩
    exact ⟨c.serial, c.item, h.get?_eq_some_iff.mpr ⟨c, hc, rfl, rfl⟩, hp⟩
  · rintro ⟨s, x, hx, hp⟩
    obtain ⟨c, hc, _, rfl⟩ := h.get?_eq_some_iff.mp hx
    exact ⟨c, hc, hp⟩

theorem count_le_size (a : Arena α) (p : α → Bool) : a.count p ≤ a.size := List.countP_le_length

theorem count_eq_countP_serials {a : Arena α} (h : a.Sound) (p : α → Bool) :
    a.count p = a.serials.countP fun s => (a.get? s).any p := by
  rw [serials, List.countP_map, count]
  refine List.countP_congr fun c hc => ?_
  have hg := h.get?_eq_some_iff.mpr ⟨c, hc, rfl, rfl⟩
  simp [hg]

/-- The count depends only on the serials under which an item with the property is found. -/
theorem count_congr {a : Arena α} {b : Arena β} (ha : a.Sound) (hb : b.Sound) {p : α → Bool}
    {q : β → Bool}
    (hpq : ∀ s, (∃ x, a.get? s = some x ∧ p x = true) ↔ ∃ y, b.get? s = some y ∧ q y = true) :
    a.count p = b.count q := by
  rw [count_eq_countP_serials ha, count_eq_countP_serials hb, List.countP_eq_length_filter,
    List.countP_eq_length_filter]
  apply List.Perm.length_eq
  rw [List.perm_ext_iff_of_nodup (ha.nodup.filter _) (hb.nodup.filter _)]
  intro s
  rw [List.mem_filter, List.mem_filter, Option.any_eq_true, Option.any_eq_true]
  constructor
  · rintro ⟨_, hx⟩
    obtain ⟨y, hy, hq⟩ := (hpq s).mp hx
    exact ⟨mem_serials_of_get? hy, y, hy, hq⟩
  · rintro ⟨_, hy⟩
    obtain ⟨x, hx, hp⟩ := (hpq s).mpr hy
    exact ⟨mem_serials_of_get? hx, x, hx, hp⟩

/-- Different serials with a property are no more than the items with it. -/
theorem Sound.length_le_count {a : Arena α} (h : a.Sound) {p : α → Bool} {l : List Nat}
    (hl : l.Nodup) (hp : ∀ s ∈ l, ∃ x, a.get? s = some x ∧ p x = true) : l.length ≤ a.count p := by
  have hsub : l ⊆ a.serials.filter fun s => (a.get? s).any p := by
    intro s hs
    obtain ⟨x, hx, hpx⟩ := hp s hs
    rw [List.mem_filter, hx]
    exact ⟨mem_serials_of_get? hx, hpx⟩
  rw [count_eq_countP_serials h, List.countP_eq_length_filter]
  exact (List.subperm_of_subset hl hsub).length_le

/-! ## walks upwards -/

def beyond (a : Arena α) (s? : Option Nat) : Nat := a.serials.countP fun s => After s? s

theorem beyond_le_size (a : Arena α) (s? : Option Nat) : a.beyond s? ≤ a.size := by
  rw [← length_serials]
  exact List.countP_le_length

/-- Fewer numbers have a narrower property, if one of them shows the difference. -/
theorem countP_lt_of_mem {l : List Nat} {p q : Nat → Bool} {s : Nat}
    (hqp : ∀ u, q u = true → p u = true) (hs : s ∈ l) (hp : p s = true) (hq : q s = false) :
    l.countP q < l.countP p := by
  obtain ⟨a, b, rfl⟩ := List.append_of_mem hs
  have ha : a.countP q ≤ a.countP p := List.countP_mono_left fun u _ => hqp u
  have hb : b.countP q ≤ b.countP p := List.countP_mono_left fun u _ => hqp u
  simp only [List.countP_append, List.countP_cons, hp, hq, if_true, Bool.false_eq_true, if_false]
  omega

theorem beyond_lt {a : Arena α} {s? : Option Nat} {s : Nat} (hs : s ∈ a.serials)
    (hb : After s? s) : a.beyond (some s) < a.beyond s? := by
  refine countP_lt_of_mem (fun u hu => ?_) hs (by simpa using hb) (by simp [After])
  rw [decide_eq_true_eq] at hu ⊢
  exact hb.trans hu

end LiveOrder.Arena
