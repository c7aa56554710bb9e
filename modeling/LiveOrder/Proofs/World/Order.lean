import Mathlib.Tactic.Abel
import LiveOrder.Proofs.World.Clean
import LiveOrder.Proofs.World.Origins

/-!
# Worlds in order

What holds of a world whenever user code may run: also in the middle of an operation, of a cursor's
step or of an unwinding.

* `Books`           every handle, pin, cursor and tracked number is counted where it is, and owned once;
                    `Books.renumber`, what becomes of numbers does not matter to the others;
* `World.InOrder`   the books of a world and of the hands at work in it are right, no log has an
                    internal failure in it, and the records say what they should;
* `InOrder.setRow`, `.setHandles`, `.setContainer`, …   how changes of the world keep it.
-/

namespace LiveOrder

structure Books (all : Hands) (cells : List (Nat × Cell)) (fresh : Nat) (walks : List (Nat × Walk))
    (freshWalk : Nat) (numbers : Numbers) : Prop where
  counted : ∀ r, handlesAt cells r = all.count (.handle r)
  /-- an object without handles goes away -/
  shared : ∀ {r d}, Table.get? r cells = some d → 0 < d.handles
  stores : ∀ {r c}, containerAt? cells r = some c → c.store.Sound fun s => all.count (.pin r s)
  /-- access and guard say what goes on in a container -/
  guarded : ∀ {r c}, containerAt? cells r = some c → c.Disciplined
  rows : ∀ {id x}, .cursor id (some x) ∈ all → Table.get? id walks = some x
  owned : ∀ id, owners all id = if (Table.get? id walks).isSome then 1 else 0
  below : ∀ a ∈ all, a.Below fresh freshWalk
  /-- what was made has been released, or somebody has it, but not both -/
  accounted : ∀ n, numbers.gone.count n + all.count (.tracked n) = if n < numbers.made then 1 else 0
  /-- what may be stored has been made and not been stored -/
  permitted : ∀ n, all.count (.permit n) + (numbers.stored.map (·.1)).count n ≤
    if n < numbers.made then 1 else 0

/-- The numbers have been stored in the container. -/
def World.Houses (w : World) (r : Nat) (taken : Hands) : Prop :=
  ∀ n, .tracked n ∈ taken → (n, r) ∈ w.stored

theorem World.houses_zero (w : World) (r : Nat) : w.Houses r 0 :=
  fun _ hn => absurd hn (Multiset.notMem_zero _)

structure World.InOrder (w : World) (hands : Hands) : Prop where
  faultless : w.faults = []
  clean : ∀ log ∈ w.frames, ∀ e ∈ log, e.Clean
  names : Table.Distinct w.names
  walks : Table.Distinct w.walks
  iterators : Table.Distinct w.iterators
  cells : Table.Distinct w.cells
  books : Books (w.assets + hands) w.cells w.fresh w.walks w.freshWalk w.numbers
  passages : ∀ p ∈ w.passages, (p.Quiet → p.Orderly) ∧
    (p.complete = true ∨ w.limits.rounds ≤ p.stops.length)
  releases : ∀ later x earlier, w.releases = later ++ x :: earlier → x.Due earlier
  /-- a container holds what has been stored in it -/
  homes : ∀ {r c}, containerAt? w.cells r = some c → w.Houses r (pairsOf c.store.held)
  /-- a cursor that has not come to the end walks over a container -/
  walking : ∀ {id x r}, Table.get? id w.walks = some x → x.store = some r →
    (containerAt? w.cells r).isSome
  /-- nothing is given up but at the limit of the run -/
  patient : w.abandoned = [] ∨ w.limits.rounds ≤ w.discarded
  moments : ∀ m ∈ w.moments, m.Disciplined
  /-- every entry was made for a key, and has its stored form -/
  registered : Registered w.cells w.fresh w.moments w.origins

/-! ## books -/

namespace Books

variable {all rest : Hands} {cells : List (Nat × Cell)} {fresh freshWalk r id : Nat}
  {walks : List (Nat × Walk)} {x y : Walk} {c c' : Container} {numbers : Numbers}

theorem exists_of_mem (h : Books all cells fresh walks freshWalk numbers) (hr : .handle r ∈ all) :
    ∃ d, Table.get? r cells = some d := by
  have hpos : 0 < all.count (.handle r) := Multiset.count_pos.mpr hr
  rw [← h.counted r] at hpos
  cases hd : Table.get? r cells with
  | some d => exact ⟨d, rfl⟩
  | none =>
    simp [handlesAt, hd] at hpos

theorem lt_fresh (h : Books all cells fresh walks freshWalk numbers) {d : Cell}
    (hd : Table.get? r cells = some d) : r < fresh := by
  have hpos := h.shared hd
  have hcount := h.counted r
  simp only [handlesAt, hd, Option.map_some, Option.getD_some] at hcount
  rw [hcount] at hpos
  exact h.below _ (Multiset.count_pos.mp hpos)

theorem lt_freshWalk (h : Books all cells fresh walks freshWalk numbers)
    (hx : Table.get? id walks = some x) : id < freshWalk := by
  have hone := h.owned id
  rw [hx, Option.isSome_some, if_pos rfl] at hone
  obtain ⟨a, ha, hid⟩ := Multiset.countP_pos.mp (show 0 < owners all id by omega)
  have hbelow := h.below a ha
  cases a with
  | handle r => cases hid
  | pin r s => cases hid
  | cursor j known =>
    cases hid
    exact hbelow
  | tracked n => cases hid
  | permit n => cases hid

/-! ### cursors -/

/-- A cursor that is owned here is not owned elsewhere. -/
theorem not_owned {known : Option Walk}
    (h : Books (rest + cursorAt id known) cells fresh walks freshWalk numbers) :
    owners rest id = 0 := by
  have hone := h.owned id
  rw [owners_add, owners_cursorAt, if_pos rfl] at hone
  split at hone <;> omega

theorem cursor_notMem (h : owners rest id = 0) {known : Option Walk} : .cursor id known ∉ rest :=
  fun hm => Multiset.countP_eq_zero.mp h _ hm rfl

theorem lt_of_cursor {known : Option Walk}
    (h : Books (rest + cursorAt id known) cells fresh walks freshWalk numbers) : id < freshWalk :=
  h.below (.cursor id known) (Multiset.mem_add.mpr (.inr (mem_cursorAt.mpr rfl)))

/-- Cursors come and go, which are neither handles nor pins nor numbers. -/
theorem rewalk {u u' : Hands} {walks' : List (Nat × Walk)} {freshWalk' : Nat}
    (h : Books (rest + u) cells fresh walks freshWalk numbers) (hu : ∀ a ∈ u, a.cursor? ≠ none)
    (hu' : ∀ a ∈ u', a.cursor? ≠ none) (hle : freshWalk ≤ freshWalk')
    (hbelow : ∀ a ∈ u', a.Below fresh freshWalk')
    (hrest : ∀ {j z}, .cursor j (some z) ∈ rest → Table.get? j walks' = some z)
    (hrows : ∀ {j z}, .cursor j (some z) ∈ u' → Table.get? j walks' = some z)
    (howned : ∀ j, owners (rest + u') j = if (Table.get? j walks').isSome then 1 else 0) :
    Books (rest + u') cells fresh walks' freshWalk' numbers := by
  have hcount : ∀ {a : Asset}, a.cursor? = none → (rest + u').count a = (rest + u).count a := by
    intro a ha
    rw [Multiset.count_add, Multiset.count_add, Multiset.count_eq_zero.mpr fun hm => hu a hm ha,
      Multiset.count_eq_zero.mpr fun hm => hu' a hm ha]
  refine ⟨fun r => ?_, h.shared, fun {r c} hc => ?_, h.guarded, fun {j z} hz => ?_, howned,
    fun a ha => ?_, fun n => ?_, fun n => ?_⟩
  · rw [hcount rfl, h.counted]
  · convert h.stores hc using 1
    funext s
    exact hcount rfl
  · exact (Multiset.mem_add.mp hz).elim hrest hrows
  · rcases Multiset.mem_add.mp ha with ha | ha
    · exact (h.below a (Multiset.mem_add.mpr (.inl ha))).mono (Nat.le_refl _) hle
    · exact hbelow a ha
  · rw [hcount rfl, h.accounted]
  · rw [hcount rfl]
    exact h.permitted n

/-- Another thing is known of a cursor, or it has moved. -/
theorem rerow {known known' : Option Walk} {walks' : List (Nat × Walk)}
    (h : Books (rest + cursorAt id known) cells fresh walks freshWalk numbers)
    (hrest : ∀ j, j ≠ id → Table.get? j walks' = Table.get? j walks)
    (hisSome : (Table.get? id walks').isSome)
    (hknown : ∀ z, known' = some z → Table.get? id walks' = some z) :
    Books (rest + cursorAt id known') cells fresh walks' freshWalk numbers := by
  have hnone : owners rest id = 0 := h.not_owned
  refine h.rewalk (by simp [Asset.cursor?]) (by simp [Asset.cursor?]) (Nat.le_refl _) (fun a ha => ?_)
    (fun {j z} hz => ?_) (fun {j z} hz => ?_) fun j => ?_
  · cases mem_cursorAt.mp ha
    exact h.lt_of_cursor
  · rw [hrest j fun e => cursor_notMem hnone (e ▸ hz)]
    exact h.rows (Multiset.mem_add.mpr (.inl hz))
  · obtain ⟨rfl, hkept⟩ := Asset.cursor.inj (mem_cursorAt.mp hz)
    exact hknown z hkept.symm
  · have hj := h.owned j
    rw [owners_add, owners_cursorAt] at hj ⊢
    by_cases he : j = id
    · simp [he, hnone, hisSome]
    · rwa [hrest j he]

/-- The owner of a cursor can find out where it stands. -/
theorem learn (h : Books (rest + cursorAt id none) cells fresh walks freshWalk numbers) :
    ∃ x, Table.get? id walks = some x ∧
      Books (rest + cursorAt id (some x)) cells fresh walks freshWalk numbers := by
  have hone := h.owned id
  rw [owners_add, owners_cursorAt, if_pos rfl] at hone
  cases hx : Table.get? id walks with
  | none =>
    simp [hx] at hone
  | some x =>
    refine ⟨x, rfl, h.rerow (fun _ _ => rfl) (by rw [hx]; rfl) fun z hz => ?_⟩
    rw [hx, hz]

theorem forget (h : Books (rest + cursorAt id (some x)) cells fresh walks freshWalk numbers) :
    Books (rest + cursorAt id none) cells fresh walks freshWalk numbers := by
  have hx : Table.get? id walks = some x :=
    h.rows (Multiset.mem_add.mpr (.inr (mem_cursorAt.mpr rfl)))
  exact h.rerow (fun _ _ => rfl) (by rw [hx]; rfl) nofun

theorem setRow (h : Books (rest + cursorAt id (some x)) cells fresh walks freshWalk numbers) (y : Walk) :
    Books (rest + cursorAt id (some y)) cells fresh (Table.put id y walks) freshWalk numbers := by
  have hput : Table.get? id (Table.put id y walks) = some y := by rw [Table.get?_put, if_pos rfl]
  refine h.rerow (fun j hj => ?_) (by rw [hput]; rfl) fun z hz => ?_
  · rw [Table.get?_put, if_neg hj]
  · rw [hput, hz]

theorem openRow (h : Books all cells fresh walks freshWalk numbers) (x : Walk) :
    Books (all + cursorAt freshWalk (some x)) cells fresh (walks ++ [(freshWalk, x)])
      (freshWalk + 1) numbers := by
  rw [← add_zero all] at h
  refine h.rewalk (by simp) (by simp [Asset.cursor?]) (Nat.le_succ _) (fun a ha => ?_)
    (fun {j z} hz => ?_) (fun {j z} hz => ?_) fun j => ?_
  · cases mem_cursorAt.mp ha
    exact Nat.lt_succ_self _
  · rw [Table.get?_append, h.rows (Multiset.mem_add.mpr (.inl hz))]
  · cases mem_cursorAt.mp hz
    rw [Table.get?_append]
    cases hy : Table.get? freshWalk walks with
    | none => simp
    | some y => exact absurd (h.lt_freshWalk hy) (Nat.lt_irrefl _)
  · have hj : owners all j = if (Table.get? j walks).isSome then 1 else 0 := by
      simpa using h.owned j
    rw [owners_add, owners_cursorAt, hj, Table.get?_append]
    cases hy : Table.get? j walks with
    | none =>
      by_cases hj : j = freshWalk <;> simp [hj]
    | some y =>
      have hne : j ≠ freshWalk := Nat.ne_of_lt (h.lt_freshWalk hy)
      simp [hne]

theorem eraseRow (h : Books (rest + cursorAt id (some x)) cells fresh walks freshWalk numbers) :
    Books rest cells fresh (Table.erase id walks) freshWalk numbers := by
  have hnone : owners rest id = 0 := h.not_owned
  rw [← add_zero rest]
  refine h.rewalk (by simp [Asset.cursor?]) (by simp) (Nat.le_refl _) (by simp) (fun {j z} hz => ?_)
    (by simp) fun j => ?_
  · rw [Table.get?_erase, if_neg fun e => cursor_notMem hnone (e ▸ hz)]
    exact h.rows (Multiset.mem_add.mpr (.inl hz))
  · have hj := h.owned j
    rw [owners_add, owners_cursorAt] at hj
    rw [Table.get?_erase, add_zero]
    by_cases he : j = id
    · simp [he, hnone]
    · simpa [he] using hj

/-! ### tracked numbers -/

/-- Numbers and permits come and go, which are neither handles nor pins nor cursors. -/
theorem renumber {u u' : Hands} {numbers' : Numbers}
    (h : Books (rest + u) cells fresh walks freshWalk numbers) (hu : ∀ a ∈ u, a.Numeric)
    (hu' : ∀ a ∈ u', a.Numeric)
    (haccounted : ∀ n, numbers'.gone.count n + (rest + u').count (.tracked n) =
      if n < numbers'.made then 1 else 0)
    (hpermitted : ∀ n, (rest + u').count (.permit n) + (numbers'.stored.map (·.1)).count n ≤
      if n < numbers'.made then 1 else 0) :
    Books (rest + u') cells fresh walks freshWalk numbers' := by
  have hcount : ∀ {a : Asset}, ¬a.Numeric → (rest + u').count a = (rest + u).count a := by
    intro a ha
    rw [Multiset.count_add, Multiset.count_add, Multiset.count_eq_zero.mpr fun hm => ha (hu a hm),
      Multiset.count_eq_zero.mpr fun hm => ha (hu' a hm)]
  have howners : ∀ id, owners (rest + u') id = owners (rest + u) id := by
    intro id
    rw [owners_add, owners_add, owners_of_numeric hu, owners_of_numeric hu']
  refine ⟨fun r => ?_, h.shared, fun {r c} hc => ?_, h.guarded, fun {j z} hz => ?_, fun j => ?_,
    fun a ha => ?_, haccounted, hpermitted⟩
  · rw [hcount id, h.counted]
  · convert h.stores hc using 1
    funext s
    exact hcount id
  · rcases Multiset.mem_add.mp hz with hz | hz
    · exact h.rows (Multiset.mem_add.mpr (.inl hz))
    · exact (hu' _ hz).elim
  · rw [howners, h.owned]
  · rcases Multiset.mem_add.mp ha with ha | ha
    · exact h.below a (Multiset.mem_add.mpr (.inl ha))
    · exact (hu' a ha).below

/-- Another number is made. -/
theorem supply (h : Books all cells fresh walks freshWalk numbers) :
    Books (all + (tracking numbers.made + permit numbers.made)) cells fresh walks freshWalk
      { numbers with made := numbers.made + 1 } := by
  rw [← add_zero all] at h
  refine h.renumber (by simp) (by simp [Asset.Numeric]) (fun n => ?_) fun n => ?_
  · have hn := h.accounted n
    simp only [Multiset.count_add, count_tracked_tracking, count_tracked_permit,
      Multiset.count_zero] at hn ⊢
    split at hn <;> split <;> split <;> omega
  · have hn := h.permitted n
    simp only [Multiset.count_add, count_permit_tracking, count_permit_permit,
      Multiset.count_zero] at hn ⊢
    split at hn <;> split <;> split <;> omega

/-- A number that somebody has is released. -/
theorem release {n : Nat} (h : Books (rest + tracking n) cells fresh walks freshWalk numbers) :
    Books rest cells fresh walks freshWalk { numbers with gone := n :: numbers.gone } := by
  rw [← add_zero rest]
  refine h.renumber (by simp [Asset.Numeric]) (by simp) (fun m => ?_) fun m => ?_
  · have hm := h.accounted m
    rw [Multiset.count_add, count_tracked_tracking] at hm
    rw [List.count_cons, Multiset.count_add, Multiset.count_zero]
    by_cases hnm : m = n
    · simp [hnm] at hm ⊢
      omega
    · simp [hnm, Ne.symm hnm] at hm ⊢
      omega
  · simpa using h.permitted m

/-- A number is stored, which uses up the permit. -/
theorem enter {n : Nat} (h : Books (rest + permit n) cells fresh walks freshWalk numbers) (r : Nat) :
    Books rest cells fresh walks freshWalk { numbers with stored := (n, r) :: numbers.stored } := by
  rw [← add_zero rest]
  refine h.renumber (by simp [Asset.Numeric]) (by simp) (fun m => ?_) fun m => ?_
  · simpa using h.accounted m
  · have hm := h.permitted m
    rw [Multiset.count_add, count_permit_permit] at hm
    rw [List.map_cons, List.count_cons, Multiset.count_add, Multiset.count_zero]
    by_cases hnm : m = n
    · simp [hnm] at hm ⊢
      omega
    · simp [hnm, Ne.symm hnm] at hm ⊢
      omega

/-- Permits are not made use of. -/
theorem forgo {u : Hands} (h : Books (rest + u) cells fresh walks freshWalk numbers)
    (hu : ∀ a ∈ u, ∃ n, a = .permit n) : Books rest cells fresh walks freshWalk numbers := by
  have hnumeric : ∀ a ∈ u, a.Numeric := by
    intro a ha
    obtain ⟨n, rfl⟩ := hu a ha
    trivial
  have hnone : ∀ n, u.count (.tracked n) = 0 := fun n => Multiset.count_eq_zero.mpr fun hm => by
    obtain ⟨m, hm⟩ := hu _ hm
    cases hm
  rw [← add_zero rest]
  refine h.renumber hnumeric (by simp) (fun m => ?_) fun m => ?_
  · simpa [hnone] using h.accounted m
  · have hm := h.permitted m
    rw [Multiset.count_add] at hm
    simp
    omega

/-! ### objects -/

/-- Handles come and go, and the containers that are left are as before. -/
theorem recount {l : List Nat} (h : Books (rest + handles l) cells fresh walks freshWalk numbers)
    (l' : List Nat) (cells' : List (Nat × Cell))
    (hcount : ∀ r, handlesAt cells' r + l.count r = handlesAt cells r + l'.count r)
    (hshared : ∀ r d, Table.get? r cells' = some d → 0 < d.handles)
    (hsame : ∀ r c, containerAt? cells' r = some c → containerAt? cells r = some c)
    (hbelow : ∀ r ∈ l', r < fresh) : Books (rest + handles l') cells' fresh walks freshWalk numbers where
  counted r := by
    have hr := h.counted r
    have hr' := hcount r
    rw [Multiset.count_add, count_handle_handles] at hr ⊢
    omega
  shared hd := hshared _ _ hd
  stores hc := by simpa using h.stores (hsame _ _ hc)
  guarded hc := h.guarded (hsame _ _ hc)
  rows {j z} hz := by
    rcases Multiset.mem_add.mp hz with hz | hz
    · exact h.rows (Multiset.mem_add.mpr (.inl hz))
    · simp at hz
  owned j := by simpa [owners_add] using h.owned j
  below a ha := by
    rcases Multiset.mem_add.mp ha with ha | ha
    · exact h.below a (Multiset.mem_add.mpr (.inl ha))
    · obtain ⟨r, hr, rfl⟩ := mem_handles_iff.mp ha
      exact hbelow r hr
  accounted n := by simpa using h.accounted n
  permitted n := by simpa using h.permitted n

/-- A container is changed, and a pin on it may move with it. -/
theorem setContainer {from? to? : Option Nat}
    (h : Books (rest + pinAt r from?) cells fresh walks freshWalk numbers)
    (hc : containerAt? cells r = some c)
    (hstore : c'.store.Sound (Chain.pinOn to? fun s => rest.count (.pin r s)))
    (hguard : c'.Disciplined) :
    Books (rest + pinAt r to?) (Table.change r (fun d => { d with body := .container c' }) cells)
      fresh walks freshWalk numbers := by
  obtain ⟨n, hd⟩ := containerAt?_eq_some_iff.mp hc
  refine ⟨fun q => ?_, fun {q d} hq => ?_, fun {q e} he => ?_, fun {q e} he => ?_,
    fun {j z} hz => ?_, fun j => ?_, fun a ha => ?_, fun n => ?_, fun n => ?_⟩
  · rw [handlesAt_setBody, h.counted]
    simp
  · rw [Table.get?_change] at hq
    split at hq
    · obtain ⟨d', hd', rfl⟩ := Option.map_eq_some_iff.mp hq
      exact h.shared (d := d') hd'
    · exact h.shared hq
  · rcases containerAt?_setContainer hc he with ⟨rfl, rfl⟩ | ⟨hne, he⟩
    · convert hstore using 1
      funext s
      simp [count_pin_pinAt, Chain.pinOn]
    · convert h.stores he using 1
      funext s
      simp [count_pin_pinAt, hne]
  · rcases containerAt?_setContainer hc he with ⟨rfl, rfl⟩ | ⟨hne, he⟩
    · exact hguard
    · exact h.guarded he
  · refine h.rows (Multiset.mem_add.mpr ?_)
    rcases Multiset.mem_add.mp hz with hz | hz
    · exact .inl hz
    · simp at hz
  · simpa [owners_add] using h.owned j
  · rcases Multiset.mem_add.mp ha with ha | ha
    · exact h.below a (Multiset.mem_add.mpr (.inl ha))
    · obtain ⟨s, _, rfl⟩ := mem_pinAt.mp ha
      exact h.lt_fresh hd
  · simpa using h.accounted n
  · simpa using h.permitted n

/-- An object that is not a container stays none. -/
theorem setPlain (h : Books all cells fresh walks freshWalk numbers) {body : Body}
    (hb : body.container? = none) :
    Books all (Table.change r (fun d => { d with body }) cells) fresh walks freshWalk numbers := by
  refine ⟨fun q => ?_, fun {q d} hq => ?_, fun he => h.stores (containerAt?_of_setPlain hb he),
    fun he => h.guarded (containerAt?_of_setPlain hb he), h.rows, h.owned, h.below, h.accounted,
    h.permitted⟩
  · rw [handlesAt_setBody, h.counted]
  · rw [Table.get?_change] at hq
    split at hq
    · obtain ⟨d', hd', rfl⟩ := Option.map_eq_some_iff.mp hq
      exact h.shared (d := d') hd'
    · exact h.shared hq

/-- A new object has one handle, and no pins and no guard yet. -/
theorem allocate (h : Books all cells fresh walks freshWalk numbers) {body : Body}
    (hb : ∀ c, body.container? = some c → c.store.Sound (fun _ => 0) ∧ c.Disciplined) :
    Books (all + handles [fresh]) (cells ++ [(fresh, ⟨1, body⟩)]) (fresh + 1) walks freshWalk numbers := by
  have hnew : Table.get? fresh cells = none := by
    cases hd : Table.get? fresh cells with
    | none => rfl
    | some d => exact absurd (h.lt_fresh hd) (Nat.lt_irrefl _)
  refine ⟨fun q => ?_, fun {q d} hq => ?_, fun {q e} he => ?_, fun {q e} he => ?_, fun {j z} hz => ?_,
    fun j => ?_, fun a ha => ?_, fun n => ?_, fun n => ?_⟩
  · have hcount := h.counted q
    rw [Multiset.count_add, ← hcount, count_handle_handles]
    unfold handlesAt
    rw [Table.get?_append]
    by_cases hq : q = fresh
    · rw [hq, hnew]
      simp
    · cases Table.get? q cells with
      | none => simp [hq, Ne.symm hq]
      | some d => simp [Ne.symm hq]
  · rw [Table.get?_append] at hq
    cases hd : Table.get? q cells with
    | some d' =>
      rw [hd] at hq
      cases hq
      exact h.shared hd
    | none =>
      rw [hd] at hq
      dsimp only at hq
      split at hq
      · cases hq
        exact Nat.zero_lt_one
      · cases hq
  · rcases containerAt?_append he with ⟨rfl, hbody⟩ | he
    · convert (hb e hbody).1 using 1
      funext s
      refine Multiset.count_eq_zero.mpr fun hm => ?_
      rcases Multiset.mem_add.mp hm with hm | hm
      · exact absurd (h.below _ hm) (Nat.lt_irrefl _)
      · simp at hm
    · simpa using h.stores he
  · rcases containerAt?_append he with ⟨rfl, hbody⟩ | he
    · exact (hb e hbody).2
    · exact h.guarded he
  · rcases Multiset.mem_add.mp hz with hz | hz
    · exact h.rows hz
    · simp at hz
  · simpa [owners_add] using h.owned j
  · rcases Multiset.mem_add.mp ha with ha | ha
    · exact (h.below a ha).mono (Nat.le_succ _) (Nat.le_refl _)
    · obtain ⟨r, hr, rfl⟩ := mem_handles_iff.mp ha
      cases List.mem_singleton.mp hr
      exact Nat.lt_succ_self _
  · simpa using h.accounted n
  · simpa using h.permitted n

end Books

/-! ## changes of the world -/

namespace World.InOrder

open Table

variable {w : World} {u hands : Hands} {r id : Nat}

theorem exists_of_mem (h : w.InOrder hands) (hr : .handle r ∈ hands) :
    ∃ d, get? r w.cells = some d := h.books.exists_of_mem (Multiset.mem_add.mpr (.inr hr))

theorem exists_of_mem_assets (h : w.InOrder hands) (hr : .handle r ∈ w.assets) :
    ∃ d, get? r w.cells = some d := h.books.exists_of_mem (Multiset.mem_add.mpr (.inl hr))

/-- The same assets, in other hands. -/
theorem balance (h : w.InOrder hands) {all : Hands} (e : all = w.assets + hands) :
    Books all w.cells w.fresh w.walks w.freshWalk w.numbers := e ▸ h.books

theorem of_eq (h : w.InOrder hands) (e : u = hands) : w.InOrder u := e ▸ h

theorem setFrames {frames : List (List Event)} (h : w.InOrder hands)
    (hf : ∀ log ∈ frames, ∀ e ∈ log, e.Clean) : { w with frames }.InOrder hands :=
  { h with clean := hf }

/-! ### names -/

theorem rebind {b : Binding} (h : w.InOrder (u + b.assets)) (name : String) :
    { w with names := put name b w.names }.InOrder
      (u + (get? name w.names).elim 0 Binding.assets) := by
  refine { h with names := h.names.put name b, books := h.balance ?_ }
  unfold World.assets World.loose
  rw [total_put, total_take Binding.assets h.names name]
  abel

theorem unbind (h : w.InOrder u) (name : String) :
    { w with names := erase name w.names }.InOrder
      (u + (get? name w.names).elim 0 Binding.assets) := by
  refine { h with names := h.names.erase name, books := h.balance ?_ }
  unfold World.assets World.loose
  rw [total_take Binding.assets h.names name]
  abel

theorem putIterator {x : Iterator} (h : w.InOrder (u + x.assets)) (it : String) :
    { w with iterators := put it x w.iterators }.InOrder
      (u + (get? it w.iterators).elim 0 Iterator.assets) := by
  refine { h with iterators := h.iterators.put it x, books := h.balance ?_ }
  unfold World.assets World.loose
  rw [total_put, total_take Iterator.assets h.iterators it]
  abel

theorem takeIterator (h : w.InOrder u) (it : String) :
    { w with iterators := erase it w.iterators }.InOrder
      (u + (get? it w.iterators).elim 0 Iterator.assets) := by
  refine { h with iterators := h.iterators.erase it, books := h.balance ?_ }
  unfold World.assets World.loose
  rw [total_take Iterator.assets h.iterators it]
  abel

/-! ### visits and calls, and what is left behind -/

theorem pushVisit {k : Key} (h : w.InOrder (u + handles k.refs)) :
    { w with visiting := k :: w.visiting }.InOrder u := by
  refine { h with books := h.balance ?_ }
  unfold World.assets World.loose
  rw [List.flatMap_cons, handles_append]
  abel

theorem pushCall {c : Call} (h : w.InOrder (u + handles c.refs)) :
    { w with calls := c :: w.calls }.InOrder u := by
  refine { h with books := h.balance ?_ }
  unfold World.assets World.loose
  rw [List.flatMap_cons, handles_append]
  abel

/-- The innermost visits and calls end. -/
theorem pop (h : w.InOrder u) (n m : Nat) :
    { w with visiting := w.visiting.drop n, calls := w.calls.drop m }.InOrder
      (u + handles ((w.visiting.take n).flatMap Key.refs) +
        handles ((w.calls.take m).flatMap Call.refs)) := by
  refine { h with books := h.balance ?_ }
  have hvisits : w.visiting.flatMap Key.refs =
      (w.visiting.take n).flatMap Key.refs ++ (w.visiting.drop n).flatMap Key.refs := by
    rw [← List.flatMap_append, List.take_append_drop]
  have hcalls : w.calls.flatMap Call.refs =
      (w.calls.take m).flatMap Call.refs ++ (w.calls.drop m).flatMap Call.refs := by
    rw [← List.flatMap_append, List.take_append_drop]
  unfold World.assets World.loose
  rw [hvisits, hcalls, handles_append, handles_append]
  abel

theorem abandon {pieces : List Debris} (h : w.InOrder (u + piecesOf pieces))
    (hlimit : w.limits.rounds ≤ w.discarded) :
    { w with abandoned := pieces ++ w.abandoned }.InOrder u := by
  refine { h with books := h.balance ?_, patient := .inr hlimit }
  unfold World.assets World.loose
  rw [piecesOf_append]
  abel

theorem leak {s? : Option Nat} (h : w.InOrder (u + pinAt r s?)) :
    { w with leaks := (s?.map fun s => (r, s)).toList ++ w.leaks }.InOrder u := by
  refine { h with books := h.balance ?_ }
  unfold World.assets World.loose
  cases s? with
  | none => simp
  | some s =>
    rw [Option.map_some, Option.toList_some, List.map_append, List.map_singleton,
      ← Multiset.coe_add, Multiset.coe_singleton, pinAt]
    abel

/-! ### cursors -/

/-- The books with one asset set apart. -/
theorem apart (h : w.InOrder hands) (rest a : Hands) (e : rest + a = w.assets + hands) :
    Books (rest + a) w.cells w.fresh w.walks w.freshWalk w.numbers := h.balance e

theorem learn (h : w.InOrder (u + cursorAt id none)) :
    ∃ x, get? id w.walks = some x ∧ w.InOrder (u + cursorAt id (some x)) := by
  obtain ⟨x, hx, hbooks⟩ := (h.apart (w.assets + u) _ (add_assoc _ _ _)).learn
  exact ⟨x, hx, { h with books := add_assoc w.assets u _ ▸ hbooks }⟩

theorem forget {x : Walk} (h : w.InOrder (u + cursorAt id (some x))) :
    w.InOrder (u + cursorAt id none) := by
  have hbooks := (h.apart (w.assets + u) _ (add_assoc _ _ _)).forget
  exact { h with books := add_assoc w.assets u _ ▸ hbooks }

theorem known {x : Walk} (h : w.InOrder hands) (hx : .cursor id (some x) ∈ hands) :
    get? id w.walks = some x := h.books.rows (Multiset.mem_add.mpr (.inr hx))

/-- The world owns what a cursor holds, and what a container holds. -/
theorem subset_of_row {x : Walk} (h : w.InOrder hands) (hx : get? id w.walks = some x) :
    x.assets ⊆ w.assets := by
  intro a ha
  unfold World.assets World.loose
  rw [total_of_get? Walk.assets h.walks hx]
  simp [ha]

theorem subset_of_cell {d : Cell} (h : w.InOrder hands) (hd : get? r w.cells = some d) :
    d.assets ⊆ w.assets := by
  intro a ha
  rw [assets_eq, total_of_get? Cell.assets h.cells hd]
  simp [ha]

/-- The store of a cursor counts its pin. -/
theorem walking_sound {x : Walk} (h : w.InOrder hands) (hx : get? id w.walks = some x)
    (hr : x.store = some r) {c : Container} (hc : containerAt? w.cells r = some c) :
    ∃ pins, c.store.Sound (Chain.pinOn x.last pins) := by
  refine ⟨fun s => (w.assets + hands).count (.pin r s) - if x.last = some s then 1 else 0, ?_⟩
  convert h.books.stores hc using 1
  funext s
  by_cases hs : x.last = some s
  · have hmem : .pin r s ∈ w.assets := h.subset_of_row hx (by simp [Walk.assets, hr, mem_pinAt, hs])
    have hpos := Multiset.count_pos.mpr (Multiset.mem_add.mpr (.inl hmem) : .pin r s ∈ w.assets + hands)
    simp only [Chain.pinOn, if_pos hs]
    omega
  · simp only [Chain.pinOn, if_neg hs]
    rfl

theorem readable {x : Walk} (h : w.InOrder hands) (hx : get? id w.walks = some x) :
    x.Readable w.cells := by
  intro r hr
  obtain ⟨c, hc⟩ := Option.isSome_iff_exists.mp (h.walking hx hr)
  obtain ⟨pins, hs⟩ := h.walking_sound hx hr hc
  obtain ⟨freed, t, _, he, _⟩ := Store.advance_spec hs
  refine ⟨c, _, _, freed, t, hc, Store.entries_spec hs, fun s hlast => ?_, he,
    Store.firstAfter_ledger hs x.last⟩
  obtain ⟨e, _, he⟩ := Store.pinned_spec hs (s := s) (by simp [Chain.pinOn, hlast])
  exact ⟨_, he⟩

/-- Another time when user code runs goes on record. -/
theorem mark (h : w.InOrder hands) :
    { w with spent := w.spent + 1, moments := w.moment :: w.moments }.InOrder hands :=
  { h with
    moments := fun m hm => by
      rcases List.mem_cons.mp hm with rfl | hm
      · exact ⟨fun hc => h.books.guarded hc, fun hx => h.readable hx⟩
      · exact h.moments m hm
    registered := h.registered.mark w.walks }

theorem openRow {x : Walk} (h : w.InOrder (u + x.assets))
    (hx : ∀ r, x.store = some r → (containerAt? w.cells r).isSome) :
    { w with walks := w.walks ++ [(w.freshWalk, x)], freshWalk := w.freshWalk + 1 }.InOrder
      (u + cursorAt w.freshWalk (some x)) := by
  have hnew : get? w.freshWalk w.walks = none := by
    cases hy : get? w.freshWalk w.walks with
    | none => rfl
    | some y => exact absurd (h.books.lt_freshWalk hy) (Nat.lt_irrefl _)
  refine { h with walks := h.walks.append hnew x, books := ?_, walking := fun {id y r} hy hr => ?_ }
  swap
  · rw [get?_append] at hy
    split at hy
    · rename_i hold
      cases hy
      exact h.walking hold hr
    · split at hy
      · cases hy
        exact hx r hr
      · cases hy
  convert h.books.openRow x using 1
  unfold World.assets World.loose
  rw [total_append]
  abel

/-- A cursor is moved: it keeps some assets, takes some and gives some. -/
theorem setRow {x y : Walk} {kept taken given : Hands}
    (h : w.InOrder (u + cursorAt id (some x) + taken)) (hx : x.assets = kept + given)
    (hy : y.assets = kept + taken) (hstore : ∀ r, y.store = some r → x.store = some r) :
    { w with walks := put id y w.walks }.InOrder (u + cursorAt id (some y) + given) := by
  have hid : get? id w.walks = some x := h.known (by simp)
  refine { h with walks := h.walks.put id y, books := ?_, walking := fun {j z r} hz hr => ?_ }
  swap
  · rw [get?_put] at hz
    split at hz
    · cases hz
      exact h.walking hid (hstore r hr)
    · exact h.walking hz hr
  have hbooks := h.apart (w.assets + u + taken) (cursorAt id (some x)) (by abel)
  convert hbooks.setRow y using 1
  unfold World.assets World.loose
  rw [total_put, total_of_get? Walk.assets h.walks hid, hx, hy]
  abel

theorem eraseRow {x : Walk} (h : w.InOrder (u + cursorAt id (some x))) :
    { w with walks := erase id w.walks }.InOrder (u + x.assets) := by
  have hx : get? id w.walks = some x := h.known (by simp)
  refine { h with walks := h.walks.erase id, books := ?_, walking := fun {j z r} hz hr => ?_ }
  swap
  · rw [get?_erase] at hz
    split at hz
    · cases hz
    · exact h.walking hz hr
  have hbooks := h.apart (w.assets + u) (cursorAt id (some x)) (by abel)
  convert hbooks.eraseRow using 1
  unfold World.assets World.loose
  rw [total_of_get? Walk.assets h.walks hx]
  abel

/-! ### tracked numbers -/

theorem supply (h : w.InOrder u) :
    { w with freshNumber := w.freshNumber + 1 }.InOrder
      (u + (tracking w.freshNumber + permit w.freshNumber)) := by
  have hbooks := h.books.supply
  rw [add_assoc] at hbooks
  exact { h with books := hbooks }

/-- What is in hand is held by no entry. -/
theorem unheld {n : Nat} (h : w.InOrder (u + tracking n)) {c : Container}
    (hc : containerAt? w.cells r = some c) : ∀ e ∈ c.store.contents, e.2.id? ≠ some n := by
  intro e he hn
  obtain ⟨m, hd⟩ := containerAt?_eq_some_iff.mp hc
  have hheld : .tracked n ∈ pairsOf c.store.held := by
    rw [← pairsOf_perm (Store.contents_perm (h.books.stores hc))]
    exact tracked_mem_pairsOf.mpr ⟨e, he, hn⟩
  have hcell : .tracked n ∈ w.assets := h.subset_of_cell hd hheld
  have hone := h.books.accounted n
  have hpos := Multiset.count_pos.mpr hcell
  rw [Multiset.count_add, Multiset.count_add, count_tracked_tracking, if_pos rfl] at hone
  split at hone <;> omega

theorem releaseNumber {n : Nat} (h : w.InOrder (u + tracking n)) :
    { w with releases := ⟨n, w.cells⟩ :: w.releases }.InOrder u := by
  have hbooks := (h.apart (w.assets + u) (tracking n) (add_assoc _ _ _)).release
  have hfirst : n ∉ w.released := by
    have hone : w.released.count n + _ = _ := h.books.accounted n
    rw [← add_assoc, Multiset.count_add, count_tracked_tracking, if_pos rfl] at hone
    refine List.count_eq_zero.mp ?_
    split at hone <;> omega
  refine { h with books := hbooks, releases := fun later x earlier e => ?_ }
  cases later with
  | nil =>
    cases e
    exact ⟨hfirst, h.unheld⟩
  | cons y later =>
    obtain ⟨_, htail⟩ := List.cons.inj e
    exact h.releases later x earlier htail

theorem enter {n : Nat} (h : w.InOrder (u + permit n)) (r : Nat) :
    { w with stored := (n, r) :: w.stored }.InOrder u := by
  have hbooks := (h.apart (w.assets + u) (permit n) (add_assoc _ _ _)).enter r
  exact { h with books := hbooks, homes := fun hc m hm => List.mem_cons_of_mem _ (h.homes hc m hm) }

theorem forgo {permits : Hands} (h : w.InOrder (u + permits))
    (hpermits : ∀ a ∈ permits, ∃ n, a = .permit n) : w.InOrder u :=
  { h with books := (h.apart (w.assets + u) permits (add_assoc _ _ _)).forgo hpermits }

/-! ### objects -/

/-- Handles on one object come and go. -/
theorem setHandles {d : Cell} {l : List Nat} {n : Nat} (h : w.InOrder (u + handles l))
    (l' : List Nat) (hd : get? r w.cells = some d) (hn : 0 < n)
    (hcount : n + l.count r = d.handles + l'.count r)
    (hother : ∀ q, q ≠ r → l.count q = l'.count q) (hbelow : ∀ q ∈ l', q = r) :
    { w with cells := change r (fun e => { e with handles := n }) w.cells }.InOrder
      (u + handles l') := by
  have hcells : Distinct (change r (fun e => { e with handles := n }) w.cells) := h.cells.change r _
  have hbooks := (h.apart (w.assets + u) (handles l) (add_assoc _ _ _)).recount l'
    (change r (fun e => { e with handles := n }) w.cells) ?_ ?_ ?_ ?_
  · refine { h with cells := hcells, books := ?_, homes := fun {q c} hc => ?_,
                    walking := fun {id x q} hx hq => ?_,
                    registered := h.registered.of_cells fun {q _} hc =>
                      containerAt?_setHandles r q n w.cells ▸ hc }
    · convert hbooks using 1
      rw [assets_setCells, assets_eq w, total_change _ h.cells hd, total_of_get? _ h.cells hd]
      show d.body.assets + _ + _ + _ = d.body.assets + _ + _ + _ + _
      abel
    · exact h.homes (containerAt?_setHandles r q n w.cells ▸ hc)
    · rw [containerAt?_setHandles]
      exact h.walking hx hq
  · intro q
    rw [handlesAt_setHandles]
    by_cases hq : q = r
    · subst hq
      simpa [handlesAt, hd] using hcount
    · rw [if_neg hq, hother q hq]
  · intro q e he
    rw [get?_change] at he
    split at he
    · obtain ⟨e', _, rfl⟩ := Option.map_eq_some_iff.mp he
      exact hn
    · exact h.books.shared he
  · intro q c hc
    rwa [containerAt?_setHandles] at hc
  · intro q hq
    rw [hbelow q hq]
    exact h.books.lt_fresh hd

/-- One handle more on an object. -/
theorem retain {d : Cell} (h : w.InOrder u) (hd : get? r w.cells = some d) :
    { w with cells := change r (fun e => { e with handles := d.handles + 1 }) w.cells }.InOrder
      (u + handles [r]) := by
  have hu : w.InOrder (u + handles []) := h.of_eq (add_zero u)
  apply hu.setHandles [r] hd (Nat.succ_pos _)
  · simp
  · intro q hq
    simp [Ne.symm hq]
  · simp

/-- One handle less on an object, which has others. -/
theorem release {d : Cell} (h : w.InOrder (u + handles [r])) (hd : get? r w.cells = some d)
    (hn : 1 < d.handles) :
    { w with cells := change r (fun e => { e with handles := d.handles - 1 }) w.cells }.InOrder
      u := by
  refine (h.setHandles [] hd (by omega) ?_ ?_ ?_).of_eq (by simp)
  · simp
    omega
  · intro q hq
    simp [Ne.symm hq]
  · simp

/-- An object goes away with its last handle, and leaves what it owned. -/
theorem destroy {d : Cell} (h : w.InOrder (u + handles [r])) (hd : get? r w.cells = some d)
    (hn : d.handles ≤ 1) :
    { w with cells := erase r w.cells }.InOrder (u + d.body.assets) := by
  have hpos := h.books.shared hd
  have hbooks := (h.apart (w.assets + u) (handles [r]) (add_assoc _ _ _)).recount []
    (erase r w.cells) ?_ ?_ ?_ (by simp)
  · refine { h with cells := h.cells.erase r, books := ?_,
                     homes := fun hc => h.homes (containerAt?_of_erase hc),
                     walking := fun {id x q} hx hq => ?_,
                     registered := h.registered.of_cells containerAt?_of_erase }
    swap
    · refine isSome_containerAt?_erase (fun he => ?_) (h.walking hx hq)
      -- the cursor has a handle of its own, besides the one that is in hand
      have hcursor : .handle r ∈ w.assets :=
        h.subset_of_row hx (by simp [Walk.assets, hq, he])
      have htwo := h.books.counted r
      have hone := Multiset.count_pos.mpr hcursor
      rw [Multiset.count_add, Multiset.count_add, count_handle_handles, List.count_singleton_self,
        handlesAt, hd, Option.map_some, Option.getD_some] at htwo
      omega
    convert hbooks using 1
    rw [assets_setCells, assets_eq w, total_of_get? _ h.cells hd, handles_nil]
    show _ + _ + (u + d.body.assets) = d.body.assets + _ + _ + _ + _
    abel
  · intro q
    unfold handlesAt
    rw [get?_erase]
    by_cases hq : q = r
    · subst hq
      simp [hd]
      omega
    · simp [hq, Ne.symm hq]
  · intro q e he
    rw [get?_erase] at he
    split at he
    · cases he
    · exact h.books.shared he
  · intro q c hc
    exact containerAt?_of_erase hc

/-- A store counts the pins that are in hand. -/
theorem store_sound {c : Container} {s? : Option Nat} (h : w.InOrder (u + pinAt r s?))
    (hc : containerAt? w.cells r = some c) :
    c.store.Sound (Chain.pinOn s? fun s => (w.assets + u).count (.pin r s)) := by
  convert (h.apart (w.assets + u) (pinAt r s?) (add_assoc _ _ _)).stores hc using 1
  funext s
  simp [count_pin_pinAt, Chain.pinOn]

/-- A container is changed: entries go in and come out, and a pin moves.  What is new is put on
record. -/
theorem setContainer {c c' : Container} {taken given : Hands} {from? to? : Option Nat}
    {more : List Origin}
    (h : w.InOrder (u + taken + pinAt r from?)) (hc : containerAt? w.cells r = some c)
    (hheld : pairsOf c'.store.held + given = pairsOf c.store.held + taken)
    (hhome : w.Houses r taken)
    (hstore : ∀ pins, c.store.Sound (Chain.pinOn from? pins) →
      c'.store.Sound (Chain.pinOn to? pins))
    (hguard : c'.Disciplined) (hgrows : c.Grows c' r more) :
    { w with cells := change r (fun d => { d with body := .container c' }) w.cells
             origins := more ++ w.origins }.InOrder (u + given + pinAt r to?) := by
  obtain ⟨n, hd⟩ := containerAt?_eq_some_iff.mp hc
  have hcells : Distinct (change r (fun d => { d with body := .container c' }) w.cells) :=
    h.cells.change r _
  have hapart := h.apart (w.assets + u + taken) (pinAt r from?) (by abel)
  have hbooks := hapart.setContainer hc (hstore _ (add_assoc w.assets u _ ▸ h.store_sound hc)) hguard
  refine { h with cells := hcells, books := ?_, homes := fun {q e} he m hm => ?_,
                  walking := fun hx hq => isSome_containerAt?_setContainer hc (h.walking hx hq),
                  registered := h.registered.setContainer (h.books.lt_fresh hd) hc hgrows }
  swap
  · rcases containerAt?_setContainer hc he with ⟨rfl, rfl⟩ | ⟨_, he⟩
    · have hold : .tracked m ∈ pairsOf c.store.held + taken :=
        hheld ▸ Multiset.mem_add.mpr (.inl hm)
      exact (Multiset.mem_add.mp hold).elim (h.homes hc m) (hhome m)
    · exact h.homes he m hm
  convert hbooks using 1
  show World.assets { w with cells := change r _ w.cells } + _ = _
  rw [assets_setCells, assets_eq w, total_change _ h.cells hd, total_of_get? _ h.cells hd]
  calc pairsOf c'.store.held + total Cell.assets (erase r w.cells) + w.loose +
        (u + given + pinAt r to?)
      = (pairsOf c'.store.held + given) +
        (total Cell.assets (erase r w.cells) + w.loose + (u + pinAt r to?)) := by abel
    _ = (pairsOf c.store.held + taken) +
        (total Cell.assets (erase r w.cells) + w.loose + (u + pinAt r to?)) := by rw [hheld]
    _ = pairsOf c.store.held + total Cell.assets (erase r w.cells) + w.loose + u +
        taken + pinAt r to? := by abel

/-- A function stays a function. -/
theorem setFunction {n : Nat} {f f' : FunctionBody} (h : w.InOrder u)
    (hd : get? r w.cells = some ⟨n, .function f⟩) :
    { w with cells := change r (fun d => { d with body := .function f' }) w.cells }.InOrder u := by
  have hcells : Distinct (change r (fun d => { d with body := .function f' }) w.cells) :=
    h.cells.change r _
  have hbooks : Books _ (change r (fun d => { d with body := .function f' }) w.cells) _ _ _ _ :=
    h.books.setPlain rfl
  have hplain : containerAt? w.cells r = none := by
    unfold containerAt?
    rw [hd]
    rfl
  refine { h with cells := hcells, books := ?_,
                  homes := fun hc => h.homes (containerAt?_of_setPlain rfl hc),
                  walking := fun hx hq => isSome_containerAt?_setPlain hplain (h.walking hx hq),
                  registered := h.registered.of_cells (containerAt?_of_setPlain rfl) }
  convert hbooks using 1
  rw [assets_setCells, assets_eq w, total_change _ h.cells hd, total_of_get? _ h.cells hd]
  rfl

theorem allocate {body : Body} (h : w.InOrder u) (hassets : body.assets = 0)
    (hb : ∀ c, body.container? = some c → c.store.Sound (fun _ => 0) ∧ c.Disciplined)
    (hnew : ∀ {c}, body.container? = some c → ∀ s, c.store.chain.arena.get? s = none) :
    { w with cells := w.cells ++ [(w.fresh, Cell.mk 1 body)], fresh := w.fresh + 1 }.InOrder
      (u + handles [w.fresh]) := by
  have hfree : get? w.fresh w.cells = none := by
    cases hd : get? w.fresh w.cells with
    | none => rfl
    | some d => exact absurd (h.books.lt_fresh hd) (Nat.lt_irrefl _)
  have hcells : Distinct (w.cells ++ [(w.fresh, Cell.mk 1 body)]) := h.cells.append hfree _
  refine { h with cells := hcells, books := ?_, homes := fun {q c} hc m hm => ?_,
                  walking := fun hx hq => isSome_containerAt?_append (h.walking hx hq),
                  registered := h.registered.allocate hnew }
  · convert h.books.allocate hb using 1
    rw [assets_setCells, assets_eq w, total_append]
    show _ + body.assets + _ + _ = _
    rw [hassets]
    abel
  · rcases containerAt?_append hc with ⟨_, hbody⟩ | hc
    · cases body with
      | container c' =>
        cases hbody
        have hnone : pairsOf c.store.held = 0 := hassets
        rw [hnone] at hm
        exact absurd hm (Multiset.notMem_zero _)
      | _ => cases hbody
    · exact h.homes hc m hm

end World.InOrder

end LiveOrder
