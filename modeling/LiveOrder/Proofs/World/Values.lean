import Mathlib.Data.Finset.Max
import LiveOrder.Proofs.World.Run

/-!
# Values in programs

A tracked number that has been stored is in its container until it is released, and nowhere else.

* `Container.keeping`   the entries that hold a number, live or removed;
* `World.kept`, `World.givenUp`   where a number can be: in its container, or among the pieces whose
                        release was given up at the limit of the run;
* `World.Conserves`     what becomes of all values that have been stored;
* `Resting.conserves`   it is so between the operations of every program;
* `World.Settled`, `InOrder.settled`   a container that goes away gives up what it held.
-/

namespace LiveOrder

/-! ## where things are -/

namespace Debris

def id? : Debris → Option Nat
  | .item i => i.id?
  | .key _ | .handle _ => none

end Debris

namespace Container

def keeping (c : Container) (id : Nat) : Nat := c.store.contents.countP (·.2.id? = some id)

/-- The objects that the entries of a container keep alive. -/
def refs (c : Container) : List Nat := c.store.contents.flatMap fun e => e.1.refs ++ e.2.refs

end Container

section
variable {id r : Nat} {a : Asset}

theorem count_tracked_assets (i : Item) :
    i.assets.count (.tracked id) = if i.id? = some id then 1 else 0 := by
  cases i <;> simp [Item.assets, Item.id?, count_tracked_tracking, eq_comm]

theorem count_tracked_pairsOf (pairs : List (Key × Item)) :
    (pairsOf pairs).count (.tracked id) = pairs.countP (·.2.id? = some id) := by
  induction pairs with
  | nil => rfl
  | cons e rest ih =>
    rw [pairsOf_cons, Multiset.count_add, Multiset.count_add, ih, count_tracked_handles, zero_add,
      count_tracked_assets, List.countP_cons, add_comm]
    simp only [decide_eq_true_eq]

theorem count_tracked_piecesOf (pieces : List Debris) :
    (piecesOf pieces).count (.tracked id) = pieces.countP (·.id? = some id) := by
  induction pieces with
  | nil => rfl
  | cons d rest ih =>
    have hone : d.assets.count (.tracked id) = if d.id? = some id then 1 else 0 := by
      cases d with
      | item i => exact count_tracked_assets i
      | key k => simp [Debris.assets, Debris.id?]
      | handle r => simp [Debris.assets, Debris.id?]
    rw [piecesOf_cons, Multiset.count_add, ih, hone, List.countP_cons, add_comm]
    simp only [decide_eq_true_eq]

theorem handle_mem_pairsOf {pairs : List (Key × Item)} (h : .handle r ∈ pairsOf pairs) :
    r ∈ pairs.flatMap fun e => e.1.refs ++ e.2.refs := by
  induction pairs with
  | nil => exact absurd h (Multiset.notMem_zero _)
  | cons e rest ih =>
    rw [pairsOf_cons, Multiset.mem_add, Multiset.mem_add] at h
    rw [List.flatMap_cons, List.mem_append, List.mem_append]
    rcases h with (hkey | hitem) | hrest
    · exact .inl (.inl (handle_mem_handles.mp hkey))
    · exact .inl (.inr (Item.handle_mem_assets.mp hitem))
    · exact .inr (ih hrest)

/-- What a table owns is owned by one of its rows. -/
theorem Table.mem_total {κ α : Type} {f : α → Hands} {t : List (κ × α)} :
    a ∈ Table.total f t ↔ ∃ row ∈ t, a ∈ f row.2 := by
  induction t with
  | nil => simp [Table.total]
  | cons row rest ih => simp [Table.total_cons, ih]

end

namespace World

def kept (w : World) (r id : Nat) : Nat := (containerAt? w.cells r).elim 0 (·.keeping id)

def givenUp (w : World) (id : Nat) : Nat := w.abandoned.countP (·.id? = some id)

theorem count_tracked_loose (w : World) (id : Nat) :
    w.loose.count (.tracked id) = w.givenUp id := by
  have hnames : (Table.total Binding.assets w.names).count (.tracked id) = 0 := by
    refine Multiset.count_eq_zero.mpr fun hm => ?_
    obtain ⟨row, _, hm⟩ := Table.mem_total.mp hm
    simp [Binding.assets, handles] at hm
  have hwalks : (Table.total Walk.assets w.walks).count (.tracked id) = 0 := by
    refine Multiset.count_eq_zero.mpr fun hm => ?_
    obtain ⟨row, _, hm⟩ := Table.mem_total.mp hm
    unfold Walk.assets at hm
    split at hm
    · simp [handles, mem_pinAt] at hm
    · exact absurd hm (Multiset.notMem_zero _)
  have hiterators : (Table.total Iterator.assets w.iterators).count (.tracked id) = 0 := by
    refine Multiset.count_eq_zero.mpr fun hm => ?_
    obtain ⟨row, _, hm⟩ := Table.mem_total.mp hm
    simp [Iterator.assets] at hm
  have hleaks : ((w.leaks.map fun p => Asset.pin p.1 p.2 : List Asset) : Hands).count (.tracked id) =
      0 := Multiset.count_eq_zero.mpr fun hm => by simp at hm
  unfold loose
  simp only [Multiset.count_add, hnames, hwalks, hiterators, hleaks, count_tracked_handles,
    count_tracked_piecesOf, zero_add, add_zero]
  rfl

/-! ## conservation -/

structure Conserves (w : World) : Prop where
  /-- nothing is stored twice -/
  once : (w.stored.map (·.1)).Nodup
  /-- what the entries of a container hold, live or removed, has been stored there -/
  homes : ∀ {r c e id}, containerAt? w.cells r = some c → e ∈ c.store.contents →
    e.2.id? = some id → (id, r) ∈ w.stored
  /-- what has been stored in a container is held by one of its entries, or has been released,
  once -/
  conserved : ∀ {id r}, (id, r) ∈ w.stored → w.released.count id + w.kept r id + w.givenUp id = 1
  /-- it was released when no entry held it -/
  due : ∀ later x earlier, w.releases = later ++ x :: earlier → x.Due earlier
  /-- no release is given up but at the limit of the run -/
  patient : w.abandoned = [] ∨ w.limits.rounds ≤ w.discarded
  /-- the handles of an object are those that the world holds -/
  shared : ∀ r, handlesAt w.cells r = w.assets.count (.handle r)
  /-- when nothing has a name and no cursor walks, only objects are left that own each other in a
  cycle -/
  acyclic : ∀ rank : Nat → Nat,
    (∀ {r c q}, containerAt? w.cells r = some c → q ∈ c.refs → rank q < rank r) →
    w.names = [] → (∀ row ∈ w.walks, row.2.store = none) → w.abandoned = [] → w.cells = []

/-- The containers that are there at one time and not at a later one have given up what they held,
which had not been released before. -/
def Settled (w v : World) : Prop :=
  ∀ {r c e id}, containerAt? w.cells r = some c → containerAt? v.cells r = none →
    e ∈ c.store.contents → e.2.id? = some id →
    id ∉ w.released ∧ v.released.count id + v.givenUp id = 1

namespace InOrder

variable {w : World} {hands : Hands} {id r q : Nat} {c : Container}

theorem once (h : w.InOrder hands) : (w.stored.map (·.1)).Nodup := by
  refine List.nodup_iff_count_le_one.mpr fun n => ?_
  have hn : _ + (w.stored.map (·.1)).count n ≤ _ := h.books.permitted n
  split at hn <;> omega

theorem home_unique (h : w.InOrder hands) (hr : (id, r) ∈ w.stored) (hq : (id, q) ∈ w.stored) :
    q = r :=
  congrArg Prod.snd (List.inj_on_of_nodup_map h.once hq hr rfl)

/-- What has been stored has been made. -/
theorem lt_freshNumber (h : w.InOrder hands) (hs : (id, r) ∈ w.stored) : id < w.freshNumber := by
  have hone : 0 < (w.stored.map (·.1)).count id :=
    List.count_pos_iff.mpr (List.mem_map.mpr ⟨_, hs, rfl⟩)
  have hid : _ + (w.stored.map (·.1)).count id ≤ _ := h.books.permitted id
  split at hid
  · assumption
  · omega

theorem pairsOf_contents (h : w.InOrder hands) (hc : containerAt? w.cells r = some c) :
    pairsOf c.store.contents = pairsOf c.store.held :=
  pairsOf_perm (Store.contents_perm (h.books.stores hc))

theorem tracked_mem_held (h : w.InOrder hands) (hc : containerAt? w.cells r = some c) :
    .tracked id ∈ pairsOf c.store.held ↔ ∃ e ∈ c.store.contents, e.2.id? = some id := by
  rw [← h.pairsOf_contents hc]
  exact tracked_mem_pairsOf

/-- No container but its own holds a number. -/
theorem notMem_total (h : w.InOrder hands) (hs : (id, r) ∈ w.stored) {cells : List (Nat × Cell)}
    (hcells : ∀ row ∈ cells, row ∈ w.cells)
    (hne : ∀ {q c}, containerAt? w.cells q = some c → q ∈ cells.map (·.1) → q ≠ r) :
    .tracked id ∉ Table.total Cell.assets cells := by
  intro hm
  obtain ⟨⟨q, n, body⟩, hrow, hm⟩ := Table.mem_total.mp hm
  cases body with
  | container c =>
    have hc : containerAt? w.cells q = some c :=
      containerAt?_eq_some_iff.mpr ⟨n, Table.get?_of_mem h.cells (hcells _ hrow)⟩
    exact hne hc (List.mem_map.mpr ⟨_, hrow, rfl⟩) (h.home_unique hs (h.homes hc id hm))
  | function f => exact absurd hm (Multiset.notMem_zero _)
  | allocation s => exact absurd hm (Multiset.notMem_zero _)

theorem count_tracked_total (h : w.InOrder hands) (hs : (id, r) ∈ w.stored) :
    (Table.total Cell.assets w.cells).count (.tracked id) = w.kept r id := by
  unfold kept
  cases hc : containerAt? w.cells r with
  | none =>
    refine Multiset.count_eq_zero.mpr (h.notMem_total hs (fun _ hrow => hrow) fun hq _ e => ?_)
    rw [e, hc] at hq
    cases hq
  | some c =>
    obtain ⟨n, hd⟩ := containerAt?_eq_some_iff.mp hc
    have hrest : (Table.total Cell.assets (Table.erase r w.cells)).count (.tracked id) = 0 := by
      refine Multiset.count_eq_zero.mpr (h.notMem_total hs (fun row hrow => ?_) fun _ hq e => ?_)
      · exact (List.mem_filter.mp hrow).1
      · obtain ⟨row, hrow, hq⟩ := List.mem_map.mp hq
        exact of_decide_eq_true (List.mem_filter.mp hrow).2 (hq.trans e)
    rw [Table.total_of_get? Cell.assets h.cells hd, Multiset.count_add, hrest, add_zero]
    show (pairsOf c.store.held).count (.tracked id) = _
    rw [← h.pairsOf_contents hc, count_tracked_pairsOf]
    rfl

/-- A number that has been stored is held by one entry, or by one piece whose release was given up,
or is in hand, or it has been released. -/
theorem conserved (h : w.InOrder hands) (hs : (id, r) ∈ w.stored) :
    w.released.count id + w.kept r id + w.givenUp id + hands.count (.tracked id) = 1 := by
  have hid : w.released.count id + (w.assets + hands).count (.tracked id) = _ :=
    h.books.accounted id
  rw [if_pos (h.lt_freshNumber hs), Multiset.count_add, assets_eq, Multiset.count_add,
    h.count_tracked_total hs, count_tracked_loose] at hid
  omega

/-- A container that goes away gives up what it held, unless somebody else takes it in hand. -/
theorem settled (h : w.InOrder hands) {v : World} {hands' : Hands} (h' : v.InOrder hands')
    (hon : Onward w v) (hle : ∀ id, hands'.count (.tracked id) ≤ hands.count (.tracked id)) :
    w.Settled v := by
  intro r c e id hc hgone he hid
  have hs : (id, r) ∈ w.stored := h.homes hc _ ((h.tracked_mem_held hc).mpr ⟨e, he, hid⟩)
  have hbefore := h.conserved hs
  have hafter := h'.conserved (hon.stored.subset hs)
  have hheld : 0 < w.kept r id := by
    rw [kept, hc]
    exact List.countP_pos_iff.mpr ⟨e, he, decide_eq_true hid⟩
  have hgone' : v.kept r id = 0 := by rw [kept, hgone, Option.elim_none]
  have hhands := hle id
  exact ⟨List.count_eq_zero.mp (by omega), by omega⟩

/-- Somebody has a handle on each object. -/
theorem handle_mem (h : w.InOrder hands) {d : Cell} (hd : Table.get? r w.cells = some d) :
    .handle r ∈ w.assets + hands := by
  have hcount := h.books.counted r
  have hpos := h.books.shared hd
  rw [handlesAt, hd, Option.map_some, Option.getD_some] at hcount
  exact Multiset.count_pos.mp (hcount ▸ hpos)

/-- Who has a handle on an object, when nobody at work, no name, no cursor and nothing that was
given up has one, is a container. -/
theorem owner_of_loose (h : w.InOrder 0) (hloose : .handle r ∉ w.loose)
    {d : Cell} (hd : Table.get? r w.cells = some d) :
    ∃ q c, containerAt? w.cells q = some c ∧ r ∈ c.refs := by
  have hr := h.handle_mem hd
  rw [add_zero, assets_eq, Multiset.mem_add] at hr
  obtain ⟨⟨q, n, body⟩, hrow, hm⟩ := Table.mem_total.mp (hr.resolve_right hloose)
  cases body with
  | container c =>
    have hc : containerAt? w.cells q = some c :=
      containerAt?_eq_some_iff.mpr ⟨n, Table.get?_of_mem h.cells hrow⟩
    refine ⟨q, c, hc, handle_mem_pairsOf ?_⟩
    rw [h.pairsOf_contents hc]
    exact hm
  | function f => exact absurd hm (Multiset.notMem_zero _)
  | allocation s => exact absurd hm (Multiset.notMem_zero _)

end InOrder

/-- Neither names nor cursors nor what was given up have a handle. -/
theorem handle_notMem_loose {w : World} {r : Nat} (hnames : w.names = [])
    (hwalks : ∀ row ∈ w.walks, row.2.store = none) (habandoned : w.abandoned = [])
    (hvisiting : w.visiting = []) (hcalls : w.calls = []) : .handle r ∉ w.loose := by
  have hwalk : .handle r ∉ Table.total Walk.assets w.walks := by
    intro hm
    obtain ⟨row, hrow, hm⟩ := Table.mem_total.mp hm
    rw [Walk.assets, hwalks row hrow] at hm
    exact Multiset.notMem_zero _ hm
  have hiterator : .handle r ∉ Table.total Iterator.assets w.iterators := by
    intro hm
    obtain ⟨row, _, hm⟩ := Table.mem_total.mp hm
    cases mem_cursorAt.mp hm
  unfold loose
  rw [hnames, hvisiting, hcalls, habandoned]
  simp [hwalk, hiterator]

namespace Resting

variable {w v : World}

theorem conserves (h : w.Resting) : w.Conserves where
  once := h.once
  homes hc he hid := h.homes hc _ ((h.tracked_mem_held hc).mpr ⟨_, he, hid⟩)
  conserved hs := h.conserved hs
  due := h.releases
  patient := h.patient
  shared r := by simpa using h.books.counted r
  acyclic rank hrank hnames hwalks habandoned := by
    by_contra hcells
    -- an object of the highest rank is owned by a container, which ranks still higher
    obtain ⟨r, hr, hmax⟩ := Finset.exists_max_image (w.cells.map (·.1)).toFinset rank
      (List.toFinset_nonempty_iff _ |>.mpr (by simpa using hcells))
    obtain ⟨row, hrow, rfl⟩ := List.mem_map.mp (List.mem_toFinset.mp hr)
    obtain ⟨q, c, hc, hq⟩ := h.owner_of_loose
      (handle_notMem_loose hnames hwalks habandoned h.visiting h.calls)
      (Table.get?_of_mem h.cells (show (row.1, row.2) ∈ w.cells from hrow))
    obtain ⟨n, hd⟩ := containerAt?_eq_some_iff.mp hc
    have hle := hmax q (List.mem_toFinset.mpr (List.mem_map.mpr ⟨_, Table.mem_of_get? hd, rfl⟩))
    exact Nat.lt_irrefl _ (Nat.lt_of_lt_of_le (hrank hc hq) hle)

end Resting

end World

end LiveOrder
