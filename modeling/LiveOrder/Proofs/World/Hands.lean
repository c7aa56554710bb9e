import Mathlib.Algebra.Order.BigOperators.Group.List
import Mathlib.Data.Multiset.OrderedMonoid
import Mathlib.Algebra.Order.Group.Multiset
import LiveOrder.Proofs.Store.Contents
import LiveOrder.Proofs.World.Tables
import LiveOrder.World.Run

/-!
# What is owned

Handles, pins, cursors and tracked numbers are assets: each has one owner.  The world owns what its
tables hold, and whoever is at work owns what is in his hands.  Who makes a tracked number also has
a permit to store it, which is used up when the number is stored and never given out again.

* `Asset`, `Hands`     handles on objects, pins on entries, cursors, tracked numbers and permits;
* `handles`, `pinAt`, `cursorAt`, `tracking`, `permit`   the assets that references, places, cursors and
                       numbers stand for;
* `Item.assets`, `piecesOf`, `pairsOf`, …     what items, pieces of debris and pairs hold;
* `Walk.assets`, `Body.assets`, …   what a row of a table owns;
* `World.assets`       what the world owns.
-/

namespace LiveOrder

/-! ## assets -/

/-- The owner of a cursor may know where it stands. -/
inductive Asset where
  | handle (r : Nat)
  | pin (r s : Nat)
  | cursor (id : Nat) (known : Option Walk)
  /-- a number that is released when it is not needed any more -/
  | tracked (id : Nat)
  /-- leave to store a number, which has not been stored yet -/
  | permit (id : Nat)
  deriving DecidableEq

abbrev Hands := Multiset Asset

namespace Asset

def cursor? : Asset → Option Nat
  | .cursor id _ => some id
  | _ => none

/-- The asset is about a tracked number. -/
def Numeric : Asset → Prop
  | .tracked _ | .permit _ => True
  | .handle _ | .pin .. | .cursor .. => False

/-- The numbers in an asset are numbers that have been given out. -/
def Below (fresh freshWalk : Nat) : Asset → Prop
  | .handle r | .pin r _ => r < fresh
  | .cursor id _ => id < freshWalk
  | .tracked _ | .permit _ => True

theorem Below.mono {fresh fresh' freshWalk freshWalk' : Nat} {a : Asset}
    (h : a.Below fresh freshWalk) (hle : fresh ≤ fresh') (hle' : freshWalk ≤ freshWalk') :
    a.Below fresh' freshWalk' := by
  cases a with
  | handle r => exact Nat.lt_of_lt_of_le h hle
  | pin r s => exact Nat.lt_of_lt_of_le h hle
  | cursor id known => exact Nat.lt_of_lt_of_le h hle'
  | tracked n => trivial
  | permit n => trivial

theorem Numeric.below {a : Asset} (h : a.Numeric) {fresh freshWalk : Nat} :
    a.Below fresh freshWalk := by
  cases a with
  | tracked n => trivial
  | permit n => trivial
  | _ => exact h.elim

end Asset

/-- The owners of a cursor. -/
def owners (all : Hands) (id : Nat) : Nat := all.countP (·.cursor? = some id)

def handles (refs : List Nat) : Hands := (refs.map Asset.handle : List Asset)

def cursorAt (id : Nat) (known : Option Walk) : Hands := {.cursor id known}

def pinAt (r : Nat) : Option Nat → Hands
  | some s => {.pin r s}
  | none => 0

def tracking (n : Nat) : Hands := {.tracked n}

def permit (n : Nat) : Hands := {.permit n}

/-! ## counts -/

section
variable {refs : List Nat} {r q s id j : Nat} {s? : Option Nat} {known : Option Walk} {a : Asset}
  {n m : Nat}

@[simp] theorem handles_nil : handles [] = 0 := rfl

theorem handles_cons (r : Nat) (refs : List Nat) :
    handles (r :: refs) = handles [r] + handles refs := rfl

@[simp] theorem handles_append (refs more : List Nat) :
    handles (refs ++ more) = handles refs + handles more := by
  unfold handles
  rw [List.map_append, Multiset.coe_add]

theorem handles_perm {more : List Nat} (h : refs.Perm more) : handles refs = handles more :=
  Multiset.coe_eq_coe.mpr (h.map _)

@[simp] theorem pinAt_none (r : Nat) : pinAt r none = 0 := rfl

theorem mem_add_handles (a : Hands) (r : Nat) : .handle r ∈ a + handles [r] :=
  Multiset.mem_add.mpr (.inr (Multiset.mem_singleton_self _))

theorem subset_add (a b : Hands) : a ⊆ a + b := Multiset.subset_of_le (Multiset.le_add_right _ _)

theorem owners_add (a b : Hands) (id : Nat) : owners (a + b) id = owners a id + owners b id :=
  Multiset.countP_add _ _ _

/-! ### what is in them -/

theorem mem_handles_iff : a ∈ handles refs ↔ ∃ r ∈ refs, .handle r = a := by
  simp [handles]

theorem mem_pinAt : a ∈ pinAt r s? ↔ ∃ s, s? = some s ∧ a = .pin r s := by
  cases s? <;> simp [pinAt]

@[simp] theorem mem_cursorAt : a ∈ cursorAt id known ↔ a = .cursor id known :=
  Multiset.mem_singleton

@[simp] theorem mem_tracking : a ∈ tracking n ↔ a = .tracked n := Multiset.mem_singleton

@[simp] theorem mem_permit : a ∈ permit n ↔ a = .permit n := Multiset.mem_singleton

@[simp] theorem handle_mem_handles : .handle r ∈ handles refs ↔ r ∈ refs := by
  simp [handles]

@[simp] theorem cursor_notMem_handles : .cursor id known ∉ handles refs := by
  simp [handles]

@[simp] theorem cursor_notMem_pinAt : .cursor id known ∉ pinAt r s? := by
  simp [mem_pinAt]

@[simp] theorem pin_notMem_handles : .pin r s ∉ handles refs := by
  simp [handles]

/-! ### how often -/

@[simp] theorem count_handle_handles : (handles refs).count (.handle r) = refs.count r := by
  unfold handles
  rw [Multiset.coe_count]
  exact List.count_map_of_injective _ _ (fun _ _ e => Asset.handle.inj e) r

@[simp] theorem count_handle_pinAt : (pinAt q s?).count (.handle r) = 0 :=
  Multiset.count_eq_zero.mpr fun h => by simp [mem_pinAt] at h

@[simp] theorem count_handle_cursorAt : (cursorAt id known).count (.handle r) = 0 := by
  simp [cursorAt]

@[simp] theorem count_pin_handles : (handles refs).count (.pin r s) = 0 :=
  Multiset.count_eq_zero.mpr pin_notMem_handles

theorem count_pin_pinAt :
    (pinAt q s?).count (.pin r s) = if r = q ∧ s? = some s then 1 else 0 := by
  cases s? with
  | none => simp [pinAt]
  | some u => simp [pinAt, Multiset.count_singleton, Asset.pin.injEq, eq_comm]

@[simp] theorem count_pin_cursorAt : (cursorAt id known).count (.pin r s) = 0 := by
  simp [cursorAt]

@[simp] theorem count_handle_tracking : (tracking n).count (.handle r) = 0 := by
  simp [tracking]

@[simp] theorem count_pin_tracking : (tracking n).count (.pin r s) = 0 := by
  simp [tracking]

@[simp] theorem count_tracked_handles : (handles refs).count (.tracked n) = 0 :=
  Multiset.count_eq_zero.mpr fun h => by simp [handles] at h

@[simp] theorem count_tracked_pinAt : (pinAt q s?).count (.tracked n) = 0 :=
  Multiset.count_eq_zero.mpr fun h => by simp [mem_pinAt] at h

@[simp] theorem count_tracked_cursorAt : (cursorAt id known).count (.tracked n) = 0 := by
  simp [cursorAt]

theorem count_tracked_tracking : (tracking m).count (.tracked n) = if n = m then 1 else 0 := by
  simp [tracking, Multiset.count_singleton]

@[simp] theorem count_handle_permit : (permit n).count (.handle r) = 0 := by
  simp [permit]

@[simp] theorem count_pin_permit : (permit n).count (.pin r s) = 0 := by
  simp [permit]

@[simp] theorem count_tracked_permit : (permit m).count (.tracked n) = 0 := by
  simp [permit]

@[simp] theorem count_permit_handles : (handles refs).count (.permit n) = 0 :=
  Multiset.count_eq_zero.mpr fun h => by simp [handles] at h

@[simp] theorem count_permit_pinAt : (pinAt q s?).count (.permit n) = 0 :=
  Multiset.count_eq_zero.mpr fun h => by simp [mem_pinAt] at h

@[simp] theorem count_permit_cursorAt : (cursorAt id known).count (.permit n) = 0 := by
  simp [cursorAt]

@[simp] theorem count_permit_tracking : (tracking m).count (.permit n) = 0 := by
  simp [tracking]

theorem count_permit_permit : (permit m).count (.permit n) = if n = m then 1 else 0 := by
  simp [permit, Multiset.count_singleton]

theorem owners_of_numeric {u : Hands} (h : ∀ a ∈ u, a.Numeric) : owners u id = 0 := by
  refine Multiset.countP_eq_zero.mpr fun a ha hid => ?_
  have hnumeric := h a ha
  cases a with
  | cursor j known => exact hnumeric
  | _ => cases hid

@[simp] theorem owners_handles : owners (handles refs) id = 0 := by
  refine Multiset.countP_eq_zero.mpr fun a ha => ?_
  obtain ⟨r, _, rfl⟩ := mem_handles_iff.mp ha
  exact nofun

@[simp] theorem owners_pinAt : owners (pinAt r s?) id = 0 := by
  refine Multiset.countP_eq_zero.mpr fun a ha => ?_
  obtain ⟨s, _, rfl⟩ := mem_pinAt.mp ha
  exact nofun

theorem owners_cursorAt : owners (cursorAt j known) id = if id = j then 1 else 0 := by
  unfold owners cursorAt
  rw [← Multiset.cons_zero, Multiset.countP_cons, Multiset.countP_zero, Nat.zero_add]
  simp [Asset.cursor?, eq_comm]

end

/-! ## what items and pieces hold -/

namespace Item

def refs : Item → List Nat
  | .value v => v.refs
  | _ => []

def id? : Item → Option Nat
  | .tracked id .. => some id
  | .unit | .copy _ | .value _ => none

def assets : Item → Hands
  | .tracked id .. => tracking id
  | .value v => handles v.refs
  | .unit | .copy _ => 0

/-- What allows an item to be stored. -/
def permits : Item → Hands
  | .tracked id .. => permit id
  | .unit | .copy _ | .value _ => 0

/-- What an item holds that is to be stored. -/
def offered (i : Item) : Hands := i.assets + i.permits

theorem tracked_mem_assets {i : Item} {id : Nat} : .tracked id ∈ i.assets ↔ i.id? = some id := by
  cases i <;> simp [assets, id?, handles, eq_comm]

theorem handle_mem_assets {i : Item} {r : Nat} : .handle r ∈ i.assets ↔ r ∈ i.refs := by
  cases i <;> simp [assets, refs]

theorem handles_refs_subset (i : Item) : handles i.refs ⊆ i.assets := by
  cases i with
  | value v => exact Multiset.Subset.refl _
  | _ => exact Multiset.zero_subset _

end Item

namespace Debris

def assets : Debris → Hands
  | .item i => i.assets
  | .key k => handles k.refs
  | .handle r => handles [r]

end Debris

/-- What pieces hold. -/
def piecesOf (pieces : List Debris) : Hands := (pieces.map Debris.assets).sum

/-- What pairs hold. -/
def pairsOf (pairs : List (Key × Item)) : Hands :=
  (pairs.map fun e => handles e.1.refs + e.2.assets).sum

@[simp] theorem piecesOf_nil : piecesOf [] = 0 := rfl

@[simp] theorem piecesOf_cons (d : Debris) (pieces : List Debris) :
    piecesOf (d :: pieces) = d.assets + piecesOf pieces := List.sum_cons

@[simp] theorem piecesOf_append (pieces more : List Debris) :
    piecesOf (pieces ++ more) = piecesOf pieces + piecesOf more := by
  rw [piecesOf, List.map_append, List.sum_append]
  rfl

/-- The pieces of many things hold what the things hold. -/
theorem piecesOf_flatMap {α : Type} {l : List α} {f : α → List Debris} {g : α → Hands}
    (h : ∀ a, piecesOf (f a) = g a) : piecesOf (l.flatMap f) = (l.map g).sum := by
  induction l with
  | nil => rfl
  | cons a rest ih => rw [List.flatMap_cons, piecesOf_append, ih, h, List.map_cons, List.sum_cons]

theorem handles_flatMap {α : Type} (l : List α) (f : α → List Nat) :
    handles (l.flatMap f) = (l.map fun a => handles (f a)).sum := by
  induction l with
  | nil => rfl
  | cons a rest ih => rw [List.flatMap_cons, handles_append, ih, List.map_cons, List.sum_cons]

@[simp] theorem piecesOf_handles (refs : List Nat) : piecesOf (refs.map .handle) = handles refs := by
  rw [piecesOf, List.map_map]
  exact (handles_flatMap refs fun r => [r]).symm.trans (congrArg handles (List.flatMap_singleton' refs))

@[simp] theorem piecesOf_values (l : List Value) :
    piecesOf (l.map fun v => .item (.value v)) = handles (l.flatMap Value.refs) := by
  rw [piecesOf, List.map_map, handles_flatMap]
  rfl

@[simp] theorem piecesOf_keys (l : List Key) :
    piecesOf (l.map .key) = handles (l.flatMap Key.refs) := by
  rw [piecesOf, List.map_map, handles_flatMap]
  rfl

@[simp] theorem pairsOf_nil : pairsOf [] = 0 := rfl

@[simp] theorem pairsOf_cons (e : Key × Item) (pairs : List (Key × Item)) :
    pairsOf (e :: pairs) = handles e.1.refs + e.2.assets + pairsOf pairs := List.sum_cons

@[simp] theorem pairsOf_append (pairs more : List (Key × Item)) :
    pairsOf (pairs ++ more) = pairsOf pairs + pairsOf more := by
  rw [pairsOf, List.map_append, List.sum_append]
  rfl

theorem pairsOf_perm {pairs more : List (Key × Item)} (h : pairs.Perm more) :
    pairsOf pairs = pairsOf more := (h.map _).sum_eq

theorem subset_pairsOf {pairs : List (Key × Item)} {e : Key × Item} (he : e ∈ pairs) :
    handles (e.1.refs ++ e.2.refs) ⊆ pairsOf pairs := by
  have hle : handles e.1.refs + e.2.assets ≤ pairsOf pairs :=
    List.le_sum_of_mem (List.mem_map.mpr ⟨e, he, rfl⟩)
  intro a ha
  rw [handles_append, Multiset.mem_add] at ha
  refine Multiset.mem_of_le hle (Multiset.mem_add.mpr ?_)
  exact ha.imp id fun h => e.2.handles_refs_subset h

/-- A tracked number is held by an entry that stores it. -/
theorem tracked_mem_pairsOf {pairs : List (Key × Item)} {id : Nat} :
    .tracked id ∈ pairsOf pairs ↔ ∃ e ∈ pairs, e.2.id? = some id := by
  induction pairs with
  | nil => simp
  | cons e rest ih =>
    rw [pairsOf_cons, Multiset.mem_add, Multiset.mem_add, ih, Item.tracked_mem_assets]
    simp [handles]

@[simp] theorem piecesOf_debrisOf (pairs : List (Key × Item)) :
    piecesOf (World.debrisOf pairs) = pairsOf pairs :=
  piecesOf_flatMap fun e => by simp [Debris.assets]

namespace Yield

def assets (y : Yield) : Hands := piecesOf y.debris

@[simp] theorem assets_key (k : Key) : (Yield.key k).assets = handles k.refs := add_zero _

@[simp] theorem assets_item (i : Item) : (Yield.item i).assets = i.assets := add_zero _

@[simp] theorem assets_entry (k : Key) (i : Item) :
    (Yield.entry k i).assets = handles k.refs + i.assets :=
  congrArg (handles k.refs + ·) (add_zero _)

@[simp] theorem assets_twice (k j : Key) :
    (Yield.twice k j).assets = handles k.refs + handles j.refs :=
  congrArg (handles k.refs + ·) (add_zero _)

end Yield

namespace Call

def refs (c : Call) : List Nat := (c.receiver :: c.args).flatMap Value.refs

end Call

/-! ## owners in the world -/

namespace Binding

def assets (b : Binding) : Hands := handles b.refs

end Binding

namespace Walk

def assets (x : Walk) : Hands :=
  match x.store with
  | some r => handles [r] + pinAt r x.last
  | none => 0

end Walk

namespace Iterator

def assets (x : Iterator) : Hands := cursorAt x.walk none

end Iterator

namespace Body

def assets : Body → Hands
  | .container c => pairsOf c.store.held
  | .function _ | .allocation _ => 0

end Body

namespace Cell

def assets (d : Cell) : Hands := d.body.assets

end Cell

namespace World

/-- What the world owns outside of objects. -/
def loose (w : World) : Hands :=
  Table.total Binding.assets w.names + Table.total Walk.assets w.walks +
    Table.total Iterator.assets w.iterators + handles (w.visiting.flatMap Key.refs) +
    handles (w.calls.flatMap Call.refs) + piecesOf w.abandoned +
    (w.leaks.map fun p => Asset.pin p.1 p.2 : List Asset)

def assets (w : World) : Hands := Table.total Cell.assets w.cells + w.loose

theorem assets_eq (w : World) : w.assets = Table.total Cell.assets w.cells + w.loose := rfl

theorem assets_setCells (w : World) (cells : List (Nat × Cell)) (fresh : Nat) :
    { w with cells, fresh }.assets = Table.total Cell.assets cells + w.loose := rfl

end World

end LiveOrder
