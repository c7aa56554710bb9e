/-!
# Arena

Items at numbered places, each known by the serial number of its insertion.  Serials are never
given out twice, so a serial names one insertion for ever; a place that was given up is the next
one to be filled again.

* `Arena.insert`, `get?`, `modify`, `erase`   by serial, with one law for each seen through `get?`;
* `Arena.serials`    the serials held, in order of insertion;
* `Arena.byPlace`    the cells in the order of their places, the order in which a whole arena is
                     given back;
* `Arena.Sound`      serials increase and lie below the next one; kept by every operation.
-/

namespace LiveOrder

namespace Arena

structure Cell (α : Type) where
  serial : Nat
  place : Nat
  item : α

end Arena

/-- Cells in order of insertion, the places given up (latest first) and the next serial. -/
structure Arena (α : Type) where
  cells : List (Arena.Cell α)
  vacant : List Nat
  fresh : Nat

namespace Arena

variable {α : Type}

def empty : Arena α := ⟨[], [], 0⟩

def size (a : Arena α) : Nat := a.cells.length

def serials (a : Arena α) : List Nat := a.cells.map (·.serial)

def get? (a : Arena α) (s : Nat) : Option α :=
  (a.cells.find? (·.serial = s)).map (·.item)

/-- The item is put at the place given up last, or behind all others; its serial is `a.fresh`. -/
def insert (a : Arena α) (x : α) : Arena α :=
  match a.vacant with
  | [] => ⟨a.cells ++ [⟨a.fresh, a.cells.length, x⟩], [], a.fresh + 1⟩
  | p :: ps => ⟨a.cells ++ [⟨a.fresh, p, x⟩], ps, a.fresh + 1⟩

def modify (a : Arena α) (s : Nat) (f : α → α) : Arena α :=
  { a with cells := a.cells.map fun c => if c.serial = s then { c with item := f c.item } else c }

def erase (a : Arena α) (s : Nat) : Arena α :=
  match a.cells.find? (·.serial = s) with
  | none => a
  | some c => ⟨a.cells.filter (·.serial ≠ s), c.place :: a.vacant, a.fresh⟩

/-- A cell put before the first cell of a greater place. -/
def Cell.insertByPlace (c : Cell α) : List (Cell α) → List (Cell α)
  | [] => [c]
  | d :: ds => if c.place ≤ d.place then c :: d :: ds else d :: c.insertByPlace ds

def byPlace (a : Arena α) : List (Cell α) := a.cells.foldr Cell.insertByPlace []

/-- Serials increase along the cells and lie below the next one. -/
structure Sound (a : Arena α) : Prop where
  increasing : a.serials.Pairwise (· < ·)
  below : ∀ s ∈ a.serials, s < a.fresh

/-! ## membership -/

@[simp] theorem get?_empty (s : Nat) : (empty : Arena α).get? s = none := rfl

theorem sound_empty : (empty : Arena α).Sound :=
  ⟨by simp [empty, serials], by simp [empty, serials]⟩

theorem get?_eq_none_iff {a : Arena α} {s : Nat} : a.get? s = none ↔ s ∉ a.serials := by
  simp only [get?, serials, Option.map_eq_none_iff, List.find?_eq_none, List.mem_map]
  constructor
  · rintro h ⟨c, hc, rfl⟩
    simpa using h c hc
  · intro h c hc
    simp only [decide_eq_true_eq]
    intro e
    exact h ⟨c, hc, e⟩

theorem isSome_get?_iff {a : Arena α} {s : Nat} : (a.get? s).isSome ↔ s ∈ a.serials := by
  rw [Option.isSome_iff_ne_none, Ne, get?_eq_none_iff, Decidable.not_not]

theorem length_serials (a : Arena α) : a.serials.length = a.size := by
  simp [serials, size]

theorem Sound.nodup {a : Arena α} (h : a.Sound) : a.serials.Nodup :=
  h.increasing.imp fun hlt => Nat.ne_of_lt hlt

theorem Sound.fresh_notMem {a : Arena α} (h : a.Sound) : a.fresh ∉ a.serials :=
  fun hm => Nat.lt_irrefl _ (h.below _ hm)

/-! ## insertion -/

theorem cells_insert (a : Arena α) (x : α) :
    ∃ p, (a.insert x).cells = a.cells ++ [⟨a.fresh, p, x⟩] := by
  unfold insert
  split
  · exact ⟨_, rfl⟩
  · exact ⟨_, rfl⟩

@[simp] theorem fresh_insert (a : Arena α) (x : α) : (a.insert x).fresh = a.fresh + 1 := by
  unfold insert
  split <;> rfl

@[simp] theorem serials_insert (a : Arena α) (x : α) :
    (a.insert x).serials = a.serials ++ [a.fresh] := by
  obtain ⟨p, h⟩ := cells_insert a x
  simp [serials, h]

@[simp] theorem size_insert (a : Arena α) (x : α) : (a.insert x).size = a.size + 1 := by
  obtain ⟨p, h⟩ := cells_insert a x
  simp [size, h]

theorem get?_insert_of_ne (a : Arena α) (x : α) {s : Nat} (h : s ≠ a.fresh) :
    (a.insert x).get? s = a.get? s := by
  obtain ⟨p, hp⟩ := cells_insert a x
  simp [get?, hp, List.find?_append, Ne.symm h]

theorem get?_insert_self {a : Arena α} (h : a.Sound) (x : α) :
    (a.insert x).get? a.fresh = some x := by
  obtain ⟨p, hp⟩ := cells_insert a x
  have hn : a.cells.find? (·.serial = a.fresh) = none := by
    simpa [get?] using get?_eq_none_iff.mpr h.fresh_notMem
  simp [get?, hp, List.find?_append, hn]

theorem Sound.insert {a : Arena α} (h : a.Sound) (x : α) : (a.insert x).Sound := by
  constructor
  · rw [serials_insert]
    refine List.pairwise_append.mpr ⟨h.increasing, by simp, ?_⟩
    intro s hs t ht
    simp only [List.mem_singleton] at ht
    exact ht ▸ h.below s hs
  · intro s hs
    rw [serials_insert] at hs
    rw [fresh_insert]
    rcases List.mem_append.mp hs with hs | hs
    · exact Nat.lt_succ_of_lt (h.below s hs)
    · simp only [List.mem_singleton] at hs
      omega

/-! ## change -/

@[simp] theorem serials_modify (a : Arena α) (s : Nat) (f : α → α) :
    (a.modify s f).serials = a.serials := by
  simp only [serials, modify, List.map_map]
  apply List.map_congr_left
  intro c _
  simp only [Function.comp_apply]
  split <;> rfl

@[simp] theorem fresh_modify (a : Arena α) (s : Nat) (f : α → α) :
    (a.modify s f).fresh = a.fresh := rfl

@[simp] theorem size_modify (a : Arena α) (s : Nat) (f : α → α) :
    (a.modify s f).size = a.size := by
  simp [size, modify]

theorem get?_modify (a : Arena α) (s t : Nat) (f : α → α) :
    (a.modify s f).get? t = if t = s then (a.get? t).map f else a.get? t := by
  simp only [get?, modify]
  induction a.cells with
  | nil => simp
  | cons c cs ih =>
    simp only [List.map_cons, List.find?_cons]
    by_cases ht : c.serial = t
    · by_cases hc : c.serial = s
      · simp [ht, ← hc]
      · simp [ht, ht ▸ hc]
    · have hd : decide ((if c.serial = s then { c with item := f c.item } else c).serial = t) =
          false := by
        split <;> simp [ht]
      rw [hd]
      simp only [ht, decide_false]
      exact ih

theorem Sound.modify {a : Arena α} (h : a.Sound) (s : Nat) (f : α → α) :
    (a.modify s f).Sound :=
  ⟨by rw [serials_modify]; exact h.increasing, by rw [serials_modify]; exact h.below⟩

/-! ## erasure -/

theorem cells_erase (a : Arena α) (s : Nat) :
    (a.erase s).cells = a.cells.filter (·.serial ≠ s) := by
  unfold erase
  split
  · rename_i h
    refine (List.filter_eq_self.mpr ?_).symm
    intro c hc
    simpa using List.find?_eq_none.mp h c hc
  · rfl

@[simp] theorem fresh_erase (a : Arena α) (s : Nat) : (a.erase s).fresh = a.fresh := by
  unfold erase
  split <;> rfl

theorem serials_erase (a : Arena α) (s : Nat) :
    (a.erase s).serials = a.serials.filter (· ≠ s) := by
  simp only [serials, cells_erase, List.filter_map]
  rfl

theorem get?_erase (a : Arena α) (s t : Nat) :
    (a.erase s).get? t = if t = s then none else a.get? t := by
  simp only [get?, cells_erase]
  induction a.cells with
  | nil => simp
  | cons c cs ih =>
    simp only [List.filter_cons, List.find?_cons]
    by_cases hc : c.serial = s <;> by_cases ht : c.serial = t <;> simp_all

theorem Sound.erase {a : Arena α} (h : a.Sound) (s : Nat) : (a.erase s).Sound := by
  constructor
  · rw [serials_erase]
    exact h.increasing.filter _
  · intro t ht
    rw [serials_erase] at ht
    rw [fresh_erase]
    exact h.below t (List.mem_filter.mp ht).1

theorem size_erase_of_mem {a : Arena α} (h : a.Sound) {s : Nat} (hs : s ∈ a.serials) :
    (a.erase s).size + 1 = a.size := by
  have he : (a.erase s).serials = a.serials.erase s := by
    rw [serials_erase, h.nodup.erase_eq_filter]
    exact List.filter_congr fun t _ => by by_cases ht : t = s <;> simp [ht]
  have hl := List.length_erase_of_mem hs
  have hp := List.length_pos_of_mem hs
  rw [← length_serials, ← length_serials, he, hl]
  omega

/-! ## the order of places -/

theorem insertByPlace_perm (c : Cell α) (l : List (Cell α)) :
    (c.insertByPlace l).Perm (c :: l) := by
  induction l with
  | nil => exact .refl _
  | cons d ds ih =>
    unfold Cell.insertByPlace
    split
    · exact .refl _
    · exact (ih.cons d).trans (.swap c d ds)

/-- Giving back a whole arena forgets nothing. -/
theorem byPlace_perm (a : Arena α) : a.byPlace.Perm a.cells := by
  unfold byPlace
  induction a.cells with
  | nil => exact .refl _
  | cons c cs ih => exact (insertByPlace_perm c _).trans (ih.cons c)

end Arena

end LiveOrder
