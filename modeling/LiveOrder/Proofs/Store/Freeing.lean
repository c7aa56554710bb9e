import LiveOrder.Proofs.Store.Balance
import Mathlib.Data.List.Basic

/-!
# Freeing removed slots

A removed slot without references is freed; what it leaned on loses a reference and may be freed in
turn.  No round fails, and the chain is in balance again at the end.

* `slot_of`, `update_of`   access to a slot that is held;
* `Chain.Cascade`         slots freed along backward links, so the later ones first;
* `Chain.unheld`          the chain after one round;
* `Balanced.unheld`       one round keeps the balance, with the next slot in question set aside;
* `Chain.Reclaims`        what a whole cascade does, and in how many rounds;
* `reclaimFrom_spec`, `reclaim_spec`   every cascade does so;
* `reclaim_alone`         a slot that leans on a live one, or on nothing, is freed alone;
* `Chain.unreferring`     the chain with a reference less to one slot;
* `release_eq`, `release_spec`   a pin given up.
-/

namespace LiveOrder

namespace Slot

variable {ν : Type}

def pair (x : Slot ν) : Key × ν := (x.key, x.value)

def unreferred (x : Slot ν) : Slot ν := { x with refs := x.refs - 1 }

end Slot

/-- What one cascade gives back and reports. -/
def Freed.ofCascade {ν : Type} (pairs : List (Key × ν)) : Freed ν :=
  ⟨pairs, if pairs.length > 1 then [.chainFreed pairs.length] else []⟩

namespace Chain

variable {ν : Type} {c d e : Chain ν} {pins : Nat → Nat} {idle gone : List Nat} {s : Nat}
  {x : Slot ν}

/-! ## access -/

theorem slot_of (h : c.arena.get? s = some x) : c.slot s = .ok x := slot_eq_ok_iff.mpr h

theorem update_of (h : s ∈ c.arena.serials) (f : Slot ν → Slot ν) :
    c.update s f = .ok { c with arena := c.arena.modify s f } :=
  update_eq_ok_iff.mpr ⟨h, rfl⟩

/-- The pairs in some slots, in the order of a list. -/
def pairsOf (c : Chain ν) (slots : List Nat) : List (Key × ν) :=
  slots.filterMap fun s => (c.arena.get? s).map Slot.pair

theorem pairsOf_append (c : Chain ν) (l r : List Nat) :
    c.pairsOf (l ++ r) = c.pairsOf l ++ c.pairsOf r := List.filterMap_append

theorem pairsOf_cons (hx : c.arena.get? s = some x) (l : List Nat) :
    c.pairsOf (s :: l) = x.pair :: c.pairsOf l := by
  simp [pairsOf, hx]

/-- What is still there has the same keys and values as before. -/
theorem Frees.pairsOf_eq (h : Frees c d gone) {l : List Nat} (hl : ∀ s ∈ l, s ∉ gone) :
    d.pairsOf l = c.pairsOf l := by
  refine List.filterMap_congr fun s hs => ?_
  obtain ⟨n, hn⟩ := h.rest s (hl s hs)
  rw [hn, Option.map_map]
  rfl

/-! ## slots freed one after another -/

/-- One chain is another one without some removed slots, each freed before the one it leaned on. -/
structure Cascade (c d : Chain ν) (gone : List Nat) : Prop extends Frees c d gone where
  descending : gone.Pairwise (· > ·)

theorem Cascade.single (h : Frees c d [s]) : Cascade c d [s] := ⟨h, List.pairwise_singleton _ _⟩

/-- A change of counts only. -/
theorem Frees.cascade (h : Frees c d []) : Cascade c d [] := ⟨h, .nil⟩

theorem Cascade.cons (h : Frees c d [s]) (h' : Cascade d e gone) (hlt : ∀ t ∈ gone, t < s) :
    Cascade c e (s :: gone) :=
  ⟨h.trans h'.toFrees, List.pairwise_cons.mpr ⟨hlt, h'.descending⟩⟩

/-- A change of counts comes before. -/
theorem Cascade.after_counts (h : Frees c d []) (h' : Cascade d e gone) : Cascade c e gone :=
  ⟨h.trans h'.toFrees, h'.descending⟩

/-! ## one round -/

/-- The chain without a slot, whose backward link is given up. -/
def unheld (c : Chain ν) (s : Nat) (x : Slot ν) : Chain ν :=
  { c with arena := (c.arena.erase s).modifyAt x.prev Slot.unreferred }

theorem get?_unheld (c : Chain ν) (s : Nat) (x : Slot ν) (t : Nat) :
    (c.unheld s x).arena.get? t =
      if t = s then none
      else if x.prev = some t then (c.arena.get? t).map Slot.unreferred else c.arena.get? t := by
  show ((c.arena.erase s).modifyAt x.prev Slot.unreferred).get? t = _
  rw [Arena.get?_modifyAt, Arena.get?_erase]
  by_cases h : t = s <;> by_cases hp : x.prev = some t <;> simp [h, hp]

theorem size_unheld (h : c.arena.Sound) (hx : c.arena.get? s = some x) :
    (c.unheld s x).arena.size + 1 = c.arena.size := by
  have hsize : (c.unheld s x).arena.size = (c.arena.erase s).size := by
    rw [← Arena.length_serials, ← Arena.length_serials]
    show ((c.arena.erase s).modifyAt x.prev Slot.unreferred).serials.length = _
    rw [Arena.serials_modifyAt]
  rw [hsize, Arena.size_erase_of_mem h (Arena.mem_serials_of_get? hx)]

theorem frees_unheld (h : c.arena.Sound) (hx : c.arena.get? s = some x) (hr : x.removed = true) :
    Frees c (c.unheld s x) [s] where
  head := rfl
  tail := rfl
  len := rfl
  fresh := by
    show ((c.arena.erase s).modifyAt x.prev Slot.unreferred).fresh = _
    simp
  sound := (h.erase s).modifyAt _ _
  trims := (Arena.Trims.erase h s).trans (.modifyAt _ _ _)
  nodup := by simp
  dead t ht := by
    rw [List.mem_singleton] at ht
    exact ⟨x, ht ▸ hx, hr⟩
  freed t ht := by
    rw [List.mem_singleton] at ht
    rw [get?_unheld, if_pos ht]
  rest t ht := by
    rw [List.mem_singleton] at ht
    rw [get?_unheld, if_neg ht]
    by_cases hp : x.prev = some t
    · rw [if_pos hp]
      cases hy : c.arena.get? t with
      | none => exact ⟨0, rfl⟩
      | some y => exact ⟨y.refs - 1, rfl⟩
    · rw [if_neg hp]
      exact (Frees.refl h).rest t List.not_mem_nil

/-- A change of counts only. -/
theorem frees_modify (h : c.arena.Sound) {f : Slot ν → Slot ν}
    (hf : ∀ y, ∃ n, f y = { y with refs := n }) :
    Frees c { c with arena := c.arena.modify s f } [] where
  head := rfl
  tail := rfl
  len := rfl
  fresh := rfl
  sound := h.modify s f
  trims := .modify _ s f
  nodup := List.nodup_nil
  dead t ht := absurd ht List.not_mem_nil
  freed t ht := absurd ht List.not_mem_nil
  rest t ht := by
    show ∃ n, (c.arena.modify s f).get? t = _
    rw [Arena.get?_modify]
    split
    · cases hy : c.arena.get? t with
      | none => exact ⟨0, rfl⟩
      | some y =>
        obtain ⟨n, hn⟩ := hf y
        exact ⟨n, congrArg some hn⟩
    · exact (Frees.refl h).rest t ht

theorem leaning_unheld (h : c.arena.Sound) (hx : c.arena.get? s = some x) (hr : x.removed = true)
    (t : Nat) :
    (c.unheld s x).leaning t + (if x.prev = some t then 1 else 0) = c.leaning t := by
  have hm : (c.unheld s x).leaning t = (c.arena.erase s).count (Slot.leansOn t) :=
    Arena.count_modifyAt_of_eq (h.erase s) fun _ _ _ _ => rfl
  have he := Arena.count_erase h hx (Slot.leansOn t)
  simp only [Slot.leansOn_iff, hr, true_and] at he
  rw [hm]
  exact he

/-- A round keeps the balance; the slot that lost a reference is to be looked at next. -/
theorem Balanced.unheld (h : c.Balanced pins (s :: idle)) (hx : c.arena.get? s = some x)
    (hr : x.removed = true) (h0 : x.refs = 0) :
    (c.unheld s x).Balanced pins (x.prev.toList ++ idle) := by
  have hf := frees_unheld h.sound hx hr
  obtain ⟨hp0, hl0⟩ := h.leaning_eq_zero hx h0
  have hlean := leaning_unheld h.sound hx hr
  refine { hf.linked h.toLinked ?_ with counted := ?_, kept := ?_, pinned := ?_ }
  · intro t y p hy hyr hyp hmem
    rw [List.mem_singleton] at hmem
    have hpos := leaning_pos hf.sound hy hyr hyp
    have hle := hlean p
    rw [hmem] at hpos hle
    omega
  · intro t y hy
    rw [get?_unheld] at hy
    split at hy
    · cases hy
    · have ht := hlean t
      split at hy
      · rename_i hp
        obtain ⟨z, hz, rfl⟩ := Option.map_eq_some_iff.mp hy
        have hc := h.counted hz
        rw [if_pos hp] at ht
        show z.refs - 1 = _
        omega
      · rename_i hp
        rw [if_neg hp] at ht
        rw [h.counted hy]
        omega
  · intro t y hy hyr hmem
    rw [get?_unheld] at hy
    split at hy
    · cases hy
    · rename_i hts
      have hidle : t ∉ s :: idle := by
        rw [List.mem_cons, not_or]
        exact ⟨hts, fun hm => hmem (List.mem_append_right _ hm)⟩
      split at hy
      · rename_i hp
        exact absurd (List.mem_append_left _ (by rw [hp]; simp)) hmem
      · exact h.kept hy hyr hidle
  · intro t ht
    refine (hf.mem_serials_iff t).mpr ⟨h.pinned ht, ?_⟩
    rw [List.mem_singleton]
    rintro rfl
    omega

/-! ## the cascade -/

/-- A slot about to be freed has been removed and has no references. -/
def Waits (c : Chain ν) (s : Nat) : Prop :=
  ∀ x, c.arena.get? s = some x → x.removed = true ∧ x.refs = 0

/-- What waits keeps waiting while others are freed. -/
theorem Waits.unheld {t : Nat} (h : c.Balanced pins (s :: idle)) (hx : c.arena.get? s = some x)
    (hr : x.removed = true) (ht : c.Waits t) : (c.unheld s x).Waits t := by
  intro y hy
  rw [get?_unheld] at hy
  split at hy
  · cases hy
  · split at hy
    · rename_i hp
      obtain ⟨z, hz, rfl⟩ := Option.map_eq_some_iff.mp hy
      -- the slot that `s` leans on has a reference, so it cannot wait
      have hpos := leaning_pos h.sound hx hr hp
      have hc := h.counted hz
      have h0 := (ht z hz).2
      omega
    · exact ht y hy

/-- Of the live slots at most one loses a reference, and nothing else happens to any of them. -/
def Spares (c d : Chain ν) : Prop :=
  ∃ p? : Option Nat, ∀ u y, c.arena.get? u = some y → y.removed = false →
    (p? = some u → 0 < y.refs) ∧
      d.arena.get? u = some (if p? = some u then y.unreferred else y)

/-- A live slot is out of reach of a cascade that goes on: what comes next is a removed one. -/
theorem Spares.of_more {p : Nat} {y : Slot ν} (hd : (c.unheld s x).Spares d)
    (hx : c.arena.get? s = some x) (hr : x.removed = true) (hp : x.prev = some p)
    (hy : c.arena.get? p = some y) (hyr : y.removed = true) : c.Spares d := by
  obtain ⟨p?, hspare⟩ := hd
  refine ⟨p?, fun u z hz hl => hspare u z ?_ hl⟩
  have hu : u ≠ s := by
    rintro rfl
    exact not_live_of_removed hx hr ⟨z, hz, hl⟩
  have hup : x.prev ≠ some u := by
    intro hpu
    rw [hp, Option.some.injEq] at hpu
    exact not_live_of_removed (hpu ▸ hy) hyr ⟨z, hz, hl⟩
  rw [get?_unheld, if_neg hu, if_neg hup, hz]

/-- What becomes of a chain when the slots from one on are freed: as many rounds as there are slots
to free come to an end. -/
structure Reclaims (c : Chain ν) (s : Nat) (gone : List Nat) (d : Chain ν) : Prop extends
    Cascade c d gone where
  rounds : ∀ {n}, gone.length ≤ n → c.reclaimFrom n s = .ok (d, c.pairsOf gone)
  spares : c.Spares d
  /-- the first slot comes last in the order of insertion -/
  upTo : ∀ t ∈ gone, t ≤ s

section
variable (h : c.Balanced pins (s :: idle)) (hx : c.arena.get? s = some x) (hr : x.removed = true)
include h hx hr

/-- What a removed slot leans on has a reference for it. -/
theorem Balanced.leaned_on {p : Nat} (hp : x.prev = some p) :
    p < s ∧ ∃ y, c.arena.get? p = some y ∧ 0 < y.refs := by
  obtain ⟨hlt, hmem⟩ := h.back hx hr hp
  obtain ⟨y, hy⟩ := Arena.exists_get?_of_mem hmem
  have hlean := leaning_pos h.sound hx hr hp
  have hcount := h.counted hy
  exact ⟨hlt, y, hy, by omega⟩

theorem get?_unheld_prev {p : Nat} {y : Slot ν} (hp : x.prev = some p)
    (hy : c.arena.get? p = some y) : (c.unheld s x).arena.get? p = some y.unreferred := by
  have hlt := (h.back hx hr hp).1
  rw [get?_unheld, if_neg (by omega), if_pos hp, hy]
  rfl

theorem spares_unheld : c.Spares (c.unheld s x) := by
  refine ⟨x.prev, fun u y hy hl => ⟨fun hp => ?_, ?_⟩⟩
  · obtain ⟨_, z, hz, hpos⟩ := h.leaned_on hx hr hp
    rw [hy, Option.some.injEq] at hz
    rwa [hz]
  · have hu : u ≠ s := by
      rintro rfl
      exact not_live_of_removed hx hr ⟨y, hy, hl⟩
    rw [get?_unheld, if_neg hu]
    split <;> rw [hy]
    rfl

end

/-- The slot that an erased one leans on is there still, and gives up the reference. -/
theorem erased_prev {p : Nat} {y : Slot ν} (hp : x.prev = some p) (hlt : p < s)
    (hy : c.arena.get? p = some y) :
    ({ c with arena := c.arena.erase s } : Chain ν).slot p = .ok y ∧
      ({ c with arena := c.arena.erase s } : Chain ν).update p
        (fun y => { y with refs := y.refs - 1 }) = .ok (c.unheld s x) := by
  have hye : (c.arena.erase s).get? p = some y := by
    rw [Arena.get?_erase, if_neg (Nat.ne_of_lt hlt), hy]
  refine ⟨slot_of hye, ?_⟩
  rw [update_of (Arena.mem_serials_of_get? hye)]
  simp only [Chain.unheld, hp, Arena.modifyAt]
  rfl

/-- The cascade ends with a slot: what it leans on is live, or has other references. -/
def Ends (c : Chain ν) (x : Slot ν) : Prop :=
  ∀ {p y}, x.prev = some p → c.arena.get? p = some y → y.removed = true → y.refs ≠ 1

section
variable {n : Nat} (h : c.Balanced pins (s :: idle)) (hx : c.arena.get? s = some x)
  (hr : x.removed = true) (h0 : x.refs = 0)
include h hx hr h0

theorem reclaimFrom_last (he : c.Ends x) :
    reclaimFrom (n + 1) c s = .ok (c.unheld s x, [x.pair]) := by
  have hguard : (!x.removed || decide (x.refs ≠ 0)) = false := by simp [hr, h0]
  rw [reclaimFrom, slot_of hx]
  simp only [bind, Except.bind, hguard, Bool.false_eq_true, if_false]
  cases hp : x.prev with
  | none =>
    have hc : c.unheld s x = { c with arena := c.arena.erase s } := by
      simp [Chain.unheld, hp, Arena.modifyAt]
    rw [hc]
    rfl
  | some p =>
    obtain ⟨hlt, y, hy, hy0⟩ := h.leaned_on hx hr hp
    obtain ⟨hslot, hupd⟩ := erased_prev hp hlt hy
    have hstop : (y.removed && decide (y.refs = 1)) = false := by
      rw [Bool.and_eq_false_imp]
      exact fun hyr => decide_eq_false (he hp hy hyr)
    simp only [hslot, Nat.ne_of_gt hy0, if_false, hupd, hstop, Bool.false_eq_true]
    rfl

theorem Balanced.unheld_last (he : c.Ends x) : (c.unheld s x).Balanced pins idle := by
  have hb := h.unheld hx hr h0
  cases hp : x.prev with
  | none => rwa [hp] at hb
  | some p =>
    rw [hp] at hb
    refine hb.settle fun z hz hzr => ?_
    obtain ⟨_, y, hy, hy0⟩ := h.leaned_on hx hr hp
    rw [get?_unheld_prev h hx hr hp hy, Option.some.injEq] at hz
    subst hz
    have hne := he hp hy hzr
    show 0 < y.refs - 1
    omega

/-- The cascade goes on if the last reference to a removed slot is given up. -/
theorem reclaimFrom_more {p : Nat} {y : Slot ν} (hp : x.prev = some p)
    (hy : c.arena.get? p = some y) (hyr : y.removed = true) (h1 : y.refs = 1) :
    reclaimFrom (n + 1) c s =
      (reclaimFrom n (c.unheld s x) p).map fun r => (r.1, x.pair :: r.2) := by
  obtain ⟨hslot, hupd⟩ := erased_prev hp (h.back hx hr hp).1 hy
  have hguard : (!x.removed || decide (x.refs ≠ 0)) = false := by simp [hr, h0]
  rw [reclaimFrom, slot_of hx]
  simp only [bind, Except.bind, hguard, hp, Bool.false_eq_true, if_false, hslot, h1, hupd, hyr,
    Nat.one_ne_zero, decide_true, Bool.and_self, if_true]
  cases reclaimFrom n (c.unheld s x) p <;> rfl

end

theorem reclaimFrom_spec (c : Chain ν) (s : Nat) (x : Slot ν) (idle : List Nat)
    (h : c.Balanced pins (s :: idle)) (hx : c.arena.get? s = some x) (hr : x.removed = true)
    (h0 : x.refs = 0) :
    ∃ d gone, c.Reclaims s gone d ∧ d.Balanced pins idle ∧ ∀ t, c.Waits t → d.Waits t := by
  -- each round goes to a slot that was filled earlier
  induction s using Nat.strongRecOn generalizing c x idle with
  | ind s ih =>
    have hf := frees_unheld h.sound hx hr
    have hw : ∀ t, c.Waits t → (c.unheld s x).Waits t := fun t ht => ht.unheld h hx hr
    by_cases he : c.Ends x
    · refine ⟨c.unheld s x, [s], ⟨.single hf, fun {n} hn => ?_, spares_unheld h hx hr, ?_⟩,
        h.unheld_last hx hr h0 he, hw⟩
      · obtain ⟨n, rfl⟩ : ∃ m, n = m + 1 := Nat.exists_eq_add_one.mpr hn
        rw [reclaimFrom_last h hx hr h0 he, pairsOf_cons hx]
        rfl
      · exact fun t ht => Nat.le_of_eq (List.mem_singleton.mp ht)
    · obtain ⟨p, y, hp, hy, hyr, h1⟩ : ∃ p y, x.prev = some p ∧ c.arena.get? p = some y ∧
          y.removed = true ∧ y.refs = 1 := by
        simpa only [Ends, not_forall, not_not, exists_prop] using he
      have hlt := (h.back hx hr hp).1
      have hb := h.unheld hx hr h0
      rw [hp] at hb
      obtain ⟨d, gone, hrec, hd, hw'⟩ := ih p hlt (c.unheld s x) y.unreferred idle hb
        (get?_unheld_prev h hx hr hp hy) hyr (by show y.refs - 1 = 0; omega)
      have hbefore : ∀ t ∈ gone, t < s := fun t ht => Nat.lt_of_le_of_lt (hrec.upTo t ht) hlt
      refine ⟨d, s :: gone, ⟨hrec.cons hf hbefore, fun {n} hn => ?_,
        hrec.spares.of_more hx hr hp hy hyr, ?_⟩, hd, fun t ht => hw' t (hw t ht)⟩
      · obtain ⟨n, rfl⟩ : ∃ m, n = m + 1 := Nat.exists_eq_add_one.mpr (by
          rw [List.length_cons] at hn
          omega)
        have hgone : ∀ t ∈ gone, t ∉ [s] := fun t ht =>
          ((hf.mem_serials_iff t).mp ((hrec.mem_gone_iff t).mp ht).1).2
        rw [reclaimFrom_more h hx hr h0 hp hy hyr h1, hrec.rounds (Nat.le_of_succ_le_succ hn),
          pairsOf_cons hx, hf.pairsOf_eq hgone]
        rfl
      · exact List.forall_mem_cons.mpr ⟨Nat.le_refl s, fun t ht => Nat.le_of_lt (hbefore t ht)⟩

/-- What is freed was held by removed slots, each once. -/
theorem Frees.length_le (h : Frees c d gone) (hc : c.arena.Sound) :
    gone.length ≤ c.arena.count (·.removed) :=
  hc.length_le_count h.nodup h.dead

theorem Reclaims.result (h : c.Reclaims s gone d) (hc : c.arena.Sound) :
    c.reclaim s = .ok (d, .ofCascade (c.pairsOf gone)) := by
  have hn := Nat.le_trans (h.length_le hc) (Arena.count_le_size _ _)
  rw [reclaim, h.rounds hn]
  rfl

theorem reclaim_spec (h : c.Balanced pins (s :: idle)) (hx : c.arena.get? s = some x)
    (hr : x.removed = true) (h0 : x.refs = 0) :
    ∃ d gone, c.reclaim s = .ok (d, .ofCascade (c.pairsOf gone)) ∧ Cascade c d gone ∧
      d.Balanced pins idle ∧ ∀ t, c.Waits t → d.Waits t := by
  obtain ⟨d, gone, hrec, hb, hw⟩ := reclaimFrom_spec c s x idle h hx hr h0
  exact ⟨d, gone, hrec.result h.sound, hrec.toCascade, hb, hw⟩

/-- A slot that leans on a live one, or on nothing, is freed alone. -/
theorem reclaim_alone (h : c.Balanced pins (s :: idle)) (hx : c.arena.get? s = some x)
    (hr : x.removed = true) (h0 : x.refs = 0) (hp : ∀ p, x.prev = some p → c.Live p) :
    c.reclaim s = .ok (c.unheld s x, ⟨[x.pair], []⟩) ∧ (c.unheld s x).Balanced pins idle := by
  have he : c.Ends x := fun hp' hy hyr => absurd (hp _ hp') (not_live_of_removed hy hyr)
  obtain ⟨n, hn⟩ : ∃ n, c.arena.size = n + 1 := ⟨_, (size_unheld h.sound hx).symm⟩
  refine ⟨?_, h.unheld_last hx hr h0 he⟩
  rw [reclaim, hn, reclaimFrom_last h hx hr h0 he]
  rfl

/-! ## giving up a pin -/

/-- The chain with one reference less to a slot. -/
def unreferring (c : Chain ν) (s : Nat) : Chain ν :=
  { c with arena := c.arena.modify s Slot.unreferred }

theorem get?_unreferring (c : Chain ν) (s t : Nat) :
    (c.unreferring s).arena.get? t =
      if t = s then (c.arena.get? t).map Slot.unreferred else c.arena.get? t :=
  Arena.get?_modify _ _ _ _

theorem frees_unreferring (h : c.arena.Sound) (s : Nat) : Frees c (c.unreferring s) [] :=
  frees_modify h fun y => ⟨y.refs - 1, rfl⟩

/-- What a slot loses with the pin may be all that held it. -/
theorem Balanced.unreferred (h : c.Balanced (pinOn (some s) pins) []) :
    (c.unreferring s).Balanced pins [s] := by
  have hf := frees_unreferring h.sound s
  have hlean : ∀ t, (c.unreferring s).leaning t = c.leaning t := fun t =>
    Arena.count_modify_of_eq h.sound fun _ _ => rfl
  refine { hf.linked h.toLinked fun _ _ _ _ _ _ => List.not_mem_nil with
    counted := ?_, kept := ?_, pinned := ?_ }
  · intro t y hy
    rw [hlean]
    rw [get?_unreferring] at hy
    split at hy
    · rename_i ht
      obtain ⟨z, hz, rfl⟩ := Option.map_eq_some_iff.mp hy
      have hc := h.counted hz
      rw [ht, pinOn_self] at hc
      show z.refs - 1 = _
      rw [ht]
      omega
    · rename_i ht
      rw [h.counted hy, pinOn_of_ne _ (Ne.symm ht)]
  · intro t y hy hyr ht
    rw [List.mem_singleton] at ht
    rw [get?_unreferring, if_neg ht] at hy
    exact h.kept hy hyr List.not_mem_nil
  · intro t ht
    refine (hf.mem_serials_iff t).mpr ⟨h.pinned ?_, List.not_mem_nil⟩
    show 0 < pins t + _
    omega

theorem release_eq (hx : c.arena.get? s = some x) (h0 : x.refs ≠ 0) :
    c.release s =
      if x.removed && x.refs = 1 then (c.unreferring s).reclaim s
      else .ok (c.unreferring s, .ofCascade []) := by
  rw [release, slot_of hx]
  simp only [bind, Except.bind, h0, if_false]
  rw [update_of (Arena.mem_serials_of_get? hx)]
  rfl

/-- A pin is given up, and what it alone held is freed. -/
theorem release_spec (h : c.Balanced (pinOn (some s) pins) []) :
    ∃ d gone, c.release s = .ok (d, .ofCascade (c.pairsOf gone)) ∧ Cascade c d gone ∧
      d.Balanced pins [] := by
  have hs : 0 < pinOn (some s) pins s := by
    rw [pinOn_self]
    omega
  obtain ⟨x, hx⟩ := Arena.exists_get?_of_mem (h.pinned hs)
  have hpos := h.refs_pos hx hs
  have hx' : (c.unreferring s).arena.get? s = some x.unreferred := by
    rw [get?_unreferring, if_pos rfl, hx]
    rfl
  have hf := frees_unreferring h.sound s
  have hb := h.unreferred
  rw [release_eq hx (by omega)]
  by_cases hcond : (x.removed && decide (x.refs = 1)) = true
  · rw [if_pos hcond]
    rw [Bool.and_eq_true, decide_eq_true_eq] at hcond
    obtain ⟨d, gone, he, hf', hd, _⟩ := reclaim_spec hb hx' hcond.1
      (by show x.refs - 1 = 0; omega)
    refine ⟨d, gone, ?_, hf'.after_counts hf, hd⟩
    rw [he, hf.pairsOf_eq fun _ _ => List.not_mem_nil]
  · rw [if_neg hcond]
    refine ⟨c.unreferring s, [], rfl, hf.cascade, hb.settle fun z hz hzr => ?_⟩
    rw [hx', Option.some.injEq] at hz
    subst hz
    have hxr : x.removed = true := hzr
    rw [hxr, Bool.true_and, decide_eq_true_eq] at hcond
    show 0 < x.refs - 1
    omega

end Chain

end LiveOrder
