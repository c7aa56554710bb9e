import LiveOrder.Proofs.Store.Freeing

/-!
# Entries put in, changed and taken out

* `Chain.appended`, `link_eq`     the chain with a new entry at the end;
* `Chain.revalued`               the chain with another value in an entry;
* `Chain.unlinked`, `joins_eq`   the chain with an entry taken out of the order, its slot still held;
* `Balanced.appended`, `revalued`, `unlinked`   all are in balance, the last but for the slot itself;
* `remove_eq`, `remove_spec`     a removal, and what it frees at once.
-/

namespace LiveOrder.Chain

variable {ν : Type} {c d : Chain ν} {pins : Nat → Nat} {idle gone : List Nat} {s : Nat}
  {x : Slot ν} {key : Key} {value : ν} {hash : UInt64}

/-! ## a new entry -/

def appended (c : Chain ν) (key : Key) (value : ν) (hash : UInt64) : Chain ν where
  arena := (c.arena.insert ⟨key, value, hash, c.tail, none, false, 0⟩).modifyAt c.tail
    fun x => { x with next := some c.arena.fresh }
  head := if c.tail = none then some c.arena.fresh else c.head
  tail := some c.arena.fresh
  len := c.len + 1

theorem link_eq (h : c.Linked) :
    c.link key value hash = .ok (c.arena.fresh, c.appended key value hash) := by
  cases ht : c.tail with
  | none => simp [link, appended, ht, Arena.modifyAt, pure, Except.pure]
  | some t =>
    have htail := h.tail
    rw [ht] at htail
    have hm : t ∈ (c.arena.insert ⟨key, value, hash, some t, none, false, 0⟩).serials := by
      rw [Arena.serials_insert]
      exact List.mem_append_left _ htail.1.mem
    have hu := @update_of ν
      { c with
        arena := c.arena.insert ⟨key, value, hash, some t, none, false, 0⟩
        tail := some c.arena.fresh
        len := c.len + 1 } t hm fun x => { x with next := some c.arena.fresh }
    simp only [link, appended, ht, bind, Except.bind, hu]
    rfl

theorem tail_ne_fresh (h : c.Linked) : c.tail ≠ some c.arena.fresh := by
  intro e
  have htail := h.tail
  rw [e] at htail
  exact Nat.lt_irrefl _ (h.lt_fresh htail.1.mem)

theorem get?_appended (h : c.Linked) (t : Nat) :
    (c.appended key value hash).arena.get? t =
      if t = c.arena.fresh then some ⟨key, value, hash, c.tail, none, false, 0⟩
      else if c.tail = some t then
        (c.arena.get? t).map fun x => { x with next := some c.arena.fresh }
      else c.arena.get? t := by
  show ((c.arena.insert _).modifyAt c.tail _).get? t = _
  rw [Arena.get?_modifyAt]
  by_cases ht : t = c.arena.fresh
  · rw [if_pos ht, ht, if_neg (tail_ne_fresh h), Arena.get?_insert_self h.sound]
  · rw [if_neg ht, Arena.get?_insert_of_ne _ _ ht]

theorem live_appended (h : c.Linked) (q : Nat) :
    (c.appended key value hash).Live q ↔ c.Live q ∨ q = c.arena.fresh := by
  unfold Live
  rw [get?_appended h]
  by_cases hq : q = c.arena.fresh
  · simp [hq]
  · simp only [hq, if_false, or_false]
    by_cases ht : c.tail = some q
    · simp [ht]
    · simp [ht]

theorem serials_appended (c : Chain ν) :
    (c.appended key value hash).arena.serials = c.arena.serials ++ [c.arena.fresh] := by
  show ((c.arena.insert _).modifyAt c.tail _).serials = _
  rw [Arena.serials_modifyAt, Arena.serials_insert]

@[simp] theorem fresh_appended (c : Chain ν) :
    (c.appended key value hash).arena.fresh = c.arena.fresh + 1 := by
  show ((c.arena.insert _).modifyAt c.tail _).fresh = _
  rw [Arena.fresh_modifyAt, Arena.fresh_insert]

/-- A count that does not look at forward links only has the new entry to add. -/
theorem count_appended (h : c.Linked) (p : Slot ν → Bool)
    (hp : ∀ x n, p { x with next := n } = p x) :
    (c.appended key value hash).arena.count p =
      c.arena.count p + if p ⟨key, value, hash, c.tail, none, false, 0⟩ then 1 else 0 := by
  rw [← Arena.count_insert]
  exact Arena.count_modifyAt_of_eq (h.sound.insert _) fun _ x _ _ => hp x _

section
variable (h : c.Linked)
include h

/-- A slot of the longer chain is the new one, the former tail or one that stays as it was. -/
theorem appended_cases {t : Nat} {y : Slot ν} (hy : (c.appended key value hash).arena.get? t = some y) :
    (t = c.arena.fresh ∧ y = ⟨key, value, hash, c.tail, none, false, 0⟩) ∨
      (c.tail = some t ∧ ∃ x, c.arena.get? t = some x ∧ y = { x with next := some c.arena.fresh }) ∨
      (c.tail ≠ some t ∧ c.arena.get? t = some y) := by
  rw [get?_appended h] at hy
  split at hy
  · rename_i hs
    exact .inl ⟨hs, (Option.some.inj hy).symm⟩
  · split at hy
    · rename_i ht
      obtain ⟨x, hx, rfl⟩ := Option.map_eq_some_iff.mp hy
      exact .inr (.inl ⟨ht, x, hx, rfl⟩)
    · rename_i ht
      exact .inr (.inr ⟨ht, hy⟩)

theorem head_appended :
    FirstAfter (c.appended key value hash).Live none (c.appended key value hash).head := by
  have hlive : ∀ q, (c.appended key value hash).Live q ↔ c.Live q ∨ q = c.arena.fresh :=
    live_appended h
  have htail := h.tail
  show FirstAfter _ none (if c.tail = none then some c.arena.fresh else c.head)
  split
  · rename_i ht
    rw [ht] at htail
    have hnone : FirstAfter c.Live none none := fun q hq _ => htail q hq trivial
    exact hnone.reach trivial hlive
  · rename_i ht
    obtain ⟨t, ht⟩ := Option.ne_none_iff_exists'.mp ht
    rw [ht] at htail
    have hhead := h.head
    cases hh : c.head with
    | none =>
      rw [hh] at hhead
      exact absurd trivial (hhead t htail.1)
    | some a => exact (hh ▸ hhead).extend (fun q hq => h.lt_fresh hq.mem) hlive

/-- Only the tail has no next entry. -/
theorem tail_of_next {t : Nat} {x : Slot ν} (hx : c.arena.get? t = some x) (hl : x.removed = false)
    (hn : x.next = none) : c.tail = some t := by
  have hnext := h.next hx hl
  rw [hn] at hnext
  have htail := h.tail
  cases ht : c.tail with
  | none =>
    rw [ht] at htail
    exact absurd trivial (htail t ⟨x, hx, hl⟩)
  | some u =>
    rw [ht] at htail
    have hle := htail.2.2 t ⟨x, hx, hl⟩ trivial
    have hnlt : ¬t < u := hnext u htail.1
    rw [Nat.le_antisymm hle (Nat.not_lt.mp hnlt)]

theorem next_appended {t : Nat} {y : Slot ν} (hy : (c.appended key value hash).arena.get? t = some y)
    (hr : y.removed = false) : FirstAfter (c.appended key value hash).Live (some t) y.next := by
  have hlive : ∀ q, (c.appended key value hash).Live q ↔ c.Live q ∨ q = c.arena.fresh :=
    live_appended h
  have hlt : ∀ q, c.Live q → q < c.arena.fresh := fun q hq => h.lt_fresh hq.mem
  rcases appended_cases h hy with ⟨rfl, rfl⟩ | ⟨ht, x, hx, rfl⟩ | ⟨ht, hx⟩
  · intro q hq hs
    rcases (hlive q).mp hq with hq | rfl
    · exact Nat.lt_asymm hs (hlt q hq)
    · exact Nat.lt_irrefl _ hs
  · have htail := h.tail
    rw [ht] at htail
    have hnone : FirstAfter c.Live (some t) none := by
      intro q hq hs
      have hle := htail.2.2 q hq trivial
      exact Nat.not_lt.mpr hle hs
    exact hnone.reach (hlt t htail.1) hlive
  · have hnext := h.next hx hr
    cases hn : y.next with
    | none => exact absurd (tail_of_next h hx hr hn) ht
    | some n => exact (hn ▸ hnext).extend hlt hlive

theorem prev_appended {t : Nat} {y : Slot ν} (hy : (c.appended key value hash).arena.get? t = some y)
    (hr : y.removed = false) : LastBefore (c.appended key value hash).Live (some t) y.prev := by
  have hlive : ∀ q, (c.appended key value hash).Live q ↔ c.Live q ∨ q = c.arena.fresh :=
    live_appended h
  have hle : ∀ {x : Slot ν}, c.arena.get? t = some x → t ≤ c.arena.fresh := fun hx =>
    Nat.le_of_lt (h.lt_fresh (Arena.mem_serials_of_get? hx))
  rcases appended_cases h hy with ⟨rfl, rfl⟩ | ⟨ht, x, hx, rfl⟩ | ⟨ht, hx⟩
  · exact h.tail.close (fun q hq => h.lt_fresh hq.mem) hlive
  · exact (h.prev hx hr).extend (hle hx) hlive
  · exact (h.prev hx hr).extend (hle hx) hlive

theorem Linked.appended : (c.appended key value hash).Linked where
  sound := (h.sound.insert _).modifyAt _ _
  head := head_appended h
  tail := LastBefore.reach (fun q hq => h.lt_fresh hq.mem) (live_appended h)
  len := by
    rw [count_appended h _ fun _ _ => rfl, ← h.len]
    rfl
  next := next_appended h
  prev := prev_appended h
  back {t y p} hy hr hp := by
    rw [serials_appended]
    rcases appended_cases h hy with ⟨rfl, rfl⟩ | ⟨ht, x, hx, rfl⟩ | ⟨ht, hx⟩
    · cases hr
    · exact (h.back (x := x) hx hr hp).imp id (List.mem_append_left _)
    · exact (h.back hx hr hp).imp id (List.mem_append_left _)
  gap {t y q} hy hr hq hlt := by
    rcases appended_cases h hy with ⟨rfl, rfl⟩ | ⟨ht, x, hx, rfl⟩ | ⟨ht, hx⟩
    · cases hr
    · have htail := h.tail
      rw [ht] at htail
      exact absurd htail.1 (not_live_of_removed hx hr)
    · rcases (live_appended h q).mp hq with hq | rfl
      · exact h.gap hx hr hq hlt
      · exact absurd (h.lt_fresh (Arena.mem_serials_of_get? hx)) (Nat.lt_asymm hlt)

end

theorem leaning_appended (h : c.Linked) (t : Nat) :
    (c.appended key value hash).leaning t = c.leaning t :=
  count_appended h (Slot.leansOn t) fun _ _ => rfl

/-- Nothing leans on an entry that is not there yet. -/
theorem leaning_fresh (h : c.Linked) : c.leaning c.arena.fresh = 0 := by
  by_contra hne
  obtain ⟨s, x, hx, hl⟩ := (Arena.count_pos_iff h.sound).mp (Nat.pos_of_ne_zero hne)
  obtain ⟨hr, hp⟩ := Slot.leansOn_iff.mp hl
  exact Nat.lt_irrefl _ (h.lt_fresh (h.back hx hr hp).2)

theorem Balanced.appended (h : c.Balanced pins []) :
    (c.appended key value hash).Balanced pins [] := by
  refine { h.toLinked.appended with counted := ?_, kept := ?_, pinned := ?_ }
  · intro s y hy
    rw [leaning_appended h.toLinked]
    rw [get?_appended h.toLinked] at hy
    split at hy
    · rename_i hs
      have hp : pins s = 0 := by
        by_contra hne
        exact h.sound.fresh_notMem (hs ▸ h.pinned (Nat.pos_of_ne_zero hne))
      rw [hp, hs, leaning_fresh h.toLinked, ← Option.some.inj hy]
    · split at hy
      · obtain ⟨x, hx, rfl⟩ := Option.map_eq_some_iff.mp hy
        exact h.counted (x := x) hx
      · exact h.counted hy
  · intro s y hy hr hs
    rw [get?_appended h.toLinked] at hy
    split at hy
    · rw [← Option.some.inj hy] at hr
      cases hr
    · split at hy
      · obtain ⟨x, hx, rfl⟩ := Option.map_eq_some_iff.mp hy
        exact h.kept (x := x) hx hr hs
      · exact h.kept hy hr hs
  · intro s hs
    rw [serials_appended]
    exact List.mem_append_left _ (h.pinned hs)

/-! ## another value -/

end Chain

namespace Slot

variable {ν : Type}

def revalued (f : ν → ν) (x : Slot ν) : Slot ν := { x with value := f x.value }

end Slot

namespace Chain

variable {ν : Type} {c : Chain ν} {pins : Nat → Nat} {idle : List Nat} {s : Nat} {f : ν → ν}

def revalued (c : Chain ν) (s : Nat) (f : ν → ν) : Chain ν :=
  { c with arena := c.arena.modify s (Slot.revalued f) }

theorem get?_revalued (c : Chain ν) (s : Nat) (f : ν → ν) (t : Nat) :
    (c.revalued s f).arena.get? t =
      if t = s then (c.arena.get? t).map (Slot.revalued f) else c.arena.get? t :=
  Arena.get?_modify _ _ _ _

@[simp] theorem serials_revalued (c : Chain ν) (s : Nat) (f : ν → ν) :
    (c.revalued s f).arena.serials = c.arena.serials := Arena.serials_modify _ _ _

/-- A slot of the changed chain is there in the other one, and only values differ. -/
theorem before_revalued {t : Nat} {y : Slot ν} (hy : (c.revalued s f).arena.get? t = some y) :
    ∃ x, c.arena.get? t = some x ∧ y = { x with value := y.value } := by
  rw [get?_revalued] at hy
  split at hy
  · obtain ⟨x, hx, rfl⟩ := Option.map_eq_some_iff.mp hy
    exact ⟨x, hx, rfl⟩
  · exact ⟨y, hy, rfl⟩

theorem live_revalued (q : Nat) : (c.revalued s f).Live q ↔ c.Live q := by
  unfold Live
  rw [get?_revalued]
  by_cases hq : q = s
  · simp [hq, Slot.revalued]
  · simp [hq]

theorem Linked.revalued (h : c.Linked) : (c.revalued s f).Linked where
  sound := h.sound.modify _ _
  head := h.head.congr live_revalued
  tail := h.tail.congr live_revalued
  len := by
    rw [count_live_congr h.sound (h.sound.modify _ _) live_revalued]
    exact h.len
  next {t y} hy hr := by
    obtain ⟨x, hx, e⟩ := before_revalued hy
    rw [e] at hr ⊢
    exact (h.next (x := x) hx hr).congr live_revalued
  prev {t y} hy hr := by
    obtain ⟨x, hx, e⟩ := before_revalued hy
    rw [e] at hr ⊢
    exact (h.prev (x := x) hx hr).congr live_revalued
  back {t y p} hy hr hp := by
    obtain ⟨x, hx, e⟩ := before_revalued hy
    rw [e] at hr hp
    rw [serials_revalued]
    exact h.back (x := x) hx hr hp
  gap {t y q} hy hr hq hlt := by
    obtain ⟨x, hx, e⟩ := before_revalued hy
    rw [e] at hr ⊢
    exact h.gap (x := x) hx hr ((live_revalued q).mp hq) hlt

theorem Balanced.revalued (h : c.Balanced pins idle) : (c.revalued s f).Balanced pins idle := by
  refine { h.toLinked.revalued with counted := ?_, kept := ?_, pinned := ?_ }
  · intro t y hy
    have hlean : (c.revalued s f).leaning t = c.leaning t :=
      Arena.count_modify_of_eq h.sound fun _ _ => rfl
    obtain ⟨x, hx, e⟩ := before_revalued hy
    rw [hlean, e]
    exact h.counted (x := x) hx
  · intro t y hy hr ht
    obtain ⟨x, hx, e⟩ := before_revalued hy
    rw [e] at hr ⊢
    exact h.kept (x := x) hx hr ht
  · intro t ht
    rw [serials_revalued]
    exact h.pinned ht

/-! ## an entry taken out -/

end Chain

namespace Slot

variable {ν : Type}

def retired (x : Slot ν) : Slot ν := { x with removed := true }

/-- The slot before one that was taken out. -/
def joinedTo (next : Option Nat) (y : Slot ν) : Slot ν :=
  { y with next := next, refs := y.refs + 1 }

/-- The slot after one that was taken out. -/
def joinedFrom (prev : Option Nat) (y : Slot ν) : Slot ν := { y with prev := prev }

@[simp] theorem removed_retired (x : Slot ν) : x.retired.removed = true := rfl

@[simp] theorem removed_joinedTo (n : Option Nat) (y : Slot ν) :
    (y.joinedTo n).removed = y.removed := rfl

@[simp] theorem removed_joinedFrom (p : Option Nat) (y : Slot ν) :
    (y.joinedFrom p).removed = y.removed := rfl

end Slot

namespace Chain

variable {ν : Type} {c d : Chain ν} {pins : Nat → Nat} {s : Nat} {x : Slot ν}

def unlinked (c : Chain ν) (s : Nat) (x : Slot ν) : Chain ν where
  arena := ((c.arena.modify s Slot.retired).modifyAt x.prev (Slot.joinedTo x.next)).modifyAt x.next
    (Slot.joinedFrom x.prev)
  head := if x.prev = none then x.next else c.head
  tail := if x.next = none then x.prev else c.tail
  len := c.len - 1

theorem serials_unlinked (c : Chain ν) (s : Nat) (x : Slot ν) :
    (c.unlinked s x).arena.serials = c.arena.serials := by
  show (((c.arena.modify s _).modifyAt x.prev _).modifyAt x.next _).serials = _
  simp

@[simp] theorem fresh_unlinked (c : Chain ν) (s : Nat) (x : Slot ν) :
    (c.unlinked s x).arena.fresh = c.arena.fresh := by
  show (((c.arena.modify s _).modifyAt x.prev _).modifyAt x.next _).fresh = _
  simp

section
variable (h : c.Linked) (hx : c.arena.get? s = some x) (hl : x.removed = false)
include h hx hl

theorem prev_ne_self : x.prev ≠ some s := fun hp =>
  Nat.lt_irrefl _ (h.live_prev hx hl hp).2

theorem next_ne_self : x.next ≠ some s := fun hn =>
  Nat.lt_irrefl _ (h.live_next hx hl hn).2

theorem prev_ne_of_next {t : Nat} (hn : x.next = some t) : x.prev ≠ some t := by
  intro hp
  have h1 := (h.live_next hx hl hn).2
  have h2 := (h.live_prev hx hl hp).2
  omega

theorem get?_unlinked (t : Nat) :
    (c.unlinked s x).arena.get? t =
      if t = s then some x.retired
      else if x.prev = some t then (c.arena.get? t).map (Slot.joinedTo x.next)
      else if x.next = some t then (c.arena.get? t).map (Slot.joinedFrom x.prev)
      else c.arena.get? t := by
  show (((c.arena.modify s _).modifyAt x.prev _).modifyAt x.next _).get? t = _
  rw [Arena.get?_modifyAt, Arena.get?_modifyAt, Arena.get?_modify]
  by_cases hs : t = s
  · subst hs
    rw [if_neg (next_ne_self h hx hl), if_neg (prev_ne_self h hx hl), if_pos rfl, if_pos rfl, hx]
    rfl
  · rw [if_neg hs, if_neg hs]
    by_cases hn : x.next = some t
    · have hp := prev_ne_of_next h hx hl hn
      rw [if_pos hn, if_neg hp, if_neg hp, if_pos hn]
    · rw [if_neg hn, if_neg hn]

/-- Only the entry itself counts differently, if live slots count the same whatever their links. -/
theorem count_unlinked (p : Slot ν → Bool) (hnext : ∀ n z, p (Slot.joinedTo n z) = p z)
    (hprev : ∀ q z, z.removed = false → p (Slot.joinedFrom q z) = p z) :
    (c.unlinked s x).arena.count p + (if p x then 1 else 0) =
      c.arena.count p + if p x.retired then 1 else 0 := by
  have h1 := h.sound.modify s Slot.retired
  have h2 := h1.modifyAt x.prev (Slot.joinedTo x.next)
  have hc2 : ((c.arena.modify s Slot.retired).modifyAt x.prev (Slot.joinedTo x.next)).count p =
      (c.arena.modify s Slot.retired).count p :=
    Arena.count_modifyAt_of_eq h1 fun _ z _ _ => hnext x.next z
  have hc3 : (c.unlinked s x).arena.count p =
      ((c.arena.modify s Slot.retired).modifyAt x.prev (Slot.joinedTo x.next)).count p := by
    refine Arena.count_modifyAt_of_eq h2 fun u z hu hz => hprev x.prev z ?_
    have hlu := h.live_next hx hl hu
    have hne : u ≠ s := by omega
    rw [Arena.get?_modifyAt, if_neg (prev_ne_of_next h hx hl hu), Arena.get?_modify, if_neg hne] at hz
    exact (live_iff_of_get? hz).mp hlu.1
  rw [hc3, hc2]
  exact Arena.count_modify h.sound hx Slot.retired p

/-- The entry is marked, and its neighbours are joined. -/
theorem joins_eq : ∃ c₁ c₂ c₃, c.update s (fun x => { x with removed := true }) = .ok c₁ ∧
    c₁.joinBefore x = .ok c₂ ∧ c₂.joinAfter x = .ok c₃ ∧ c₃.len ≠ 0 ∧
    ({ c₃ with len := c₃.len - 1 } : Chain ν) = c.unlinked s x := by
  let c1 : Chain ν := { c with arena := c.arena.modify s Slot.retired }
  let c2 : Chain ν :=
    { c1 with
      arena := c1.arena.modifyAt x.prev (Slot.joinedTo x.next)
      head := if x.prev = none then x.next else c.head }
  let c3 : Chain ν :=
    { c2 with
      arena := c2.arena.modifyAt x.next (Slot.joinedFrom x.prev)
      tail := if x.next = none then x.prev else c.tail }
  have h1 : c.update s (fun x => { x with removed := true }) = .ok c1 :=
    update_of (Arena.mem_serials_of_get? hx) _
  have h2 : c1.joinBefore x = .ok c2 := by
    cases hp : x.prev with
    | none => simp [joinBefore, c1, c2, hp, Arena.modifyAt, pure, Except.pure]
    | some p =>
      have hm : p ∈ c1.arena.serials := by
        show p ∈ (c.arena.modify s Slot.retired).serials
        rw [Arena.serials_modify]
        exact (h.live_prev hx hl hp).1.mem
      simp only [joinBefore, hp]
      rw [update_of hm]
      simp only [c1, c2, hp, Arena.modifyAt, reduceCtorEq, if_false]
      rfl
  have h3 : c2.joinAfter x = .ok c3 := by
    cases hn : x.next with
    | none => simp [joinAfter, c1, c2, c3, hn, Arena.modifyAt, pure, Except.pure]
    | some n =>
      have hm : n ∈ c2.arena.serials := by
        show n ∈ ((c.arena.modify s Slot.retired).modifyAt x.prev (Slot.joinedTo x.next)).serials
        rw [Arena.serials_modifyAt, Arena.serials_modify]
        exact (h.live_next hx hl hn).1.mem
      simp only [joinAfter, hn]
      rw [update_of hm]
      simp only [c1, c2, c3, hn, Arena.modifyAt, reduceCtorEq, if_false]
      rfl
  have hlen : c3.len ≠ 0 := by
    show c.len ≠ 0
    have hpos : 0 < c.arena.count (!·.removed) :=
      (Arena.count_pos_iff h.sound).mpr ⟨s, x, hx, by simp [hl]⟩
    have := h.len
    omega
  exact ⟨c1, c2, c3, h1, h2, h3, hlen, rfl⟩

theorem remove_eq :
    c.remove s =
      if x.refs = 0 then (c.unlinked s x).reclaim s else .ok (c.unlinked s x, .ofCascade []) := by
  obtain ⟨c₁, c₂, c₃, h₁, h₂, h₃, hlen, hunlinked⟩ := joins_eq h hx hl
  have hget := get?_unlinked h hx hl s
  rw [if_pos rfl] at hget
  rw [remove, slot_of hx]
  simp only [bind, Except.bind, h₁, h₂, h₃, hlen, if_false, hunlinked, slot_of hget]
  rfl

theorem live_unlinked (q : Nat) : (c.unlinked s x).Live q ↔ c.Live q ∧ q ≠ s := by
  unfold Live
  rw [get?_unlinked h hx hl]
  by_cases hq : q = s
  · simp [hq]
  · simp only [hq, if_false, ne_eq, not_false_eq_true, and_true]
    by_cases hp : x.prev = some q
    · simp [hp]
    · by_cases hn : x.next = some q
      · simp [hp, hn]
      · simp [hp, hn]

/-- A slot of the shorter chain is the one taken out, a neighbour or one that stays as it was. -/
theorem unlinked_cases {t : Nat} {y : Slot ν} (hy : (c.unlinked s x).arena.get? t = some y) :
    (t = s ∧ y = x.retired) ∨
    (x.prev = some t ∧ ∃ z, c.arena.get? t = some z ∧ y = z.joinedTo x.next) ∨
    (x.next = some t ∧ ∃ z, c.arena.get? t = some z ∧ y = z.joinedFrom x.prev) ∨
    (t ≠ s ∧ x.prev ≠ some t ∧ x.next ≠ some t ∧ c.arena.get? t = some y) := by
  rw [get?_unlinked h hx hl] at hy
  split at hy
  · rename_i ht
    exact .inl ⟨ht, (Option.some.inj hy).symm⟩
  · rename_i ht
    split at hy
    · rename_i hp
      obtain ⟨z, hz, rfl⟩ := Option.map_eq_some_iff.mp hy
      exact .inr (.inl ⟨hp, z, hz, rfl⟩)
    · rename_i hp
      split at hy
      · rename_i hn
        obtain ⟨z, hz, rfl⟩ := Option.map_eq_some_iff.mp hy
        exact .inr (.inr (.inl ⟨hn, z, hz, rfl⟩))
      · rename_i hn
        exact .inr (.inr (.inr ⟨ht, hp, hn, hy⟩))

/-- The entry is the next one of the live entry before it, and of no other. -/
theorem first_after_iff {t : Nat} (ht : c.Live t) :
    FirstAfter c.Live (some t) (some s) ↔ x.prev = some t := by
  have hprev := h.prev hx hl
  constructor
  · rintro ⟨_, hts, hmin⟩
    cases hp : x.prev with
    | none =>
      rw [hp] at hprev
      exact absurd hts (hprev t ht)
    | some p =>
      rw [hp] at hprev
      have hps : p < s := hprev.2.1
      have hle : t ≤ p := hprev.2.2 t ht hts
      by_contra hne
      have hlt : t < p := Nat.lt_of_le_of_ne hle fun e => hne (by rw [e])
      have := hmin p hprev.1 hlt
      omega
  · intro hp
    rw [hp] at hprev
    refine ⟨⟨x, hx, hl⟩, hprev.2.1, fun q hq htq => ?_⟩
    by_contra hne
    have hle : q ≤ t := hprev.2.2 q hq (Nat.not_le.mp hne)
    exact absurd htq (Nat.not_lt.mpr hle)

/-- The entry is the previous one of the live entry after it, and of no other. -/
theorem last_before_iff {t : Nat} (ht : c.Live t) :
    LastBefore c.Live (some t) (some s) ↔ x.next = some t := by
  have hnext := h.next hx hl
  constructor
  · rintro ⟨_, hts, hmax⟩
    cases hn : x.next with
    | none =>
      rw [hn] at hnext
      exact absurd hts (hnext t ht)
    | some n =>
      rw [hn] at hnext
      have hsn : s < n := hnext.2.1
      have hle : n ≤ t := hnext.2.2 t ht hts
      by_contra hne
      have hlt : n < t := Nat.lt_of_le_of_ne hle fun e => hne (by rw [e])
      have := hmax n hnext.1 hlt
      omega
  · intro hn
    rw [hn] at hnext
    refine ⟨⟨x, hx, hl⟩, hnext.2.1, fun q hq hqt => ?_⟩
    by_contra hne
    have hle : t ≤ q := hnext.2.2 q hq (Nat.not_le.mp hne)
    exact absurd hqt (Nat.not_lt.mpr hle)

theorem head_unlinked : FirstAfter (c.unlinked s x).Live none (c.unlinked s x).head := by
  have hlive := live_unlinked h hx hl
  have hprev := h.prev hx hl
  show FirstAfter _ none (if x.prev = none then x.next else c.head)
  split
  · rename_i hp
    rw [hp] at hprev
    have hfirst : FirstAfter c.Live none (some s) :=
      ⟨⟨x, hx, hl⟩, trivial, fun q hq _ => Nat.not_lt.mp (hprev q hq)⟩
    exact hfirst.skip (h.next hx hl) hlive
  · rename_i hp
    obtain ⟨p, hp⟩ := Option.ne_none_iff_exists'.mp hp
    obtain ⟨hlp, hlt⟩ := h.live_prev hx hl hp
    refine h.head.without ?_ hlive
    intro hh
    have hhead := h.head
    rw [hh] at hhead
    have hle := hhead.2.2 p hlp trivial
    omega

theorem tail_unlinked : LastBefore (c.unlinked s x).Live none (c.unlinked s x).tail := by
  have hlive := live_unlinked h hx hl
  have hnext := h.next hx hl
  show LastBefore _ none (if x.next = none then x.prev else c.tail)
  split
  · rename_i hn
    rw [hn] at hnext
    have hlast : LastBefore c.Live none (some s) :=
      ⟨⟨x, hx, hl⟩, trivial, fun q hq _ => Nat.not_lt.mp (hnext q hq)⟩
    exact hlast.skip (h.prev hx hl) hlive
  · rename_i hn
    obtain ⟨n, hn⟩ := Option.ne_none_iff_exists'.mp hn
    obtain ⟨hln, hlt⟩ := h.live_next hx hl hn
    refine h.tail.without ?_ hlive
    intro ht
    have htail := h.tail
    rw [ht] at htail
    have hle := htail.2.2 n hln trivial
    omega

theorem len_unlinked : (c.unlinked s x).len = (c.unlinked s x).arena.count (!·.removed) := by
  have hc := count_unlinked h hx hl (!·.removed) (fun _ _ => rfl) fun _ _ _ => rfl
  have hlen := h.len
  simp only [hl, Slot.retired, Bool.not_false, Bool.not_true, if_true, Bool.false_eq_true,
    if_false] at hc
  show c.len - 1 = _
  omega

/-- The entry before the removed one is followed by what followed that. -/
theorem next_unlinked {t : Nat} {y : Slot ν} (hy : (c.unlinked s x).arena.get? t = some y)
    (hr : y.removed = false) : FirstAfter (c.unlinked s x).Live (some t) y.next := by
  have hlive := live_unlinked h hx hl
  rcases unlinked_cases h hx hl hy with
    ⟨rfl, rfl⟩ | ⟨hp, z, hz, rfl⟩ | ⟨hn, z, hz, rfl⟩ | ⟨_, hp, _, hz⟩
  · cases hr
  · have hts := (first_after_iff h hx hl ⟨z, hz, hr⟩).mpr hp
    exact hts.skip (h.next (x := x) hx hl) hlive
  · refine (h.next (x := z) hz hr).without ?_ hlive
    intro e
    have hlt := (h.live_next hx hl hn).2
    have hlt' := (h.live_next hz hr e).2
    omega
  · refine (h.next hz hr).without ?_ hlive
    intro e
    have hnext := h.next hz hr
    rw [e] at hnext
    exact hp ((first_after_iff h hx hl ⟨y, hz, hr⟩).mp hnext)

/-- The entry after the removed one follows what came before that. -/
theorem prev_unlinked {t : Nat} {y : Slot ν} (hy : (c.unlinked s x).arena.get? t = some y)
    (hr : y.removed = false) : LastBefore (c.unlinked s x).Live (some t) y.prev := by
  have hlive := live_unlinked h hx hl
  rcases unlinked_cases h hx hl hy with
    ⟨rfl, rfl⟩ | ⟨hp, z, hz, rfl⟩ | ⟨hn, z, hz, rfl⟩ | ⟨_, _, hn, hz⟩
  · cases hr
  · refine (h.prev (x := z) hz hr).without ?_ hlive
    intro e
    have hlt := (h.live_prev hx hl hp).2
    have hlt' := (h.live_prev hz hr e).2
    omega
  · have hts := (last_before_iff h hx hl ⟨z, hz, hr⟩).mpr hn
    exact hts.skip (h.prev (x := x) hx hl) hlive
  · refine (h.prev hz hr).without ?_ hlive
    intro e
    have hprev := h.prev hz hr
    rw [e] at hprev
    exact hn ((last_before_iff h hx hl ⟨y, hz, hr⟩).mp hprev)

/-- A removed entry is the one that is removed now, or was removed before. -/
theorem removed_unlinked {t : Nat} {y : Slot ν} (hy : (c.unlinked s x).arena.get? t = some y)
    (hr : y.removed = true) : (t = s ∧ y = x.retired) ∨ c.arena.get? t = some y := by
  rcases unlinked_cases h hx hl hy with
    hs | ⟨hp, z, hz, rfl⟩ | ⟨hn, z, hz, rfl⟩ | ⟨_, _, _, hz⟩
  · exact .inl hs
  · exact absurd (h.live_prev hx hl hp).1 (not_live_of_removed hz hr)
  · exact absurd (h.live_next hx hl hn).1 (not_live_of_removed hz hr)
  · exact .inr hz

theorem Linked.unlinked : (c.unlinked s x).Linked where
  sound := ((h.sound.modify _ _).modifyAt _ _).modifyAt _ _
  head := head_unlinked h hx hl
  tail := tail_unlinked h hx hl
  len := len_unlinked h hx hl
  next := next_unlinked h hx hl
  prev := prev_unlinked h hx hl
  back {t y p} hy hr hp := by
    rw [serials_unlinked]
    rcases removed_unlinked h hx hl hy hr with ⟨rfl, rfl⟩ | hz
    · exact h.prev_mem (x := x) hx hp
    · exact h.back hz hr hp
  gap {t y q} hy hr hq hlt := by
    have hlq := ((live_unlinked h hx hl q).mp hq).1
    rcases removed_unlinked h hx hl hy hr with ⟨rfl, rfl⟩ | hz
    · have hprev := h.prev hx hl
      show ∃ p, x.prev = some p ∧ q ≤ p
      cases hp : x.prev with
      | none =>
        rw [hp] at hprev
        exact absurd hlt (hprev q hlq)
      | some p =>
        rw [hp] at hprev
        exact ⟨p, rfl, hprev.2.2 q hlq hlt⟩
    · exact h.gap hz hr hlq hlt

theorem leaning_unlinked (t : Nat) :
    (c.unlinked s x).leaning t = c.leaning t + if x.prev = some t then 1 else 0 := by
  have hc := count_unlinked h hx hl (Slot.leansOn t) (fun _ _ => rfl)
    fun _ z hz => by simp [Slot.leansOn, Slot.joinedFrom, hz]
  simp only [Slot.leansOn_iff, hl, Slot.retired, Bool.false_eq_true, false_and, if_false,
    true_and] at hc
  exact hc

end

theorem Balanced.unlinked (h : c.Balanced pins []) (hx : c.arena.get? s = some x)
    (hl : x.removed = false) : (c.unlinked s x).Balanced pins [s] := by
  have hlean := leaning_unlinked h.toLinked hx hl
  refine { h.toLinked.unlinked hx hl with counted := ?_, kept := ?_, pinned := ?_ }
  · intro t y hy
    rw [hlean]
    rcases unlinked_cases h.toLinked hx hl hy with
      ⟨rfl, rfl⟩ | ⟨hp, z, hz, rfl⟩ | ⟨hn, z, hz, rfl⟩ | ⟨_, hp, _, hz⟩
    · rw [if_neg (prev_ne_self h.toLinked hx hl)]
      exact h.counted (x := x) hx
    · rw [if_pos hp]
      have := h.counted hz
      show z.refs + 1 = _
      omega
    · rw [if_neg (prev_ne_of_next h.toLinked hx hl hn)]
      exact h.counted (x := z) hz
    · rw [if_neg hp]
      exact h.counted hz
  · intro t y hy hr ht
    rw [List.mem_singleton] at ht
    rcases removed_unlinked h.toLinked hx hl hy hr with ⟨e, _⟩ | hz
    · exact absurd e ht
    · exact h.kept hz hr List.not_mem_nil
  · intro t ht
    rw [serials_unlinked]
    exact h.pinned ht

theorem pairsOf_unlinked (h : c.Linked) (hx : c.arena.get? s = some x) (hl : x.removed = false)
    (l : List Nat) : (c.unlinked s x).pairsOf l = c.pairsOf l := by
  refine List.filterMap_congr fun t _ => ?_
  rw [get?_unlinked h hx hl]
  split
  · rename_i ht
    rw [ht, hx]
    rfl
  · split
    · rw [Option.map_map]
      rfl
    · split
      · rw [Option.map_map]
        rfl
      · rfl

/-- A removal frees the entry at once, and it alone, or keeps its slot for those that still refer to
it. -/
theorem remove_spec (h : c.Balanced pins []) (hx : c.arena.get? s = some x)
    (hl : x.removed = false) :
    ∃ d gone, c.remove s = .ok (d, .ofCascade (c.pairsOf gone)) ∧
      Cascade (c.unlinked s x) d gone ∧ d.Balanced pins [] ∧ (gone = [] ∨ gone = [s]) := by
  have hb := h.unlinked hx hl
  have hxu : (c.unlinked s x).arena.get? s = some x.retired := by
    rw [get?_unlinked h.toLinked hx hl, if_pos rfl]
  rw [remove_eq h.toLinked hx hl]
  by_cases h0 : x.refs = 0
  · -- what the entry leans on is live
    have hprev : ∀ p, x.retired.prev = some p → (c.unlinked s x).Live p := by
      intro p hp
      obtain ⟨hlive, hlt⟩ := h.live_prev hx hl hp
      exact (live_unlinked h.toLinked hx hl p).mpr ⟨hlive, Nat.ne_of_lt hlt⟩
    obtain ⟨he, hd⟩ := reclaim_alone hb hxu rfl h0 hprev
    refine ⟨_, [s], ?_, .single (frees_unheld hb.sound hxu rfl), hd, .inr rfl⟩
    rw [if_pos h0, he, pairsOf_cons hx]
    rfl
  · rw [if_neg h0]
    refine ⟨c.unlinked s x, [], rfl, (Frees.refl hb.sound).cascade, hb.settle fun z hz _ => ?_,
      .inl rfl⟩
    rw [hxu, Option.some.injEq] at hz
    subst hz
    exact Nat.pos_of_ne_zero h0

end LiveOrder.Chain
