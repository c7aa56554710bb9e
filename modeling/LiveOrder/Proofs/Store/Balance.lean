import LiveOrder.Proofs.Store.Places
import LiveOrder.Proofs.Store.Nearest
import LiveOrder.Store.Chain
import Mathlib.Tactic.ByContra

/-!
# Chains in balance

What holds of a chain between its operations.  Everything about links is said by the order of
serials: the links of a live entry name the nearest live ones, and the backward link of a removed
entry leaves no live entry out.

* `Chain.Live`       the serials of live entries;
* `Chain.Linked`     head, tail, length and links are those of the live entries in order, and every
                     backward link of a removed entry leads to a slot that is held;
* `Chain.Balanced`   besides, every slot counts exactly its pins and the removed entries that lean
                     on it, and a removed slot is held for a reason, except for the ones that are
                     about to be freed (`idle`);
* `Chain.Frees`      one chain is another one without some removed slots and with other counts.
-/

namespace LiveOrder

/-- The backward link of a removed entry names the slot. -/
def Slot.leansOn {ν : Type} (s : Nat) (x : Slot ν) : Bool := x.removed && decide (x.prev = some s)

theorem Slot.leansOn_iff {ν : Type} {s : Nat} {x : Slot ν} :
    x.leansOn s = true ↔ x.removed = true ∧ x.prev = some s := by
  simp [Slot.leansOn]

namespace Chain

variable {ν : Type} {c d e : Chain ν} {pins : Nat → Nat} {idle gone : List Nat} {s : Nat}
  {x : Slot ν}

/-! ## what is said of a chain -/

def Live (c : Chain ν) (s : Nat) : Prop := ∃ x, c.arena.get? s = some x ∧ x.removed = false

/-- The number of removed entries whose backward link names the slot. -/
def leaning (c : Chain ν) (s : Nat) : Nat := c.arena.count (Slot.leansOn s)

structure Linked (c : Chain ν) : Prop where
  sound : c.arena.Sound
  head : FirstAfter c.Live none c.head
  tail : LastBefore c.Live none c.tail
  len : c.len = c.arena.count (!·.removed)
  next : ∀ {s x}, c.arena.get? s = some x → x.removed = false →
    FirstAfter c.Live (some s) x.next
  prev : ∀ {s x}, c.arena.get? s = some x → x.removed = false →
    LastBefore c.Live (some s) x.prev
  /-- what a removed entry leans on came before it and is held -/
  back : ∀ {s x p}, c.arena.get? s = some x → x.removed = true → x.prev = some p →
    p < s ∧ p ∈ c.arena.serials
  /-- no live entry lies between a removed one and what it leans on -/
  gap : ∀ {s x q}, c.arena.get? s = some x → x.removed = true → c.Live q → q < s →
    ∃ p, x.prev = some p ∧ q ≤ p

structure Balanced (c : Chain ν) (pins : Nat → Nat) (idle : List Nat) : Prop extends
    Linked c where
  counted : ∀ {s x}, c.arena.get? s = some x → x.refs = pins s + c.leaning s
  kept : ∀ {s x}, c.arena.get? s = some x → x.removed = true → s ∉ idle → 0 < x.refs
  pinned : ∀ {s}, 0 < pins s → s ∈ c.arena.serials

/-- The pins with one more of them on a slot, or on none. -/
def pinOn (s? : Option Nat) (pins : Nat → Nat) : Nat → Nat :=
  fun u => pins u + if s? = some u then 1 else 0

@[simp] theorem pinOn_none (pins : Nat → Nat) : pinOn none pins = pins := by
  funext u
  simp [pinOn]

theorem pinOn_self (pins : Nat → Nat) (s : Nat) : pinOn (some s) pins s = pins s + 1 := by
  simp [pinOn]

theorem pinOn_of_ne (pins : Nat → Nat) {s u : Nat} (h : s ≠ u) : pinOn (some s) pins u = pins u := by
  simp [pinOn, h]

/-! ## small facts -/

theorem Live.mem (h : c.Live s) : s ∈ c.arena.serials := by
  obtain ⟨x, hx, _⟩ := h
  exact Arena.mem_serials_of_get? hx

theorem not_live_of_removed (hx : c.arena.get? s = some x) (hr : x.removed = true) :
    ¬c.Live s := by
  rintro ⟨y, hy, hl⟩
  rw [hx, Option.some.injEq] at hy
  rw [← hy, hr] at hl
  exact Bool.noConfusion hl

theorem removed_of_not_live (hx : c.arena.get? s = some x) (h : ¬c.Live s) : x.removed = true := by
  cases hr : x.removed with
  | true => rfl
  | false => exact absurd ⟨x, hx, hr⟩ h

theorem live_iff_of_get? (hx : c.arena.get? s = some x) : c.Live s ↔ x.removed = false := by
  constructor
  · rintro ⟨y, hy, hl⟩
    rw [hx, Option.some.injEq] at hy
    exact hy ▸ hl
  · exact fun hr => ⟨x, hx, hr⟩

/-- Two chains with the same live entries have the same number of them. -/
theorem count_live_congr (hc : c.arena.Sound) (hd : d.arena.Sound)
    (h : ∀ q, d.Live q ↔ c.Live q) :
    d.arena.count (!·.removed) = c.arena.count (!·.removed) := by
  refine Arena.count_congr hd hc fun q => ?_
  simpa [Live] using h q

theorem leaning_pos (hc : c.arena.Sound) {p : Nat} (hx : c.arena.get? s = some x)
    (hr : x.removed = true) (hp : x.prev = some p) : 0 < c.leaning p :=
  (Arena.count_pos_iff hc).mpr ⟨s, x, hx, Slot.leansOn_iff.mpr ⟨hr, hp⟩⟩

namespace Linked

theorem lt_fresh (h : c.Linked) (hs : s ∈ c.arena.serials) : s < c.arena.fresh :=
  h.sound.below s hs

theorem live_next (h : c.Linked) (hx : c.arena.get? s = some x) (hl : x.removed = false)
    {n : Nat} (hn : x.next = some n) : c.Live n ∧ s < n := by
  have hf := h.next hx hl
  rw [hn] at hf
  exact ⟨hf.1, hf.2.1⟩

theorem live_prev (h : c.Linked) (hx : c.arena.get? s = some x) (hl : x.removed = false)
    {p : Nat} (hp : x.prev = some p) : c.Live p ∧ p < s := by
  have hf := h.prev hx hl
  rw [hp] at hf
  exact ⟨hf.1, hf.2.1⟩

/-- Whatever a slot links back to came before it and is held. -/
theorem prev_mem (h : c.Linked) (hx : c.arena.get? s = some x) {p : Nat} (hp : x.prev = some p) :
    p < s ∧ p ∈ c.arena.serials := by
  cases hr : x.removed with
  | true => exact h.back hx hr hp
  | false => exact ⟨(h.live_prev hx hr hp).2, (h.live_prev hx hr hp).1.mem⟩

end Linked

namespace Balanced

/-- A slot that is live or counted is not about to be freed. -/
theorem settle {p : Nat} (h : c.Balanced pins (p :: idle))
    (hp : ∀ x, c.arena.get? p = some x → x.removed = true → 0 < x.refs) :
    c.Balanced pins idle where
  toLinked := h.toLinked
  counted := h.counted
  kept {s x} hx hr hs := by
    by_cases e : s = p
    · exact hp x (e ▸ hx) hr
    · exact h.kept hx hr fun hm => (List.mem_cons.mp hm).elim e hs
  pinned := h.pinned

theorem refs_pos (h : c.Balanced pins idle) (hx : c.arena.get? s = some x) (hs : 0 < pins s) :
    0 < x.refs := by
  rw [h.counted hx]
  omega

/-- Nothing leans on a slot without references. -/
theorem leaning_eq_zero (h : c.Balanced pins idle) (hx : c.arena.get? s = some x)
    (h0 : x.refs = 0) : pins s = 0 ∧ c.leaning s = 0 := by
  have hc := h.counted hx
  omega

/-- Without pins no removed slot is held: one that is has another one after it that leans on it. -/
theorem not_removed (h : c.Balanced pins []) (hp : ∀ s, pins s = 0) (n : Nat) {s : Nat} {x : Slot ν}
    (hn : c.arena.fresh ≤ s + n) (hx : c.arena.get? s = some x) : x.removed = false := by
  induction n generalizing s x with
  | zero => exact absurd hn (Nat.not_le.mpr (h.lt_fresh (Arena.mem_serials_of_get? hx)))
  | succ n ih =>
    refine Bool.eq_false_iff.mpr fun hr => ?_
    have hpos : 0 < c.leaning s := by
      have hkept := h.kept hx hr List.not_mem_nil
      rwa [h.counted hx, hp, Nat.zero_add] at hkept
    obtain ⟨u, y, hy, hleans⟩ := (Arena.count_pos_iff h.sound).mp hpos
    obtain ⟨hremoved, hprev⟩ := Slot.leansOn_iff.mp hleans
    have hlt : s < u := (h.back hy hremoved hprev).1
    have hlive : y.removed = false := ih (by omega) hy
    rw [hremoved] at hlive
    cases hlive

end Balanced

/-! ## chains that differ by removed slots and counts -/

structure Frees (c d : Chain ν) (gone : List Nat) : Prop where
  head : d.head = c.head
  tail : d.tail = c.tail
  len : d.len = c.len
  fresh : d.arena.fresh = c.arena.fresh
  sound : d.arena.Sound
  trims : c.arena.Trims d.arena
  nodup : gone.Nodup
  dead : ∀ s ∈ gone, ∃ x, c.arena.get? s = some x ∧ x.removed = true
  freed : ∀ s ∈ gone, d.arena.get? s = none
  rest : ∀ s, s ∉ gone → ∃ n, d.arena.get? s = (c.arena.get? s).map fun x => { x with refs := n }

namespace Frees

theorem refl (h : c.arena.Sound) : Frees c c [] where
  head := rfl
  tail := rfl
  len := rfl
  fresh := rfl
  sound := h
  trims := .refl _
  nodup := List.nodup_nil
  dead s hs := absurd hs List.not_mem_nil
  freed s hs := absurd hs List.not_mem_nil
  rest s _ := by
    cases hx : c.arena.get? s with
    | none => exact ⟨0, rfl⟩
    | some x => exact ⟨x.refs, rfl⟩

/-- A slot of the later chain was there before, and differs in its count only. -/
theorem before (h : Frees c d gone) {y : Slot ν} (hy : d.arena.get? s = some y) :
    s ∉ gone ∧ ∃ x, c.arena.get? s = some x ∧ y = { x with refs := y.refs } := by
  have hs : s ∉ gone := by
    intro hs
    rw [h.freed s hs] at hy
    cases hy
  obtain ⟨n, hn⟩ := h.rest s hs
  rw [hy] at hn
  obtain ⟨x, hx, rfl⟩ := Option.map_eq_some_iff.mp hn.symm
  exact ⟨hs, x, hx, rfl⟩

/-- A slot that is not freed is there afterwards, and differs in its count only. -/
theorem after (h : Frees c d gone) (hx : c.arena.get? s = some x) (hs : s ∉ gone) :
    ∃ n, d.arena.get? s = some { x with refs := n } := by
  obtain ⟨n, hn⟩ := h.rest s hs
  exact ⟨n, by rw [hn, hx]; rfl⟩

theorem live_iff (h : Frees c d gone) (s : Nat) : d.Live s ↔ c.Live s := by
  constructor
  · rintro ⟨y, hy, hl⟩
    obtain ⟨_, x, hx, e⟩ := h.before hy
    rw [e] at hl
    exact ⟨x, hx, hl⟩
  · rintro ⟨x, hx, hl⟩
    have hs : s ∉ gone := by
      intro hs
      obtain ⟨y, hy, hr⟩ := h.dead s hs
      exact not_live_of_removed hy hr ⟨x, hx, hl⟩
    obtain ⟨n, hn⟩ := h.after hx hs
    exact ⟨_, hn, hl⟩

theorem mem_serials_iff (h : Frees c d gone) (s : Nat) :
    s ∈ d.arena.serials ↔ s ∈ c.arena.serials ∧ s ∉ gone := by
  constructor
  · intro hs
    obtain ⟨y, hy⟩ := Arena.exists_get?_of_mem hs
    obtain ⟨hg, x, hx, _⟩ := h.before hy
    exact ⟨Arena.mem_serials_of_get? hx, hg⟩
  · rintro ⟨hs, hg⟩
    obtain ⟨x, hx⟩ := Arena.exists_get?_of_mem hs
    obtain ⟨n, hn⟩ := h.after hx hg
    exact Arena.mem_serials_of_get? hn

theorem mem_gone_iff (h : Frees c d gone) (s : Nat) :
    s ∈ gone ↔ s ∈ c.arena.serials ∧ s ∉ d.arena.serials := by
  rw [h.mem_serials_iff]
  constructor
  · intro hs
    obtain ⟨x, hx, _⟩ := h.dead s hs
    exact ⟨Arena.mem_serials_of_get? hx, fun hd => hd.2 hs⟩
  · rintro ⟨hc, hd⟩
    by_contra hg
    exact hd ⟨hc, hg⟩

theorem trans {gone' : List Nat} (h : Frees c d gone) (h' : Frees d e gone') :
    Frees c e (gone ++ gone') where
  head := h'.head.trans h.head
  tail := h'.tail.trans h.tail
  len := h'.len.trans h.len
  fresh := h'.fresh.trans h.fresh
  sound := h'.sound
  trims := h.trims.trans h'.trims
  nodup := by
    refine List.nodup_append.mpr ⟨h.nodup, h'.nodup, fun s hs t ht => ?_⟩
    rintro rfl
    exact ((h.mem_serials_iff s).mp ((h'.mem_gone_iff s).mp ht).1).2 hs
  dead s hs := by
    rcases List.mem_append.mp hs with hs | hs
    · exact h.dead s hs
    · obtain ⟨y, hy, hr⟩ := h'.dead s hs
      obtain ⟨_, x, hx, e⟩ := h.before hy
      rw [e] at hr
      exact ⟨x, hx, hr⟩
  freed s hs := by
    by_contra hn
    obtain ⟨z, hz⟩ := Option.ne_none_iff_exists'.mp hn
    obtain ⟨hg', y, hy, _⟩ := h'.before hz
    exact (List.mem_append.mp hs).elim (h.before hy).1 hg'
  rest s hs := by
    obtain ⟨n, hn⟩ := h.rest s fun hm => hs (List.mem_append_left _ hm)
    obtain ⟨m, hm⟩ := h'.rest s fun hm => hs (List.mem_append_right _ hm)
    refine ⟨m, ?_⟩
    rw [hm, hn, Option.map_map]
    rfl

/-- Links stay right when nothing that is left leans on a freed slot. -/
theorem linked (h : Frees c d gone) (hc : c.Linked)
    (hl : ∀ s x p, d.arena.get? s = some x → x.removed = true → x.prev = some p → p ∉ gone) :
    d.Linked where
  sound := h.sound
  head := h.head ▸ hc.head.congr h.live_iff
  tail := h.tail ▸ hc.tail.congr h.live_iff
  len := by rw [h.len, hc.len, count_live_congr hc.sound h.sound h.live_iff]
  next {s y} hy hr := by
    obtain ⟨_, x, hx, e⟩ := h.before hy
    rw [e] at hr ⊢
    exact (hc.next hx hr).congr h.live_iff
  prev {s y} hy hr := by
    obtain ⟨_, x, hx, e⟩ := h.before hy
    rw [e] at hr ⊢
    exact (hc.prev hx hr).congr h.live_iff
  back {s y p} hy hr hp := by
    have hg := hl s y p hy hr hp
    obtain ⟨_, x, hx, e⟩ := h.before hy
    rw [e] at hr hp
    obtain ⟨hlt, hm⟩ := hc.back hx hr hp
    exact ⟨hlt, (h.mem_serials_iff p).mpr ⟨hm, hg⟩⟩
  gap {s y q} hy hr hq hlt := by
    obtain ⟨_, x, hx, e⟩ := h.before hy
    rw [e] at hr ⊢
    exact hc.gap (x := x) hx hr ((h.live_iff q).mp hq) hlt

end Frees

end Chain

end LiveOrder
