import LiveOrder.Proofs.Store.WayBack

/-!
# Steps of cursors

* `successor_spec`   the entry that comes next is the first live one after the slot;
* `Chain.referring`, `Balanced.referred`   a pin put on a slot;
* `step_eq`, `step_spec`   a cursor comes to the first live entry after its place, and its pin with it;
* `pinned_spec`      an entry with a pin can be read.

A cursor may be parked on a removed entry.  No live entry lies between a removed one and what it
leans on (`Linked.gap`), so nothing is passed over on the way back, and nothing is seen twice.
-/

namespace LiveOrder

namespace Slot

variable {ν : Type}

def referred (x : Slot ν) : Slot ν := { x with refs := x.refs + 1 }

end Slot

namespace Chain

variable {ν : Type} {c : Chain ν} {pins : Nat → Nat} {idle : List Nat} {s : Nat} {at? : Option Nat}

/-! ## the entry that comes next -/

theorem successor_spec (h : c.Linked) (hat : ∀ s, at? = some s → s ∈ c.arena.serials) :
    ∃ next, c.successor at? = .ok next ∧ FirstAfter c.Live at? next := by
  unfold successor
  cases at? with
  | none =>
    have hanchor : c.anchor c.arena.size none = .ok none := by cases c.arena.size <;> rfl
    rw [hanchor]
    exact ⟨c.head, rfl, h.head⟩
  | some s =>
    obtain ⟨path, r, hback⟩ := h.leadsBack (hat s rfl)
    have hlast := hback.lastBefore h
    rw [hback.anchor_eq (hback.length_le_size h)]
    cases r with
    | none =>
      refine ⟨c.head, rfl, h.head.move fun q hq => ⟨fun _ => trivial, fun _ => ?_⟩⟩
      have hlt : ¬q < s + 1 := hlast q hq
      show s < q
      omega
    | some p =>
      obtain ⟨⟨x, hx, hl⟩, hps, hmax⟩ := hlast
      have hle : p < s + 1 := hps
      refine ⟨x.next, ?_, (h.next hx hl).move fun q hq => ⟨fun hsq => ?_, fun hpq => ?_⟩⟩
      · simp only [bind, Except.bind]
        rw [slot_of hx]
        rfl
      · have hlt : s < q := hsq
        show p < q
        omega
      · have hlt : p < q := hpq
        show s < q
        by_contra hns
        have hqp := hmax q hq (show q < s + 1 by omega)
        omega

/-! ## the step -/

theorem pinOn_comm (a b : Option Nat) (pins : Nat → Nat) :
    pinOn a (pinOn b pins) = pinOn b (pinOn a pins) := by
  funext u
  simp only [pinOn]
  omega

/-- The chain with one reference more to a slot, or to none. -/
def referring (c : Chain ν) (s? : Option Nat) : Chain ν :=
  { c with arena := c.arena.modifyAt s? Slot.referred }

theorem frees_referring (h : c.arena.Sound) (s? : Option Nat) : Frees c (c.referring s?) [] := by
  cases s? with
  | none => exact Frees.refl h
  | some s => exact frees_modify h fun y => ⟨y.refs + 1, rfl⟩

theorem Balanced.referred (h : c.Balanced pins idle) {s? : Option Nat}
    (hs : ∀ s, s? = some s → s ∈ c.arena.serials) :
    (c.referring s?).Balanced (pinOn s? pins) idle := by
  have hf := frees_referring h.sound s?
  have hlean : ∀ t, (c.referring s?).leaning t = c.leaning t := fun t =>
    Arena.count_modifyAt_of_eq h.sound fun _ _ _ _ => rfl
  have hget := fun t => Arena.get?_modifyAt c.arena s? t Slot.referred
  refine { hf.linked h.toLinked fun _ _ _ _ _ _ => List.not_mem_nil with
    counted := ?_, kept := ?_, pinned := ?_ }
  · intro t y hy
    rw [hlean]
    have hy' := (hget t).symm.trans hy
    split at hy'
    · rename_i ht
      obtain ⟨z, hz, rfl⟩ := Option.map_eq_some_iff.mp hy'
      have hc := h.counted hz
      rw [ht, pinOn_self]
      show z.refs + 1 = _
      omega
    · rename_i ht
      rw [h.counted hy', pinOn, if_neg ht, Nat.add_zero]
  · intro t y hy hr ht
    have hy' := (hget t).symm.trans hy
    split at hy'
    · obtain ⟨z, _, rfl⟩ := Option.map_eq_some_iff.mp hy'
      exact Nat.succ_pos z.refs
    · exact h.kept hy' hr ht
  · intro t ht
    refine (hf.mem_serials_iff t).mpr ⟨?_, List.not_mem_nil⟩
    by_cases hst : s? = some t
    · exact hs t hst
    · rw [pinOn, if_neg hst] at ht
      exact h.pinned ht

theorem pin_eq {s? : Option Nat} (hs : ∀ s, s? = some s → s ∈ c.arena.serials) :
    c.pin s? = .ok (c.referring s?) := by
  cases s? with
  | none => rfl
  | some s => exact update_of (hs s rfl) _

theorem step_eq {next : Option Nat} (hn : c.successor (some s) = .ok next)
    (hm : ∀ n, next = some n → n ∈ c.arena.serials) :
    c.step (some s) = ((c.referring next).release s).map fun r => (next, r.1, r.2) := by
  rw [step, hn]
  simp only [bind, Except.bind]
  rw [pin_eq hm]
  dsimp only
  cases (c.referring next).release s <;> rfl

theorem step_spec (h : c.Balanced (pinOn at? pins) []) :
    ∃ next d gone, c.step at? = .ok (next, d, .ofCascade (c.pairsOf gone)) ∧
      FirstAfter c.Live at? next ∧ Cascade c d gone ∧ d.Balanced (pinOn next pins) [] := by
  have hat : ∀ s, at? = some s → s ∈ c.arena.serials := by
    rintro s rfl
    apply h.pinned
    rw [pinOn_self]
    omega
  obtain ⟨next, hnext, hfirst⟩ := successor_spec h.toLinked hat
  have hmem : ∀ n, next = some n → n ∈ c.arena.serials := by
    rintro n rfl
    exact hfirst.1.mem
  have hb := h.referred hmem
  have hf := frees_referring h.sound next
  cases at? with
  | none =>
    rw [pinOn_none] at hb
    refine ⟨next, c.referring next, [], ?_, hfirst, hf.cascade, hb⟩
    rw [step, hnext]
    simp only [bind, Except.bind]
    rw [pin_eq hmem]
    rfl
  | some s =>
    rw [pinOn_comm] at hb
    obtain ⟨d, gone, he, hf', hd⟩ := release_spec hb
    refine ⟨next, d, gone, ?_, hfirst, hf'.after_counts hf, hd⟩
    rw [step_eq hnext hmem, he, hf.pairsOf_eq fun _ _ => List.not_mem_nil]
    rfl

/-! ## reading through a pin -/

theorem pinned_spec (h : c.Balanced pins idle) (hs : 0 < pins s) :
    ∃ x, c.arena.get? s = some x ∧ c.pinned s = .ok x := by
  obtain ⟨x, hx⟩ := Arena.exists_get?_of_mem (h.pinned hs)
  have hpos := h.refs_pos hx hs
  have h0 : x.refs ≠ 0 := by omega
  refine ⟨x, hx, ?_⟩
  rw [Chain.pinned, slot_of hx]
  simp only [bind, Except.bind, h0, if_false]
  rfl

end Chain

end LiveOrder
