import LiveOrder.Proofs.Store.Freeing

/-!
# The way back

From a slot that is held the backward links lead over removed slots to a live one, or to nothing.

* `Chain.LeadsBack`   the removed slots that are met, and where the way ends;
* `Linked.leadsBack`   every slot that is held leads back somewhere;
* `LeadsBack.descending`, `removed`   what is met was filled earlier each time, and is held and removed;
* `LeadsBack.lastBefore`   the end is the last live entry at or before the slot;
* `LeadsBack.anchor_eq`   `anchor` looks at these slots and at no other;
* `LeadsBack.length_le`   so it looks at no more removed slots than there are.
-/

namespace LiveOrder

namespace Chain

variable {ν : Type} {c : Chain ν} {s : Nat} {x : Slot ν} {at? r : Option Nat} {path : List Nat}

/-- The slots that are not live are the removed ones. -/
theorem Linked.tombstones_eq (h : c.Linked) : c.tombstones = .ok (c.arena.count (·.removed)) := by
  have hsum : c.arena.size = c.arena.count (·.removed) + c.arena.count (!·.removed) := by
    rw [Arena.size, List.length_eq_countP_add_countP fun e => e.item.removed]
    simp [Arena.count]
  have hlen := h.len
  rw [tombstones, if_neg (by omega), hsum, hlen, Nat.add_sub_cancel]

/-- From a position the links lead back over some removed slots, and end at a live one or at
nothing. -/
inductive LeadsBack (c : Chain ν) : Option Nat → List Nat → Option Nat → Prop where
  | beginning : LeadsBack c none [] none
  | live {s : Nat} {x : Slot ν} (hx : c.arena.get? s = some x) (hl : x.removed = false) :
      LeadsBack c (some s) [] (some s)
  | removed {s : Nat} {x : Slot ν} {path : List Nat} {r : Option Nat}
      (hx : c.arena.get? s = some x) (hr : x.removed = true) (h : LeadsBack c x.prev path r) :
      LeadsBack c (some s) (s :: path) r

/-- Every link leads further down, so there is an end. -/
theorem Linked.leadsBack (h : c.Linked) (hs : s ∈ c.arena.serials) :
    ∃ path r, c.LeadsBack (some s) path r := by
  induction s using Nat.strongRecOn with
  | ind s ih =>
    obtain ⟨x, hx⟩ := Arena.exists_get?_of_mem hs
    cases hr : x.removed with
    | false => exact ⟨[], some s, .live hx hr⟩
    | true =>
      cases hp : x.prev with
      | none =>
        refine ⟨[s], none, .removed hx hr ?_⟩
        rw [hp]
        exact .beginning
      | some p =>
        obtain ⟨hlt, hm⟩ := h.back hx hr hp
        obtain ⟨path, r, hback⟩ := ih p hlt hm
        refine ⟨s :: path, r, .removed hx hr ?_⟩
        rw [hp]
        exact hback

namespace LeadsBack

theorem removed_of_mem (hb : c.LeadsBack at? path r) :
    ∀ u ∈ path, ∃ y, c.arena.get? u = some y ∧ y.removed = true := by
  induction hb with
  | beginning => exact nofun
  | live _ _ => exact nofun
  | removed hx hr _ ih => exact List.forall_mem_cons.mpr ⟨⟨_, hx, hr⟩, ih⟩

theorem live_of_end (hb : c.LeadsBack at? path r) : ∀ a, r = some a → c.Live a := by
  induction hb with
  | beginning => exact nofun
  | live hx hl =>
    intro a ha
    exact Option.some.inj ha ▸ ⟨_, hx, hl⟩
  | removed _ _ _ ih => exact ih

/-- One look at each slot. -/
theorem anchor_eq (hb : c.LeadsBack at? path r) {n : Nat} (hn : (path ++ r.toList).length ≤ n) :
    c.anchor n at? = .ok r := by
  induction hb generalizing n with
  | beginning => cases n <;> rfl
  | live hx hl =>
    obtain ⟨n, rfl⟩ : ∃ m, n = m + 1 := Nat.exists_eq_add_one.mpr hn
    rw [anchor, slot_of hx]
    simp only [bind, Except.bind, hl, Bool.false_eq_true, if_false]
    rfl
  | removed hx hr _ ih =>
    rw [List.cons_append, List.length_cons] at hn
    obtain ⟨n, rfl⟩ : ∃ m, n = m + 1 := Nat.exists_eq_add_one.mpr (by omega)
    rw [anchor, slot_of hx]
    simp only [bind, Except.bind, hr, if_true]
    exact ih (by omega)

section
variable (h : c.Linked)
include h

theorem le_start (hb : c.LeadsBack at? path r) :
    ∀ s, at? = some s → ∀ u ∈ path ++ r.toList, u ≤ s := by
  induction hb with
  | beginning => exact nofun
  | live _ _ =>
    intro s hs u hu
    exact Nat.le_of_eq ((List.mem_singleton.mp hu).trans (Option.some.inj hs))
  | @removed s x path r hx hr hb ih =>
    intro s' hs
    obtain rfl : s = s' := Option.some.inj hs
    refine List.forall_mem_cons.mpr ⟨Nat.le_refl s, fun u hu => ?_⟩
    cases hp : x.prev with
    | none =>
      rw [hp] at hb
      cases hb
      cases hu
    | some p =>
      have hle := ih p hp u hu
      have hlt := (h.back hx hr hp).1
      omega

/-- Whatever is met, the end included, was filled before what was met earlier. -/
theorem descending (hb : c.LeadsBack at? path r) : (path ++ r.toList).Pairwise (· > ·) := by
  induction hb with
  | beginning => exact .nil
  | live _ _ => exact List.pairwise_singleton _ _
  | @removed s x path r hx hr hb ih =>
    refine List.pairwise_cons.mpr ⟨fun u hu => ?_, ih⟩
    cases hp : x.prev with
    | none =>
      rw [hp] at hb
      cases hb
      cases hu
    | some p =>
      have hle := hb.le_start h p hp u hu
      have hlt := (h.back hx hr hp).1
      exact Nat.lt_of_le_of_lt hle hlt

/-- No live entry is passed over: none lies between a removed one and what it leads back to. -/
theorem lastBefore (hb : c.LeadsBack (some s) path r) : LastBefore c.Live (some (s + 1)) r := by
  generalize hat : some s = at? at hb
  induction hb generalizing s with
  | beginning => cases hat
  | @live s' x hx hl =>
    obtain rfl : s = s' := Option.some.inj hat
    exact ⟨⟨x, hx, hl⟩, Nat.lt_succ_self s, fun q _ hq => Nat.lt_succ_iff.mp hq⟩
  | @removed s' x path r hx hr hb ih =>
    obtain rfl : s = s' := Option.some.inj hat
    -- the slot itself is not live, so what is live up to it lies before it
    have hbelow : ∀ q, c.Live q → q < s + 1 → ∃ p, x.prev = some p ∧ q ≤ p := by
      intro q hq hlt
      have hne : q ≠ s := by
        rintro rfl
        exact not_live_of_removed hx hr hq
      exact h.gap hx hr hq (by omega)
    cases hp : x.prev with
    | none =>
      rw [hp] at hb
      cases hb
      intro q hq hlt
      obtain ⟨p, hp', _⟩ := hbelow q hq hlt
      rw [hp] at hp'
      cases hp'
    | some p =>
      have hps := (h.back hx hr hp).1
      have hgap : ∀ q, c.Live q → q < s + 1 → q < p + 1 := by
        intro q hq hlt
        obtain ⟨p', hp', hle⟩ := hbelow q hq hlt
        rw [hp, Option.some.injEq] at hp'
        omega
      have hlast := ih hp.symm
      cases r with
      | none => exact fun q hq hlt => hlast q hq (hgap q hq hlt)
      | some a =>
        obtain ⟨ha, hap, hmax⟩ := hlast
        have hlt : a < p + 1 := hap
        refine ⟨ha, ?_, fun q hq hqs => hmax q hq (hgap q hq hqs)⟩
        show a < s + 1
        omega

theorem length_le (hb : c.LeadsBack at? path r) : path.length ≤ c.arena.count (·.removed) := by
  have hdesc := (List.pairwise_append.mp (hb.descending h)).1
  exact h.sound.length_le_count (hdesc.imp fun hlt => Nat.ne_of_gt hlt) hb.removed_of_mem

theorem length_le_size (hb : c.LeadsBack at? path r) :
    (path ++ r.toList).length ≤ c.arena.size := by
  refine Nat.le_trans (h.sound.length_le_count (p := fun _ => true) ?_ fun u hu => ?_)
    (Arena.count_le_size _ _)
  · exact (hb.descending h).imp fun hlt => Nat.ne_of_gt hlt
  · rcases List.mem_append.mp hu with hu | hu
    · obtain ⟨y, hy, _⟩ := hb.removed_of_mem u hu
      exact ⟨y, hy, rfl⟩
    · obtain ⟨y, hy, _⟩ := hb.live_of_end u (Option.mem_toList.mp hu)
      exact ⟨y, hy, rfl⟩

end

end LeadsBack

end Chain

end LiveOrder
