import LiveOrder.Proofs.Store.Change

/-!
# Chains that are alike

Nothing follows the forward link of a removed entry, and no operation looks at the place of a slot.
Two chains that differ in nothing else are alike.

* `Slot.plain`     a slot without the forward link of a removed entry;
* `Chain.Alike`    the same ends, and the same slots but for that;
* `Chain.Agree`    the same live entries, and removed ones that lead back to the same, where they are
                   held by both chains;
* `Agree.alike`    chains in balance that agree under the same pins are alike: what else is held, and
                   all counts and links, follow;
* `Alike.back_eq`   alike chains agree after operations that leave the same entries live.
-/

namespace LiveOrder

namespace Slot

variable {ν : Type}

def plain (x : Slot ν) : Slot ν := if x.removed then { x with next := none } else x

theorem pair_plain (x : Slot ν) : x.plain.pair = x.pair := by
  unfold plain
  split <;> rfl

theorem plain_eq_iff {x y : Slot ν} : x.plain = y.plain ↔
    (x.pair = y.pair ∧ x.hash = y.hash ∧ x.removed = y.removed) ∧
      x.prev = y.prev ∧ x.refs = y.refs ∧ (x.removed = false → x.next = y.next) := by
  obtain ⟨key, value, hash, prev, next, removed, refs⟩ := x
  obtain ⟨key', value', hash', prev', next', removed', refs'⟩ := y
  cases removed <;> cases removed' <;> simp [plain, pair] <;> tauto

end Slot

theorem Arena.Sound.serials_ext {α β : Type} {a : Arena α} {b : Arena β} (ha : a.Sound)
    (hb : b.Sound) (h : ∀ s, s ∈ a.serials ↔ s ∈ b.serials) : a.serials = b.serials := by
  have hperm := (List.perm_ext_iff_of_nodup ha.nodup hb.nodup).mpr h
  exact hperm.eq_of_pairwise (fun _ _ _ _ hab hba => absurd hab (Nat.lt_asymm hba)) ha.increasing
    hb.increasing

namespace Chain

variable {ν : Type} {c d c' d' : Chain ν} {pins : Nat → Nat} {gone gone' : List Nat} {s : Nat}
  {x y : Slot ν}

/-! ## chains that differ in nothing that matters -/

structure Alike (c d : Chain ν) : Prop where
  head : c.head = d.head
  tail : c.tail = d.tail
  len : c.len = d.len
  fresh : c.arena.fresh = d.arena.fresh
  slots : ∀ s, (c.arena.get? s).map Slot.plain = (d.arena.get? s).map Slot.plain

namespace Alike

theorem mem_iff (h : c.Alike d) (s : Nat) : s ∈ c.arena.serials ↔ s ∈ d.arena.serials := by
  have hslot := congrArg Option.isSome (h.slots s)
  rw [Option.isSome_map, Option.isSome_map] at hslot
  rw [← Arena.isSome_get?_iff, ← Arena.isSome_get?_iff, hslot]

theorem plain_eq (h : c.Alike d) (hx : c.arena.get? s = some x) (hy : d.arena.get? s = some y) :
    x.plain = y.plain := by
  have hslot := h.slots s
  rw [hx, hy] at hslot
  exact Option.some.inj hslot

theorem pairsOf_eq (h : c.Alike d) (l : List Nat) : c.pairsOf l = d.pairsOf l := by
  refine List.filterMap_congr fun s _ => ?_
  have hslot := congrArg (Option.map Slot.pair) (h.slots s)
  simpa only [Option.map_map, Function.comp_def, Slot.pair_plain] using hslot

theorem row?_eq (h : c.Alike d) (s : Nat) : c.row? s = d.row? s := by
  have hplain : ∀ e : Chain ν, e.row? s =
      (((e.arena.get? s).map Slot.plain).filter (!·.removed)).map (Slot.row s) := by
    intro e
    rw [row?, live?]
    cases e.arena.get? s with
    | none => rfl
    | some x => cases hr : x.removed <;> simp [Slot.plain, Option.filter, hr]
  rw [hplain, hplain, h.slots]

end Alike

/-! ## what determines a chain -/

structure Agree (c d : Chain ν) : Prop where
  live : ∀ s, c.Live s ↔ d.Live s
  same : ∀ {s x y}, c.arena.get? s = some x → d.arena.get? s = some y →
    x.pair = y.pair ∧ x.hash = y.hash
  back : ∀ {s x y}, c.arena.get? s = some x → d.arena.get? s = some y → x.removed = true →
    x.prev = y.prev

namespace Agree

theorem removed_eq (h : c.Agree d) (hx : c.arena.get? s = some x) (hy : d.arena.get? s = some y) :
    x.removed = y.removed := by
  have hlive := h.live s
  rw [live_iff_of_get? hx, live_iff_of_get? hy] at hlive
  cases hxr : x.removed with
  | false => exact (hlive.mp hxr).symm
  | true =>
    cases hyr : y.removed with
    | true => rfl
    | false =>
      rw [hlive.mpr hyr] at hxr
      cases hxr

theorem symm (h : c.Agree d) : d.Agree c where
  live s := (h.live s).symm
  same hx hy := ⟨(h.same hy hx).1.symm, (h.same hy hx).2.symm⟩
  back hx hy hr := (h.back hy hx ((h.removed_eq hy hx).trans hr)).symm

section
variable (h : c.Agree d) (hc : c.Balanced pins []) (hd : d.Balanced pins [])
include h hc hd

/-- What keeps a slot in one chain keeps it in the other one: it is live, it is pinned, or a removed
entry after it leans on it, which is held by both. -/
theorem mem (hs : s ∈ c.arena.serials) : s ∈ d.arena.serials := by
  induction hn : c.arena.fresh - s using Nat.strongRecOn generalizing s with
  | ind n ih =>
    obtain ⟨x, hx⟩ := Arena.exists_get?_of_mem hs
    cases hr : x.removed with
    | false => exact ((h.live s).mp ⟨x, hx, hr⟩).mem
    | true =>
      have hrefs := hc.kept hx hr List.not_mem_nil
      rw [hc.counted hx] at hrefs
      by_cases hpin : 0 < pins s
      · exact hd.pinned hpin
      · have hlean : 0 < c.leaning s := by omega
        obtain ⟨u, y, hy, hleans⟩ := (Arena.count_pos_iff hc.sound).mp hlean
        obtain ⟨hyr, hyp⟩ := Slot.leansOn_iff.mp hleans
        have hlt := (hc.back hy hyr hyp).1
        have hmem := Arena.mem_serials_of_get? hy
        have hfresh := hc.lt_fresh hmem
        obtain ⟨z, hz⟩ := Arena.exists_get?_of_mem (ih (c.arena.fresh - u) (by omega) hmem rfl)
        have hzr : z.removed = true := (h.removed_eq hy hz).symm.trans hyr
        have hzp : z.prev = some s := (h.back hy hz hyr).symm.trans hyp
        exact (hd.back hz hzr hzp).2

theorem leans {u : Nat} (hl : ∃ x, c.arena.get? u = some x ∧ x.leansOn s = true) :
    ∃ y, d.arena.get? u = some y ∧ y.leansOn s = true := by
  obtain ⟨x, hx, hleans⟩ := hl
  obtain ⟨hr, hp⟩ := Slot.leansOn_iff.mp hleans
  obtain ⟨y, hy⟩ := Arena.exists_get?_of_mem (h.mem hc hd (Arena.mem_serials_of_get? hx))
  exact ⟨y, hy, Slot.leansOn_iff.mpr
    ⟨(h.removed_eq hx hy).symm.trans hr, (h.back hx hy hr).symm.trans hp⟩⟩

theorem plain_eq (hx : c.arena.get? s = some x) (hy : d.arena.get? s = some y) :
    x.plain = y.plain := by
  have hr := h.removed_eq hx hy
  have hlean : c.leaning s = d.leaning s :=
    Arena.count_congr hc.sound hd.sound fun _ => ⟨h.leans hc hd, h.symm.leans hd hc⟩
  have hprev : x.prev = y.prev := by
    cases hxr : x.removed with
    | true => exact h.back hx hy hxr
    | false =>
      have hlast := (hd.prev hy (hr.symm.trans hxr)).congr h.live
      exact (hc.prev hx hxr).unique hlast
  refine Slot.plain_eq_iff.mpr ⟨⟨(h.same hx hy).1, (h.same hx hy).2, hr⟩, hprev, ?_, fun hxr => ?_⟩
  · rw [hc.counted hx, hd.counted hy, hlean]
  · have hfirst := (hd.next hy (hr.symm.trans hxr)).congr h.live
    exact (hc.next hx hxr).unique hfirst

/-- **What determines a chain in balance.** -/
theorem alike (hf : c.arena.fresh = d.arena.fresh) : c.Alike d where
  head := hc.head.unique (hd.head.congr h.live)
  tail := hc.tail.unique (hd.tail.congr h.live)
  len := by rw [hc.len, hd.len, count_live_congr hd.sound hc.sound h.live]
  fresh := hf
  slots s := by
    cases hx : c.arena.get? s with
    | none =>
      have hmem := mt (h.symm.mem hd hc) (Arena.get?_eq_none_iff.mp hx)
      rw [Arena.get?_eq_none_iff.mpr hmem]
    | some x =>
      obtain ⟨y, hy⟩ := Arena.exists_get?_of_mem (h.mem hc hd (Arena.mem_serials_of_get? hx))
      rw [hy]
      exact congrArg some (h.plain_eq hc hd hx hy)

end

end Agree

/-! ## alike chains under operations -/

theorem Alike.back_eq (h : c.Alike d) (hc : c.Linked) (hd : d.Linked) (hcc : Change c gone c')
    (hdd : Change d gone' d') (hlive : ∀ s, c'.Live s ↔ d'.Live s)
    (hx : c'.arena.get? s = some x) (hy : d'.arena.get? s = some y) (hxr : x.removed = true)
    (hyr : y.removed = true) : x.pair = y.pair ∧ x.prev = y.prev := by
  obtain ⟨z, hz, hzx, hzcase⟩ := hcc.removed_before hc hx hxr
  obtain ⟨w, hw, hwy, hwcase⟩ := hdd.removed_before hd hy hyr
  obtain ⟨⟨hpair, _, hremoved⟩, hprev, _⟩ := Slot.plain_eq_iff.mp (h.plain_eq hz hw)
  refine ⟨hzx.symm.trans (hpair.trans hwy), ?_⟩
  rcases hzcase with ⟨hzr, hxp⟩ | ⟨hzl, hxlast⟩
  · rcases hwcase with ⟨_, hyp⟩ | ⟨hwl, _⟩
    · rw [hxp, hyp, hprev]
    · rw [hzr, hwl] at hremoved
      cases hremoved
  · rcases hwcase with ⟨hwr, _⟩ | ⟨_, hylast⟩
    · rw [hzl, hwr] at hremoved
      cases hremoved
    · exact hxlast.unique (hylast.congr hlive)

end Chain

end LiveOrder
