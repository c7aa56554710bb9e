import LiveOrder.Proofs.Store.Change
import Mathlib.Algebra.Order.Monoid.Unbundled.WithTop

/-!
# Dates of removal

When entries were removed decides where backward links lead: the entry that a removed one leans on
was the last one before it that was still live then.

* `Overlooks`     what a backward link says about dates;
* `Chain.Dated`   every backward link of a removed entry says so, and what is live has no date;
* `Change.dated`   what an operation removes gets a date later than all others, and the links stay
                  right;
* `Dated.held_iff`   so the dates and the pins alone tell which removed entries are held.
-/

namespace LiveOrder

/-- Entry `s` leads back to `prev`: it was removed after everything between the two, and before the
entry it leads back to. -/
def Overlooks (τ : Nat → WithTop Nat) (s : Nat) : Option Nat → Prop
  | some p => τ s < τ p ∧ ∀ u, p < u → u < s → τ u ≤ τ s
  | none => ∀ u, u < s → τ u ≤ τ s

namespace Chain

variable {ν : Type} {c d : Chain ν} {pins : Nat → Nat} {gone : List Nat} {clock : Nat}
  {τ τ' : Nat → WithTop Nat} {s e : Nat} {x : Slot ν}

/-- Dates of removal, all of them before now; what is live or yet to come has none. -/
structure Dated (c : Chain ν) (clock : Nat) (τ : Nat → WithTop Nat) : Prop where
  undated : ∀ s, τ s = ⊤ ↔ c.Live s ∨ c.arena.fresh ≤ s
  past : ∀ s, τ s ≠ ⊤ → τ s < clock
  links : ∀ {s x}, c.arena.get? s = some x → x.removed = true → Overlooks τ s x.prev

/-! ## dates along a change -/

/-- The dates after a change: now for what it removed, as before for the rest. -/
structure Redated (c d : Chain ν) (clock : Nat) (τ τ' : Nat → WithTop Nat) : Prop where
  now : ∀ s, c.Live s → ¬d.Live s → τ' s = clock
  same : ∀ s, ¬c.Live s ∨ d.Live s → τ' s = τ s

theorem Redated.cases (h : Redated c d clock τ τ') (s : Nat) :
    (c.Live s ∧ ¬d.Live s ∧ τ' s = clock) ∨ ((c.Live s → d.Live s) ∧ τ' s = τ s) := by
  by_cases hc : c.Live s
  · by_cases hd : d.Live s
    · exact .inr ⟨fun _ => hd, h.same s (.inr hd)⟩
    · exact .inl ⟨hc, hd, h.now s hc hd⟩
  · exact .inr ⟨fun hl => absurd hl hc, h.same s (.inl hc)⟩

/-- Whatever came before an entry that is not live any more was dated before now. -/
theorem Dated.lt_clock (ht : c.Dated clock τ) (hs : s < c.arena.fresh) (hl : ¬c.Live s) :
    τ s < clock := by
  refine ht.past s fun htop => ?_
  rcases (ht.undated s).mp htop with hl' | hf
  · exact hl hl'
  · omega

section
variable (hc : c.Linked) (ht : c.Dated clock τ)
include hc ht

theorem Dated.ne_top_of_removed (hx : c.arena.get? s = some x) (hr : x.removed = true) :
    τ s ≠ ⊤ := by
  intro htop
  rcases (ht.undated s).mp htop with hl | hf
  · exact not_live_of_removed hx hr hl
  · have hlt := hc.lt_fresh (Arena.mem_serials_of_get? hx)
    omega

/-- The links of what was removed before stay right. -/
theorem Dated.keep (hτ : Redated c d clock τ τ') (hx : c.arena.get? s = some x)
    (hr : x.removed = true) : Overlooks τ' s x.prev := by
  have hs : τ' s = τ s := hτ.same s (.inl (not_live_of_removed hx hr))
  have hne := ht.ne_top_of_removed hc hx hr
  -- what was dated no later than `s` keeps its date
  have hmid : ∀ u, τ u ≤ τ s → τ' u ≤ τ' s := by
    intro u hu
    have hnl : ¬c.Live u := fun hl => by
      rw [(ht.undated u).mpr (.inl hl), top_le_iff] at hu
      exact hne hu
    rw [hτ.same u (.inl hnl), hs]
    exact hu
  have hlinks := ht.links hx hr
  cases hp : x.prev with
  | none =>
    rw [hp] at hlinks
    exact fun u hu => hmid u (hlinks u hu)
  | some p =>
    rw [hp] at hlinks
    refine ⟨?_, fun u hpu hus => hmid u (hlinks.2 u hpu hus)⟩
    rw [hs]
    rcases hτ.cases p with ⟨_, _, hnow⟩ | ⟨_, hsame⟩
    · rw [hnow]
      exact ht.past s hne
    · rw [hsame]
      exact hlinks.1

/-- An entry taken out leads back to the last one before it that is live still. -/
theorem Dated.retire (hτ : Redated c d clock τ τ') (hd : c.Ages d)
    (hx : c.arena.get? s = some x) (hl : x.removed = false) (hns : ¬d.Live s) {p? : Option Nat}
    (hp : LastBefore d.Live (some s) p?) : Overlooks τ' s p? := by
  have hs : τ' s = clock := hτ.now s ⟨x, hx, hl⟩ hns
  have hlt := hc.lt_fresh (Arena.mem_serials_of_get? hx)
  have hmid : ∀ u, u < s → ¬d.Live u → τ' u ≤ τ' s := by
    intro u hu hnd
    rw [hs]
    by_cases hcu : c.Live u
    · rw [hτ.now u hcu hnd]
    · rw [hτ.same u (.inl hcu)]
      exact le_of_lt (ht.lt_clock (by omega) hcu)
  cases p? with
  | none => exact fun u hu => hmid u hu fun hlu => hp u hlu hu
  | some p =>
    obtain ⟨hpl, hps, hmax⟩ := hp
    have hlt' : p < s := hps
    have hcp : c.Live p := (hd.live hpl).resolve_right (by omega)
    refine ⟨?_, fun u hpu hus => hmid u hus fun hlu => ?_⟩
    · rw [hs, hτ.same p (.inr hpl), (ht.undated p).mpr (.inl hcp)]
      exact WithTop.coe_lt_top clock
    · have hle := hmax u hlu hus
      omega

theorem Change.dated (hτ : Redated c d clock τ τ') (h : Change c gone d) :
    d.Dated (clock + 1) τ' where
  undated s := by
    have hages := h.ages hc
    rcases hτ.cases s with ⟨hcs, hds, hnow⟩ | ⟨hstays, hsame⟩
    · rw [hnow]
      have hlt := hc.lt_fresh hcs.mem
      have hle := hages.fresh
      constructor
      · exact fun htop => absurd htop WithTop.coe_ne_top
      · rintro (hd | hf)
        · exact absurd hd hds
        · omega
    · rw [hsame, ht.undated s]
      constructor
      · rintro (hcs | hf)
        · exact .inl (hstays hcs)
        · by_cases hsd : s < d.arena.fresh
          · exact .inl (h.live_of_new hc hf hsd)
          · exact .inr (Nat.not_lt.mp hsd)
      · rintro (hds | hf)
        · exact hages.live hds
        · exact .inr (Nat.le_trans hages.fresh hf)
  past s hs := by
    have hstep : ((clock : Nat) : WithTop Nat) < ((clock + 1 : Nat) : WithTop Nat) :=
      WithTop.coe_lt_coe.mpr (Nat.lt_succ_self clock)
    rcases hτ.cases s with ⟨_, _, hnow⟩ | ⟨_, hsame⟩
    · rw [hnow]
      exact hstep
    · rw [hsame] at hs ⊢
      exact (ht.past s hs).trans hstep
  links hy hr := by
    obtain ⟨x, hx, _, ⟨hxr, hp⟩ | ⟨hxl, hlast⟩⟩ := h.removed_before hc hy hr
    · rw [hp]
      exact ht.keep hc hτ hx hxr
    · exact ht.retire hc hτ (h.ages hc) hx hxl (not_live_of_removed hy hr) hlast

end

/-! ## what is held -/

section
variable (hb : c.Balanced pins []) (ht : c.Dated clock τ)
include hb ht

/-- From a held entry the links lead back to every entry that was removed later than all from there
on. -/
theorem Dated.held_of_later (u : Nat) (hu : u ∈ c.arena.serials) (heu : e < u)
    (hlater : ∀ x, e < x → x ≤ u → τ x < τ e) : e ∈ c.arena.serials := by
  induction u using Nat.strongRecOn with
  | ind u ih =>
    obtain ⟨y, hy⟩ := Arena.exists_get?_of_mem hu
    have hlt := hlater u heu (Nat.le_refl u)
    have hr : y.removed = true := by
      refine removed_of_not_live hy fun hl => ?_
      rw [(ht.undated u).mpr (.inl hl)] at hlt
      exact not_top_lt hlt
    have hlinks := ht.links hy hr
    cases hp : y.prev with
    | none =>
      rw [hp] at hlinks
      exact absurd hlt (not_lt_of_ge (hlinks e heu))
    | some p =>
      rw [hp] at hlinks
      obtain ⟨hpu, hpm⟩ := hb.back hy hr hp
      rcases Nat.lt_trichotomy p e with hpe | rfl | hep
      · exact absurd hlt (not_lt_of_ge (hlinks.2 e hpe heu))
      · exact hpm
      · exact ih p hpu hpm hep fun x hex hxp => hlater x hex (by omega)

/-- What keeps a removed entry is a pin, on itself or at the end of links that lead back to it. -/
theorem Dated.later_of_held (he : e ∈ c.arena.serials) (hne : τ e ≠ ⊤) :
    0 < pins e ∨ ∃ u, e < u ∧ 0 < pins u ∧ τ u ≠ ⊤ ∧ ∀ x, e < x → x ≤ u → τ x < τ e := by
  -- what leans on an entry came after it, so the way to the pin goes up
  induction hn : c.arena.fresh - e using Nat.strongRecOn generalizing e with
  | ind n ih =>
    obtain ⟨x, hx⟩ := Arena.exists_get?_of_mem he
    have hr : x.removed = true :=
      removed_of_not_live hx fun hl => hne ((ht.undated e).mpr (.inl hl))
    have hrefs := hb.kept hx hr List.not_mem_nil
    have hcount := hb.counted hx
    by_cases hpin : 0 < pins e
    · exact .inl hpin
    · have hlean : 0 < c.leaning e := by omega
      obtain ⟨v, y, hy, hl⟩ := (Arena.count_pos_iff hb.sound).mp hlean
      obtain ⟨hyr, hyp⟩ := Slot.leansOn_iff.mp hl
      have hlinks := ht.links hy hyr
      rw [hyp] at hlinks
      obtain ⟨hve, hmid⟩ := hlinks
      have hev := (hb.back hy hyr hyp).1
      have hmem := Arena.mem_serials_of_get? hy
      have hfresh := hb.lt_fresh hmem
      have hvne := ht.ne_top_of_removed hb.toLinked hy hyr
      have hup : ∀ w, e < w → w ≤ v → τ w < τ e := by
        intro w hew hwv
        rcases Nat.lt_or_eq_of_le hwv with hlt | rfl
        · exact lt_of_le_of_lt (hmid w hew hlt) hve
        · exact hve
      rcases ih (c.arena.fresh - v) (by omega) hmem hvne rfl with hpv | ⟨u, hvu, hpu, hune, hall⟩
      · exact .inr ⟨v, hev, hpv, hvne, hup⟩
      · refine .inr ⟨u, by omega, hpu, hune, fun w hew hwu => ?_⟩
        by_cases hwv : w ≤ v
        · exact hup w hew hwv
        · exact (hall w (by omega) hwu).trans hve

/-- **Which removed entries are held.**  A removed entry is held as long as it is pinned, or a removed
entry after it is pinned that was removed before it, as was all that lies between the two. -/
theorem Dated.held_iff (hne : τ e ≠ ⊤) :
    e ∈ c.arena.serials ↔
      0 < pins e ∨ ∃ u, e < u ∧ 0 < pins u ∧ τ u ≠ ⊤ ∧ ∀ x, e < x → x ≤ u → τ x < τ e := by
  constructor
  · exact fun he => ht.later_of_held hb he hne
  · rintro (hp | ⟨u, heu, hpu, _, hlater⟩)
    · exact hb.pinned hp
    · exact ht.held_of_later hb u (hb.pinned hpu) heu hlater

end

end Chain

end LiveOrder
