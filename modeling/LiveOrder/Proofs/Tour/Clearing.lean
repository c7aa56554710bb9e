import LiveOrder.Proofs.Store.Alike
import LiveOrder.Proofs.Tour.Conservation

/-!
# Clearing and removing

A store can be cleared at once, or its entries can be removed one after the other.  Clearing cuts the
backward links of all entries and frees what nothing refers to; a removal joins the neighbours, keeps
the backward link and counts a reference for it.  When the first entry is removed each time, nothing
live is left before it, so its backward link leads nowhere in the end.

* `Tour.Alike`       tours with the same cursors on stores that are alike;
* `Sound.alike`      rows, cursors and backward links of removed entries determine a tour;
* `Alike.step`, `Alike.run`   alike tours answer alike and stay alike, whatever is done;
* `Chain.Shed`       what becomes of a chain when entries are taken from its front; `Tour.Sheds`, of a
                     tour, with what comes out;
* `removals_spec`    the first entry removed, until none is left; `clearing_spec`, all at once;
* `clear_alike`      a cleared tour is alike to one whose entries were all removed.
-/

namespace LiveOrder

open Chain

variable {ν : Type}

namespace Tour

variable {t t' u u' : Tour ν}

/-! ## tours that are alike -/

structure Alike (t u : Tour ν) : Prop where
  hasher : t.store.hasher = u.store.hasher
  index : t.store.index.Perm u.store.index
  chain : t.store.chain.Alike u.store.chain
  cursors : t.cursors = u.cursors

/-- The removed entries that both hold are the same, and lead back to the same. -/
def BackAlike (t u : Tour ν) : Prop := ∀ {s x y}, t.store.chain.arena.get? s = some x →
  u.store.chain.arena.get? s = some y → x.removed = true → y.removed = true →
  x.pair = y.pair ∧ x.prev = y.prev

theorem rows_of_itinerary (hi : t.itinerary = u.itinerary) :
    t.store.chain.rows = u.store.chain.rows := congrArg (·.ledger.rows) hi

theorem live_of_itinerary (hi : t.itinerary = u.itinerary) (s : Nat) :
    t.store.chain.Live s ↔ u.store.chain.Live s := by
  rw [← mem_rows_serials, rows_of_itinerary hi, mem_rows_serials]

section
variable (ht : t.Sound) (hu : u.Sound)
include ht hu

theorem Sound.agree (hi : t.itinerary = u.itinerary) (hh : t.store.hasher = u.store.hasher)
    (hb : t.BackAlike u) : t.store.chain.Agree u.store.chain := by
  have hlive := live_of_itinerary hi
  have hremoved : ∀ {s x y}, t.store.chain.arena.get? s = some x →
      u.store.chain.arena.get? s = some y → x.removed = true → y.removed = true := by
    intro s x y hx hy hr
    exact removed_of_not_live hy fun h => not_live_of_removed hx hr ((hlive s).mpr h)
  refine ⟨hlive, fun {s x y} hx hy => ?_, fun hx hy hr => (hb hx hy hr (hremoved hx hy hr)).2⟩
  have hpair : x.pair = y.pair := by
    cases hr : x.removed with
    | true => exact (hb hx hy hr (hremoved hx hy hr)).1
    | false =>
      have hrow := row?_eq_of_rows (rows_of_itinerary hi) s
      have hyl := (live_iff_of_get? hy).mp ((hlive s).mp ⟨x, hx, hr⟩)
      rw [row?_of_live hx hr, row?_of_live hy hyl, Option.some.injEq] at hrow
      exact congrArg Row.pair hrow
  have hkey : x.key = y.key := congrArg Prod.fst hpair
  exact ⟨hpair, by rw [ht.hashed hx, hu.hashed hy, hh, hkey]⟩

/-- **What determines a tour.**  Which other slots are held, and all counts and links, follow. -/
theorem Sound.alike (hi : t.itinerary = u.itinerary) (hh : t.store.hasher = u.store.hasher)
    (hb : t.BackAlike u) : t.Alike u where
  hasher := hh
  index := by
    have hindexed := ht.indexed
    rw [rows_of_itinerary hi] at hindexed
    exact hindexed.trans hu.indexed.symm
  chain := by
    have hpins : u.pins = t.pins := (congrArg (fun i : Itinerary ν => pinsOf i.cursors) hi).symm
    have hbalanced := hu.balanced
    rw [hpins] at hbalanced
    exact (ht.agree hu hi hh hb).alike ht.balanced hbalanced (congrArg (·.ledger.fresh) hi)
  cursors := congrArg (·.cursors) hi

theorem Alike.itinerary (h : t.Alike u) : t.itinerary = u.itinerary := by
  have hrows : t.store.chain.rows = u.store.chain.rows :=
    rows_eq_of_row? hu.balanced.sound ht.balanced.sound h.chain.row?_eq
  show Itinerary.mk (.mk _ _) _ = Itinerary.mk (.mk _ _) _
  rw [hrows, h.chain.fresh, h.cursors]

end

/-! ## the next command -/

/-- A command is answered alike, and hands back the same pairs: in the same order too, unless all
entries go at once. -/
def StaysAlike (t u : Tour ν) (c : Command ν) : Prop :=
  ∃ reply freed freed' t' u', t.step c = .ok (reply, freed, t') ∧
    u.step c = .ok (reply, freed', u') ∧ freed.pairs.Perm freed'.pairs ∧
    (c ≠ .clear → freed.pairs = freed'.pairs) ∧ t'.Alike u'

theorem Alike.lost_eq (h : t.Alike u) (h' : t'.Alike u') (ht : t.Sound) (hu : u.Sound) :
    t.store.chain.lost t'.store.chain = u.store.chain.lost u'.store.chain := by
  have hserials := ht.balanced.sound.serials_ext hu.balanced.sound h.chain.mem_iff
  unfold lost
  rw [hserials]
  exact List.filter_congr fun s _ => by simp only [h'.chain.mem_iff]

theorem Took.alike (h : t.Alike u) (ht : t.Sound) (hu : u.Sound) {c : Command ν}
    {freed freed' : Freed ν} (htook : t.Took c freed t') (hutook : u.Took c freed' u') :
    t'.Alike u' := by
  have hi : t'.itinerary = u'.itinerary := by
    rw [htook.itinerary, hutook.itinerary, h.itinerary ht hu]
  obtain ⟨gone, hc, _⟩ := htook.change
  obtain ⟨gone', hc', _⟩ := hutook.change
  refine htook.sound.alike hutook.sound hi ?_ fun hx hy hxr hyr => ?_
  · rw [htook.hasher, hutook.hasher, h.hasher]
  · exact h.chain.back_eq ht.balanced.toLinked hu.balanced.toLinked hc hc' (live_of_itinerary hi)
      hx hy hxr hyr

theorem Alike.step (h : t.Alike u) (ht : t.Sound) (hu : u.Sound) (c : Command ν) :
    t.StaysAlike u c := by
  obtain ⟨freed, t', he, htook⟩ := step_spec ht c
  obtain ⟨freed', u', he', hutook⟩ := step_spec hu c
  rw [← h.itinerary ht hu] at he'
  have h' := htook.alike h ht hu hutook
  have hlost := h.lost_eq h' ht hu
  refine ⟨_, freed, freed', t', u', he, he', ?_, fun hne => ?_, h'⟩
  · obtain ⟨gone, hc, hp⟩ := htook.change
    obtain ⟨gone', hc', hp'⟩ := hutook.change
    rw [hp, hp']
    refine (hc.pairs_perm ht.balanced.sound).trans ?_
    rw [hlost, h.chain.pairsOf_eq]
    exact (hc'.pairs_perm hu.balanced.sound).symm
  · rw [htook.order hne, hutook.order hne, hlost, h.chain.pairsOf_eq]

theorem Alike.run (h : t.Alike u) (ht : t.Sound) (hu : u.Sound) (commands : List (Command ν)) :
    ∃ replies t' u', t.run commands = .ok (replies, t') ∧ u.run commands = .ok (replies, u') ∧
      t'.Alike u' ∧ t'.Sound ∧ u'.Sound := by
  induction commands generalizing t u with
  | nil => exact ⟨[], t, u, rfl, rfl, h, ht, hu⟩
  | cons c rest ih =>
    obtain ⟨freed, t', he, htook⟩ := step_spec ht c
    obtain ⟨freed', u', he', hutook⟩ := step_spec hu c
    obtain ⟨replies, t'', u'', hrun, hrun', hlast⟩ :=
      ih (htook.alike h ht hu hutook) htook.sound hutook.sound
    refine ⟨(t.itinerary.step c).1 :: replies, t'', u'', ?_, ?_, hlast⟩
    · rw [Tour.run, he]
      simp only [bind, Except.bind]
      rw [hrun]
      rfl
    · rw [Tour.run, he', h.itinerary ht hu]
      simp only [bind, Except.bind]
      rw [hrun']
      rfl

end Tour

/-! ## entries taken from the front -/

namespace Chain

variable {c d e : Chain ν} {gone : List Nat} {s : Nat} {x y z : Slot ν}

/-- One chain is another one after entries were taken from its front: they lead back to nothing, and
what was removed before leads where it led. -/
structure Shed (c d : Chain ν) : Prop where
  rows : ∀ r ∈ d.rows, r ∈ c.rows
  trims : c.arena.Trims d.arena
  back : ∀ {s y}, d.arena.get? s = some y → y.removed = true →
    ∃ x, c.arena.get? s = some x ∧ x.pair = y.pair ∧
      y.prev = if x.removed then x.prev else none

theorem Shed.refl (c : Chain ν) : c.Shed c where
  rows _ hr := hr
  trims := .refl _
  back {s y} hy hr := ⟨y, hy, rfl, by rw [if_pos hr]⟩

theorem Shed.live_before (h : c.Shed d) (hy : d.arena.get? s = some y) (hl : y.removed = false) :
    ∃ x, c.arena.get? s = some x ∧ x.removed = false ∧ x.pair = y.pair := by
  have hrow : y.row s ∈ d.rows := mem_rows.mpr (row?_of_live hy hl)
  obtain ⟨x, hx, hxl, hxy⟩ := slot_of_row (h.rows _ hrow)
  exact ⟨x, hx, hxl, congrArg Row.pair hxy⟩

theorem Shed.trans (h : c.Shed d) (h' : d.Shed e) : c.Shed e where
  rows r hr := h.rows r (h'.rows r hr)
  trims := h.trims.trans h'.trims
  back {s z} hz hr := by
    obtain ⟨y, hy, hyz, hprev⟩ := h'.back hz hr
    cases hyr : y.removed with
    | true =>
      obtain ⟨x, hx, hxy, hxp⟩ := h.back hy hyr
      rw [hyr, if_pos rfl] at hprev
      exact ⟨x, hx, hxy.trans hyz, hprev.trans hxp⟩
    | false =>
      obtain ⟨x, hx, hxl, hxy⟩ := h.live_before hy hyr
      rw [hyr] at hprev
      refine ⟨x, hx, hxy.trans hyz, ?_⟩
      rw [hprev, hxl]
      rfl

theorem Shed.of_change (hc : c.Linked) (h : Change c gone d)
    (hf : d.arena.fresh = c.arena.fresh) (front : List (Row ν))
    (hrows : c.rows = front ++ d.rows) : c.Shed d where
  rows r hr := by
    rw [hrows]
    exact List.mem_append_right _ hr
  trims := h.trims hf
  back {s y} hy hr := by
    obtain ⟨x, hx, hxy, ⟨hxr, hprev⟩ | ⟨hxl, hlast⟩⟩ := h.removed_before hc hy hr
    · exact ⟨x, hx, hxy, by rw [if_pos hxr, hprev]⟩
    · refine ⟨x, hx, hxy, ?_⟩
      rw [hxl]
      cases hp : y.prev with
      | none => rfl
      | some q =>
        rw [hp] at hlast
        obtain ⟨hq, hlt, _⟩ := hlast
        -- the entry was taken from the front, so it came before what is live still
        obtain ⟨k, hk⟩ := live_iff_row?.mp hq
        have hkmem : k ∈ d.rows := mem_rows.mpr (by rwa [serial_of_row? hk])
        have hxmem : x.row s ∈ front ++ d.rows := hrows ▸ mem_rows.mpr (row?_of_live hx hxl)
        have hnot : x.row s ∉ d.rows := fun hm =>
          not_live_of_removed hy hr (mem_rows_serials.mp (List.mem_map_of_mem hm))
        have hsorted := rows_sorted hc.sound
        rw [hrows] at hsorted
        have hsk := (List.pairwise_append.mp hsorted).2.2 _
          ((List.mem_append.mp hxmem).resolve_right hnot) k hkmem
        rw [serial_of_row? hk] at hsk
        exact absurd hlt (Nat.lt_asymm hsk)

theorem Shed.back_eq (h : c.Shed d) (h' : c.Shed e) (hy : d.arena.get? s = some y)
    (hz : e.arena.get? s = some z) (hyr : y.removed = true) (hzr : z.removed = true) :
    y.pair = z.pair ∧ y.prev = z.prev := by
  obtain ⟨x, hx, hxy, hyp⟩ := h.back hy hyr
  obtain ⟨x', hx', hxz, hzp⟩ := h'.back hz hzr
  rw [hx, Option.some.injEq] at hx'
  subst hx'
  exact ⟨hxy.symm.trans hxz, hyp.trans hzp.symm⟩

end Chain

/-! ## all entries taken out, in two ways -/

/-- Nothing is live. -/
structure Store.Bare (t : Store ν) : Prop where
  index : t.index = []
  head : t.chain.head = none
  tail : t.chain.tail = none
  len : t.chain.len = 0

theorem Store.Sound.bare {t : Store ν} {pins : Nat → Nat} (h : t.Sound pins)
    (hr : t.chain.rows = []) : t.Bare := by
  have hlive : ∀ s, ¬t.chain.Live s := by
    intro s hs
    rw [← mem_rows_serials, hr] at hs
    exact List.not_mem_nil hs
  have hindexed := h.indexed
  rw [hr] at hindexed
  refine ⟨List.perm_nil.mp hindexed, ?_, ?_, ?_⟩
  · exact h.balanced.head.unique fun q hq => absurd hq (hlive q)
  · exact h.balanced.tail.unique fun q hq => absurd hq (hlive q)
  · rw [← h.balanced.toLinked.length_rows, hr]
    rfl

namespace Tour

variable {t u v : Tour ν} {out out' : List (Key × ν)} {r : Row ν} {rest : List (Row ν)}

/-- One tour is another one after entries were taken from the front, and what came out. -/
structure Sheds (t : Tour ν) (out : List (Key × ν)) (u : Tour ν) : Prop where
  sound : u.Sound
  cursors : u.cursors = t.cursors
  fresh : u.store.ledger.fresh = t.store.ledger.fresh
  hasher : u.store.hasher = t.store.hasher
  shed : t.store.chain.Shed u.store.chain
  held : t.store.held.Perm (out ++ u.store.held)

theorem Sheds.refl (h : t.Sound) : t.Sheds [] t := ⟨h, rfl, rfl, rfl, .refl _, .refl _⟩

theorem Sheds.trans (h : t.Sheds out u) (h' : u.Sheds out' v) : t.Sheds (out ++ out') v where
  sound := h'.sound
  cursors := h'.cursors.trans h.cursors
  fresh := h'.fresh.trans h.fresh
  hasher := h'.hasher.trans h.hasher
  shed := h.shed.trans h'.shed
  held := by
    rw [List.append_assoc]
    exact h.held.trans (h'.held.append_left out)

theorem Sheds.itinerary_eq (h : t.Sheds out u) (h' : t.Sheds out' v)
    (hr : u.store.chain.rows = v.store.chain.rows) : u.itinerary = v.itinerary := by
  have hfresh := h.fresh.trans h'.fresh.symm
  have hcursors := h.cursors.trans h'.cursors.symm
  show Itinerary.mk (.mk _ _) _ = Itinerary.mk (.mk _ _) _
  rw [hr, hcursors]
  exact congrArg (Itinerary.mk · _) (congrArg (Ledger.mk _) hfresh)

theorem Sheds.alike (h : t.Sheds out u) (h' : t.Sheds out' v)
    (hr : u.store.chain.rows = v.store.chain.rows) : u.Alike v :=
  h.sound.alike h'.sound (h.itinerary_eq h' hr) (h.hasher.trans h'.hasher.symm)
    (h.shed.back_eq h'.shed)

/-- What is held in the end is the same, so what came out is. -/
theorem Sheds.out_perm (h : t.Sheds out u) (h' : t.Sheds out' v) (ha : u.Alike v) :
    out.Perm out' := by
  have hheld : u.store.held = v.store.held := by
    show u.store.chain.pairsOf _ = v.store.chain.pairsOf _
    rw [h.sound.balanced.sound.serials_ext h'.sound.balanced.sound ha.chain.mem_iff,
      ha.chain.pairsOf_eq]
  have hperm := h.held.symm.trans h'.held
  rw [hheld] at hperm
  exact (List.perm_append_right_iff _).mp hperm

theorem Sheds.samePlaces (ht : t.Sound) (h : t.Sheds out u) (h' : t.Sheds out' v)
    (ha : u.Alike v) : u.store.chain.arena.SamePlaces v.store.chain.arena :=
  h.shed.trims.samePlaces ht.balanced.sound h'.shed.trims
    (h.sound.balanced.sound.serials_ext h'.sound.balanced.sound ha.chain.mem_iff)

theorem remove_rows (h : t.Sound) (hr : t.store.chain.rows = r :: rest) :
    (t.store.ledger.remove r.key).rows = rest := by
  have htokens := h.tokens
  rw [hr, List.map_cons] at htokens
  have hother : ∀ q ∈ rest, q.key.token ≠ r.key.token := fun q hq e =>
    (List.nodup_cons.mp htokens).1 (e ▸ List.mem_map_of_mem hq)
  show t.store.chain.rows.filter _ = rest
  rw [hr, List.filter_cons, if_neg (by simp)]
  exact List.filter_eq_self.mpr fun q hq => decide_eq_true (hother q hq)

/-- The first entry is removed. -/
theorem remove_first (h : t.Sound) (hr : t.store.chain.rows = r :: rest) :
    ∃ freed u, t.step (.remove r.key) = .ok (.flag true, freed, u) ∧ t.Sheds freed.pairs u ∧
      u.store.chain.rows = rest := by
  obtain ⟨freed, store, gone, he, hsome, hs, hl, hc, _⟩ := Store.remove_spec h r.key
  have hfound : t.store.ledger.find? r.key = some r :=
    Store.Sound.find?_eq_some_iff h |>.mpr ⟨by rw [hr]; exact List.mem_cons_self, rfl⟩
  have hfresh : store.ledger.fresh = t.store.ledger.fresh := by
    rw [hl]
    rfl
  have hrows : store.chain.rows = rest := (congrArg Ledger.rows hl).trans (remove_rows h hr)
  refine ⟨freed.getD {}, { t with store }, ?_, ⟨hs, rfl, hfresh, hc.hasher, ?_, ?_⟩, hrows⟩
  · rw [step, he]
    simp only [bind, Except.bind, hsome, hfound]
    rfl
  · refine .of_change h.balanced.toLinked hc.chain hfresh [r] ?_
    rw [hr, hrows]
    rfl
  · exact Store.remove_held h he

/-- The first entry is removed, until none is left. -/
theorem removals_spec (rows : List (Row ν)) (h : t.Sound) (hr : t.store.chain.rows = rows) :
    ∃ out u, t.trace (rows.map fun r => .remove r.key) = .ok (rows.map fun _ => .flag true, out, u) ∧
      t.Sheds out u ∧ u.store.chain.rows = [] := by
  induction rows generalizing t with
  | nil => exact ⟨[], t, rfl, .refl h, hr⟩
  | cons r rest ih =>
    obtain ⟨freed, next, he, hsheds, hrest⟩ := remove_first h hr
    obtain ⟨out, u, htrace, hsheds', hnone⟩ := ih hsheds.sound hrest
    refine ⟨freed.pairs ++ out, u, ?_, hsheds.trans hsheds', hnone⟩
    rw [List.map_cons, trace, he]
    simp only [bind, Except.bind]
    rw [htrace]
    rfl

theorem clearing_spec (h : t.Sound) :
    ∃ freed u, t.step .clear = .ok (.done, freed, u) ∧ t.Sheds freed.pairs u ∧
      u.store.chain.rows = [] := by
  obtain ⟨freed, store, gone, he, hs, hl, hc, _⟩ := Store.clear_spec h
  have hfresh : store.ledger.fresh = t.store.ledger.fresh := by
    rw [hl]
    rfl
  have hrows : store.chain.rows = [] := congrArg Ledger.rows hl
  refine ⟨freed, { t with store }, ?_, ⟨hs, rfl, hfresh, hc.hasher, ?_, ?_⟩, hrows⟩
  · rw [step, he]
    rfl
  · refine .of_change h.balanced.toLinked hc.chain hfresh t.store.chain.rows ?_
    rw [hrows, List.append_nil]
  · exact Store.clear_held h he

/-- **Clearing is removing one entry after the other.**  From every reachable state of a store, with
whatever cursors on it and pins left behind, both leave no entry, the same removed entries held with
the same counts and backward links, at the same places with the same places vacant, and both free the
same pairs.  Whatever is done after that, every further command is answered alike and frees the same. -/
theorem clear_alike (hasher : Token → UInt64) (commands : List (Command ν)) :
    ∃ replies t entries, (start hasher).run commands = .ok (replies, t) ∧
      t.store.entries = .ok entries ∧
      ∃ cleared u removed v, t.step .clear = .ok (.done, cleared, u) ∧
        t.trace (entries.map fun e => .remove e.1) =
          .ok (entries.map fun _ => .flag true, removed, v) ∧
        cleared.pairs.Perm removed ∧ u.store.Bare ∧ v.store.Bare ∧ u.Alike v ∧
        u.store.chain.arena.SamePlaces v.store.chain.arena ∧
        ∀ later, ∃ replies u' v', u.run later = .ok (replies, u') ∧
          v.run later = .ok (replies, v') ∧ u'.Alike v' ∧ ∀ c, u'.StaysAlike v' c := by
  obtain ⟨t, he, ht, _⟩ := run_spec (sound_start hasher) commands
  obtain ⟨cleared, u, hu, hsheds, hnone⟩ := clearing_spec ht
  obtain ⟨removed, v, hv, hsheds', hnone'⟩ := removals_spec _ ht rfl
  have halike := hsheds.alike hsheds' (hnone.trans hnone'.symm)
  refine ⟨_, t, _, he, Store.entries_spec ht, cleared, u, removed, v, hu, ?_,
    hsheds.out_perm hsheds' halike, hsheds.sound.bare hnone, hsheds'.sound.bare hnone', halike,
    hsheds.samePlaces ht hsheds' halike, fun later => ?_⟩
  · rw [List.map_map, List.map_map]
    exact hv
  · obtain ⟨replies, u', v', hu', hv', halike', hsu, hsv⟩ := halike.run hsheds.sound hsheds'.sound later
    exact ⟨replies, u', v', hu', hv', halike', halike'.step hsu hsv⟩

end Tour

end LiveOrder
