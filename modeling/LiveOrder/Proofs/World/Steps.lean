import LiveOrder.Proofs.World.Cursor
import LiveOrder.Proofs.World.Quiet

/-!
# Steps of cursors, one by one

* `move_cases`     a move is refused and changes nothing, or it comes to the first live entry after the
                   place of the cursor, which has no place then;
* `depart_quiet`   if nothing reacts that the move has freed, that entry is still the first one when the
                   cursor lands;
* `copyAt_quiet`   the copy is of what is stored there then;
* `done_of_advance`, `advance_of_done`, `closeWalk_of_done`   a cursor at the end holds nothing, and never
                   goes on.
-/

namespace LiveOrder.World

open Act Situation Table

variable {run : Runner} {w v : World} {others : Hands} {r s id : Nat} {last next : Option Nat}
  {c d : Container}

/-! ## accesses that are granted -/

/-- A world is kept if only the use of a container is changed, and put back. -/
theorem kept_use (hc : containerAt? w.cells r = some c) (h : Kept (w.changed r d) v) :
    Kept w (v.changed r c) := by
  refine ⟨h.walks, h.roots, fun {q cell} hcell => ?_⟩
  obtain ⟨n, hn⟩ := containerAt?_eq_some_iff.mp hc
  unfold changed at hcell
  rw [get?_change] at hcell
  split at hcell
  · rename_i hq
    obtain ⟨cell', _, rfl⟩ := Option.map_eq_some_iff.mp hcell
    exact ⟨⟨n, .container c⟩, hq ▸ hn, rfl⟩
  · rename_i hq
    obtain ⟨cell', hcell', hbody⟩ := h.bodies hcell
    unfold changed at hcell'
    rw [get?_change, if_neg hq] at hcell'
    exact ⟨cell', hcell', hbody⟩

/-- A reader that keeps the world while it may read keeps the world. -/
theorem sharing_gives {α : Type} {x : Act α} {q y : α} {n : Nat}
    (hc : containerAt? w.cells r = some c) (ha : c.access = .shared n)
    (hx : ∀ u y, x (w.changed r (c.beingRead n)) = (.ok y, u) →
      y = q ∧ Kept (w.changed r (c.beingRead n)) u)
    (h : sharing r x w = (.ok y, v)) : y = q ∧ Kept w v := by
  rw [sharing_eq hc ha, always_apply] at h
  rcases hr : x (w.changed r (c.beingRead n)) with ⟨e | y', u⟩
  · rw [hr] at h
    cases h
  · rw [hr] at h
    obtain ⟨rfl, hkept⟩ := hx u y' hr
    dsimp only at h
    -- the container is still there, since its use ends without a failure
    cases he : containerAt? u.cells r with
    | none =>
      obtain ⟨e, _, hfail⟩ := container_error he
      rw [bind_apply, delist, bind_apply, hfail] at h
      cases h
    | some e =>
      have hsame := hkept.containerAt? he
      rw [containerAt?_changed hc] at hsame
      cases hsame
      rw [endReading_eq ha he rfl] at h
      cases h
      exact ⟨rfl, kept_use hc hkept⟩

/-! ## the cursor of a step -/

/-- A step of a cursor that has its container is a departure and a landing. -/
theorem advance_eq {kind : Kind} {selection : Selection}
    (hw : w.InOrder (others + cursorAt id (some ⟨some r, last⟩))) :
    advance run id kind selection w =
      (depart run id r last >>= fun next => land run id r kind selection next) w := by
  rw [advance, bind_apply, hw.walk_eq]

/-- A cursor holds its container. -/
theorem InOrder.has_of_cursor (hw : w.InOrder others)
    (hid : .cursor id (some ⟨some r, last⟩) ∈ others) : w.Has r := by
  refine hw.exists_of_mem_assets (hw.subset_of_row (hw.known hid) ?_)
  simp [Walk.assets]

/-! ## the move -/

/-- A move is refused, or it comes to the first live entry after the place of the cursor. -/
theorem move_cases (hw : w.InOrder (others + cursorAt id (some ⟨some r, last⟩))) :
    (∃ e, move id r last w = (.error e, w)) ∨
      ∃ c freed t, containerAt? w.cells r = some c ∧ c.access = .shared 0 ∧
        c.store.advance last = .ok ((c.store.ledger.after last).map (·.serial), freed, t) ∧
        t.ledger = c.store.ledger ∧
        (∀ e, e ∈ freed.pairs ∨ e ∈ t.contents → e ∈ c.store.contents) ∧
        move id r last w =
          (.ok ((c.store.ledger.after last).map (·.serial), freed), w.moved id r c t) := by
  have hhas : w.Has r := by
    have hrow : get? id w.walks = some ⟨some r, last⟩ := hw.known (by simp)
    refine hw.exists_of_mem_assets (hw.subset_of_row hrow ?_)
    simp [Walk.assets]
  rcases beginExclusive_cases hhas with ⟨c, hc, ha⟩ | ⟨e, _, he⟩
  · obtain ⟨pins, hs⟩ := hw.parked_sound hc
    obtain ⟨freed, t, _, ht, hsound, hledger, _, _⟩ := Store.advance_spec hs
    refine .inr ⟨c, freed, t, hc, ha, ht, hledger, fun e he => ?_,
      move_eq hc ha ((hw.books.guarded hc).idle ha).1 ht⟩
    rw [(Store.contents_perm hsound).mem_iff] at he
    rw [(Store.contents_perm hs).mem_iff, (Store.advance_held hs ht).mem_iff]
    exact List.mem_append.mpr he
  · refine .inl ⟨e, ?_⟩
    unfold move
    rw [exclusively, exclusivelyOr, bind_apply, onFailure_apply, he]
    rfl

/-! ## the release -/

/-- Nothing reacts that a step from the place frees. -/
def Spares (w : World) (r : Nat) (last : Option Nat) : Prop :=
  ∀ c next freed t, containerAt? w.cells r = some c → c.store.advance last = .ok (next, freed, t) →
    ∀ piece ∈ debrisOf freed.pairs, ¬Reacts w.cells piece

/-- After a move nothing reacts that did not react before. -/
theorem reacts_moved {t : Store Item} (hc : containerAt? w.cells r = some c)
    (hsub : ∀ e ∈ t.contents, e ∈ c.store.contents) {piece : Debris}
    (hp : Reacts (w.moved id r c t).cells piece) : Reacts w.cells piece := by
  refine hp.mono fun q d hd => ?_
  obtain ⟨n, hn⟩ := containerAt?_eq_some_iff.mp hc
  unfold moved changed at hd
  rw [get?_change] at hd
  split at hd
  · rename_i hq
    obtain ⟨e, _, rfl⟩ := Option.map_eq_some_iff.mp hd
    refine ⟨_, hq ▸ hn, fun p hp => ?_⟩
    obtain ⟨e, he, hp⟩ := List.mem_flatMap.mp hp
    exact List.mem_flatMap.mpr ⟨e, hsub e he, hp⟩
  · exact ⟨d, hd, fun p hp => hp⟩

/-- If nothing reacts, what a step frees is released, and that is all. -/
theorem depart_quiet (hw : w.InOrder (others + cursorAt id (some ⟨some r, last⟩)))
    (hspares : w.Spares r last) (h : depart run id r last w = (.ok next, v)) :
    ∃ c t, containerAt? w.cells r = some c ∧ c.access = .shared 0 ∧ t.ledger = c.store.ledger ∧
      (∀ e ∈ t.contents, e ∈ c.store.contents) ∧
      next = (c.store.ledger.after last).map (·.serial) ∧ Kept (w.moved id r c t) v := by
  obtain ⟨⟨next', freed⟩, u, hmove, h⟩ := bind_eq_ok.mp h
  rcases move_cases hw with ⟨e, he⟩ | ⟨c, freed', t, hc, ha, ht, hledger, hsub, he⟩
  · rw [he] at hmove
    cases hmove
  · rw [he] at hmove
    cases hmove
    have hcontents : ∀ e ∈ t.contents, e ∈ c.store.contents := fun e hm => hsub e (.inr hm)
    obtain ⟨_, u, htell, h⟩ := bind_eq_ok.mp h
    obtain ⟨_, z, hdiscard, h⟩ := bind_eq_ok.mp h
    have hkept := keeps_tell freed.notices (w.moved id r c t)
    rw [htell] at hkept
    have hkept' : Kept u (discard run (debrisOf freed.pairs) u).2 := by
      refine discard_kept fun p hp hreacts => ?_
      exact hspares c _ _ _ hc ht p hp (reacts_moved hc hcontents (hkept.reacts hreacts))
    rw [onFailure_eq_ok.mp hdiscard] at hkept'
    cases h
    exact ⟨c, t, hc, ha, hledger, hcontents, rfl, hkept.trans hkept'⟩

/-- What a quiet container frees does not react. -/
theorem spares_of_quiet (hw : w.InOrder (others + cursorAt id (some ⟨some r, last⟩)))
    (h : Quiet w.cells r) : w.Spares r last := by
  intro c next freed t hc ht piece hp hreacts
  obtain ⟨n, hn⟩ := containerAt?_eq_some_iff.mp hc
  obtain ⟨pins, hs⟩ := hw.parked_sound hc
  obtain ⟨e, he, hp⟩ := List.mem_flatMap.mp hp
  refine h.releases (.object hn (List.mem_flatMap.mpr ⟨e, ?_, hp⟩) hreacts)
  rw [(Store.contents_perm hs).mem_iff, (Store.advance_held hs ht).mem_iff]
  exact List.mem_append_left _ he

/-! ## the landing -/

/-- The store has the pin that is in hand, so the entry there can be read. -/
theorem pinned_of_hand (hw : w.InOrder (others + pinAt r (some s)))
    (hd : containerAt? w.cells r = some d) :
    ∃ x, d.store.chain.arena.get? s = some x ∧ d.store.pinned s = .ok x.pair ∧
      x.pair ∈ d.store.contents := by
  have hs := hw.store_sound hd
  have hpos : 0 < Chain.pinOn (some s) (fun s => (w.assets + others).count (.pin r s)) s := by
    rw [Chain.pinOn_self]
    exact Nat.succ_pos _
  obtain ⟨x, hx, he⟩ := Store.pinned_spec hs hpos
  exact ⟨x, hx, he, (Store.contents_perm hs).mem_iff.mpr (Store.pinned_held he)⟩

/-- A copy of what is stored at a pin. -/
theorem copyAt_quiet {kind : Kind} {selection : Selection} {k : Key} {i : Item} {y : Yield}
    (hd : containerAt? w.cells r = some d) (ha : d.access = .shared 0)
    (hread : d.store.pinned s = .ok (k, i)) (hi : i.CopiesQuietly)
    (h : copyAt run r kind selection s w = (.ok y, v)) :
    y = .of kind selection k i ∧ Kept w v := by
  refine sharing_gives hd ha (fun u y hy => ?_) h
  have hd' := containerAt?_changed hd (d.beingRead 0)
  rw [bind_apply, readStore, bind_apply, container_eq hd'] at hy
  dsimp only [Container.beingRead] at hy
  rw [hread] at hy
  exact gives_copyEntry kind selection k hi _ u y hy

theorem park_quiet {kind : Kind} {selection : Selection} {x : Slot Item} {y? : Option Yield}
    (hd : containerAt? w.cells r = some d) (ha : d.access = .shared 0)
    (hread : d.store.pinned s = .ok x.pair) (hi : x.value.CopiesQuietly)
    (h : land run id r kind selection (some s) w = (.ok y?, v)) :
    y? = some (.of kind selection x.key x.value) ∧
      Kept { w with walks := put id ⟨some r, some s⟩ w.walks } v := by
  obtain ⟨_, _, hset, h⟩ := bind_eq_ok.mp h
  cases hset
  obtain ⟨y, u, hcopy, h⟩ := bind_eq_ok.mp h
  cases h
  obtain ⟨rfl, hkept⟩ := copyAt_quiet (w := { w with walks := put id ⟨some r, some s⟩ w.walks })
    hd ha hread hi hcopy
  exact ⟨rfl, hkept⟩

theorem end_quiet {kind : Kind} {selection : Selection} {y? : Option Yield}
    (hreacts : ¬Reacts w.cells (.handle r))
    (h : land run id r kind selection none w = (.ok y?, v)) :
    y? = none ∧ Kept { w with walks := put id ⟨none, none⟩ w.walks } v := by
  obtain ⟨_, _, hset, h⟩ := bind_eq_ok.mp h
  cases hset
  obtain ⟨_, u, hr, h⟩ := bind_eq_ok.mp h
  have hdiscard : Kept { w with walks := put id ⟨none, none⟩ w.walks }
      (discard run [.handle r] { w with walks := put id ⟨none, none⟩ w.walks }).2 := by
    refine discard_kept fun p hp => ?_
    rw [List.mem_singleton.mp hp]
    exact hreacts
  rw [hr] at hdiscard
  cases h
  exact ⟨rfl, hdiscard⟩

/-! ## whole steps -/

/-- What a step yields, and where it leaves the cursor: at the first live entry after its place, as it
is stored then, or at the end if there is none. -/
def Reached (r id : Nat) (kind : Kind) (selection : Selection) (w : World) :
    Option (Row Item) → Option Yield → Prop
  | some row, y? => y? = some (.of kind selection row.key row.value) ∧
      get? id w.walks = some ⟨some r, some row.serial⟩
  | none, y? => y? = none

/-- The live entries of the container are the same ones, with the same values. -/
def SameEntries (c : Container) (w : World) (r : Nat) : Prop :=
  ∀ d, containerAt? w.cells r = some d → d.store.ledger = c.store.ledger ∧ d.kind = c.kind

/-- If nothing reacts, the container has the same entries when the cursor lands, and is there. -/
theorem depart_there (hrun : run.Safe) (hw : w.InOrder (others + cursorAt id (some ⟨some r, last⟩)))
    (hspares : w.Spares r last) (h : depart run id r last w = (.ok next, v)) :
    ∃ c t, containerAt? w.cells r = some c ∧ c.access = .shared 0 ∧ t.ledger = c.store.ledger ∧
      (∀ e ∈ t.contents, e ∈ c.store.contents) ∧
      next = (c.store.ledger.after last).map (·.serial) ∧ Kept (w.moved id r c t) v ∧
      containerAt? v.cells r = some { c with store := t } ∧
      v.InOrder (others + cursorAt id (some ⟨some r, none⟩) + pinAt r next) := by
  obtain ⟨c, t, hc, ha, hledger, hcontents, hnext, hkept⟩ := depart_quiet hw hspares h
  obtain ⟨⟨hv, _⟩, _⟩ := (depart_owns hrun last).of_ok (Multiset.zero_subset others) ⟨hw, trivial⟩ h
  have hmoved : containerAt? (w.moved id r c t).cells r = some { c with store := t } :=
    containerAt?_changed (w := { w with walks := put id ⟨some r, none⟩ w.walks }) hc _
  have hcursor : .cursor id (some ⟨some r, none⟩) ∈
      others + (cursorAt id (some ⟨some r, none⟩) + pinAt r next) := by simp
  exact ⟨c, t, hc, ha, hledger, hcontents, hnext, hkept,
    hkept.container hmoved (hv.has_of_cursor hcursor), hv.of_eq (add_assoc _ _ _)⟩

theorem advance_quiet (hrun : run.Safe) {kind : Kind} {selection : Selection} {y? : Option Yield}
    (hw : w.InOrder (others + cursorAt id (some ⟨some r, last⟩))) (hquiet : Quiet w.cells r)
    (h : advance run id kind selection w = (.ok y?, v)) :
    ∃ c, containerAt? w.cells r = some c ∧ SameEntries c v r ∧
      Reached r id kind selection v (c.store.ledger.after last) y? := by
  obtain ⟨next, u, hr, h⟩ := bind_eq_ok.mp ((advance_eq hw).symm.trans h)
  obtain ⟨c, t, hc, ha, hledger, hcontents, hnext, hkept, hthere, hu⟩ :=
    depart_there hrun hw (spares_of_quiet hw hquiet) hr
  have hsame : ∀ {z x}, Kept { u with walks := put id x u.walks } z → SameEntries c z r := by
    intro z x hz d hd
    have hd' := hz.containerAt? hd
    rw [show containerAt? u.cells r = _ from hthere] at hd'
    cases hd'
    exact ⟨hledger, rfl⟩
  refine ⟨c, hc, ?_⟩
  cases hrow : c.store.ledger.after last with
  | none =>
    rw [hrow, Option.map_none] at hnext
    subst hnext
    have hreacts : ¬Reacts u.cells (.handle r) := fun hp =>
      hquiet.releases (reacts_moved hc hcontents (hkept.reacts hp))
    obtain ⟨hy, hz⟩ := end_quiet hreacts h
    exact ⟨hsame hz, hy⟩
  | some row =>
    rw [hrow, Option.map_some] at hnext
    subst hnext
    obtain ⟨x, hx, hread, hmem⟩ := pinned_of_hand hu hthere
    -- the row is what the slot holds
    have hmemrow : row ∈ t.ledger.rows := by
      rw [hledger]
      exact List.mem_of_find?_eq_some hrow
    obtain ⟨y, hy, _, hyrow⟩ := Chain.row?_eq_some_iff.mp (Chain.mem_rows.mp hmemrow)
    have hxrow : Slot.row row.serial x = row := by
      rw [hx, Option.some.injEq] at hy
      rw [hy]
      exact hyrow
    have hi : x.value.CopiesQuietly := hquiet.copies hc x.pair (hcontents _ hmem)
    obtain ⟨hy?, hz⟩ := park_quiet hthere ha hread hi h
    refine ⟨hsame hz, ?_, ?_⟩
    · rw [hy?, ← hxrow]
      rfl
    · rw [hz.walks, get?_put, if_pos rfl]

/-! ## cursors at the end -/

theorem walk_of_done (h : w.Done id) : ∃ x, walk id w = (.ok x, w) ∧ x.store = none := by
  unfold walk
  rw [get_bind_apply]
  cases hx : get? id w.walks with
  | none => exact ⟨_, rfl, rfl⟩
  | some x => exact ⟨x, rfl, h x hx⟩

/-- A cursor that has come to the end yields nothing, and nothing happens. -/
theorem advance_of_done (run : Runner) (kind : Kind) (selection : Selection) (h : w.Done id) :
    advance run id kind selection w = (.ok none, w) := by
  obtain ⟨x, hx, hstore⟩ := walk_of_done h
  rw [advance, bind_of_ok hx, hstore]
  rfl

/-- Nor has it anything to give up when it is closed. -/
theorem closeWalk_of_done (run : Runner) (h : w.Done id) :
    closeWalk run id w = (.ok (), { w with walks := erase id w.walks }) := by
  obtain ⟨x, hx, hstore⟩ := walk_of_done h
  rw [closeWalk, bind_of_ok hx, modify_bind_apply, hstore]
  rfl

/-- A cursor that yields nothing has come to the end, and has given up its container. -/
theorem done_of_advance (hrun : run.Safe) {kind : Kind} {selection : Selection}
    (hw : w.InOrder (others + cursorAt id none))
    (h : advance run id kind selection w = (.ok none, v)) : id < v.freshWalk ∧ v.Done id := by
  obtain ⟨⟨store, last⟩, hx, hw⟩ := hw.learn
  have hid := hw.books.lt_freshWalk hx
  cases store with
  | none =>
    have hdone : w.Done id := fun y hy => by
      rw [hx] at hy
      cases hy
      rfl
    rw [advance_of_done run kind selection hdone] at h
    cases h
    exact ⟨hid, hdone⟩
  | some r =>
    rw [advance_eq hw] at h
    obtain ⟨next, u, hdepart, hland⟩ := bind_eq_ok.mp h
    obtain ⟨hu, _⟩ := (depart_owns hrun last).of_ok (Multiset.zero_subset others) ⟨hw, trivial⟩ hdepart
    cases next with
    | some s =>
      obtain ⟨_, _, _, hland⟩ := bind_eq_ok.mp hland
      obtain ⟨_, _, _, hland⟩ := bind_eq_ok.mp hland
      cases hland
    | none =>
      obtain ⟨hv, _⟩ := (land_owns hrun kind selection none).holding_of_ok
        (Multiset.zero_subset others) hu.1 hland
      have hrow : get? id v.walks = some ⟨none, none⟩ := hv.known (by simp [landed])
      refine ⟨hv.books.lt_freshWalk hrow, fun y hy => ?_⟩
      rw [hrow] at hy
      cases hy
      rfl

end LiveOrder.World
