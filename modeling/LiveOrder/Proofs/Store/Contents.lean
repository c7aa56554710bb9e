import LiveOrder.Proofs.Store.Index

/-!
# What a store holds

* `Chain.held`   the pairs in the arena, live or removed; `Chain.retained`, the removed ones;
* `Frees.held_perm`   what a slot held comes out of the operation that frees it;
* `Store.upsert_held`, `remove_held`, `clear_held`, `advance_held`, `unpin_held`   no operation loses
                      a pair or makes one up.
-/

namespace LiveOrder

namespace Chain

variable {ν : Type} {c d : Chain ν} {gone : List Nat} {s : Nat} {x : Slot ν}

def held (c : Chain ν) : List (Key × ν) := c.pairsOf c.arena.serials

theorem held_eq_cells (h : c.arena.Sound) : c.held = c.arena.cells.map fun e => e.item.pair := by
  have hget : ∀ e ∈ c.arena.cells, c.arena.get? e.serial = some e.item := fun e he =>
    (h.get?_eq_some_iff).mpr ⟨e, he, rfl, rfl⟩
  show (c.arena.cells.map _).filterMap _ = _
  rw [List.filterMap_map, ← List.filterMap_eq_map]
  refine List.filterMap_congr fun e he => ?_
  simp only [Function.comp_apply, hget e he]
  rfl

theorem length_held (h : c.arena.Sound) : c.held.length = c.arena.size := by
  rw [held_eq_cells h, List.length_map]
  rfl

/-- The pairs of removed entries. -/
def retained (c : Chain ν) : List (Key × ν) :=
  (c.arena.cells.filter (·.item.removed)).map fun e => e.item.pair

theorem rows_eq_cells (h : c.arena.Sound) :
    c.rows.map Row.pair = (c.arena.cells.filter (!·.item.removed)).map fun e => e.item.pair := by
  have hrow : ∀ e ∈ c.arena.cells, c.row? e.serial =
      if e.item.removed then none else some (e.item.row e.serial) := by
    intro e he
    have hx : c.arena.get? e.serial = some e.item := (h.get?_eq_some_iff).mpr ⟨e, he, rfl, rfl⟩
    cases hr : e.item.removed with
    | true => exact row?_of_not_live (not_live_of_removed hx hr)
    | false => exact row?_of_live hx hr
  show ((c.arena.cells.map _).filterMap _).map _ = _
  rw [List.filterMap_map, List.map_filterMap, ← List.filterMap_eq_filter, ← List.filterMap_eq_map,
    List.filterMap_filterMap]
  refine List.filterMap_congr fun e he => ?_
  rw [Function.comp_apply, hrow e he]
  cases hr : e.item.removed with
  | true => simp [Option.guard, hr]
  | false =>
    simp only [Option.guard, hr, Bool.not_false]
    rfl

/-- What is held is what is live and what is retained. -/
theorem held_perm (h : c.arena.Sound) : c.held.Perm (c.rows.map Row.pair ++ c.retained) := by
  rw [held_eq_cells h, rows_eq_cells h, retained, ← List.map_append]
  refine List.Perm.map _ (List.perm_append_comm.trans ?_).symm
  exact List.filter_append_perm _ _

/-- The serials that were held are those that were freed and those that are held still. -/
theorem Frees.serials_perm (h : Frees c d gone) (hc : c.arena.Sound) :
    c.arena.serials.Perm (gone ++ d.arena.serials) := by
  have hnodup : (gone ++ d.arena.serials).Nodup :=
    h.nodup.append h.sound.nodup fun s hs hd => ((h.mem_gone_iff s).mp hs).2 hd
  refine (List.perm_ext_iff_of_nodup hc.nodup hnodup).mpr fun s => ?_
  rw [List.mem_append, h.mem_gone_iff, h.mem_serials_iff, h.mem_gone_iff]
  tauto

theorem Frees.held_perm (h : Frees c d gone) (hc : c.arena.Sound) :
    c.held.Perm (c.pairsOf gone ++ d.held) := by
  have hd : d.held = c.pairsOf d.arena.serials := by
    refine h.pairsOf_eq fun s hs hg => ?_
    exact ((h.mem_gone_iff s).mp hg).2 hs
  rw [hd, ← pairsOf_append]
  exact (h.serials_perm hc).filterMap _

theorem held_unlinked (h : c.Linked) (hx : c.arena.get? s = some x) (hl : x.removed = false) :
    (c.unlinked s x).held = c.held := by
  unfold held
  rw [serials_unlinked, pairsOf_unlinked h hx hl]

theorem Emptied.held_eq (h : c.Emptied d) : d.held = c.held := by
  unfold held
  rw [h.serials, h.pairsOf_eq]

theorem held_appended (h : c.Linked) (key : Key) (value : ν) (hash : UInt64) :
    (c.appended key value hash).held.Perm ((key, value) :: c.held) := by
  have hold : (c.appended key value hash).pairsOf c.arena.serials = c.held := by
    refine List.filterMap_congr fun s hs => ?_
    have hne : s ≠ c.arena.fresh := fun e => h.sound.fresh_notMem (e ▸ hs)
    rw [get?_appended h, if_neg hne]
    split
    · rw [Option.map_map]
      rfl
    · rfl
  have hnew : (c.appended key value hash).pairsOf [c.arena.fresh] = [(key, value)] := by
    rw [pairsOf_cons (x := ⟨key, value, hash, c.tail, none, false, 0⟩)]
    · rfl
    · rw [get?_appended h, if_pos rfl]
  unfold held
  rw [serials_appended, pairsOf_append, hold, hnew]
  exact List.perm_append_singleton _ _

/-- Another value in one slot, and everything else as it was. -/
theorem held_revalued (h : c.arena.Sound) (hx : c.arena.get? s = some x) (f : ν → ν) :
    ∃ rest, c.held.Perm (x.pair :: rest) ∧
      (c.revalued s f).held.Perm ((x.key, f x.value) :: rest) := by
  have hperm : c.arena.serials.Perm (s :: c.arena.serials.erase s) :=
    List.perm_cons_erase (Arena.mem_serials_of_get? hx)
  refine ⟨c.pairsOf (c.arena.serials.erase s), ?_, ?_⟩
  · rw [← pairsOf_cons hx]
    exact hperm.filterMap _
  · have hy : (c.revalued s f).arena.get? s = some (x.revalued f) := by
      rw [get?_revalued, if_pos rfl, hx]
      rfl
    have hrest : (c.revalued s f).pairsOf (c.arena.serials.erase s) =
        c.pairsOf (c.arena.serials.erase s) := by
      refine List.filterMap_congr fun t ht => ?_
      rw [get?_revalued, if_neg (h.nodup.mem_erase_iff.mp ht).1]
    show (c.revalued s f).held.Perm ((x.revalued f).pair :: _)
    rw [← hrest, ← pairsOf_cons hy]
    unfold held
    rw [serials_revalued]
    exact hperm.filterMap _

end Chain

namespace Store

open Chain

variable {ν : Type} {t t' : Store ν} {pins : Nat → Nat} {k : Key} {v : ν}

def held (t : Store ν) : List (Key × ν) := t.chain.held

def retained (t : Store ν) : List (Key × ν) := t.chain.retained

/-- What a store holds are its entries and what it retains, which it counts. -/
theorem held_spec (h : t.Sound pins) : ∃ entries, t.entries = .ok entries ∧
    t.tombstones = .ok t.retained.length ∧ t.held.Perm (entries ++ t.retained) := by
  refine ⟨_, entries_spec h, ?_, Chain.held_perm h.balanced.sound⟩
  have hlen : t.chain.len = t.chain.rows.length := h.balanced.toLinked.length_rows.symm
  have hsum := (Chain.held_perm h.balanced.sound).length_eq
  rw [List.length_append, List.length_map] at hsum
  rw [length_held h.balanced.sound] at hsum
  rw [tombstones_spec h, hsum, hlen, Nat.add_sub_cancel_left]
  rfl

/-- A whole store gives back what it holds. -/
theorem contents_perm (h : t.Sound pins) : t.contents.Perm t.held := by
  have heq := held_eq_cells h.balanced.sound
  rw [contents, held, heq]
  exact (Arena.byPlace_perm _).map _

theorem upsert_held (h : t.Sound pins) {outcome : Upsert ν} (he : t.upsert k v = .ok (outcome, t')) :
    match outcome with
    | .inserted _ => t'.held.Perm ((k, v) :: t.held)
    | .updated _ key previous => key = k ∧
      ∃ first rest, t.held.Perm ((first, previous) :: rest) ∧ t'.held.Perm ((first, v) :: rest) := by
  rw [upsert, find_spec h] at he
  cases hr : t.ledger.find? k with
  | none =>
    rw [hr] at he
    simp only [Option.map_none, bind, Except.bind, link_eq h.balanced.toLinked] at he
    cases he
    exact held_appended h.balanced.toLinked _ _ _
  | some r =>
    obtain ⟨x, hx, _, hxr⟩ := h.slot_of_find? hr
    have hu := update_of (Arena.mem_serials_of_get? hx) (Slot.revalued fun _ => v)
    rw [hr] at he
    simp only [Option.map_some, bind, Except.bind, slot_of hx] at he
    rw [show t.chain.update r.serial (fun x => { x with value := v }) = _ from hu] at he
    cases he
    obtain ⟨rest, hold, hnew⟩ := held_revalued h.balanced.sound hx fun _ => v
    exact ⟨rfl, x.key, rest, hold, hnew⟩

theorem remove_held (h : t.Sound pins) {freed : Option (Freed ν)}
    (he : t.remove k = .ok (freed, t')) : t.held.Perm ((freed.getD {}).pairs ++ t'.held) := by
  rw [remove, find_spec h] at he
  cases hr : t.ledger.find? k with
  | none =>
    rw [hr] at he
    cases he
    exact .refl _
  | some r =>
    obtain ⟨x, hx, hl, hxr⟩ := h.slot_of_find? hr
    obtain ⟨d, gone, hd, hf, _⟩ := Chain.remove_spec h.balanced hx hl
    rw [hr] at he
    simp only [Option.map_some, bind, Except.bind, hd] at he
    cases he
    have hperm := hf.held_perm (h.balanced.toLinked.unlinked hx hl).sound
    rwa [held_unlinked h.balanced.toLinked hx hl, pairsOf_unlinked h.balanced.toLinked hx hl] at hperm

theorem clear_held (h : t.Sound pins) {freed : Freed ν} (he : t.clear = .ok (freed, t')) :
    t.held.Perm (freed.pairs ++ t'.held) := by
  obtain ⟨e, d, freed', gone, hc, hemptied, hp, hf, _⟩ := Chain.clear_spec h.balanced
  rw [clear, hc] at he
  cases he
  have hperm := hf.held_perm hemptied.sound
  rwa [hemptied.held_eq, hemptied.pairsOf_eq, ← hp] at hperm

theorem advance_held {at? next : Option Nat} (h : t.Sound (pinOn at? pins)) {freed : Freed ν}
    (he : t.advance at? = .ok (next, freed, t')) : t.held.Perm (freed.pairs ++ t'.held) := by
  obtain ⟨next', d, gone, hs, _, hf, _⟩ := Chain.step_spec h.balanced
  rw [advance, hs] at he
  cases he
  exact hf.held_perm h.balanced.sound

theorem unpin_held {s : Nat} (h : t.Sound (pinOn (some s) pins)) {freed : Freed ν}
    (he : t.unpin s = .ok (freed, t')) : t.held.Perm (freed.pairs ++ t'.held) := by
  obtain ⟨d, gone, hs, hf, _⟩ := Chain.release_spec h.balanced
  rw [unpin, hs] at he
  cases he
  exact hf.held_perm h.balanced.sound

/-- What is looked up is held. -/
theorem lookup_held (h : t.Sound pins) {e : Key × ν} (he : t.lookup k = .ok (some e)) :
    e ∈ t.held := by
  rw [lookup_spec h, Except.ok.injEq] at he
  obtain ⟨r, hr, rfl⟩ := Option.map_eq_some_iff.mp he
  obtain ⟨x, hx, _, hxr⟩ := h.slot_of_find? hr
  refine List.mem_filterMap.mpr ⟨r.serial, Arena.mem_serials_of_get? hx, ?_⟩
  rw [hx, ← hxr]
  rfl

/-- What is read through a pin is what the slot has. -/
theorem pinned_eq_ok {s : Nat} {e : Key × ν} (he : t.pinned s = .ok e) :
    ∃ x, t.chain.arena.get? s = some x ∧ e = x.pair := by
  cases hx : t.chain.arena.get? s with
  | none =>
    rw [pinned, Chain.pinned, Chain.slot, hx] at he
    cases he
  | some x =>
    rw [pinned, Chain.pinned, slot_of hx] at he
    by_cases h0 : x.refs = 0 <;> simp only [bind, Except.bind, h0] at he <;> cases he
    exact ⟨x, rfl, rfl⟩

theorem pinned_held {s : Nat} {e : Key × ν} (he : t.pinned s = .ok e) : e ∈ t.held := by
  obtain ⟨x, hx, rfl⟩ := pinned_eq_ok he
  exact List.mem_filterMap.mpr ⟨s, Arena.mem_serials_of_get? hx, by rw [hx]; rfl⟩

theorem entries_held (h : t.Sound pins) {l : List (Key × ν)} (he : t.entries = .ok l) :
    ∀ e ∈ l, e ∈ t.held := by
  rw [entries_spec h, Except.ok.injEq] at he
  intro e hmem
  rw [← he] at hmem
  obtain ⟨r, hr, rfl⟩ := List.mem_map.mp hmem
  obtain ⟨x, hx, _, hxr⟩ := slot_of_row hr
  refine List.mem_filterMap.mpr ⟨r.serial, Arena.mem_serials_of_get? hx, ?_⟩
  rw [hx, ← hxr]
  rfl

end Store

end LiveOrder
