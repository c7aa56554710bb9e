import LiveOrder.Proofs.Store.Freeing

/-!
# All entries taken out

* `Slot.detached`     a removed slot that leans on nothing;
* `detachFrom_spec`   the walk along the chain reaches every live entry, and detaches it;
* `Chain.Emptied`     the chain without live entries, all slots still held;
* `Emptied.balanced`   it is in balance but for the slots that nothing refers to;
* `clear_eq`, `clear_spec`   these are freed;
* `clear_alone`       one by one, and none of them was removed before.
-/

namespace LiveOrder

namespace Slot

variable {ν : Type}

def detached (x : Slot ν) : Slot ν := { x with next := none, prev := none, removed := true }

/-- A live slot is detached, a removed one stays as it is. -/
def emptied (x : Slot ν) : Slot ν := if x.removed then x else x.detached

theorem removed_emptied (x : Slot ν) : x.emptied.removed = true := by
  unfold emptied
  split
  · assumption
  · rfl

theorem refs_emptied (x : Slot ν) : x.emptied.refs = x.refs := by
  unfold emptied
  split <;> rfl

theorem pair_emptied (x : Slot ν) : x.emptied.pair = x.pair := by
  unfold emptied
  split <;> rfl

theorem prev_emptied {x : Slot ν} {p : Nat} :
    x.emptied.prev = some p ↔ x.removed = true ∧ x.prev = some p := by
  unfold emptied
  split
  · simp [*]
  · simp [*, detached]

theorem leansOn_emptied (s : Nat) (x : Slot ν) : x.emptied.leansOn s = x.leansOn s := by
  rw [Bool.eq_iff_iff, leansOn_iff, leansOn_iff, removed_emptied, prev_emptied]
  simp

end Slot

namespace Chain

variable {ν : Type} {c d : Chain ν} {pins : Nat → Nat} {idle gone : List Nat} {s : Nat}
  {x : Slot ν}

/-! ## the walk -/

/-- The live slots of a chain up to a position are detached in the arena, the others are as they
were. -/
structure DetachedTo (c : Chain ν) (b : Option Nat) (a : Arena (Slot ν)) : Prop where
  sound : a.Sound
  trims : c.arena.Trims a
  serials : a.serials = c.arena.serials
  fresh : a.fresh = c.arena.fresh
  get? : ∀ {s x}, c.arena.get? s = some x →
    a.get? s = some (if After b s then x else x.emptied)

theorem DetachedTo.start (h : c.Linked) : c.DetachedTo none c.arena where
  sound := h.sound
  trims := .refl _
  serials := rfl
  fresh := rfl
  get? {s x} hx := by
    have hs : After none s := trivial
    rw [hx, if_pos hs]

theorem DetachedTo.next {b : Option Nat} {a : Arena (Slot ν)} (ha : c.DetachedTo b a)
    (hb : FirstAfter c.Live b (some s)) :
    c.DetachedTo (some s) (a.modify s Slot.detached) where
  sound := ha.sound.modify _ _
  trims := ha.trims.trans (.modify _ _ _)
  serials := by rw [Arena.serials_modify, ha.serials]
  fresh := ha.fresh
  get? {t y} hy := by
    obtain ⟨hs, hbs, hmin⟩ := hb
    rw [Arena.get?_modify, ha.get? hy]
    by_cases ht : t = s
    · subst ht
      have hl := (live_iff_of_get? hy).mp hs
      have hst : ¬After (some t) t := Nat.lt_irrefl t
      rw [if_pos rfl, if_pos hbs, if_neg hst, Slot.emptied, hl]
      rfl
    · rw [if_neg ht]
      by_cases hst : s < t
      · have hbt : After b t := hbs.trans hst
        have hst' : After (some s) t := hst
        rw [if_pos hbt, if_pos hst']
      · have hst' : ¬After (some s) t := hst
        rw [if_neg hst']
        by_cases hbt : After b t
        · -- between the two positions there are only removed slots
          have hr : y.removed = true := by
            refine removed_of_not_live hy fun hlive => ?_
            have hle := hmin t hlive hbt
            omega
          rw [if_pos hbt, Slot.emptied, if_pos hr]
        · rw [if_neg hbt]

theorem DetachedTo.finish {b : Option Nat} {a : Arena (Slot ν)} (ha : c.DetachedTo b a)
    (hb : FirstAfter c.Live b none) (hx : c.arena.get? s = some x) :
    a.get? s = some x.emptied := by
  rw [ha.get? hx]
  by_cases hbs : After b s
  · have hr := removed_of_not_live hx fun hlive => hb s hlive hbs
    rw [if_pos hbs, Slot.emptied, if_pos hr]
  · rw [if_neg hbs]

theorem detachFrom_spec (h : c.Linked) (n : Nat) (b cur : Option Nat) (e : Chain ν)
    (he : c.DetachedTo b e.arena) (hcur : FirstAfter c.Live b cur)
    (hn : c.arena.beyond b ≤ n) :
    ∃ b' a, detachFrom n e cur = .ok { e with arena := a } ∧ c.DetachedTo b' a ∧
      FirstAfter c.Live b' none := by
  induction n generalizing b cur e with
  | zero =>
    cases cur with
    | none => exact ⟨b, e.arena, by cases e; rfl, he, hcur⟩
    | some s =>
      have hlt := Arena.beyond_lt hcur.1.mem hcur.2.1
      omega
  | succ n ih =>
    cases cur with
    | none => exact ⟨b, e.arena, by cases e; rfl, he, hcur⟩
    | some s =>
      obtain ⟨x, hx, hl⟩ := hcur.1
      have hxe : e.arena.get? s = some x := by rw [he.get? hx, if_pos hcur.2.1]
      have hlt := Arena.beyond_lt hcur.1.mem hcur.2.1
      obtain ⟨b', a, ha, hrest⟩ := ih (some s) x.next
        { e with arena := e.arena.modify s Slot.detached } (he.next hcur) (h.next hx hl) (by omega)
      refine ⟨b', a, ?_, hrest⟩
      rw [detachFrom, slot_of hxe]
      simp only [bind, Except.bind]
      rw [update_of (Arena.mem_serials_of_get? hxe)]
      exact ha

/-! ## the chain without live entries -/

/-- One chain is another one without its live entries, every slot still held. -/
structure Emptied (c d : Chain ν) : Prop where
  sound : d.arena.Sound
  trims : c.arena.Trims d.arena
  serials : d.arena.serials = c.arena.serials
  fresh : d.arena.fresh = c.arena.fresh
  head : d.head = none
  tail : d.tail = none
  len : d.len = 0
  get? : ∀ {s x}, c.arena.get? s = some x → d.arena.get? s = some x.emptied

namespace Emptied

theorem before (h : c.Emptied d) {y : Slot ν} (hy : d.arena.get? s = some y) :
    ∃ x, c.arena.get? s = some x ∧ y = x.emptied := by
  have hm := Arena.mem_serials_of_get? hy
  rw [h.serials] at hm
  obtain ⟨x, hx⟩ := Arena.exists_get?_of_mem hm
  rw [h.get? hx, Option.some.injEq] at hy
  exact ⟨x, hx, hy.symm⟩

theorem not_live (h : c.Emptied d) (s : Nat) : ¬d.Live s := by
  rintro ⟨y, hy, hl⟩
  obtain ⟨x, _, rfl⟩ := h.before hy
  rw [x.removed_emptied] at hl
  cases hl

theorem leaning_eq (h : c.Emptied d) (hc : c.arena.Sound) (s : Nat) :
    d.leaning s = c.leaning s := by
  refine Arena.count_congr h.sound hc fun t => ?_
  constructor
  · rintro ⟨y, hy, hl⟩
    obtain ⟨x, hx, rfl⟩ := h.before hy
    exact ⟨x, hx, by rwa [Slot.leansOn_emptied] at hl⟩
  · rintro ⟨x, hx, hl⟩
    exact ⟨_, h.get? hx, by rwa [Slot.leansOn_emptied]⟩

theorem pairsOf_eq (h : c.Emptied d) (l : List Nat) : d.pairsOf l = c.pairsOf l := by
  refine List.filterMap_congr fun s _ => ?_
  cases hx : c.arena.get? s with
  | none =>
    have hm : s ∉ d.arena.serials := by
      rw [h.serials]
      exact Arena.get?_eq_none_iff.mp hx
    rw [Arena.get?_eq_none_iff.mpr hm]
  | some x =>
    rw [h.get? hx]
    exact congrArg some x.pair_emptied

theorem balanced (h : c.Emptied d) (hc : c.Balanced pins [])
    (hidle : ∀ s y, d.arena.get? s = some y → y.refs = 0 → s ∈ idle) : d.Balanced pins idle where
  sound := h.sound
  head := by
    rw [h.head]
    exact fun q hq => absurd hq (h.not_live q)
  tail := by
    rw [h.tail]
    exact fun q hq => absurd hq (h.not_live q)
  len := by
    rw [h.len]
    by_contra hne
    have hpos := Nat.pos_of_ne_zero (Ne.symm hne)
    obtain ⟨s, y, hy, hl⟩ := (Arena.count_pos_iff h.sound).mp hpos
    rw [Bool.not_eq_true'] at hl
    exact h.not_live s ⟨y, hy, hl⟩
  next hy hl := absurd ⟨_, hy, hl⟩ (h.not_live _)
  prev hy hl := absurd ⟨_, hy, hl⟩ (h.not_live _)
  back {s y p} hy _ hp := by
    obtain ⟨x, hx, rfl⟩ := h.before hy
    obtain ⟨hr, hp⟩ := Slot.prev_emptied.mp hp
    rw [h.serials]
    exact hc.back hx hr hp
  gap _ _ hq _ := absurd hq (h.not_live _)
  counted {s y} hy := by
    obtain ⟨x, hx, rfl⟩ := h.before hy
    rw [h.leaning_eq hc.sound, x.refs_emptied]
    exact hc.counted hx
  kept {s y} hy _ hs := by
    by_contra hne
    exact hs (hidle s y hy (by omega))
  pinned hs := by
    rw [h.serials]
    exact hc.pinned hs

end Emptied

/-! ## freeing what is idle -/

theorem reclaimEach_spec (idle rest : List Nat) (c : Chain ν) (hb : c.Balanced pins (idle ++ rest))
    (hw : ∀ s ∈ idle, c.Waits s) :
    ∃ d freed gone, reclaimEach c idle = .ok (d, freed) ∧ freed.pairs = c.pairsOf gone ∧
      Frees c d gone ∧ d.Balanced pins rest ∧ ∀ s, c.Waits s → d.Waits s := by
  induction idle generalizing c with
  | nil => exact ⟨c, {}, [], rfl, rfl, Frees.refl hb.sound, hb, fun _ hs => hs⟩
  | cons s idle ih =>
    have hrest : ∀ t ∈ idle, c.Waits t := fun t ht => hw t (List.mem_cons_of_mem _ ht)
    cases hx : c.arena.get? s with
    | none =>
      obtain ⟨d, freed, gone, he, hspec⟩ := ih c (hb.settle fun x hx' => by
        rw [hx] at hx'
        cases hx') hrest
      refine ⟨d, freed, gone, ?_, hspec⟩
      rw [reclaimEach, hx]
      exact he
    | some x =>
      obtain ⟨hr, h0⟩ := hw s List.mem_cons_self x hx
      obtain ⟨d, gone, he, hf, hd, hwd⟩ := reclaim_spec hb hx hr h0
      obtain ⟨d', freed, gone', he', hp', hf', hd', hwd'⟩ :=
        ih d hd fun t ht => hwd t (hrest t ht)
      refine ⟨d', .ofCascade (c.pairsOf gone) ++ freed, gone ++ gone', ?_, ?_,
        hf.toFrees.trans hf', hd', fun t ht => hwd' t (hwd t ht)⟩
      · rw [reclaimEach, hx]
        simp only [Option.isSome_some, if_true, bind, Except.bind]
        rw [he]
        dsimp only
        rw [he']
        rfl
      · have hgone : ∀ t ∈ gone', t ∉ gone := fun t ht =>
          ((hf.mem_serials_iff t).mp ((hf'.mem_gone_iff t).mp ht).1).2
        show c.pairsOf gone ++ freed.pairs = _
        rw [hp', hf.pairsOf_eq hgone, pairsOf_append]

/-- Slots that lean on nothing are freed one by one, and nothing is reported of it. -/
theorem reclaimEach_alone (idle : List Nat) (c : Chain ν) (hb : c.Balanced pins idle)
    (hn : idle.Nodup) (hw : ∀ s ∈ idle, ∃ x, c.arena.get? s = some x ∧ x.removed = true ∧
      x.refs = 0 ∧ x.prev = none) :
    ∃ d, reclaimEach c idle = .ok (d, ⟨c.pairsOf idle, []⟩) ∧ Frees c d idle := by
  induction idle generalizing c with
  | nil => exact ⟨c, rfl, Frees.refl hb.sound⟩
  | cons s idle ih =>
    obtain ⟨x, hx, hr, h0, hp⟩ := hw s List.mem_cons_self
    obtain ⟨hs, hn⟩ := List.nodup_cons.mp hn
    obtain ⟨he, hd⟩ := reclaim_alone hb hx hr h0 fun p hp' => by
      rw [hp] at hp'
      cases hp'
    have hf := frees_unheld hb.sound hx hr
    obtain ⟨d, he', hf'⟩ := ih (c.unheld s x) hd hn fun t ht => by
      have hts : t ≠ s := fun e => hs (e ▸ ht)
      rw [get?_unheld, if_neg hts, hp, if_neg nofun]
      exact hw t (List.mem_cons_of_mem _ ht)
    refine ⟨d, ?_, hf.trans hf'⟩
    have hpairs : (c.unheld s x).pairsOf idle = c.pairsOf idle := by
      refine hf.pairsOf_eq fun t ht hts => ?_
      exact hs (List.mem_singleton.mp hts ▸ ht)
    rw [reclaimEach, hx]
    simp only [Option.isSome_some, if_true, bind, Except.bind]
    rw [he]
    dsimp only
    rw [he', hpairs, pairsOf_cons hx]
    rfl

/-! ## the whole clearing -/

/-- The slots without references, in the order of their places. -/
def idleSlots (c : Chain ν) : List Nat :=
  (c.arena.byPlace.filter fun x => x.item.refs = 0).map (·.serial)

theorem mem_idleSlots_iff (h : c.arena.Sound) :
    s ∈ c.idleSlots ↔ ∃ x, c.arena.get? s = some x ∧ x.refs = 0 := by
  simp only [idleSlots, List.mem_map, List.mem_filter, decide_eq_true_eq]
  constructor
  · rintro ⟨cell, ⟨hm, h0⟩, rfl⟩
    refine ⟨cell.item, h.get?_eq_some_iff.mpr ⟨cell, ?_, rfl, rfl⟩, h0⟩
    exact c.arena.byPlace_perm.mem_iff.mp hm
  · rintro ⟨x, hx, h0⟩
    obtain ⟨cell, hm, hs, rfl⟩ := h.get?_eq_some_iff.mp hx
    exact ⟨cell, ⟨c.arena.byPlace_perm.mem_iff.mpr hm, h0⟩, hs⟩

theorem nodup_idleSlots (h : c.arena.Sound) : c.idleSlots.Nodup := by
  have hplaces : (c.arena.byPlace.map (·.serial)).Nodup :=
    (c.arena.byPlace_perm.map _).nodup_iff.mpr h.nodup
  exact (List.filter_sublist.map _).nodup hplaces

/-- All entries are detached first; then what nothing refers to is freed. -/
theorem clear_eq (h : c.Linked) :
    ∃ e, detachFrom c.arena.size { c with head := none, tail := none, len := 0 } c.head = .ok e ∧
      c.Emptied e ∧ c.clear = (e.reclaimEach e.idleSlots).map fun r =>
        (r.1, r.2 ++ ⟨[], [.cleared c.len r.1.arena.size]⟩) := by
  let start : Chain ν := { c with head := none, tail := none, len := 0 }
  obtain ⟨b, a, hwalk, ha, hb⟩ := detachFrom_spec h c.arena.size none c.head start
    (.start h) h.head (c.arena.beyond_le_size none)
  refine ⟨{ start with arena := a }, hwalk, ⟨ha.sound, ha.trims, ha.serials, ha.fresh, rfl, rfl, rfl,
    ha.finish hb⟩, ?_⟩
  rw [clear]
  simp only [bind, Except.bind]
  rw [hwalk]
  dsimp only [idleSlots]
  cases reclaimEach _ _ <;> rfl

/-- The slots to be freed wait for it. -/
theorem Emptied.waits (h : c.Emptied d) : ∀ s ∈ d.idleSlots, d.Waits s := by
  intro s hs y hy
  obtain ⟨z, hz, h0⟩ := (mem_idleSlots_iff h.sound).mp hs
  rw [hy, Option.some.injEq] at hz
  exact ⟨removed_of_not_live hy (h.not_live s), hz ▸ h0⟩

theorem Emptied.balanced_idle (h : c.Emptied d) (hc : c.Balanced pins []) :
    d.Balanced pins d.idleSlots :=
  h.balanced hc fun _ y hy h0 => (mem_idleSlots_iff h.sound).mpr ⟨y, hy, h0⟩

theorem clear_spec (h : c.Balanced pins []) :
    ∃ e d freed gone, c.clear = .ok (d, freed) ∧ c.Emptied e ∧ freed.pairs = c.pairsOf gone ∧
      Frees e d gone ∧ d.Balanced pins [] := by
  obtain ⟨e, _, he, hclear⟩ := clear_eq h.toLinked
  have hbal := he.balanced_idle h
  rw [← List.append_nil e.idleSlots] at hbal
  obtain ⟨d, freed, gone, hr, hp, hf, hd, _⟩ := reclaimEach_spec e.idleSlots [] e hbal he.waits
  refine ⟨e, d, freed ++ ⟨[], [.cleared c.len d.arena.size]⟩, gone, ?_, he, ?_, hf, hd⟩
  · rw [hclear, hr]
    rfl
  · show freed.pairs ++ [] = _
    rw [List.append_nil, hp, he.pairsOf_eq]

/-- What a clearing frees was live until then: a slot removed before is referred to. -/
theorem Emptied.live_of_idle (h : c.Emptied d) (hc : c.Balanced pins []) (hs : s ∈ d.idleSlots) :
    ∃ x, c.arena.get? s = some x ∧ x.removed = false ∧ x.refs = 0 := by
  obtain ⟨y, hy, h0⟩ := (mem_idleSlots_iff h.sound).mp hs
  obtain ⟨x, hx, rfl⟩ := h.before hy
  rw [x.refs_emptied] at h0
  refine ⟨x, hx, Bool.eq_false_iff.mpr fun hr => ?_, h0⟩
  have hpos := hc.kept hx hr List.not_mem_nil
  omega

/-- A clearing frees one by one the entries that nothing refers to, and reports itself only. -/
theorem clear_alone (h : c.Balanced pins []) :
    ∃ e d, c.Emptied e ∧ Frees e d e.idleSlots ∧
      c.clear = .ok (d, ⟨c.pairsOf e.idleSlots, [.cleared c.len d.arena.size]⟩) := by
  obtain ⟨e, _, he, hclear⟩ := clear_eq h.toLinked
  obtain ⟨d, hr, hf⟩ := reclaimEach_alone e.idleSlots e (he.balanced_idle h) (nodup_idleSlots he.sound)
    fun s hs => by
      obtain ⟨x, hx, hl, h0⟩ := he.live_of_idle h hs
      have hemptied : x.emptied = x.detached := by simp [Slot.emptied, hl]
      refine ⟨x.emptied, he.get? hx, x.removed_emptied, x.refs_emptied.trans h0, ?_⟩
      rw [hemptied]
      rfl
  refine ⟨e, d, he, hf, ?_⟩
  rw [hclear, hr, he.pairsOf_eq]
  simp only [Except.map, HAppend.hAppend, Append.append, Freed.append]
  simp

end Chain

end LiveOrder
