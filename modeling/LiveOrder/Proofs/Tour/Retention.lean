import LiveOrder.Proofs.Store.Dates
import LiveOrder.Proofs.Tour.Refinement

/-!
# Retention

Which removed entries a store still holds is a matter of history: of when each entry was removed,
and of where the cursors are.  No link and no count need be known.

* `History`   an itinerary with the date at which each row went away;
* `History.Retained`   a removed entry that is pinned itself, or that a pinned removed entry after it
                 needs;
* `Tour.Records`   a tour and its history;
* `Tour.retention`   after every run exactly the retained entries are held, and every command hands
                 back exactly what is no longer held after it.
-/

namespace LiveOrder

variable {ν : Type}

def Ledger.has (l : Ledger ν) (s : Nat) : Prop := s ∈ l.rows.map (·.serial)

instance (l : Ledger ν) (s : Nat) : Decidable (l.has s) :=
  inferInstanceAs (Decidable (s ∈ l.rows.map (·.serial)))

/-! ## histories -/

structure History (ν : Type) where
  itinerary : Itinerary ν
  /-- the number of commands so far -/
  clock : Nat
  /-- the command that removed an entry -/
  removedAt : Nat → WithTop Nat

namespace History

def start : History ν := ⟨.start, 0, fun _ => ⊤⟩

def step (h : History ν) (c : Command ν) : History ν :=
  let next := (h.itinerary.step c).2
  { itinerary := next
    clock := h.clock + 1
    removedAt := fun s =>
      if h.itinerary.ledger.has s ∧ ¬next.ledger.has s then (h.clock : WithTop Nat)
      else h.removedAt s }

/-- The history of a sequence of commands. -/
def of (commands : List (Command ν)) : History ν := commands.foldl step start

def Removed (h : History ν) (s : Nat) : Prop := h.removedAt s ≠ ⊤

/-- A cursor is parked on the entry, or was abandoned there. -/
def Pinned (h : History ν) (s : Nat) : Prop :=
  .parked s ∈ h.itinerary.cursors ∨ .abandoned s ∈ h.itinerary.cursors

def Retained (h : History ν) (e : Nat) : Prop :=
  h.Pinned e ∨ ∃ t, e < t ∧ h.Pinned t ∧ h.Removed t ∧
    ∀ x, e < x → x ≤ t → h.removedAt x < h.removedAt e

theorem pinned_iff (h : History ν) (s : Nat) :
    h.Pinned s ↔ 0 < pinsOf h.itinerary.cursors s := by
  rw [pinsOf, List.countP_pos_iff]
  constructor
  · rintro (hm | hm)
    · exact ⟨_, hm, decide_eq_true rfl⟩
    · exact ⟨_, hm, decide_eq_true rfl⟩
  · rintro ⟨p, hm, hp⟩
    rw [decide_eq_true_eq] at hp
    cases p with
    | unstarted => cases hp
    | finished => cases hp
    | parked u => exact .inl (Option.some.inj hp ▸ hm)
    | abandoned u => exact .inr (Option.some.inj hp ▸ hm)

end History

/-! ## tours and their histories -/

namespace Tour

open Chain

variable {t t' : Tour ν} {h : History ν}

structure Records (t : Tour ν) (h : History ν) : Prop where
  sound : t.Sound
  itinerary : t.itinerary = h.itinerary
  dated : t.store.chain.Dated h.clock h.removedAt

theorem records_start (hasher : Token → UInt64) : (start hasher : Tour ν).Records .start where
  sound := sound_start hasher
  itinerary := rfl
  dated :=
    { undated := fun s => ⟨fun _ => .inr (Nat.zero_le s), fun _ => rfl⟩
      past := fun _ hs => absurd rfl hs
      links := fun hx => by cases hx }

theorem has_iff_live (t : Tour ν) (s : Nat) : t.itinerary.ledger.has s ↔ t.store.chain.Live s :=
  mem_rows_serials

/-- The rows that go away are the entries that are live no more. -/
theorem Records.redated (hr : t.Records h) {c : Command ν}
    (hi : t'.itinerary = (h.itinerary.step c).2) :
    Redated t.store.chain t'.store.chain h.clock h.removedAt (h.step c).removedAt where
  now s hs hn := by
    have hgone : h.itinerary.ledger.has s ∧ ¬(h.itinerary.step c).2.ledger.has s := by
      rw [← hi, ← hr.itinerary, has_iff_live, has_iff_live]
      exact ⟨hs, hn⟩
    exact if_pos hgone
  same s hs := by
    have hstays : ¬(h.itinerary.ledger.has s ∧ ¬(h.itinerary.step c).2.ledger.has s) := by
      rw [← hi, ← hr.itinerary, has_iff_live, has_iff_live]
      rintro ⟨hl, hn⟩
      exact hs.elim (fun hnl => hnl hl) hn
    exact if_neg hstays

theorem Records.step (hr : t.Records h) {c : Command ν} {freed : Freed ν}
    (ht : t.Took c freed t') : t'.Records (h.step c) where
  sound := ht.sound
  itinerary := by
    rw [ht.itinerary, hr.itinerary]
    rfl
  dated := by
    obtain ⟨gone, hchange, _⟩ := ht.change
    refine hchange.dated hr.sound.balanced.toLinked hr.dated (hr.redated ?_)
    rw [ht.itinerary, hr.itinerary]

theorem Records.run (hr : t.Records h) (commands : List (Command ν)) :
    ∃ replies t', t.run commands = .ok (replies, t') ∧ t'.Records (commands.foldl .step h) := by
  induction commands generalizing t h with
  | nil => exact ⟨[], t, rfl, hr⟩
  | cons c rest ih =>
    obtain ⟨freed, t', he, ht⟩ := step_spec hr.sound c
    obtain ⟨replies, t'', he', hr'⟩ := ih (hr.step ht)
    refine ⟨(t.itinerary.step c).1 :: replies, t'', ?_, hr'⟩
    rw [Tour.run, he]
    simp only [bind, Except.bind]
    rw [he']
    rfl

/-! ## the law -/

theorem Records.held_iff (hr : t.Records h) {e : Nat} (he : h.Removed e) :
    e ∈ t.store.chain.arena.serials ↔ h.Retained e := by
  have hpins : ∀ s, h.Pinned s ↔ 0 < t.pins s := by
    intro s
    rw [h.pinned_iff, ← hr.itinerary]
    rfl
  rw [hr.dated.held_iff hr.sound.balanced he]
  simp only [History.Retained, History.Removed, hpins]

/-- Without pins nothing is held but what is live. -/
theorem Records.tombstones (hr : t.Records h) (hp : ∀ s, ¬h.Pinned s) :
    t.store.tombstones = .ok 0 := by
  refine Store.tombstones_of_unpinned hr.sound fun s => ?_
  have hs := mt (h.pinned_iff s).mpr (hp s)
  rw [← hr.itinerary] at hs
  exact Nat.eq_zero_of_not_pos hs

/-- **Exact retention.**  After every run the store holds exactly those removed entries that its
history retains, and none if nothing is pinned; and whatever the next command is, it hands back the
pairs that are held before it and not after it, each once. -/
theorem retention (hasher : Token → UInt64) (commands : List (Command ν)) :
    ∃ replies t, (start hasher).run commands = .ok (replies, t) ∧
      (∀ e, (History.of commands).Removed e →
        (e ∈ t.store.chain.arena.serials ↔ (History.of commands).Retained e)) ∧
      ((∀ e, ¬(History.of commands).Pinned e) → t.store.tombstones = .ok 0) ∧
      ∀ c, ∃ reply freed t', t.step c = .ok (reply, freed, t') ∧
        freed.pairs.Perm (t.store.chain.pairsOf (t.store.chain.lost t'.store.chain)) := by
  obtain ⟨replies, t, he, hr⟩ := (records_start hasher).run commands
  refine ⟨replies, t, he, fun e h => hr.held_iff h, hr.tombstones, fun c => ?_⟩
  obtain ⟨freed, t', hstep, ht⟩ := step_spec hr.sound c
  obtain ⟨gone, hchange, hpairs⟩ := ht.change
  refine ⟨_, freed, t', hstep, ?_⟩
  rw [hpairs]
  exact hchange.pairs_perm hr.sound.balanced.sound

end Tour

end LiveOrder
