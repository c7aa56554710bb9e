import LiveOrder.Proofs.Tour.Refinement
import LiveOrder.Proofs.World.Interrupted
import LiveOrder.Proofs.World.Released

/-!
# Stored keys

A key is stored in its stored form when an entry is made for it, and is the key of that entry as long as
anybody can read it.

* `Key.NegativeZero`      the keys that no map stores;
* `StoredAsGiven`         at one time, every entry has the stored form of the one key that it was made for,
                          and so has the entry that a cursor is parked on, be it removed or not;
* `upsert_registers`      an operation that makes an entry puts on record which key it was given;
* `advance_yields`        a step of a cursor yields the stored key, and no other;
* `Store.keys_renewed`    an entry keeps its key, and one that is made after a removal takes the new one;
* `stored_keys`           all of this in every run.
-/

namespace LiveOrder

/-! ## signs of zeros -/

namespace Number

theorem positiveZero_ne_negative (b : UInt64) : positiveZero b ≠ 0x8000000000000000 := by
  unfold positiveZero
  split
  · decide
  · rename_i hb
    rintro rfl
    exact hb (by decide)

theorem positiveZero32_ne_negative (b : UInt32) : positiveZero32 b ≠ 0x80000000 := by
  unfold positiveZero32
  split
  · decide
  · rename_i hb
    rintro rfl
    exact hb (by decide)

end Number

namespace Key

/-- A zero with a sign.  What a reference refers to does not count. -/
def NegativeZero : Key → Prop
  | .double bits | .value (.number bits) => bits = 0x8000000000000000
  | .single bits => bits = 0x80000000
  | _ => False

theorem not_negativeZero_canonical (k : Key) : ¬k.canonical.NegativeZero := by
  cases k with
  | double bits => exact Number.positiveZero_ne_negative bits
  | single bits => exact Number.positiveZero32_ne_negative bits
  | value v =>
    cases v with
    | number bits => exact Number.positiveZero_ne_negative bits
    | _ => exact id
  | _ => exact id

end Key

/-- What a key is stored as: in a set as given, and in a map in its canonical form, which is no zero with a
sign. -/
structure Kind.Stores (kind : Kind) (given k : Key) : Prop where
  set : kind.isSet = true → k = given
  map : kind.isSet = false → k = given.canonical ∧ ¬k.NegativeZero

theorem Kind.stores_storedKey (kind : Kind) (given : Key) : kind.Stores given (kind.storedKey given) where
  set h := if_pos h
  map h := by
    rw [storedKey, h, if_neg Bool.false_ne_true]
    exact ⟨rfl, given.not_negativeZero_canonical⟩

/-- The keys that the user of a cursor is given. -/
def Yield.keys : Yield → List Key
  | .key k | .entry k _ => [k]
  | .item _ => []
  | .twice a b => [a, b]

/-! ## at one time -/

/-- Every entry, be it live or kept for a cursor, was made for one key, which is stored for it.  The entry
that a cursor is parked on can be read. -/
structure StoredAsGiven (origins : List Origin) (m : Moment) : Prop where
  entries : ∀ r c, containerAt? m.objects r = some c → ∀ s x, c.store.chain.arena.get? s = some x →
    ∃ given, (⟨r, s, given⟩ : Origin) ∈ origins ∧
      (∀ k, (⟨r, s, k⟩ : Origin) ∈ origins → k = given) ∧ c.kind.Stores given x.key
  parked : ∀ id r s, Table.get? id m.walks = some ⟨some r, some s⟩ →
    ∃ c x, containerAt? m.objects r = some c ∧ c.store.chain.arena.get? s = some x ∧
      c.store.pinned s = .ok x.pair

/-- An entry is on record once. -/
theorem Registered.given_eq {cells : Objects} {fresh r s : Nat} {moments : List Moment}
    {origins : List Origin} {given k : Key} (h : Registered cells fresh moments origins)
    (hgiven : ⟨r, s, given⟩ ∈ origins) (hk : ⟨r, s, k⟩ ∈ origins) : k = given :=
  congrArg Origin.given (List.inj_on_of_nodup_map h.once hk hgiven rfl)

theorem Walk.Readable.pinned {x : Walk} {objects : Objects} {r s : Nat} (h : x.Readable objects)
    (hr : x.store = some r) (hs : x.last = some s) :
    ∃ c y, containerAt? objects r = some c ∧ c.store.chain.arena.get? s = some y ∧
      c.store.pinned s = .ok y.pair := by
  obtain ⟨c, _, _, _, _, hc, _, hread, _⟩ := h r hr
  obtain ⟨e, he⟩ := hread s hs
  obtain ⟨y, hy, rfl⟩ := Store.pinned_eq_ok he
  exact ⟨c, y, hc, hy, he⟩

/-- A run is registered whenever user code ran, and now. -/
theorem World.InOrder.storedAsGiven {w : World} {hands : Hands} (hw : w.InOrder hands) :
    ∀ m ∈ w.moment :: w.moments, StoredAsGiven w.origins m := by
  intro m hm
  have hregistered : ∀ {r c}, containerAt? m.objects r = some c → c.Registered r w.origins := by
    rcases List.mem_cons.mp hm with rfl | hm
    · exact hw.registered.now
    · exact hw.registered.past m hm
  have hreadable : ∀ {id x}, Table.get? id m.walks = some x → x.Readable m.objects := by
    rcases List.mem_cons.mp hm with rfl | hm
    · exact hw.readable
    · exact (hw.moments m hm).walking
  refine ⟨fun r c hc s x hx => ?_, fun id r s hrow => (hreadable hrow).pinned rfl rfl⟩
  obtain ⟨given, ho, hkey⟩ := hregistered hc s x hx
  exact ⟨given, ho, fun k hk => hw.registered.given_eq ho hk, hkey ▸ c.kind.stores_storedKey given⟩

namespace World

open Act Table

variable {run : Runner} {w v : World} {others : Hands} {r s id : Nat} {last : Option Nat}
  {kind : Kind} {selection : Selection} {y : Yield} {c : Container} {k : Key} {i : Item}

/-! ## entries that are made -/

theorem upsert_registers (hrun : run.Safe) {q : Query} {item : Item} {outcome : Upsert Item}
    (hw : w.InOrder (others + (handles q.key.refs + item.offered))) (hr : .handle r ∈ others)
    (h : upsert run r q item w = (.ok outcome, v)) : outcome.origins r q.key <+: v.origins := by
  have hhas : w.Has r := hw.exists_of_mem (Multiset.mem_add.mpr (.inl hr))
  rcases beginExclusive_cases hhas with ⟨c, hc, ha⟩ | ⟨e, _, he⟩
  · obtain ⟨u, _, _, _, _, _, _, _, rfl⟩ := upsert_ok hrun hw hr hc ha h
    exact List.prefix_append _ u.origins
  · rw [upsert, exclusivelyOr, bind_apply, onFailure_apply, he] at h
    cases h

/-! ## what a cursor yields -/

theorem copyKey_eq_ok {k' : Key} (h : copyKey k w = (.ok k', v)) : k' = k := by
  obtain ⟨_, _, _, hdone⟩ := bind_eq_ok.mp h
  cases hdone
  rfl

theorem copyEntry_keys (h : copyEntry run kind selection k i w = (.ok y, v)) : ∀ k' ∈ y.keys, k' = k := by
  have hkey : (do pure (Yield.key (← copyKey k)) : Act Yield) w = (.ok y, v) → ∀ k' ∈ y.keys, k' = k := by
    intro h k' hk'
    obtain ⟨a, _, ha, hdone⟩ := bind_eq_ok.mp h
    cases hdone
    rw [List.mem_singleton.mp hk', copyKey_eq_ok ha]
  have htwice : (do
      let a ← copyKey k
      let b ← copyKey k
      pure (Yield.twice a b) : Act Yield) w = (.ok y, v) → ∀ k' ∈ y.keys, k' = k := by
    intro h k' hk'
    obtain ⟨a, _, ha, h⟩ := bind_eq_ok.mp h
    obtain ⟨b, _, hb, hdone⟩ := bind_eq_ok.mp h
    cases hdone
    rcases List.mem_pair.mp hk' with rfl | rfl
    · exact copyKey_eq_ok ha
    · exact copyKey_eq_ok hb
  have hitem : (do pure (Yield.item (← copyItem run i)) : Act Yield) w = (.ok y, v) →
      ∀ k' ∈ y.keys, k' = k := by
    intro h k' hk'
    obtain ⟨_, _, _, hdone⟩ := bind_eq_ok.mp h
    cases hdone
    cases hk'
  have hentry : (do
      let k ← copyKey k
      let i ← Act.onFailure (copyItem run i) (discard run [.key k])
      pure (Yield.entry k i) : Act Yield) w = (.ok y, v) → ∀ k' ∈ y.keys, k' = k := by
    intro h k' hk'
    obtain ⟨a, _, ha, h⟩ := bind_eq_ok.mp h
    obtain ⟨_, _, _, hdone⟩ := bind_eq_ok.mp h
    cases hdone
    rw [List.mem_singleton.mp hk', copyKey_eq_ok ha]
  unfold copyEntry at h
  split at h
  · exact htwice h
  · exact htwice h
  · exact hkey h
  · exact hkey h
  · exact hkey h
  · exact hkey h
  · exact hitem h
  · exact hentry h

theorem copyAt_keys (hc : containerAt? w.cells r = some c) (hread : c.store.pinned s = .ok (k, i))
    (h : copyAt run r kind selection s w = (.ok y, v)) : ∀ k' ∈ y.keys, k' = k := by
  rw [copyAt] at h
  cases ha : c.access with
  | exclusive =>
    have hbegin : beginShared r w = (.error .conflict, w) := by
      rw [beginShared, bind_of_ok (container_eq hc), ha]
      rfl
    rw [sharing, bind_apply, hbegin] at h
    cases h
  | shared n =>
    rw [sharing_eq hc ha] at h
    obtain ⟨u, hbody, _⟩ := always_eq_ok.mp h
    have hopen := containerAt?_changed hc (c.beingRead n)
    rw [bind_of_ok (readStore_eq hopen hread)] at hbody
    exact copyEntry_keys hbody

/-- A step that comes to an entry yields the key that is stored there, and no other. -/
theorem advance_yields (hrun : run.Safe) (hw : w.InOrder (others + cursorAt id (some ⟨some r, last⟩)))
    (h : advance run id kind selection w = (.ok (some y), v)) :
    ∃ c s given, containerAt? v.cells r = some c ∧ get? id v.walks = some ⟨some r, some s⟩ ∧
      (⟨r, s, given⟩ : Origin) ∈ v.origins ∧ ∀ k ∈ y.keys, c.kind.Stores given k := by
  obtain ⟨next, u, hdepart, hland, hyields, _, hlanded⟩ := advance_landed hrun hw h
  cases next with
  | none => cases hyields.mpr rfl
  | some s =>
    obtain ⟨hu, _⟩ := (depart_owns hrun last).holding_of_ok (Multiset.zero_subset others) hw hdepart
    have hu' : u.InOrder (others + cursorAt id (some ⟨some r, none⟩) + pinAt r (some s)) :=
      hu.of_eq (add_assoc _ _ _)
    have hrow : get? id u.walks = some ⟨some r, none⟩ := hu.known (by simp)
    obtain ⟨d, hd⟩ := Option.isSome_iff_exists.mp (hu.walking hrow rfl)
    obtain ⟨x, hx, hread, _⟩ := pinned_of_hand hu' hd
    obtain ⟨given, ho, hkey⟩ := hu.registered.now hd s x hx
    -- the entry is read when the cursor has landed, and the copy of the key is made at once
    obtain ⟨_, _, hset, hcopied⟩ := bind_eq_ok.mp hland
    cases hset
    obtain ⟨y', z, hcopy, hdone⟩ := bind_eq_ok.mp hcopied
    cases hdone
    have hkeys := copyAt_keys (w := { u with walks := put id ⟨some r, some s⟩ u.walks }) hd hread hcopy
    obtain ⟨hv, hon⟩ := (land_owns hrun kind selection (some s)).holding_of_ok
      (Multiset.zero_subset others) hu hland
    obtain ⟨c, hc⟩ := Option.isSome_iff_exists.mp (hv.walking hlanded rfl)
    have hkind : c.kind = d.kind := ((hu.kinded hd).onward hon).2 hc
    refine ⟨c, s, given, hc, hlanded, hon.origins.subset ho, fun k hk => ?_⟩
    rw [hkeys k hk, hkind]
    exact hkey ▸ d.kind.stores_storedKey given

end World

/-! ## entries that are made again -/

namespace Store

variable {ν : Type} {t : Store ν} {pins : Nat → Nat} {k k' : Key}

/-- A value that is stored under the key makes an entry, which has that key. -/
def Renews (t : Store ν) (k : Key) : Prop :=
  ∀ v, ∃ s u, t.upsert k v = .ok (.inserted s, u) ∧ u.key? s = some k

/-- A value that is stored under the second key goes to the entry, which has the first one and keeps it. -/
def Keeps (t : Store ν) (s : Nat) (k k' : Key) : Prop :=
  ∀ v, ∃ old u, t.upsert k' v = .ok (.updated s k' old, u) ∧ u.key? s = some k

theorem renews_of_none (h : t.Sound pins) (hnone : t.ledger.find? k = none) : t.Renews k := by
  intro v
  obtain ⟨u, hu, hs, hledger, _⟩ := upsert_spec h k v
  rw [Ledger.upsert, hnone] at hu hledger
  refine ⟨t.ledger.fresh, u, hu, ?_⟩
  have hrow : u.ledger.row? t.ledger.fresh = some ⟨t.ledger.fresh, k, v⟩ := by
    apply hs.ledger_sound.row?_eq_some_iff.mpr
    rw [hledger]
    exact ⟨List.mem_append_right _ (List.mem_singleton_self _), rfl⟩
  rw [key?_spec hs, hrow]
  rfl

theorem remove_renews (h : t.Sound pins) (hk : k'.token = k.token) :
    ∃ freed u, t.remove k = .ok (freed, u) ∧ u.Renews k' := by
  obtain ⟨freed, u, _, hremove, _, hs, hledger, _⟩ := remove_spec h k
  refine ⟨freed, u, hremove, renews_of_none hs ?_⟩
  rw [hledger, Ledger.find?, hk]
  exact t.ledger.find?_remove k

theorem clear_renews (h : t.Sound pins) (k : Key) :
    ∃ freed u, t.clear = .ok (freed, u) ∧ u.Renews k := by
  obtain ⟨freed, u, _, hclear, hs, hledger, _⟩ := clear_spec h
  exact ⟨freed, u, hclear, renews_of_none hs (by rw [hledger]; rfl)⟩

theorem keeps_of_token {s : Nat} (h : t.Sound pins) (hs : t.key? s = some k)
    (hk : k'.token = k.token) : t.Keeps s k k' := by
  intro v
  rw [key?_spec h] at hs
  obtain ⟨row, hrow, rfl⟩ := Option.map_eq_some_iff.mp hs
  obtain ⟨hmem, hserial⟩ := h.ledger_sound.row?_eq_some_iff.mp hrow
  have hfind : t.ledger.find? k' = some row := h.ledger_sound.find?_eq_some_iff.mpr ⟨hmem, hk.symm⟩
  obtain ⟨u, hu, hsound, hledger, _⟩ := upsert_spec h k' v
  have hlt : s < t.ledger.fresh := hserial ▸ h.ledger_sound.below row hmem
  have hkept := h.ledger_sound.row?_upsert hlt k' v
  rw [Ledger.upsert, hfind] at hu
  refine ⟨row.value, u, hserial ▸ hu, ?_⟩
  rw [key?_spec hsound, hledger, hkept, hrow, Option.map_some, if_pos hk.symm]
  rfl

/-- Whatever has been done to a store, an entry keeps its key when a value is stored under an equal one,
and an entry that is made again after a removal takes the new key. -/
theorem keys_renewed (hasher : Token → UInt64) (commands : List (Command ν)) :
    ∃ replies t, (Tour.start hasher).run commands = .ok (replies, t) ∧
      (∀ s k k', t.store.key? s = some k → k'.token = k.token → t.store.Keeps s k k') ∧
      ∀ k k', k'.token = k.token →
        (∃ freed u, t.store.remove k = .ok (freed, u) ∧ u.Renews k') ∧
        ∃ freed u, t.store.clear = .ok (freed, u) ∧ u.Renews k' := by
  obtain ⟨t, he, h, _⟩ := Tour.run_spec (Tour.sound_start hasher) commands
  exact ⟨_, t, he, fun s k k' hs hk => keeps_of_token h hs hk,
    fun k k' hk => ⟨remove_renews h hk, clear_renews h k'⟩⟩

end Store

open World Table in
/-- Stored keys are canonical and fixed when an entry is made.

In every run, whenever user code may run and at the end, every entry has the stored form of the one key
that was given to the operation that made it, also when it has been removed and is kept for a cursor: in a
map the canonical form, so no zero with a sign, and in a set the key as it was given.  What cursors yield
are these keys.  Later values leave the key as it is, and an entry that is made again takes the new
one. -/
theorem stored_keys :
    (∀ k : Key, k.canonical.canonical = k.canonical ∧ k.canonical.token = k.token ∧
      (Key.reference k).canonical = .reference k) ∧
    (∀ (limits : Limits) (tracing snapshots : Bool) (ops : List Op) (w : World),
      (Program.runFrom snapshots (.initial limits tracing) ops).2 = w →
      ∀ m ∈ w.moment :: w.moments, StoredAsGiven w.origins m) ∧
    (∀ (depth : Nat) (others : Hands) (r : Nat) (w v : World),
      (w.InOrder others → ∀ m ∈ w.moment :: w.moments, StoredAsGiven w.origins m) ∧
      (∀ q item outcome, w.InOrder (others + (handles q.key.refs + item.offered)) →
        .handle r ∈ others → upsert (runSteps depth) r q item w = (.ok outcome, v) →
        outcome.origins r q.key <+: v.origins) ∧
      ∀ id last kind selection y, w.InOrder (others + cursorAt id (some ⟨some r, last⟩)) →
        advance (runSteps depth) id kind selection w = (.ok (some y), v) →
        ∃ c s given, containerAt? v.cells r = some c ∧ get? id v.walks = some ⟨some r, some s⟩ ∧
          (⟨r, s, given⟩ : Origin) ∈ v.origins ∧ ∀ k ∈ y.keys, c.kind.Stores given k) ∧
    ∀ (ν : Type) (hasher : Token → UInt64) (commands : List (Command ν)),
      ∃ replies t, (Tour.start hasher).run commands = .ok (replies, t) ∧
        (∀ s k k', t.store.key? s = some k → k'.token = k.token → t.store.Keeps s k k') ∧
        ∀ k k', k'.token = k.token →
          (∃ freed u, t.store.remove k = .ok (freed, u) ∧ u.Renews k') ∧
          ∃ freed u, t.store.clear = .ok (freed, u) ∧ u.Renews k' := by
  refine ⟨fun k => ⟨k.canonical_canonical, k.token_canonical, rfl⟩, ?_, ?_, ?_⟩
  · rintro limits tracing snapshots ops w rfl
    obtain ⟨_, hw, _⟩ := Program.runFrom_spec (resting_initial limits tracing) snapshots ops
    exact hw.storedAsGiven
  · intro depth others r w v
    refine ⟨fun hw => hw.storedAsGiven, fun q item outcome hw hr h => ?_,
      fun id last kind selection y hw h => ?_⟩
    · exact upsert_registers (runSteps_safe depth) hw hr h
    · exact advance_yields (runSteps_safe depth) hw h
  · exact fun ν hasher commands => Store.keys_renewed hasher commands

/-- A map and a set that are given zeros of both signs; the entry of the map is removed and made again
while a cursor is parked on it. -/
def recreating : List Op :=
  let negative := Term.double 0x8000000000000000
  let stored (n : Int) := Payload.tracked n none none
  [.container .map "m" [(negative, stored 1)], .iterate (.named "m") .keys "i", .next "i" none,
    .insert (.named "m") (.double 0) (stored 2), .delete (.named "m") negative,
    .insert (.named "m") (.single 0x80000000) (stored 3), .container .set "s" [(negative, .unit)],
    .put (.named "s") [(.double 0, .unit)]]

/-- The map has two entries then, the one that was removed and the new one, and the set has one. -/
theorem stored_keys_recreating :
    ∃ w, (Program.runFrom false (.initial ⟨100, 4, 20⟩ false) recreating).2 = w ∧
      (∀ m ∈ w.moment :: w.moments, StoredAsGiven w.origins m) ∧
      w.origins.map (fun o => (o.container, o.entry, o.given)) =
        [(1, 0, .double 0x8000000000000000), (0, 1, .single 0x80000000),
          (0, 0, .double 0x8000000000000000)] ∧
      (containerAt? w.cells 0).map (fun c => c.store.chain.arena.cells.map fun e =>
        (e.serial, e.item.key, e.item.removed)) =
        some [(0, .double 0, true), (1, .single 0, false)] ∧
      (containerAt? w.cells 1).map (fun c => c.store.chain.arena.cells.map fun e =>
        (e.serial, e.item.key, e.item.removed)) =
        some [(0, .double 0x8000000000000000, false)] :=
  ⟨_, rfl, stored_keys.2.1 ⟨100, 4, 20⟩ false false recreating _ rfl, by decide +kernel,
    by decide +kernel, by decide +kernel⟩

end LiveOrder
