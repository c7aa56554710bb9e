import LiveOrder.Proofs.Store.Index
import LiveOrder.Store.Session

/-!
# Sessions are faultless

* `Session.step_spec`   a command gets a reply, and leaves a store that is sound;
* `Session.run_spec`    so every command of a session gets one.
-/

namespace LiveOrder.Session

variable {x : Session} {pins : Nat → Nat}

theorem step_spec (h : x.store.Sound pins) (c : Command) :
    ∃ reply y, x.step c = .ok (reply, y) ∧ y.store.Sound pins := by
  cases c with
  | upsert k v full =>
    obtain ⟨t, he, ht, _⟩ := Store.upsert_spec h k v
    simp only [step, he, bind, Except.bind]
    cases (x.store.ledger.upsert k v).1 with
    | inserted s => exact ⟨_, _, rfl, ht⟩
    | updated s key previous => exact ⟨_, _, rfl, ht⟩
  | find k =>
    simp only [step, Store.find_spec h, bind, Except.bind]
    cases (x.store.ledger.find? k).map (·.serial) with
    | none => exact ⟨_, _, rfl, h⟩
    | some s => exact ⟨_, _, rfl, h⟩
  | containsKey k =>
    rw [step, Store.contains_spec h]
    exact ⟨_, _, rfl, h⟩
  | lookup k =>
    rw [step, Store.lookup_spec h]
    exact ⟨_, _, rfl, h⟩
  | remove k =>
    obtain ⟨freed, t, _, he, _, ht, _⟩ := Store.remove_spec h k
    rw [step, he]
    exact ⟨_, _, rfl, ht⟩
  | clear =>
    obtain ⟨freed, t, _, he, ht, _⟩ := Store.clear_spec h
    rw [step, he]
    exact ⟨_, _, rfl, ht⟩
  | reclaimed => exact ⟨_, _, rfl, h⟩
  | iter =>
    obtain ⟨items, he, _⟩ := Chain.walk_spec h.balanced.toLinked
    rw [step, he]
    exact ⟨_, _, rfl, h⟩
  | key n => exact ⟨_, _, rfl, h⟩
  | value n => exact ⟨_, _, rfl, h⟩
  | addTo n m =>
    simp only [step]
    cases hs : x.handles[n]? with
    | none => exact ⟨_, _, rfl, h⟩
    | some s =>
      simp only [Option.bind_some, Store.modifyValue?_spec h]
      cases x.store.ledger.row? s with
      | none => exact ⟨_, _, rfl, h⟩
      | some r => exact ⟨_, _, rfl, h.revalued s _⟩
  | len =>
    rw [step, Store.tombstones_spec h]
    exact ⟨_, _, rfl, h⟩

theorem runFrom_spec (h : x.store.Sound pins) (commands : List Command) :
    ∃ replies : List (Reply × Nat), replies.length = commands.length ∧
      runFrom x commands = replies.map .ok := by
  induction commands generalizing x with
  | nil => exact ⟨[], rfl, rfl⟩
  | cons c rest ih =>
    obtain ⟨reply, y, he, hy⟩ := step_spec h c
    obtain ⟨replies, hlen, hrest⟩ := ih hy
    refine ⟨(reply, y.store.len) :: replies, congrArg Nat.succ hlen, ?_⟩
    rw [runFrom, he, List.map_cons, ← hrest]

/-- No command of a session fails, whatever hasher the store has. -/
theorem run_spec (hasher : Token → UInt64) (commands : List Command) :
    ∃ replies : List (Reply × Nat), replies.length = commands.length ∧
      run hasher commands = replies.map .ok :=
  runFrom_spec (Store.sound_withHasher hasher) commands

end LiveOrder.Session
