import LiveOrder.Proofs.Tour.Refinement

/-!
# The shape of a store under cursors

What the slots, links, hashes and counts of a store look like after any commands, said of the
slots themselves.

* `Tour.WellFormed`   the representation invariant;
* `Sound.wellFormed`   it follows from the balance;
* `Tour.run_wellFormed`   it holds after every run.
-/

namespace LiveOrder.Tour

open Chain

variable {ν : Type} {t : Tour ν}

/-- The cursors parked on a slot. -/
def parkedOn (t : Tour ν) (s : Nat) : Nat := t.cursors.count (.parked s)

/-- The pins on a slot whose cursors are gone. -/
def leakedOn (t : Tour ν) (s : Nat) : Nat := t.cursors.count (.abandoned s)

theorem pins_eq (t : Tour ν) (s : Nat) : t.pins s = t.parkedOn s + t.leakedOn s := by
  unfold pins pinsOf parkedOn leakedOn
  induction t.cursors with
  | nil => rfl
  | cons p rest ih =>
    rw [List.countP_cons, List.count_cons, List.count_cons, ih]
    cases p <;> simp only [Position.pin?, beq_iff_eq, reduceCtorEq, Option.some.injEq,
      decide_eq_true_eq, decide_false, Position.parked.injEq, Position.abandoned.injEq, if_false,
      Bool.false_eq_true] <;> omega

structure WellFormed (t : Tour ν) : Prop where
  /-- following the links from the head meets exactly the live slots, each once, each leading back
  to the one before it, and ends at the tail; the index holds the same slots -/
  chain : ∃ l, t.store.chain.Thread none t.store.chain.head l ∧ l.Nodup ∧
    (∀ s, s ∈ l ↔ t.store.chain.Live s) ∧ t.store.len = l.length ∧ t.store.index.Perm l
  tokens : ∀ {s u x y}, t.store.chain.live? s = some x → t.store.chain.live? u = some y →
    x.key.token = y.key.token → s = u
  hashed : ∀ {s x}, t.store.chain.arena.get? s = some x → x.hash = t.store.hasher x.key.token
  /-- a removed slot leads back to one that was filled earlier and is still held -/
  back : ∀ {s x p}, t.store.chain.arena.get? s = some x → x.removed = true → x.prev = some p →
    p < s ∧ p ∈ t.store.chain.arena.serials
  counted : ∀ {s x}, t.store.chain.arena.get? s = some x →
    x.refs = t.parkedOn s + t.leakedOn s + t.store.chain.leaning s
  kept : ∀ {s x}, t.store.chain.arena.get? s = some x → x.removed = true → 0 < x.refs

theorem Sound.wellFormed (h : t.Sound) : t.WellFormed where
  chain := by
    have hlinked := h.balanced.toLinked
    have hnodup : (t.store.chain.rows.map (·.serial)).Nodup :=
      List.pairwise_map.mpr (h.rows_sorted.imp fun hlt => Nat.ne_of_lt hlt)
    refine ⟨t.store.chain.rows.map (·.serial), hlinked.thread, hnodup, fun s => mem_rows_serials,
      ?_, h.indexed⟩
    rw [List.length_map, hlinked.length_rows]
    rfl
  tokens {s u x y} hx hy hxy := by
    obtain ⟨hgx, hlx⟩ := live?_eq_some_iff.mp hx
    obtain ⟨hgy, hly⟩ := live?_eq_some_iff.mp hy
    have hrx : x.row s ∈ t.store.chain.rows := mem_rows.mpr (row?_of_live hgx hlx)
    have hry : y.row u ∈ t.store.chain.rows := mem_rows.mpr (row?_of_live hgy hly)
    exact congrArg Row.serial (Store.Sound.eq_of_token h hrx hry hxy)
  hashed := h.hashed
  back := h.balanced.back
  counted {s x} hx := by
    rw [h.balanced.counted hx, pins_eq]
  kept hx hr := h.balanced.kept hx hr List.not_mem_nil

/-- **The representation invariant holds after every run**, whatever the hashes, and whatever pins
were left behind. -/
theorem run_wellFormed (hasher : Token → UInt64) (commands : List (Command ν)) :
    ∃ replies t, (start hasher).run commands = .ok (replies, t) ∧ t.WellFormed := by
  obtain ⟨t, he, hs, _⟩ := run_spec (sound_start hasher) commands
  exact ⟨_, t, he, hs.wellFormed⟩

end LiveOrder.Tour
