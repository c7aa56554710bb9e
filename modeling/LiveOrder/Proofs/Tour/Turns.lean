import LiveOrder.Proofs.Store.Notices
import LiveOrder.Proofs.Tour.Refinement

/-!
# Turns of cursors

A turn moves, closes or abandons one cursor.  For the user it changes the place of that cursor and
nothing else; in the store it moves or gives up one pin, and frees what was held by it.

* `Turn.reply`, `Turn.land`   what a turn answers, and where it leaves the cursor;
* `Itinerary.step_turn`   a turn on an itinerary;
* `Tour.turn_cases`   the one operation of the store that a turn comes to, if it comes to one;
* `Tour.Turned`    a tour after some turns, and the pairs that came out;
* `Tour.turn_spec`   one turn.
-/

namespace LiveOrder

open Chain

variable {ν : Type}

namespace Turn

/-- What is answered to a cursor in some place, or in none. -/
def reply (l : Ledger ν) : Turn → Option (Option Nat) → Reply ν
  | .advance, some at? => .yielded (l.after at?)
  | .advance, none => .yielded none
  | .close, _ => .done
  | .abandon, _ => .done

/-- Where a cursor is left that could be moved on from a place. -/
def landAt (l : Ledger ν) (at? : Option Nat) : Turn → Position
  | .advance => .reached ((l.after at?).map (·.serial))
  | .close => .finished
  | .abandon => .left at?

def land (l : Ledger ν) (m : Turn) (p : Position) : Position :=
  match p.at? with
  | none => p
  | some at? => m.landAt l at?

end Turn

/-! ## on itineraries -/

namespace Itinerary

variable (t : Itinerary ν) (m : Turn) (i : Nat)

theorem step_turn : t.step (m.of i) =
    (m.reply t.ledger (t.place? i),
      { t with cursors := t.cursors.modify i (m.land t.ledger) }) := by
  have hmodify := List.modify_eq_set_getElem? (m.land t.ledger) i t.cursors
  rw [hmodify]
  unfold place?
  cases hi : t.cursors[i]? with
  | none =>
    have hplace : t.place? i = none := by rw [place?, hi]; rfl
    cases m <;> simp only [Turn.of, step, hplace] <;> rfl
  | some p =>
    have hplace : t.place? i = p.at? := by rw [place?, hi]; rfl
    have hself : t.cursors.set i p = t.cursors := by
      obtain ⟨hlt, rfl⟩ := List.getElem?_eq_some_iff.mp hi
      exact List.set_getElem_self hlt
    cases hat : p.at? with
    | none =>
      have hland : m.land t.ledger p = p := by rw [Turn.land, hat]
      show _ = (m.reply t.ledger p.at?, { t with cursors := t.cursors.set i (m.land t.ledger p) })
      rw [hland, hself, hat]
      cases m <;> simp only [Turn.of, step, hplace, hat] <;> rfl
    | some at? =>
      have hland : m.land t.ledger p = m.landAt t.ledger at? := by rw [Turn.land, hat]
      show _ = (m.reply t.ledger p.at?, { t with cursors := t.cursors.set i (m.land t.ledger p) })
      rw [hland, hat]
      cases m <;> simp only [Turn.of, step, hplace, hat] <;> rfl

theorem reply_turn : (t.step (m.of i)).1 = m.reply t.ledger (t.place? i) := by rw [step_turn]

/-- A turn leaves the rows alone. -/
theorem ledger_turn : (t.step (m.of i)).2.ledger = t.ledger := by rw [step_turn]

end Itinerary

/-! ## on tours -/

namespace Tour

variable {t u v : Tour ν} {m : Turn} {i : Nat} {reply : Reply ν} {freed : Freed ν}
  {out out' : List (Key × ν)}

theorem turn_cases (he : t.step (m.of i) = .ok (reply, freed, u)) :
    (freed = {} ∧ u.store = t.store) ∨
      (∃ at? next, t.place? i = some at? ∧
        t.store.advance at? = .ok (next, freed, u.store)) ∨
      ∃ s, t.place? i = some (some s) ∧ t.store.unpin s = .ok (freed, u.store) := by
  cases hp : t.place? i with
  | none =>
    cases m <;> rw [Turn.of, step, hp] at he <;> cases he <;> exact .inl ⟨rfl, rfl⟩
  | some at? =>
    cases m with
    | advance =>
      rw [Turn.of, step, hp] at he
      obtain ⟨⟨next, freed', store⟩, ha, he⟩ := Fault.of_bind he
      refine .inr (.inl ⟨at?, next, rfl, ?_⟩)
      cases next with
      | none =>
        cases he
        exact ha
      | some s =>
        obtain ⟨e, _, he⟩ := Fault.of_bind he
        cases he
        exact ha
    | close =>
      rw [Turn.of, step, hp] at he
      cases at? with
      | none =>
        cases he
        exact .inl ⟨rfl, rfl⟩
      | some s =>
        obtain ⟨⟨freed', store⟩, hu, he⟩ := Fault.of_bind he
        cases he
        exact .inr (.inr ⟨s, rfl, hu⟩)
    | abandon =>
      rw [Turn.of, step, hp] at he
      cases he
      exact .inl ⟨rfl, rfl⟩

/-- One tour is another one after some turns of its cursors, and what came out. -/
structure Turned (t : Tour ν) (out : List (Key × ν)) (u : Tour ν) : Prop where
  sound : u.Sound
  hasher : u.store.hasher = t.store.hasher
  index : u.store.index = t.store.index
  frees : ∃ gone, Frees t.store.chain u.store.chain gone ∧ out = t.store.chain.pairsOf gone

theorem Turned.refl (h : t.Sound) : t.Turned [] t :=
  ⟨h, rfl, rfl, [], Frees.refl h.balanced.sound, rfl⟩

theorem Turned.trans (h : t.Turned out u) (h' : u.Turned out' v) : t.Turned (out ++ out') v where
  sound := h'.sound
  hasher := h'.hasher.trans h.hasher
  index := h'.index.trans h.index
  frees := by
    obtain ⟨gone, hf, rfl⟩ := h.frees
    obtain ⟨gone', hf', rfl⟩ := h'.frees
    refine ⟨gone ++ gone', hf.trans hf', ?_⟩
    have hkept : ∀ s ∈ gone', s ∉ gone := fun s hs =>
      ((hf.mem_serials_iff s).mp ((hf'.mem_gone_iff s).mp hs).1).2
    rw [pairsOf_append, hf.pairsOf_eq hkept]

/-- What a turn frees is one cascade, and is reported as one. -/
theorem turn_frees (h : t.Sound) (he : t.step (m.of i) = .ok (reply, freed, u)) :
    u.store.hasher = t.store.hasher ∧ u.store.index = t.store.index ∧
      ∃ gone, Frees t.store.chain u.store.chain gone ∧
        freed = .ofCascade (t.store.chain.pairsOf gone) := by
  rcases turn_cases he with ⟨rfl, hstore⟩ | ⟨at?, next, hp, ha⟩ | ⟨s, hp, hu⟩
  · rw [hstore]
    exact ⟨rfl, rfl, [], Frees.refl h.balanced.sound, rfl⟩
  · obtain ⟨next', d, gone, hstep, _, hf, _⟩ := Chain.step_spec (h.at_place hp).balanced
    rw [Store.advance, hstep] at ha
    injection ha with ha
    injection ha with _ ha
    injection ha with hfreed hstore
    rw [← hstore]
    exact ⟨rfl, rfl, gone, hf.toFrees, hfreed.symm⟩
  · obtain ⟨d, gone, hrelease, hf, _⟩ := Chain.release_spec (h.at_place hp).balanced
    rw [Store.unpin, hrelease] at hu
    injection hu with hu
    injection hu with hfreed hstore
    rw [← hstore]
    exact ⟨rfl, rfl, gone, hf.toFrees, hfreed.symm⟩

theorem turn_spec (h : t.Sound) (m : Turn) (i : Nat) :
    ∃ freed u, t.step (m.of i) = .ok (m.reply t.itinerary.ledger (t.place? i), freed, u) ∧
      u.itinerary = (t.itinerary.step (m.of i)).2 ∧ t.Turned freed.pairs u ∧
      freed = .ofCascade freed.pairs := by
  obtain ⟨freed, u, he, htook⟩ := step_spec h (m.of i)
  obtain ⟨hhasher, hindex, gone, hf, rfl⟩ := turn_frees h he
  refine ⟨.ofCascade (t.store.chain.pairsOf gone), u, ?_, htook.itinerary,
    ⟨htook.sound, hhasher, hindex, gone, hf, rfl⟩, rfl⟩
  rw [he, Itinerary.step_turn]
  rfl

end Tour

end LiveOrder
