import LiveOrder.Proofs.Tour.Clearing
import LiveOrder.Proofs.Tour.Turns

/-!
# Cursors are independent

Which slots a turn frees depends on the turns before it, since a removed slot is freed by the last
one to let go of it.  What has come out in the end, and what is left, does not.

* `Itinerary.run_turns`   each cursor is answered from its own place, and is left where it would be
                 left alone;
* `Tour.turns_spec`   turns on a tour: nothing is made, revalued or removed, and slots go;
* `Tour.Same`    tours that differ at most in the order in which places were given up;
* `Turned.alike`, `Turned.same`   the places of the cursors determine what is left, and what has come
                 out;
* `Tour.Commute`, `turns_commute`   turns of different cursors can be taken in any order.
-/

namespace LiveOrder

open Chain

variable {ν : Type}

/-! ## on itineraries -/

namespace Turn

/-- Turns of numbered cursors, as commands. -/
def commands (turns : List (Turn × Nat)) : List (Command ν) := turns.map fun e => e.1.of e.2

theorem commands_cons (e : Turn × Nat) (rest : List (Turn × Nat)) :
    (commands (e :: rest) : List (Command ν)) = e.1.of e.2 :: commands rest := rfl

/-- Where the cursors are left by turns, one after the other. -/
def landAll (l : Ledger ν) (turns : List (Turn × Nat)) (cursors : List Position) : List Position :=
  turns.foldl (fun cursors e => cursors.modify e.2 (e.1.land l)) cursors

/-- Different cursors are left in the same places whoever comes first. -/
theorem landAll_perm (l : Ledger ν) {turns turns' : List (Turn × Nat)} (hp : turns.Perm turns')
    (hn : (turns.map (·.2)).Nodup) (cursors : List Position) :
    landAll l turns cursors = landAll l turns' cursors := by
  refine hp.foldl_eq' (fun e he e' he' cursors => ?_) cursors
  by_cases hi : e.2 = e'.2
  · rw [List.inj_on_of_nodup_map hn he he' hi]
  · exact List.modify_modify_ne _ _ cursors hi

end Turn

namespace Itinerary

variable {t : Itinerary ν}

theorem place?_step_of_ne (m : Turn) {i j : Nat} (hij : i ≠ j) :
    (t.step (m.of i)).2.place? j = t.place? j := by
  rw [step_turn]
  show (List.modify _ _ _)[j]?.bind _ = _
  rw [List.getElem?_modify_ne _ _ hij]
  rfl

theorem run_turns (turns : List (Turn × Nat)) (hn : (turns.map (·.2)).Nodup) :
    t.run (Turn.commands turns) =
      (turns.map fun e => e.1.reply t.ledger (t.place? e.2),
        { t with cursors := Turn.landAll t.ledger turns t.cursors }) := by
  induction turns generalizing t with
  | nil => rfl
  | cons e rest ih =>
    obtain ⟨hfresh, hn⟩ := List.nodup_cons.mp hn
    have hreplies : rest.map (fun e' => e'.1.reply t.ledger ((t.step (e.1.of e.2)).2.place? e'.2)) =
        rest.map fun e' => e'.1.reply t.ledger (t.place? e'.2) := by
      refine List.map_congr_left fun e' he' => ?_
      have hne : e.2 ≠ e'.2 := fun heq =>
        hfresh (List.mem_map.mpr ⟨e', he', heq.symm⟩)
      rw [place?_step_of_ne e.1 hne]
    have hland : (t.step (e.1.of e.2)).2.cursors =
        t.cursors.modify e.2 (e.1.land t.ledger) := by rw [step_turn]
    rw [Turn.commands_cons, run_cons, ih hn, reply_turn, ledger_turn, hreplies, hland]
    rfl

end Itinerary

/-! ## on tours -/

namespace Tour

variable {t u u' : Tour ν} {out out' : List (Key × ν)}

/-- What the user sees of turns, and what they leave. -/
theorem turns_spec (h : t.Sound) (turns : List (Turn × Nat)) :
    ∃ out u, t.trace (Turn.commands turns) =
        .ok ((t.itinerary.run (Turn.commands turns)).1, out, u) ∧
      u.itinerary = (t.itinerary.run (Turn.commands turns)).2 ∧ t.Turned out u := by
  induction turns generalizing t with
  | nil => exact ⟨[], t, rfl, rfl, .refl h⟩
  | cons e rest ih =>
    obtain ⟨freed, t', he, hi, hturned, _⟩ := turn_spec h e.1 e.2
    obtain ⟨out, u, htrace, hlast, hturned'⟩ := ih hturned.sound
    rw [hi] at htrace hlast
    refine ⟨freed.pairs ++ out, u, ?_, hlast, hturned.trans hturned'⟩
    rw [Turn.commands_cons, Itinerary.run_cons, Itinerary.reply_turn, trace, he]
    simp only [bind, Except.bind]
    rw [htrace]
    simp only [Turn.returned_reply, List.nil_append]
    rfl

/-- Two tours are one and the same, but for the order in which places were given up. -/
structure Same (t u : Tour ν) : Prop where
  hasher : t.store.hasher = u.store.hasher
  index : t.store.index = u.store.index
  /-- all slots, live or removed, with their places, links and counts -/
  cells : t.store.chain.arena.cells = u.store.chain.arena.cells
  vacant : t.store.chain.arena.vacant.Perm u.store.chain.arena.vacant
  fresh : t.store.chain.arena.fresh = u.store.chain.arena.fresh
  head : t.store.chain.head = u.store.chain.head
  tail : t.store.chain.tail = u.store.chain.tail
  len : t.store.chain.len = u.store.chain.len
  cursors : t.cursors = u.cursors

section
variable (h : t.Turned out u) (h' : t.Turned out' u')
include h

/-- A slot that is left by turns differs from what it was in its count only. -/
theorem Turned.before {s : Nat} {y : Slot ν} (hy : u.store.chain.arena.get? s = some y) :
    ∃ x, t.store.chain.arena.get? s = some x ∧ y = { x with refs := y.refs } := by
  obtain ⟨gone, hf, _⟩ := h.frees
  exact (hf.before hy).2

include h'

theorem Turned.slot_eq {s : Nat} {y y' : Slot ν} (hy : u.store.chain.arena.get? s = some y)
    (hy' : u'.store.chain.arena.get? s = some y') : y = { y' with refs := y.refs } := by
  obtain ⟨x, hx, hyx⟩ := h.before hy
  obtain ⟨x', hx', hyx'⟩ := h'.before hy'
  rw [hx, Option.some.injEq] at hx'
  rw [hyx, hyx', hx']

theorem Turned.alike (hi : u.itinerary = u'.itinerary) : u.Alike u' := by
  refine h.sound.alike h'.sound hi (h.hasher.trans h'.hasher.symm) fun hy hy' _ _ => ?_
  rw [h.slot_eq h' hy hy']
  exact ⟨rfl, rfl⟩

theorem Turned.get?_eq (hi : u.itinerary = u'.itinerary) (s : Nat) :
    u.store.chain.arena.get? s = u'.store.chain.arena.get? s := by
  have halike := (h.alike h' hi).chain
  cases hy : u.store.chain.arena.get? s with
  | none =>
    have hmem := mt (halike.mem_iff s).mpr (Arena.get?_eq_none_iff.mp hy)
    exact (Arena.get?_eq_none_iff.mpr hmem).symm
  | some y =>
    have hmem := (halike.mem_iff s).mp (Arena.mem_serials_of_get? hy)
    obtain ⟨y', hy'⟩ := Arena.exists_get?_of_mem hmem
    have hrefs := (Slot.plain_eq_iff.mp (halike.plain_eq hy hy')).2.2.1
    rw [hy', h.slot_eq h' hy hy', hrefs]

/-- **The places of the cursors decide.**  Turns that leave the cursors in the same places leave the
same tour, and the same pairs have come out. -/
theorem Turned.same (ht : t.Sound) (hi : u.itinerary = u'.itinerary) :
    out.Perm out' ∧ u.Same u' := by
  have halike := h.alike h' hi
  have hs := h.sound.balanced.sound
  have hs' := h'.sound.balanced.sound
  have hserials := hs.serials_ext hs' halike.chain.mem_iff
  obtain ⟨gone, hf, rfl⟩ := h.frees
  obtain ⟨gone', hf', rfl⟩ := h'.frees
  have hlost : t.store.chain.lost u.store.chain = t.store.chain.lost u'.store.chain := by
    unfold lost
    rw [hserials]
  have hout := (Change.freed hf).pairs_perm ht.balanced.sound
  have hout' := (Change.freed hf').pairs_perm ht.balanced.sound
  have hplaces := hf.trims.samePlaces ht.balanced.sound hf'.trims hserials
  rw [hlost] at hout
  exact ⟨hout.trans hout'.symm, halike.hasher, h.index.trans h'.index.symm,
    hs.cells_ext hs' hplaces.sites (h.get?_eq h' hi), hplaces.vacant, halike.chain.fresh,
    halike.chain.head, halike.chain.tail, halike.chain.len, halike.cursors⟩

end

/-- What a cursor is told at its turn: what comes next after its place. -/
def answer (t : Tour ν) (e : Turn × Nat) : Reply ν := e.1.reply t.store.ledger (t.place? e.2)

/-- Two orders of turns: the cursors are told the same, the same pairs come out, and the same tour is
left. -/
def Commute (t : Tour ν) (turns turns' : List (Turn × Nat)) : Prop :=
  ∃ out out' u u',
    t.trace (Turn.commands turns) = .ok (turns.map t.answer, out, u) ∧
    t.trace (Turn.commands turns') = .ok (turns'.map t.answer, out', u') ∧
    out.Perm out' ∧ u.Same u'

theorem Sound.commute (h : t.Sound) {turns turns' : List (Turn × Nat)} (hp : turns.Perm turns')
    (hn : (turns.map (·.2)).Nodup) : t.Commute turns turns' := by
  have hn' : (turns'.map (·.2)).Nodup := (hp.map _).nodup_iff.mp hn
  obtain ⟨out, u, htrace, hi, hturned⟩ := turns_spec h turns
  obtain ⟨out', u', htrace', hi', hturned'⟩ := turns_spec h turns'
  rw [Itinerary.run_turns turns hn] at htrace hi
  rw [Itinerary.run_turns turns' hn', ← Turn.landAll_perm _ hp hn] at hi'
  rw [Itinerary.run_turns turns' hn'] at htrace'
  obtain ⟨hout, hsame⟩ := hturned.same hturned' h (hi.trans hi'.symm)
  exact ⟨out, out', u, u', htrace, htrace', hout, hsame⟩

/-- **Cursors are independent.**  After every run, two cursors can take their turns in either order,
any number of them can be closed in any order, and no turn changes the live entries. -/
theorem turns_commute (hasher : Token → UInt64) (commands : List (Command ν)) :
    ∃ replies t, (start hasher).run commands = .ok (replies, t) ∧
      (∀ m n i j, i ≠ j → t.Commute [(m, i), (n, j)] [(n, j), (m, i)]) ∧
      (∀ order order' : List Nat, order.Nodup → order.Perm order' →
        t.Commute (order.map (.close, ·)) (order'.map (.close, ·))) ∧
      ∀ (m : Turn) (i : Nat), ∃ reply freed u, t.step (m.of i) = .ok (reply, freed, u) ∧
        u.store.ledger = t.store.ledger := by
  obtain ⟨t, he, hs, _⟩ := run_spec (sound_start hasher) commands
  refine ⟨_, t, he, fun m n i j hij => hs.commute (.swap _ _ _) ?_,
    fun order order' hn hp => hs.commute (hp.map _) ?_, fun m i => ?_⟩
  · simpa using hij
  · rw [List.map_map]
    exact (List.map_id order).symm ▸ hn
  · obtain ⟨freed, u, hstep, hi, _⟩ := turn_spec hs m i
    have hledger := congrArg (·.ledger) hi
    rw [Itinerary.ledger_turn] at hledger
    exact ⟨_, freed, u, hstep, hledger⟩

-- The second cursor is parked on a removed entry that leans on the one of the first cursor: it depends
-- on the order which of them frees what.
example :
    let closing (i j : Nat) : Except Fault (Nat × Nat) := do
      let (_, t) ← (start fun _ => 0).run
        [.upsert (.bool false) 0, .upsert (.bool true) 1, .upsert .unit 2, .start, .start,
          .advance 0, .advance 0, .advance 1, .advance 1, .advance 1,
          .remove .unit, .remove (.bool true)]
      let (_, first, t) ← t.step (.close i)
      let (_, second, _) ← t.step (.close j)
      pure (first.pairs.length, second.pairs.length)
    closing 0 1 = .ok (0, 2) ∧ closing 1 0 = .ok (1, 1) :=
  ⟨rfl, rfl⟩

end Tour

end LiveOrder
