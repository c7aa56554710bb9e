import LiveOrder.Proofs.Store.Index
import LiveOrder.Proofs.Tour.Basic

/-!
# Tours follow their itineraries

* `Tour.Sound`   the store is sound, and the cursors hold the pins that it counts;
* `Tour.Took`    what is to be said of one step: the state and the freed slots it leaves;
* `Tour.Follows`   a command is answered as on the itinerary;
* `Tour.step_spec`   every command is answered, and answered as on the itinerary;
* `Tour.run_spec`    so is every sequence of commands.
-/

namespace LiveOrder

open Chain

variable {ν : Type}

/-! ## pins of cursors -/

/-- A cursor in another place takes its pin there. -/
theorem pinsOf_set {cursors : List Position} {i : Nat} (hi : i < cursors.length) (p : Position) :
    pinsOf (cursors.set i p) = pinOn p.pin? (pinsOf (cursors.set i .finished)) := by
  funext s
  simp only [pinsOf, Chain.pinOn, List.set_eq_take_append_cons_drop, if_pos hi, List.countP_append,
    List.countP_cons, decide_eq_true_eq]
  have h0 : ¬Position.finished.pin? = some s := by
    intro h
    cases h
  rw [if_neg h0]
  omega

theorem pinsOf_eq {cursors : List Position} {i : Nat} {p : Position} (hi : cursors[i]? = some p) :
    pinsOf cursors = pinOn p.pin? (pinsOf (cursors.set i .finished)) := by
  obtain ⟨hlt, rfl⟩ := List.getElem?_eq_some_iff.mp hi
  rw [← pinsOf_set hlt, List.set_getElem_self]

theorem pinsOf_append (cursors : List Position) :
    pinsOf (cursors ++ [.unstarted]) = pinsOf cursors := by
  funext s
  simp [pinsOf, List.countP_append, Position.pin?]

theorem Position.pin?_of_at? {p : Position} {at? : Option Nat} (h : p.at? = some at?) :
    p.pin? = at? := by
  cases p with
  | unstarted => exact Option.some.inj h
  | parked s => exact Option.some.inj h
  | abandoned s => cases h
  | finished => cases h

namespace Tour

variable {t : Tour ν}

def Sound (t : Tour ν) : Prop := t.store.Sound t.pins

def itinerary (t : Tour ν) : Itinerary ν := ⟨t.store.ledger, t.cursors⟩

theorem sound_start (hasher : Token → UInt64) : (start hasher : Tour ν).Sound :=
  Store.sound_withHasher hasher

/-! ## one step -/

structure Took (t : Tour ν) (c : Command ν) (freed : Freed ν) (t' : Tour ν) : Prop where
  sound : t'.Sound
  itinerary : t'.itinerary = (t.itinerary.step c).2
  hasher : t'.store.hasher = t.store.hasher
  change : ∃ gone, Change t.store.chain gone t'.store.chain ∧
    freed.pairs = t.store.chain.pairsOf gone
  /-- later slots are freed first, unless all entries go at once -/
  order : c ≠ .clear →
    freed.pairs = t.store.chain.pairsOf (t.store.chain.lost t'.store.chain).reverse

theorem Took.of_change (h : t.Sound) {c : Command ν} {freed : Freed ν} {t' : Tour ν}
    {gone : List Nat} (hs : t'.Sound) (hi : t'.itinerary = (t.itinerary.step c).2)
    (hc : t.store.Change gone t'.store) (hp : freed.pairs = t.store.chain.pairsOf gone)
    (hd : c ≠ .clear → gone.Pairwise (· > ·)) : t.Took c freed t' where
  sound := hs
  itinerary := hi
  hasher := hc.hasher
  change := ⟨gone, hc.chain, hp⟩
  order hne := by rw [hp, hc.chain.gone_eq h.balanced.sound (hd hne)]

/-- A command that changes nothing. -/
theorem Took.same (h : t.Sound) {c : Command ν} (hc : (t.itinerary.step c).2 = t.itinerary) :
    t.Took c {} t :=
  .of_change h h hc.symm (.same h.balanced.sound) rfl fun _ => .nil

/-- A command that changes cursors only. -/
theorem Took.cursors (h : t.Sound) {c : Command ν} {l : List Position} (hl : pinsOf l = t.pins)
    (hc : (t.itinerary.step c).2 = { t.itinerary with cursors := l }) :
    t.Took c {} { t with cursors := l } :=
  .of_change h (by rwa [Sound, pins, hl]) hc.symm (.same h.balanced.sound) rfl fun _ => .nil

/-- The command is answered as on the itinerary. -/
def Follows (t : Tour ν) (c : Command ν) : Prop :=
  ∃ freed t', t.step c = .ok ((t.itinerary.step c).1, freed, t') ∧ t.Took c freed t'

/-- A command that only reads. -/
theorem Follows.same (h : t.Sound) {c : Command ν}
    (he : t.step c = .ok ((t.itinerary.step c).1, {}, t))
    (hc : (t.itinerary.step c).2 = t.itinerary) : t.Follows c := ⟨{}, t, he, .same h hc⟩

/-- A cursor that can be moved on holds the pin of its place. -/
theorem place_spec {i : Nat} {at? : Option Nat} (hp : t.place? i = some at?) :
    i < t.cursors.length ∧ t.pins = pinOn at? (pinsOf (t.cursors.set i .finished)) := by
  obtain ⟨p, hi, hat⟩ := Option.bind_eq_some_iff.mp hp
  refine ⟨(List.getElem?_eq_some_iff.mp hi).1, ?_⟩
  rw [pins, pinsOf_eq hi, Position.pin?_of_at? hat]

section
variable (h : t.Sound) {i : Nat}
include h

theorem Sound.at_place {at? : Option Nat} (hp : t.place? i = some at?) :
    t.store.Sound (pinOn at? (pinsOf (t.cursors.set i .finished))) := by
  rw [← (place_spec hp).2]
  exact h

theorem advance_spec {at? : Option Nat} (hp : t.place? i = some at?) : t.Follows (.advance i) := by
  have hplace : t.itinerary.place? i = some at? := hp
  obtain ⟨hi, _⟩ := place_spec hp
  obtain ⟨freed, store, gone, he, hsound, hledger, hchange, hpairs, hd⟩ :=
    Store.advance_spec (h.at_place hp)
  let next := t.store.ledger.after at?
  let t' : Tour ν := ⟨store, t.cursors.set i (.reached (next.map (·.serial)))⟩
  have hpin : (Position.reached (next.map (·.serial))).pin? = next.map (·.serial) := by
    cases next <;> rfl
  have hsound' : t'.Sound := by
    show store.Sound (pinsOf _)
    rw [pinsOf_set hi, hpin]
    exact hsound
  refine ⟨freed, t', ?_, .of_change h hsound' ?_ hchange hpairs fun _ => hd⟩
  · rw [step, hp, Itinerary.step, hplace]
    show t.advance i at? = .ok (.yielded (t.store.ledger.after at?), freed, t')
    rw [advance, he]
    cases hn : next with
    | none =>
      simp only [bind, Except.bind, t', next, hn]
      rfl
    | some r =>
      -- the entry was live before the step, so its key and value are those of the row
      have hrow : store.chain.row? r.serial = some r := by
        apply mem_rows.mp
        have hmem : r ∈ t.store.ledger.rows := List.mem_of_find?_eq_some hn
        rw [← hledger] at hmem
        exact hmem
      have hpos : 0 < pinOn (next.map (·.serial)) (pinsOf (t.cursors.set i .finished)) r.serial := by
        rw [hn, Option.map_some, pinOn_self]
        omega
      obtain ⟨x, hx, hread⟩ := Store.pinned_spec hsound hpos
      obtain ⟨y, hy, _, hyr⟩ := row?_eq_some_iff.mp hrow
      rw [hx, Option.some.injEq] at hy
      simp only [bind, Except.bind, t', next, hn, Option.map_some, Position.reached]
      rw [hread, hy, ← hyr]
      rfl
  · show Itinerary.mk store.ledger _ = _
    rw [Itinerary.step, hplace, hledger]
    rfl

theorem close_spec {at? : Option Nat} (hp : t.place? i = some at?) : t.Follows (.close i) := by
  have hplace : t.itinerary.place? i = some at? := hp
  cases at? with
  | none =>
    refine ⟨{}, { t with cursors := t.cursors.set i .finished }, ?_, .cursors h ?_ ?_⟩
    · rw [step, hp, Itinerary.step, hplace]
      rfl
    · rw [(place_spec hp).2, pinOn_none]
    · rw [Itinerary.step, hplace]
      rfl
  | some s =>
    obtain ⟨freed, store, gone, he, hsound, hl, hc, hpairs, hd⟩ := Store.unpin_spec (h.at_place hp)
    refine ⟨freed, ⟨store, t.cursors.set i .finished⟩, ?_, .of_change h hsound ?_ hc hpairs fun _ => hd⟩
    · rw [step, hp, Itinerary.step, hplace]
      simp only [bind, Except.bind]
      rw [he]
      rfl
    · rw [Itinerary.step, hplace]
      exact congrArg (Itinerary.mk · _) hl

theorem abandon_spec {at? : Option Nat} (hp : t.place? i = some at?) : t.Follows (.abandon i) := by
  have hplace : t.itinerary.place? i = some at? := hp
  obtain ⟨hi, hpins⟩ := place_spec hp
  have hpin : (Position.left at?).pin? = at? := by cases at? <;> rfl
  refine ⟨{}, { t with cursors := t.cursors.set i (.left at?) }, ?_, .cursors h ?_ ?_⟩
  · rw [step, hp, Itinerary.step, hplace]
    rfl
  · rw [hpins, pinsOf_set hi, hpin]
  · rw [Itinerary.step, hplace]
    rfl

/-- Nothing can be done with a cursor that has no place. -/
theorem unplaced_spec (hp : t.place? i = none) (m : Turn) : t.Follows (m.of i) := by
  have hplace : t.itinerary.place? i = none := hp
  refine .same h ?_ ?_
  · cases m <;> rw [Turn.of, step, hp, Itinerary.step, hplace] <;> rfl
  · cases m <;> rw [Turn.of, Itinerary.step, hplace]

theorem modify_spec (s : Nat) (f : ν → ν) : t.Follows (.modify s f) := by
  have hm := Store.modifyValue?_spec h s f
  cases hr : t.store.ledger.row? s with
  | none =>
    have hrow : t.itinerary.ledger.row? s = none := hr
    refine .same h ?_ ?_
    · rw [step, hm, hr, Itinerary.step, hrow]
      rfl
    · rw [Itinerary.step, hrow]
  | some r =>
    have hrow : t.itinerary.ledger.row? s = some r := hr
    have hlive : t.store.chain.Live s := live_iff_row?.mpr ⟨r, by rw [← Store.Sound.row?_eq h, hr]⟩
    refine ⟨{}, { t with store := { t.store with chain := t.store.chain.revalued s f } }, ?_,
      .of_change h (Store.Sound.revalued h s f) ?_ ⟨.revalued hlive f, rfl⟩ rfl fun _ => .nil⟩
    · rw [step, hm, hr, Itinerary.step, hrow]
      rfl
    · rw [Itinerary.step, hrow]
      exact congrArg (Itinerary.mk · _) (Store.ledger_revalued h s f)

/-- Every command is answered as on the itinerary. -/
theorem step_spec (c : Command ν) : t.Follows c := by
  cases c with
  | upsert k v =>
    obtain ⟨store, he, hs, hl, hc⟩ := Store.upsert_spec h k v
    refine ⟨{}, { t with store }, ?_, .of_change h hs ?_ hc rfl fun _ => .nil⟩
    · rw [step, he]
      rfl
    · exact congrArg (Itinerary.mk · _) hl
  | remove k =>
    obtain ⟨freed, store, gone, he, hsome, hs, hl, hc, hp, hd⟩ := Store.remove_spec h k
    refine ⟨freed.getD {}, { t with store }, ?_, .of_change h hs ?_ hc hp fun _ => hd⟩
    · rw [step, he, Itinerary.step]
      simp only [bind, Except.bind, hsome]
      rfl
    · exact congrArg (Itinerary.mk · _) hl
  | clear =>
    obtain ⟨freed, store, gone, he, hs, hl, hc, hp⟩ := Store.clear_spec h
    refine ⟨freed, { t with store }, ?_, .of_change h hs ?_ hc hp fun hne => absurd rfl hne⟩
    · rw [step, he]
      rfl
    · exact congrArg (Itinerary.mk · _) hl
  | find k =>
    refine .same h ?_ rfl
    rw [step, Store.find_spec h]
    rfl
  | contains k =>
    refine .same h ?_ rfl
    rw [step, Store.contains_spec h]
    rfl
  | lookup k =>
    refine .same h ?_ rfl
    rw [step, Store.lookup_spec h]
    rfl
  | modify s f => exact modify_spec h s f
  | key s =>
    refine .same h ?_ rfl
    rw [step, Store.key?_spec h]
    rfl
  | value s =>
    refine .same h ?_ rfl
    rw [step, Store.value?_spec h]
    rfl
  | entries =>
    refine .same h ?_ rfl
    rw [step, Store.entries_spec h]
    rfl
  | len =>
    refine .same h ?_ rfl
    have hlen : t.store.chain.rows.length = t.store.len := h.balanced.toLinked.length_rows
    have hempty : t.store.isEmpty = t.store.chain.rows.isEmpty := by
      show decide (t.store.len = 0) = _
      rw [← hlen, Bool.eq_iff_iff, decide_eq_true_eq, List.isEmpty_iff_length_eq_zero]
    rw [step, ← hlen, hempty]
    rfl
  | start => exact ⟨{}, _, rfl, .cursors h (pinsOf_append _) rfl⟩
  | advance i =>
    cases hp : t.place? i with
    | none => exact unplaced_spec h hp .advance
    | some at? => exact advance_spec h hp
  | close i =>
    cases hp : t.place? i with
    | none => exact unplaced_spec h hp .close
    | some at? => exact close_spec h hp
  | abandon i =>
    cases hp : t.place? i with
    | none => exact unplaced_spec h hp .abandon
    | some at? => exact abandon_spec h hp

end

/-! ## many steps -/

theorem run_spec (h : t.Sound) (commands : List (Command ν)) :
    ∃ t', t.run commands = .ok ((t.itinerary.run commands).1, t') ∧ t'.Sound ∧
      t'.itinerary = (t.itinerary.run commands).2 := by
  induction commands generalizing t with
  | nil => exact ⟨t, rfl, h, rfl⟩
  | cons c rest ih =>
    obtain ⟨freed, t', he, htook⟩ := step_spec h c
    obtain ⟨t'', he', hs, hi⟩ := ih htook.sound
    rw [htook.itinerary] at he' hi
    refine ⟨t'', ?_, hs, hi⟩
    rw [run, he]
    simp only [bind, Except.bind]
    rw [he']
    rfl

/-- **A store with cursors answers like a list of rows with serials.**  Whatever is done to it, with
whatever hashes, no command fails, and every reply is the one that the itinerary gives. -/
theorem replies_eq (hasher : Token → UInt64) (commands : List (Command ν)) :
    ((start hasher).run commands).map (·.1) = .ok (Itinerary.start.run commands).1 := by
  obtain ⟨t, he, _, _⟩ := run_spec (sound_start hasher) commands
  rw [he]
  rfl

end Tour

end LiveOrder
