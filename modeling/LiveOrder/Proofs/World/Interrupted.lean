import LiveOrder.Proofs.World.Atomicity
import LiveOrder.Proofs.World.Reactions

/-!
# Steps and walks that are interrupted

A step moves its cursor, releases what the move has freed, and copies the entry where the cursor is then.

* `Parked`             a cursor on an entry, which counts one pin of it;
* `ClosesAt`           what it is to close a cursor there;
* `advance_refused`    a step is refused before it moves: nothing changes;
* `copy_failed`        a step whose copy fails has parked its cursor;
* `Walked`, `FailsAt`  the visits of a whole walk that succeed, and one that fails;
* `interruptions`      all of this, and that a walk whose visit fails ends as one that is closed there.
-/

namespace LiveOrder.World

open Act Situation Table

variable {run : Runner} {w v u : World} {others lent : Hands} {r id s : Nat} {last next : Option Nat}
  {kind : Kind} {selection : Selection} {e : Failure} {c : Container}

/-! ## a cursor on an entry -/

/-- The pins on the entries of a container, without those of the cursor. -/
def pinsWithout (w : World) (others : Hands) (id r : Nat) : Nat → Nat :=
  fun s => ({ w with walks := erase id w.walks }.assets + others).count (.pin r s)

/-- The cursor is parked on an entry of a container that is not in use.  Every entry counts its pins,
those of this cursor being one on that entry, and the removed entries that lean on it. -/
structure Parked (w : World) (others : Hands) (id r s : Nat) (c : Container) : Prop where
  row : get? id w.walks = some ⟨some r, some s⟩
  there : containerAt? w.cells r = some c
  idle : c.access = .shared 0
  held : ∃ x, c.store.chain.arena.get? s = some x
  counted : ∀ p x, c.store.chain.arena.get? p = some x →
    x.refs = w.pinsWithout others id r p + (if p = s then 1 else 0) + c.store.chain.leaning p

theorem InOrder.sound_without (hw : w.InOrder (others + cursorAt id (some ⟨some r, some s⟩)))
    (hc : containerAt? w.cells r = some c) :
    c.store.Sound (Chain.pinOn (some s) (w.pinsWithout others id r)) := by
  have hs := (hw.eraseRow.of_eq (add_assoc others (handles [r]) (pinAt r (some s)))).store_sound hc
  convert hs using 2
  funext p
  simp [pinsWithout]

theorem InOrder.parked (hw : w.InOrder (others + cursorAt id (some ⟨some r, some s⟩)))
    (hc : containerAt? w.cells r = some c) (ha : c.access = .shared 0) : w.Parked others id r s c where
  row := hw.known (by simp)
  there := hc
  idle := ha
  held := by
    obtain ⟨x, hx, _⟩ := Store.pinned_spec (hw.sound_without hc) (s := s) (by
      rw [Chain.pinOn_self]
      exact Nat.succ_pos _)
    exact ⟨x, hx⟩
  counted p x hx := by
    rw [(hw.sound_without hc).balanced.counted hx, Chain.pinOn]
    simp [eq_comm]

/-- A cursor that is parked on an entry is closed there: every entry counts the pins of the others from
then on, none is left behind, and what is freed is released before the container is given up. -/
def ClosesAt (run : Runner) (w : World) (others : Hands) (id r s : Nat) : Prop :=
  ∃ c freed t, w.Parked others id r s c ∧ c.store.unpin s = .ok (freed, t) ∧
    t.Sound (w.pinsWithout others id r) ∧
    closeWalk run id w = Act.always
      (do
        tell freed.notices
        discard run (debrisOf freed.pairs))
      (discard run [.handle r]) ({ w with walks := erase id w.walks }.changed r { c with store := t })

theorem closesAt (run : Runner) (hw : w.InOrder (others + cursorAt id (some ⟨some r, some s⟩)))
    (h : w.Parked others id r s c) : w.ClosesAt run others id r s := by
  obtain ⟨freed, t, hunpin, hsound, _, hclose⟩ := closeWalk_idle run hw h.there h.idle
  exact ⟨c, freed, t, h, hunpin, hsound _ (hw.sound_without h.there), hclose⟩

/-! ## steps -/

/-- A step is refused while its container is in use. -/
theorem advance_refused (hw : w.InOrder (others + cursorAt id (some ⟨some r, last⟩)))
    (hc : containerAt? w.cells r = some c) (ha : c.access ≠ .shared 0) :
    advance run id kind selection w = (.error .conflict, w) := by
  rw [advance_eq hw, bind_apply, depart, bind_apply, move, exclusively, exclusivelyOr_conflicts hc ha]
  rfl

/-- A container that was not in use is not in use at a later time. -/
theorem idle_later {hands : Hands} (hw : w.InOrder hands) (hc : containerAt? w.cells r = some c)
    (ha : c.access = .shared 0) (hon : Onward w v)
    (hv : v.InOrder (others + cursorAt id (some ⟨some r, last⟩))) :
    ∃ d, containerAt? v.cells r = some d ∧ d.access = .shared 0 := by
  obtain ⟨n, hn⟩ := containerAt?_eq_some_iff.mp hc
  have hhas : v.Has r := hv.has_of_cursor (Multiset.mem_add.mpr (.inr (Multiset.mem_singleton_self _)))
  obtain ⟨d, hd, hform, _⟩ := container_of_onward hon hc (hw.books.lt_fresh hn) hhas
  exact ⟨d, hd, (Form.container.inj hform).2.1.trans ha⟩

theorem depart_open (hw : w.InOrder (others + cursorAt id (some ⟨some r, last⟩)))
    (h : depart run id r last w = (.ok next, v)) :
    ∃ c, containerAt? w.cells r = some c ∧ c.access = .shared 0 := by
  obtain ⟨y, u, hmove, _⟩ := bind_eq_ok.mp h
  rcases move_cases hw with ⟨e, he⟩ | ⟨c, _, _, hc, ha, _⟩
  · rw [he] at hmove
    cases hmove
  · exact ⟨c, hc, ha⟩

section
variable (hrun : run.Safe)
include hrun

/-- A step that has come to an entry, and then failed. -/
theorem copy_failed (hw : w.InOrder (others + cursorAt id (some ⟨some r, last⟩)))
    (hdepart : depart run id r last w = (.ok (some s), u))
    (hland : land run id r kind selection (some s) u = (.error e, v)) :
    v.InOrder (others + cursorAt id (some ⟨some r, some s⟩)) ∧ ∃ d, v.Parked others id r s d := by
  obtain ⟨c, hc, ha⟩ := depart_open hw hdepart
  obtain ⟨hu, hon⟩ := (depart_owns hrun last).holding_of_ok (Multiset.zero_subset others) hw hdepart
  obtain ⟨_, hv, hopened⟩ := (park_owns hrun kind selection).of_error
    (Multiset.zero_subset others) ⟨hu, trivial⟩ hland
  obtain ⟨d, hd, hidle⟩ := idle_later hw hc ha (hon.trans hopened.toOnward) hv
  exact ⟨hv, d, hv.parked hd hidle⟩

/-- A step that has come to an entry and yields it. -/
theorem advance_parked {y : Yield} (hw : w.InOrder (others + cursorAt id (some ⟨some r, last⟩)))
    (h : advance run id kind selection w = (.ok (some y), v)) :
    ∃ s, v.InOrder (others + (cursorAt id (some ⟨some r, some s⟩) + y.assets)) ∧
      (∃ c, containerAt? w.cells r = some c ∧ c.access = .shared 0) ∧ Onward w v := by
  obtain ⟨next, u, hdepart, hland⟩ := bind_eq_ok.mp ((advance_eq hw).symm.trans h)
  obtain ⟨hu, hon⟩ := (depart_owns hrun last).holding_of_ok (Multiset.zero_subset others) hw hdepart
  cases next with
  | none => cases (land_yields hland).mpr rfl
  | some s =>
    obtain ⟨hv, hon'⟩ := (park_owns hrun kind selection).holding_of_ok
      (Multiset.zero_subset others) hu hland
    exact ⟨s, hv, depart_open hw hdepart, hon.trans hon'⟩

end

/-- A step that succeeds leaves its cursor where it has come to. -/
theorem advance_landed (hrun : run.Safe) {y? : Option Yield}
    (hw : w.InOrder (others + cursorAt id (some ⟨some r, last⟩)))
    (h : advance run id kind selection w = (.ok y?, v)) :
    ∃ next u, depart run id r last w = (.ok next, u) ∧
      land run id r kind selection next u = (.ok y?, v) ∧ (y? = none ↔ next = none) ∧
      w.Chooses r last next ∧ get? id v.walks = some (landed r next) := by
  obtain ⟨next, u, hdepart, hland, hyields, hchooses, _⟩ := advance_chosen hrun hw h
  obtain ⟨hu, _⟩ := (depart_owns hrun last).holding_of_ok (Multiset.zero_subset others) hw hdepart
  obtain ⟨hv, _⟩ := (land_owns hrun kind selection next).holding_of_ok (Multiset.zero_subset others)
    hu hland
  exact ⟨next, u, hdepart, hland, hyields, hchooses, hv.known (by simp)⟩

/-! ## walks -/

section
variable {β : Type} {p : β → Prop} {visit : Nat → Yield → Act β} {x x' : Course} {w' : World}

/-- A walk has come from one place to another by visits that succeed. -/
inductive Walked (run : Runner) (id : Nat) (kind : Kind) (visit : Nat → Yield → Act β) :
    Course → World → Course → World → Prop where
  | here (x : Course) (w : World) : Walked run id kind visit x w x w
  | visit {x x' : Course} {w u z v : World} {y : Yield} {b : β} {stop : Stop} :
      advance run id kind (visitSelection kind) w = (.ok (some y), u) →
      stopAt id y (visit x.stops.length y) u = (.ok (b, stop), z) →
      Walked run id kind visit { x with stops := x.stops ++ [stop] } z x' v →
      Walked run id kind visit x w x' v

/-- The next visit of a walk, to this entry, fails: the entry cannot be copied, or the user code that is
given the copy fails. -/
inductive FailsAt (run : Runner) (id r : Nat) (kind : Kind) (visit : Nat → Yield → Act β) (x : Course)
    (w : World) (s : Nat) (e : Failure) (v : World) : Prop where
  | copy {last : Option Nat} {u : World} : get? id w.walks = some ⟨some r, last⟩ →
      depart run id r last w = (.ok (some s), u) →
      land run id r kind (visitSelection kind) (some s) u = (.error e, v) →
      FailsAt run id r kind visit x w s e v
  | callback {y : Yield} {u : World} :
      advance run id kind (visitSelection kind) w = (.ok (some y), u) →
      get? id u.walks = some ⟨some r, some s⟩ → visit x.stops.length y u = (.error e, v) →
      FailsAt run id r kind visit x w s e v

theorem Walked.length_le (h : Walked run id kind visit x w x' w') :
    x.stops.length ≤ x'.stops.length := by
  induction h with
  | here => exact Nat.le_refl _
  | visit _ _ _ ih =>
    rw [List.length_append] at ih
    exact Nat.le_trans (Nat.le_add_right _ _) ih

/-- A walk fails as it does where it has come to. -/
theorem forEachFrom_walked {fuel : Nat} (h : Walked run id kind visit x w x' w')
    (hfails : ∀ n, forEachFrom run id kind visit (n + 1) x' w' = (.error e, v))
    (hfuel : x'.stops.length < x.stops.length + fuel) :
    forEachFrom run id kind visit fuel x w = (.error e, v) := by
  induction h generalizing fuel with
  | here x w =>
    obtain ⟨n, rfl⟩ : ∃ n, fuel = n + 1 := ⟨fuel - 1, by omega⟩
    exact hfails n
  | visit hadvance hstop hrest ih =>
    have hle := hrest.length_le
    rw [List.length_append, List.length_singleton] at hle
    obtain ⟨n, rfl⟩ : ∃ n, fuel = n + 1 := ⟨fuel - 1, by omega⟩
    rw [forEachFrom, bind_of_ok hadvance]
    dsimp only
    rw [bind_of_ok hstop]
    dsimp only
    rw [bind_apply, ih hfails (by rw [List.length_append, List.length_singleton]; omega)]

theorem stopAt_eq {y : Yield} {x : Walk} {visit : Act β} {hands : Hands}
    (hw : w.InOrder (hands + cursorAt id (some x))) :
    stopAt id y visit w = (visit >>= fun b => do
      pure (b, ⟨x.last, y, w.cells, (← get).cells⟩)) w := by
  rw [stopAt, bind_of_ok hw.walk_eq]
  rfl

section
variable (hlent : lent ⊆ others) (hvisit : ∀ n y, Owns lent y.assets (visit n y) (fun b => plain 0 (p b)) 0)
include hlent hvisit

/-- A visit does not move the cursor, whether it fails or not. -/
theorem visit_known {y : Yield} {z : Walk} {n : Nat} {o : Except Failure β}
    (hw : w.InOrder (others + (cursorAt id (some z) + y.assets))) (h : visit n y w = (o, v)) :
    v.InOrder (others + cursorAt id (some z)) ∧ Onward w v := by
  have hbeside := (hvisit n y).beside (cursorAt id (some z))
  have hbegun : Situation.Holds ↑(y.assets + cursorAt id (some z)) others w :=
    ⟨hw.of_eq (congrArg (others + ·) (add_comm _ _)), trivial⟩
  cases o with
  | error e =>
    obtain ⟨_, hv, hopened⟩ := hbeside.of_error hlent hbegun h
    exact ⟨hv.of_eq (congrArg (others + ·) (zero_add _).symm), hopened.toOnward⟩
  | ok b =>
    obtain ⟨hv, hsteady⟩ := hbeside.of_ok hlent hbegun h
    exact ⟨hv.1.of_eq (congrArg (others + ·) (zero_add _).symm), hsteady.toOnward⟩

variable (hrun : run.Safe)
include hrun

/-- Between two visits the cursor has its container. -/
theorem Walked.inOrder (h : Walked run id kind visit x w x' w')
    (hw : w.InOrder (others + cursorAt id (some ⟨some r, last⟩))) :
    ∃ last, w'.InOrder (others + cursorAt id (some ⟨some r, last⟩)) := by
  induction h generalizing last with
  | here x w => exact ⟨last, hw⟩
  | @visit x x' w u z v y b stop hadvance hstop _ ih =>
    obtain ⟨s, hu, _, _⟩ := advance_parked hrun hw hadvance
    have hu' : u.InOrder (others + y.assets + cursorAt id (some ⟨some r, some s⟩)) := hu.of_eq (by abel)
    rw [stopAt_eq hu'] at hstop
    obtain ⟨_, _, hvisited, hdone⟩ := bind_eq_ok.mp hstop
    cases hdone
    exact ih (visit_known hlent hvisit hu hvisited).1

/-- A visit that fails leaves the cursor on the entry, of a container that is not in use, and ends the
walk. -/
theorem FailsAt.parked (h : FailsAt run id r kind visit x w s e v)
    (hw : w.InOrder (others + cursorAt id (some ⟨some r, last⟩))) :
    v.InOrder (others + cursorAt id (some ⟨some r, some s⟩)) ∧ (∃ d, v.Parked others id r s d) ∧
      ∀ n, forEachFrom run id kind visit (n + 1) x w = (.error e, v) := by
  cases h with
  | @copy last' u hrow hdepart hland =>
    have hsame : get? id w.walks = some ⟨some r, last⟩ := hw.known (by simp)
    rw [hrow] at hsame
    cases hsame
    obtain ⟨hv, hparked⟩ := copy_failed hrun hw hdepart hland
    refine ⟨hv, hparked, fun n => ?_⟩
    have hadvance : advance run id kind (visitSelection kind) w = (.error e, v) := by
      rw [advance_eq hw, bind_of_ok hdepart, hland]
    rw [forEachFrom, bind_apply, hadvance]
  | @callback y u hadvance hrow hfails =>
    obtain ⟨s', hu, ⟨c, hc, ha⟩, hon⟩ := advance_parked hrun hw hadvance
    have hu' : u.InOrder (others + y.assets + cursorAt id (some ⟨some r, some s'⟩)) := hu.of_eq (by abel)
    have hsame : get? id u.walks = some ⟨some r, some s'⟩ := hu'.known (by simp)
    rw [hrow] at hsame
    cases hsame
    obtain ⟨hv, hon'⟩ := visit_known hlent hvisit hu hfails
    obtain ⟨d, hd, hidle⟩ := idle_later hw hc ha (hon.trans hon') hv
    refine ⟨hv, ⟨d, hv.parked hd hidle⟩, fun n => ?_⟩
    rw [forEachFrom, bind_of_ok hadvance]
    dsimp only
    rw [bind_apply, stopAt_eq hu', bind_apply, hfails]

/-- A walk whose visit fails is closed there, and that is its end. -/
theorem forEach_interrupted {z : World} (hw : w.InOrder others) (hr : .handle r ∈ lent)
    (hc : containerAt? w.cells r = some c) (hopen : openWalk r w = (.ok id, z))
    (hwalked : Walked run id c.kind visit ⟨r, z.cells, []⟩ z x u)
    (hlimit : x.stops.length < z.limits.rounds) (hfails : FailsAt run id r c.kind visit x u s e v) :
    v.ClosesAt run others id r s ∧
      forEach run r visit w = (.error (e.leaving (closeWalk run id v).1), (closeWalk run id v).2) := by
  obtain ⟨hz, _⟩ := (openWalk_begin_owns hr).of_ok hlent ⟨hw.of_eq (add_zero others), hc⟩ hopen
  obtain ⟨last, hu⟩ := hwalked.inOrder hlent hvisit hrun hz.1
  obtain ⟨hv, ⟨d, hparked⟩, hends⟩ := hfails.parked hlent hvisit hrun hu
  have hfrom : forEachFrom run id c.kind visit z.limits.rounds ⟨r, z.cells, []⟩ z = (.error e, v) :=
    forEachFrom_walked hwalked hends (by simpa using hlimit)
  refine ⟨closesAt run hv hparked, ?_⟩
  rw [forEach, bind_of_ok (container_eq hc), bind_of_ok hopen, get_bind_apply, always_apply, hfrom]

end

end

/-- A step or a whole walk that is interrupted keeps its cursor in order.  A step that is refused changes
nothing.  One whose copy fails has parked its cursor on the entry, which counts one pin of it, and the next
step that succeeds comes from there to the first live entry after it, or to the end.  A whole walk whose
copy or callback fails, at whatever visit, ends as one that is closed at that entry: its pin is given
up. -/
theorem interruptions (depth : Nat) {others : Hands} {w : World} {r : Nat} {c : Container}
    (hc : containerAt? w.cells r = some c) :
    (∀ id last kind selection, w.InOrder (others + cursorAt id (some ⟨some r, last⟩)) →
      c.access ≠ .shared 0 →
      advance (runSteps depth) id kind selection w = (.error .conflict, w)) ∧
    (∀ id last kind selection s u e v, w.InOrder (others + cursorAt id (some ⟨some r, last⟩)) →
      depart (runSteps depth) id r last w = (.ok (some s), u) →
      land (runSteps depth) id r kind selection (some s) u = (.error e, v) →
      advance (runSteps depth) id kind selection w = (.error e, v) ∧ w.Chooses r last (some s) ∧
      v.InOrder (others + cursorAt id (some ⟨some r, some s⟩)) ∧ ∃ d, v.Parked others id r s d) ∧
    (∀ id s kind selection others' y y? z,
      y.InOrder (others' + cursorAt id (some ⟨some r, some s⟩)) →
      advance (runSteps depth) id kind selection y = (.ok y?, z) →
      ∃ next u, depart (runSteps depth) id r (some s) y = (.ok next, u) ∧
        land (runSteps depth) id r kind selection next u = (.ok y?, z) ∧ (y? = none ↔ next = none) ∧
        y.Chooses r (some s) next ∧ get? id z.walks = some (landed r next)) ∧
    ∀ (β : Type) (p : β → Prop) (visit : Nat → Yield → Act β) id z x u s e v, w.InOrder others →
      .handle r ∈ others → (∀ n y, Owns others y.assets (visit n y) (fun b => plain 0 (p b)) 0) →
      openWalk r w = (.ok id, z) →
      Walked (runSteps depth) id c.kind visit ⟨r, z.cells, []⟩ z x u →
      x.stops.length < z.limits.rounds → FailsAt (runSteps depth) id r c.kind visit x u s e v →
      v.ClosesAt (runSteps depth) others id r s ∧
        forEach (runSteps depth) r visit w =
          (.error (e.leaving (closeWalk (runSteps depth) id v).1),
            (closeWalk (runSteps depth) id v).2) := by
  have hrun := runSteps_safe depth
  refine ⟨fun id last kind selection hw ha => advance_refused hw hc ha, ?_,
    fun id s kind selection others' y y? z hy h => advance_landed hrun hy h, ?_⟩
  · intro id last kind selection s u e v hw hdepart hland
    refine ⟨?_, depart_chooses hw hdepart, copy_failed hrun hw hdepart hland⟩
    rw [advance_eq hw, bind_of_ok hdepart, hland]
  · intro β p visit id z x u s e v hw hr hvisit hopen hwalked hlimit hfails
    exact forEach_interrupted (Multiset.Subset.refl others) hvisit hrun hw hr hc hopen hwalked hlimit
      hfails

/-- A value that cannot be copied: its reaction changes the map, which is being read. -/
def copying : List Op :=
  [.container .map "m" [(.text .slice "a", .tracked 1 none
      (some [.mk (.delete (.named "m") (.text .slice "a")) true]))],
    .iterate (.named "m") .values "i"]

/-- A key that is asked for in the map, and changes it while it is searched. -/
def disturbing : List Step :=
  [.mk (.has (.named "m") (.reacting (.text .slice "a")
    [.mk (.delete (.named "m") (.text .slice "b")) true])) true]

/-- A step fails with the copy, and a walk fails with its first visit. -/
theorem interruptions_copying :
    (∃ (w u v : World) (e : Failure), w.InOrder (0 + cursorAt 0 (some ⟨some 0, none⟩)) ∧
      depart (runSteps 8) 0 0 none w = (.ok (some 0), u) ∧
      land (runSteps 8) 0 0 .map .values (some 0) u = (.error e, v) ∧
      advance (runSteps 8) 0 .map .values w = (.error e, v) ∧ ∃ d, v.Parked 0 0 0 0 d) ∧
    ∃ (others : Hands) (w v : World) (e : Failure), w.InOrder others ∧
      v.ClosesAt (runSteps 4) others 0 0 0 ∧
      forEach (runSteps 4) 0 (visit (runSteps 4) .map disturbing [] 1) w =
        (.error (e.leaving (closeWalk (runSteps 4) 0 v).1), (closeWalk (runSteps 4) 0 v).2) := by
  constructor
  · have hw : (stepping copying "i").InOrder (0 + cursorAt 0 (some ⟨some 0, none⟩)) :=
      stepping_inOrder (by decide +kernel) (by decide +kernel)
    have hthere : (containerAt? (stepping copying "i").cells 0).isSome = true := by decide +kernel
    have hdepart : (depart (runSteps 8) 0 0 none (stepping copying "i")).1.toOption =
        some (some 0) := by decide +kernel
    have hland : (land (runSteps 8) 0 0 .map .values (some 0)
        (depart (runSteps 8) 0 0 none (stepping copying "i")).2).1.toBool = false := by decide +kernel
    generalize stepping copying "i" = w at hw hthere hdepart hland
    obtain ⟨c, hc⟩ := Option.isSome_iff_exists.mp hthere
    obtain ⟨e, he⟩ := error_of_toBool hland
    obtain ⟨_, hcopy, _⟩ := @interruptions 8 0 w 0 c hc
    obtain ⟨hadvance, _, _, hparked⟩ := hcopy _ _ _ _ _ _ _ _ hw (ok_of_toOption hdepart) he
    exact ⟨w, _, _, e, hw, ok_of_toOption hdepart, he, hadvance, hparked⟩
  · have hw := filled_inOrder
    have hkind : (containerAt? filled.cells 0).map Container.kind = some .map := by decide +kernel
    have hopen : (openWalk 0 filled).1.toOption = some 0 := by decide +kernel
    have hrounds : 0 < (openWalk 0 filled).2.limits.rounds := by decide +kernel
    have hstep : ((advance (runSteps 4) 0 .map .entries (openWalk 0 filled).2).1.toOption.join.map
        fun y => (visit (runSteps 4) .map disturbing [] 1 0 y
          (advance (runSteps 4) 0 .map .entries (openWalk 0 filled).2).2).1.toBool) = some false := by
      decide +kernel
    have hrow : get? 0 (advance (runSteps 4) 0 .map .entries (openWalk 0 filled).2).2.walks =
        some ⟨some 0, some 0⟩ := by decide +kernel
    generalize filled = w at hw hkind hopen hrounds hstep hrow
    obtain ⟨c, hc, hkind⟩ := Option.map_eq_some_iff.mp hkind
    obtain ⟨y, hy, hvisit⟩ := Option.map_eq_some_iff.mp hstep
    obtain ⟨e, he⟩ := error_of_toBool hvisit
    have hopened := ok_of_toOption hopen
    have hadvance := ok_of_toOption (Option.join_eq_some_iff.mp hy)
    generalize (openWalk 0 w).2 = z at hopened hadvance he hrounds hrow
    generalize (advance (runSteps 4) 0 .map .entries z).2 = u at hadvance he hrow
    have hfails : FailsAt (runSteps 4) 0 0 .map (visit (runSteps 4) .map disturbing [] 1)
        ⟨0, z.cells, []⟩ z 0 e _ := .callback hadvance hrow he
    obtain ⟨_, _, _, hwalk⟩ := interruptions 4 hc
    rw [hkind] at hwalk
    obtain ⟨hcloses, hends⟩ := hwalk _ _ _ 0 _ _ _ 0 e _ hw (by simp)
      (visit_owns (runSteps_safe 4) .map disturbing [] 1) hopened (.here _ _) hrounds hfails
    exact ⟨_, w, _, e, hw, hcloses, hends⟩

end LiveOrder.World
