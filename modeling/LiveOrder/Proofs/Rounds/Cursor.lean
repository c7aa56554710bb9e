import LiveOrder.Proofs.Rounds.Entries
import LiveOrder.Proofs.Store.Notices
import LiveOrder.Proofs.World.Cursor

/-!
# Walks end

A cursor moves on in the order of insertion.  So a whole walk in whose visits nothing is run comes to its
end, since nothing is inserted, and a visit that runs something leaves less to be run.

* `Ledger.ahead`, `World.ahead`   how many serials there may be ahead of a cursor;
* `exclusively_cases`, `move_outcome`   an exclusive access is refused, or finds the container free;
* `advance_reaches`   a step of a cursor that yields something leaves less ahead;
* `openWalk_ends`, `closeWalk_ends`, `takeUpTo_ends`, `list_ends`   cursors, and some steps of them;
* `forEachFrom_ends`   so a whole walk ends, by induction on the operations that are left and what is
                     ahead.
-/

namespace LiveOrder

/-- The serials that were handed out after a position. -/
def Ledger.ahead {ν : Type} (l : Ledger ν) (last : Option Nat) : Nat := l.fresh - last.elim 0 (· + 1)

theorem Ledger.ahead_lt {ν : Type} {l : Ledger ν} {last : Option Nat} {q : Row ν} (hl : l.Sound)
    (hq : l.after last = some q) : l.ahead (some q.serial) < l.ahead last := by
  have hlt := hl.below q (List.mem_of_find?_eq_some hq)
  have hafter : After last q.serial := by
    simpa using List.find?_some (p := fun q : Row ν => decide (After last q.serial)) hq
  unfold ahead
  cases last with
  | none =>
    simp only [Option.elim]
    omega
  | some s =>
    have hs : s < q.serial := hafter
    simp only [Option.elim]
    omega

theorem Store.advance_ahead {ν : Type} {t t' : Store ν} {pins : Nat → Nat} {last next : Option Nat}
    {freed : Freed ν} (hs : t.Sound (Chain.pinOn last pins)) (he : t.advance last = .ok (next, freed, t')) :
    t'.ledger = t.ledger ∧ ∀ s, next = some s → t.ledger.ahead (some s) < t.ledger.ahead last := by
  obtain ⟨freed', t'', _, he', _, hledger, _⟩ := Store.advance_spec hs
  rw [he, Except.ok.injEq, Prod.mk.injEq, Prod.mk.injEq] at he'
  obtain ⟨hnext, _, rfl⟩ := he'
  refine ⟨hledger, fun s hsome => ?_⟩
  obtain ⟨q, hq, rfl⟩ := Option.map_eq_some_iff.mp (hnext.symm.trans hsome)
  exact Ledger.ahead_lt hs.ledger_sound hq

namespace World

open Act Table

variable {R : World → World → Prop} [Lax R] {run : Runner} {w v : World} {pins : List (Nat × Nat)}
  {id r : Nat} {c : Container}

/-! ## what is ahead of a cursor -/

/-- The serials that there may be ahead of a cursor that has a container. -/
def ahead (w : World) (id : Nat) : Nat :=
  (get? id w.walks).elim 0 fun x => x.store.elim 0 fun r =>
    (containerAt? w.cells r).elim 0 fun c => c.store.ledger.ahead x.last

/-- In the end no more is ahead than there would be in the same store. -/
theorem ahead_le {last : Option Nat} {n : Nat} (hx : get? id w.walks = some ⟨some r, last⟩)
    (hc : ∀ c, containerAt? w.cells r = some c → c.store.ledger.ahead last ≤ n) : w.ahead id ≤ n := by
  simp only [ahead, hx, Option.elim]
  cases hd : containerAt? w.cells r with
  | none => exact Nat.zero_le _
  | some c => exact hc c hd

theorem ahead_eq {last : Option Nat} (hx : get? id w.walks = some ⟨some r, last⟩)
    (hc : containerAt? w.cells r = some c) : w.ahead id = c.store.ledger.ahead last := by
  simp only [ahead, hx, hc, Option.elim]

end World

theorem Unmoved.ahead_le {w v : World} (h : Unmoved w v) (id : Nat) : v.ahead id ≤ w.ahead id := by
  cases hx : Table.get? id v.walks with
  | none =>
    unfold World.ahead
    rw [hx]
    exact Nat.zero_le _
  | some x =>
    obtain ⟨store, last⟩ := x
    cases store with
    | none =>
      unfold World.ahead
      rw [hx]
      exact Nat.zero_le _
    | some r =>
      refine World.ahead_le hx fun c hc => ?_
      obtain ⟨d, hd, hstore⟩ := h.stores hc
      rw [World.ahead_eq (h.walks ▸ hx) hd, hstore]

namespace World

open Act Table

variable {R : World → World → Prop} [Lax R] {run : Runner} {w v : World} {pins : List (Nat × Nat)}
  {id r : Nat} {c : Container}

/-! ## table of cursors -/

theorem walk_eq (w : World) (id : Nat) : ∃ x, (∀ n, walk id (w.upTo n) = (.ok x, w.upTo n)) ∧
    (get? id w.walks = some x ∨ get? id w.walks = none ∧ x = ⟨none, none⟩) := by
  cases hx : get? id w.walks with
  | none =>
    refine ⟨_, fun n => ?_, .inr ⟨rfl, rfl⟩⟩
    have hx' : get? id (w.upTo n).walks = none := hx
    rw [walk, get_bind_apply, hx']
    rfl
  | some x =>
    refine ⟨x, fun n => ?_, .inl rfl⟩
    have hx' : get? id (w.upTo n).walks = some x := hx
    rw [walk, get_bind_apply, hx']
    rfl

theorem openWalk_ends (r : Nat) : Ends Anyhow (openWalk r) Anything := by
  refine (retain_ends r).bind fun _ _ pins w hw => ?_
  refine ⟨.ok w.freshWalk, _, .of_eq fun n => rfl, ?_, hw.openWalk (x := ⟨some r, none⟩) rfl, trivial⟩
  exact .unspent rfl rfl (Nat.le_succ _)

theorem leak_ends (r : Nat) (s? : Option Nat) : Ends R (leak r s?) Anything :=
  .modify (fun _ _ => rfl) fun _ => .of_same rfl

/-! ## copies -/

section
variable (hrun : run.Ends)
include hrun

theorem copyEntry_ends (kind : Kind) (selection : Selection) (k : Key) (i : Item) :
    Ends R (copyEntry run kind selection k i) Anything := by
  have hkey : Ends R (do pure (Yield.key (← copyKey k))) Anything :=
    (copyKey_ends k).bind fun _ _ => .pure trivial
  have htwice : Ends R (do
      let a ← copyKey k
      let b ← copyKey k
      pure (Yield.twice a b)) Anything :=
    (copyKey_ends k).bind fun _ _ => (copyKey_ends k).bind fun _ _ => .pure trivial
  have hitem : Ends R (do pure (Yield.item (← copyItem run i))) Anything :=
    (copyItem_ends hrun i).bind fun _ _ => .pure trivial
  have hentry : Ends R (do
      let k ← copyKey k
      let i ← Act.onFailure (copyItem run i) (discard run [.key k])
      pure (Yield.entry k i)) Anything :=
    (copyKey_ends k).bind fun k' _ =>
      ((copyItem_ends hrun i).onFailure (discard_ends hrun [.key k'])).bind fun _ _ => .pure trivial
  unfold copyEntry
  split
  · exact htwice
  · exact htwice
  · exact hkey
  · exact hkey
  · exact hkey
  · exact hkey
  · exact hitem
  · exact hentry

theorem copyAt_ends (kind : Kind) (selection : Selection) (s : Nat) :
    Ends R (copyAt run r kind selection s) Anything :=
  sharing_ends ((readStore_ends r _).bind fun e _ => copyEntry_ends hrun kind selection e.1 e.2)

end

/-! ## exclusive access -/

/-- A store operation is refused, or the container is free. -/
theorem exclusively_cases {α : Type} (w : World) (r : Nat) (op : Operation) (x : Act α) :
    (∃ e v, (∀ n, exclusively r op (searching r op x) (w.upTo n) = (.error e, v.upTo n)) ∧ Slight w v ∧
      ¬e.GivenUp) ∨
    ∃ c, containerAt? w.cells r = some c ∧ c.access = .shared 0 ∧ c.active = none := by
  have hrefused : ∀ {e : Failure} {v : World}, (∀ n, beginExclusive r (w.upTo n) = (.error e, v.upTo n)) →
      ∀ n, exclusively r op (searching r op x) (w.upTo n) = (.error e, v.upTo n) := fun he n => by
    rw [exclusively, exclusivelyOr, bind_apply, onFailure_apply, he n]
    rfl
  cases hc : containerAt? w.cells r with
  | none =>
    obtain ⟨e, v, he, hslight, hne⟩ := container_absent hc
    refine .inl ⟨e, v, hrefused fun n => ?_, hslight, hne⟩
    rw [beginExclusive, bind_apply, he n]
  | some c =>
    by_cases ha : c.access = .shared 0
    · cases hactive : c.active with
      | none => exact .inr ⟨c, rfl, ha, hactive⟩
      | some outer =>
        refine .inl ⟨.reentrant op outer, w.changed r ((c.beingChanged op).usedAs c), fun n => ?_,
          slight_changed hc rfl, id⟩
        have hin := containerAt?_changed (w := w.upTo n) hc (c.beingChanged op)
        rw [exclusively, exclusivelyOr_eq (w := w.upTo n) hc ha, always_apply,
          searching_refused hin hactive]
        dsimp only
        rw [endChanging_eq ha hin rfl, changed_changed]
        rfl
    · refine .inl ⟨.conflict, w, hrefused fun n => ?_, .refl w, id⟩
      rw [beginExclusive, bind_of_ok (container_eq (w := w.upTo n) hc)]
      cases hshared : c.access with
      | exclusive => rfl
      | shared k =>
        cases k with
        | zero => exact absurd hshared ha
        | succ k => rfl

/-- A cursor is moved if its container is free, and the pin on its next place is in hand. -/
theorem move_outcome {last : Option Nat} (hw : w.Footed pins)
    (hx : get? id w.walks = some ⟨some r, last⟩) :
    (∃ e v, (∀ n, move id r last (w.upTo n) = (.error e, v.upTo n)) ∧ Slight w v ∧ ¬e.GivenUp) ∨
    ∃ c next freed t, containerAt? w.cells r = some c ∧ c.store.advance last = .ok (next, freed, t) ∧
      (∀ n, move id r last (w.upTo n) = (.ok (next, freed), (w.moved id r c t).upTo n)) ∧
      (w.moved id r c t).Footed (pinned r next ++ pins) := by
  refine (exclusively_cases w r .advance (shift id r last)).imp_right fun ⟨c, hc, ha, hnone⟩ => ?_
  have hdeparted := hw.depart hx (y := ⟨some r, none⟩) rfl
  rw [place?_toList] at hdeparted
  obtain ⟨⟨next, freed⟩, t, hy, ht⟩ := hdeparted.storing hc (advance_moves last)
  obtain ⟨⟨next', freed', t'⟩, hadvance, he⟩ := Fault.of_bind hy
  cases he
  exact ⟨c, next, freed, t, hc, hadvance, fun n => move_eq (w := w.upTo n) hc ha hnone hadvance,
    ht { c with store := t } rfl⟩

/-! ## steps -/

section
variable (hrun : run.Ends)
include hrun

/-- A cursor that is not moved fails.  Otherwise what is freed where it was is released, and the pin on
its next place is in hand. -/
theorem depart_outcome {last : Option Nat} (hw : w.Footed pins)
    (hx : get? id w.walks = some ⟨some r, last⟩) :
    (∃ e v, Reaches (depart run id r last) w (.error e) v ∧ Spends Anyhow w v ∧ v.Footed pins ∧
      ¬e.GivenUp) ∨
    ∃ c next freed t v, containerAt? w.cells r = some c ∧ c.store.advance last = .ok (next, freed, t) ∧
      Reaches (depart run id r last) w (.ok next) v ∧ Spends Unmoved (w.moved id r c t) v ∧
      v.Footed (pinned r next ++ pins) := by
  rcases move_outcome hw hx with ⟨e, v, hmove, hslight, he⟩ | ⟨c, next, freed, t, hc, ht, hmove, hmoved⟩
  · exact .inl ⟨e, v, (Reaches.of_eq hmove).bind_error, .of_slight hslight, hw.slight hslight, he⟩
  have hrelease : Ends Unmoved (do
      tell freed.notices
      Act.onFailure (discard run (debrisOf freed.pairs)) (leak r next)
      pure next) (· = next) :=
    (tell_ends _).bind fun _ _ => ((discard_ends hrun _).onFailure (leak_ends r next)).bind fun _ _ =>
      .pure rfl
  obtain ⟨o, v, hv, hspends, hfooted, ho⟩ := hrelease _ _ hmoved
  have hdepart : Reaches (depart run id r last) w o v := (Reaches.of_eq hmove).bind hv
  cases o with
  | error e =>
    have hstart : Spends Anyhow w (w.moved id r c t) := .unspent rfl rfl (Nat.le_refl _)
    exact .inl ⟨e, v, hdepart, hstart.trans hspends.anyhow, hfooted.drop, ho⟩
  | ok next' =>
    cases ho
    exact .inr ⟨c, next, freed, t, v, hc, ht, hdepart, hspends, hfooted⟩

/-- A cursor that yields something is at its next place, unless something is run. -/
theorem land_reaches (kind : Kind) (selection : Selection) {next : Option Nat}
    (hw : w.Footed (pinned r next ++ pins)) (hid : id < w.freshWalk) :
    ∃ o v, Reaches (land run id r kind selection next) w o v ∧ Spends Anyhow w v ∧ v.Footed pins ∧
      Wholly Anything o ∧ ∀ y, o = .ok (some y) → ∃ s, next = some s ∧
        Spends Unmoved { w with walks := put id ⟨some r, some s⟩ w.walks } v := by
  have hset : ∀ x, Reaches (setWalk id x) w (.ok ()) { w with walks := put id x w.walks } := fun x =>
    .of_eq fun n => rfl
  have hspends : ∀ x, Spends Anyhow w { w with walks := put id x w.walks } := fun x =>
    .unspent rfl rfl (Nat.le_refl _)
  cases next with
  | none =>
    have hend : Ends Anyhow (do
        discard run [.handle r]
        pure none : Act (Option Yield)) (· = none) :=
      (discard_ends hrun _).bind fun _ _ => .pure rfl
    obtain ⟨o, v, hv, hspent, hfooted, ho⟩ := hend _ _ (hw.land (x := ⟨none, none⟩) hid)
    refine ⟨o, v, (hset _).bind hv, (hspends _).trans hspent, hfooted, ?_, fun y hy => ?_⟩
    · cases o with
      | ok a => trivial
      | error e => exact ho
    · rw [hy] at ho
      cases ho
  | some s =>
    have hcopy : Ends Unmoved (do
        let y ← copyAt run r kind selection s
        pure (some y)) Anything := (copyAt_ends hrun kind selection s).bind fun _ _ => .pure trivial
    obtain ⟨o, v, hv, hspent, hfooted, ho⟩ := hcopy _ _ (hw.land (x := ⟨some r, some s⟩) hid)
    exact ⟨o, v, (hset _).bind hv, (hspends _).trans hspent.anyhow, hfooted, ho,
      fun y _ => ⟨s, rfl, hspent⟩⟩

/-- A step that yields something leaves less ahead of the cursor, unless something is run. -/
theorem advance_reaches (id : Nat) (kind : Kind) (selection : Selection) (hw : w.Footed pins) :
    ∃ o v, Reaches (advance run id kind selection) w o v ∧ Spends Anyhow w v ∧ v.Footed pins ∧
      Wholly Anything o ∧ ∀ y, o = .ok (some y) → v.spent = w.spent → v.ahead id < w.ahead id := by
  obtain ⟨x, hwalk, hrow⟩ := walk_eq w id
  obtain ⟨store, last⟩ := x
  cases store with
  | none =>
    exact ⟨.ok none, w, (Reaches.of_eq hwalk).bind (.of_eq fun _ => rfl), .refl w, hw, trivial, nofun⟩
  | some r =>
    have hx : get? id w.walks = some ⟨some r, last⟩ := hrow.resolve_right nofun
    rcases depart_outcome hrun hw hx with ⟨e, v, hdepart, hspends, hfooted, he⟩ |
      ⟨c, next, freed, t, u, hc, ht, hdepart, hdeparted, hfooted⟩
    · exact ⟨.error e, v, (Reaches.of_eq hwalk).bind hdepart.bind_error, hspends, hfooted, he, nofun⟩
    have hmoved : Spends Anyhow w (w.moved id r c t) := .unspent rfl rfl (Nat.le_refl _)
    have hstart : Spends Anyhow w u := hmoved.trans hdeparted.anyhow
    have hid : id < u.freshWalk := Nat.lt_of_lt_of_le (hw.lt_freshWalk hx) hstart.freshWalk
    obtain ⟨o, v, hland, hlanded, hfooted', ho, hyield⟩ := land_reaches hrun kind selection hfooted hid
    refine ⟨o, v, (Reaches.of_eq hwalk).bind (hdepart.bind hland), hstart.trans hlanded, hfooted', ho,
      fun y hy hspent => ?_⟩
    obtain ⟨s, rfl, hcopied⟩ := hyield y hy
    have hu : u.spent = w.spent := Nat.le_antisymm (hspent ▸ hlanded.spent) hstart.spent
    have hsteady := hdeparted.idle hu
    have hlast := hcopied.idle (hspent.trans hu.symm)
    have hparted := hw.depart hx (y := ⟨some r, none⟩) rfl
    rw [place?_toList] at hparted
    obtain ⟨all, hsound, _⟩ := hparted.store_sound hc
    obtain ⟨hledger, hahead⟩ := Store.advance_ahead hsound ht
    rw [ahead_eq hx hc]
    have hrow' : get? id v.walks = some ⟨some r, some s⟩ := by
      rw [hlast.walks, get?_put, if_pos rfl]
    refine Nat.lt_of_le_of_lt (ahead_le hrow' fun e he => ?_) (hahead s rfl)
    obtain ⟨d, hd, hstore⟩ := hlast.stores he
    obtain ⟨d', hd', hstore'⟩ := hsteady.stores hd
    have hmoved' : containerAt? (w.moved id r c t).cells r = some { c with store := t } :=
      containerAt?_changed (w := { w with walks := put id ⟨some r, none⟩ w.walks }) hc _
    rw [hmoved'] at hd'
    cases hd'
    rw [← hstore, ← hstore', hledger]

theorem advance_ends (id : Nat) (kind : Kind) (selection : Selection) :
    Ends Anyhow (advance run id kind selection) Anything := by
  intro pins w hw
  obtain ⟨o, v, hv, hspends, hfooted, ho, _⟩ := advance_reaches hrun id kind selection hw
  exact ⟨o, v, hv, hspends, hfooted, ho⟩

/-- The pin of a cursor is given up if its container is free. -/
theorem closePlace_ends {s : Nat} (hw : w.Footed (pinned r (some s) ++ pins)) :
    EndsFrom w pins Anyhow
      (do
        if ← isIdle r then do
          let freed ← exclusively r .unpin <| searching r .unpin <| onStore r (·.unpin s)
          tell freed.notices
          discard run (debrisOf freed.pairs)
        else do
          leak r (some s)
          tell [.pinLeaked]) Anything := by
  have hrelease : ∀ freed : Freed Item, Ends Anyhow (do
      tell freed.notices
      discard run (debrisOf freed.pairs)) Anything := fun freed =>
    (tell_ends _).bind fun _ _ => discard_ends hrun _
  obtain ⟨o, v, hidle, hspends, hv, ho⟩ := isIdle_ends (R := Anyhow) r _ _ hw
  cases o with
  | error e => exact ⟨.error e, v, hidle.bind_error, hspends, hv.drop, ho⟩
  | ok idle =>
    refine .after hidle hspends ?_
    split
    · rcases exclusively_cases v r .unpin (onStore r (·.unpin s)) with
        ⟨e, u, he, hslight, hne⟩ | ⟨c, hc, ha, hnone⟩
      · exact ⟨.error e, u, (Reaches.of_eq he).bind_error, .of_slight hslight, (hv.slight hslight).drop,
          hne⟩
      · obtain ⟨freed, t, hy, ht⟩ := hv.storing hc (unpin_moves s)
        refine EndsFrom.after (v := v.changed r { c with store := t }) (.of_eq fun n => ?_)
          (.unspent rfl rfl (Nat.le_refl _)) (hrelease freed pins _ (ht _ rfl))
        refine exclusively_searching_eq (w := v.upTo n) (v := v.upTo n) hc hc ha hnone fun d hd => ?_
        rw [onStore_eq (containerAt?_changed (w := v.upTo n) hc d) (hd ▸ hy), changed_changed]
    · exact ((leak_ends r (some s)).bind fun _ _ => tell_ends _) pins v hv.drop

theorem closeWalk_ends (id : Nat) : Ends Anyhow (closeWalk run id) Anything := by
  intro pins w hw
  obtain ⟨x, hwalk, hrow⟩ := walk_eq w id
  have hclosed := hw.close (hrow.imp_right fun h => ⟨h.1, by rw [h.2]; rfl⟩)
  have hspends : Spends Anyhow w { w with walks := erase id w.walks } :=
    .unspent rfl rfl (Nat.le_refl _)
  refine .after (.of_eq hwalk) (.refl w) (.after (.of_eq fun n => rfl) hspends ?_)
  obtain ⟨store, last⟩ := x
  cases store with
  | none => exact Ends.pure trivial pins _ hclosed
  | some r =>
    cases last with
    | none => exact discard_ends hrun _ pins _ hclosed
    | some s => exact (closePlace_ends hrun hclosed).always (discard_ends hrun _)

/-! ## many steps -/

section
variable {β : Type} {kind : Kind} {selection : Selection} {p : β → Prop}

theorem takeUpTo_ends {use : Yield → Act β} (huse : ∀ y, Ends Anyhow (use y) Anything) (n : Nat) :
    Ends Anyhow (takeUpTo run id kind selection use n) Anything := by
  induction n with
  | zero => exact .pure trivial
  | succ n ih =>
    refine (advance_ends hrun id kind selection).bind fun y? _ => ?_
    cases y? with
    | none => exact .pure trivial
    | some y => exact (huse y).bind fun _ _ => ih.bind fun _ _ => .pure trivial

theorem takeLast_ends {use : Yield → Act β} (huse : ∀ y, Ends Anyhow (use y) Anything) (limit : Nat) :
    Ends Anyhow (takeLast run id kind selection use limit) Anything :=
  (takeUpTo_ends hrun huse limit).always (closeWalk_ends hrun id)

theorem list_ends (r : Nat) (selection : Selection) {use : Yield → Act β}
    (huse : ∀ y, Ends Anyhow (use y) Anything) (limit : Nat) :
    Ends Anyhow (list run r selection use limit) Anything :=
  (container_ends r).bind fun _ _ => (openWalk_ends r).bind fun _ _ => takeLast_ends hrun huse limit

omit hrun in
theorem walk_ends (id : Nat) : Ends R (walk id) Anything :=
  .of_slight fun w => by
    obtain ⟨x, hwalk, _⟩ := walk_eq w id
    exact ⟨.ok x, w, hwalk, .refl w, trivial⟩

omit hrun in
theorem stopAt_ends (id : Nat) (y : Yield) {visit : Act β} (hvisit : Ends R visit p) :
    Ends R (stopAt id y visit) fun b => p b.1 :=
  (walk_ends id).bind fun _ _ => .get_bind (fun _ _ => rfl) fun _ _ => hvisit.bind fun _ hb =>
    .get_bind (fun _ _ => rfl) fun _ _ => .pure hb

omit hrun in
theorem record_ends (x : Course) (complete : Bool) : Ends R (record x complete) Anything :=
  .modify (fun _ _ => rfl) fun _ => .of_same rfl

/-- A whole walk ends with enough rounds. -/
theorem forEachFrom_ends {visit : Nat → Yield → Act β} (hvisit : ∀ n y, Ends Unmoved (visit n y) p)
    (x : Course) {w : World} (hw : w.Footed pins) :
    EndsWithin w pins Anyhow (forEachFrom run id kind visit · x) fun l => ∀ b ∈ l, p b := by
  obtain ⟨o, v, hstep, hspends, hv, ho, hless⟩ := advance_reaches hrun id kind (visitSelection kind) hw
  refine .succ ?_
  cases o with
  | error e => exact ⟨.error e, v, hstep.within.bind_error, hspends, hv, ho⟩
  | ok y? =>
    refine .after hstep.within hspends ?_
    cases y? with
    | none =>
      have hdone : Ends Anyhow (do
          record x true
          pure [] : Act (List β)) fun l => ∀ b ∈ l, p b :=
        (record_ends x true).bind fun _ _ => .pure (List.forall_mem_nil _)
      exact (hdone pins v hv).within
    | some y =>
      obtain ⟨o', u, hstop, hvisited, hu, ho'⟩ := stopAt_ends id y (hvisit x.stops.length y) pins v hv
      cases o' with
      | error e => exact ⟨.error e, u, hstop.within.bind_error, hvisited.anyhow, hu, ho'⟩
      | ok bs =>
        obtain ⟨b, stop⟩ := bs
        -- what is ahead is less by the step, and no more after a visit in which nothing is run
        have hdecrease := (hspends.trans hvisited.anyhow).lex fun hspent => by
          have hsame : v.spent = w.spent := Nat.le_antisymm (hspent ▸ hvisited.spent) hspends.spent
          exact Nat.lt_of_le_of_lt ((hvisited.idle (hspent.trans hsame.symm)).ahead_le id)
            (hless y rfl hsame)
        refine .after hstop.within hvisited.anyhow (.bind
          (forEachFrom_ends hvisit { x with stops := x.stops ++ [stop] } hu) fun rest hrest => ?_)
        exact .pure (List.forall_mem_cons.mpr ⟨ho', hrest⟩)
termination_by (w.limits.ops - w.spent, w.ahead id)
decreasing_by exact hdecrease

/-- A walk over a container with user code at every entry. -/
theorem forEach_ends (r : Nat) {visit : Nat → Yield → Act β} (hvisit : ∀ n y, Ends Unmoved (visit n y) p) :
    Ends Anyhow (forEach run r visit) fun l => ∀ b ∈ l, p b := by
  refine (container_ends r).bind fun c _ => (openWalk_ends r).bind fun id _ pins w hw => ?_
  have hwalk : EndsFrom w pins Anyhow (fun u =>
      forEachFrom run id c.kind visit u.limits.rounds ⟨r, u.cells, []⟩ u) fun l => ∀ b ∈ l, p b := by
    obtain ⟨o, v, ⟨m, h⟩, hv⟩ := forEachFrom_ends hrun hvisit ⟨r, w.cells, []⟩ hw
    exact ⟨o, v, ⟨m, fun n hn => h n n hn hn⟩, hv⟩
  exact hwalk.always (closeWalk_ends hrun id)

end

end

end World

end LiveOrder
