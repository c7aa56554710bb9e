import LiveOrder.Proofs.Scripts.Entries
import LiveOrder.Proofs.World.Cursor

/-!
# Cursors over script containers

A container is free whenever a cursor is moved or closed.  So a step is not refused, and the pin of a
cursor that is closed is given up.

* `depart_leads`, `land_leads`   the two parts of a step;
* `openWalk_calm`, `advance_calm`, `closeWalk_calm`   a cursor's life;
* `takeUpTo_calm`, `list_calm`, `forEach_calm`   many steps, by induction on their number.

Between the parts of a step the cursor has no place, and the pin on its next one is in hand.
-/

namespace LiveOrder.World

open Act Table

variable {run : Runner} {w : World} {g : Grip} {r s id : Nat}

/-! ## copies -/

theorem copyEntry_calm (kind : Kind) (selection : Selection) (k : Key) {i : Item}
    (hi : Untracked i.assets) :
    Calm g (copyEntry run kind selection k i) fun y => Untracked y.assets := by
  have hkey : Calm g (do pure (Yield.key (← copyKey k))) fun y => Untracked y.assets :=
    (copyKey_calm k).bind fun k' _ => .pure (Yield.assets_key k' ▸ untracked_handles _)
  have htwice : Calm g (do
      let a ← copyKey k
      let b ← copyKey k
      pure (Yield.twice a b)) fun y => Untracked y.assets :=
    (copyKey_calm k).bind fun a _ => (copyKey_calm k).bind fun b _ => .pure (by simp)
  have hitem : Calm g (do pure (Yield.item (← copyItem run i))) fun y => Untracked y.assets :=
    (copyItem_calm hi).bind fun j hj => .pure (Yield.assets_item j ▸ hj)
  have hentry : Calm g (do
      let k ← copyKey k
      let i ← Act.onFailure (copyItem run i) (discard run [.key k])
      pure (Yield.entry k i)) fun y => Untracked y.assets := by
    refine (copyKey_calm k).bind fun k' _ => ?_
    refine ((copyItem_calm hi).onFailure (discardKey_calm k')).bind fun j hj => .pure ?_
    rw [Yield.assets_entry]
    exact untracked_add.mpr ⟨untracked_handles _, hj⟩
  unfold copyEntry
  split
  · exact htwice
  · exact htwice
  · exact hkey
  · exact hkey
  · exact hkey
  · exact hkey
  · exact hitem
  · exact hentry

theorem copyAt_calm (kind : Kind) (selection : Selection) (s : Nat) :
    Calm g (copyAt run r kind selection s) fun y => Untracked y.assets := by
  have hread : Calm { g with reading := r :: g.reading } (readStore r (·.pinned s))
      fun e => Untracked e.2.assets :=
    readStore_calm fun _ _ _ _ hu he => untracked_of_mem hu (Store.pinned_held he)
  exact sharing_calm (hread.bind fun e he => copyEntry_calm kind selection e.1 he)

/-! ## steps -/

theorem walk_leads {E : World → Prop} (id : Nat) : Leads (·.Gentle g) (walk id)
    (fun x w => w.Gentle g ∧
      (get? id w.walks = some x ∨ get? id w.walks = none ∧ x = ⟨none, none⟩)) E := by
  refine .get_bind fun w _ => ?_
  cases hx : get? id w.walks with
  | none => exact .pure fun v hv => ⟨hv.1, .inr ⟨hv.2 ▸ hx, rfl⟩⟩
  | some x => exact .pure fun v hv => ⟨hv.1, .inl (hv.2 ▸ hx)⟩

/-- The move of a cursor is not refused. -/
theorem move_leads (id r : Nat) (last : Option Nat) :
    Leads (fun w => w.Gentle {} ∧ get? id w.walks = some ⟨some r, last⟩) (move id r last)
      (fun y w => w.Gentle { pins := pinned r y.1, cursor := some id } ∧
        Untracked (pairsOf y.2.pairs) ∧ y.2.Traced) (·.Gentle {}) := by
  refine exclusivelyOr_leads (fun _ hw => hw.1) (.pure trivial) fun w ⟨⟨hw, hrow⟩, c, hc⟩ => ?_
  obtain ⟨hgentle, _⟩ := hw.container hc
  have hdeparted := hw.depart hrow (y := ⟨some r, none⟩) rfl
  rw [place?_toList] at hdeparted
  obtain ⟨⟨next, freed⟩, t, hy, hgiven, hv⟩ := hdeparted.storing hc (advance_moves last) untracked_zero
  obtain ⟨⟨next', freed', t'⟩, ht, he⟩ := Fault.of_bind hy
  cases he
  have hdone : exclusivelyOr (pure ()) r .advance (searching r .advance (shift id r last)) w = _ :=
    move_eq hc hgentle.access hgentle.active ht
  rw [hdone]
  exact ⟨hv, hgiven, Store.advance_traced ht⟩

/-- A cursor leaves its place.  If what is freed there cannot be released, the pin on the next place
stays behind. -/
theorem depart_leads (id r : Nat) (last : Option Nat) :
    Leads (fun w => w.Gentle {} ∧ get? id w.walks = some ⟨some r, last⟩) (depart run id r last)
      (fun next w => w.Gentle { pins := pinned r next, cursor := some id }) (·.Gentle {}) := by
  refine (move_leads id r last).bind fun (next, freed) => .of_and fun ⟨hu, htraced⟩ => ?_
  refine (tell_leads htraced.not_pinLeaked).bind fun _ => ?_
  have hrelease : Leads (·.Gentle { pins := pinned r next, cursor := some id })
      (Act.onFailure (discard run (debrisOf freed.pairs)) (leak r next))
      (fun _ => (·.Gentle { pins := pinned r next, cursor := some id })) (·.Gentle {}) :=
    (discard_leads (piecesOf_debrisOf freed.pairs ▸ hu)).onFailure
      (.modify (R := (·.Gentle {})) fun w hw => hw.leak)
  exact hrelease.bind fun _ => .pure fun _ hw => hw

/-- A cursor comes to its next place, or to the end. -/
theorem land_leads (id r : Nat) (kind : Kind) (selection : Selection) (next : Option Nat) :
    Leads (·.Gentle { pins := pinned r next, cursor := some id }) (land run id r kind selection next)
      (fun y? w => w.Gentle {} ∧ ∀ y, y? = some y → Untracked y.assets) (·.Gentle {}) := by
  cases next with
  | some s =>
    refine Leads.bind (.modify (R := (·.Gentle {})) fun w hw => hw.land (x := ⟨some r, some s⟩)) fun _ => ?_
    refine (copyAt_calm kind selection s).bind fun y hy => Calm.pure fun z hz => ?_
    cases hz
    exact hy
  | none =>
    refine Leads.bind (.modify (R := (·.Gentle {})) fun w hw => hw.land (x := ⟨none, none⟩)) fun _ => ?_
    exact (discardHandle_calm r).bind fun _ _ => Calm.pure nofun

theorem advance_calm (id : Nat) (kind : Kind) (selection : Selection) :
    Calm {} (advance run id kind selection) fun y? => ∀ y, y? = some y → Untracked y.assets := by
  refine Leads.bind (walk_leads id) fun x => ?_
  obtain ⟨store, last⟩ := x
  cases store with
  | none => exact .pure fun w hw => ⟨hw.1, nofun⟩
  | some r =>
    exact ((depart_leads id r last).bind fun next => land_leads id r kind selection next).pre
      fun w hw => ⟨hw.1, hw.2.resolve_right nofun⟩

/-! ## beginnings and ends -/

theorem openWalk_calm (r : Nat) : Calm {} (openWalk r) Anything :=
  (retain_calm r).bind fun _ _ _ hw => ⟨hw.openWalk rfl, trivial⟩

/-- A container with a pin is free, if it is still there. -/
theorem isIdle_leads (r s : Nat) : Leads (·.Gentle { pins := pinned r (some s) }) (isIdle r)
    (fun y w => (w.Gentle { pins := pinned r (some s) } ∧ w.HasContainer r) ∧ y = true)
    (·.Gentle {}) := by
  intro w hw
  cases hd : get? r w.cells with
  | none =>
    rw [isIdle, bind_apply, cell_eq_none hd]
    refine ⟨id, (hw.fault _).relax.drop fun p hp => ?_⟩
    rw [List.mem_singleton.mp hp]
    exact hd
  | some d =>
    have hpos : w.pinsAt { pins := pinned r (some s) } r s ≠ 0 :=
      Nat.ne_of_gt (List.count_pos_iff.mpr (by simp [pins, pinned]))
    have hbody := hw.bodies hd
    rw [isIdle, bind_of_ok (cell_eq hd)]
    obtain ⟨n, body⟩ := d
    cases body with
    | container c =>
      refine ⟨⟨hw, c, containerAt?_eq_some_iff.mpr ⟨n, hd⟩⟩, decide_eq_true ?_⟩
      exact hbody.1.access
    | function f => exact absurd (hbody.2 s) hpos
    | allocation a => exact absurd (hbody s) hpos

/-- The pin of a cursor is given up, and does not stay behind. -/
theorem closePlace_leads (r s : Nat) : Leads (·.Gentle { pins := pinned r (some s) })
    (do
      if ← isIdle r then do
        let freed ← exclusively r .unpin <| searching r .unpin <| onStore r (·.unpin s)
        tell freed.notices
        discard run (debrisOf freed.pairs)
      else do
        leak r (some s)
        tell [.pinLeaked]) (fun _ => (·.Gentle {})) (·.Gentle {}) := by
  refine (isIdle_leads r s).bind fun y => .of_and fun hy => ?_
  rw [if_pos hy]
  refine (exclusively_leads r none .unpin (unpin_moves s) (p := Freed.Traced)
    fun t freed t' he => Store.unpin_traced he).bind fun freed => .of_and fun hfreed => ?_
  refine (tell_leads hfreed.2.not_pinLeaked).bind fun _ => ?_
  exact (discardFreed_calm hfreed.1).leads

theorem closeWalk_calm (id : Nat) : Calm {} (closeWalk run id) Anything := by
  refine Leads.bind (walk_leads id) fun x => ?_
  refine Leads.bind (.modify (R := (·.Gentle { pins := x.place?.toList })) fun w hw => ?_) fun _ => ?_
  · exact hw.1.close (hw.2.imp_right fun h => ⟨h.1, by rw [h.2]; rfl⟩)
  obtain ⟨store, last⟩ := x
  cases store with
  | none => exact Calm.pure trivial
  | some r =>
    cases last with
    | none => exact discardHandle_calm r
    | some s =>
      exact Leads.always (closePlace_leads r s) (fun _ => discardHandle_calm r) (discardHandle_calm r).leads

/-! ## many steps -/

section
variable {β : Type} {kind : Kind} {selection : Selection} {p : β → Prop}

theorem takeUpTo_calm {use : Yield → Act β} (huse : ∀ y, Untracked y.assets → Calm {} (use y) p)
    (n : Nat) : Calm {} (takeUpTo run id kind selection use n) fun l => ∀ b ∈ l, p b := by
  induction n with
  | zero => exact .pure nofun
  | succ n ih =>
    refine (advance_calm id kind selection).bind fun y? hy => ?_
    cases y? with
    | none => exact .pure nofun
    | some y =>
      exact (huse y (hy y rfl)).bind fun b hb => ih.bind fun rest hrest =>
        .pure (List.forall_mem_cons.mpr ⟨hb, hrest⟩)

theorem takeLast_calm {use : Yield → Act β} (huse : ∀ y, Untracked y.assets → Calm {} (use y) p)
    (limit : Nat) : Calm {} (takeLast run id kind selection use limit) fun l => ∀ b ∈ l, p b :=
  (takeUpTo_calm huse limit).always (closeWalk_calm id)

theorem list_calm (r : Nat) (selection : Selection) {use : Yield → Act β}
    (huse : ∀ y, Untracked y.assets → Calm {} (use y) p) (limit : Nat) :
    Calm {} (list run r selection use limit) fun l => ∀ b ∈ l, p b :=
  (container_calm r).bind fun _ _ => (openWalk_calm r).bind fun _ _ => takeLast_calm huse limit

theorem record_calm (x : Course) (complete : Bool) : Calm g (record x complete) Anything :=
  .modify fun _ hw => { hw with }

theorem stopAt_calm (id : Nat) (y : Yield) {visit : Act β} (hvisit : Calm {} visit p) :
    Calm {} (stopAt id y visit) fun b => p b.1 := by
  have hwalk : Calm {} (walk id) Anything :=
    (walk_leads id).calm fun _ _ hw => ⟨hw.1, trivial⟩
  exact hwalk.bind fun _ _ => .get_bind fun _ _ => hvisit.bind fun _ hb => .get_bind fun _ _ => .pure hb

theorem forEachFrom_calm {visit : Nat → Yield → Act β}
    (hvisit : ∀ n y, Untracked y.assets → Calm {} (visit n y) p) (fuel : Nat) (x : Course) :
    Calm {} (forEachFrom run id kind visit fuel x) fun l => ∀ b ∈ l, p b := by
  induction fuel generalizing x with
  | zero => exact (record_calm x false).bind fun _ _ => .throw fun h => h
  | succ fuel ih =>
    refine (advance_calm id kind (visitSelection kind)).bind fun y? hy => ?_
    cases y? with
    | none => exact (record_calm x true).bind fun _ _ => .pure nofun
    | some y =>
      exact (stopAt_calm id y (hvisit _ y (hy y rfl))).bind fun _ hb => (ih _).bind fun rest hrest =>
        .pure (List.forall_mem_cons.mpr ⟨hb, hrest⟩)

theorem forEach_calm (r : Nat) {visit : Nat → Yield → Act β}
    (hvisit : ∀ n y, Untracked y.assets → Calm {} (visit n y) p) :
    Calm {} (forEach run r visit) fun l => ∀ b ∈ l, p b :=
  (container_calm r).bind fun _ _ => (openWalk_calm r).bind fun id _ => .get_bind fun _ _ =>
    (forEachFrom_calm hvisit _ _).always (closeWalk_calm id)

end

end LiveOrder.World
