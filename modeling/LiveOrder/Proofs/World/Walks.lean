import LiveOrder.Proofs.World.Progress
import LiveOrder.Proofs.World.Steps

/-!
# Whole walks

* `Underway`           how far a walk has come while the program at its visits may do anything;
* `advance_underway`, `stopAt_owns`   one step of the cursor, and one visit;
* `forEachFrom_owns`   all of them, by induction on the number of steps;
* `forEach_safe`       a whole walk, which is orderly if its container is quiet;
* `forEach_recorded`   a walk that is not given up is on record, with what was done at its visits.

What a visit is given it owns, so the cursor is all that is in hand between two steps.
-/

namespace LiveOrder.World

open Act Situation Table

variable {run : Runner} {lent : Hands} {r id fuel : Nat} {kind : Kind} {β : Type} {p : β → Prop}
  {x : Course} {w v : World}

/-! ## between two steps -/

structure Underway (x : Course) (id : Nat) (kind : Kind) (fuel : Nat) (w : World) : Prop where
  limit : fuel + x.stops.length = w.limits.rounds
  now : w.cells ∈ x.moments
  place : x.Quiet → get? id w.walks = some ⟨some x.container, x.visited.getLast?⟩
  progress : x.Quiet → ∃ c, containerAt? w.cells x.container = some c ∧ c.kind = kind ∧ x.Progress c

/-- After a step: it has come to the first live entry after the last visit, or to the end. -/
structure Landed (x : Course) (id : Nat) (kind : Kind) (limit : Nat) (y? : Option Yield)
    (v : World) : Prop where
  limit : limit + x.stops.length = v.limits.rounds
  progress : x.Quiet → ∃ c, containerAt? v.cells x.container = some c ∧ c.kind = kind ∧
    x.Progress c ∧ Reached x.container id kind (visitSelection kind) v
      (c.store.ledger.after x.visited.getLast?) y?

/-- A course is recorded. -/
theorem record_owns {u left : Hands} {F : World → Prop} {complete : Bool}
    (hF : ∀ hands w, w.InOrder hands → F w →
      (x.Quiet → Passage.Orderly ⟨x, w.cells, complete⟩) ∧
        (complete = true ∨ w.limits.rounds ≤ x.stops.length)) :
    Owns lent ⟨u, F⟩ (record x complete) (fun _ => u) left := by
  refine .modify fun others w hw => ⟨⟨{ hw.1 with passages := ?_ }, trivial⟩,
    .of_grown rfl { Recorded.refl w with passages := List.suffix_cons _ _ }⟩
  intro p hp
  rcases List.mem_cons.mp hp with rfl | hp
  · exact hF _ w hw.1 hw.2
  · exact hw.1.passages p hp

section
variable (hrun : run.Safe)
include hrun

theorem advance_underway (hr : .handle x.container ∈ lent) :
    Owns lent ⟨cursorAt id none, Underway x id kind (fuel + 1)⟩
      (advance run id kind (visitSelection kind))
      (fun y? => ⟨y?.elim (cursorAt id none) fun y => cursorAt id none + y.assets,
        Landed x id kind (fuel + 1) y?⟩) (cursorAt id none) := by
  have hadvance : Owns lent ⟨cursorAt id none, Underway x id kind (fuel + 1)⟩
      (advance run id kind (visitSelection kind)) _ (cursorAt id none) :=
    (advance_owns hrun id kind (visitSelection kind)).weaken (entails_hands _) fun _ => .refl _
  refine (hadvance.also (G := Landed x id kind (fuel + 1)) ?_).weaken (.refl _)
    fun y? _ _ hv => ⟨hv.1, hv.2.2⟩
  intro others w y? v hlent hw h hv hsteady
  refine ⟨hw.2.limit.trans (congrArg Limits.rounds hsteady.limits.symm), fun hquiet => ?_⟩
  obtain ⟨c, hc, hkind, hprogress⟩ := hw.2.progress hquiet
  obtain ⟨place, hplace, hknown⟩ := hw.1.learn
  rw [hw.2.place hquiet, Option.some.injEq] at hplace
  subst hplace
  obtain ⟨c', hc', hsame, hreached⟩ := advance_quiet hrun hknown (hquiet _ hw.2.now) h
  rw [hc] at hc'
  cases hc'
  obtain ⟨n, hn⟩ := containerAt?_eq_some_iff.mp hc
  have hhas : v.Has x.container := hv.1.exists_of_mem (Multiset.mem_add.mpr (.inl (hlent hr)))
  obtain ⟨d, hd, _, hage⟩ :=
    container_of_onward hsteady.toOnward hc (hw.1.books.lt_fresh hn) hhas
  obtain ⟨hledger, hkind'⟩ := hsame d hd
  refine ⟨d, hd, hkind'.trans hkind, hprogress.later hage, ?_⟩
  rwa [hledger]

omit hrun in
/-- A visit, and the worlds before and after it. -/
theorem stopAt_owns {y : Yield} {F : World → Prop} {visit : Act β}
    (hvisit : Owns lent y.assets visit (fun b => plain 0 (p b)) 0) :
    Owns lent ⟨cursorAt id none + y.assets, F⟩ (stopAt id y visit)
      (fun o => ⟨cursorAt id none, fun u => p o.1 ∧ ∃ v place hands, v.InOrder hands ∧ F v ∧
        Steady v u ∧ get? id v.walks = some place ∧ get? id u.walks = some place ∧
        o.2 = ⟨place.last, y, v.cells, u.cells⟩⟩) (cursorAt id none) := by
  intro others v hlent hv
  have hv' : v.InOrder (others + y.assets + cursorAt id none) := hv.1.of_eq (by
    show _ = others + (cursorAt id none + y.assets)
    abel)
  obtain ⟨place, hplace, hknown⟩ := hv'.learn
  have hx := hvisit.beside (cursorAt id (some place)) others v hlent
    ⟨hknown.of_eq (add_assoc _ _ _).symm, trivial⟩
  rw [stopAt, bind_apply, hknown.walk_eq]
  dsimp only
  rw [get_bind_apply, bind_apply]
  rcases hr : visit v with ⟨e | b, u⟩
  · rw [hr] at hx
    exact ⟨hx.1, hx.2.1.forget, hx.2.2⟩
  · rw [hr] at hx
    obtain ⟨⟨hu, hb⟩, hsteady⟩ := hx
    have hu' : u.InOrder (others + cursorAt id (some place)) :=
      hu.of_eq (congrArg (others + ·) (zero_add (cursorAt id (some place))).symm)
    have hplace' : get? id u.walks = some place := hu'.known (by simp)
    exact ⟨⟨hu'.forget, hb, v, place, _, hv', hv.2, hsteady, hplace, hplace', rfl⟩, hsteady⟩

omit hrun in
theorem Landed.row {y : Yield} {place : Walk} {limit : Nat} (h : Landed x id kind limit (some y) v)
    (hquiet : x.Quiet) (hplace : get? id v.walks = some place) :
    ∃ c row, containerAt? v.cells x.container = some c ∧ c.kind = kind ∧ x.Progress c ∧
      c.store.ledger.after x.visited.getLast? = some row ∧
      y = .of kind (visitSelection kind) row.key row.value ∧ place.last = some row.serial ∧
      place.store = some x.container := by
  obtain ⟨c, hc, hkind, hprogress, hreached⟩ := h.progress hquiet
  cases hrow : c.store.ledger.after x.visited.getLast? with
  | none =>
    rw [hrow] at hreached
    cases hreached
  | some row =>
    rw [hrow] at hreached
    obtain ⟨hy, hwalk⟩ := hreached
    rw [hplace, Option.some.injEq] at hwalk
    subst hwalk
    exact ⟨c, row, hc, hkind, hprogress, hrow, Option.some.inj hy, rfl, rfl⟩

omit hrun in
/-- A visit is one step more. -/
theorem Landed.underway {y : Yield} {place : Walk} {hands hands' : Hands}
    (h : Landed x id kind (fuel + 1) (some y) v) (hv : v.InOrder hands) (hsteady : Steady v w)
    (hw : w.InOrder hands') (hplace : get? id v.walks = some place)
    (hplace' : get? id w.walks = some place) :
    Underway (x.extended ⟨place.last, y, v.cells, w.cells⟩) id kind fuel w where
  limit := by
    have hlimit := h.limit
    rw [hsteady.limits]
    show fuel + (x.stops ++ _).length = _
    rw [List.length_append, List.length_singleton]
    omega
  now := by
    show w.cells ∈ x.begun :: (x.stops ++ _).map (·.left)
    simp
  place hquiet := by
    obtain ⟨c, row, _, _, _, _, _, hlast, hstore⟩ := h.row hquiet.of_extended hplace
    obtain ⟨store, last⟩ := place
    cases hlast
    cases hstore
    rw [hplace', Course.visited_extended rfl, List.getLast?_concat]
    rfl
  progress hquiet := by
    obtain ⟨c, row, hc, hkind, hprogress, hrow, hy, hlast, hstore⟩ :=
      h.row hquiet.of_extended hplace
    have hr : w.Has x.container := by
      refine hw.exists_of_mem_assets (hw.subset_of_row hplace' ?_)
      simp [Walk.assets, hstore]
    obtain ⟨n, hn⟩ := containerAt?_eq_some_iff.mp hc
    obtain ⟨d, hd, hform, hage⟩ :=
      container_of_onward hsteady.toOnward hc (hv.books.lt_fresh hn) hr
    have hsound := hv.books.stores hc
    have hrow? : c.store.ledger.row? row.serial = some row :=
      (hsound.row?_eq _).trans (Chain.mem_rows.mp (List.mem_of_find?_eq_some hrow))
    have hfirst := Store.firstAfter_ledger hsound x.visited.getLast?
    rw [hrow] at hfirst
    refine ⟨d, hd, (Form.container.inj hform).1.trans hkind, ?_⟩
    refine hprogress.visit hsound.balanced.toLinked hfirst hlast ?_ hc hd hage
    refine ⟨row.serial, c, row.key, row.value, hlast, hc, ?_, ?_, hkind ▸ hy⟩
    · rw [Store.key?_spec hsound, hrow?]
      rfl
    · rw [Store.value?_spec hsound, hrow?]
      rfl

theorem forEachFrom_owns (hr : .handle x.container ∈ lent) {visit : Nat → Yield → Act β}
    (hvisit : ∀ n y, Owns lent y.assets (visit n y) (fun b => plain 0 (p b)) 0) :
    Owns lent ⟨cursorAt id none, Underway x id kind fuel⟩ (forEachFrom run id kind visit fuel x)
      (fun l => plain (cursorAt id none) (∀ b ∈ l, p b)) (cursorAt id none) := by
  induction fuel generalizing x with
  | zero =>
    refine Owns.bind (record_owns fun hands w hw h => ⟨fun hquiet => ?_, .inr ?_⟩)
      fun _ => .throw (fun hi => hi) (.refl _)
    · obtain ⟨c, hc, _, hprogress⟩ := h.progress hquiet
      exact hprogress.orderly hc nofun
    · exact Nat.le_of_eq (h.limit.symm.trans (Nat.zero_add _))
  | succ fuel ih =>
    refine (advance_underway hrun hr).bind fun y? => ?_
    cases y? with
    | none =>
      refine Owns.bind (record_owns fun hands w hw h => ⟨fun hquiet => ?_, .inl rfl⟩)
        fun _ => .pure (entails_plain nofun)
      obtain ⟨c, hc, _, hprogress, hend⟩ := h.progress hquiet
      have hfirst := Store.firstAfter_ledger (hw.books.stores hc) x.visited.getLast?
      refine hprogress.orderly hc fun _ => ?_
      cases hrow : c.store.ledger.after x.visited.getLast? with
      | none =>
        rwa [hrow] at hfirst
      | some row =>
        rw [hrow] at hend
        cases hend.1
    | some y =>
      refine (stopAt_owns (hvisit x.stops.length y)).bind fun (b, stop) => ?_
      refine .of_and fun hb => ?_
      have hnext : Owns lent ⟨cursorAt id none, Underway (x.extended stop) id kind fuel⟩
          (forEachFrom run id kind visit fuel (x.extended stop)) _ _ := ih (x := x.extended stop) hr
      refine Owns.bind (hnext.weaken (fun others u hu => ⟨hu.1, ?_⟩) fun _ => .refl _)
        fun rest => .of_plain fun hrest => .pure (entails_plain fun c hc => ?_)
      · obtain ⟨v, place, hands, hv, hlanded, hsteady, hplace, hplace', rfl⟩ := hu.2
        exact hlanded.underway hv hsteady hu.1 hplace hplace'
      · rcases List.mem_cons.mp hc with rfl | hc
        · exact hb
        · exact hrest c hc

end

/-! ## whole walks -/

theorem underway_begin {c : Container} {hands : Hands} (hw : w.InOrder hands)
    (hid : get? id w.walks = some ⟨some r, none⟩) (hc : containerAt? w.cells r = some c) :
    Underway ⟨r, w.cells, []⟩ id c.kind w.limits.rounds w where
  limit := rfl
  now := List.mem_singleton_self _
  place _ := hid
  progress _ := ⟨c, hc, rfl,
    Course.progress_begin hc (hw.books.stores hc).balanced.toLinked rfl⟩

/-- A new cursor is at the begin of its container, which is of the kind that has been found. -/
theorem openWalk_begin_owns {c : Container} (hr : .handle r ∈ lent) :
    Owns lent ⟨0, fun w => containerAt? w.cells r = some c⟩ (openWalk r)
      (fun id => ⟨cursorAt id (some ⟨some r, none⟩),
        fun v => ∃ d, containerAt? v.cells r = some d ∧ d.kind = c.kind⟩) 0 := by
  have hopen : Owns lent ⟨0, fun w => containerAt? w.cells r = some c⟩ (openWalk r) _ 0 :=
    (openWalk_known_owns (u := 0) hr).weaken (fun _ _ hw => ⟨hw.1, c, hw.2⟩) fun _ => .refl _
  refine (hopen.also ?_).weaken (.refl _) fun id _ _ hv => ⟨hv.1.of_eq ?_, hv.2.2⟩
  · intro others w id v hlent hw _ hv hsteady
    obtain ⟨n, hn⟩ := containerAt?_eq_some_iff.mp hw.2
    have hhas : v.Has r := hv.1.exists_of_mem (Multiset.mem_add.mpr (.inl (hlent hr)))
    obtain ⟨d, hd, hform, _⟩ :=
      container_of_onward hsteady.toOnward hw.2 (hw.1.books.lt_fresh hn) hhas
    exact ⟨d, hd, (Form.container.inj hform).1⟩
  · exact congrArg _ (zero_add (cursorAt id (some ⟨some r, none⟩))).symm

theorem forEach_safe (hrun : run.Safe) (hr : .handle r ∈ lent) {visit : Nat → Yield → Act β}
    (hvisit : ∀ n y, Owns lent y.assets (visit n y) (fun b => plain 0 (p b)) 0) :
    Safe lent (forEach run r visit) fun l => ∀ b ∈ l, p b := by
  refine of_container (.of_lent hr) (.refl _) (Owns.bind (container_owns fun w hw => hw.2)
    fun c => ?_)
  refine Owns.bind ((openWalk_begin_owns (c := c) hr).weaken (fun _ w hw => ⟨hw.1, hw.2.2⟩)
    fun _ => .refl _) fun id => Owns.get.bind fun w => closing_owns hrun ?_
  refine (forEachFrom_owns hrun hr hvisit).weaken (fun others v hv => ?_) fun _ => .refl _
  obtain ⟨hv, rfl, d, hd, hkind⟩ := hv
  exact ⟨hv.forget, hkind ▸ underway_begin hv (hv.known (by simp)) hd⟩

/-! ## records -/

/-- What is on record of a visit is what the user code was given and did. -/
theorem stopAt_made {y : Yield} {visit : Act β} {b : β} {stop : Stop}
    (h : stopAt id y visit w = (.ok (b, stop), v)) : stop.given = y ∧ stop.MadeBy visit b := by
  obtain ⟨place, u, hwalk, hrest⟩ := bind_eq_ok.mp h
  obtain rfl : u = w := by
    rw [walk, get_bind_apply] at hwalk
    cases hplace : get? id w.walks <;> rw [hplace] at hwalk <;> cases hwalk <;> rfl
  rw [get_bind_apply] at hrest
  obtain ⟨_, _, hvisit, hrest⟩ := bind_eq_ok.mp hrest
  cases hrest
  exact ⟨rfl, u, v, rfl, hvisit, rfl⟩

/-- The visits of a walk that comes to its end are on record, one for each result. -/
theorem forEachFrom_recorded (hrun : run.Safe) {visit : Nat → Yield → Act β}
    (hvisit : ∀ n y, Owns lent y.assets (visit n y) (fun b => plain 0 (p b)) 0) {others : Hands}
    {l : List β} (hlent : lent ⊆ others) (hw : w.InOrder (others + cursorAt id none))
    (h : forEachFrom run id kind visit fuel x w = (.ok l, v)) :
    v.Done id ∧ ∃ stops earlier, w.passages <:+ earlier ∧
      v.passages = ⟨⟨x.container, x.begun, x.stops ++ stops⟩, v.cells, true⟩ :: earlier ∧
      stops.length = l.length ∧ ∀ n (y : Stop) b, stops[n]? = some y → l[n]? = some b →
        y.MadeBy (visit (x.stops.length + n) y.given) b := by
  induction fuel generalizing x w l with
  | zero =>
    obtain ⟨_, _, _, h⟩ := bind_eq_ok.mp h
    cases h
  | succ fuel ih =>
    obtain ⟨y?, u, hadvance, h⟩ := bind_eq_ok.mp h
    obtain ⟨hu, hsteady⟩ := (advance_owns hrun id kind _).of_ok hlent ⟨hw, trivial⟩ hadvance
    cases y? with
    | none =>
      cases h
      exact ⟨(done_of_advance hrun hw hadvance).2, [], u.passages, hsteady.passages,
        by rw [List.append_nil], rfl, fun n y b hy => by simp at hy⟩
    | some y =>
      obtain ⟨⟨b, stop⟩, z, hstop, h⟩ := bind_eq_ok.mp h
      obtain ⟨hz, hsteady'⟩ := (stopAt_owns (hvisit x.stops.length y)).of_ok hlent hu hstop
      obtain ⟨rest, v', hrest, h⟩ := bind_eq_ok.mp h
      cases h
      obtain ⟨hdone, stops, earlier, hearlier, hpassages, hlength, hmade⟩ := ih hz.1 hrest
      refine ⟨hdone, stop :: stops, earlier, (hsteady.passages.trans hsteady'.passages).trans hearlier,
        ?_, congrArg (· + 1) hlength, fun n y' b' hy' hb' => ?_⟩
      · rw [hpassages]
        show Passage.mk ⟨x.container, x.begun, x.stops ++ [stop] ++ stops⟩ v.cells true :: earlier = _
        rw [List.append_assoc, List.singleton_append]
      · obtain ⟨rfl, hfirst⟩ := stopAt_made hstop
        cases n with
        | zero =>
          cases hy'
          cases hb'
          exact hfirst
        | succ n =>
          have hnext := hmade n y' b' hy' hb'
          rw [List.length_append, List.length_singleton, Nat.add_right_comm] at hnext
          exact hnext

/-- A new cursor leaves all containers as they are. -/
theorem openWalk_containers (hr : w.Has r) (h : openWalk r w = (.ok id, v)) (q : Nat) :
    containerAt? v.cells q = containerAt? w.cells q := by
  obtain ⟨d, hd⟩ := hr
  obtain ⟨_, u, hretain, h⟩ := bind_eq_ok.mp h
  rw [retain, bind_of_ok (cell_eq hd)] at hretain
  cases hretain
  cases h
  exact containerAt?_setHandles r q _ w.cells

/-- A walk that comes to its end is on record, last of all those in it. -/
theorem forEach_recorded (hrun : run.Safe) {visit : Nat → Yield → Act β}
    (hvisit : ∀ n y, Owns lent y.assets (visit n y) (fun b => plain 0 (p b)) 0) {others : Hands}
    {l : List β} (hlent : lent ⊆ others) (hr : .handle r ∈ lent) (hw : w.InOrder others)
    (h : forEach run r visit w = (.ok l, v)) :
    ∃ passage earlier, v.passages = passage :: earlier ∧ w.passages <:+ earlier ∧
      passage.Tells r visit w l v := by
  have hhas := hw.exists_of_mem (hlent hr)
  obtain ⟨c, w', hc, hrest⟩ := bind_eq_ok.mp h
  obtain ⟨rfl, hc'⟩ := container_eq_ok hhas hc
  obtain ⟨id, u, hopen, hrest⟩ := bind_eq_ok.mp hrest
  obtain ⟨⟨hu, _⟩, hsteady⟩ :=
    (openWalk_begin_owns hr).of_ok hlent ⟨hw.of_eq (add_zero others), hc'⟩ hopen
  rw [get_bind_apply] at hrest
  obtain ⟨z, hfrom, hclose⟩ := always_eq_ok.mp hrest
  obtain ⟨hdone, stops, earlier, hearlier, hpassages, hlength, hmade⟩ :=
    forEachFrom_recorded hrun hvisit hlent hu.forget hfrom
  rw [closeWalk_of_done run hdone] at hclose
  cases hclose
  refine ⟨_, earlier, hpassages, hsteady.passages.trans hearlier, rfl, rfl,
    openWalk_containers hhas hopen r, rfl, hlength, ?_⟩
  intro n y b hy hb
  have hvisited := hmade n y b hy hb
  rw [List.length_nil, Nat.zero_add] at hvisited
  exact hvisited

end LiveOrder.World
