import LiveOrder.Proofs.World.Entries

/-!
# Live cursors

* `move_eq`        a move of a cursor, where it is granted;
* `openWalk_owns`, `advance_owns`, `closeWalk_owns`   a cursor's life;
* `takeUpTo_owns`, `takeLast_owns`, `list_safe`   many steps, by induction on their number.

A step owns its cursor.  While what it freed is released the cursor has no place, and the pin on its
next place is in hand.
-/

namespace LiveOrder

theorem Act.Owns.learn {α : Type} {lent left : Hands} {id : Nat} {x : Act α} {b : α → Situation}
    (h : ∀ y, Act.Owns lent (cursorAt id (some y)) x b left) :
    Act.Owns lent (cursorAt id none) x b left := by
  intro others w hlent hw
  obtain ⟨y, _, hy⟩ := hw.1.learn
  exact h y others w hlent ⟨hy, trivial⟩

namespace World

open Act Situation

variable {run : Runner} {lent u left : Hands} {r s id : Nat} {x y : Walk} {w : World} {c : Container}

/-! ## table of cursors -/

theorem InOrder.walk_eq {others : Hands} (hw : w.InOrder (others + cursorAt id (some x))) :
    walk id w = (.ok x, w) := by
  have hrow : Table.get? id w.walks = some x := hw.known (by simp)
  rw [walk, get_bind_apply, hrow]
  rfl

theorem walk_owns :
    Owns lent (cursorAt id (some x)) (walk id) (fun y => plain (cursorAt id (some x)) (y = x)) left := by
  refine Owns.get.bind fun w => ?_
  refine .of_holds (p := Table.get? id w.walks = some x) (fun others v _ hv => ?_) fun hx => ?_
  · obtain ⟨rfl, _⟩ := hv.2
    exact hv.1.known (by simp)
  · rw [hx]
    exact .pure fun _ _ hv => ⟨hv.1, rfl⟩

/-- A cursor that is owned has a row of its own, and no other one begins again when it is moved. -/
theorem steady_setWalk {w : World} {hands : Hands} {x y : Walk}
    (hw : w.InOrder hands) (hx : .cursor id (some x) ∈ hands)
    (hstore : ∀ r, y.store = some r → x.store = some r) :
    Steady w { w with walks := Table.put id y w.walks } := by
  refine .of_walks (Nat.le_refl _) fun {j} _ hdone z hz => ?_
  rw [Table.get?_put] at hz
  split at hz
  · rename_i hj
    cases hz
    have hold := hdone x (hj ▸ hw.known hx)
    refine Option.eq_none_iff_forall_ne_some.mpr fun r hr => ?_
    rw [hstore r hr] at hold
    cases hold
  · exact hdone z hz

/-- A cursor goes to another place: it takes the pin there, and gives the one that it had. -/
theorem setWalk_owns (r : Nat) (from? to? : Option Nat) {F : World → Prop}
    (hF : ∀ w walks, F w → F { w with walks }) :
    Owns lent ⟨cursorAt id (some ⟨some r, from?⟩) + pinAt r to?, F⟩ (setWalk id ⟨some r, to?⟩)
      (fun _ => ⟨cursorAt id (some ⟨some r, to?⟩) + pinAt r from?, F⟩) left := by
  refine .modify fun others w hw => ?_
  have hw' : w.InOrder (others + cursorAt id (some ⟨some r, from?⟩) + pinAt r to?) :=
    hw.1.of_eq (add_assoc _ _ _)
  exact ⟨⟨(hw'.setRow (y := ⟨some r, to?⟩) rfl rfl fun _ h => h).of_eq (add_assoc _ _ _).symm,
    hF w _ hw.2⟩, steady_setWalk hw' (x := ⟨some r, from?⟩) (by simp) fun _ h => h⟩

/-- A cursor at the end gives up its container. -/
theorem finishWalk_owns (r : Nat) :
    Owns lent (cursorAt id (some ⟨some r, none⟩)) (setWalk id ⟨none, none⟩)
      (fun _ => ↑(cursorAt id (some ⟨none, none⟩) + handles [r])) left := by
  refine .modify fun others w hw => ?_
  have hw' : w.InOrder (others + cursorAt id (some ⟨some r, none⟩) + 0) := hw.1.of_eq (add_zero _)
  have hold : Walk.assets ⟨some r, none⟩ = 0 + handles [r] := by simp [Walk.assets]
  have hnew : Walk.assets ⟨none, none⟩ = 0 + 0 := rfl
  have hstore : ∀ q, (none : Option Nat) = some q → some r = some q := fun q h => by cases h
  exact ⟨⟨(hw'.setRow hold hnew hstore).of_eq (add_assoc _ _ _).symm, trivial⟩,
    steady_setWalk hw' (x := ⟨some r, none⟩) (by simp) hstore⟩

/-- The place of a cursor and its container are given up with it. -/
theorem eraseWalk_owns :
    Owns lent (cursorAt id (some x)) (modify fun w : World => { w with walks := Table.erase id w.walks })
      (fun _ => ↑x.assets) left :=
  .modify fun _ w hw => by
    refine ⟨⟨hw.1.eraseRow, trivial⟩, .of_walks (Nat.le_refl _) fun {j} _ hdone z hz => ?_⟩
    rw [Table.get?_erase] at hz
    split at hz
    · cases hz
    · exact hdone z hz

/-- A new cursor has its container, and no place yet. -/
theorem openWalk_known_owns (hr : .handle r ∈ lent) :
    Owns lent ⟨u, fun w => w.HasContainer r⟩ (openWalk r)
      (fun id => ↑(u + cursorAt id (some ⟨some r, none⟩))) left := by
  have hretain : Owns lent ⟨u, fun w => w.HasContainer r⟩ (retain r)
      (fun _ => ⟨u + handles [r], fun w => w.HasContainer r⟩) left := by
    refine ((retain_owns (.of_lent hr)).also (G := fun _ w => w.HasContainer r) ?_).weaken (.refl _)
      fun _ _ w hw => ⟨hw.1, hw.2.2⟩
    intro others w _ v hlent hw _ hv hsteady
    obtain ⟨c, hc⟩ := hw.2
    obtain ⟨n, hd⟩ := containerAt?_eq_some_iff.mp hc
    obtain ⟨d, hd, _⟩ := container_of_onward hsteady.toOnward hc (hw.1.books.lt_fresh hd)
      (hv.1.exists_of_mem (Multiset.mem_add.mpr (.inl (hlent hr))))
    exact ⟨d, hd⟩
  refine hretain.bind fun _ => Owns.get.bind fun w => ?_
  refine Owns.bind (b := fun _ => ↑(u + cursorAt w.freshWalk (some ⟨some r, none⟩)))
    (.modify fun others v hv => ?_) fun _ => .pure (.refl _)
  obtain ⟨rfl, c, hc⟩ := hv.2
  have hopen : v.InOrder (others + u + Walk.assets ⟨some r, none⟩) := hv.1.of_eq (by
    show others + u + (handles [r] + pinAt r none) = others + (u + handles [r])
    rw [pinAt_none]
    abel)
  refine ⟨⟨(hopen.openRow fun q hq => ?_).of_eq (add_assoc _ _ _).symm, trivial⟩,
    .of_walks (Nat.le_succ _) fun {j} hj hdone z hz => ?_⟩
  · cases hq
    rw [hc]
    rfl
  · rw [Table.get?_append] at hz
    split at hz
    · rename_i hold
      cases hz
      exact hdone z hold
    · rw [if_neg (Nat.ne_of_lt hj)] at hz
      cases hz

theorem openWalk_owns (hr : .handle r ∈ lent) :
    Owns lent ⟨u, fun w => w.HasContainer r⟩ (openWalk r) (fun id => ↑(u + cursorAt id none)) left :=
  (openWalk_known_owns hr).weaken (.refl _) fun _ => entails_forget

theorem leak_owns (s? : Option Nat) :
    Owns lent ↑(u + pinAt r s?) (leak r s?) (fun _ => u) left := by
  refine .modify fun others w hw => ⟨⟨?_, trivial⟩, .of_same rfl rfl⟩
  have hw' : w.InOrder (others + u + pinAt r s?) := hw.1.of_eq (add_assoc _ _ _)
  exact hw'.leak

/-! ## what store operations move -/

theorem advancing_eq {t t' : Store Item} {last next : Option Nat} {freed : Freed Item}
    (he : t.advance last = .ok (next, freed, t')) :
    (do
      let (next, freed, t) ← t.advance last
      pure ((next, freed), t) : Except Fault _) = .ok ((next, freed), t') := by
  rw [he]
  rfl

theorem advance_moves (last : Option Nat) :
    Moves (fun t => do
      let (next, freed, t) ← t.advance last
      pure ((next, freed), t)) 0 last (fun y => pairsOf y.2.pairs) fun y => y.1 := by
  intro t pins hs
  obtain ⟨freed, t', _, he, ht, _, hchange, _⟩ := Store.advance_spec hs
  refine ⟨(_, freed), t', advancing_eq he, ht, hchange.chain.ages hs.balanced.toLinked, ?_⟩
  rw [pairsOf_perm (Store.advance_held hs he), pairsOf_append, add_zero, add_comm]

theorem advance_makesNone (last : Option Nat) :
    MakesNone (fun t => do
      let (next, freed, t) ← t.advance last
      pure ((next, freed), t)) last := by
  intro t pins hs
  obtain ⟨freed, t', _, he, _, hledger, _⟩ := Store.advance_spec hs
  exact ⟨(_, freed), t', advancing_eq he, hledger ▸ rfl⟩

theorem unpin_moves (s : Nat) :
    Moves (·.unpin s) 0 (some s) (fun freed => pairsOf freed.pairs) fun _ => none := by
  intro t pins hs
  obtain ⟨freed, t', _, he, ht, _, hchange, _⟩ := Store.unpin_spec hs
  refine ⟨freed, t', he, ht, hchange.chain.ages hs.balanced.toLinked, ?_⟩
  rw [pairsOf_perm (Store.unpin_held hs he), pairsOf_append, add_zero, add_comm]

theorem unpin_makesNone (s : Nat) : MakesNone (·.unpin s) (some s) := by
  intro t pins hs
  obtain ⟨freed, t', _, he, _, hledger, _⟩ := Store.unpin_spec hs
  exact ⟨freed, t', he, hledger ▸ rfl⟩

/-! ## the move -/

/-- After a move the cursor has no place, and its container another store. -/
def moved (w : World) (id r : Nat) (c : Container) (t : Store Item) : World :=
  { w with walks := Table.put id ⟨some r, none⟩ w.walks }.changed r { c with store := t }

theorem shift_eq {last next : Option Nat} {freed : Freed Item} {t : Store Item}
    (hc : containerAt? w.cells r = some c) (ht : c.store.advance last = .ok (next, freed, t)) :
    shift id r last w = (.ok (next, freed), w.moved id r c t) := by
  have hset : setWalk id ⟨some r, none⟩ w =
      (.ok (), { w with walks := Table.put id ⟨some r, none⟩ w.walks }) := rfl
  rw [shift, bind_of_ok hset,
    onStore_eq (w := { w with walks := Table.put id ⟨some r, none⟩ w.walks }) hc]
  · rfl
  · rw [ht]
    rfl

theorem move_eq {last next : Option Nat} {freed : Freed Item} {t : Store Item}
    (hc : containerAt? w.cells r = some c) (ha : c.access = .shared 0) (hnone : c.active = none)
    (ht : c.store.advance last = .ok (next, freed, t)) :
    move id r last w = (.ok (next, freed), w.moved id r c t) := by
  refine exclusively_searching_eq (v := { w with walks := Table.put id ⟨some r, none⟩ w.walks })
    hc hc ha hnone fun d hd => (shift_eq (containerAt?_changed hc d) (hd ▸ ht)).trans ?_
  have hmoved : (w.changed r d).moved id r d t = _ :=
    changed_changed (w := { w with walks := Table.put id ⟨some r, none⟩ w.walks }) (d := d)
      { d with store := t }
  rw [hmoved]

/-- The store counts the pin of a cursor that is parked in it. -/
theorem InOrder.parked_sound {others : Hands} {last : Option Nat}
    (hw : w.InOrder (others + cursorAt id (some ⟨some r, last⟩)))
    (hc : containerAt? w.cells r = some c) : ∃ pins, c.store.Sound (Chain.pinOn last pins) := by
  have hw' : w.InOrder (others + cursorAt id (some ⟨some r, last⟩) + 0) := hw.of_eq (add_zero _)
  have hold : Walk.assets ⟨some r, last⟩ = handles [r] + pinAt r last := rfl
  have hnew : Walk.assets ⟨some r, none⟩ = handles [r] + 0 := rfl
  exact ⟨_, (hw'.setRow hold hnew fun _ h => h).store_sound hc⟩

/-- The cursor leaves its place, and the pin on the next one is in hand. -/
theorem move_owns (last : Option Nat) :
    Owns lent (cursorAt id (some ⟨some r, last⟩)) (move id r last)
      (fun y => ↑(cursorAt id (some ⟨some r, none⟩) + pairsOf y.2.pairs + pinAt r y.1))
      (cursorAt id (some ⟨some r, last⟩)) := by
  have hsees : Sees lent (cursorAt id (some ⟨some r, last⟩)) r := .of_cursor id last (by simp)
  intro others w hlent hw
  rcases beginExclusive_cases (hsees others w hlent hw) with ⟨c, hc, ha⟩ | ⟨e, hi, he⟩
  · obtain ⟨pins, hs⟩ := hw.1.parked_sound hc
    obtain ⟨freed, t, _, ht, _⟩ := Store.advance_spec hs
    rw [move_eq hc ha ((hw.1.books.guarded hc).idle ha).1 ht]
    -- the container is not in use, so access and guard come and go with nothing in between
    have hshift : Owns lent ⟨cursorAt id (some ⟨some r, last⟩), fun w => w.HasContainer r⟩
        (shift id r last)
        (fun y => ↑(cursorAt id (some ⟨some r, none⟩) + pairsOf y.2.pairs + pinAt r y.1)) 0 := by
      refine Owns.bind (b := fun _ => ⟨cursorAt id (some ⟨some r, none⟩) + pinAt r last,
        fun w => w.HasContainer r⟩) ?_ fun _ => onStore_owns (advance_moves last) (advance_makesNone last)
      refine (setWalk_owns r last none fun _ _ hw => hw).weaken (fun _ w hw => ⟨hw.1.of_eq ?_, hw.2⟩)
        fun _ _ w hw => ⟨hw.1.of_eq ?_, hw.2⟩
      · rw [pinAt_none, add_zero]
      · rfl
    exact hshift.of_ok hlent ⟨hw.1, c, hc⟩ (shift_eq hc ht)
  · rw [move, exclusively, exclusivelyOr, bind_apply, onFailure_apply, he]
    exact ⟨hi, hw.1, (Steady.refl w).opened⟩

/-! ## copies -/

/-- A copy of a key that is there, while other objects are there. -/
theorem copyKey_owns (k : Key) (more : List Nat) :
    Owns lent ⟨u, fun w => ∀ q ∈ k.refs ++ more, w.Has q⟩ (copyKey k)
      (fun k' => ⟨u + handles k.refs, fun w => k' = k ∧ ∀ q ∈ more, w.Has q⟩) left :=
  (retainAll_owns k.refs more).bind fun _ => .pure fun _ _ hw => ⟨hw.1, rfl, hw.2⟩

section
variable (hrun : run.Safe)
include hrun

theorem copyEntry_owns (kind : Kind) (selection : Selection) (k : Key) (i : Item) :
    Owns lent ⟨0, fun w => ∀ q ∈ k.refs ++ i.refs, w.Has q⟩ (copyEntry run kind selection k i)
      (fun y => ↑y.assets) 0 := by
  have hkey : Owns lent ⟨0, fun w => ∀ q ∈ k.refs ++ i.refs, w.Has q⟩
      (do pure (Yield.key (← copyKey k))) (fun y => ↑y.assets) 0 := by
    refine (copyKey_owns k i.refs).bind fun k' => .of_and fun hk => .pure fun _ w hw => ?_
    exact ⟨hw.1.of_eq (by simp [hk]), trivial⟩
  have htwice : Owns lent ⟨0, fun w => ∀ q ∈ k.refs ++ i.refs, w.Has q⟩
      (do
        let a ← copyKey k
        let b ← copyKey k
        pure (Yield.twice a b)) (fun y => ↑y.assets) 0 := by
    refine Owns.weaken (a := ⟨0, fun w => ∀ q ∈ k.refs ++ (k.refs ++ []), w.Has q⟩) ?_
      (fun _ w hw => ⟨hw.1, fun q hq => hw.2 q (by simp at hq; simp [hq])⟩) fun _ => .refl _
    refine (copyKey_owns k _).bind fun a => .of_and fun ha => ?_
    refine (copyKey_owns k []).bind fun b => .of_and fun hb => .pure fun _ w hw => ?_
    exact ⟨hw.1.of_eq (by simp [ha, hb]), trivial⟩
  have hitem : Owns lent ⟨0, fun w => ∀ q ∈ k.refs ++ i.refs, w.Has q⟩
      (do pure (Yield.item (← copyItem run i))) (fun y => ↑y.assets) 0 := by
    refine Owns.weaken (a := ⟨0, fun w => ∀ q ∈ i.refs, w.Has q⟩) ?_
      (fun _ w hw => ⟨hw.1, fun q hq => hw.2 q (List.mem_append_right _ hq)⟩) fun _ => .refl _
    refine (copyItem_owns hrun i).bind fun j => .pure (entails_of_eq ?_)
    simp
  have hentry : Owns lent ⟨0, fun w => ∀ q ∈ k.refs ++ i.refs, w.Has q⟩
      (do
        let k ← copyKey k
        let i ← Act.onFailure (copyItem run i) (discard run [.key k])
        pure (Yield.entry k i)) (fun y => ↑y.assets) 0 := by
    refine (copyKey_owns k i.refs).bind fun k' => .of_and fun hk => ?_
    have hcopy : Owns lent _ (copyItem run i) _ _ := (copyItem_owns hrun i).beside (handles k.refs)
    subst hk
    refine (hcopy.onFailure (discardKey_owns hrun k')).bind fun j => .pure (entails_of_eq ?_)
    simp [add_comm]
  unfold copyEntry
  split
  · exact htwice
  · exact htwice
  · exact hkey
  · exact hkey
  · exact hkey
  · exact hkey
  · exact hitem
  · exact hentry

/-! ## steps -/

/-- An entry is read while the cursor is parked on it. -/
theorem copyAt_owns (kind : Kind) (selection : Selection) :
    Owns lent (cursorAt id (some ⟨some r, some s⟩)) (copyAt run r kind selection s)
      (fun y => ↑(cursorAt id (some ⟨some r, some s⟩) + y.assets))
      (cursorAt id (some ⟨some r, some s⟩)) := by
  have hsees : ∀ u F, Sees lent ⟨cursorAt id (some ⟨some r, some s⟩) + u, F⟩ r :=
    fun u F => .of_cursor id (some s) (by simp)
  have hrow : ∀ F, Sees lent ⟨cursorAt id (some ⟨some r, some s⟩), F⟩ r :=
    fun F => .of_cursor id (some s) (by simp)
  refine sharing_owns (p := fun _ => True) ?_ (.refl _) (hrow _) (hrow _) fun y => hsees _ _
  refine Owns.bind (b := fun e => ⟨cursorAt id (some ⟨some r, some s⟩),
    fun w => ∀ q ∈ e.1.refs ++ e.2.refs, w.Has q⟩) ?_ fun e => ?_
  · refine readStore_owns (hrow _) (entails_hands _) fun others w c _ hw hc => ?_
    have hrowAt : Table.get? id w.walks = some ⟨some r, some s⟩ := hw.1.known (by simp)
    have hpin : .pin r s ∈ w.assets :=
      hw.1.subset_of_row hrowAt (by simp [Walk.assets, mem_pinAt])
    have hpos : 0 < (w.assets + (others + cursorAt id (some ⟨some r, some s⟩))).count (.pin r s) :=
      Multiset.count_pos.mpr (Multiset.mem_add.mpr (.inl hpin))
    have hsound := hw.1.books.stores hc
    obtain ⟨e, _, he⟩ := Store.pinned_spec hsound hpos
    have hheld := Store.pinned_held he
    exact ⟨_, he, hw.1, has_of_held hw.1 hc hheld⟩
  · refine ((copyEntry_owns hrun kind selection e.1 e.2).beside
      (cursorAt id (some ⟨some r, some s⟩))).weaken (fun _ w hw => ⟨hw.1.of_eq ?_, hw.2⟩)
      fun y => entails_of_eq ?_
    · exact congrArg _ (zero_add _)
    · exact add_comm _ _

/-- Where a cursor is after a step that came to a place or to the end. -/
def landed (r : Nat) (next : Option Nat) : Walk := ⟨next.map fun _ => r, next⟩

/-- The end of a step that has come to an entry: the cursor is parked on it, also if the copy fails. -/
theorem park_owns (kind : Kind) (selection : Selection) :
    Owns lent ↑(cursorAt id (some ⟨some r, none⟩) + pinAt r (some s))
      (land run id r kind selection (some s))
      (fun y? => ↑(cursorAt id (some ⟨some r, some s⟩) + y?.elim 0 Yield.assets))
      (cursorAt id (some ⟨some r, some s⟩)) := by
  have hpark : Owns lent ↑(cursorAt id (some ⟨some r, none⟩) + pinAt r (some s))
      (setWalk id ⟨some r, some s⟩) (fun _ => cursorAt id (some ⟨some r, some s⟩))
      (cursorAt id (some ⟨some r, some s⟩)) := by
    refine (setWalk_owns r none (some s) fun _ _ _ => trivial).weaken (.refl _)
      fun _ => entails_of_eq ?_
    rw [pinAt_none, add_zero]
  exact hpark.bind fun _ => (copyAt_owns hrun kind selection).bind fun y => .pure (.refl _)

/-- The end of a step that has come to the end. -/
theorem end_owns (kind : Kind) (selection : Selection) :
    Owns lent ↑(cursorAt id (some ⟨some r, none⟩) + pinAt r none)
      (land run id r kind selection none)
      (fun y? => ↑(cursorAt id (some ⟨none, none⟩) + y?.elim 0 Yield.assets))
      (cursorAt id (some ⟨none, none⟩)) := by
  have hfinish : Owns lent ↑(cursorAt id (some ⟨some r, none⟩) + pinAt r none)
      (setWalk id ⟨none, none⟩)
      (fun _ => ↑(handles [r] + cursorAt id (some ⟨none, none⟩))) (cursorAt id (some ⟨none, none⟩)) := by
    refine (finishWalk_owns r).weaken (entails_of_eq ?_)
      fun _ => entails_of_eq (add_comm _ _)
    rw [pinAt_none, add_zero]
  have hdiscard : Owns lent _ (discard run [.handle r]) _ _ :=
    (discardHandle_owns hrun r).beside (cursorAt id (some ⟨none, none⟩))
  refine hfinish.bind fun _ => hdiscard.bind fun _ => .pure ?_
  exact entails_of_eq (add_comm _ _)

/-- The end of a step: the cursor is where the step has come to. -/
theorem land_owns (kind : Kind) (selection : Selection) (next : Option Nat) :
    Owns lent ↑(cursorAt id (some ⟨some r, none⟩) + pinAt r next)
      (land run id r kind selection next)
      (fun y? => ↑(cursorAt id (some (landed r next)) + y?.elim 0 Yield.assets))
      (cursorAt id (some (landed r next))) := by
  cases next with
  | none => exact end_owns hrun kind selection
  | some s => exact park_owns hrun kind selection

/-- While what was freed is released the cursor has no place.  If that fails the pin stays behind. -/
theorem release_owns (next : Option Nat) (freed : Freed Item) :
    Owns lent ↑(cursorAt id (some ⟨some r, none⟩) + pairsOf freed.pairs + pinAt r next)
      (do
        tell freed.notices
        Act.onFailure (discard run (debrisOf freed.pairs)) (leak r next)
        pure next)
      (fun next => ↑(cursorAt id (some ⟨some r, none⟩) + pinAt r next))
      (cursorAt id (some ⟨some r, none⟩)) := by
  refine (tell_owns _).bind fun _ => ?_
  have hrelease : Owns lent ↑(cursorAt id (some ⟨some r, none⟩) + pairsOf freed.pairs +
      pinAt r next) (Act.onFailure (discard run (debrisOf freed.pairs)) (leak r next))
      (fun _ => ↑(cursorAt id (some ⟨some r, none⟩) + pinAt r next))
      (cursorAt id (some ⟨some r, none⟩)) := by
    have hdiscard : Owns lent _ (discard run (debrisOf freed.pairs)) _ _ :=
      (discardFreed_owns hrun freed.pairs).beside (cursorAt id (some ⟨some r, none⟩) + pinAt r next)
    refine (hdiscard.weaken (entails_of_eq ?_)
      fun _ => entails_of_eq (zero_add _)).onFailure (leak_owns next)
    abel
  exact hrelease.bind fun _ => .pure (.refl _)

/-- The cursor leaves its place, and the pin on the next one is in hand. -/
theorem depart_owns (last : Option Nat) :
    Owns lent (cursorAt id (some ⟨some r, last⟩)) (depart run id r last)
      (fun next => ↑(cursorAt id (some ⟨some r, none⟩) + pinAt r next)) (cursorAt id none) :=
  ((move_owns last).leave entails_lose).bind fun (next, freed) =>
    (release_owns hrun next freed).leave entails_lose

theorem advance_owns (id : Nat) (kind : Kind) (selection : Selection) :
    Owns lent (cursorAt id none) (advance run id kind selection)
      (fun y? => ↑(y?.elim (cursorAt id none) fun y => cursorAt id none + y.assets))
      (cursorAt id none) := by
  refine .learn fun x => walk_owns.bind fun y => .of_plain fun hy => ?_
  subst hy
  obtain ⟨store, last⟩ := y
  cases store with
  | none => exact .pure entails_lose
  | some r =>
    refine (depart_owns hrun last).bind fun next => ?_
    refine ((land_owns hrun kind selection next).leave entails_lose).weaken (.refl _) fun y? => ?_
    cases y? with
    | none => exact (entails_of_eq (add_zero _)).trans entails_lose
    | some y =>
      exact (entails_of_eq (add_comm _ _)).trans
        (entails_forget.trans (entails_of_eq (add_comm _ _)))

omit hrun in
/-- A pin on an entry of a container that is not in use can be given up. -/
theorem unpin_owns :
    Owns lent ⟨pinAt r (some s), fun w => w.Idle r⟩
      (exclusively r .unpin <| searching r .unpin <| onStore r (·.unpin s))
      (fun freed => ↑(pairsOf freed.pairs)) 0 := by
  refine (exclusively_idle_owns (u := 0) (unpin_moves s) (unpin_makesNone s)).weaken
    (fun _ w hw => ⟨hw.1.of_eq ?_, hw.2⟩) fun _ => entails_of_eq ?_
  · simp
  · simp

/-- The pin is given up, or left behind, while the container is still there. -/
theorem closePlace_owns (hr : .handle r ∈ lent) :
    Owns lent (pinAt r (some s))
      (do
        if ← isIdle r then do
          let freed ← exclusively r .unpin <| searching r .unpin <| onStore r (·.unpin s)
          tell freed.notices
          discard run (debrisOf freed.pairs)
        else do
          leak r (some s)
          tell [.pinLeaked])
      (fun _ => plain 0 (Anything ())) 0 := by
  have hsees : ∀ a, Sees lent a r := fun _ => .of_lent hr
  refine (isIdle_owns (hsees _)).bind fun idle => ?_
  cases idle with
  | true =>
    refine Owns.bind (unpin_owns.weaken (fun _ w hw => ⟨hw.1, hw.2 rfl⟩) fun _ => .refl _) fun freed => ?_
    exact (tell_owns _).bind fun _ => discardFreed_owns hrun freed.pairs
  | false =>
    refine Owns.weaken (a := ↑(0 + pinAt r (some s))) ?_
      (fun _ w hw => ⟨hw.1.of_eq (by simp), trivial⟩) fun _ => .refl _
    exact (leak_owns (some s)).bind fun _ => tell_owns _

theorem closeWalk_owns (id : Nat) :
    Owns lent (cursorAt id none) (closeWalk run id) (fun _ => (0 : Hands)) 0 := by
  refine .learn fun x => walk_owns.bind fun y => .of_plain fun hy => ?_
  subst hy
  refine eraseWalk_owns.bind fun _ => ?_
  obtain ⟨store, last⟩ := y
  cases store with
  | none => exact .pure (.refl _)
  | some r =>
    cases last with
    | none => exact discardHandle_owns hrun r
    | some s =>
      have hclose : Owns (lent + handles [r]) (pinAt r (some s)) _ (fun _ => plain 0 (Anything ())) 0 :=
        closePlace_owns hrun (by simp)
      refine (hclose.ending (discardHandle_owns hrun r)).of_eq ?_
      exact add_comm _ _

omit hrun in
/-- A cursor that is parked in a container that is not in use gives up its pin, and leaves nothing
behind. -/
theorem closeWalk_idle {others : Hands} (run : Runner)
    (hw : w.InOrder (others + cursorAt id (some ⟨some r, some s⟩)))
    (hc : containerAt? w.cells r = some c) (ha : c.access = .shared 0) :
    ∃ freed t, c.store.unpin s = .ok (freed, t) ∧
      (∀ pins, c.store.Sound (Chain.pinOn (some s) pins) → t.Sound pins) ∧
      ({ w with walks := Table.erase id w.walks }.changed r { c with store := t }).InOrder
        (others + handles [r] + pairsOf freed.pairs) ∧
      closeWalk run id w = Act.always
        (do
          tell freed.notices
          discard run (debrisOf freed.pairs))
        (discard run [.handle r])
        ({ w with walks := Table.erase id w.walks }.changed r { c with store := t }) := by
  have hguard := hw.books.guarded hc
  obtain ⟨_, hs⟩ := hw.parked_sound hc
  obtain ⟨freed, t, _, hunpin, _⟩ := Store.unpin_spec hs
  have hsound : ∀ pins, c.store.Sound (Chain.pinOn (some s) pins) → t.Sound pins := by
    intro pins hs
    obtain ⟨_, _, _, hunpin', ht, _⟩ := Store.unpin_spec hs
    rw [hunpin] at hunpin'
    cases hunpin'
    exact ht
  have hclose : closeWalk run id w = Act.always
      (do
        if ← isIdle r then do
          let freed ← exclusively r .unpin <| searching r .unpin <| onStore r (·.unpin s)
          tell freed.notices
          discard run (debrisOf freed.pairs)
        else do
          leak r (some s)
          tell [.pinLeaked])
      (discard run [.handle r]) { w with walks := Table.erase id w.walks } := by
    rw [closeWalk, bind_of_ok hw.walk_eq]
    rfl
  -- the cursor has gone, and its pin and its container are in hand
  have hopen : Situation.Holds ⟨pinAt r (some s), fun w => w.Idle r⟩ (others + handles [r])
      { w with walks := Table.erase id w.walks } :=
    ⟨hw.eraseRow.of_eq (add_assoc _ _ _), c, hc, ha⟩
  have hcu : containerAt? { w with walks := Table.erase id w.walks }.cells r = some c := hc
  generalize { w with walks := Table.erase id w.walks } = u at hopen hcu hclose ⊢
  have hdone : (exclusively r .unpin <| searching r .unpin <| onStore r (·.unpin s)) u =
      (.ok freed, u.changed r { c with store := t }) := by
    refine exclusively_searching_eq hcu hcu ha (hguard.idle ha).1 fun d hd => ?_
    rw [onStore_eq (containerAt?_changed hcu d) (hd ▸ hunpin), changed_changed]
  obtain ⟨hz, _⟩ := unpin_owns.of_ok (Multiset.Subset.refl _) hopen hdone
  refine ⟨freed, t, hunpin, hsound, hz.1, ?_⟩
  rw [hclose, always_apply, always_apply, bind_of_ok (isIdle_eq hcu), decide_eq_true ha, if_pos rfl,
    bind_of_ok hdone]

/-! ## many steps -/

section
variable {β : Type} {p : β → Prop}

omit hrun in
/-- What a step has yielded is used up before the next one. -/
theorem used_owns {use : Act β} {y : Yield} {lent : Hands}
    (huse : Owns lent y.assets use (fun b => plain 0 (p b)) 0) :
    Owns lent ↑(cursorAt id none + y.assets) use (fun b => plain (cursorAt id none) (p b))
      (cursorAt id none) := by
  refine (huse.beside (cursorAt id none)).weaken (entails_of_eq (add_comm _ _)) fun b => ?_
  exact plain_of_eq (zero_add _)

theorem takeUpTo_owns (id : Nat) (kind : Kind) (selection : Selection) {use : Yield → Act β}
    (huse : ∀ y, Owns lent y.assets (use y) (fun b => plain 0 (p b)) 0) (n : Nat) :
    Owns lent (cursorAt id none) (takeUpTo run id kind selection use n)
      (fun l => plain (cursorAt id none) (∀ b ∈ l, p b)) (cursorAt id none) := by
  induction n with
  | zero => exact .pure (entails_plain nofun)
  | succ n ih =>
    refine (advance_owns hrun id kind selection).bind fun y? => ?_
    cases y? with
    | none => exact .pure (entails_plain nofun)
    | some y =>
      refine (used_owns (huse y)).bind fun b => .of_plain fun hb => ih.bind fun rest => ?_
      refine .pure (plain_entails fun hrest c hc => ?_)
      rcases List.mem_cons.mp hc with rfl | hc
      · exact hb
      · exact hrest c hc

/-- A cursor is closed after its last step. -/
theorem closing_owns {a : Situation} {x : Act β} {P : β → Prop}
    (hx : Owns lent a x (fun b => plain (cursorAt id none) (P b)) (cursorAt id none)) :
    Owns lent a (Act.always x (closeWalk run id)) (fun b => plain 0 (P b)) 0 := by
  refine hx.always (fun b => .of_plain fun hb => ?_) (closeWalk_owns hrun id)
  exact (closeWalk_owns hrun id).weaken (.refl _) fun _ => entails_plain hb

theorem takeLast_owns (id : Nat) (kind : Kind) (selection : Selection) {use : Yield → Act β}
    (huse : ∀ y, Owns lent y.assets (use y) (fun b => plain 0 (p b)) 0) (limit : Nat) :
    Owns lent (cursorAt id none) (takeLast run id kind selection use limit)
      (fun l => plain 0 (∀ b ∈ l, p b)) 0 :=
  closing_owns hrun (takeUpTo_owns hrun id kind selection huse limit)

theorem list_safe (hr : .handle r ∈ lent) (selection : Selection) {use : Yield → Act β}
    (huse : ∀ y, Owns lent y.assets (use y) (fun b => plain 0 (p b)) 0) (limit : Nat) :
    Safe lent (list run r selection use limit) fun l => ∀ b ∈ l, p b := by
  refine of_container (.of_lent hr) (.refl _) (Owns.bind (container_owns fun _ => And.right) fun c => ?_)
  refine Owns.bind ((openWalk_owns hr).weaken (fun _ _ hw => ⟨hw.1, c, hw.2.2⟩) fun _ => .refl _)
    fun id => ?_
  refine (takeLast_owns hrun id c.kind selection huse limit).weaken ?_ fun _ => .refl _
  exact entails_of_eq (zero_add _)

end

end

end World

end LiveOrder
