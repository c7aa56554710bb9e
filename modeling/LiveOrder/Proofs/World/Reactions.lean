import LiveOrder.Proofs.World.Atomicity
import LiveOrder.Proofs.World.Steps

/-!
# Steps that run user code

A step of a cursor chooses where it goes, releases what this has freed, and only then has a place
again and reads the entry there.  User code runs in between, for what is released.

* `advance_chosen`    the choice is right when it is made, and still right when the cursor lands if
                      nothing reacts that has been freed;
* `ReleaseFails`      a step has left its place, and fails with the release of what was freed there;
* `advance_failed`    a step that fails leaves the cursor where it was or where it came to, unless it is
                      the release that fails: then the cursor has no place, and its pin stays.

Both conditions are needed.  A reaction can remove the entry that has been chosen, and set another one
when the end has been chosen; and a cursor without a place begins anew.
-/

namespace LiveOrder.World

open Act Situation Table

variable {run : Runner} {w v : World} {others : Hands} {r id : Nat} {last next : Option Nat}
  {kind : Kind} {selection : Selection} {y? : Option Yield} {e : Failure}

/-! ## the choice -/

/-- The first live entry after the place. -/
def Chooses (w : World) (r : Nat) (last next : Option Nat) : Prop :=
  ∃ c, containerAt? w.cells r = some c ∧ FirstAfter c.store.chain.Live last next

theorem InOrder.chooses (hw : w.InOrder others) {c : Container} (hc : containerAt? w.cells r = some c)
    (last : Option Nat) : w.Chooses r last ((c.store.ledger.after last).map (·.serial)) :=
  ⟨c, hc, Store.firstAfter_ledger (hw.books.stores hc) last⟩

theorem depart_chooses (hw : w.InOrder (others + cursorAt id (some ⟨some r, last⟩)))
    (h : depart run id r last w = (.ok next, v)) : w.Chooses r last next := by
  obtain ⟨⟨next', freed⟩, u, hmove, h⟩ := bind_eq_ok.mp h
  rcases move_cases hw with ⟨e, he⟩ | ⟨c, freed', t, hc, _, _, _, _, he⟩
  · rw [he] at hmove
    cases hmove
  · rw [he] at hmove
    cases hmove
    obtain ⟨_, _, _, h⟩ := bind_eq_ok.mp h
    obtain ⟨_, _, _, h⟩ := bind_eq_ok.mp h
    cases h
    exact hw.chooses hc last

/-- A cursor that lands on an entry yields it, and at the end it yields nothing. -/
theorem land_yields (h : land run id r kind selection next w = (.ok y?, v)) :
    y? = none ↔ next = none := by
  cases next with
  | none =>
    obtain ⟨_, _, _, h⟩ := bind_eq_ok.mp h
    obtain ⟨_, _, _, h⟩ := bind_eq_ok.mp h
    cases h
    simp
  | some s =>
    obtain ⟨_, _, _, h⟩ := bind_eq_ok.mp h
    obtain ⟨_, _, _, h⟩ := bind_eq_ok.mp h
    cases h
    simp

/-- A step that succeeds comes to the first live entry after the place of its cursor, and yields it, or
comes to the end if there is none.  This is so when the step begins; and also when the cursor lands, and
the entry is read, if nothing reacts that was freed where the cursor had been. -/
theorem advance_chosen (hrun : run.Safe) (hw : w.InOrder (others + cursorAt id (some ⟨some r, last⟩)))
    (h : advance run id kind selection w = (.ok y?, v)) :
    ∃ next u, depart run id r last w = (.ok next, u) ∧
      land run id r kind selection next u = (.ok y?, v) ∧ (y? = none ↔ next = none) ∧
      w.Chooses r last next ∧ (w.Spares r last → u.Chooses r last next) := by
  obtain ⟨next, u, hdepart, hland⟩ := bind_eq_ok.mp ((advance_eq hw).symm.trans h)
  refine ⟨next, u, hdepart, hland, land_yields hland, depart_chooses hw hdepart, fun hspares => ?_⟩
  obtain ⟨c, t, _, _, hledger, _, hnext, _, hthere, hu⟩ := depart_there hrun hw hspares hdepart
  have hchooses := hu.chooses hthere last
  dsimp only at hchooses
  rwa [hledger, ← hnext] at hchooses

/-! ## failures -/

/-- The cursor has left its place, and then the release of what was freed there fails; the pin that the
step took is left behind, last of all. -/
def ReleaseFails (run : Runner) (w : World) (id r : Nat) (last next : Option Nat) (e : Failure)
    (v : World) : Prop :=
  ∃ freed u u' z, move id r last w = (.ok (next, freed), u) ∧ tell freed.notices u = (.ok (), u') ∧
    discard run (debrisOf freed.pairs) u' = (.error e, z) ∧ leak r next z = (.ok (), v)

theorem ReleaseFails.leaked {s : Nat} (h : w.ReleaseFails run id r last (some s) e v) :
    (r, s) ∈ v.leaks := by
  obtain ⟨_, _, _, _, _, _, _, hleak⟩ := h
  cases hleak
  exact List.mem_cons_self

theorem depart_failed (hrun : run.Safe) (hw : w.InOrder (others + cursorAt id (some ⟨some r, last⟩)))
    (h : depart run id r last w = (.error e, v)) :
    v = w ∨ ∃ next, w.Chooses r last next ∧ w.ReleaseFails run id r last next e v ∧
      get? id v.walks = some ⟨some r, none⟩ := by
  rcases move_cases hw with ⟨e', he⟩ | ⟨c, freed, t, hc, _, _, _, _, he⟩
  · rw [depart, bind_apply, he] at h
    cases h
    exact .inl rfl
  · obtain ⟨hmoved, _⟩ := (move_owns last).of_ok (Multiset.zero_subset others) ⟨hw, trivial⟩ he
    rw [depart, bind_apply, he] at h
    obtain ⟨_, hv, _⟩ := (release_owns hrun _ freed).of_error (Multiset.zero_subset others) hmoved h
    refine .inr ⟨_, hw.chooses hc last, ?_, hv.known (by simp)⟩
    obtain ⟨u, htell, _⟩ := tell_ok freed.notices (w.moved id r c t)
    dsimp only at h
    rw [bind_apply, htell] at h
    dsimp only at h
    rw [bind_apply, onFailure_apply] at h
    rcases hdiscard : discard run (debrisOf freed.pairs) u with ⟨e' | _, z⟩
    · rw [hdiscard] at h
      cases h
      exact ⟨freed, _, u, z, he, htell, hdiscard, rfl⟩
    · rw [hdiscard] at h
      cases h

/-- A step that fails was refused, and has changed nothing; or it has left its place, and fails when it
lands: then the cursor is at the entry or the end that the step has chosen; or the release of what was
freed has failed.  Then the cursor has no place, and nobody will give up the pin that the step took. -/
theorem advance_failed (hrun : run.Safe) (hw : w.InOrder (others + cursorAt id (some ⟨some r, last⟩)))
    (h : advance run id kind selection w = (.error e, v)) :
    v = w ∨ ∃ next, w.Chooses r last next ∧
      ((∃ u, depart run id r last w = (.ok next, u) ∧
          land run id r kind selection next u = (.error e, v) ∧
          get? id v.walks = some (landed r next)) ∨
        (w.ReleaseFails run id r last next e v ∧ get? id v.walks = some ⟨some r, none⟩ ∧
          ∀ s, next = some s → (r, s) ∈ v.leaks)) := by
  rcases bind_eq_error.mp ((advance_eq hw).symm.trans h) with hdepart | ⟨next, u, hdepart, hland⟩
  · rcases depart_failed hrun hw hdepart with rfl | ⟨next, hchooses, hfails, hplace⟩
    · exact .inl rfl
    · refine .inr ⟨next, hchooses, .inr ⟨hfails, hplace, ?_⟩⟩
      rintro s rfl
      exact hfails.leaked
  · obtain ⟨hu, _⟩ := (depart_owns hrun last).holding_of_ok (Multiset.zero_subset others) hw hdepart
    obtain ⟨_, hv, _⟩ := (land_owns hrun kind selection next).of_error (Multiset.zero_subset others)
      ⟨hu, trivial⟩ hland
    exact .inr ⟨next, depart_chooses hw hdepart, .inl ⟨u, hdepart, hland, hv.known (by simp)⟩⟩

/-! ## programs whose steps react -/

/-- The world after a program, with an iterator taken from its name for a step. -/
def stepping (ops : List Op) (it : String) : World :=
  let w := (Program.runFrom false (.initial ⟨100, 8, 20⟩ false) ops).2
  { w with iterators := erase it w.iterators }

theorem stepping_inOrder {ops : List Op} {it : String} {x : Walk}
    (hid : (get? it (Program.runFrom false (.initial ⟨100, 8, 20⟩ false) ops).2.iterators).map
      (·.walk) = some id)
    (hx : get? id (stepping ops it).walks = some x) :
    (stepping ops it).InOrder (0 + cursorAt id (some x)) := by
  obtain ⟨_, hlast, _⟩ := Program.runFrom_spec (resting_initial ⟨100, 8, 20⟩ false) false ops
  obtain ⟨y, hy, rfl⟩ := Option.map_eq_some_iff.mp hid
  have htaken := hlast.toInOrder.takeIterator it
  rw [hy] at htaken
  obtain ⟨x', hx', hknown⟩ := htaken.learn
  have hsame : get? y.walk (stepping ops it).walks = some x' := hx'
  rw [hx, Option.some.injEq] at hsame
  exact hsame ▸ hknown

/-- An entry is deleted under a cursor, so the next step releases it. -/
def underCursor (onRelease : Option (List Step)) (more : List (Term × Payload)) : List Op :=
  [.container .map "m" ((.text .slice "a", .tracked 1 onRelease none) :: more),
    .iterate (.named "m") .keys "i", .next "i" none, .delete (.named "m") (.text .slice "a")]

/-- The release removes the next entry. -/
def removing : List Op :=
  underCursor (some [.mk (.delete (.named "m") (.text .slice "b")) false])
    [(.text .slice "b", .tracked 2 none none), (.text .slice "c", .tracked 3 none none)]

/-- The release sets an entry where there was none. -/
def adding : List Op :=
  underCursor (some [.mk (.put (.named "m") [(.text .slice "b", .tracked 2 none none)]) false]) []

/-- Nothing reacts. -/
def sparing : List Op := underCursor none [(.text .slice "b", .tracked 2 none none)]

theorem ok_of_toOption {α : Type} {x : Act α} {a : α} (h : (x w).1.toOption = some a) :
    x w = (.ok a, (x w).2) := by
  rcases hx : x w with ⟨e | b, v⟩
  · rw [hx] at h
    cases h
  · rw [hx] at h
    cases h
    rfl

theorem error_of_toBool {α : Type} {x : Act α} (h : (x w).1.toBool = false) :
    ∃ e, x w = (.error e, (x w).2) := by
  rcases hx : x w with ⟨e | b, v⟩
  · exact ⟨e, rfl⟩
  · rw [hx] at h
    cases h

/-- Whether an entry has been removed, if it is there at all. -/
def removedAt? (w : World) (r s : Nat) : Option Bool :=
  (containerAt? w.cells r).bind fun c => (c.store.chain.arena.get? s).map (·.removed)

theorem removedAt?_eq_some_iff {s : Nat} {b : Bool} : w.removedAt? r s = some b ↔
    ∃ c x, containerAt? w.cells r = some c ∧ c.store.chain.arena.get? s = some x ∧ x.removed = b := by
  simp [removedAt?, Option.bind_eq_some_iff]

theorem not_chooses_of_removed {s : Nat} (h : w.removedAt? r s = some true) :
    ¬w.Chooses r last (some s) := by
  obtain ⟨c, x, hc, hx, hremoved⟩ := removedAt?_eq_some_iff.mp h
  rintro ⟨d, hd, ⟨y, hy, hlive⟩, _⟩
  rw [hc] at hd
  cases hd
  rw [hx] at hy
  cases hy
  rw [hremoved] at hlive
  cases hlive

theorem not_chooses_of_live {s : Nat} (h : w.removedAt? r s = some false) (hs : After last s) :
    ¬w.Chooses r last none := by
  obtain ⟨c, x, hc, hx, hlive⟩ := removedAt?_eq_some_iff.mp h
  rintro ⟨d, hd, hnone⟩
  rw [hc] at hd
  cases hd
  exact hnone s ⟨x, hx, hlive⟩ hs

/-- The condition of `advance_chosen` is needed: a reaction removes the entry that has been chosen,
which the step yields all the same, or sets an entry after the end has been chosen. -/
theorem advance_not_chosen :
    (∃ u y v, depart (runSteps 8) 0 0 (some 0) (stepping removing "i") = (.ok (some 1), u) ∧
      land (runSteps 8) 0 0 .map .keys (some 1) u = (.ok (some y), v) ∧
      ¬u.Chooses 0 (some 0) (some 1)) ∧
    ∃ u v, depart (runSteps 8) 0 0 (some 0) (stepping adding "i") = (.ok none, u) ∧
      land (runSteps 8) 0 0 .map .keys none u = (.ok none, v) ∧ ¬u.Chooses 0 (some 0) none := by
  constructor
  · have hnext : (depart (runSteps 8) 0 0 (some 0) (stepping removing "i")).1.toOption =
        some (some 1) := by decide +kernel
    have hyields : (land (runSteps 8) 0 0 .map .keys (some 1)
        (depart (runSteps 8) 0 0 (some 0) (stepping removing "i")).2).1.toOption.map
          Option.isSome = some true := by decide +kernel
    have hremoved : removedAt? (depart (runSteps 8) 0 0 (some 0) (stepping removing "i")).2 0 1 =
        some true := by decide +kernel
    obtain ⟨y?, hland, hsome⟩ := Option.map_eq_some_iff.mp hyields
    obtain ⟨y, rfl⟩ := Option.isSome_iff_exists.mp hsome
    exact ⟨_, y, _, ok_of_toOption hnext, ok_of_toOption hland, not_chooses_of_removed hremoved⟩
  · have hnext : (depart (runSteps 8) 0 0 (some 0) (stepping adding "i")).1.toOption = some none := by
      decide +kernel
    have hyields : (land (runSteps 8) 0 0 .map .keys none
        (depart (runSteps 8) 0 0 (some 0) (stepping adding "i")).2).1.toOption.map
          Option.isSome = some false := by decide +kernel
    have hlive : removedAt? (depart (runSteps 8) 0 0 (some 0) (stepping adding "i")).2 0 1 =
        some false := by decide +kernel
    obtain ⟨y?, hland, hnone⟩ := Option.map_eq_some_iff.mp hyields
    rw [Option.isSome_eq_false_iff, Option.isNone_iff_eq_none] at hnone
    subst hnone
    have hafter : After (some 0) 1 := Nat.zero_lt_one
    exact ⟨_, _, ok_of_toOption hnext, ok_of_toOption hland, not_chooses_of_live hlive hafter⟩

/-- Where nothing reacts, the entry that has been chosen is the right one when the cursor lands. -/
theorem advance_chosen_sparing :
    ∃ y? v next u, advance (runSteps 8) 0 .map .keys (stepping sparing "i") = (.ok y?, v) ∧
      depart (runSteps 8) 0 0 (some 0) (stepping sparing "i") = (.ok next, u) ∧
      (y? = none ↔ next = none) ∧ u.Chooses 0 (some 0) next := by
  have hw : (stepping sparing "i").InOrder (0 + cursorAt 0 (some ⟨some 0, some 0⟩)) :=
    stepping_inOrder (by decide +kernel) (by decide +kernel)
  have hok : (advance (runSteps 8) 0 .map .keys (stepping sparing "i")).1.toOption.map
      Option.isSome = some true := by decide +kernel
  have hcalm : calm (stepping sparing "i").cells = true := by decide +kernel
  obtain ⟨y?, hy, _⟩ := Option.map_eq_some_iff.mp hok
  obtain ⟨next, u, hdepart, _, hyields, _, hchooses⟩ :=
    advance_chosen (runSteps_safe 8) hw (ok_of_toOption hy)
  exact ⟨y?, _, next, u, ok_of_toOption hy, hdepart, hyields,
    hchooses (spares_of_quiet hw (quiet_of_calm hcalm 0))⟩

/-! ### releases that fail -/

/-- The release of a deleted entry changes another map.  The step that releases it is taken while that
map is searching, so it is refused there. -/
def interrupted : List Op :=
  let key := Term.text .slice
  let change := Step.mk (.delete (.named "n") (key "x")) true
  [.container .map "n" [],
    .container .map "m" [(key "a", .tracked 1 none none), (key "b", .tracked 2 (some [change]) none),
      (key "c", .tracked 3 none none)],
    .iterate (.named "m") .keys "i", .next "i" none, .next "i" none, .delete (.named "m") (key "b"),
    .has (.named "n") (.reacting (key "q") [.mk (.next "i" none) false]),
    .next "i" none, .close "i", .delete (.named "m") (key "c")]

/-- The world in which that step is taken. -/
def interrupting : World := opened (stepping (interrupted.take 6) "i")

theorem interrupting_inOrder : interrupting.InOrder (0 + cursorAt 0 (some ⟨some 1, some 1⟩)) :=
  (stepping_inOrder (by decide +kernel) (by decide +kernel)).opened

/-- The step goes from the entry that was deleted to the next one, and fails with the release; then the
iterator has no place, and the pin on that entry stays. -/
theorem advance_failed_interrupted :
    ∃ e v, advance (runSteps 8) 0 .map .keys interrupting = (.error e, v) ∧
      interrupting.Chooses 1 (some 1) (some 2) ∧
      interrupting.ReleaseFails (runSteps 8) 0 1 (some 1) (some 2) e v ∧
      get? 0 v.walks = some ⟨some 1, none⟩ ∧ v.leaks = [(1, 2)] := by
  have hfails : (advance (runSteps 8) 0 .map .keys interrupting).1.toBool = false := by decide +kernel
  have hplace : get? 0 (advance (runSteps 8) 0 .map .keys interrupting).2.walks =
      some ⟨some 1, none⟩ := by decide +kernel
  have hleaks : (advance (runSteps 8) 0 .map .keys interrupting).2.leaks = [(1, 2)] := by
    decide +kernel
  have hnone : interrupting.leaks = [] := by decide +kernel
  have hlive : removedAt? interrupting 1 2 = some false := by decide +kernel
  have hw := interrupting_inOrder
  generalize interrupting = w at *
  obtain ⟨e, he⟩ := error_of_toBool hfails
  generalize (advance (runSteps 8) 0 .map .keys w).2 = v at *
  rcases advance_failed (runSteps_safe 8) hw he with rfl | ⟨next, hchooses, hlanded | hlost⟩
  · rw [hnone] at hleaks
    cases hleaks
  · -- a cursor that has landed is at an entry, or has no container any more
    obtain ⟨_, _, _, hrow⟩ := hlanded
    rw [hplace] at hrow
    cases next <;> cases hrow
  · obtain ⟨hrelease, _, hleaked⟩ := hlost
    cases next with
    | none => exact absurd hchooses (not_chooses_of_live hlive Nat.one_lt_two)
    | some s =>
      have hpin := hleaked s rfl
      rw [hleaks, List.mem_singleton] at hpin
      cases hpin
      exact ⟨e, v, he, hchooses, hrelease, hplace, hleaks⟩

/-- The text that an operation yields. -/
def yielded (r : Program.Reply) : Option String :=
  match r.answer with
  | .mk (.ok (.shown (.term (.text _ s)))) _ => some s
  | _ => none

/-- The iterator begins anew after the step that failed, and yields an entry twice; and an entry that is
deleted stays in the map although no cursor is left. -/
theorem interrupted_yields_twice :
    (Program.runFrom false (.initial ⟨100, 8, 20⟩ false) interrupted).1.filterMap yielded =
        ["a", "b", "a"] ∧
      (Program.runFrom false (.initial ⟨100, 8, 20⟩ false) interrupted).2.walks = [] ∧
      removedAt? (Program.runFrom false (.initial ⟨100, 8, 20⟩ false) interrupted).2 1 2 =
        some true := by
  decide +kernel

end LiveOrder.World
