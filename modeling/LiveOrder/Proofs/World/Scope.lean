import LiveOrder.Proofs.World.Lifetime
import LiveOrder.World.Scope

/-!
# Visits and calls in order

* `within_owns`        an action between the beginning of a visit or a call and its end;
* `duringVisit_safe`, `duringCall_owns`   the copies of a visit and of a call are the world's while it
  goes on, and are given up at its end;
* `enclosed_settles`   nothing that a failing action began goes on.
-/

namespace LiveOrder.World

open Act Situation

variable {run : Runner} {α β : Type} {lent u : Hands} {a : Situation} {b : α → Situation}
  {c : β → Situation} {x : Act α} {g : α → Hands} {p : α → Prop}

/-! ## beginnings and ends -/

/-- What is given to the world at the beginning is there at the end. -/
theorem within_owns {enter leave : World → World} {rest : α → Act β}
    (henter : ∀ hands w, w.InOrder (hands + u) → (enter w).InOrder hands ∧ Opened w (enter w))
    (hleave : ∀ hands w v, Steady (enter w) v → v.InOrder hands →
      (leave v).InOrder (hands + u) ∧ Steady w (leave v))
    (hx : Owns lent (0 : Hands) x (fun y => plain (g y) (p y)) 0)
    (hrest : ∀ y, Owns lent (plain (g y + u) (p y)) (rest y) c 0) :
    Owns lent u
      (do
        modify enter
        let y ← x
        modify leave
        rest y) c 0 := by
  intro others w hlent hw
  obtain ⟨hentered, hopened⟩ := henter others w hw.1
  have hxw := hx others (enter w) hlent ⟨hentered.of_eq (add_zero _), trivial⟩
  rw [modify_bind_apply]
  rcases hr : x (enter w) with ⟨e | y, v⟩
  · rw [hr] at hxw
    rw [bind_apply, hr]
    exact ⟨hxw.1, hxw.2.1, hopened.trans hxw.2.2⟩
  · rw [hr] at hxw
    obtain ⟨⟨hv, hp⟩, hsteady⟩ := hxw
    obtain ⟨hleft, hback⟩ := hleave _ w v hsteady hv
    have hend := hrest y others (leave v) hlent ⟨hleft.of_eq (add_assoc _ _ _).symm, hp⟩
    rw [bind_of_ok hr, modify_bind_apply]
    rcases hs : rest y (leave v) with ⟨e | z, v'⟩
    · rw [hs] at hend
      exact ⟨hend.1, hend.2.1, hback.opened.trans hend.2.2⟩
    · rw [hs] at hend
      exact ⟨hend.1, hback.trans hend.2⟩

/-- Other visits and calls are begun. -/
theorem opened_of_cons {w : World} (visits : List Key) (calls : List Call) :
    Opened w { w with visiting := visits ++ w.visiting, calls := calls ++ w.calls } :=
  ⟨⟨.of_eq rfl, Nat.le_refl _, .inl, ages_of_same fun _ _ hc => hc, Nat.le_refl _, fun _ h => h,
    rfl⟩, List.suffix_append _ _, List.suffix_append _ _⟩

section
variable (hrun : run.Safe)
include hrun

theorem duringVisit_safe {k : Key} (hk : handles k.refs ⊆ lent) (hx : Safe lent x p) :
    Safe lent (duringVisit run k x) p := by
  have hlent : handles k.refs ⊆ lent + 0 := by rwa [add_zero]
  refine (copyKey_lent_owns hlent).bind fun k' => .of_plain fun hk' => ?_
  subst hk'
  refine Owns.weaken (a := (handles k'.refs : Hands)) ?_ (entails_of_eq (zero_add _))
    fun _ => .refl _
  refine within_owns (g := fun _ => 0) (fun hands w hw => ⟨hw.pushVisit, opened_of_cons [k'] []⟩)
    (fun hands w v hv hw => ?_) hx fun y => .of_plain fun hp => ?_
  · have hvisiting : v.visiting = k' :: w.visiting := hv.visiting
    have hpop := hw.pop 1 0
    rw [hvisiting] at hpop ⊢
    exact ⟨hpop.of_eq (by simp), { hv.toOnward with }, rfl, hv.calls⟩
  · refine Owns.bind ((discardKey_owns hrun k').of_eq (zero_add _))
      fun _ => .pure (entails_plain hp)

omit hrun in
theorem piecesOf_call (call : Call) : piecesOf call.debris = handles call.refs := piecesOf_values _

/-- The result of a call is released if its end fails. -/
theorem duringCall_owns {receiver : Value} {args : List Value} {release : α → Act Unit}
    (hr : handles receiver.refs ⊆ lent) (hargs : handles (args.flatMap Value.refs) ⊆ lent)
    (hx : Owns lent (0 : Hands) x (fun y => plain (g y) (p y)) 0)
    (hrelease : ∀ y, Owns lent (g y) (release y) (fun _ => (0 : Hands)) 0) :
    Owns lent (0 : Hands) (duringCall run receiver args x release) (fun y => plain (g y) (p y)) 0 := by
  have hlent : handles receiver.refs ⊆ lent + 0 := by rwa [add_zero]
  refine (copyValue_lent_owns hlent).bind fun receiver' => .of_plain fun hr' => ?_
  refine (copyValues_lent_owns hargs).bind fun args' => .of_plain fun hargs' => ?_
  subst hr' hargs'
  have hcall : (0 : Hands) + handles receiver'.refs + handles (args'.flatMap Value.refs) =
      handles (Call.refs ⟨receiver', args'⟩) := by
    unfold Call.refs
    rw [List.flatMap_cons, handles_append, zero_add]
  refine Owns.weaken (a := (handles (Call.refs ⟨receiver', args'⟩) : Hands)) ?_
    (entails_of_eq hcall) fun _ => .refl _
  refine within_owns (fun hands w hw => ⟨hw.pushCall, opened_of_cons [] [⟨receiver', args'⟩]⟩)
    (fun hands w v hv hw => ?_) hx fun y => .of_plain fun hp => ?_
  · have hcalls : v.calls = ⟨receiver', args'⟩ :: w.calls := hv.calls
    have hpop := hw.pop 0 1
    rw [hcalls] at hpop ⊢
    exact ⟨hpop.of_eq (by simp), { hv.toOnward with }, hv.visiting, rfl⟩
  · have hdiscard : Owns (lent + g y) (handles (Call.refs ⟨receiver', args'⟩))
        (discard run (Call.debris ⟨receiver', args'⟩)) (fun _ => (0 : Hands)) 0 :=
      discard_of_eq_owns hrun (piecesOf_call _).symm
    refine Owns.bind ((hdiscard.rescue (hrelease y)).of_eq (add_comm _ _)) fun _ => .pure ?_
    exact (entails_of_eq (zero_add _)).trans (entails_plain hp)

/-! ## failures that are caught -/

theorem discardScopes_settles (visits : List Key) (calls : List Call) :
    Settles lent ↑(handles (visits.flatMap Key.refs) + handles (calls.flatMap Call.refs))
      (Act.always (discard run (visits.reverse.map .key))
        (discard run (calls.reverse.flatMap Call.debris)))
      fun _ => (0 : Hands) := by
  refine Settles.ending (discard_of_eq_settles hrun ?_) (discard_of_eq_settles hrun ?_)
  · rw [piecesOf_keys]
    exact handles_perm ((List.reverse_perm _).symm.flatMap_right _)
  · rw [piecesOf_flatMap piecesOf_call, ← handles_flatMap]
    exact handles_perm ((List.reverse_perm _).symm.flatMap_right _)

/-- As many visits and calls go on as before. -/
theorem backTo_spec {others : Hands} {earlier w : World} (hw : w.InOrder others)
    (ho : Opened earlier w) : ∃ outcome v, backTo run earlier w = (outcome, v) ∧
      Outcome Anything outcome ∧ v.InOrder others ∧ Steady earlier v := by
  have hpop := hw.pop (w.visiting.length - earlier.visiting.length)
    (w.calls.length - earlier.calls.length)
  have hsteady : Steady earlier { w with
      visiting := w.visiting.drop (w.visiting.length - earlier.visiting.length)
      calls := w.calls.drop (w.calls.length - earlier.calls.length) } :=
    ⟨{ ho.toOnward with }, (List.suffix_iff_eq_drop.mp ho.visiting).symm,
      (List.suffix_iff_eq_drop.mp ho.calls).symm⟩
  obtain ⟨outcome, v, he, hv, hon⟩ := (discardScopes_settles hrun
    (w.visiting.take (w.visiting.length - earlier.visiting.length))
    (w.calls.take (w.calls.length - earlier.calls.length))).apply (Multiset.zero_subset others)
    ⟨hpop.of_eq (add_assoc _ _ _).symm, trivial⟩
  refine ⟨outcome, v, he, ?_, ?_, hsteady.trans hon⟩
  · cases outcome with
    | ok y => exact trivial
    | error e => exact hv.2
  · cases outcome with
    | ok y => exact hv.1.of_eq (add_zero _).symm
    | error e => exact hv.1.of_eq (add_zero _).symm

theorem enclosed_settles (hx : Owns lent a x b 0) : Settles lent a (enclosed run x) b := by
  intro others w hlent hw
  have hxw := hx others w hlent hw
  rw [attempt_apply, enclosed_apply]
  rcases hr : x w with ⟨e | y, v⟩
  · rw [hr] at hxw
    obtain ⟨hi, hv, hopened⟩ := hxw
    obtain ⟨outcome, v', he, ho, hv', hsteady⟩ := backTo_spec hrun hv hopened
    dsimp only
    rw [he]
    refine ⟨⟨hv', Failure.not_internal_leaving hi fun f hf => ?_⟩, hsteady⟩
    subst hf
    exact ho
  · rw [hr] at hxw
    exact hxw

end

end LiveOrder.World
