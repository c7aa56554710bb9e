import LiveOrder.Proofs.World.Run

/-!
# Refusals

An operation is refused when its container is in use in another way, before it runs any user code.

* `Act.Grants`       an action that is not refused;
* `World.Refuses`    an operation is refused: it fails whatever user code would do, and nothing changes;
* `has_refuses_iff`, `lookup_refuses_iff`, `update_refuses_iff`, …   when that is, by what goes on in the
                     container;
* `discipline`       access and guard whenever user code runs in a program, and what is refused then.

That an operation is not refused is shown with user code that does nothing: what fails then fails in
another way.
-/

namespace LiveOrder

namespace Act

variable {α β : Type} {x : Act α} {f : α → Act β} {w : World}

/-- The action is not refused in the world. -/
def GrantsAt (x : Act α) (w : World) : Prop := ∀ e v, x w = (.error e, v) → ¬e.IsRefusal

/-- The action is never refused. -/
def Grants (x : Act α) : Prop := ∀ w, GrantsAt x w

theorem Grants.pure {a : α} : Grants (pure a : Act α) := fun _ => nofun

theorem Grants.modify {g : World → World} : Grants (modify g : Act Unit) := fun _ => nofun

theorem Grants.throw {e : Failure} (he : ¬e.IsRefusal) : Grants (throw e : Act α) := by
  rintro w _ v ⟨⟩
  exact he

theorem GrantsAt.bind (hx : GrantsAt x w) (hf : ∀ a, Grants (f a)) : GrantsAt (x >>= f) w := by
  intro e v h
  rcases bind_eq_error.mp h with h | ⟨a, u, _, h⟩
  · exact hx e v h
  · exact hf a u e v h

theorem GrantsAt.of_ok {a : α} {v : World} (hx : x w = (.ok a, v)) (hf : GrantsAt (f a) v) :
    GrantsAt (x >>= f) w := by
  unfold GrantsAt
  rwa [bind_of_ok hx]

theorem Grants.bind (hx : Grants x) (hf : ∀ a, Grants (f a)) : Grants (x >>= f) :=
  fun w => (hx w).bind hf

theorem Grants.get_bind {f : World → Act β} (hf : ∀ w, Grants (f w)) :
    Grants ((MonadState.get : Act World) >>= f) := fun w => hf w w

theorem Grants.forM {l : List α} {f : α → Act Unit} (hf : ∀ a, Grants (f a)) : Grants (l.forM f) := by
  induction l with
  | nil => exact .pure
  | cons a rest ih => exact (hf a).bind fun _ => ih

theorem GrantsAt.always {ending : Act Unit} (hx : GrantsAt x w) (hend : Grants ending) :
    GrantsAt (always x ending) w := by
  intro e v h
  rw [always_apply] at h
  rcases hr : x w with ⟨e' | a, u⟩
  · rw [hr] at h
    cases h
    exact Failure.not_isRefusal_leaving (hx e' u hr) fun f hf => hend u f _ (Prod.ext hf rfl)
  · rw [hr] at h
    dsimp only at h
    rcases he : ending u with ⟨f | y, z⟩
    · rw [he] at h
      cases h
      exact hend u _ _ he
    · rw [he] at h
      cases h

theorem Grants.always {ending : Act Unit} (hx : Grants x) (hend : Grants ending) :
    Grants (always x ending) := fun w => (hx w).always hend

theorem GrantsAt.onFailure {cleanup : Act Unit} (hx : GrantsAt x w) (hc : Grants cleanup) :
    GrantsAt (onFailure x cleanup) w := by
  intro e v h
  rw [onFailure_apply] at h
  rcases hr : x w with ⟨e' | a, u⟩
  · rw [hr] at h
    cases h
    exact Failure.not_isRefusal_leaving (hx e' u hr) fun f hf => hc u f _ (Prod.ext hf rfl)
  · rw [hr] at h
    cases h

theorem Grants.onFailure {cleanup : Act Unit} (hx : Grants x) (hc : Grants cleanup) :
    Grants (onFailure x cleanup) := fun w => (hx w).onFailure hc

theorem Grants.ofStore (y : Except Fault α) : Grants (ofStore y) := by
  cases y with
  | ok a => exact .pure
  | error f => exact Grants.bind .modify fun _ => .throw id

end Act

namespace World

open Act

variable {α : Type} {run : Runner} {w : World} {r : Nat} {c : Container} {q : Query}

/-! ## what is never refused by itself -/

theorem cell_grants (r : Nat) : Grants (cell r) := by
  refine .get_bind fun w => ?_
  split
  · exact .pure
  · exact Grants.bind .modify fun _ => .throw id

theorem container_grants (r : Nat) : Grants (container r) := by
  refine (cell_grants r).bind fun d => ?_
  split
  · exact .pure
  · exact .throw id

theorem log_grants (e : Event) : Grants (log e) := .modify

theorem tell_grants (notices : List Notice) : Grants (tell notices) := by
  refine .get_bind fun w => ?_
  split
  · exact .forM fun n => log_grants _
  · exact .pure

theorem setContainer_grants (r : Nat) (c : Container) : Grants (setContainer r c) := .modify

theorem setAccess_grants (r : Nat) (a : Access) : Grants (setAccess r a) :=
  (container_grants r).bind fun _ => setContainer_grants r _

theorem delist_grants (r : Nat) : Grants (delist r) :=
  (container_grants r).bind fun _ => setContainer_grants r _

theorem endShared_grants (r : Nat) : Grants (endShared r) := by
  refine (container_grants r).bind fun c => ?_
  split
  · exact setAccess_grants r _
  · exact .pure

theorem leaveGuard_grants (r : Nat) : Grants (leaveGuard r) := by
  refine (container_grants r).bind fun c => ?_
  split
  · exact (container_grants r).bind fun _ => setContainer_grants r _
  · exact .ofStore _

theorem readStore_grants (r : Nat) (f : Store Item → Except Fault α) : Grants (readStore r f) :=
  (container_grants r).bind fun _ => .ofStore _

theorem onStore_grants (r : Nat) (f : Store Item → Except Fault (α × Store Item)) :
    Grants (onStore r f) :=
  (container_grants r).bind fun _ => (Grants.ofStore _).bind fun _ =>
    (setContainer_grants r _).bind fun _ => .pure

theorem retainAll_grants (refs : List Nat) : Grants (retainAll refs) :=
  .forM fun r => (cell_grants r).bind fun _ => .modify

section
variable (hrun : ∀ steps, Grants (run steps))
include hrun

theorem discardOne_grants (p : Debris) : Grants (discardOne run p) := by
  cases p with
  | item i =>
    cases i with
    | tracked id n onRelease onCopy =>
      refine Grants.bind (Grants.bind .modify fun _ => ?_) fun _ => .pure
      cases onRelease with
      | none => exact log_grants _
      | some body => exact (hrun body).bind fun _ => log_grants _
    | _ => exact .pure
  | key k => exact .pure
  | handle r =>
    refine (cell_grants r).bind fun d => ?_
    split
    · exact Grants.bind .modify fun _ => .pure
    · exact Grants.bind .modify fun _ => .pure

theorem discardWithin_grants (n : Nat) (pieces : List Debris) : Grants (discardWithin run n pieces) := by
  induction n generalizing pieces with
  | zero =>
    cases pieces with
    | nil => exact .pure
    | cons p rest => exact Grants.bind .modify fun _ => .throw id
  | succ n ih =>
    cases pieces with
    | nil => exact .pure
    | cons p rest =>
      exact Grants.bind .modify fun _ =>
        ((discardOne_grants hrun p).onFailure (ih rest)).bind fun more => ih _

theorem discard_grants (pieces : List Debris) : Grants (discard run pieces) :=
  .get_bind fun _ => discardWithin_grants hrun _ pieces

theorem ask_grants (q : Query) : Grants (ask run q) := by
  induction q with
  | plain k => exact .pure
  | reference q ih => exact ih
  | counted q ih => exact .get_bind fun _ => (log_grants _).bind fun _ => ih
  | reacting q body ih =>
    exact (hrun body).bind fun _ => .get_bind fun _ => (log_grants _).bind fun _ => ih

theorem copyItem_grants (i : Item) : Grants (copyItem run i) := by
  cases i with
  | value v => exact (retainAll_grants _).bind fun _ => .pure
  | tracked id n onRelease onCopy =>
    cases onCopy with
    | none => exact .pure
    | some body =>
      refine .get_bind fun w => ?_
      split
      · exact .pure
      · exact Grants.bind .modify fun _ => ((hrun body).always .modify).bind fun _ =>
          (log_grants _).bind fun _ => .pure
  | _ => exact .pure

end

theorem enter_grants (r : Nat) (i : Item) : Grants (enter r i) := by
  cases i with
  | tracked id n onRelease onCopy => exact .modify
  | _ => exact .pure

theorem place_grants (r : Nat) (given k : Key) (i : Item) : Grants (place r given k i) := by
  refine (onStore_grants r _).bind fun outcome => Grants.bind ?_ fun _ => .pure
  cases outcome with
  | inserted s => exact .modify
  | updated s key previous => exact .pure

/-! ## what is granted, and what is not -/

theorem sharing_grantsAt {x : Act α} {n : Nat} (hc : containerAt? w.cells r = some c)
    (ha : c.access = .shared n) (hx : GrantsAt x (w.changed r (c.beingRead n))) :
    GrantsAt (sharing r x) w := by
  unfold GrantsAt
  rw [sharing_eq hc ha]
  exact hx.always ((delist_grants r).bind fun _ => endShared_grants r)

theorem exclusivelyOr_grantsAt {refused : Act Unit} {x : Act α} {op : Operation}
    (hc : containerAt? w.cells r = some c) (ha : c.access = .shared 0)
    (hx : GrantsAt x (w.changed r (c.beingChanged op))) :
    GrantsAt (exclusivelyOr refused r op x) w := by
  unfold GrantsAt
  rw [exclusivelyOr_eq hc ha]
  exact hx.always ((delist_grants r).bind fun _ => setAccess_grants r _)

theorem searching_grantsAt {x : Act α} {op : Operation} (hc : containerAt? w.cells r = some c)
    (hnone : c.active = none) (hx : Grants x) : GrantsAt (searching r op x) w := by
  unfold GrantsAt
  rw [searching_eq hc hnone]
  exact (hx _).always ((delist_grants r).bind fun _ => leaveGuard_grants r)

theorem beginShared_refused (hc : containerAt? w.cells r = some c) (ha : c.access = .exclusive) :
    beginShared r w = (.error .conflict, w) := by
  rw [beginShared, bind_of_ok (container_eq hc)]
  rw [ha]
  rfl

theorem beginExclusive_refused (hc : containerAt? w.cells r = some c) (ha : c.access ≠ .shared 0) :
    beginExclusive r w = (.error .conflict, w) := by
  rw [beginExclusive, bind_of_ok (container_eq hc)]
  cases haccess : c.access with
  | exclusive => rfl
  | shared n =>
    cases n with
    | zero => exact absurd haccess ha
    | succ n => rfl

theorem sharing_conflicts (hc : containerAt? w.cells r = some c) (ha : c.access = .exclusive)
    (x : Act α) : sharing r x w = (.error .conflict, w) := by
  rw [sharing, bind_apply, beginShared_refused hc ha]

/-- A reader that fails at once has changed nothing. -/
theorem sharing_fails {x : Act α} {n : Nat} {e : Failure} (hcells : Table.Distinct w.cells)
    (hc : containerAt? w.cells r = some c) (ha : c.access = .shared n)
    (hx : x (w.changed r (c.beingRead n)) = (.error e, w.changed r (c.beingRead n))) :
    sharing r x w = (.error e, w) := by
  have hback : (w.changed r (c.beingRead n)).changed r ((c.beingRead n).usedAs c) = w :=
    (changed_changed _).trans (changed_self hcells hc)
  rw [sharing_eq hc ha, always_apply, hx]
  dsimp only
  rw [endReading_eq ha (containerAt?_changed hc _) rfl, hback]
  rfl

theorem exclusivelyOr_conflicts (hc : containerAt? w.cells r = some c) (ha : c.access ≠ .shared 0)
    (refused : Act Unit) (op : Operation) (x : Act α) :
    exclusivelyOr refused r op x w = (.error .conflict, (refused w).2) := by
  rw [exclusivelyOr, bind_apply, onFailure_apply, beginExclusive_refused hc ha]
  dsimp only
  rw [Failure.leaving_of_unwinds rfl]

/-- User code that does nothing. -/
def atRest : Runner := fun _ => pure []

theorem atRest_grants (steps : List Step) : Grants (atRest steps) := .pure

/-- The operation is refused: it fails whatever user code would do, and nothing changes but that what it
was given is released. -/
def Refuses (w : World) (given : List Debris) (x : Runner → Act α) (e : Failure) : Prop :=
  ∀ run, x run w = (.error e, (discard run given w).2)

/-- What is granted is not refused. -/
theorem not_refuses {given : List Debris} {x : Runner → Act α} (hx : GrantsAt (x atRest) w)
    {e : Failure} (he : e.IsRefusal) : ¬w.Refuses given x e :=
  fun h => hx e _ (h atRest) he

theorem discard_nil (run : Runner) : discard run [] = pure () := by
  funext w
  rw [discard, get_bind_apply]
  cases w.limits.rounds <;> rfl

/-- A refusal in so many words. -/
theorem refuses_iff_of_eq {given : List Debris} {x : Runner → Act α} {e e' : Failure}
    (hx : ∀ run, x run w = (.error e, (discard run given w).2)) : w.Refuses given x e' ↔ e' = e := by
  constructor
  · intro h
    have hsame := (h atRest).symm.trans (hx atRest)
    rw [Prod.mk.injEq, Except.error.injEq] at hsame
    exact hsame.1
  · rintro rfl
    exact hx

/-! ## operations -/

section
variable (hguard : c.Disciplined) (hcells : Table.Distinct w.cells)
  (hc : containerAt? w.cells r = some c)

include hguard hcells hc in
/-- A query is refused while another one searches, or while the container is changed. -/
theorem query_refuses_iff {x : Runner → Act α} {op : Operation}
    (hrefused : ∀ run u d outer, containerAt? u.cells r = some d → d.active = some outer →
      x run u = (.error (.reentrant op outer), u))
    (hgranted : ∀ u d, containerAt? u.cells r = some d → d.active = none → GrantsAt (x atRest) u)
    {e : Failure} (he : e.IsRefusal) :
    w.Refuses [] (fun run => sharing r (x run)) e ↔
      (e = .conflict ∧ ∃ op, op.isUpdate = true ∧ .changing op ∈ c.uses) ∨
        ∃ outer, e = .reentrant op outer ∧ outer.isQuery = true ∧ .searching outer ∈ c.uses := by
  cases ha : c.access with
  | exclusive =>
    have hconflict : ∀ run, sharing r (x run) w = (.error .conflict, (discard run [] w).2) :=
      fun run => discard_nil run ▸ sharing_conflicts hc ha (x run)
    rw [refuses_iff_of_eq hconflict]
    refine ⟨fun h => .inl ⟨h, hguard.exclusive_iff.mp ha⟩, ?_⟩
    rintro (⟨h, _⟩ | ⟨outer, _, hquery, hsearching⟩)
    · exact h
    · exact absurd (hguard.update_of_exclusive ha hsearching).1 (Operation.not_isUpdate hquery)
  | shared n =>
    have hunchanged : ¬∃ op, op.isUpdate = true ∧ .changing op ∈ c.uses := by
      rw [← hguard.exclusive_iff, ha]
      exact nofun
    cases hactive : c.active with
    | some outer =>
      have hreentrant : ∀ run, sharing r (x run) w =
          (.error (.reentrant op outer), (discard run [] w).2) := fun run =>
        discard_nil run ▸ sharing_fails hcells hc ha
          (hrefused run _ _ outer (containerAt?_changed hc _) hactive)
      have hsearching := hguard.active_iff.mp hactive
      rw [refuses_iff_of_eq hreentrant]
      refine ⟨fun h => .inr ⟨outer, h, (hguard.query_of_shared ha hsearching).1, hsearching⟩, ?_⟩
      rintro (⟨_, hchanging⟩ | ⟨outer', h, _, hsearching'⟩)
      · exact absurd hchanging hunchanged
      · rw [← hguard.active_iff, hactive, Option.some.injEq] at hsearching'
        rw [h, hsearching']
    | none =>
      have hgrants : GrantsAt (sharing r (x atRest)) w :=
        sharing_grantsAt hc ha (hgranted _ _ (containerAt?_changed hc _) hactive)
      refine iff_of_false (not_refuses (x := fun run => sharing r (x run)) hgrants he) ?_
      rintro (⟨_, hchanging⟩ | ⟨outer, _, _, hsearching⟩)
      · exact hunchanged hchanging
      · rw [← hguard.active_iff, hactive] at hsearching
        cases hsearching

include hguard hcells hc in
theorem has_refuses_iff (q : Query) {e : Failure} (he : e.IsRefusal) :
    w.Refuses [] (fun run => has run r q) e ↔
      (e = .conflict ∧ ∃ op, op.isUpdate = true ∧ .changing op ∈ c.uses) ∨
        ∃ outer, e = .reentrant .containsKey outer ∧ outer.isQuery = true ∧ .searching outer ∈ c.uses := by
  refine query_refuses_iff hguard hcells hc (fun run u d outer hd ho => searching_refused hd ho)
    (fun u d hd hnone => ?_) he
  exact searching_grantsAt hd hnone ((ask_grants atRest_grants q).bind fun _ => readStore_grants r _)

include hguard hcells hc in
theorem lookup_refuses_iff (q : Query) {e : Failure} (he : e.IsRefusal) :
    w.Refuses [] (fun run => lookup run r q) e ↔
      (e = .conflict ∧ ∃ op, op.isUpdate = true ∧ .changing op ∈ c.uses) ∨
        ∃ outer, e = .reentrant .lookup outer ∧ outer.isQuery = true ∧ .searching outer ∈ c.uses := by
  refine query_refuses_iff hguard hcells hc (fun run u d outer hd ho => ?_) (fun u d hd hnone => ?_) he
  · rw [bind_apply, searching_refused hd ho]
  · refine GrantsAt.bind (searching_grantsAt hd hnone
      ((ask_grants atRest_grants q).bind fun _ => readStore_grants r _)) fun found => ?_
    cases found with
    | none => exact .pure
    | some e => exact (copyItem_grants atRest_grants e.2).bind fun _ => .pure

include hguard hc in
/-- An update is refused while anything goes on in the container. -/
theorem update_refuses_iff {β : Type} {given : List Debris} {op : Operation} {x : Runner → Act β}
    {f : Runner → β → Act α} (hx : ∀ d, d.active = none → GrantsAt (x atRest) (w.changed r d))
    (hf : ∀ b, Grants (f atRest b)) {e : Failure} (he : e.IsRefusal) :
    w.Refuses given
        (fun run => exclusivelyOr (discard run given) r op (x run) >>= f run) e ↔
      e = .conflict ∧ c.uses ≠ [] := by
  by_cases ha : c.access = .shared 0
  · obtain ⟨hnone, hempty⟩ := hguard.idle ha
    have hgrants : GrantsAt (exclusivelyOr (discard atRest given) r op (x atRest) >>= f atRest) w :=
      (exclusivelyOr_grantsAt hc ha (hx _ hnone)).bind hf
    refine iff_of_false (not_refuses (x := fun run =>
      exclusivelyOr (discard run given) r op (x run) >>= f run) hgrants he) ?_
    exact fun h => h.2 hempty
  · have hconflict : ∀ run, (exclusivelyOr (discard run given) r op (x run) >>= f run) w =
        (.error .conflict, (discard run given w).2) := by
      intro run
      rw [bind_apply, exclusivelyOr_conflicts hc ha]
    rw [refuses_iff_of_eq hconflict]
    exact ⟨fun h => ⟨h, fun hempty => ha (hguard.idle_iff.mpr hempty)⟩, fun h => h.1⟩

include hguard hc in
theorem upsert_refuses_iff (q : Query) (item : Item) {f : Runner → Upsert Item → Act α}
    (hf : ∀ outcome, Grants (f atRest outcome)) {e : Failure} (he : e.IsRefusal) :
    w.Refuses [.item item, .key q.key] (fun run => upsert run r q item >>= f run) e ↔
      e = .conflict ∧ c.uses ≠ [] := by
  refine update_refuses_iff (f := f) hguard hc (fun d hnone => ?_) hf he
  have hin := containerAt?_changed hc d
  refine GrantsAt.onFailure (.of_ok (container_eq hin) (searching_grantsAt hin hnone ?_))
    (discard_grants atRest_grants _)
  exact (ask_grants atRest_grants _).bind fun _ => (enter_grants r item).bind fun _ => place_grants r _ _ _

include hguard hc in
/-- What is changed without anything being given is refused likewise. -/
theorem exclusively_refuses_iff {β : Type} {op : Operation} {x : Runner → Act β} {f : Runner → β → Act α}
    (hx : Grants (x atRest)) (hf : ∀ b, Grants (f atRest b)) {e : Failure} (he : e.IsRefusal) :
    w.Refuses [] (fun run => exclusively r op (searching r op (x run)) >>= f run) e ↔
      e = .conflict ∧ c.uses ≠ [] := by
  have h : w.Refuses []
      (fun run => exclusivelyOr (discard run []) r op (searching r op (x run)) >>= f run) e ↔ _ :=
    update_refuses_iff hguard hc
      (fun d hnone => searching_grantsAt (containerAt?_changed hc d) hnone hx) hf he
  simp only [discard_nil] at h
  exact h

end

/-! ## all of them -/

/-- What is refused of a container, by what goes on in it: a query while the container is changed, or
while another query searches, and anything else while the container is in use at all.  Only a query is
refused as reentrant, and only by a query. -/
structure Refusals (w : World) (r : Nat) (uses : List Use) : Prop where
  has : ∀ q e, e.IsRefusal → (w.Refuses [] (fun run => has run r q) e ↔
    (e = .conflict ∧ ∃ op, op.isUpdate = true ∧ .changing op ∈ uses) ∨
      ∃ outer, e = .reentrant .containsKey outer ∧ outer.isQuery = true ∧ .searching outer ∈ uses)
  lookup : ∀ q e, e.IsRefusal → (w.Refuses [] (fun run => lookup run r q) e ↔
    (e = .conflict ∧ ∃ op, op.isUpdate = true ∧ .changing op ∈ uses) ∨
      ∃ outer, e = .reentrant .lookup outer ∧ outer.isQuery = true ∧ .searching outer ∈ uses)
  put : ∀ q item e, e.IsRefusal →
    (w.Refuses [.item item, .key q.key] (fun run => putEach run r [(q, item)]) e ↔
      e = .conflict ∧ uses ≠ [])
  insert : ∀ kind q item e, e.IsRefusal →
    (w.Refuses [.item item, .key q.key] (fun run => insert run r kind q item) e ↔
      e = .conflict ∧ uses ≠ [])
  delete : ∀ q e, e.IsRefusal →
    (w.Refuses [] (fun run => delete run r q) e ↔ e = .conflict ∧ uses ≠ [])
  clear : ∀ e, e.IsRefusal → (w.Refuses [] (fun run => clear run r) e ↔ e = .conflict ∧ uses ≠ [])
  move : ∀ id last e, e.IsRefusal →
    (w.Refuses [] (fun _ => move id r last) e ↔ e = .conflict ∧ uses ≠ [])
  /-- a cursor that is closed cannot give up its pin -/
  close : isIdle r w = (.ok (decide (uses = [])), w)

theorem onFailure_pure (x : Act α) : onFailure x (pure ()) = x := by
  funext w
  rw [onFailure_apply]
  rcases x w with ⟨e | a, v⟩ <;> rfl

theorem putEach_single (run : Runner) (r : Nat) (q : Query) (item : Item) :
    putEach run r [(q, item)] = upsert run r q item >>= fun outcome =>
      match outcome with
      | .inserted _ => pure ()
      | .updated _ key previous => discard run [.key key, .item previous] := by
  rw [putEach, List.flatMap_nil, discard_nil, onFailure_pure]
  exact bind_pure_unit

theorem refusals (hguard : c.Disciplined) (hcells : Table.Distinct w.cells)
    (hc : containerAt? w.cells r = some c) : w.Refusals r c.uses where
  has q _ he := has_refuses_iff hguard hcells hc q he
  lookup q _ he := lookup_refuses_iff hguard hcells hc q he
  put q item _ he := by
    simp only [putEach_single]
    refine upsert_refuses_iff hguard hc q item (fun outcome => ?_) he
    cases outcome with
    | inserted s => exact .pure
    | updated s key previous => exact discard_grants atRest_grants _
  insert kind q item _ he := by
    refine upsert_refuses_iff hguard hc q item (fun outcome => ?_) he
    cases outcome with
    | inserted s => exact .pure
    | updated s key previous =>
      dsimp only
      split
      · exact (discard_grants atRest_grants _).bind fun _ => .pure
      · exact ((discard_grants atRest_grants _).onFailure (discard_grants atRest_grants _)).bind fun _ =>
          .get_bind fun _ => (discard_grants atRest_grants _).bind fun _ => .pure
  delete q _ he := by
    refine exclusively_refuses_iff hguard hc
      ((ask_grants atRest_grants q).bind fun _ => onStore_grants r _) (fun freed => ?_) he
    cases freed with
    | none => exact .pure
    | some freed =>
      exact (tell_grants _).bind fun _ => (discard_grants atRest_grants _).bind fun _ => .pure
  clear _ he := exclusively_refuses_iff (x := fun _ => onStore r (·.clear)) hguard hc
    (onStore_grants r _) (fun _ => (tell_grants _).bind fun _ => discard_grants atRest_grants _) he
  move id last e he := by
    have h : w.Refuses [] (fun _ => move id r last >>= fun y => pure y) e ↔ _ :=
      exclusively_refuses_iff (f := fun _ => pure) (x := fun _ => shift id r last) hguard hc
        (Grants.bind .modify fun _ => onStore_grants r _) (fun _ => .pure) he
    simp only [bind_pure] at h
    exact h
  close := by rw [isIdle_eq hc, decide_eq_decide.mpr hguard.idle_iff]

end World

/-- Whenever user code runs, at any depth of a program, the guard of every container is set if and only if
one operation searches in it, which asks a key for its token.  A container with a set guard is in use: a
query reads it, an update changes it.  Hence what is refused there: a query while an update goes on, or,
as reentrant, inside the search of another query; everything else while anything goes on. -/
theorem discipline {limits : Limits} {tracing snapshots : Bool} {ops : List Op} {m : Moment} {r : Nat}
    {c : Container} (hm : m ∈ (Program.runFrom snapshots (.initial limits tracing) ops).2.moments)
    (hc : containerAt? m.objects r = some c) :
    (c.active.isSome = true ↔
      ∃ op, (op.isQuery = true ∨ op.isUpdate = true) ∧ c.searches = [op]) ∧
    (∀ op, c.active = some op → c.searches = [op] ∧
      ((op.isQuery = true ∧ ∃ n, c.access = .shared (n + 1)) ∨
        (op.isUpdate = true ∧ c.access = .exclusive))) ∧
    ∀ (w : World) (d : Container), Table.Distinct w.cells → containerAt? w.cells r = some d →
      d.form = c.form → w.Refusals r c.uses := by
  have hlast := (Program.runFrom_spec (World.resting_initial limits tracing) snapshots ops).2.1
  have hguard : c.Disciplined := (hlast.moments m hm).guarded hc
  have hset : ∀ op, c.active = some op → c.searches = [op] ∧
      ((op.isQuery = true ∧ ∃ n, c.access = .shared (n + 1)) ∨
        (op.isUpdate = true ∧ c.access = .exclusive)) := by
    intro op hop
    have hsearching := hguard.active_iff.mp hop
    refine ⟨hguard.searches_of_active hop, ?_⟩
    cases ha : c.access with
    | exclusive => exact .inr ⟨(hguard.update_of_exclusive ha hsearching).1, rfl⟩
    | shared n =>
      obtain ⟨hquery, hpos⟩ := hguard.query_of_shared ha hsearching
      exact .inl ⟨hquery, n - 1, by rw [Nat.sub_add_cancel hpos]⟩
  refine ⟨⟨fun h => ?_, ?_⟩, hset, fun w d hw hd hform => ?_⟩
  · obtain ⟨op, hop⟩ := Option.isSome_iff_exists.mp h
    obtain ⟨hsearches, hsort⟩ := hset op hop
    exact ⟨op, hsort.imp (·.1) (·.1), hsearches⟩
  · rintro ⟨op, _, hsearches⟩
    rw [hguard.guard, hsearches]
    rfl
  · obtain ⟨_, haccess, hactive, huses⟩ := Form.container.inj hform
    rw [← huses]
    exact World.refusals (hguard.of_form hform) hw hd

/-- A key is asked for by a key that is itself asked for its token. -/
def asking : List Op :=
  let key := Term.text .slice
  [.container .map "m" [(key "a", .tracked 1 none none)],
    .has (.named "m") (.reacting (key "a") [.mk (.get (.named "m") (key "a")) false])]

/-- The inner query is refused as reentrant. -/
theorem discipline_asking :
    ∃ m ∈ (Program.runFrom false (.initial ⟨100, 4, 20⟩ false) asking).2.moments,
      ∃ (c : Container) (w : World), containerAt? m.objects 0 = some c ∧
      c.active = some .containsKey ∧ c.searches = [.containsKey] ∧ Table.Distinct w.cells ∧
      containerAt? w.cells 0 = some c ∧
      w.Refuses [] (fun run => World.lookup run 0 (.plain (.text .slice "a")))
        (.reentrant .lookup .containsKey) := by
  have hrun : ∃ m ∈ (Program.runFrom false (.initial ⟨100, 4, 20⟩ false) asking).2.moments,
      (m.objects.map (·.1)).Nodup ∧
        (containerAt? m.objects 0).map Container.active = some (some .containsKey) := by
    decide +kernel
  obtain ⟨m, hm, hdistinct, hactive⟩ := hrun
  obtain ⟨c, hc, hc'⟩ := Option.map_eq_some_iff.mp hactive
  obtain ⟨_, hset, hrefusals⟩ := discipline hm hc
  obtain ⟨hsearches, _⟩ := hset _ hc'
  refine ⟨m, hm, c, { World.initial .standard false with cells := m.objects }, hc, hc', hsearches,
    hdistinct, hc, ?_⟩
  refine ((hrefusals { World.initial .standard false with cells := m.objects } c hdistinct hc rfl).lookup
    _ (.reentrant .lookup .containsKey) trivial).mpr (.inr ⟨.containsKey, rfl, rfl, ?_⟩)
  exact Container.Disciplined.mem_searches.mpr (hsearches ▸ List.mem_singleton_self _)

end LiveOrder
