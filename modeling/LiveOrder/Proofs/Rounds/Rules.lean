import LiveOrder.Proofs.Rounds.Basic
import LiveOrder.Proofs.World.Lifetime

/-!
# Actions that end by themselves

With enough rounds the loops of an action come to an end before the limit, and then it does not matter how
many rounds there are.

* `Act.Reaches`      what an action comes to with enough rounds;
* `Spends`           how much of a run is used up: a part of the operations that are left, or nothing;
* `Act.Ends`         an action comes to something with enough rounds;
* `Ends.bind`, `.always`, `.onFailure`, …   one rule for each way to put actions together;
* `Act.ReachesWithin`, `Act.EndsWithin`     the same for a loop, of which the rounds are counted down;
* `Runner.Ends`      what is asked of the programs inside an operation;
* `log_ends`, `cell_ends`, `retain_ends`, `sharing_ends`, `named_ends`, …   logs, objects, handles, access
                     and names.

A program that has run no operation has changed nothing.  So in every round of a loop operations are used
up, of which there are only so many, or it can be told what has become of the world.
-/

namespace LiveOrder

/-! ## actions -/

/-- With operations left for it, something has been run, or nothing but this has happened. -/
structure Spends (R : World → World → Prop) (w v : World) : Prop where
  spent : w.spent ≤ v.spent
  bounded : v.spent ≤ max w.spent w.limits.ops
  limits : v.limits = w.limits
  freshWalk : w.freshWalk ≤ v.freshWalk
  idle : v.spent = w.spent → R w v

section
variable {R R' : World → World → Prop} {w v z : World}

theorem Spends.of_slight [Lax R] (h : Slight w v) : Spends R w v where
  spent := Nat.le_of_eq h.spent.symm
  bounded := Nat.le_trans (Nat.le_of_eq h.spent) (Nat.le_max_left _ _)
  limits := h.limits
  freshWalk := Nat.le_of_eq h.freshWalk.symm
  idle _ := Lax.of_unmoved h.toUnmoved

theorem Spends.refl [Lax R] (w : World) : Spends R w w := .of_slight (.refl w)

theorem Spends.trans [IsTrans World R] (h : Spends R w v) (h' : Spends R v z) : Spends R w z where
  spent := Nat.le_trans h.spent h'.spent
  bounded := by
    have hb := h.bounded
    have hb' := h'.bounded
    rw [h.limits] at hb'
    omega
  limits := h'.limits.trans h.limits
  freshWalk := Nat.le_trans h.freshWalk h'.freshWalk
  idle hz := by
    have hs := h.spent
    have hs' := h'.spent
    exact IsTrans.trans _ _ _ (h.idle (by omega)) (h'.idle (by omega))

theorem Spends.mono (h : Spends R w v) (hR : R w v → R' w v) : Spends R' w v :=
  { h with idle := fun hspent => hR (h.idle hspent) }

theorem Spends.anyhow (h : Spends R w v) : Spends Anyhow w v := h.mono fun _ => trivial

/-- Nothing is run. -/
theorem Spends.unspent (hspent : v.spent = w.spent) (hlimits : v.limits = w.limits)
    (hwalk : w.freshWalk ≤ v.freshWalk) : Spends Anyhow w v where
  spent := Nat.le_of_eq hspent.symm
  bounded := Nat.le_trans (Nat.le_of_eq hspent) (Nat.le_max_left _ _)
  limits := hlimits
  freshWalk := hwalk
  idle _ := trivial

/-- Where something has been run, less is left to be run. -/
theorem Spends.left_lt (h : Spends R w v) (hne : v.spent ≠ w.spent) :
    v.limits.ops - v.spent < w.limits.ops - w.spent := by
  have hs := h.spent
  have hb := h.bounded
  rw [h.limits]
  omega

end

namespace Act

variable {α β : Type} {R R' : World → World → Prop} {w v z : World} {pins : List (Nat × Nat)}
  {x : Act α} {f : α → Act β} {p : α → Prop} {q : β → Prop} {a : α} {e : Failure} {o : Except Failure β}

/-- With enough rounds the action comes to this, however many there are. -/
def Reaches (x : Act α) (w : World) (o : Except Failure α) (v : World) : Prop :=
  ∃ m, ∀ n, m ≤ n → x (w.upTo n) = (o, v.upTo n)

namespace Reaches

theorem of_eq {o : Except Failure α} (h : ∀ n, x (w.upTo n) = (o, v.upTo n)) : Reaches x w o v :=
  ⟨0, fun n _ => h n⟩

theorem bind (hx : Reaches x w (.ok a) v) (hf : Reaches (f a) v o z) : Reaches (x >>= f) w o z := by
  obtain ⟨m, hx⟩ := hx
  obtain ⟨k, hf⟩ := hf
  refine ⟨max m k, fun n hn => ?_⟩
  rw [bind_of_ok (hx n (Nat.le_trans (Nat.le_max_left m k) hn))]
  exact hf n (Nat.le_trans (Nat.le_max_right m k) hn)

theorem bind_error (hx : Reaches x w (.error e) v) : Reaches (x >>= f) w (.error e) v := by
  obtain ⟨m, hx⟩ := hx
  refine ⟨m, fun n hn => ?_⟩
  rw [bind_apply, hx n hn]

theorem attempt {o : Except Failure α} (hx : Reaches x w o v) : Reaches (attempt x) w (.ok o) v := by
  obtain ⟨m, hx⟩ := hx
  refine ⟨m, fun n hn => ?_⟩
  rw [attempt_apply, hx n hn]

end Reaches

/-- With enough rounds, and as many of its own, a loop comes to this. -/
def ReachesWithin (x : Nat → Act α) (w : World) (o : Except Failure α) (v : World) : Prop :=
  ∃ m, ∀ n k, m ≤ n → m ≤ k → x k (w.upTo n) = (o, v.upTo n)

theorem Reaches.within {o : Except Failure α} (h : Reaches x w o v) : ReachesWithin (fun _ => x) w o v := by
  obtain ⟨m, h⟩ := h
  exact ⟨m, fun n _ hn _ => h n hn⟩

namespace ReachesWithin

variable {x : Nat → Act α} {f : Nat → α → Act β}

/-- The first round. -/
theorem succ {o : Except Failure α} (h : ReachesWithin (fun k => x (k + 1)) w o v) :
    ReachesWithin x w o v := by
  obtain ⟨m, h⟩ := h
  refine ⟨m + 1, fun n k hn hk => ?_⟩
  obtain ⟨j, rfl⟩ : ∃ j, k = j + 1 := ⟨k - 1, by omega⟩
  exact h n j (by omega) (by omega)

theorem bind (hx : ReachesWithin x w (.ok a) v) (hf : ReachesWithin (f · a) v o z) :
    ReachesWithin (fun k => x k >>= f k) w o z := by
  obtain ⟨m, hx⟩ := hx
  obtain ⟨l, hf⟩ := hf
  refine ⟨max m l, fun n k hn hk => ?_⟩
  dsimp only
  rw [bind_of_ok (hx n k (by omega) (by omega))]
  exact hf n k (by omega) (by omega)

theorem bind_error (hx : ReachesWithin x w (.error e) v) :
    ReachesWithin (fun k => x k >>= f k) w (.error e) v := by
  obtain ⟨m, hx⟩ := hx
  refine ⟨m, fun n k hn hk => ?_⟩
  dsimp only
  rw [bind_apply, hx n k hn hk]

theorem onFailure {cleanup : Nat → Act Unit} (hx : ReachesWithin x w (.ok a) v) :
    ReachesWithin (fun k => onFailure (x k) (cleanup k)) w (.ok a) v := by
  obtain ⟨m, hx⟩ := hx
  exact ⟨m, fun n k hn hk => onFailure_eq_ok.mpr (hx n k hn hk)⟩

theorem onFailure_error {cleanup : Nat → Act Unit} {o : Except Failure Unit}
    (hx : ReachesWithin x w (.error e) v) (hc : ReachesWithin cleanup v o z) :
    ReachesWithin (fun k => Act.onFailure (x k) (cleanup k)) w (.error (e.leaving o)) z := by
  obtain ⟨m, hx⟩ := hx
  obtain ⟨l, hc⟩ := hc
  refine ⟨max m l, fun n k hn hk => ?_⟩
  dsimp only
  rw [onFailure_apply, hx n k (by omega) (by omega)]
  dsimp only
  rw [hc n k (by omega) (by omega)]

end ReachesWithin

/-- A result with a property, or a failure, but not at a limit on the rounds of a loop. -/
def Wholly (p : α → Prop) : Except Failure α → Prop
  | .ok a => p a
  | .error e => ¬e.GivenUp

/-- With enough rounds the action comes to something here.  If it has run no operation, the world has
changed as stated. -/
def EndsFrom (w : World) (pins : List (Nat × Nat)) (R : World → World → Prop) (x : Act α)
    (p : α → Prop) : Prop :=
  ∃ o v, Reaches x w o v ∧ Spends R w v ∧ v.Footed pins ∧ Wholly p o

/-- So does a loop, of which the rounds are counted down. -/
def EndsWithin (w : World) (pins : List (Nat × Nat)) (R : World → World → Prop) (x : Nat → Act α)
    (p : α → Prop) : Prop :=
  ∃ o v, ReachesWithin x w o v ∧ Spends R w v ∧ v.Footed pins ∧ Wholly p o

/-- The action comes to something wherever every cursor has the pin of its place. -/
def Ends (R : World → World → Prop) (x : Act α) (p : α → Prop) : Prop :=
  ∀ pins w, w.Footed pins → EndsFrom w pins R x p

/-! ## rules -/

namespace Ends

theorem mono (h : Ends R x p) (hR : ∀ {w v}, R w v → R' w v) : Ends R' x p := by
  intro pins w hw
  obtain ⟨o, v, hx, hspends, hv⟩ := h pins w hw
  exact ⟨o, v, hx, hspends.mono hR, hv⟩

/-- The world as it is, of which the limit does not matter. -/
theorem get_bind {f : World → Act β} (hlimit : ∀ w n, f (w.upTo n) = f w)
    (hf : ∀ w, (∀ log ∈ w.frames, ∀ e ∈ log, e.Whole) → Ends R (f w) q) :
    Ends R (MonadState.get >>= f) q := by
  intro pins w hw
  obtain ⟨o, v, ⟨m, hfv⟩, hv⟩ := hf w hw.frames pins w hw
  refine ⟨o, v, ⟨m, fun n hn => ?_⟩, hv⟩
  rw [show (MonadState.get >>= f) (w.upTo n) = f (w.upTo n) (w.upTo n) from rfl, hlimit]
  exact hfv n hn

/-- An action that does not look at the limit. -/
theorem of_slight [Lax R]
    (h : ∀ w, ∃ o v, (∀ n, x (w.upTo n) = (o, v.upTo n)) ∧ Slight w v ∧ Wholly p o) : Ends R x p := by
  intro pins w hw
  obtain ⟨o, v, hx, hslight, ho⟩ := h w
  exact ⟨o, v, .of_eq hx, .of_slight hslight, hw.slight hslight, ho⟩

theorem pure [Lax R] (h : p a) : Ends R (pure a) p :=
  of_slight fun w => ⟨.ok a, w, fun _ => rfl, .refl w, h⟩

theorem throw [Lax R] (he : ¬e.GivenUp) : Ends R (throw e : Act α) p :=
  of_slight fun w => ⟨.error e, w, fun _ => rfl, .refl w, he⟩

theorem modify [Lax R] {g : World → World} (hg : ∀ w n, g (w.upTo n) = (g w).upTo n)
    (h : ∀ w, Slight w (g w)) : Ends R (modify g : Act Unit) Anything :=
  of_slight fun w => ⟨.ok (), g w, fun n => (modify_apply g _).trans (by rw [hg]), h w, trivial⟩

theorem leaving [Lax R] {o : Except Failure Unit} (he : ¬e.GivenUp) (ho : Wholly Anything o) :
    Ends R (MonadExcept.throw (e.leaving o) : Act α) p := by
  refine throw (Failure.not_leaving (P := Failure.GivenUp) he fun g hg => ?_)
  rw [hg] at ho
  exact ho

end Ends

namespace EndsFrom

/-- What comes after an action that has come to a result. -/
theorem after [IsTrans World R] {pins' : List (Nat × Nat)} (hx : Reaches x w (.ok a) v)
    (hspends : Spends R w v) (hf : EndsFrom v pins' R (f a) q) : EndsFrom w pins' R (x >>= f) q := by
  obtain ⟨o, z, hfz, hspends', hz⟩ := hf
  exact ⟨o, z, hx.bind hfz, hspends.trans hspends', hz⟩

theorem bind [IsTrans World R] (hx : EndsFrom w pins R x p) (hf : ∀ a, p a → Ends R (f a) q) :
    EndsFrom w pins R (x >>= f) q := by
  obtain ⟨o, v, hxv, hspends, hv, ho⟩ := hx
  cases o with
  | ok a => exact .after hxv hspends (hf a ho pins v hv)
  | error e => exact ⟨.error e, v, hxv.bind_error, hspends, hv, ho⟩

theorem attempt (hx : EndsFrom w pins R x p) : EndsFrom w pins R (attempt x) (Wholly p) := by
  obtain ⟨o, v, hxv, hspends, hv, ho⟩ := hx
  exact ⟨.ok o, v, hxv.attempt, hspends, hv, ho⟩

theorem onFailure [Lax R] {cleanup : Act Unit} (hx : EndsFrom w pins R x p)
    (hc : Ends R cleanup Anything) : EndsFrom w pins R (onFailure x cleanup) p := by
  refine hx.attempt.bind fun o ho => ?_
  cases o with
  | ok a => exact .pure ho
  | error e => exact fun pins w hw => (hc pins w hw).attempt.bind fun o' ho' => .leaving ho ho'

theorem always [Lax R] {ending : Act Unit} (hx : EndsFrom w pins R x p)
    (hend : Ends R ending Anything) : EndsFrom w pins R (always x ending) p := by
  refine hx.attempt.bind fun o ho => ?_
  cases o with
  | ok a => exact fun pins w hw => (hend pins w hw).bind fun _ _ => .pure ho
  | error e => exact fun pins w hw => (hend pins w hw).attempt.bind fun o' ho' => .leaving ho ho'

end EndsFrom

theorem EndsFrom.within (h : EndsFrom w pins R x p) : EndsWithin w pins R (fun _ => x) p := by
  obtain ⟨o, v, hx, hv⟩ := h
  exact ⟨o, v, hx.within, hv⟩

namespace EndsWithin

variable {x : Nat → Act α}

theorem succ (h : EndsWithin w pins R (fun k => x (k + 1)) p) : EndsWithin w pins R x p := by
  obtain ⟨o, v, hx, hv⟩ := h
  exact ⟨o, v, hx.succ, hv⟩

/-- A loop that has as many rounds as there may be. -/
theorem endsFrom (h : EndsWithin w pins R x p) : EndsFrom w pins R (fun u => x u.limits.rounds u) p := by
  obtain ⟨o, v, ⟨m, hx⟩, hv⟩ := h
  exact ⟨o, v, ⟨m, fun n hn => hx n n hn hn⟩, hv⟩

theorem after [IsTrans World R] {f : Nat → α → Act β} (hx : ReachesWithin x w (.ok a) v)
    (hspends : Spends R w v) (hf : EndsWithin v pins R (f · a) q) :
    EndsWithin w pins R (fun k => x k >>= f k) q := by
  obtain ⟨o, z, hfz, hspends', hz⟩ := hf
  exact ⟨o, z, hx.bind hfz, hspends.trans hspends', hz⟩

theorem bind [IsTrans World R] (hx : EndsWithin w pins R x p) (hf : ∀ a, p a → Ends R (f a) q) :
    EndsWithin w pins R (fun k => x k >>= f) q := by
  obtain ⟨o, v, hxv, hspends, hv, ho⟩ := hx
  cases o with
  | ok a => exact .after hxv hspends (hf a ho pins v hv).within
  | error e => exact ⟨.error e, v, hxv.bind_error, hspends, hv, ho⟩

end EndsWithin

namespace Ends

theorem bind [IsTrans World R] (hx : Ends R x p) (hf : ∀ a, p a → Ends R (f a) q) :
    Ends R (x >>= f) q := fun pins w hw => (hx pins w hw).bind hf

theorem attempt (hx : Ends R x p) : Ends R (attempt x) (Wholly p) := fun pins w hw =>
  (hx pins w hw).attempt

variable [Lax R]

theorem onFailure {cleanup : Act Unit} (hx : Ends R x p) (hc : Ends R cleanup Anything) :
    Ends R (onFailure x cleanup) p := fun pins w hw => (hx pins w hw).onFailure hc

theorem always {ending : Act Unit} (hx : Ends R x p) (hend : Ends R ending Anything) :
    Ends R (always x ending) p := fun pins w hw => (hx pins w hw).always hend

theorem forM {l : List α} {f : α → Act Unit} (hf : ∀ a ∈ l, Ends R (f a) Anything) :
    Ends R (l.forM f) Anything := by
  induction l with
  | nil => exact .pure trivial
  | cons a rest ih =>
    exact (hf a List.mem_cons_self).bind fun _ _ => ih fun b hb => hf b (List.mem_cons_of_mem a hb)

theorem mapM {l : List α} (hf : ∀ a ∈ l, Ends R (f a) Anything) : Ends R (l.mapM f) Anything := by
  induction l with
  | nil => exact .pure trivial
  | cons a rest ih =>
    rw [List.mapM_cons]
    refine (hf a List.mem_cons_self).bind fun b _ => ?_
    exact (ih fun c hc => hf c (List.mem_cons_of_mem a hc)).bind fun _ _ => .pure trivial

end Ends

end Act

/-- Programs end by themselves, and have run an operation or changed nothing. -/
def Runner.Ends (run : Runner) : Prop :=
  ∀ steps, Act.Ends Eq (run steps) fun l => ∀ a ∈ l, a.Whole

theorem Runner.Ends.run {run : Runner} (h : run.Ends) {R : World → World → Prop} [Lax R]
    (steps : List Step) : Act.Ends R (run steps) fun l => ∀ a ∈ l, a.Whole :=
  (h steps).mono fun he => he ▸ Lax.of_unmoved (.refl _)

namespace World

open Act Table

variable {α : Type} {R : World → World → Prop} [Lax R] {w : World} {x : Act α} {p : α → Prop} {r : Nat}

/-! ## logs -/

theorem setFrames_ends {f : List (List Event) → List (List Event)}
    (hf : ∀ frames, (∀ log ∈ frames, ∀ e ∈ log, e.Whole) → ∀ log ∈ f frames, ∀ e ∈ log, e.Whole) :
    Ends R (modify fun w : World => { w with frames := f w.frames }) Anything :=
  .modify (fun _ _ => rfl) fun w => .of_frames (hf w.frames)

theorem log_ends {e : Event} (he : e.Whole) : Ends R (log e) Anything := by
  refine .modify (fun w n => ?_) fun w => ?_
  · cases hf : w.frames with
    | nil => simp only [upTo, hf]
    | cons f rest => simp only [upTo, hf]
  · cases hf : w.frames with
    | nil => exact .refl w
    | cons f rest =>
      refine .of_frames fun hlogs l hl d hd => ?_
      have hold : ∀ l ∈ f :: rest, ∀ d ∈ l, d.Whole := hf ▸ hlogs
      rcases List.mem_cons.mp hl with rfl | hl
      · rcases List.mem_cons.mp hd with rfl | hd
        · exact he
        · exact hold f List.mem_cons_self d hd
      · exact hold l (List.mem_cons_of_mem _ hl) d hd

theorem tell_ends (notices : List Notice) : Ends R (tell notices) Anything := by
  refine .get_bind (fun _ _ => rfl) fun w _ => ?_
  split
  · exact .forM fun _ _ => log_ends (.notice trivial)
  · exact .pure trivial

/-- The outcome of an action with its log. -/
theorem logged_ends (hx : Ends R x p) :
    Ends R (logged x) fun y => Wholly p y.1 ∧ ∀ e ∈ y.2, e.Whole := by
  refine Ends.bind (setFrames_ends fun frames hf log hlog e he => ?_) fun _ _ =>
    hx.attempt.bind fun outcome ho => .get_bind (fun _ _ => rfl) fun w hlogs => ?_
  · rcases List.mem_cons.mp hlog with rfl | hlog
    · cases he
    · exact hf log hlog e he
  refine Ends.bind (setFrames_ends fun frames hf log hl => hf log (List.mem_of_mem_tail hl)) fun _ _ =>
    .pure ⟨ho, fun e he => ?_⟩
  rw [List.mem_reverse] at he
  cases hframes : w.frames with
  | nil =>
    rw [hframes] at he
    cases he
  | cons f rest =>
    rw [hframes] at he hlogs
    exact hlogs f List.mem_cons_self e he

/-! ## objects -/

theorem fail_ends {e : Failure} (he : ¬e.GivenUp) : Ends R (Act.fail e : Act α) p :=
  Ends.bind (.modify (fun _ _ => rfl) fun _ => .of_same rfl) fun _ _ => .throw he

theorem ofStore_ends {x : Except Fault α} (h : ∀ a, x = .ok a → p a) : Ends R (Act.ofStore x) p := by
  cases x with
  | ok a => exact .pure (h a rfl)
  | error f => exact fail_ends id

theorem cell_ends (r : Nat) : Ends R (cell r) Anything := by
  refine .get_bind (fun _ _ => rfl) fun w _ => ?_
  split
  · exact .pure trivial
  · exact fail_ends id

theorem container_ends (r : Nat) : Ends R (container r) Anything := by
  refine (cell_ends r).bind fun d _ => ?_
  split
  · exact .pure trivial
  · exact .throw id

theorem slight_setHandles (w : World) (r n : Nat) :
    Slight w { w with cells := change r (fun d => { d with handles := n }) w.cells } :=
  .of_change fun {q c} hc => ⟨c, containerAt?_setHandles r q n w.cells ▸ hc, rfl⟩

theorem retain_ends (r : Nat) : Ends R (retain r) Anything :=
  (cell_ends r).bind fun _ _ => .modify (fun _ _ => rfl) fun w => slight_setHandles w r _

theorem retainAll_ends (refs : List Nat) : Ends R (retainAll refs) Anything :=
  .forM fun r _ => retain_ends r

theorem copyKey_ends (k : Key) : Ends R (copyKey k) Anything :=
  (retainAll_ends _).bind fun _ _ => .pure trivial

theorem copyValue_ends (v : Value) : Ends R (copyValue v) Anything :=
  (retainAll_ends _).bind fun _ _ => .pure trivial

theorem container_absent (hc : containerAt? w.cells r = none) :
    ∃ e v, (∀ n, container r (w.upTo n) = (.error e, v.upTo n)) ∧ Slight w v ∧ ¬e.GivenUp := by
  cases hd : get? r w.cells with
  | none =>
    refine ⟨.dangling r, { w with faults := .dangling r :: w.faults }, fun n => ?_, .of_same rfl, id⟩
    rw [container, bind_apply, cell_eq_none (w := w.upTo n) hd]
    rfl
  | some d =>
    refine ⟨.misuse .operation, w, fun n => ?_, .refl w, id⟩
    rw [container, bind_apply, cell_eq (w := w.upTo n) hd]
    obtain ⟨m, body⟩ := d
    cases body with
    | container c =>
      rw [containerAt?_eq_some_iff.mpr ⟨m, hd⟩] at hc
      cases hc
    | function f => rfl
    | allocation s => rfl

theorem slight_changed {c d : Container} (hc : containerAt? w.cells r = some c)
    (hstore : d.store = c.store) : Slight w (w.changed r d) :=
  .of_change fun {q e} he => by
    rcases containerAt?_setContainer hc he with ⟨rfl, rfl⟩ | ⟨_, he⟩
    · exact ⟨c, hc, hstore.symm⟩
    · exact ⟨e, he, rfl⟩

/-- Something about a container is changed, but not its store. -/
theorem use_ends (r : Nat) {g : Container → Container} (hg : ∀ c, (g c).store = c.store) :
    Ends R (container r >>= fun c => setContainer r (g c)) Anything := by
  refine .of_slight fun w => ?_
  cases hc : containerAt? w.cells r with
  | none =>
    obtain ⟨e, v, he, hslight, hne⟩ := container_absent hc
    exact ⟨.error e, v, fun n => by rw [bind_apply, he n], hslight, hne⟩
  | some c =>
    refine ⟨.ok (), w.changed r (g c), fun n => ?_, slight_changed hc (hg c), trivial⟩
    rw [bind_of_ok (container_eq (w := w.upTo n) hc)]
    rfl

/-! ## access -/

theorem setAccess_ends (r : Nat) (a : Access) : Ends R (setAccess r a) Anything :=
  use_ends r fun _ => rfl

theorem setActive_ends (r : Nat) (op : Option Operation) : Ends R (setActive r op) Anything :=
  use_ends r fun _ => rfl

theorem enlist_ends (r : Nat) (use : Use) : Ends R (enlist r use) Anything :=
  use_ends r fun _ => rfl

theorem delist_ends (r : Nat) : Ends R (delist r) Anything := use_ends r fun _ => rfl

theorem sharing_ends (hx : Ends R x p) : Ends R (sharing r x) p := by
  have hbegin : Ends R (beginShared r) Anything := (container_ends r).bind fun c _ => by
    split
    · exact setAccess_ends r _
    · exact .throw id
  have hend : Ends R (endShared r) Anything := (container_ends r).bind fun c _ => by
    split
    · exact setAccess_ends r _
    · exact .pure trivial
  exact hbegin.bind fun _ _ => (enlist_ends r _).bind fun _ _ =>
    hx.always ((delist_ends r).bind fun _ _ => hend)

theorem exclusivelyOr_ends {refused : Act Unit} {op : Operation} (hrefused : Ends R refused Anything)
    (hx : Ends R x p) : Ends R (exclusivelyOr refused r op x) p := by
  have hbegin : Ends R (beginExclusive r) Anything := (container_ends r).bind fun c _ => by
    split
    · exact setAccess_ends r _
    · exact .throw id
  exact (hbegin.onFailure hrefused).bind fun _ _ => (enlist_ends r _).bind fun _ _ =>
    hx.always ((delist_ends r).bind fun _ _ => setAccess_ends r _)

theorem exclusively_ends {op : Operation} (hx : Ends R x p) : Ends R (exclusively r op x) p :=
  exclusivelyOr_ends (.pure trivial) hx

theorem searching_ends {op : Operation} (hx : Ends R x p) : Ends R (searching r op x) p := by
  have hbegin : Ends R (enterGuard r op) Anything := (container_ends r).bind fun c _ => by
    split
    · exact .throw id
    · exact setActive_ends r _
  have hend : Ends R (leaveGuard r) Anything := (container_ends r).bind fun c _ => by
    split
    · exact setActive_ends r _
    · exact ofStore_ends fun _ _ => trivial
  exact hbegin.bind fun _ _ => (enlist_ends r _).bind fun _ _ =>
    hx.always ((delist_ends r).bind fun _ _ => hend)

theorem isIdle_ends (r : Nat) : Ends R (isIdle r) Anything :=
  (cell_ends r).bind fun d _ => by
    split
    · exact .pure trivial
    · exact .pure trivial

theorem readStore_ends (r : Nat) (f : Store Item → Except Fault α) : Ends R (readStore r f) Anything :=
  (container_ends r).bind fun _ _ => ofStore_ends fun _ _ => trivial

theorem size_ends (r : Nat) : Ends R (size r) Anything := sharing_ends (readStore_ends r _)

/-! ## names -/

theorem binding_ends (name : String) : Ends R (binding name) Anything := by
  refine .get_bind (fun _ _ => rfl) fun w _ => ?_
  split
  · exact .pure trivial
  · exact .throw id

theorem named_ends (name : String) : Ends R (named name) Anything := by
  refine (binding_ends name).bind fun b _ => ?_
  cases b with
  | object r => exact .pure trivial
  | realm x => exact .throw id

theorem realmNamed_ends (name : String) : Ends R (realmNamed name) Anything := by
  refine (binding_ends name).bind fun b _ => ?_
  cases b with
  | object r => exact .throw id
  | realm x => exact .pure trivial

theorem rebind_ends (name : String) (b : Binding) : Ends R (rebind name b) Anything :=
  .get_bind (fun _ _ => rfl) fun _ _ =>
    Ends.bind (.modify (fun _ _ => rfl) fun _ => .of_same rfl) fun _ _ => .pure trivial

theorem unbound_ends (name : String) : Ends R (unbound name) Anything :=
  .get_bind (fun _ _ => rfl) fun _ _ =>
    Ends.bind (.modify (fun _ _ => rfl) fun _ => .of_same rfl) fun _ _ => .pure trivial

/-! ## names in answers -/

theorem showValue_upTo (w : World) (n : Nat) : (w.upTo n).showValue = w.showValue := by
  funext v
  cases v <;> rfl

theorem showKey_upTo (w : World) (n : Nat) : (w.upTo n).showKey = w.showKey := by
  funext k
  induction k with
  | value v => exact congrArg Term.value (congrFun (showValue_upTo w n) v)
  | reference k ih => exact congrArg Term.reference ih
  | _ => rfl

end World

end LiveOrder
