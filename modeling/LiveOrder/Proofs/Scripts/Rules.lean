import LiveOrder.Proofs.Scripts.Basic
import LiveOrder.Proofs.World.Lifetime

/-!
# Actions that are not refused

* `Act.Leads`        from one state of affairs to another, never with a refusal;
* `Act.Calm`         an action in the world of a script program that leaves it one, with the same grip;
* `Leads.bind`, `Calm.bind`, `.always`, `.onFailure`, …   one rule for each way to put actions together;
* `log_calm`, `cell_leads`, `retainAll_calm`, `discard_leads`, …   logs, handles, releases and names.

A release fails only at the limit of the run or at a handle without an object.  Either is noted in the
world, so a failed release is known there from then on (`Grip.spent`).
-/

namespace LiveOrder

namespace Act

section
variable {α β : Type} {P P' F E E' : World → Prop} {Q Q' : α → World → Prop} {R : β → World → Prop}
  {x : Act α} {f : α → Act β} {a : α} {e : Failure}

/-- From worlds with a property the action comes to others, whether it ends or fails, and it does not
fail as refused. -/
def Leads (P : World → Prop) (x : Act α) (Q : α → World → Prop) (E : World → Prop) : Prop :=
  ∀ w, P w → match x w with
    | (.ok a, v) => Q a v
    | (.error e, v) => ¬e.IsRefusal ∧ E v

namespace Leads

theorem pure (h : ∀ w, P w → Q a w) : Leads P (pure a) Q E := h

theorem throw (he : ¬e.IsRefusal) (h : ∀ w, P w → E w) : Leads P (throw e : Act α) Q E :=
  fun w hw => ⟨he, h w hw⟩

theorem bind (hx : Leads P x Q E) (hf : ∀ a, Leads (Q a) (f a) R E) : Leads P (x >>= f) R E := by
  intro w hw
  have hxw := hx w hw
  rw [bind_apply]
  rcases hr : x w with ⟨e | a, v⟩
  · rw [hr] at hxw
    exact hxw
  · rw [hr] at hxw
    exact hf a v hxw

theorem weaken (hx : Leads P x Q E) (hP : ∀ w, P' w → P w) (hQ : ∀ a w, Q a w → Q' a w)
    (hE : ∀ w, E w → E' w) : Leads P' x Q' E' := by
  intro w hw
  have hxw := hx w (hP w hw)
  rcases hr : x w with ⟨e | a, v⟩
  · rw [hr] at hxw
    exact ⟨hxw.1, hE v hxw.2⟩
  · rw [hr] at hxw
    exact hQ a v hxw

theorem pre (hx : Leads P x Q E) (hP : ∀ w, P' w → P w) : Leads P' x Q E :=
  fun w hw => hx w (hP w hw)

/-- What does not depend on the world. -/
theorem of_and {F : Prop} (hx : F → Leads P x Q E) : Leads (fun w => P w ∧ F) x Q E :=
  fun w hw => hx hw.2 w hw.1

theorem get_bind {f : World → Act β} (hf : ∀ w, P w → Leads (fun v => P v ∧ v = w) (f w) R E) :
    Leads P (MonadState.get >>= f) R E := fun w hw => hf w hw w ⟨hw, rfl⟩

theorem modify {f : World → World} {R : World → Prop} (h : ∀ w, P w → R (f w)) :
    Leads P (modify f : Act Unit) (fun _ => R) E := h

/-- What is done on the way out of a failed action. -/
theorem onFailure {cleanup : Act Unit} (hx : Leads P x Q F)
    (hc : Leads F cleanup (fun _ => E) E) : Leads P (onFailure x cleanup) Q E := by
  intro w hw
  have hxw := hx w hw
  rw [onFailure_apply]
  rcases hr : x w with ⟨e | a, v⟩
  · rw [hr] at hxw
    have hend := hc v hxw.2
    dsimp only
    rcases hs : cleanup v with ⟨f | y, v'⟩
    · rw [hs] at hend
      exact ⟨Failure.not_isRefusal_leaving hxw.1 fun g hg => by cases hg; exact hend.1, hend.2⟩
    · rw [hs] at hend
      exact ⟨hxw.1, hend⟩
  · rw [hr] at hxw
    exact hxw

theorem always {ending : Act Unit} (hx : Leads P x Q F)
    (hend : ∀ a, Leads (Q a) ending (fun _ => Q' a) E)
    (hfail : Leads F ending (fun _ => E) E) : Leads P (always x ending) Q' E := by
  intro w hw
  have hxw := hx w hw
  rw [always_apply]
  rcases hr : x w with ⟨e | a, v⟩
  · rw [hr] at hxw
    have hend := hfail v hxw.2
    dsimp only
    rcases hs : ending v with ⟨f | y, v'⟩
    · rw [hs] at hend
      exact ⟨Failure.not_isRefusal_leaving hxw.1 fun g hg => by cases hg; exact hend.1, hend.2⟩
    · rw [hs] at hend
      exact ⟨hxw.1, hend⟩
  · rw [hr] at hxw
    have hend := hend a v hxw
    dsimp only
    rcases hs : ending v with ⟨f | y, v'⟩
    · rw [hs] at hend
      exact hend
    · rw [hs] at hend
      exact hend

end Leads

end

/-! ## calm actions -/

/-- The action leaves the world of a script program one, with the same grip, and is not refused. -/
def Calm {α : Type} (g : Grip) (x : Act α) (p : α → Prop) : Prop :=
  Leads (·.Gentle g) x (fun a w => w.Gentle g ∧ p a) (·.Gentle g)

/-- The outcome of an action: a result with a property, or a failure that is no refusal. -/
def Granted {α : Type} (p : α → Prop) : Except Failure α → Prop
  | .ok a => p a
  | .error e => ¬e.IsRefusal

section
variable {α : Type} {g : Grip} {x : Act α} {P : World → Prop} {Q : α → World → Prop} {p : α → Prop}

theorem Leads.calm (hx : Leads (·.Gentle g) x Q (·.Gentle g)) (h : ∀ a w, Q a w → w.Gentle g ∧ p a) :
    Calm g x p := hx.weaken (fun _ hw => hw) h fun _ hw => hw

/-- That it failed to release something need not be known. -/
theorem Leads.relax (hx : Leads P x Q (·.Gentle { g with spent := true })) :
    Leads P x Q (·.Gentle g) := hx.weaken (fun _ hw => hw) (fun _ _ hw => hw) fun _ hw => hw.relax

theorem Calm.leads (hx : Calm g x p) : Leads (·.Gentle g) x (fun _ => (·.Gentle g)) (·.Gentle g) :=
  Leads.weaken hx (fun _ hw => hw) (fun _ _ hw => hw.1) fun _ hw => hw

end

namespace Calm

variable {α β : Type} {g : Grip} {x : Act α} {f : α → Act β} {p : α → Prop} {q : β → Prop} {a : α}
  {e : Failure}

theorem pure (h : p a) : Calm g (pure a) p := fun _ hw => ⟨hw, h⟩

theorem throw (he : ¬e.IsRefusal) : Calm g (throw e : Act α) p := fun _ hw => ⟨he, hw⟩

theorem bind (hx : Calm g x p) (hf : ∀ a, p a → Calm g (f a) q) : Calm g (x >>= f) q :=
  Leads.bind hx fun a w hw => hf a hw.2 w hw.1

theorem get_bind {f : World → Act β} (hf : ∀ w, w.Gentle g → Calm g (f w) q) :
    Calm g (MonadState.get >>= f) q := fun w hw => hf w hw w hw

theorem modify {f : World → World} (h : ∀ w, w.Gentle g → (f w).Gentle g) :
    Calm g (modify f : Act Unit) Anything := fun w hw => ⟨h w hw, trivial⟩

theorem onFailure {cleanup : Act Unit} {P : Unit → Prop} (hx : Calm g x p) (hc : Calm g cleanup P) :
    Calm g (onFailure x cleanup) p := Leads.onFailure hx hc.leads

theorem always {ending : Act Unit} {P : Unit → Prop} (hx : Calm g x p) (hend : Calm g ending P) :
    Calm g (always x ending) p := by
  refine Leads.always hx (fun a w hw => ?_) hend.leads
  have hendw := hend w hw.1
  rcases hs : ending w with ⟨f | y, v⟩
  · rw [hs] at hendw
    exact hendw
  · rw [hs] at hendw
    exact ⟨hendw.1, hw.2⟩

/-- A failure that is caught. -/
theorem attempt (hx : Calm g x p) : Calm g (attempt x) (Granted p) := by
  intro w hw
  have hxw := hx w hw
  rw [attempt_apply]
  rcases hr : x w with ⟨e | a, v⟩
  · rw [hr] at hxw
    exact ⟨hxw.2, hxw.1⟩
  · rw [hr] at hxw
    exact hxw

theorem forM {l : List α} {f : α → Act Unit} (hf : ∀ a ∈ l, Calm g (f a) Anything) :
    Calm g (l.forM f) Anything := by
  induction l with
  | nil => exact .pure trivial
  | cons a rest ih =>
    exact (hf a List.mem_cons_self).bind fun _ _ => ih fun b hb => hf b (List.mem_cons_of_mem a hb)

theorem mapM {l : List α} (hf : ∀ a ∈ l, Calm g (f a) Anything) : Calm g (l.mapM f) Anything := by
  induction l with
  | nil => exact .pure trivial
  | cons a rest ih =>
    rw [List.mapM_cons]
    refine (hf a List.mem_cons_self).bind fun b _ => ?_
    exact (ih fun c hc => hf c (List.mem_cons_of_mem a hc)).bind fun _ _ => .pure trivial

end Calm

end Act

/-- The programs inside an operation, if they are script programs. -/
def Runner.Calm (run : Runner) : Prop :=
  ∀ steps : List Step, (∀ s ∈ steps, s.Scripted) → Act.Calm {} (run steps) fun l => ∀ a ∈ l, a.Peaceful

namespace World

open Act Table

variable {α : Type} {run : Runner} {w : World} {g : Grip} {r : Nat}

/-! ## logs -/

theorem setFrames_calm {f : List (List Event) → List (List Event)}
    (hf : ∀ frames, (∀ log ∈ frames, ∀ e ∈ log, e.Peaceful) → ∀ log ∈ f frames, ∀ e ∈ log, e.Peaceful) :
    Calm g (modify fun w : World => { w with frames := f w.frames }) Anything :=
  .modify fun w hw => { hw with frames := hf w.frames hw.frames }

theorem log_leads {E : World → Prop} {e : Event} (he : e.Peaceful) :
    Leads (·.Gentle g) (log e) (fun _ => (·.Gentle g)) E := by
  refine .modify fun w hw => ?_
  cases hf : w.frames with
  | nil => exact hw
  | cons f rest =>
    refine { hw with frames := fun l hl d hd => ?_ }
    have hold : ∀ l ∈ f :: rest, ∀ d ∈ l, d.Peaceful := hf ▸ hw.frames
    rcases List.mem_cons.mp hl with rfl | hl
    · rcases List.mem_cons.mp hd with rfl | hd
      · exact he
      · exact hold f List.mem_cons_self d hd
    · exact hold l (List.mem_cons_of_mem _ hl) d hd

theorem log_calm {e : Event} (he : e.Peaceful) : Calm g (log e) Anything :=
  (log_leads he).calm fun _ _ hw => ⟨hw, trivial⟩

/-- Notices are no failures. -/
theorem tell_leads {E : World → Prop} {notices : List Notice} (h : .pinLeaked ∉ notices) :
    Leads (·.Gentle g) (tell notices) (fun _ => (·.Gentle g)) E := by
  refine .get_bind fun w _ => Leads.pre ?_ fun _ hv => hv.1
  split
  · induction notices with
    | nil => exact .pure fun _ hv => hv
    | cons n rest ih =>
      have hn : n ≠ .pinLeaked := fun e => h (e ▸ List.mem_cons_self)
      exact (log_leads (.notice hn)).bind fun _ => ih fun hm => h (List.mem_cons_of_mem n hm)
  · exact .pure fun _ hv => hv

theorem tell_calm {notices : List Notice} (h : .pinLeaked ∉ notices) : Calm g (tell notices) Anything :=
  (tell_leads h).calm fun _ _ hw => ⟨hw, trivial⟩

/-- The outcome of an action with its log. -/
theorem logged_calm {x : Act α} {p : α → Prop} (hx : Calm g x p) :
    Calm g (logged x) fun y => Granted p y.1 ∧ ∀ e ∈ y.2, e.Peaceful := by
  refine Calm.bind (setFrames_calm fun frames hf log hlog e he => ?_) fun _ _ =>
    hx.attempt.bind fun outcome ho => .get_bind fun w hw => ?_
  · rcases List.mem_cons.mp hlog with rfl | hlog
    · cases he
    · exact hf log hlog e he
  refine Calm.bind (setFrames_calm fun frames hf log hl => hf log (List.mem_of_mem_tail hl)) fun _ _ =>
    .pure ⟨ho, fun e he => ?_⟩
  have hlog := hw.frames
  rw [List.mem_reverse] at he
  cases hframes : w.frames with
  | nil =>
    rw [hframes] at he
    cases he
  | cons f rest =>
    rw [hframes] at he hlog
    exact hlog f List.mem_cons_self e he

/-! ## objects -/

theorem cell_leads (r : Nat) : Leads (·.Gentle g) (cell r)
    (fun d w => w.Gentle g ∧ get? r w.cells = some d) (·.Gentle { g with spent := true }) := by
  intro w hw
  cases hd : get? r w.cells with
  | none =>
    rw [cell_eq_none hd]
    exact ⟨id, hw.fault _⟩
  | some d =>
    rw [cell_eq hd]
    exact ⟨hw, hd⟩

theorem cell_calm (r : Nat) : Calm g (cell r) Anything :=
  (cell_leads r).relax.calm fun _ _ hw => ⟨hw.1, trivial⟩

theorem container_leads (r : Nat) : Leads (·.Gentle g) (container r)
    (fun c w => w.Gentle g ∧ containerAt? w.cells r = some c) (·.Gentle g) := by
  refine (cell_leads r).relax.bind fun d => ?_
  obtain ⟨n, body⟩ := d
  cases body with
  | container c => exact .pure fun w hw => ⟨hw.1, containerAt?_eq_some_iff.mpr ⟨n, hw.2⟩⟩
  | function f => exact .throw id fun _ hw => hw.1
  | allocation s => exact .throw id fun _ hw => hw.1

/-- What is known of a container, wherever it is. -/
theorem container_calm (r : Nat) :
    Calm g (container r) fun c => c.kind.isScript = true ∧ Untracked (pairsOf c.store.held) :=
  (container_leads r).calm fun _ _ hw =>
    ⟨hw.1, (hw.1.container hw.2).1.kind, (hw.1.container hw.2).1.untracked⟩

theorem retain_calm (r : Nat) : Calm g (retain r) Anything :=
  (cell_calm r).bind fun _ _ => .modify fun _ hw => hw.setHandles r _

theorem retainAll_calm (refs : List Nat) : Calm g (retainAll refs) Anything :=
  .forM fun r _ => retain_calm r

theorem copyKey_calm (k : Key) : Calm g (copyKey k) Anything :=
  (retainAll_calm _).bind fun _ _ => .pure trivial

theorem copyValue_calm (v : Value) : Calm g (copyValue v) Anything :=
  (retainAll_calm _).bind fun _ _ => .pure trivial

theorem copyItem_calm {i : Item} (hi : Untracked i.assets) :
    Calm g (copyItem run i) fun j => Untracked j.assets := by
  cases i with
  | unit => exact .pure untracked_zero
  | copy n => exact .pure untracked_zero
  | value v => exact (retainAll_calm _).bind fun _ _ => .pure (untracked_handles _)
  | tracked id n onRelease onCopy => exact absurd (mem_tracking.mpr rfl) (hi id)

theorem allocate_calm (body : Body) (hbody : body.Gentle 0 fun _ => 0) :
    Calm {} (allocate body) Anything := fun _ hw => ⟨hw.append hbody, trivial⟩

theorem newContainer_calm {kind : Kind} (hkind : kind.isScript = true) :
    Calm {} (newContainer kind) Anything :=
  allocate_calm (.container _) ⟨⟨hkind, rfl, rfl, rfl, untracked_zero⟩, Store.sound_withHasher Token.digest⟩

/-! ## releases -/

theorem untracked_contents {body : Body} {n : Nat} {pins : Nat → Nat} (h : body.Gentle n pins) :
    Untracked (piecesOf body.contents) := by
  cases body with
  | container c =>
    have hsound : ∀ d, (Body.container c).container? = some d → d.store.Sound pins := fun d hd => by
      cases hd
      exact h.2
    rw [piecesOf_contents hsound]
    exact h.1.untracked
  | function f => exact untracked_zero
  | allocation s => exact untracked_zero

theorem releaseHandle_leads (r : Nat) : Leads (·.Gentle g) (releaseHandle r)
    (fun more w => w.Gentle g ∧ Untracked (piecesOf more)) (·.Gentle { g with spent := true }) := by
  refine (cell_leads r).bind fun d => ?_
  split
  · exact Leads.bind (.modify (R := fun w => w.Gentle g ∧ Untracked (piecesOf d.body.contents))
      fun w hw => ⟨hw.1.erase r, untracked_contents (hw.1.bodies hw.2)⟩) fun _ => .pure fun _ hw => hw
  · exact Leads.bind (.modify (R := (·.Gentle g)) fun w hw => hw.1.setHandles r _)
      fun _ => .pure fun _ hw => ⟨hw, untracked_zero⟩

theorem discardOne_leads {d : Debris} (hd : Untracked d.assets) : Leads (·.Gentle g) (discardOne run d)
    (fun more w => w.Gentle g ∧ Untracked (piecesOf more)) (·.Gentle { g with spent := true }) := by
  have hnothing : Leads (·.Gentle g) (pure [] : Act (List Debris))
      (fun more w => w.Gentle g ∧ Untracked (piecesOf more)) (·.Gentle { g with spent := true }) :=
    .pure fun w hw => ⟨hw, untracked_zero⟩
  have hrefs : ∀ refs : List Nat, Leads (·.Gentle g) (pure (refs.map .handle) : Act (List Debris))
      (fun more w => w.Gentle g ∧ Untracked (piecesOf more)) (·.Gentle { g with spent := true }) :=
    fun refs => .pure fun w hw => ⟨hw, piecesOf_handles refs ▸ untracked_handles refs⟩
  cases d with
  | handle r => exact releaseHandle_leads r
  | key k => exact hrefs k.refs
  | item i =>
    cases i with
    | unit => exact hnothing
    | copy n => exact hnothing
    | value v => exact hrefs v.refs
    | tracked id n onRelease onCopy => exact absurd (mem_tracking.mpr rfl) (hd id)

/-- A release fails at the limit of the run, or at a handle without an object. -/
theorem discardWithin_leads (n : Nat) {pieces : List Debris} (h : Untracked (piecesOf pieces)) :
    Leads (·.Gentle g) (discardWithin run n pieces) (fun _ => (·.Gentle g))
      (·.Gentle { g with spent := true }) := by
  induction n generalizing pieces g with
  | zero =>
    cases pieces with
    | nil => exact .pure fun _ hw => hw
    | cons d rest =>
      have hgiven : ∀ w : World, d :: rest ++ w.abandoned ≠ [] := fun w => List.cons_ne_nil _ _
      exact Leads.bind (.modify (R := (·.Gentle { g with spent := true })) fun w hw =>
        { hw with spent := fun _ => .inl (hgiven w), leaks := .inr (.inl (hgiven w)) })
        fun _ => .throw id fun _ hw => hw
  | succ n ih =>
    cases pieces with
    | nil => exact .pure fun _ hw => hw
    | cons d rest =>
      rw [piecesOf_cons, untracked_add] at h
      refine Leads.bind (.modify (R := (·.Gentle g)) fun w hw => { hw with }) fun _ => ?_
      refine ((discardOne_leads h.1).onFailure (ih h.2)).bind fun more => .of_and fun hmore => ih ?_
      rw [piecesOf_append]
      exact untracked_add.mpr ⟨hmore, h.2⟩

theorem discard_leads {pieces : List Debris} (h : Untracked (piecesOf pieces)) :
    Leads (·.Gentle g) (discard run pieces) (fun _ => (·.Gentle g)) (·.Gentle { g with spent := true }) :=
  .get_bind fun w _ => (discardWithin_leads w.limits.rounds h).pre fun _ hv => hv.1

theorem discard_calm {pieces : List Debris} (h : Untracked (piecesOf pieces)) :
    Calm g (discard run pieces) Anything :=
  (discard_leads h).relax.calm fun _ _ hw => ⟨hw, trivial⟩

theorem discardHandles_calm (refs : List Nat) :
    Calm g (discard run (refs.map .handle)) Anything :=
  discard_calm (piecesOf_handles refs ▸ untracked_handles refs)

theorem discardHandle_calm (r : Nat) : Calm g (discard run [.handle r]) Anything :=
  discardHandles_calm [r]

theorem discardKey_calm (k : Key) : Calm g (discard run [.key k]) Anything :=
  discard_calm (untracked_add.mpr ⟨untracked_handles _, untracked_zero⟩)

theorem discardItem_calm {i : Item} (hi : Untracked i.assets) :
    Calm g (discard run [.item i]) Anything :=
  discard_calm (untracked_add.mpr ⟨hi, untracked_zero⟩)

theorem discardValues_calm (l : List Value) :
    Calm g (discard run (l.map fun v => .item (.value v))) Anything :=
  discard_calm (piecesOf_values l ▸ untracked_handles _)

/-- An action with a handle of its own. -/
theorem holding_calm {x : Act α} {p : α → Prop} (hx : Calm g x p) : Calm g (holding run r x) p :=
  (retain_calm r).bind fun _ _ => hx.always (discardHandle_calm r)

/-! ## names -/

theorem binding_calm (name : String) : Calm g (binding name) Anything := by
  refine .get_bind fun w _ => ?_
  split
  · exact .pure trivial
  · exact .throw id

theorem named_calm (name : String) : Calm g (named name) Anything := by
  refine (binding_calm name).bind fun b _ => ?_
  cases b with
  | object r => exact .pure trivial
  | realm x => exact .throw id

theorem realmNamed_calm (name : String) : Calm g (realmNamed name) Anything := by
  refine (binding_calm name).bind fun b _ => ?_
  cases b with
  | object r => exact .throw id
  | realm x => exact .pure trivial

theorem rebind_calm (name : String) (b : Binding) : Calm g (rebind name b) Anything :=
  fun _ hw => ⟨{ hw with }, trivial⟩

theorem unbound_calm (name : String) : Calm g (unbound name) Anything :=
  fun _ hw => ⟨{ hw with }, trivial⟩

end World

end LiveOrder
