import LiveOrder.Proofs.Scripts.Perform
import LiveOrder.Proofs.World.Run

/-!
# Script programs are never refused

* `answer_calm`     an operation and its record, given the programs inside it;
* `runSteps_calm`   programs nested to any depth, by induction on the depth;
* `Program.runFrom_gentle`     whole runs;
* `scripts_never_conflict`     no refusals, no pins left behind, and no tombstones but under cursors.
-/

namespace LiveOrder

namespace World

open Act

section
variable {run : Runner} (hrun : run.Calm)
include hrun

theorem answer_calm {s : Step} (hs : s.Scripted) : Calm {} (answer run s) Answer.Peaceful := by
  have hop : s.op.Scripted := by
    obtain ⟨hop⟩ := hs
    exact hop
  refine .get_bind fun w _ => ?_
  split
  · exact .pure (.failed id (List.forall_mem_nil _))
  have hmark : Calm {} (modify fun w : World =>
      { w with spent := w.spent + 1, moments := w.moment :: w.moments }) Anything :=
    .modify fun w hw => { hw with moments := List.forall_mem_cons.mpr ⟨hw.moment, hw.moments⟩ }
  refine hmark.bind fun _ _ => (logged_calm (enclosed_calm (perform_calm hrun hop))).bind fun y hy => ?_
  obtain ⟨outcome, log⟩ := y
  obtain ⟨houtcome, hlog⟩ := hy
  have hsorted : ∀ e ∈ (if s.op.isSweeping outcome then Event.byRank log else log), e.Peaceful := by
    intro e he
    split at he
    · exact hlog e ((Event.byRank_perm log).mem_iff.mp he)
    · exact hlog e he
  cases outcome with
  | ok r => exact .pure (.done houtcome hsorted)
  | error e =>
    dsimp only
    split
    · exact Calm.bind (p := Anything) (.throw houtcome) fun _ _ => .pure (.failed houtcome hsorted)
    · exact .pure (.failed houtcome hsorted)

theorem answerEach_calm {steps : List Step} (h : ∀ s ∈ steps, s.Scripted) :
    Calm {} (answerEach run steps) fun l => ∀ a ∈ l, a.Peaceful := by
  induction steps with
  | nil => exact .pure (List.forall_mem_nil _)
  | cons s rest ih =>
    obtain ⟨hs, hrest⟩ := List.forall_mem_cons.mp h
    exact (answer_calm hrun hs).bind fun a ha => (ih hrest).bind fun more hmore =>
      .pure (List.forall_mem_cons.mpr ⟨ha, hmore⟩)

end

theorem runSteps_calm (n : Nat) : Runner.Calm (runSteps n) := by
  induction n with
  | zero =>
    refine fun steps _ => .pure fun a ha => ?_
    obtain ⟨s, _, rfl⟩ := List.mem_map.mp ha
    exact .failed id (List.forall_mem_nil _)
  | succ n ih => exact fun steps h => answerEach_calm ih h

theorem answerTop_calm {op : Op} (h : op.Scripted) : Calm {} (answerTop op) Answer.Peaceful :=
  .get_bind fun w _ => answer_calm (runSteps_calm w.limits.nesting) (.mk h)

theorem gentle_initial (limits : Limits) (tracing : Bool) : (initial limits tracing).Gentle {} where
  walks := List.nodup_nil
  freshWalk _ := rfl
  bodies := nofun
  fresh _ := ⟨rfl, fun _ => rfl⟩
  placeless := nofun
  frames := nofun
  spent := nofun
  leaks := .inl rfl
  moments := nofun

end World

/-! ## whole runs -/

theorem Program.runFrom_gentle {w : World} (hw : w.Gentle {}) (snapshots : Bool) {ops : List Op}
    (h : ∀ op ∈ ops, op.Scripted) :
    (∀ r ∈ (runFrom snapshots w ops).1, r.answer.Peaceful) ∧ (runFrom snapshots w ops).2.Gentle {} := by
  induction ops generalizing w with
  | nil => exact ⟨List.forall_mem_nil _, hw⟩
  | cons op rest ih =>
    obtain ⟨hop, hrest⟩ := List.forall_mem_cons.mp h
    have hend := World.answerTop_calm hop w hw
    rw [runFrom]
    rcases hr : World.answerTop op w with ⟨e | a, v⟩
    · rw [hr] at hend
      obtain ⟨hreplies, hlast⟩ := ih hend.2 hrest
      exact ⟨List.forall_mem_cons.mpr ⟨.failed hend.1 (List.forall_mem_nil _), hreplies⟩, hlast⟩
    · rw [hr] at hend
      obtain ⟨hreplies, hlast⟩ := ih hend.1 hrest
      exact ⟨List.forall_mem_cons.mpr ⟨hend.2, hreplies⟩, hlast⟩

/-- Script containers never conflict with themselves.  In a program that makes no others, whatever runs
inside of what and whichever container holds which, no operation is refused at any depth, and no cursor
leaves its pin behind when it is closed: whenever user code runs no container is in use.  So then, and
when all is done, a container in which no cursor is parked has no tombstones.

A pin does stay behind if the release of something is given up at the limit of the run. -/
theorem scripts_never_conflict (limits : Limits) (tracing snapshots : Bool) {ops : List Op}
    (h : ∀ op ∈ ops, op.Scripted) :
    ∃ replies w, Program.runFrom snapshots (.initial limits tracing) ops = (replies, w) ∧
      (∀ reply ∈ replies, reply.answer.Peaceful) ∧
      (∀ m ∈ w.moment :: w.moments, m.Idle) ∧
      (w.abandoned = [] ∨ limits.rounds ≤ w.discarded) ∧
      (w.abandoned = [] → w.leaks = [] ∧ ∀ m ∈ w.moment :: w.moments, m.Tidy) := by
  obtain ⟨hreplies, hlast⟩ := Program.runFrom_gentle (World.gentle_initial limits tracing) snapshots h
  obtain ⟨_, hresting, hsteady⟩ :=
    Program.runFrom_spec (World.resting_initial limits tracing) snapshots ops
  generalize Program.runFrom snapshots (.initial limits tracing) ops = outcome at *
  obtain ⟨replies, w⟩ := outcome
  have hmoments : ∀ m ∈ w.moment :: w.moments, m.Idle ∧ (w.leaks = [] → m.Tidy) :=
    List.forall_mem_cons.mpr ⟨hlast.moment, hlast.moments⟩
  have hpatient := hresting.patient
  rw [hsteady.limits] at hpatient
  refine ⟨replies, w, rfl, hreplies, fun m hm => (hmoments m hm).1, hpatient, fun habandoned => ?_⟩
  have hleaks : w.leaks = [] :=
    hlast.leaks.resolve_right fun hspent => hspent.elim (· habandoned) (· hresting.faultless)
  exact ⟨hleaks, fun m hm => (hmoments m hm).2 hleaks⟩

/-- A map that holds itself, and a function that changes the map and walks over it again. -/
def selfHolding : List Op :=
  let map := Target.named "m"
  let walk := Op.realmForEach "realm" map (.function "f") none
  [.realm "realm" .undefined none,
    .container .scriptMap "m" [(.text .slice "a", .value .null), (.text .slice "b", .value .null)],
    .put map [(.text .slice "self", .value (.scriptMap "m"))],
    .function "f" [.mk (.delete map (.arg 1)) false, .mk walk false,
      .mk (.put map [(.arg 1, .value (.scriptMap "m"))]) false] 4 .undefined,
    .iterate map .entries "i", .next "i" none, walk, .next "i" none, .close "i"]

/-- Three walks go on inside of each other, over a map with three tombstones.  In the end there are none. -/
theorem scripts_never_conflict_selfHolding :
    (∀ op ∈ selfHolding, op.Scripted) ∧
    ∃ replies w, Program.runFrom false (.initial ⟨100, 4, 200⟩ true) selfHolding = (replies, w) ∧
      (∀ reply ∈ replies, reply.answer.Peaceful) ∧ w.leaks = [] ∧
      (∃ m ∈ w.moments, m.Idle ∧ (places m.walks).length = 4 ∧
        (containerAt? m.objects 1).map (·.store.tombstones.toOption) = some (some 3)) ∧
      ∃ c, containerAt? w.cells 1 = some c ∧ c.store.tombstones = .ok 0 := by
  have hscripted : ∀ op ∈ selfHolding, op.Scripted := by
    simp only [selfHolding, List.forall_mem_cons]
    refine ⟨.plain rfl, .container rfl, .plain rfl, .function ?_, .plain rfl, .plain rfl, .plain rfl,
      .plain rfl, .plain rfl, List.forall_mem_nil _⟩
    simp only [List.forall_mem_cons]
    exact ⟨.mk (.plain rfl), .mk (.plain rfl), .mk (.plain rfl), List.forall_mem_nil _⟩
  obtain ⟨replies, w, hrun, hreplies, hidle, hpatient, htidy⟩ :=
    scripts_never_conflict ⟨100, 4, 200⟩ true false hscripted
  obtain ⟨hlimit, hmoment, hparked, hthere⟩ : w.discarded < 200 ∧
      (∃ m ∈ w.moments, (places m.walks).length = 4 ∧
        (containerAt? m.objects 1).map (·.store.tombstones.toOption) = some (some 3)) ∧
      places w.walks = [] ∧ (containerAt? w.cells 1).isSome = true := by
    have hw : w = (Program.runFrom false (.initial ⟨100, 4, 200⟩ true) selfHolding).2 := by rw [hrun]
    rw [hw]
    decide +kernel
  obtain ⟨hleaks, hmoments⟩ := htidy (hpatient.resolve_right (Nat.not_le.mpr hlimit))
  obtain ⟨m, hm, hwalks, htombstones⟩ := hmoment
  obtain ⟨c, hc⟩ := Option.isSome_iff_exists.mp hthere
  refine ⟨hscripted, replies, w, hrun, hreplies, hleaks,
    ⟨m, hm, hidle m (List.mem_cons_of_mem _ hm), hwalks, htombstones⟩, c, hc, ?_⟩
  refine hmoments w.moment List.mem_cons_self hc fun s hs => ?_
  have hnone : places w.moment.walks = [] := hparked
  rw [hnone] at hs
  cases hs

end LiveOrder
