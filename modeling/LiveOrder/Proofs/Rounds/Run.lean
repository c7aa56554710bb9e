import LiveOrder.Proofs.Rounds.Perform
import LiveOrder.Proofs.World.Run

/-!
# Programs end by themselves

The bounds on operations and on nesting are all that ends a run.  The bound on the rounds of a loop does
not: with enough rounds every loop comes to its end before.

* `answer_ends`     an operation uses up one of those that are left;
* `runSteps_ends`   programs nested to any depth, by induction on the depth;
* `Program.runFrom_reaches`   whole runs;
* `enough_rounds`   with enough rounds nothing is given up, and more of them make no difference.
-/

namespace LiveOrder

namespace World

open Act

section
variable {run : Runner} (hrun : run.Ends)
include hrun

/-- What is answered when an operation is done. -/
theorem outcome_ends (s : Step) : Ends Anyhow (do
    let (outcome, log) ← logged (enclosed run (perform run s.op))
    match outcome with
    | .error e => if s.escapes && e.unwinds then throw e
    | .ok _ => pure ()
    pure (Answer.mk outcome (if s.op.isSweeping outcome then Event.byRank log else log))) Answer.Whole := by
  refine (logged_ends (enclosed_ends hrun (perform_ends hrun s.op))).bind fun y hy => ?_
  obtain ⟨outcome, log⟩ := y
  obtain ⟨houtcome, hlog⟩ := hy
  have hsorted : ∀ e ∈ (if s.op.isSweeping outcome then Event.byRank log else log), e.Whole := by
    intro e he
    split at he
    · exact hlog e ((Event.byRank_perm log).mem_iff.mp he)
    · exact hlog e he
  cases outcome with
  | ok r => exact .pure (.done houtcome hsorted)
  | error e =>
    dsimp only
    split
    · exact Ends.bind (p := Anything) (.throw houtcome) fun _ _ => .pure (.failed houtcome hsorted)
    · exact .pure (.failed houtcome hsorted)

theorem answer_ends (s : Step) : Ends Eq (answer run s) Answer.Whole := by
  intro pins w hw
  by_cases hlimit : w.limits.ops ≤ w.spent
  · refine ⟨.ok (.mk (.error (.misuse .tooDeep)) []), w, .of_eq fun n => ?_, ?_, hw,
      .failed id (List.forall_mem_nil _)⟩
    · have hlimit' : (w.upTo n).limits.ops ≤ (w.upTo n).spent := hlimit
      rw [answer, get_bind_apply, if_pos hlimit']
      rfl
    · exact ⟨Nat.le_refl _, Nat.le_max_left _ _, rfl, Nat.le_refl _, fun _ => rfl⟩
  · have hmarked : { w with spent := w.spent + 1, moments := w.moment :: w.moments }.Footed pins :=
      { hw with }
    obtain ⟨o, v, ⟨m, hv⟩, hspends, hfooted, ho⟩ := outcome_ends hrun s pins _ hmarked
    refine ⟨o, v, ⟨m, fun n hn => ?_⟩, ?_, hfooted, ho⟩
    · have hlimit' : ¬(w.upTo n).limits.ops ≤ (w.upTo n).spent := hlimit
      rw [answer, get_bind_apply, if_neg hlimit']
      exact hv n hn
    · have hspent : w.spent + 1 ≤ v.spent := hspends.spent
      have hbounded : v.spent ≤ max (w.spent + 1) w.limits.ops := hspends.bounded
      exact ⟨by omega, by omega, hspends.limits, hspends.freshWalk, fun hsame => by omega⟩

theorem answerEach_ends (steps : List Step) :
    Ends Eq (answerEach run steps) fun l => ∀ a ∈ l, a.Whole := by
  have hdone : ∀ l : List Answer, (∀ a ∈ l, a.Whole) →
      Ends Eq (pure l : Act (List Answer)) fun l => ∀ a ∈ l, a.Whole := fun l hl pins w hw =>
    ⟨.ok l, w, .of_eq fun _ => rfl, ⟨Nat.le_refl _, Nat.le_max_left _ _, rfl, Nat.le_refl _, fun _ => rfl⟩,
      hw, hl⟩
  induction steps with
  | nil => exact hdone [] (List.forall_mem_nil _)
  | cons s rest ih =>
    exact (answer_ends hrun s).bind fun a ha => ih.bind fun more hmore =>
      hdone _ (List.forall_mem_cons.mpr ⟨ha, hmore⟩)

end

theorem runSteps_ends (n : Nat) : Runner.Ends (runSteps n) := by
  induction n with
  | zero =>
    refine fun steps pins w hw => ⟨.ok _, w, .of_eq fun _ => rfl, ?_, hw, fun a ha => ?_⟩
    · exact ⟨Nat.le_refl _, Nat.le_max_left _ _, rfl, Nat.le_refl _, fun _ => rfl⟩
    · obtain ⟨s, _, rfl⟩ := List.mem_map.mp ha
      exact .failed id (List.forall_mem_nil _)
  | succ n ih => exact fun steps => answerEach_ends ih steps

theorem answerTop_ends (op : Op) : Ends Eq (answerTop op) Answer.Whole :=
  .get_bind (fun _ _ => rfl) fun w _ => answer_ends (runSteps_ends w.limits.nesting) (.mk op false)

theorem footed_initial (limits : Limits) (tracing : Bool) : (initial limits tracing).Footed [] where
  walks := List.nodup_nil
  freshWalk _ := rfl
  stores := nofun
  fresh _ := ⟨rfl, fun _ => rfl⟩
  frames := nofun

theorem snapshot_upTo (w : World) (n : Nat) : (w.upTo n).snapshot = w.snapshot := by
  have hcontents : (w.upTo n).showContents = w.showContents := by
    funext c
    simp only [showContents, showKeyOf_upTo, showItem_upTo]
  unfold snapshot
  rw [hcontents]
  rfl

end World

/-! ## whole runs -/

theorem Program.runFrom_reaches {w : World} (hw : w.Footed []) (snapshots : Bool) (ops : List Op) :
    ∃ m replies, ∃ v : World, (∀ n, m ≤ n → runFrom snapshots (w.upTo n) ops = (replies, v.upTo n)) ∧
      ∀ reply ∈ replies, reply.answer.Whole := by
  induction ops generalizing w with
  | nil => exact ⟨0, [], w, fun _ _ => rfl, List.forall_mem_nil _⟩
  | cons op rest ih =>
    obtain ⟨o, u, ⟨m, hu⟩, _, hfooted, ho⟩ := World.answerTop_ends op [] w hw
    obtain ⟨k, replies, v, hrest, hwhole⟩ := ih hfooted
    obtain ⟨a, ha, hfirst⟩ : ∃ a : Answer, a.Whole ∧ ∀ n, m ≤ n →
        runFrom snapshots (w.upTo n) (op :: rest) =
          (⟨a, if snapshots then some u.snapshot else none⟩ :: (runFrom snapshots (u.upTo n) rest).1,
            (runFrom snapshots (u.upTo n) rest).2) := by
      cases o with
      | ok a =>
        refine ⟨a, ho, fun n hn => ?_⟩
        rw [runFrom, hu n hn, ← World.snapshot_upTo u n]
      | error e =>
        refine ⟨.mk (.error e) [], .failed ho (List.forall_mem_nil _), fun n hn => ?_⟩
        rw [runFrom, hu n hn, ← World.snapshot_upTo u n]
    refine ⟨max m k, ⟨a, if snapshots then some u.snapshot else none⟩ :: replies, v, fun n hn => ?_,
      List.forall_mem_cons.mpr ⟨ha, hwhole⟩⟩
    rw [hfirst n (Nat.le_trans (Nat.le_max_left m k) hn),
      hrest n (Nat.le_trans (Nat.le_max_right m k) hn)]

/-- With enough rounds nothing is given up: no loop in the run of a program comes to the bound on its
rounds, be it a release or a whole walk.  Every walk on record has come to the end of its container, and
every piece that was to be released has been.  More rounds make no difference. -/
theorem enough_rounds (ops nesting : Nat) (tracing snapshots : Bool) (program : List Op) :
    ∃ m replies, ∃ w : World,
      (∀ n, m ≤ n → Program.runFrom snapshots (.initial ⟨ops, nesting, n⟩ tracing) program =
        (replies, w.upTo n)) ∧
      (∀ reply ∈ replies, reply.answer.Whole) ∧ w.abandoned = [] ∧ ∀ x ∈ w.passages, x.complete = true := by
  obtain ⟨m, replies, w, hrun, hwhole⟩ :=
    Program.runFrom_reaches (World.footed_initial ⟨ops, nesting, 0⟩ tracing) snapshots program
  have hrun' : ∀ n, m ≤ n → Program.runFrom snapshots (.initial ⟨ops, nesting, n⟩ tracing) program =
      (replies, w.upTo n) := hrun
  -- what was given up would have gone on for as many rounds as there were, however many
  have hresting : ∀ n, m ≤ n → (w.upTo n).Resting := fun n hn => by
    obtain ⟨_, hlast, _⟩ := Program.runFrom_spec (World.resting_initial ⟨ops, nesting, n⟩ tracing) snapshots
      program
    rwa [hrun' n hn] at hlast
  refine ⟨m, replies, w, hrun', hwhole, ?_, fun x hx => ?_⟩
  · have hpatient := (hresting (max m (w.discarded + 1)) (Nat.le_max_left _ _)).patient
    refine hpatient.resolve_right fun hle => ?_
    have hle' : max m (w.discarded + 1) ≤ w.discarded := hle
    omega
  · have hended := ((hresting (max m (x.stops.length + 1)) (Nat.le_max_left _ _)).passages x hx).2
    refine hended.resolve_right fun hle => ?_
    have hle' : max m (x.stops.length + 1) ≤ x.stops.length := hle
    omega

end LiveOrder
