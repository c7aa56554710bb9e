import LiveOrder.Proofs.Store.Session
import LiveOrder.Proofs.World.Perform

/-!
# Programs run without internal failures

* `answer_settles`, `answerEach_settles`   an operation and a program, given the programs inside it;
* `runSteps_safe`   programs nested to any depth, by induction on the depth;
* `Program.runFrom_spec`   what holds of a whole run, and of the world that it leaves;
* `no_internal_failure`    sessions and programs together.

The failures that remain are those of a container in use or of a store that is searching, the errors
of the script surface, misuse of the language, and the limits of the run.
-/

namespace LiveOrder

namespace World

open Act Situation

section
variable {run : Runner} {lent : Hands} (hrun : run.Safe)
include hrun

theorem answer_settles (s : Step) :
    Settles lent (0 : Hands) (answer run s) fun a => plain 0 a.Clean := by
  have hlogged : Settles lent (0 : Hands) (logged (enclosed run (perform run s.op))) fun y =>
      plain 0 (Outcome Result.Clean y.1 ∧ ∀ e ∈ y.2, e.Clean) := by
    refine Owns.settles (logged_safe ?_) fun w => ⟨_, _, rfl⟩
    refine Owns.weaken (enclosed_settles hrun (perform_safe hrun s.op)) (.refl _) fun outcome => ?_
    cases outcome with
    | ok r => exact .refl _
    | error e => exact .refl _
  have hspent : Settles lent (0 : Hands)
      (modify fun w : World => { w with spent := w.spent + 1, moments := w.moment :: w.moments })
      fun _ => (0 : Hands) :=
    Owns.settles (.modify fun _ _ hw => ⟨⟨hw.1.mark, trivial⟩, .of_same rfl rfl⟩)
      fun w => ⟨_, _, rfl⟩
  refine Settles.get_bind fun w => ?_
  split
  · exact .pure (entails_plain (.failed id nofun))
  refine hspent.bind fun _ => hlogged.bind fun y => .of_plain fun hy => ?_
  obtain ⟨outcome, log⟩ := y
  obtain ⟨houtcome, hlog⟩ := hy
  have hsorted : ∀ e ∈ (if s.op.isSweeping outcome then Event.byRank log else log), e.Clean := by
    intro e he
    split at he
    · exact hlog e ((Event.byRank_perm log).mem_iff.mp he)
    · exact hlog e he
  have hanswer := Answer.clean_of_outcome houtcome hsorted
  cases outcome with
  | ok r => exact .pure (entails_plain hanswer)
  | error e =>
    dsimp only
    split
    · exact Settles.bind (b := fun _ => ((0 : Hands) : Situation)) (.throw houtcome (.refl _)) fun _ =>
        .pure (entails_plain hanswer)
    · exact .pure (entails_plain hanswer)

theorem answerEach_settles (steps : List Step) :
    Settles lent (0 : Hands) (answerEach run steps) fun l => plain 0 (∀ a ∈ l, a.Clean) := by
  induction steps with
  | nil => exact .pure (entails_plain nofun)
  | cons s rest ih =>
    refine (answer_settles hrun s).bind fun a => .of_plain fun ha => ih.bind fun more => ?_
    refine .pure (plain_entails fun hmore b hb => ?_)
    rcases List.mem_cons.mp hb with rfl | hb
    · exact ha
    · exact hmore b hb

end

theorem runSteps_safe (n : Nat) : Runner.Safe (runSteps n) := by
  induction n with
  | zero =>
    refine fun lent steps => .pure (entails_plain fun a ha => ?_)
    obtain ⟨s, _, rfl⟩ := List.mem_map.mp ha
    exact .failed id nofun
  | succ n ih => exact fun lent steps => answerEach_settles ih steps

theorem answerTop_settles (op : Op) :
    Settles 0 (0 : Hands) (answerTop op) fun a => plain 0 a.Clean :=
  .get_bind fun w => answer_settles (runSteps_safe w.limits.nesting) (.mk op false)

/-! ## whole runs -/

/-- Nothing is in hand, and nothing goes on: the state of affairs between operations. -/
structure Resting (w : World) : Prop extends w.InOrder 0 where
  visiting : w.visiting = []
  calls : w.calls = []
  idle : ∀ {r f}, formAt w.cells r = some f → f.Idle

theorem Resting.of_steady {w v : World} (h : w.Resting) (hv : v.InOrder 0) (hs : Steady w v) :
    v.Resting where
  toInOrder := hv
  visiting := hs.visiting.trans h.visiting
  calls := hs.calls.trans h.calls
  idle hf := by
    rcases hs.forms hf with hf | ⟨_, hidle⟩
    · exact h.idle hf
    · exact hidle

theorem resting_initial (limits : Limits) (tracing : Bool) : (initial limits tracing).Resting where
  faultless := rfl
  clean := nofun
  names := List.nodup_nil
  walks := List.nodup_nil
  iterators := List.nodup_nil
  cells := List.nodup_nil
  books :=
    { counted := fun _ => rfl
      shared := nofun
      stores := nofun
      guarded := nofun
      rows := nofun
      owned := fun _ => rfl
      below := nofun
      accounted := fun _ => rfl
      permitted := fun _ => Nat.zero_le _ }
  passages := nofun
  releases := fun later x earlier e => by cases later <;> cases e
  homes := nofun
  walking := nofun
  patient := .inl rfl
  moments := nofun
  registered := ⟨nofun, nofun, List.nodup_nil, nofun⟩
  visiting := rfl
  calls := rfl
  idle := nofun

end World

theorem Program.runFrom_spec {w : World} (h : w.Resting) (snapshots : Bool) (ops : List Op) :
    (∀ r ∈ (runFrom snapshots w ops).1, r.answer.Clean) ∧ (runFrom snapshots w ops).2.Resting ∧
      Steady w (runFrom snapshots w ops).2 := by
  induction ops generalizing w with
  | nil => exact ⟨nofun, h, .refl w⟩
  | cons op rest ih =>
    have hw : Situation.Holds ((0 : Hands) : Situation) 0 w := ⟨h.toInOrder, trivial⟩
    obtain ⟨outcome, v, he, hv, hsteady⟩ :=
      (World.answerTop_settles op).apply (Multiset.Subset.refl 0) hw
    rw [runFrom, he]
    cases outcome with
    | error e =>
      obtain ⟨hreplies, hlast, hon⟩ := ih (h.of_steady hv.1 hsteady)
      refine ⟨fun r hr => ?_, hlast, hsteady.trans hon⟩
      rcases List.mem_cons.mp hr with rfl | hr
      · exact .failed hv.2 nofun
      · exact hreplies r hr
    | ok a =>
      obtain ⟨hreplies, hlast, hon⟩ := ih (h.of_steady hv.1 hsteady)
      refine ⟨fun r hr => ?_, hlast, hsteady.trans hon⟩
      rcases List.mem_cons.mp hr with rfl | hr
      · exact hv.2
      · exact hreplies r hr

/-- No run meets an internal failure: not a session on a store, where every command gets its reply,
and not a program, whatever is nested in it and however much of it is allowed to run.  No answer, at
any depth, is a fault of a store or a handle without an object; none was raised and hidden by another
one; and the stores that are left can be read and counted.

An answer may still be that a loop was given up (`exhausted`), which is a limit of the run, and which no
loop reaches if it is high enough (`enough_rounds`). -/
theorem no_internal_failure :
    (∀ (hasher : Token → UInt64) (commands : List Session.Command),
      ∃ replies : List (Session.Reply × Nat), replies.length = commands.length ∧
        Session.run hasher commands = replies.map .ok) ∧
    ∀ (limits : Limits) (tracing snapshots : Bool) (ops : List Op),
      ∃ replies w, Program.runFrom snapshots (.initial limits tracing) ops = (replies, w) ∧
        (∀ reply ∈ replies, reply.answer.Clean) ∧ w.faults = [] ∧
        ∀ r c, containerAt? w.cells r = some c →
          (∃ entries, c.store.entries = .ok entries) ∧ ∃ n, c.store.tombstones = .ok n := by
  refine ⟨Session.run_spec, fun limits tracing snapshots ops => ⟨_, _, rfl, ?_⟩⟩
  obtain ⟨hreplies, hlast, _⟩ :=
    Program.runFrom_spec (World.resting_initial limits tracing) snapshots ops
  refine ⟨hreplies, hlast.faultless, fun r c hc => ?_⟩
  have hsound := hlast.books.stores hc
  exact ⟨⟨_, Store.entries_spec hsound⟩, _, Store.tombstones_spec hsound⟩

end LiveOrder
