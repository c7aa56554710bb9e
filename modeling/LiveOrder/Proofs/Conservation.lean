import LiveOrder.Proofs.Tour.Conservation
import LiveOrder.Proofs.World.Values

/-!
# Conservation

* `Program.runFrom_append`   a run goes on from where it is;
* `conservation`   keys and values in tours, and the values that programs store.
-/

namespace LiveOrder

theorem Program.runFrom_append (snapshots : Bool) (w : World) (ops more : List Op) :
    (runFrom snapshots w (ops ++ more)).2 =
      (runFrom snapshots (runFrom snapshots w ops).2 more).2 := by
  induction ops generalizing w with
  | nil => rfl
  | cons op rest ih => exact ih (World.answerTop op w).2

/-- Nothing is lost and nothing comes out twice.

What goes into a store in a tour, however many cursors are moved on it, is live, or retained, or has
come out, in a reply or as a pair that was freed.  In a program each number that is stored is released
once, when no entry holds it any more, and a container that goes away leaves none of its numbers
unreleased; the last handle releases them at once, at any depth of a program and whatever else is at
work.  Releases end early only at the limit of the run, and then what is left of them is on record. -/
theorem conservation :
    (∀ {ν : Type} (hasher : Token → UInt64) (commands : List (Command ν)),
      (∀ c ∈ commands, c.exchanges = false) → ∃ replies out t entries,
        (Tour.start hasher).trace commands = .ok (replies, out, t) ∧
        (Tour.start hasher).run commands = .ok (replies, t) ∧
        t.store.entries = .ok entries ∧ t.store.tombstones = .ok t.store.retained.length ∧
        matter (commands.flatMap Command.given) =
          matter entries + matter t.store.retained + matter out) ∧
    (∀ (limits : Limits) (tracing snapshots : Bool) (ops : List Op),
      (Program.runFrom snapshots (.initial limits tracing) ops).2.Conserves ∧
      ∀ op, (Program.runFrom snapshots (.initial limits tracing) ops).2.Settled
        (Program.runFrom snapshots (.initial limits tracing) (ops ++ [op])).2) ∧
    ∀ (depth : Nat) (hands : Hands) (w : World) (r : Nat) (d : Cell),
      w.InOrder (hands + handles [r]) → Table.get? r w.cells = some d → d.handles = 1 →
      0 < w.limits.rounds → ∃ outcome v,
        World.discard (World.runSteps depth) [.handle r] w = (outcome, v) ∧
        Table.get? r v.cells = none ∧ w.Settled v := by
  refine ⟨fun {ν} hasher commands hc => ?_, fun limits tracing snapshots ops => ⟨?_, fun op => ?_⟩,
    fun depth hands w r d hw hd hlast hrounds => ?_⟩
  · obtain ⟨replies, out, t, htrace, hsound, hmatter⟩ :=
      Tour.trace_spec (Tour.sound_start hasher) commands hc
    obtain ⟨entries, hentries, htombstones, hheld⟩ := Store.held_spec hsound
    refine ⟨replies, out, t, entries, htrace, ?_, hentries, htombstones, ?_⟩
    · rw [← Tour.trace_run, htrace]
      rfl
    · calc matter (commands.flatMap Command.given)
          = matter (commands.flatMap Command.given) + matter (Tour.start hasher).store.held :=
            (add_zero _).symm
        _ = matter out + matter (entries ++ t.store.retained) := by rw [hmatter, matter_perm hheld]
        _ = matter entries + matter t.store.retained + matter out := by rw [matter_append, add_comm]
  · exact (Program.runFrom_spec (World.resting_initial limits tracing) snapshots ops).2.1.conserves
  · obtain ⟨_, hbefore, _⟩ :=
      Program.runFrom_spec (World.resting_initial limits tracing) snapshots ops
    obtain ⟨_, hafter, hon⟩ := Program.runFrom_spec hbefore snapshots [op]
    rw [Program.runFrom_append]
    exact hbefore.settled hafter.toInOrder hon.toOnward fun _ => Nat.le_refl _
  · obtain ⟨outcome, v, he, hv, hon, hgone⟩ := World.discardHandle_destroys
      (World.runSteps_safe depth) hw hd (Nat.le_of_eq hlast) hrounds
    refine ⟨outcome, v, he, hgone, hw.settled hv hon.toOnward fun id => ?_⟩
    rw [Multiset.count_add]
    exact Nat.le_add_right _ _

/-- A key is set again, and removed while a cursor is on it. -/
def turnover : List (Command Nat) :=
  let key := Key.text .slice
  [.upsert (key "a") 1, .upsert (key "b") 2, .upsert (key "a") 3, .start, .advance 0,
    .remove (key "a"), .remove (key "b"), .upsert (key "c") 4]

/-- Two numbers are stored in a map, the name of which is taken away. -/
def filling : List Op :=
  let key := Term.text .slice
  [.container .map "m" [(key "a", .tracked 1 none none), (key "b", .tracked 2 none none)],
    .iterate (.named "m") .keys "i", .next "i" none, .delete (.named "m") (key "a"), .unbind "m"]

/-- The cursor keeps a pair; an iterator keeps a map, with a removed entry, until it is closed; and the
name of a map is the last handle. -/
theorem conservation_closing :
    (∀ c ∈ turnover, c.exchanges = false) ∧
    (∃ replies out t entries, (Tour.start Token.digest).trace turnover = .ok (replies, out, t) ∧
      t.store.entries = .ok entries ∧ out = [(.text .slice "a", 1), (.text .slice "b", 2)] ∧
      matter (turnover.flatMap Command.given) =
        matter entries + matter t.store.retained + matter out) ∧
    (∃ w v, (Program.runFrom false (.initial ⟨100, 4, 20⟩ false) filling).2 = w ∧
      (Program.runFrom false (.initial ⟨100, 4, 20⟩ false) (filling ++ [.close "i"])).2 = v ∧
      w.Conserves ∧ w.Settled v ∧ w.kept 0 0 = 1 ∧ w.kept 0 1 = 1 ∧ v.released = [1, 0]) ∧
    ∃ w d v outcome, w.InOrder (0 + handles [0]) ∧ Table.get? 0 w.cells = some d ∧ d.handles = 1 ∧
      0 < w.limits.rounds ∧ World.discard (World.runSteps 4) [.handle 0] w = (outcome, v) ∧
      Table.get? 0 v.cells = none ∧ w.Settled v := by
  have hexchanges : ∀ c ∈ turnover, c.exchanges = false := by decide
  refine ⟨hexchanges, ?_, ?_, ?_⟩
  · obtain ⟨replies, out, t, entries, htrace, _, hentries, _, hmatter⟩ :=
      conservation.1 Token.digest turnover hexchanges
    have hout : ((Tour.start Token.digest).trace turnover).toOption.map (·.2.1) =
        some [(.text .slice "a", 1), (.text .slice "b", 2)] := by decide +kernel
    rw [htrace] at hout
    exact ⟨replies, out, t, entries, htrace, hentries, Option.some.inj hout, hmatter⟩
  · obtain ⟨hconserves, hsettled⟩ := conservation.2.1 ⟨100, 4, 20⟩ false false filling
    refine ⟨_, _, rfl, rfl, hconserves, hsettled (.close "i"), ?_⟩
    decide +kernel
  · obtain ⟨_, hfilled, _⟩ :=
      Program.runFrom_spec (World.resting_initial ⟨100, 4, 20⟩ false) false (filling.take 1)
    have hname : (Table.get? "m" (Program.runFrom false (.initial ⟨100, 4, 20⟩ false)
        (filling.take 1)).2.names).map Binding.refs = some [0] := by decide +kernel
    have hobject : (Table.get? 0 (Program.runFrom false (.initial ⟨100, 4, 20⟩ false)
        (filling.take 1)).2.cells).map Cell.handles = some 1 := by decide +kernel
    have hrounds : 0 < (Program.runFrom false (.initial ⟨100, 4, 20⟩ false)
        (filling.take 1)).2.limits.rounds := by decide +kernel
    generalize (Program.runFrom false (.initial ⟨100, 4, 20⟩ false) (filling.take 1)).2 = w at *
    obtain ⟨b, hb, hrefs⟩ := Option.map_eq_some_iff.mp hname
    obtain ⟨d, hd, hlast⟩ := Option.map_eq_some_iff.mp hobject
    have hw := hfilled.unbind "m"
    rw [hb, Option.elim_some, Binding.assets, hrefs] at hw
    obtain ⟨outcome, v, he, hgone, hsettled⟩ := conservation.2.2 4 0 _ 0 d hw hd hlast hrounds
    exact ⟨_, d, v, outcome, hw, hd, hlast, hrounds, he, hgone, hsettled⟩

end LiveOrder
