import LiveOrder.Proofs.World.Atomicity

/-!
# Whole walks in programs

* `ending_ran`, `withTarget_ran`, `withContainer_ran`   what an operation on an object does in between, if
                       it succeeds;
* `LeavesRecord`       a walk that comes to its end is on record;
* `passages_orderly`   every whole walk in a program visits each entry once, in order of insertion, as
                       long as its container is quiet, whatever the program does at its visits.
-/

namespace LiveOrder

namespace World

open Act Situation

/-! ## operations on an object -/

/-- The object that a target is bound to, or that a value refers to. -/
def Means (w : World) (r : Nat) : Target → Prop
  | .named name => ∃ u, named name w = (.ok r, u)
  | .value t => ∃ x u, readValue t w = (.ok x, u) ∧ x.refs = [r]

section
variable {run : Runner} {lent others : Hands} {w v : World} {c : Target} {α : Type} {p : α → Prop} {y : α}

/-- An action that has something in hand, and gives it up at its end. -/
theorem ending_ran {x : Act α} {ending : Act Unit} {given : Hands} (hx : Safe (lent + given) x p)
    (hend : Owns lent given ending (fun _ => (0 : Hands)) 0) (hlent : lent ⊆ others)
    (hw : w.InOrder (others + given)) (h : always x ending w = (.ok y, v)) :
    ∃ z, x w = (.ok y, z) ∧ Onward z v := by
  obtain ⟨z, hrun, hlast⟩ := always_eq_ok.mp h
  have hsame : others + (0 + given) = others + given := congrArg (others + ·) (zero_add given)
  obtain ⟨hz, _⟩ := (Owns.lending hx).of_ok hlent ⟨hw.of_eq hsame, trivial⟩ hrun
  obtain ⟨_, hsteady⟩ := hend.of_ok hlent ⟨hz.1.of_eq hsame.symm, trivial⟩ hlast
  exact ⟨z, hrun, hsteady.toOnward⟩

variable (hrun : run.Safe)
include hrun

/-- An operation on an object has a handle of its own on it. -/
theorem withTarget_ran {body : Nat → Act α} (hbody : ∀ r, Safe (lent + handles [r]) (body r) p)
    (hlent : lent ⊆ others) (hw : w.InOrder others) (h : withTarget run c body w = (.ok y, v)) :
    ∃ r u z, w.Means r c ∧ u.InOrder (others + handles [r]) ∧ Onward w u ∧ body r u = (.ok y, z) ∧
      Onward z v := by
  have hbegun : w.InOrder (others + 0) := hw.of_eq (add_zero others)
  cases c with
  | named name =>
    obtain ⟨r, u, hnamed, hrest⟩ := bind_eq_ok.mp h
    obtain ⟨⟨hu, hhas⟩, hsteady⟩ := (named_owns name (.refl _)).of_ok hlent ⟨hbegun, trivial⟩ hnamed
    obtain ⟨_, u', hretain, hrest⟩ := bind_eq_ok.mp hrest
    have hretains : Owns lent ⟨0, fun w => w.Has r⟩ (retain r) (fun _ => ↑(0 + handles [r])) 0 :=
      retain_owns (.of_fact fun _ hw => hw)
    obtain ⟨hu', hsteady'⟩ := hretains.of_ok hlent ⟨hu, hhas⟩ hretain
    have hheld : u'.InOrder (others + handles [r]) :=
      hu'.1.of_eq (congrArg (others + ·) (zero_add (handles [r])).symm)
    obtain ⟨z, hz, hon⟩ := ending_ran (hbody r) (discardHandle_owns hrun r) hlent hheld hrest
    exact ⟨r, u', z, ⟨u, hnamed⟩, hheld, (hsteady.trans hsteady').toOnward, hz, hon⟩
  | value t =>
    obtain ⟨x, u, hread, hrest⟩ := bind_eq_ok.mp h
    obtain ⟨⟨hu, _⟩, hsteady⟩ := (readValue_owns t).of_ok hlent ⟨hbegun, trivial⟩ hread
    have hend : Owns lent (handles x.refs) (discardValue run x) (fun _ => (0 : Hands)) 0 :=
      discardValue_owns hrun x
    dsimp only at hrest
    rcases hrefs : x.refs with _ | ⟨r, _ | ⟨q, more⟩⟩
    · rw [hrefs] at hrest
      obtain ⟨_, hthrow, _⟩ := always_eq_ok.mp hrest
      cases hthrow
    · rw [hrefs] at hu hend hrest
      obtain ⟨z, hz, hon⟩ := ending_ran (hbody r) hend hlent hu hrest
      exact ⟨r, u, z, ⟨x, u, hread, hrefs⟩, hu, hsteady.toOnward, hz, hon⟩
    · rw [hrefs] at hrest
      obtain ⟨_, hthrow, _⟩ := always_eq_ok.mp hrest
      cases hthrow

theorem withContainer_ran {body : Nat → Kind → Act α}
    (hbody : ∀ r kind, Safe (lent + handles [r]) (body r kind) p) (hlent : lent ⊆ others)
    (hw : w.InOrder others) (h : withContainer run c body w = (.ok y, v)) :
    ∃ r d u z, w.Means r c ∧ u.InOrder (others + handles [r]) ∧ Onward w u ∧
      containerAt? u.cells r = some d ∧ body r d.kind u = (.ok y, z) ∧ Onward z v := by
  have htarget : ∀ r, Safe (lent + handles [r]) (do body r (← container r).kind) p := fun r =>
    of_container (.of_lent (by simp)) (.refl _) (Owns.bind (container_owns fun _ => And.right)
      fun d => Owns.weaken (hbody r d.kind) (entails_hands _) fun _ => .refl _)
  obtain ⟨r, u, z, hmeans, hu, hon, hz, hon'⟩ := withTarget_ran hrun htarget hlent hw h
  obtain ⟨d, u', hd, hran⟩ := bind_eq_ok.mp hz
  obtain ⟨rfl, hthere⟩ := container_eq_ok (hu.exists_of_mem (mem_add_handles others r)) hd
  exact ⟨r, d, u', z, hmeans, hu, hon, hthere, hran, hon'⟩

end

/-! ## walks -/

section
variable {β : Type} {q : β → Prop} {run : Runner} {others : Hands} {w v : World} {r : Nat}
  {visit : Nat → Yield → Act β} {results : List β}

/-- A walk from one world to the other has left a record behind, which is orderly if its container is
quiet. -/
def LeavesRecord (r : Nat) (visit : Nat → Yield → Act β) (w : World) (results : List β)
    (v : World) : Prop :=
  ∃ p earlier, v.passages = p :: earlier ∧ w.passages <:+ earlier ∧ p.Tells r visit w results v ∧
    (p.Quiet → p.Orderly)

theorem forEach_leavesRecord (hrun : run.Safe) (hw : w.InOrder others) (hr : .handle r ∈ others)
    (hvisit : ∀ n y, Owns others y.assets (visit n y) (fun b => plain 0 (q b)) 0)
    (h : forEach run r visit w = (.ok results, v)) : LeavesRecord r visit w results v := by
  have hlent := Multiset.Subset.refl others
  obtain ⟨p, earlier, hpassages, hearlier, htells⟩ := forEach_recorded hrun hvisit hlent hr hw h
  obtain ⟨hv, _⟩ := (forEach_safe hrun hr hvisit).of_ok hlent ⟨hw.of_eq (add_zero others), trivial⟩ h
  exact ⟨p, earlier, hpassages, hearlier, htells,
    (hv.1.passages p (hpassages ▸ List.mem_cons_self)).1⟩

/-- An operation that walks shows the visits of such a walk. -/
theorem perform_forEach_leavesRecord (hrun : run.Safe) {c : Target} {each : List Step}
    {atVisit : List (Nat × List Step)} {limit : Nat} {result : Result} (hw : w.InOrder others)
    (h : perform run (.forEach c each atVisit limit) w = (.ok result, v)) :
    ∃ r d visits u z, w.Means r c ∧ result = .visits visits true ∧ Onward w u ∧
      containerAt? u.cells r = some d ∧
      LeavesRecord r (World.visit run d.kind each atVisit limit) u visits z ∧ Onward z v := by
  rw [perform] at h
  obtain ⟨r, d, u, z, hmeans, hu, hon, hd, hz, hon'⟩ := withContainer_ran hrun (p := Anything)
    (fun r kind => (require_safe _).bind fun _ _ =>
      (forEach_safe hrun (mem_add_handles others r) (visit_owns hrun kind each atVisit limit)).bind
        fun _ _ => .pure trivial) (Multiset.Subset.refl others) hw h
  obtain ⟨_, u', hrequire, hwalks⟩ := bind_eq_ok.mp hz
  obtain rfl : u' = u := by
    unfold require at hrequire
    split at hrequire <;> cases hrequire
    rfl
  obtain ⟨visits, z', hwalk, hshown⟩ := bind_eq_ok.mp hwalks
  cases hshown
  exact ⟨r, d, visits, u', z, hmeans, rfl, hon, hd, forEach_leavesRecord hrun hu
    (mem_add_handles others r) (visit_owns hrun d.kind each atVisit limit) hwalk, hon'⟩

end

end World

open World Act Situation

/-- A whole walk over a quiet container, in any program and at any depth, visits live entries in order
of insertion, each once and as it is then.  When it ends it has visited every entry that is live, and
made no more visits than entries were live when it began or made since.  Only a limit of the run can
end it earlier, after as many visits.

What is on record is what happens: a walk that ends well leaves a record behind, of its own container
from its begin to its end, with one visit for each result, at which the user code was run with what is on
record there.  So does an operation that walks, whatever the program that it runs at its visits. -/
theorem passages_orderly :
    (∀ (limits : Limits) (tracing snapshots : Bool) (ops : List Op),
      ∀ p ∈ (Program.runFrom snapshots (.initial limits tracing) ops).2.passages, p.Quiet →
        p.Orderly ∧ (p.complete = true ∨ limits.rounds ≤ p.stops.length)) ∧
    ∀ (depth : Nat) (others : Hands) (w v : World), w.InOrder others →
      (∀ (β : Type) (q : β → Prop) (r : Nat) (visit : Nat → Yield → Act β) (results : List β),
        .handle r ∈ others → (∀ n y, Owns others y.assets (visit n y) (fun b => plain 0 (q b)) 0) →
        forEach (runSteps depth) r visit w = (.ok results, v) → LeavesRecord r visit w results v) ∧
      ∀ c each atVisit limit result,
        perform (runSteps depth) (.forEach c each atVisit limit) w = (.ok result, v) →
        ∃ r d visits u z, w.Means r c ∧ result = .visits visits true ∧ Onward w u ∧
          containerAt? u.cells r = some d ∧
          LeavesRecord r (visit (runSteps depth) d.kind each atVisit limit) u visits z ∧ Onward z v := by
  refine ⟨fun limits tracing snapshots ops p hp hquiet => ?_, fun depth others w v hw => ⟨?_, ?_⟩⟩
  · obtain ⟨_, hlast, hsteady⟩ := Program.runFrom_spec (resting_initial limits tracing) snapshots ops
    obtain ⟨horderly, hended⟩ := hlast.passages p hp
    have hlimits : (Program.runFrom snapshots (.initial limits tracing) ops).2.limits = limits :=
      hsteady.limits
    rw [hlimits] at hended
    exact ⟨horderly hquiet, hended⟩
  · intro β q r visit results hr hvisit h
    exact forEach_leavesRecord (runSteps_safe depth) hw hr hvisit h
  · intro c each atVisit limit result h
    exact perform_forEach_leavesRecord (runSteps_safe depth) hw h

/-- The first entry of a map is deleted and set again. -/
def again : List Step :=
  let key := Term.text .slice
  [.mk (.delete (.named "m") (key "a")) false,
    .mk (.insert (.named "m") (key "a") (.tracked 4 none none)) false]

/-- Three entries, the first of which is deleted and set again at its visit. -/
def resetting : List Op :=
  let key := Term.text .slice
  let stored (n : Int) := Payload.tracked n none none
  [.container .map "m" [(key "a", stored 1), (key "b", stored 2), (key "c", stored 3)],
    .forEach (.named "m") [] [(0, again)] 10]

/-- Every record of the world is of a quiet container, and has these visits. -/
def Visits (w : World) (entries : List Nat) : Bool :=
  w.passages.all fun p => p.moments.all calm && p.visited = entries

theorem quiet_of_visits {w : World} {entries : List Nat} {p : Passage} (h : Visits w entries = true)
    (hp : p ∈ w.passages) : p.Quiet ∧ p.visited = entries := by
  have hboth := List.all_eq_true.mp h p hp
  rw [Bool.and_eq_true, decide_eq_true_eq] at hboth
  exact ⟨fun objects ho => quiet_of_calm (List.all_eq_true.mp hboth.1 objects ho) _, hboth.2⟩

/-- The entry that was set again is visited last, by a fourth visit; and so it is, by a third one, if the
map has two entries. -/
theorem passages_orderly_resetting :
    (∃ p ∈ (Program.runFrom false (.initial ⟨100, 4, 20⟩ false) resetting).2.passages,
      p.Quiet ∧ p.Orderly ∧ p.complete = true ∧ p.visited = [0, 1, 2, 3]) ∧
    (∃ results v p, forEach (runSteps 4) 0 (visit (runSteps 4) .map [] [(0, again)] 10) filled =
        (.ok results, v) ∧ p ∈ v.passages ∧
      p.Tells 0 (visit (runSteps 4) .map [] [(0, again)] 10) filled results v ∧
      p.Quiet ∧ p.Orderly ∧ p.visited = [0, 1, 2]) ∧
    ∃ visits v r d u z, perform (runSteps 4) (.forEach (.named "m") [] [(0, again)] 10) filled =
        (.ok (.visits visits true), v) ∧ filled.Means r (.named "m") ∧ Onward filled u ∧
      containerAt? u.cells r = some d ∧
      LeavesRecord r (visit (runSteps 4) d.kind [] [(0, again)] 10) u visits z ∧ Onward z v := by
  obtain ⟨hprograms, hworlds⟩ := passages_orderly
  refine ⟨?_, ?_, ?_⟩
  · have hvisits : Visits (Program.runFrom false (.initial ⟨100, 4, 20⟩ false) resetting).2 [0, 1, 2, 3] =
        true := by decide +kernel
    have hcomplete : ∃ p ∈ (Program.runFrom false (.initial ⟨100, 4, 20⟩ false) resetting).2.passages,
        p.complete = true := by decide +kernel
    obtain ⟨p, hp, hcomplete⟩ := hcomplete
    obtain ⟨hquiet, hvisited⟩ := quiet_of_visits hvisits hp
    exact ⟨p, hp, hquiet, (hprograms _ _ _ _ p hp hquiet).1, hcomplete, hvisited⟩
  · have hends : (forEach (runSteps 4) 0 (visit (runSteps 4) .map [] [(0, again)] 10) filled).1.toBool =
        true := by decide +kernel
    have hvisits : Visits (forEach (runSteps 4) 0
        (visit (runSteps 4) .map [] [(0, again)] 10) filled).2 [0, 1, 2] = true := by decide +kernel
    obtain ⟨results, hwalk⟩ := ok_of_toBool hends
    obtain ⟨p, earlier, hpassages, _, htells, horderly⟩ := (hworlds 4 _ filled _ filled_inOrder).1
      _ _ 0 _ results (by simp) (visit_owns (runSteps_safe 4) .map [] [(0, again)] 10) hwalk
    have hp := List.mem_cons_self (a := p) (l := earlier)
    rw [← hpassages] at hp
    obtain ⟨hquiet, hvisited⟩ := quiet_of_visits hvisits hp
    exact ⟨results, _, p, hwalk, hp, htells, hquiet, horderly hquiet, hvisited⟩
  · have hends : (perform (runSteps 4) (.forEach (.named "m") [] [(0, again)] 10) filled).1.toBool =
        true := by decide +kernel
    obtain ⟨result, hshown⟩ := ok_of_toBool hends
    obtain ⟨r, d, visits, u, z, hmeans, rfl, hbefore, hd, hrecord, hafter⟩ :=
      (hworlds 4 _ filled _ filled_inOrder).2 _ _ _ _ _ hshown
    exact ⟨visits, _, r, d, u, z, hshown, hmeans, hbefore, hd, hrecord, hafter⟩

end LiveOrder
