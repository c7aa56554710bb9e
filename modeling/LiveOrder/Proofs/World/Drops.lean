import LiveOrder.Proofs.World.Refusals

/-!
# Releases, one after the other

* `Drops`           pieces go away in order, and what one of them sets free goes before those after it;
                    the program of a reaction runs in the world that there is by then;
* `Drops.append`, `Drops.unique`   pieces of two lists; there is one world in the end;
* `discard_drops`   a release does this, or is given up at the limit of the run;
* `World.Stays`     a container is in the use that it was in, which says what is refused of it;
* `stays_of_later`  it is at any later time.
-/

namespace LiveOrder

namespace Debris

/-- What a piece leads to that neither reacts nor is a handle. -/
def parts? : Debris → Option (List Debris)
  | .item .unit | .item (.copy _) => some []
  | .item (.value v) => some (v.refs.map .handle)
  | .key k => some (k.refs.map .handle)
  | .item (.tracked ..) | .handle _ => none

end Debris

namespace World

open Act Situation Table

/-- One piece more has been taken up. -/
def counted (w : World) : World := { w with discarded := w.discarded + 1 }

/-- A tracked number is not there any more. -/
def parted (w : World) (id : Nat) : World := { w with releases := ⟨id, w.cells⟩ :: w.releases }

def logging (w : World) (e : Event) : World := (log e w).2

/-- Pieces go away, with this outcome.  `Ready` holds whenever a reaction begins. -/
inductive Drops (run : Runner) (Ready : World → Prop) :
    List Debris → World → Except Failure Unit → World → Prop where
  | none (w : World) : Drops run Ready [] w (.ok ()) w
  | plain {d : Debris} {parts rest : List Debris} {w v : World} {o : Except Failure Unit} :
      d.parts? = some parts → Drops run Ready (parts ++ rest) w.counted o v →
      Drops run Ready (d :: rest) w o v
  | silent {id : Nat} {n : Int} {onCopy : Option (List Step)} {rest : List Debris} {w v : World}
      {o : Except Failure Unit} :
      Drops run Ready rest ((w.counted.parted id).logging (.released n .none)) o v →
      Drops run Ready (.item (.tracked id n .none onCopy) :: rest) w o v
  | reacts {id : Nat} {n : Int} {body : List Step} {onCopy : Option (List Step)} {acts : List Answer}
      {rest : List Debris} {w u v : World} {o : Except Failure Unit} :
      Ready (w.counted.parted id) → run body (w.counted.parted id) = (.ok acts, u) →
      Drops run Ready rest (u.logging (.released n (some acts))) o v →
      Drops run Ready (.item (.tracked id n (some body) onCopy) :: rest) w o v
  /-- the pieces after a reaction that fails go away all the same -/
  | fails {id : Nat} {n : Int} {body : List Step} {onCopy : Option (List Step)} {e : Failure}
      {rest : List Debris} {w u v : World} {o : Except Failure Unit} :
      Ready (w.counted.parted id) → run body (w.counted.parted id) = (.error e, u) →
      Drops run Ready rest u o v →
      Drops run Ready (.item (.tracked id n (some body) onCopy) :: rest) w (.error (e.leaving o)) v
  | shared {r : Nat} {d : Cell} {rest : List Debris} {w v : World} {o : Except Failure Unit} :
      get? r w.cells = some d → 1 < d.handles →
      Drops run Ready rest { w.counted with
        cells := change r (fun e => { e with handles := d.handles - 1 }) w.cells } o v →
      Drops run Ready (.handle r :: rest) w o v
  /-- the last handle on an object -/
  | last {r : Nat} {d : Cell} {rest : List Debris} {w v : World} {o : Except Failure Unit} :
      get? r w.cells = some d → d.handles ≤ 1 →
      Drops run Ready (d.body.contents ++ rest) { w.counted with cells := erase r w.cells } o v →
      Drops run Ready (.handle r :: rest) w o v
  /-- given up at the limit of the run -/
  | limit (pieces : List Debris) (w : World) :
      Drops run Ready pieces w (.error .exhausted) { w with abandoned := pieces ++ w.abandoned }

variable {run : Runner} {Ready : World → Prop} {w u v : World} {others : Hands} {r n : Nat}
  {pieces more : List Debris} {o : Except Failure Unit} {c d : Container}

namespace Drops

/-- The pieces of two lists go away if those of one do and then those of the other. -/
theorem append (h : Drops run Ready pieces w (.ok ()) u) (h' : Drops run Ready more u o v) :
    Drops run Ready (pieces ++ more) w o v := by
  generalize ho : (.ok () : Except Failure Unit) = o' at h
  induction h with
  | none w => exact h'
  | plain hparts _ ih => exact .plain hparts (List.append_assoc .. ▸ ih h' ho)
  | silent _ ih => exact .silent (ih h' ho)
  | reacts hready hrun _ ih => exact .reacts hready hrun (ih h' ho)
  | fails => cases ho
  | shared hd hmany _ ih => exact .shared hd hmany (ih h' ho)
  | last hd hone _ ih => exact .last hd hone (List.append_assoc .. ▸ ih h' ho)
  | limit => cases ho

/-- Pieces that all go away leave one world. -/
theorem unique {Ready' : World → Prop} (h : Drops run Ready pieces w (.ok ()) u)
    (h' : Drops run Ready' pieces w (.ok ()) v) : u = v := by
  generalize ho : (.ok () : Except Failure Unit) = o' at h
  induction h with
  | none w =>
    cases h'
    rfl
  | plain hparts _ ih =>
    cases h' with
    | plain hparts' h' =>
      rw [hparts, Option.some.injEq] at hparts'
      subst hparts'
      exact ih h' ho
    | silent => cases hparts
    | reacts => cases hparts
    | shared => cases hparts
    | last => cases hparts
  | silent _ ih =>
    cases h' with
    | plain hparts' => cases hparts'
    | silent h' => exact ih h' ho
  | reacts _ hrun _ ih =>
    cases h' with
    | plain hparts' => cases hparts'
    | reacts _ hrun' h' =>
      rw [hrun, Prod.mk.injEq, Except.ok.injEq] at hrun'
      obtain ⟨rfl, rfl⟩ := hrun'
      exact ih h' ho
  | fails => cases ho
  | shared hd hmany _ ih =>
    cases h' with
    | plain hparts' => cases hparts'
    | shared hd' _ h' =>
      rw [hd, Option.some.injEq] at hd'
      subst hd'
      exact ih h' ho
    | last hd' hone =>
      rw [hd, Option.some.injEq] at hd'
      subst hd'
      exact absurd hmany (Nat.not_lt.mpr hone)
  | last hd hone _ ih =>
    cases h' with
    | plain hparts' => cases hparts'
    | shared hd' hmany =>
      rw [hd, Option.some.injEq] at hd'
      subst hd'
      exact absurd hmany (Nat.not_lt.mpr hone)
    | last hd' _ h' =>
      rw [hd, Option.some.injEq] at hd'
      subst hd'
      exact ih h' ho
  | limit => cases ho

end Drops

/-! ## what a release does -/

/-- A later world, with the same in other hands. -/
def Later (w : World) (others : Hands) (u : World) : Prop :=
  Onward w u ∧ ∃ hands, u.InOrder (others + hands)

theorem Later.from {z : World} (h : u.Later others z) (hwu : Onward w u) : w.Later others z :=
  ⟨hwu.trans h.1, h.2⟩

theorem Later.of_more {more : Hands} (h : w.Later (others + more) u) : w.Later others u := by
  obtain ⟨hon, hands, hu⟩ := h
  exact ⟨hon, more + hands, hu.of_eq (add_assoc _ _ _).symm⟩

theorem steady_parted (w : World) (id : Nat) : Steady w (w.counted.parted id) :=
  (steady_count w).trans (.of_same rfl rfl)

/-- A reaction begins when its number is gone. -/
theorem later_parted {id : Nat} (hw : w.InOrder (others + tracking id)) :
    w.Later others (w.counted.parted id) :=
  ⟨(steady_parted w id).toOnward, 0, hw.count.releaseNumber.of_eq (add_zero others)⟩

theorem discardOne_plain {d : Debris} {parts : List Debris} (h : d.parts? = some parts) (run : Runner) :
    discardOne run d = pure parts := by
  cases d with
  | key k =>
    cases h
    rfl
  | handle r => cases h
  | item i =>
    cases i with
    | tracked id n onRelease onCopy => cases h
    | _ =>
      cases h
      rfl

theorem discardWithin_cons (run : Runner) (n : Nat) (d : Debris) (rest : List Debris) (w : World) :
    discardWithin run (n + 1) (d :: rest) w =
      match discardOne run d w.counted with
      | (.ok more, u) => discardWithin run n (more ++ rest) u
      | (.error e, u) =>
        (.error (e.leaving (discardWithin run n rest u).1), (discardWithin run n rest u).2) := by
  have hfirst : discardWithin run (n + 1) (d :: rest) w =
      (onFailure (discardOne run d) (discardWithin run n rest) >>= fun more =>
        discardWithin run n (more ++ rest)) w.counted := rfl
  rw [hfirst, bind_apply, onFailure_apply]
  rcases discardOne run d w.counted with ⟨e | more, u⟩ <;> rfl

/-- One piece goes away, before what it sets free and the pieces after it. -/
theorem Drops.step (run : Runner) {p : Debris} (hw : w.InOrder (others + p.assets))
    (hready : ∀ u, w.Later others u → Ready u) (rest : List Debris) :
    match discardOne run p w.counted with
    | (.ok more, u) => ∀ o v, Drops run Ready (more ++ rest) u o v → Drops run Ready (p :: rest) w o v
    | (.error e, u) => ∀ o v, Drops run Ready rest u o v →
        Drops run Ready (p :: rest) w (.error (e.leaving o)) v := by
  cases hparts : p.parts? with
  | some parts =>
    rw [discardOne_plain hparts]
    exact fun _ _ h => .plain hparts h
  | none =>
    cases p with
    | key k => cases hparts
    | handle r =>
      obtain ⟨d, hd⟩ := hw.exists_of_mem (r := r) (Multiset.mem_add.mpr (.inr (by simp [Debris.assets])))
      rw [discardOne, releaseHandle_eq (w := w.counted) hd]
      by_cases hlast : d.handles ≤ 1
      · rw [if_pos hlast]
        exact fun _ _ h => .last hd hlast h
      · rw [if_neg hlast]
        exact fun _ _ h => .shared hd (Nat.lt_of_not_le hlast) h
    | item i =>
      cases i with
      | tracked id n onRelease onCopy =>
        have hbegin : Ready (w.counted.parted id) := hready _ (later_parted hw)
        cases onRelease with
        | none => exact fun _ _ h => .silent h
        | some body =>
          have hone : discardOne run (.item (.tracked id n (some body) onCopy)) w.counted =
              (do
                let acts ← run body
                log (.released n (some acts))
                pure [] : Act (List Debris)) (w.counted.parted id) := by
            rw [discardOne, releaseTracked, bind_assoc, modify_bind_apply, bind_assoc]
            rfl
          rw [hone, bind_apply]
          rcases hr : run body (w.counted.parted id) with ⟨e | acts, u⟩
          · exact fun _ _ h => .fails hbegin hr h
          · exact fun _ _ h => .reacts hbegin hr h
      | _ => cases hparts

/-- As many pieces as there is time for. -/
theorem discardWithin_drops (hrun : run.Safe) (hw : w.InOrder (others + piecesOf pieces))
    (hready : ∀ u, w.Later others u → Ready u) (h : discardWithin run n pieces w = (o, v)) :
    Drops run Ready pieces w o v := by
  induction n generalizing pieces w o others with
  | zero =>
    cases pieces with
    | nil =>
      cases h
      exact .none _
    | cons d rest =>
      cases h
      exact .limit _ w
  | succ n ih =>
    cases pieces with
    | nil =>
      cases h
      exact .none _
    | cons p rest =>
      have hone : w.InOrder (others + piecesOf rest + p.assets) := hw.of_eq (by
        rw [piecesOf_cons]
        abel)
      obtain ⟨outcome, u, hdiscard, hu, hsteady⟩ := (discardOne_settles hrun p).apply
        (Multiset.zero_subset _) ⟨hone.count, trivial⟩
      have hon : Onward w u := (steady_count w).toOnward.trans hsteady.toOnward
      have hstep := Drops.step run hone (fun z hz => hready z hz.of_more) rest
      rw [discardWithin_cons] at h
      rw [show discardOne run p w.counted = (outcome, u) from hdiscard] at h hstep
      have hlater : ∀ z, u.Later others z → Ready z := fun z hz => hready z (hz.from hon)
      cases outcome with
      | error e =>
        dsimp only at h hstep
        cases h
        exact hstep _ _ (ih (hu.1.of_eq (add_zero _).symm) hlater rfl)
      | ok more =>
        refine hstep _ _ (ih (hu.1.of_eq ?_) hlater h)
        rw [piecesOf_append]
        show others + (piecesOf more + piecesOf rest) = others + piecesOf rest + piecesOf more
        abel

theorem discard_drops (hrun : run.Safe) (hw : w.InOrder (others + piecesOf pieces))
    (hready : ∀ u, w.Later others u → Ready u) (h : discard run pieces w = (o, v)) :
    Drops run Ready pieces w o v :=
  discardWithin_drops hrun hw hready h

/-! ## what stays in use -/

/-- The container, if it is there, is in the use that it was in, and operations on it are refused
accordingly. -/
structure Stays (others : Hands) (r : Nat) (c : Container) (w : World) : Prop where
  /-- somebody has it -/
  there : .handle r ∈ others → w.HasContainer r
  use : ∀ f, containerAt? w.cells r = some f → f.form = c.form ∧ w.Refusals r c.uses

theorem stays_of_later (hd : containerAt? w.cells r = some d) (hform : d.form = c.form)
    (hr : r < w.fresh) (hu : w.Later others u) : u.Stays others r c := by
  obtain ⟨hon, hands, hu⟩ := hu
  refine ⟨fun hothers => ?_, fun f hf => ?_⟩
  · obtain ⟨f, hf, _⟩ := container_of_onward hon hd hr
      (hu.exists_of_mem (Multiset.mem_add.mpr (.inl hothers)))
    exact ⟨f, hf⟩
  have hfu : formAt u.cells r = some f.form := formAt_eq_some_iff.mpr ⟨f, hf, rfl⟩
  have hdw : formAt w.cells r = some d.form := formAt_eq_some_iff.mpr ⟨d, hd, rfl⟩
  have hsame : f.form = c.form := by
    rcases hon.forms hfu with hold | ⟨hnew, _⟩
    · rw [hdw, Option.some.injEq] at hold
      rw [← hold, hform]
    · exact absurd hr (Nat.not_lt.mpr hnew)
  have huses : f.uses = c.uses := (Form.container.inj hsame).2.2.2
  exact ⟨hsame, huses ▸ refusals (hu.books.guarded hf) hu.cells hf⟩

end World

end LiveOrder
