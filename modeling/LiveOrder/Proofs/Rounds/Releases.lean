import Mathlib.Algebra.Order.BigOperators.Group.Finset
import LiveOrder.Proofs.Rounds.Rules
import LiveOrder.Proofs.World.Drops

/-!
# Releases end by themselves

The last handle on an object gives up what the object holds, and the object is gone.  So the pieces that
are to be released and the objects that are left get less from piece to piece, unless a reaction runs an
operation.

* `Debris.weight`, `World.weight`   how many pieces a piece and the objects may come to;
* `discardOne_ends`   what becomes of the weight when one piece is released;
* `discardWithin_ends`   so a release ends, by induction on the operations that are left and the weight;
* `discard_ends`, `holding_ends`   a release, and an action with a handle of its own.
-/

namespace LiveOrder

/-! ## weights -/

namespace Debris

/-- The piece, and the handles that it holds. -/
def weight : Debris → Nat
  | .item i => i.refs.length + 1
  | .key k => k.refs.length + 1
  | .handle _ => 1

end Debris

def weightOf (pieces : List Debris) : Nat := (pieces.map Debris.weight).sum

@[simp] theorem weightOf_nil : weightOf [] = 0 := rfl

@[simp] theorem weightOf_cons (d : Debris) (pieces : List Debris) :
    weightOf (d :: pieces) = d.weight + weightOf pieces := List.sum_cons

@[simp] theorem weightOf_append (pieces more : List Debris) :
    weightOf (pieces ++ more) = weightOf pieces + weightOf more := by
  simp [weightOf]

@[simp] theorem weightOf_handles (refs : List Nat) : weightOf (refs.map .handle) = refs.length := by
  induction refs with
  | nil => rfl
  | cons r rest ih => rw [List.map_cons, weightOf_cons, ih, List.length_cons, Debris.weight, Nat.add_comm]

/-- What the last handle on an object gives up. -/
def weightAt (cells : Objects) (r : Nat) : Nat :=
  (Table.get? r cells).elim 0 fun d => weightOf d.body.contents

namespace World

open Act Table

/-- What all objects hold. -/
def weight (w : World) : Nat := ∑ r ∈ Finset.range w.fresh, weightAt w.cells r

variable {w v : World} {pins : List (Nat × Nat)} {r : Nat}

/-- What has gone away was held by the others no more. -/
theorem weight_erase (hr : r < w.fresh) :
    { w with cells := erase r w.cells }.weight + weightAt w.cells r = w.weight := by
  have herase : ∀ q, weightAt (erase r w.cells) q = if q = r then 0 else weightAt w.cells q := by
    intro q
    unfold weightAt
    rw [get?_erase]
    split <;> rfl
  have hmem : r ∈ Finset.range w.fresh := Finset.mem_range.mpr hr
  unfold weight
  rw [← Finset.add_sum_erase _ _ hmem, ← Finset.add_sum_erase _ (weightAt w.cells) hmem]
  have hrest : ∑ q ∈ (Finset.range w.fresh).erase r, weightAt (erase r w.cells) q =
      ∑ q ∈ (Finset.range w.fresh).erase r, weightAt w.cells q :=
    Finset.sum_congr rfl fun q hq => by rw [herase, if_neg (Finset.ne_of_mem_erase hq)]
  show weightAt (erase r w.cells) r + _ + _ = _
  rw [herase, if_pos rfl, hrest, Nat.zero_add, Nat.add_comm]

end World

/-- Where no container holds anything new, the objects do not come to more. -/
theorem Unmoved.weight_le {w v : World} (h : Unmoved w v) : v.weight ≤ w.weight := by
  unfold World.weight
  rw [h.fresh]
  refine Finset.sum_le_sum fun r _ => ?_
  unfold weightAt
  cases hd : Table.get? r v.cells with
  | none => exact Nat.zero_le _
  | some d =>
    obtain ⟨n, body⟩ := d
    cases body with
    | function f => exact Nat.zero_le _
    | allocation s => exact Nat.zero_le _
    | container c =>
      obtain ⟨e, he, hstore⟩ := h.stores (containerAt?_eq_some_iff.mpr ⟨n, hd⟩)
      obtain ⟨m, hm⟩ := containerAt?_eq_some_iff.mp he
      rw [hm]
      show weightOf (World.debrisOf c.store.contents) ≤ weightOf (World.debrisOf e.store.contents)
      rw [hstore]

/-- What is measured by operations that are left, and by something else when none has been run. -/
theorem Spends.lex {R : World → World → Prop} {w v : World} (h : Spends R w v) {m n : Nat}
    (hless : v.spent = w.spent → m < n) :
    Prod.Lex (· < ·) (· < ·) (v.limits.ops - v.spent, m) (w.limits.ops - w.spent, n) := by
  by_cases hspent : v.spent = w.spent
  · rw [h.limits, hspent]
    exact .right _ (hless hspent)
  · exact .left _ _ (h.left_lt hspent)

namespace World

open Act Table

/-- What is handed back, with all that is left, comes to less than it did with a piece of this weight,
unless something is run. -/
def Lessens (w : World) (pins : List (Nat × Nat)) (x : Act (List Debris)) (n : Nat) : Prop :=
  ∃ o v, Reaches x w o v ∧ Spends Unmoved w v ∧ v.Footed pins ∧ Wholly Anything o ∧
    (v.spent = w.spent → weightOf (o.toOption.getD []) + v.weight < n + w.weight)

section
variable {run : Runner} (hrun : run.Ends) {w : World} {pins : List (Nat × Nat)}
include hrun

theorem releaseTracked_ends {R : World → World → Prop} [Lax R] (id : Nat) (n : Int)
    (onRelease : Option (List Step)) : Ends R (releaseTracked run id n onRelease) Anything := by
  refine Ends.bind (.modify (fun _ _ => rfl) fun _ => .of_same rfl) fun _ _ => ?_
  cases onRelease with
  | none => exact log_ends (.released fun l hl => by cases hl)
  | some body =>
    refine (hrun.run body).bind fun acts hacts => log_ends (.released fun l hl => ?_)
    cases hl
    exact hacts

omit hrun in
/-- The last handle gives up what the object held, and the object is gone. -/
theorem releaseHandle_ends (r : Nat) (hw : w.Footed pins) :
    w.Lessens pins (releaseHandle r) 1 := by
  cases hd : get? r w.cells with
  | none =>
    have hslight : Slight w { w with faults := .dangling r :: w.faults } := .of_same rfl
    refine ⟨.error (.dangling r), _, .of_eq fun n => ?_, .of_slight hslight, hw.slight hslight, id,
      fun _ => ?_⟩
    · rw [releaseHandle, bind_apply, cell_eq_none (w := w.upTo n) hd]
      rfl
    · show 0 + w.weight < 1 + w.weight
      omega
  | some d =>
    by_cases hlast : d.handles ≤ 1
    · have hslight : Slight w { w with cells := erase r w.cells } :=
        .of_cells (fun hc => ⟨_, containerAt?_of_erase hc, rfl⟩) fun {q} hq => by
          rw [get?_erase, hq]
          exact ite_self _
      have hweight : weightAt w.cells r = weightOf d.body.contents := by
        rw [weightAt, hd]
        rfl
      have hlt : r < w.fresh := Nat.lt_of_not_le fun hle => by
        rw [(hw.fresh hle).1] at hd
        cases hd
      refine ⟨.ok d.body.contents, _, .of_eq fun n => ?_, .of_slight hslight, hw.slight hslight, trivial,
        fun _ => ?_⟩
      · exact (releaseHandle_eq (w := w.upTo n) hd).trans (if_pos hlast)
      · have herase := weight_erase hlt
        show weightOf d.body.contents + _ < _
        omega
    · have hslight := slight_setHandles w r (d.handles - 1)
      refine ⟨.ok [], _, .of_eq fun n => ?_, .of_slight hslight, hw.slight hslight, trivial, fun _ => ?_⟩
      · exact (releaseHandle_eq (w := w.upTo n) hd).trans (if_neg hlast)
      · have hle := hslight.toUnmoved.weight_le
        show 0 + _ < _
        omega

/-- A piece comes to less than itself, unless something is run. -/
theorem discardOne_ends (d : Debris) (hw : w.Footed pins) :
    w.Lessens pins (discardOne run d) d.weight := by
  have hparts : ∀ refs : List Nat, discardOne run d = pure (refs.map .handle) →
      refs.length < d.weight → w.Lessens pins (discardOne run d) d.weight := by
    intro refs he hlt
    refine ⟨.ok (refs.map .handle), w, .of_eq fun n => he ▸ rfl, .refl w, hw, trivial, fun _ => ?_⟩
    show weightOf (refs.map .handle) + w.weight < _
    rw [weightOf_handles]
    omega
  cases d with
  | key k => exact hparts k.refs rfl (Nat.lt_succ_self _)
  | handle r => exact releaseHandle_ends r hw
  | item i =>
    cases i with
    | unit => exact hparts [] rfl (Nat.succ_pos _)
    | copy n => exact hparts [] rfl (Nat.succ_pos _)
    | value v => exact hparts v.refs rfl (Nat.lt_succ_self _)
    | tracked id n onRelease onCopy =>
      have hpiece : Ends Unmoved (discardOne run (.item (.tracked id n onRelease onCopy))) (· = []) :=
        (releaseTracked_ends hrun id n onRelease).bind fun _ _ => .pure rfl
      obtain ⟨o, v, hx, hspends, hv, ho⟩ := hpiece pins w hw
      have hnothing : o.toOption.getD [] = [] := by
        cases o with
        | ok more => exact ho
        | error e => rfl
      refine ⟨o, v, hx, hspends, hv, ?_, fun hspent => ?_⟩
      · cases o with
        | ok more => trivial
        | error e => exact ho
      · have hle := (hspends.idle hspent).weight_le
        rw [hnothing, weightOf_nil, Debris.weight]
        omega

/-- A release ends with enough rounds. -/
theorem discardWithin_ends (pieces : List Debris) {w : World} (hw : w.Footed pins) :
    EndsWithin w pins Unmoved (discardWithin run · pieces) Anything := by
  cases pieces with
  | nil => exact ⟨.ok (), w, ⟨0, fun n k _ _ => by cases k <;> rfl⟩, .refl w, hw, trivial⟩
  | cons d rest =>
    have hcounted : Slight w w.counted := .of_same rfl
    obtain ⟨o, v, hone, hspends, hv, ho, hless⟩ := discardOne_ends hrun d (hw.slight hcounted)
    have hstart : Spends Unmoved w v := (Spends.of_slight hcounted).trans hspends
    have hweight : v.spent = w.spent →
        weightOf (o.toOption.getD [] ++ rest) + v.weight < weightOf (d :: rest) + w.weight := by
      intro hspent
      have hlt := hless hspent
      have hsame : w.counted.weight = w.weight := rfl
      rw [weightOf_append, weightOf_cons]
      omega
    have hrest := hstart.lex hweight
    have hcount : Reaches (modify fun w => { w with discarded := w.discarded + 1 }) w (.ok ()) w.counted :=
      .of_eq fun _ => rfl
    refine .succ (.after hcount.within (.of_slight hcounted) ?_)
    cases o with
    | error e =>
      obtain ⟨o', z, hz, hspends', hfooted, ho'⟩ := discardWithin_ends rest hv
      refine ⟨.error (e.leaving o'), z, (hone.within.onFailure_error hz).bind_error,
        hspends.trans hspends', hfooted, ?_⟩
      refine Failure.not_leaving (P := Failure.GivenUp) ho fun g hg => ?_
      rw [hg] at ho'
      exact ho'
    | ok more => exact .after hone.within.onFailure hspends (discardWithin_ends (more ++ rest) hv)
termination_by (w.limits.ops - w.spent, weightOf pieces + w.weight)
decreasing_by
  · exact hrest
  · exact hrest

theorem discard_ends {R : World → World → Prop} [Lax R] (pieces : List Debris) :
    Ends R (discard run pieces) Anything := by
  have h : Ends Unmoved (discard run pieces) Anything := fun _ _ hw =>
    (discardWithin_ends hrun pieces hw).endsFrom
  exact h.mono Lax.of_unmoved

/-- An action with a handle of its own. -/
theorem holding_ends {α : Type} {R : World → World → Prop} [Lax R] {x : Act α} {p : α → Prop} (r : Nat)
    (hx : Ends R x p) : Ends R (holding run r x) p :=
  (retain_ends r).bind fun _ _ => hx.always (discard_ends hrun [.handle r])

end

end World

end LiveOrder
