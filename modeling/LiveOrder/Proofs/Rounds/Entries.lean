import LiveOrder.Proofs.Rounds.Releases
import LiveOrder.Proofs.World.Entries

/-!
# The operations by key end

They have no loops of their own.  A store operation needs that the stores are sound, and keeps them so.

* `ask_ends`, `copyItem_ends`   user code in searches and copies;
* `onStore_ends`    a store operation that moves no cursor;
* `upsert_ends`, `putEach_ends`, `delete_ends`, `clear_ends`, `has_ends`, `lookup_ends`.
-/

namespace LiveOrder.World

open Act Table

variable {α : Type} {R : World → World → Prop} [Lax R] {run : Runner} {r : Nat}

/-! ## user code in searches and copies -/

theorem setQuiet_ends (quiet : Bool) : Ends R (modify fun w : World => { w with quiet }) Anything :=
  .modify (fun _ _ => rfl) fun _ => .of_same rfl

section
variable (hrun : run.Ends)
include hrun

theorem ask_ends (q : Query) : Ends R (ask run q) Anything := by
  induction q with
  | plain k => exact .pure trivial
  | reference q ih => exact ih
  | counted q ih =>
    refine .get_bind (fun _ _ => by rw [showKey_upTo]) fun w _ => ?_
    exact (log_ends (.asked fun l hl => by cases hl)).bind fun _ _ => ih
  | reacting q body ih =>
    refine (hrun.run body).bind fun acts hacts => .get_bind (fun _ _ => by rw [showKey_upTo]) fun w _ => ?_
    refine (log_ends (.asked fun l hl => ?_)).bind fun _ _ => ih
    cases hl
    exact hacts

theorem copyItem_ends (i : Item) : Ends R (copyItem run i) Anything := by
  cases i with
  | unit => exact .pure trivial
  | copy n => exact .pure trivial
  | value v => exact (retainAll_ends _).bind fun _ _ => .pure trivial
  | tracked id n onRelease onCopy =>
    cases onCopy with
    | none => exact .pure trivial
    | some body =>
      refine .get_bind (fun _ _ => rfl) fun w _ => ?_
      split
      · exact .pure trivial
      · refine (setQuiet_ends true).bind fun _ _ => ?_
        refine ((hrun.run body).always (setQuiet_ends false)).bind fun acts hacts => ?_
        exact (log_ends (.copied hacts)).bind fun _ _ => .pure trivial

end

/-! ## store operations -/

/-- A store operation that takes and gives no pin. -/
theorem onStore_ends {f : Store Item → Except Fault (α × Store Item)} {taken : Hands} {given : α → Hands}
    (hf : Moves f taken none given fun _ => none) : Ends Anyhow (onStore r f) Anything := by
  intro pins w hw
  cases hc : containerAt? w.cells r with
  | none =>
    obtain ⟨e, v, he, hslight, hne⟩ := container_absent hc
    refine ⟨.error e, v, .of_eq fun n => ?_, .of_slight hslight, hw.slight hslight, hne⟩
    rw [onStore, bind_apply, he n]
  | some c =>
    have hw' : w.Footed (pinned r none ++ pins) := hw
    obtain ⟨y, t, hy, ht⟩ := hw'.storing hc hf
    exact ⟨.ok y, w.changed r { c with store := t }, .of_eq fun n => onStore_eq (w := w.upTo n) hc hy,
      .unspent rfl rfl (Nat.le_refl _), ht _ rfl, trivial⟩

theorem enter_ends (r : Nat) (i : Item) : Ends R (enter r i) Anything := by
  cases i with
  | tracked id n onRelease onCopy => exact .modify (fun _ _ => rfl) fun _ => .of_same rfl
  | _ => exact .pure trivial

theorem register_ends (r : Nat) (given : Key) (outcome : Upsert Item) :
    Ends R (register r given outcome) Anything := by
  cases outcome with
  | inserted s => exact .modify (fun _ _ => rfl) fun _ => .of_same rfl
  | updated s key previous => exact .pure trivial

theorem place_ends (given stored : Key) (item : Item) : Ends Anyhow (place r given stored item) Anything :=
  (onStore_ends (upsert_moves stored item)).bind fun outcome _ =>
    (register_ends r given outcome).bind fun _ _ => .pure trivial

section
variable (hrun : run.Ends)
include hrun

theorem upsert_ends (q : Query) (item : Item) : Ends Anyhow (upsert run r q item) Anything := by
  have hrejected : Ends Anyhow (discard run [.item item, .key q.key]) Anything := discard_ends hrun _
  refine exclusivelyOr_ends hrejected (Ends.onFailure ?_ hrejected)
  refine (container_ends r).bind fun c _ => searching_ends ((ask_ends hrun _).bind fun _ _ => ?_)
  exact (enter_ends r item).bind fun _ _ => place_ends q.key _ item

theorem putEach_ends (entries : List (Query × Item)) : Ends Anyhow (putEach run r entries) Anything := by
  induction entries with
  | nil => exact .pure trivial
  | cons e rest ih =>
    obtain ⟨q, item⟩ := e
    rw [putEach]
    refine Ends.bind (Ends.onFailure (p := Anything) ?_ (discard_ends hrun _)) fun _ _ => ih
    refine (upsert_ends hrun q item).bind fun outcome _ => ?_
    cases outcome with
    | inserted s => exact .pure trivial
    | updated s key previous => exact discard_ends hrun _

theorem delete_ends (q : Query) : Ends Anyhow (delete run r q) Anything := by
  refine Ends.bind (exclusively_ends (searching_ends ((ask_ends hrun q).bind fun _ _ =>
    onStore_ends (remove_moves q.key)))) fun freed _ => ?_
  cases freed with
  | none => exact .pure trivial
  | some freed =>
    exact (tell_ends _).bind fun _ _ => (discard_ends hrun _).bind fun _ _ => .pure trivial

theorem clear_ends (r : Nat) : Ends Anyhow (clear run r) Anything :=
  (exclusively_ends (searching_ends (onStore_ends clear_moves))).bind fun _ _ =>
    (tell_ends _).bind fun _ _ => discard_ends hrun _

/-! ## reading -/

theorem has_ends (q : Query) : Ends R (has run r q) Anything :=
  sharing_ends (searching_ends ((ask_ends hrun q).bind fun _ _ => readStore_ends r _))

theorem lookup_ends (q : Query) : Ends R (lookup run r q) Anything := by
  refine sharing_ends (Ends.bind (searching_ends ((ask_ends hrun q).bind fun _ _ => readStore_ends r _))
    fun found _ => ?_)
  cases found with
  | none => exact .pure trivial
  | some e => exact (copyItem_ends hrun e.2).bind fun _ _ => .pure trivial

end

end LiveOrder.World
