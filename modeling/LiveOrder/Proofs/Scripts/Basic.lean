import LiveOrder.Proofs.World.Access

/-!
# Script programs and their worlds

A script program makes script containers only, which hold script values.  Then no key runs user code
when it is asked for its token, and no stored value when it is copied or released.

* `Step.Scripted`, `Op.Scripted`   programs that make no other containers, at any depth;
* `Answer.Peaceful`    no refusal and no leaked pin, at any depth;
* `Grip`               what the operations that go on have hold of;
* `World.pins`         the pins on the entries of all containers, each with its owner's container;
* `World.Gentle`       what is true of the world of a script program at any time;
* `Gentle.setHandles`, `.erase`, `.rows`, `.setBody`, `.storing`, `.append`   it stays so when a table is
  changed.

Containers are in use only as far as the grip says.  Whenever user code runs the grip is empty.
-/

namespace LiveOrder

/-! ## programs -/

namespace Kind

/-- The containers of script values. -/
def isScript : Kind → Bool
  | .scriptMap | .scriptSet | .object => true
  | .map | .set => false

end Kind

namespace Op

/-- The operations that neither make a container of a kind of their own nor contain programs. -/
def isPlain : Op → Bool
  | .container .. | .construct .. | .forEach .. | .function .. => false
  | _ => true

end Op

mutual

inductive Step.Scripted : Step → Prop where
  | mk {op : Op} {escapes : Bool} (h : Op.Scripted op) : Step.Scripted (.mk op escapes)

/-- The operation makes script containers only, and so do the programs in it. -/
inductive Op.Scripted : Op → Prop where
  | container {kind : Kind} {name : String} {entries : List (Term × Payload)}
      (h : kind.isScript = true) : Op.Scripted (.container kind name entries)
  | construct {kind : Kind} {home name : String} {entries : List (Term × Payload)} {plain : Bool}
      (h : kind.isScript = true) : Op.Scripted (.construct kind home name entries plain)
  | forEach {c : Target} {each : List Step} {atVisit : List (Nat × List Step)} {limit : Nat}
      (heach : ∀ s ∈ each, Step.Scripted s)
      (hvisits : ∀ row ∈ atVisit, ∀ s ∈ row.2, Step.Scripted s) :
      Op.Scripted (.forEach c each atVisit limit)
  | function {name : String} {body : List Step} {limit : Nat} {result : Term}
      (h : ∀ s ∈ body, Step.Scripted s) : Op.Scripted (.function name body limit result)
  | plain {op : Op} (h : op.isPlain = true) : Op.Scripted op

end

/-! ## answers -/

abbrev Event.Peaceful : Event → Prop := Event.Throughout (fun e => ¬e.IsRefusal) (· ≠ .pinLeaked)

abbrev Visit.Peaceful : Visit → Prop := Visit.Throughout (fun e => ¬e.IsRefusal) (· ≠ .pinLeaked)

abbrev Result.Peaceful : Result → Prop := Result.Throughout (fun e => ¬e.IsRefusal) (· ≠ .pinLeaked)

abbrev Answer.Peaceful : Answer → Prop := Answer.Throughout (fun e => ¬e.IsRefusal) (· ≠ .pinLeaked)

/-! ## what is not tracked -/

/-- No user code runs when it is released or copied. -/
def Untracked (u : Hands) : Prop := ∀ id, .tracked id ∉ u

section
variable {u v : Hands}

@[simp] theorem untracked_add : Untracked (u + v) ↔ Untracked u ∧ Untracked v := by
  simp only [Untracked, Multiset.mem_add, not_or, forall_and]

@[simp] theorem untracked_zero : Untracked 0 := fun _ => Multiset.notMem_zero _

@[simp] theorem untracked_handles (refs : List Nat) : Untracked (handles refs) := by
  intro id h
  obtain ⟨r, _, hr⟩ := mem_handles_iff.mp h
  cases hr

theorem untracked_of_mem {pairs : List (Key × Item)} {e : Key × Item} (h : Untracked (pairsOf pairs))
    (he : e ∈ pairs) : Untracked e.2.assets := fun id hid =>
  h id (tracked_mem_pairsOf.mpr ⟨e, he, Item.tracked_mem_assets.mp hid⟩)

end

/-! ## pins -/

namespace Walk

/-- The container and the entry that a cursor is parked on. -/
def place? (x : Walk) : Option (Nat × Nat) :=
  match x.store, x.last with
  | some r, some s => some (r, s)
  | _, _ => none

end Walk

/-- The places of the cursors in a table. -/
def places (walks : List (Nat × Walk)) : List (Nat × Nat) := walks.filterMap (·.2.place?)

/-- A pin on an entry of a container, or none. -/
def pinned (r : Nat) (s? : Option Nat) : List (Nat × Nat) := (s?.map fun s => (r, s)).toList

theorem place?_toList (r : Nat) (last : Option Nat) :
    (Walk.place? ⟨some r, last⟩).toList = pinned r last := by
  cases last <;> rfl

/-- What the operations that go on have hold of. -/
structure Grip where
  /-- pins that no cursor has at the moment -/
  pins : List (Nat × Nat) := []
  /-- the cursor that has left its place -/
  cursor : Option Nat := none
  /-- the containers that are being read, each as often as it is -/
  reading : List Nat := []
  /-- something was given up at a limit, or there was an internal failure -/
  spent : Bool := false

section
variable {walks : List (Nat × Walk)} {id : Nat} {x y : Walk}

theorem places_put : places (Table.put id y walks) = y.place?.toList ++ places (Table.erase id walks) := by
  unfold places Table.put
  rw [List.filterMap_cons]
  cases y.place? <;> rfl

theorem places_of_get? (h : Table.Distinct walks) (hx : Table.get? id walks = some x) :
    (places walks).Perm (x.place?.toList ++ places (Table.erase id walks)) := by
  have hperm := (Table.perm_of_get? h hx).filterMap (·.2.place?)
  rw [List.filterMap_cons] at hperm
  unfold places
  cases hp : x.place? <;> simp only [hp] at hperm <;> exact hperm

/-- A cursor that has no place counts for nothing. -/
theorem places_erase (h : Table.Distinct walks)
    (hx : ∀ x, Table.get? id walks = some x → x.place? = none) :
    (places (Table.erase id walks)).Perm (places walks) := by
  cases hrow : Table.get? id walks with
  | none => rw [Table.erase_of_get?_eq_none hrow]
  | some x =>
    have hperm := places_of_get? h hrow
    rw [hx x hrow] at hperm
    exact hperm.symm

end

/-! ## worlds -/

/-- A script container that is read so often, and not in use otherwise. -/
structure Container.Gentle (c : Container) (readers : Nat) : Prop where
  kind : c.kind.isScript = true
  access : c.access = .shared readers
  active : c.active = none
  uses : c.uses = List.replicate readers .reading
  untracked : Untracked (pairsOf c.store.held)

def Body.Gentle (readers : Nat) (pins : Nat → Nat) : Body → Prop
  | .container c => c.Gentle readers ∧ c.store.Sound pins
  | .function f => (∀ s ∈ f.body, s.Scripted) ∧ ∀ s, pins s = 0
  | .allocation _ => ∀ s, pins s = 0

/-- A container in which no cursor is parked has no tombstones. -/
def Moment.Tidy (m : Moment) : Prop :=
  ∀ {r c}, containerAt? m.objects r = some c → (∀ s, (r, s) ∉ places m.walks) →
    c.store.tombstones = .ok 0

/-- No container is in use. -/
def Moment.Idle (m : Moment) : Prop := ∀ {r f}, formAt m.objects r = some f → f.Idle

namespace World

def pins (w : World) (g : Grip) : List (Nat × Nat) := g.pins ++ places w.walks ++ w.leaks

/-- How often an entry of a container is pinned. -/
def pinsAt (w : World) (g : Grip) (r s : Nat) : Nat := (w.pins g).count (r, s)

/-- Something was given up at a limit, or there was an internal failure. -/
def Spent (w : World) : Prop := w.abandoned ≠ [] ∨ w.faults ≠ []

structure Gentle (w : World) (g : Grip) : Prop where
  walks : Table.Distinct w.walks
  freshWalk : ∀ {id}, w.freshWalk ≤ id → Table.get? id w.walks = none
  bodies : ∀ {r d}, Table.get? r w.cells = some d →
    d.body.Gentle (g.reading.count r) (w.pinsAt g r)
  fresh : ∀ {r}, w.fresh ≤ r → Table.get? r w.cells = none ∧ ∀ s, w.pinsAt g r s = 0
  /-- the cursor that has left its place has no other one -/
  placeless : ∀ id, g.cursor = some id →
    id < w.freshWalk ∧ ∀ x, Table.get? id w.walks = some x → x.place? = none
  frames : ∀ log ∈ w.frames, ∀ e ∈ log, e.Peaceful
  spent : g.spent = true → w.Spent
  /-- no pin stays behind but when a release was given up -/
  leaks : w.leaks = [] ∨ w.Spent
  moments : ∀ m ∈ w.moments, m.Idle ∧ (w.leaks = [] → m.Tidy)

end World

/-! ## containers -/

namespace Container.Gentle

variable {c : Container} {n : Nat}

theorem beingRead (h : c.Gentle n) : (c.beingRead n).Gentle (n + 1) where
  kind := h.kind
  access := rfl
  active := h.active
  uses := congrArg (Use.reading :: ·) h.uses
  untracked := h.untracked

theorem idle (h : c.Gentle 0) : c.form.Idle := ⟨h.access, h.active, h.uses⟩

end Container.Gentle

namespace World

open Table

variable {w : World} {g : Grip} {r s id : Nat} {c : Container} {d : Cell}

/-! ## counting pins -/

theorem pinsAt_pinned_self (s? : Option Nat) :
    w.pinsAt { g with pins := pinned r s? } r =
      Chain.pinOn s? (w.pinsAt { g with pins := [] } r) := by
  funext s
  unfold pinsAt pins pinned Chain.pinOn
  simp only [List.nil_append, List.count_append]
  cases s? with
  | none => simp
  | some u => simp [List.count_singleton, Nat.add_comm, Nat.add_left_comm]

theorem pinsAt_pinned_of_ne {q : Nat} (hq : q ≠ r) (s? : Option Nat) :
    w.pinsAt { g with pins := pinned r s? } q = w.pinsAt { g with pins := [] } q := by
  funext s
  unfold pinsAt pins pinned
  simp only [List.nil_append, List.count_append]
  cases s? with
  | none => simp
  | some u => simp [Ne.symm hq]

namespace Gentle

/-- A container is a script container, in use as far as the grip says. -/
theorem container (h : w.Gentle g) (hc : containerAt? w.cells r = some c) :
    c.Gentle (g.reading.count r) ∧ c.store.Sound (w.pinsAt g r) := by
  obtain ⟨n, hd⟩ := containerAt?_eq_some_iff.mp hc
  exact h.bodies hd

theorem relax (h : w.Gentle { g with spent := true }) : w.Gentle g :=
  { h with spent := fun _ => h.spent rfl }

theorem fault (h : w.Gentle g) (e : Failure) :
    { w with faults := e :: w.faults }.Gentle { g with spent := true } :=
  { h with
    spent := fun _ => .inr (List.cons_ne_nil _ _), leaks := .inr (.inr (List.cons_ne_nil _ _)) }

/-! ## changes of tables -/

/-- Objects may go away, or get other numbers of handles. -/
theorem of_cells (h : w.Gentle g) {cells : Objects}
    (hsub : ∀ {r d}, get? r cells = some d → ∃ n, get? r w.cells = some ⟨n, d.body⟩) :
    { w with cells }.Gentle g where
  walks := h.walks
  freshWalk := h.freshWalk
  bodies hd := by
    obtain ⟨n, hn⟩ := hsub hd
    have hbody := h.bodies hn
    exact hbody
  fresh {q} hq := by
    refine ⟨?_, (h.fresh hq).2⟩
    cases hd : get? q cells with
    | none => rfl
    | some d =>
      obtain ⟨n, hn⟩ := hsub hd
      rw [(h.fresh hq).1] at hn
      cases hn
  placeless := h.placeless
  frames := h.frames
  spent := h.spent
  leaks := h.leaks
  moments := h.moments

theorem setHandles (h : w.Gentle g) (r n : Nat) :
    { w with cells := change r (fun d => { d with handles := n }) w.cells }.Gentle g := by
  refine h.of_cells fun {q d} hd => ?_
  rw [get?_change] at hd
  split at hd
  · obtain ⟨e, he, rfl⟩ := Option.map_eq_some_iff.mp hd
    exact ⟨e.handles, he⟩
  · exact ⟨d.handles, hd⟩

theorem erase (h : w.Gentle g) (r : Nat) : { w with cells := Table.erase r w.cells }.Gentle g := by
  refine h.of_cells fun {q d} hd => ?_
  rw [get?_erase] at hd
  split at hd
  · cases hd
  · exact ⟨d.handles, hd⟩

/-- Cursors come, go and move, and give and take pins. -/
theorem rows (h : w.Gentle g) {walks : List (Nat × Walk)} {freshWalk : Nat} {pins : List (Nat × Nat)}
    {cursor : Option Nat} (hwalks : Distinct walks)
    (hfresh : ∀ {id}, freshWalk ≤ id → get? id walks = none)
    (hplaceless : ∀ id, cursor = some id →
      id < freshWalk ∧ ∀ x, get? id walks = some x → x.place? = none)
    (hpins : (pins ++ places walks).Perm (g.pins ++ places w.walks)) :
    { w with walks, freshWalk }.Gentle { g with pins, cursor } := by
  have hsame : ∀ r, { w with walks, freshWalk }.pinsAt { g with pins, cursor } r = w.pinsAt g r :=
    fun r => funext fun s => (hpins.append_right w.leaks).count_eq (r, s)
  refine ⟨hwalks, hfresh, fun {r d} hd => ?_, fun {r} hr => ?_, hplaceless, h.frames, h.spent, h.leaks,
    h.moments⟩
  · rw [hsame]
    exact h.bodies hd
  · rw [hsame]
    exact h.fresh hr

/-- A cursor comes to its next place, and has the pin there. -/
theorem land {x : Walk} (h : w.Gentle { pins := x.place?.toList, cursor := some id }) :
    { w with walks := put id x w.walks }.Gentle {} := by
  obtain ⟨hlt, hplaceless⟩ := h.placeless id rfl
  refine h.rows (h.walks.put id x) (fun {j} hj => ?_) nofun ?_
  · rw [get?_put, if_neg (Nat.ne_of_gt (Nat.lt_of_lt_of_le hlt hj))]
    exact h.freshWalk hj
  · rw [places_put, List.nil_append]
    exact (places_erase h.walks hplaceless).append_left _

/-- A cursor leaves its place, and the pin there is in hand. -/
theorem depart {x y : Walk} (h : w.Gentle {}) (hx : get? id w.walks = some x) (hy : y.place? = none) :
    { w with walks := put id y w.walks }.Gentle { pins := x.place?.toList, cursor := some id } := by
  have hlt : id < w.freshWalk := Nat.lt_of_not_le fun hle => by
    rw [h.freshWalk hle] at hx
    cases hx
  refine h.rows (h.walks.put id y) (fun {j} hj => ?_) (fun j hj => ?_) ?_
  · rw [get?_put, if_neg (Nat.ne_of_gt (Nat.lt_of_lt_of_le hlt hj))]
    exact h.freshWalk hj
  · cases hj
    refine ⟨hlt, fun z hz => ?_⟩
    rw [get?_put, if_pos rfl] at hz
    cases hz
    exact hy
  · rw [places_put, hy]
    exact (places_of_get? h.walks hx).symm

/-- A cursor is given up, and the pin that it had is in hand. -/
theorem close {x : Walk} (h : w.Gentle {})
    (hx : get? id w.walks = some x ∨ get? id w.walks = none ∧ x.place? = none) :
    { w with walks := Table.erase id w.walks }.Gentle { pins := x.place?.toList } := by
  refine h.rows (h.walks.erase id) (fun {j} hj => ?_) nofun ?_
  · rw [get?_erase]
    split
    · rfl
    · exact h.freshWalk hj
  · rcases hx with hx | ⟨hnone, hplace⟩
    · exact (places_of_get? h.walks hx).symm
    · rw [hplace, erase_of_get?_eq_none hnone]
      exact .refl _

/-- A new cursor has no place yet. -/
theorem openWalk {x : Walk} (h : w.Gentle {}) (hx : x.place? = none) :
    { w with walks := w.walks ++ [(w.freshWalk, x)], freshWalk := w.freshWalk + 1 }.Gentle {} := by
  have hnone := h.freshWalk (Nat.le_refl w.freshWalk)
  refine h.rows (h.walks.append hnone x) (fun {j} hj => ?_) nofun ?_
  · rw [get?_append, h.freshWalk (Nat.le_of_succ_le hj)]
    exact if_neg (Nat.ne_of_gt hj)
  · unfold places
    rw [List.filterMap_append, List.filterMap_cons, hx]
    simp

/-- A pin stays behind when a release was given up. -/
theorem leak {s? cursor : Option Nat} (h : w.Gentle { pins := pinned r s?, cursor, spent := true }) :
    { w with leaks := (s?.map fun s => (r, s)).toList ++ w.leaks }.Gentle {} := by
  have hperm : ({ w with leaks := (s?.map fun s => (r, s)).toList ++ w.leaks }.pins {}).Perm
      (w.pins { pins := pinned r s?, cursor, spent := true }) := by
    show ([] ++ places w.walks ++ (pinned r s? ++ w.leaks)).Perm (pinned r s? ++ places w.walks ++ w.leaks)
    rw [List.nil_append, ← List.append_assoc]
    exact List.perm_append_comm.append_right _
  have hsame : ∀ q, { w with leaks := (s?.map fun s => (r, s)).toList ++ w.leaks }.pinsAt {} q =
      w.pinsAt { pins := pinned r s?, cursor, spent := true } q :=
    fun q => funext fun s => hperm.count_eq (q, s)
  refine ⟨h.walks, h.freshWalk, fun {q d} hd => ?_, fun {q} hq => ?_, nofun, h.frames, nofun,
    .inr (h.spent rfl), fun m hm => ⟨(h.moments m hm).1, fun hnil => (h.moments m hm).2 ?_⟩⟩
  · rw [hsame]
    exact h.bodies hd
  · rw [hsame]
    exact h.fresh hq
  · exact (List.append_eq_nil_iff.mp hnil).2

/-- Another body at an object, with another grip on it. -/
theorem setBody (h : w.Gentle g) (body : Body) (pins : List (Nat × Nat)) (reading : List Nat)
    (hd : get? r w.cells = some d)
    (hbody : body.Gentle (reading.count r) (w.pinsAt { g with pins, reading } r))
    (hreading : ∀ q, q ≠ r → reading.count q = g.reading.count q)
    (hpins : ∀ q, q ≠ r → w.pinsAt { g with pins, reading } q = w.pinsAt g q) :
    { w with cells := change r (fun d => { d with body }) w.cells }.Gentle
      { g with pins, reading } where
  walks := h.walks
  freshWalk := h.freshWalk
  bodies {q e} he := by
    rw [get?_change] at he
    split at he
    · rename_i hq
      obtain ⟨e', _, rfl⟩ := Option.map_eq_some_iff.mp he
      subst hq
      exact hbody
    · rename_i hq
      have hold := h.bodies he
      rw [← hreading q hq, ← hpins q hq] at hold
      exact hold
  fresh {q} hq := by
    have hne : q ≠ r := by
      rintro rfl
      rw [(h.fresh hq).1] at hd
      cases hd
    refine ⟨?_, fun s => ?_⟩
    · rw [get?_change, if_neg hne]
      exact (h.fresh hq).1
    · show w.pinsAt { g with pins, reading } q s = 0
      rw [hpins q hne]
      exact (h.fresh hq).2 s
  placeless := h.placeless
  frames := h.frames
  spent := h.spent
  leaks := h.leaks
  moments := h.moments

/-- A store operation on a container that is not in use. -/
theorem storing {α : Type} {cursor from? : Option Nat} {taken : Hands}
    {f : Store Item → Except Fault (α × Store Item)} {given : α → Hands} {to? : α → Option Nat}
    (h : w.Gentle { pins := pinned r from?, cursor }) (hc : containerAt? w.cells r = some c)
    (hf : Moves f taken from? given to?) (htaken : Untracked taken) :
    ∃ y t, f c.store = .ok (y, t) ∧ Untracked (given y) ∧
      (w.changed r { c with store := t }).Gentle { pins := pinned r (to? y), cursor } := by
  obtain ⟨n, hd⟩ := containerAt?_eq_some_iff.mp hc
  obtain ⟨hgentle, hsound⟩ := h.container hc
  rw [pinsAt_pinned_self (g := { cursor })] at hsound
  obtain ⟨y, t, hy, ht, _, hheld⟩ := hf c.store _ hsound
  have huntracked : Untracked (pairsOf c.store.held + taken) :=
    untracked_add.mpr ⟨hgentle.untracked, htaken⟩
  rw [← hheld] at huntracked
  obtain ⟨hheld', hgiven⟩ := untracked_add.mp huntracked
  have hstore : t.Sound (w.pinsAt { pins := pinned r (to? y), cursor } r) := by
    rw [pinsAt_pinned_self (g := { cursor })]
    exact ht
  have hbody : { c with store := t }.Gentle 0 ∧ t.Sound (w.pinsAt { pins := pinned r (to? y), cursor } r) :=
    ⟨{ hgentle with untracked := hheld' }, hstore⟩
  refine ⟨y, t, hy, hgiven, h.setBody (.container { c with store := t }) (pinned r (to? y)) [] hd
    hbody (fun _ _ => rfl) fun q hq => ?_⟩
  exact (pinsAt_pinned_of_ne hq (g := { cursor }) _).trans
    (pinsAt_pinned_of_ne hq (g := { cursor }) _).symm

/-- A new object. -/
theorem append (h : w.Gentle g) {body : Body} {n : Nat}
    (hbody : body.Gentle (g.reading.count w.fresh) fun _ => 0) :
    { w with cells := w.cells ++ [(w.fresh, (⟨n, body⟩ : Cell))], fresh := w.fresh + 1 }.Gentle g where
  walks := h.walks
  freshWalk := h.freshWalk
  bodies {q e} he := by
    rw [get?_append] at he
    split at he
    · rename_i hold
      cases he
      exact h.bodies hold
    · split at he
      · rename_i hq
        cases he
        subst hq
        have hzero : w.pinsAt g w.fresh = fun _ => 0 := funext (h.fresh (Nat.le_refl _)).2
        show body.Gentle (g.reading.count w.fresh) (w.pinsAt g w.fresh)
        rwa [hzero]
      · cases he
  fresh {q} hq := by
    have hle : w.fresh < q := hq
    obtain ⟨hnone, hpins⟩ := h.fresh (Nat.le_of_lt hle)
    refine ⟨?_, hpins⟩
    rw [get?_append, hnone]
    exact if_neg (Nat.ne_of_gt hle)
  placeless := h.placeless
  frames := h.frames
  spent := h.spent
  leaks := h.leaks
  moments := h.moments

/-- Pins on what is gone are no pins any more. -/
theorem drop {pins : List (Nat × Nat)} (h : w.Gentle { pins })
    (hgone : ∀ p ∈ pins, get? p.1 w.cells = none) : w.Gentle {} := by
  refine { h with bodies := fun {q d} hd => ?_, fresh := fun {q} hq => ⟨(h.fresh hq).1, fun s => ?_⟩ }
  · have hzero : ∀ s, pins.count (q, s) = 0 := fun s =>
      List.count_eq_zero.mpr fun hm => by rw [hgone _ hm] at hd; cases hd
    have hsame : w.pinsAt { pins } q = w.pinsAt {} q := funext fun s => by
      simp [pinsAt, World.pins, List.count_append, hzero s]
    exact hsame ▸ h.bodies hd
  · have hle : w.pinsAt {} q s ≤ w.pinsAt { pins } q s := by
      simp [pinsAt, World.pins, List.count_append]
    exact Nat.le_zero.mp (Nat.le_trans hle (Nat.le_of_eq ((h.fresh hq).2 s)))

/-! ## times -/

/-- Nothing is in use, and without leaks nothing is retained but where a cursor is parked. -/
theorem moment (h : w.Gentle {}) : w.moment.Idle ∧ (w.leaks = [] → w.moment.Tidy) := by
  refine ⟨fun {r f} hf => ?_, fun hleaks {r c} hc hplace => ?_⟩
  · obtain ⟨d, hd, rfl⟩ := Option.map_eq_some_iff.mp hf
    have hbody := h.bodies hd
    obtain ⟨n, body⟩ := d
    cases body with
    | container c => exact hbody.1.idle
    | function f => trivial
    | allocation s => trivial
  · refine Store.tombstones_of_unpinned (h.container hc).2 fun s => ?_
    refine List.count_eq_zero.mpr fun hm => hplace s ?_
    unfold pins at hm
    rwa [hleaks, List.append_nil] at hm

end Gentle

end World

end LiveOrder
