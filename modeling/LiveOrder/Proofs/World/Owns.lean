import LiveOrder.Proofs.World.Order

/-!
# Actions and what they own

* `Onward`, `Steady`, `Opened`   what no action changes: objects keep their form, no container goes back
                  to an earlier time, and visits and calls end when they should; a failure may leave
                  some of them open;
* `Situation`     what is in hand, and a fact about the world;
* `Act.Owns`      an action, given what is lent to it and what it takes, gives something, or fails and
                  leaves something, never with an internal failure;
* `Owns.bind`, `.always`, `.onFailure`, …   one rule for each way to put actions together;
* `Act.Safe`      an action that takes and gives nothing;
* `Act.Settles`   an action that keeps nothing and leaves nothing open when it fails.

The rest of what is in hand is arbitrary.  So an operation can run user code while it has something
in hand, and finds it there afterwards (`Owns.frame`).
-/

namespace LiveOrder

/-! ## what stays -/

/-- What stays of an object as long as it lives and is not accessed anew. -/
inductive Form where
  | container (kind : Kind) (access : Access) (active : Option Operation) (uses : List Use)
  | function
  | allocation

namespace Form

def Idle : Form → Prop
  | .container _ access active uses => access = .shared 0 ∧ active = none ∧ uses = []
  | .function | .allocation => True

end Form

def Container.form (c : Container) : Form := .container c.kind c.access c.active c.uses

/-- The use of a container is all that its discipline is about. -/
theorem Container.Disciplined.of_form {c d : Container} (h : c.Disciplined) (hform : d.form = c.form) :
    d.Disciplined := by
  obtain ⟨kind, store, access, active, uses⟩ := d
  obtain ⟨_, rfl, rfl, rfl⟩ := Form.container.inj hform
  exact ⟨h.guard, h.single, h.access⟩

def Body.form : Body → Form
  | .container c => c.form
  | .function _ => .function
  | .allocation _ => .allocation

def formAt (cells : List (Nat × Cell)) (r : Nat) : Option Form :=
  (Table.get? r cells).map (·.body.form)

theorem formAt_erase {cells : List (Nat × Cell)} {r q : Nat} {f : Form}
    (hf : formAt (Table.erase r cells) q = some f) : formAt cells q = some f := by
  unfold formAt at hf ⊢
  rw [Table.get?_erase] at hf
  split at hf
  · cases hf
  · exact hf

theorem formAt_setHandles (r n : Nat) (cells : List (Nat × Cell)) (q : Nat) :
    formAt (Table.change r (fun d => { d with handles := n }) cells) q = formAt cells q := by
  unfold formAt
  rw [Table.get?_change]
  split
  · rw [Option.map_map]
    rfl
  · rfl

namespace World

/-- What does not change by itself. -/
def standing (w : World) := (w.cells, w.fresh, w.walks, w.freshWalk, w.limits, w.visiting, w.calls)

/-- What is on record and stays there. -/
def recorded (w : World) := (w.passages, w.discarded, w.stored, w.origins)

/-- The cursor has come to the end, or has been closed since. -/
def Done (w : World) (id : Nat) : Prop := ∀ x, Table.get? id w.walks = some x → x.store = none

end World

/-- Nothing is taken off the record. -/
structure Recorded (w v : World) : Prop where
  passages : w.passages <:+ v.passages
  discarded : w.discarded ≤ v.discarded
  stored : w.stored <:+ v.stored
  origins : w.origins <:+ v.origins

structure Onward (w v : World) : Prop extends Recorded w v where
  fresh : w.fresh ≤ v.fresh
  forms : ∀ {r f}, formAt v.cells r = some f → formAt w.cells r = some f ∨ (w.fresh ≤ r ∧ f.Idle)
  /-- a container is the one that was there, at a later time -/
  ages : ∀ {r d}, containerAt? v.cells r = some d →
    (∃ c, containerAt? w.cells r = some c ∧ c.store.chain.Ages d.store.chain) ∨ w.fresh ≤ r
  freshWalk : w.freshWalk ≤ v.freshWalk
  /-- a cursor that has come to the end does not begin again -/
  done : ∀ {id}, id < w.freshWalk → w.Done id → v.Done id
  limits : v.limits = w.limits

structure Steady (w v : World) : Prop extends Onward w v where
  visiting : v.visiting = w.visiting
  calls : v.calls = w.calls

structure Opened (w v : World) : Prop extends Onward w v where
  visiting : w.visiting <:+ v.visiting
  calls : w.calls <:+ v.calls

section
variable {w v z : World}

/-- Containers are as they were. -/
theorem ages_of_same {cells cells' : List (Nat × Cell)} {fresh : Nat}
    (h : ∀ q c, containerAt? cells' q = some c → containerAt? cells q = some c) {q : Nat}
    {d : Container} (hd : containerAt? cells' q = some d) :
    (∃ c, containerAt? cells q = some c ∧ c.store.chain.Ages d.store.chain) ∨ fresh ≤ q :=
  .inl ⟨d, h q d hd, .refl _⟩

theorem Recorded.refl (w : World) : Recorded w w :=
  ⟨List.suffix_refl _, Nat.le_refl _, List.suffix_refl _, List.suffix_refl _⟩

theorem Recorded.trans (h : Recorded w v) (h' : Recorded v z) : Recorded w z where
  passages := h.passages.trans h'.passages
  discarded := Nat.le_trans h.discarded h'.discarded
  stored := h.stored.trans h'.stored
  origins := h.origins.trans h'.origins

theorem Recorded.of_eq (h : v.recorded = w.recorded) : Recorded w v := by
  simp only [World.recorded, Prod.mk.injEq] at h
  obtain ⟨hpassages, hdiscarded, hstored, horigins⟩ := h
  exact ⟨hpassages ▸ List.suffix_refl _, Nat.le_of_eq hdiscarded.symm, hstored ▸ List.suffix_refl _,
    horigins ▸ List.suffix_refl _⟩

theorem Onward.refl (w : World) : Onward w w :=
  ⟨.refl w, Nat.le_refl _, .inl, ages_of_same fun _ _ hc => hc, Nat.le_refl _, fun _ h => h, rfl⟩

theorem Onward.trans (h : Onward w v) (h' : Onward v z) : Onward w z where
  toRecorded := h.toRecorded.trans h'.toRecorded
  fresh := Nat.le_trans h.fresh h'.fresh
  forms hf := by
    rcases h'.forms hf with hf | ⟨hle, hidle⟩
    · exact h.forms hf
    · exact .inr ⟨Nat.le_trans h.fresh hle, hidle⟩
  ages hd := by
    rcases h'.ages hd with ⟨c, hc, hage⟩ | hle
    · rcases h.ages hc with ⟨b, hb, hage'⟩ | hle
      · exact .inl ⟨b, hb, hage'.trans hage⟩
      · exact .inr hle
    · exact .inr (Nat.le_trans h.fresh hle)
  freshWalk := Nat.le_trans h.freshWalk h'.freshWalk
  done hid hdone := h'.done (Nat.lt_of_lt_of_le hid h.freshWalk) (h.done hid hdone)
  limits := h'.limits.trans h.limits

/-- What has gone away does not come back. -/
theorem Onward.gone (h : Onward w v) {r : Nat} (hr : Table.get? r w.cells = none)
    (hfresh : r < w.fresh) : Table.get? r v.cells = none := by
  cases hd : Table.get? r v.cells with
  | none => rfl
  | some d =>
    have hform : formAt v.cells r = some d.body.form := by rw [formAt, hd, Option.map_some]
    rcases h.forms hform with hold | ⟨hnew, _⟩
    · rw [formAt, hr] at hold
      cases hold
    · exact absurd hfresh (Nat.not_lt.mpr hnew)

theorem Steady.refl (w : World) : Steady w w := ⟨.refl w, rfl, rfl⟩

theorem Steady.trans (h : Steady w v) (h' : Steady v z) : Steady w z :=
  ⟨h.toOnward.trans h'.toOnward, h'.visiting.trans h.visiting, h'.calls.trans h.calls⟩

theorem Steady.opened (h : Steady w v) : Opened w v :=
  ⟨h.toOnward, h.visiting ▸ List.suffix_refl _, h.calls ▸ List.suffix_refl _⟩

/-- Neither objects nor cursors nor visits nor calls change, and nothing is taken off the record. -/
theorem Steady.of_grown (h : v.standing = w.standing) (h' : Recorded w v) : Steady w v := by
  simp only [World.standing, Prod.mk.injEq] at h
  obtain ⟨hcells, hfresh, hwalks, hfreshWalk, hlimits, hvisiting, hcalls⟩ := h
  exact ⟨⟨h', Nat.le_of_eq hfresh.symm, fun hf => .inl (hcells ▸ hf),
    ages_of_same fun _ _ hc => hcells ▸ hc, Nat.le_of_eq hfreshWalk.symm,
    fun _ hdone x hx => hdone x (hwalks ▸ hx), hlimits⟩, hvisiting, hcalls⟩

/-- Only cursors change, and none begins again. -/
theorem Steady.of_walks {walks : List (Nat × Walk)} {freshWalk : Nat} (hfresh : w.freshWalk ≤ freshWalk)
    (hdone : ∀ {id}, id < w.freshWalk → w.Done id → ∀ x, Table.get? id walks = some x → x.store = none) :
    Steady w { w with walks, freshWalk } :=
  ⟨⟨.of_eq rfl, Nat.le_refl _, .inl, ages_of_same fun _ _ hc => hc, hfresh, hdone, rfl⟩, rfl, rfl⟩

/-- What need not stay is all that changes. -/
theorem Steady.of_same (h : v.standing = w.standing) (h' : v.recorded = w.recorded) : Steady w v :=
  .of_grown h (.of_eq h')

/-- Objects keep their form, and containers what they hold. -/
theorem Steady.of_forms {cells : List (Nat × Cell)}
    (h : ∀ q f, formAt cells q = some f → formAt w.cells q = some f)
    (h' : ∀ q c, containerAt? cells q = some c → containerAt? w.cells q = some c) :
    Steady w { w with cells } :=
  ⟨⟨.of_eq rfl, Nat.le_refl _, fun hf => .inl (h _ _ hf), ages_of_same h', Nat.le_refl _,
    fun _ h => h, rfl⟩, rfl, rfl⟩

theorem Opened.trans (h : Opened w v) (h' : Opened v z) : Opened w z :=
  ⟨h.toOnward.trans h'.toOnward, h.visiting.trans h'.visiting, h.calls.trans h'.calls⟩

end

/-! ## situations -/

structure Situation where
  hands : Hands
  fact : World → Prop

namespace Situation

instance : Coe Hands Situation := ⟨fun hands => ⟨hands, fun _ => True⟩⟩

/-- Some hands, and a fact that is not about the world. -/
def plain (hands : Hands) (p : Prop) : Situation := ⟨hands, fun _ => p⟩

/-- More in hand. -/
def and (a : Situation) (u : Hands) : Situation := ⟨a.hands + u, a.fact⟩

/-- The situation, whatever else is in hand. -/
def Holds (a : Situation) (others : Hands) (w : World) : Prop :=
  w.InOrder (others + a.hands) ∧ a.fact w

def Entails (a b : Situation) : Prop := ∀ others w, a.Holds others w → b.Holds others w

variable {a b : Situation} {u u' : Hands} {p q : Prop}

theorem Entails.refl (a : Situation) : a.Entails a := fun _ _ h => h

theorem entails_of_eq (hu : u = u') : (u : Situation).Entails u' := hu ▸ .refl _

/-- A fact is not needed any more. -/
theorem entails_hands (a : Situation) : a.Entails a.hands := fun _ _ h => ⟨h.1, trivial⟩

theorem plain_of_eq (hu : u = u') : (plain u p).Entails (plain u' p) := hu ▸ .refl _

theorem entails_plain (hp : p) : (u : Situation).Entails (plain u p) := fun _ _ h => ⟨h.1, hp⟩

theorem plain_entails (h : p → q) : (plain u p).Entails (plain u q) := fun _ _ hw => ⟨hw.1, h hw.2⟩

theorem Entails.trans {c : Situation} (h : a.Entails b) (h' : b.Entails c) : a.Entails c :=
  fun others w hw => h' others w (h others w hw)

/-- It need not be known where a cursor stands. -/
theorem entails_forget {id : Nat} {x : Walk} :
    ((u + cursorAt id (some x) : Hands) : Situation).Entails ↑(u + cursorAt id none) := by
  intro others w h
  have hw : w.InOrder (others + u + cursorAt id (some x)) := h.1.of_eq (add_assoc _ _ _)
  exact ⟨hw.forget.of_eq (add_assoc _ _ _).symm, trivial⟩

theorem entails_lose {id : Nat} {x : Walk} :
    (cursorAt id (some x) : Situation).Entails (cursorAt id none) :=
  fun _ _ h => ⟨h.1.forget, trivial⟩

end Situation

namespace Act

open Situation

variable {α β : Type} {lent lent' left left' u : Hands} {a a' : Situation} {b b' : α → Situation}
  {c : β → Situation} {x : Act α} {f : α → Act β} {p : α → Prop} {q : β → Prop}

/-! ## actions -/

def Owns (lent : Hands) (a : Situation) (x : Act α) (b : α → Situation) (left : Hands) : Prop :=
  ∀ others w, lent ⊆ others → a.Holds others w → match x w with
    | (.ok r, v) => (b r).Holds others v ∧ Steady w v
    | (.error e, v) => ¬e.Internal ∧ v.InOrder (others + left) ∧ Opened w v

theorem Owns.of_ok (h : Owns lent a x b left) {others : Hands} {w v : World} {r : α}
    (hlent : lent ⊆ others) (hw : a.Holds others w) (hx : x w = (.ok r, v)) :
    (b r).Holds others v ∧ Steady w v := by
  have hxw := h others w hlent hw
  rwa [hx] at hxw

/-- What an action has in hand that ends well. -/
theorem Owns.holding_of_ok {b : α → Hands}
    (h : Owns lent (u : Situation) x (fun r => ↑(b r)) left) {others : Hands} {w v : World} {r : α}
    (hlent : lent ⊆ others) (hw : w.InOrder (others + u)) (hx : x w = (.ok r, v)) :
    v.InOrder (others + b r) ∧ Onward w v :=
  let ⟨hv, hsteady⟩ := h.of_ok hlent ⟨hw, trivial⟩ hx
  ⟨hv.1, hsteady.toOnward⟩

theorem Owns.of_error (h : Owns lent a x b left) {others : Hands} {w v : World} {e : Failure}
    (hlent : lent ⊆ others) (hw : a.Holds others w) (hx : x w = (.error e, v)) :
    ¬e.Internal ∧ v.InOrder (others + left) ∧ Opened w v := by
  have hxw := h others w hlent hw
  rwa [hx] at hxw

/-- However the action ends. -/
theorem Owns.onward (h : Owns lent a x b left) {others : Hands} {w : World} (hlent : lent ⊆ others)
    (hw : a.Holds others w) : Onward w (x w).2 := by
  have hxw := h others w hlent hw
  rcases hr : x w with ⟨e | r, v⟩
  · rw [hr] at hxw
    exact hxw.2.2.toOnward
  · rw [hr] at hxw
    exact hxw.2.toOnward

theorem Owns.weaken (h : Owns lent a x b left) (ha : a'.Entails a)
    (hb : ∀ r, (b r).Entails (b' r)) : Owns lent a' x b' left := by
  intro others w hlent hw
  have hx := h others w hlent (ha others w hw)
  rcases hr : x w with ⟨e | r, v⟩
  · rw [hr] at hx
    exact hx
  · rw [hr] at hx
    exact ⟨hb r others v hx.1, hx.2⟩

/-- The same hands, in other words. -/
theorem Owns.of_eq {u' : Hands} (h : Owns lent u x b left) (e : u' = u) : Owns lent u' x b left :=
  e ▸ h

/-- What was left by a failure may be forgotten to some degree. -/
theorem Owns.leave (h : Owns lent a x b left) (hl : (left : Situation).Entails left') :
    Owns lent a x b left' := by
  intro others w hlent hw
  have hx := h others w hlent hw
  rcases hr : x w with ⟨e | r, v⟩
  · rw [hr] at hx
    exact ⟨hx.1, (hl others v ⟨hx.2.1, trivial⟩).1, hx.2.2⟩
  · rw [hr] at hx
    exact hx

theorem Owns.lend (h : Owns lent a x b left) (hl : lent ⊆ lent') : Owns lent' a x b left :=
  fun others w hlent => h others w (Multiset.Subset.trans hl hlent)

/-- What is in hand besides stays there, and what is lent may be part of it. -/
theorem Owns.frame (h : Owns lent a x b left) (u : Hands) (hl : lent ⊆ lent' + u) :
    Owns lent' (a.and u) x (fun r => (b r).and u) (left + u) := by
  intro others w hlent hw
  have hsub : lent ⊆ others + u := by
    intro z hz
    rcases Multiset.mem_add.mp (hl hz) with hz | hz
    · exact Multiset.mem_add.mpr (.inl (hlent hz))
    · exact Multiset.mem_add.mpr (.inr hz)
  have hx := h (others + u) w hsub ⟨hw.1.of_eq (by show _ = others + (a.hands + u); abel), hw.2⟩
  rcases hr : x w with ⟨e | r, v⟩
  · rw [hr] at hx
    exact ⟨hx.1, hx.2.1.of_eq (by abel), hx.2.2⟩
  · rw [hr] at hx
    exact ⟨⟨hx.1.1.of_eq (by show others + ((b r).hands + u) = _; abel), hx.1.2⟩, hx.2⟩

/-- An action that leaves nothing behind when it fails leaves what was in hand besides. -/
theorem Owns.beside (h : Owns lent a x b 0) (u : Hands) :
    Owns lent (a.and u) x (fun r => (b r).and u) u := by
  have hframe := h.frame u (subset_add lent u)
  rwa [zero_add] at hframe

/-- What was in hand besides may have been lent to it. -/
theorem Owns.lending (h : Owns (lent + u) a x b 0) :
    Owns lent (a.and u) x (fun r => (b r).and u) u := by
  have hframe := h.frame u (Multiset.Subset.refl (lent + u))
  rwa [zero_add] at hframe

/-! ## sequences -/

theorem Owns.pure {r : α} (h : a.Entails (b r)) : Owns lent a (pure r) b left :=
  fun others w _ hw => ⟨h others w hw, .refl w⟩

theorem Owns.throw {e : Failure} (he : ¬e.Internal) (h : a.Entails left) :
    Owns lent a (throw e : Act α) b left :=
  fun others w _ hw => ⟨he, (h others w hw).1, (Steady.refl w).opened⟩

theorem Owns.bind (hx : Owns lent a x b left) (hf : ∀ r, Owns lent (b r) (f r) c left) :
    Owns lent a (x >>= f) c left := by
  intro others w hlent hw
  have h := hx others w hlent hw
  rw [bind_apply]
  rcases hr : x w with ⟨e | r, v⟩
  · rw [hr] at h
    exact h
  · rw [hr] at h
    have h' := hf r others v hlent h.1
    dsimp only
    rcases hr' : f r v with ⟨e | y, z⟩
    · rw [hr'] at h'
      exact ⟨h'.1, h'.2.1, h.2.opened.trans h'.2.2⟩
    · rw [hr'] at h'
      exact ⟨h'.1, h.2.trans h'.2⟩

/-- A fact that is not about the world holds from then on. -/
theorem Owns.of_plain {p : Prop} (h : p → Owns lent u x b left) :
    Owns lent (plain u p) x b left :=
  fun others w hlent hw => h hw.2 others w hlent ⟨hw.1, trivial⟩

theorem Owns.of_and {p : Prop} {F : World → Prop} (h : p → Owns lent ⟨u, F⟩ x b left) :
    Owns lent ⟨u, fun w => p ∧ F w⟩ x b left :=
  fun others w hlent hw => h hw.2.1 others w hlent ⟨hw.1, hw.2.2⟩

/-- So does a fact that follows from the situation. -/
theorem Owns.of_holds {p : Prop} (hp : ∀ others w, lent ⊆ others → a.Holds others w → p)
    (h : p → Owns lent a x b left) : Owns lent a x b left :=
  fun others w hlent hw => h (hp others w hlent hw) others w hlent hw

theorem Owns.modify {g : World → World} {b : Situation}
    (h : ∀ others w, a.Holds others w → b.Holds others (g w) ∧ Steady w (g w)) :
    Owns lent a (modify g) (fun _ => b) left :=
  fun others w _ hw => h others w hw

/-- The world as it is now. -/
theorem Owns.get : Owns lent a (get : Act World) (fun w => ⟨a.hands, fun v => v = w ∧ a.fact v⟩)
    left :=
  fun _ w _ hw => ⟨⟨hw.1, rfl, hw.2⟩, .refl w⟩

/-- The world as it is now, of which nothing but the situation matters. -/
theorem Owns.get_bind {f : World → Act β} (hf : ∀ w, Owns lent a (f w) c left) :
    Owns lent a ((MonadState.get : Act World) >>= f) c left :=
  Owns.get.bind fun w => (hf w).weaken (fun _ _ h => ⟨h.1, h.2.2⟩) fun _ => .refl _

/-- What is known of the results of an action in such a situation. -/
theorem Owns.also {G : α → World → Prop} (h : Owns lent a x b left)
    (hg : ∀ others w r v, lent ⊆ others → a.Holds others w → x w = (.ok r, v) →
      (b r).Holds others v → Steady w v → G r v) :
    Owns lent a x (fun r => ⟨(b r).hands, fun v => (b r).fact v ∧ G r v⟩) left := by
  intro others w hlent hw
  have hx := h others w hlent hw
  rcases hr : x w with ⟨e | r, v⟩
  · rw [hr] at hx
    exact hx
  · rw [hr] at hx
    exact ⟨⟨hx.1.1, hx.1.2, hg others w r v hlent hw hr hx.1 hx.2⟩, hx.2⟩

/-- A fact that lasts is there before and after an action. -/
theorem Owns.lasting {F : World → Prop} (hF : ∀ {w v}, Onward w v → F w → F v)
    (h : Owns lent a x b left) :
    Owns lent ⟨a.hands, fun w => a.fact w ∧ F w⟩ x
      (fun r => ⟨(b r).hands, fun w => (b r).fact w ∧ F w⟩) left := by
  have hmore : Owns lent ⟨a.hands, fun w => a.fact w ∧ F w⟩ x b left :=
    h.weaken (fun _ _ hw => ⟨hw.1, hw.2.1⟩) fun _ => .refl _
  exact hmore.also fun _ _ _ _ _ hw _ _ hsteady => hF hsteady.toOnward hw.2.2

/-! ## endings -/

/-- An ending leads on from the result, and from a failure to what is left. -/
theorem Owns.always {ending : Act Unit} (hx : Owns lent a x b left')
    (hok : ∀ r, Owns lent (b r) ending (fun _ => b' r) left)
    (herr : Owns lent left' ending (fun _ => left) left) :
    Owns lent a (always x ending) b' left := by
  intro others w hlent hw
  have h := hx others w hlent hw
  rw [always_apply]
  rcases hr : x w with ⟨e | r, v⟩
  · rw [hr] at h
    have hend := herr others v hlent ⟨h.2.1, trivial⟩
    dsimp only
    rcases he : ending v with ⟨f | y, z⟩
    · rw [he] at hend
      exact ⟨Failure.not_internal_leaving h.1 fun g hg => by cases hg; exact hend.1, hend.2.1,
        h.2.2.trans hend.2.2⟩
    · rw [he] at hend
      exact ⟨h.1, hend.1.1, h.2.2.trans hend.2.opened⟩
  · rw [hr] at h
    have hend := hok r others v hlent h.1
    dsimp only
    rcases he : ending v with ⟨f | y, z⟩
    · rw [he] at hend
      exact ⟨hend.1, hend.2.1, h.2.opened.trans hend.2.2⟩
    · rw [he] at hend
      exact ⟨hend.1, h.2.trans hend.2⟩

theorem Owns.onFailure {cleanup : Act Unit} (hx : Owns lent a x b left')
    (herr : Owns lent left' cleanup (fun _ => left) left) :
    Owns lent a (onFailure x cleanup) b left := by
  intro others w hlent hw
  have h := hx others w hlent hw
  rw [onFailure_apply]
  rcases hr : x w with ⟨e | r, v⟩
  · rw [hr] at h
    have hend := herr others v hlent ⟨h.2.1, trivial⟩
    dsimp only
    rcases he : cleanup v with ⟨f | y, z⟩
    · rw [he] at hend
      exact ⟨Failure.not_internal_leaving h.1 fun g hg => by cases hg; exact hend.1, hend.2.1,
        h.2.2.trans hend.2.2⟩
    · rw [he] at hend
      exact ⟨h.1, hend.1.1, h.2.2.trans hend.2.opened⟩
  · rw [hr] at h
    exact h

/-- Something is lent to an action and given up after it, come what may. -/
theorem Owns.ending {ending : Act Unit} {t : Hands}
    (hx : Owns (lent + u) t x (fun r => plain 0 (p r)) 0)
    (he : Owns lent u ending (fun _ => (0 : Hands)) 0) :
    Owns lent ↑(t + u) (Act.always x ending) (fun r => plain 0 (p r)) 0 := by
  refine hx.lending.always (fun r => ?_) he
  exact .of_plain fun hp => (he.of_eq (zero_add u)).weaken (.refl _) fun _ => entails_plain hp

/-- Something is lent to an action and given up if it fails. -/
theorem Owns.rescue {cleanup : Act Unit} {t : Hands} (hx : Owns (lent + u) t x b 0)
    (hc : Owns lent u cleanup (fun _ => (0 : Hands)) 0) :
    Owns lent ↑(t + u) (Act.onFailure x cleanup) (fun r => (b r).and u) 0 := by
  exact hx.lending.onFailure hc

/-- Something is kept by an action, and given up if it fails. -/
theorem Owns.keep {cleanup : Act Unit} (hx : Owns (lent + u) (0 : Hands) x b 0)
    (hc : Owns lent u cleanup (fun _ => (0 : Hands)) 0) :
    Owns lent u (Act.onFailure x cleanup) (fun r => (b r).and u) 0 :=
  (hx.rescue hc).of_eq (zero_add u).symm

/-! ## safe actions -/

/-- Nothing is said of the result. -/
abbrev Anything {α : Type} : α → Prop := fun _ => True

def Safe (lent : Hands) (x : Act α) (p : α → Prop) : Prop :=
  Owns lent (0 : Hands) x (fun r => plain 0 (p r)) 0

theorem Safe.pure {r : α} (h : p r) : Safe lent (pure r) p := Owns.pure (entails_plain h)

theorem Safe.throw {e : Failure} (he : ¬e.Internal) : Safe lent (throw e : Act α) p :=
  Owns.throw he (.refl _)

/-- A safe action before another one. -/
theorem Safe.before (hx : Safe lent x p) (hf : ∀ r, p r → Owns lent (0 : Hands) (f r) c 0) :
    Owns lent (0 : Hands) (x >>= f) c 0 :=
  Owns.bind hx fun r => .of_plain (hf r)

theorem Safe.beside (hx : Safe lent x p) (u : Hands) :
    Owns lent u x (fun r => plain u (p r)) u := by
  refine (Owns.beside hx u).weaken (entails_of_eq (zero_add u).symm) fun r => ?_
  exact plain_of_eq (zero_add u)

theorem Safe.ending {ending : Act Unit} (hx : Safe (lent + u) x p)
    (he : Owns lent u ending (fun _ => (0 : Hands)) 0) :
    Owns lent u (Act.always x ending) (fun r => plain 0 (p r)) 0 :=
  (Owns.ending hx he).of_eq (zero_add u).symm

theorem Safe.bind (hx : Safe lent x p) (hf : ∀ r, p r → Safe lent (f r) q) :
    Safe lent (x >>= f) q := hx.before hf

theorem Safe.forM {l : List α} {f : α → Act Unit} (hf : ∀ a, Safe lent (f a) Anything) :
    Safe lent (l.forM f) Anything := by
  induction l with
  | nil => exact .pure trivial
  | cons a rest ih => exact (hf a).bind fun _ _ => ih

/-! ## settled actions -/

/-- The situation after an action whose failure is caught. -/
def settled (b : α → Situation) : Except Failure α → Situation
  | .ok r => b r
  | .error e => plain 0 (¬e.Internal)

def Settles (lent : Hands) (a : Situation) (x : Act α) (b : α → Situation) : Prop :=
  Owns lent a (attempt x) (settled b) 0

theorem Settles.owns (h : Settles lent a x b) : Owns lent a x b 0 := by
  intro others w hlent hw
  have hx := h others w hlent hw
  rw [attempt_apply] at hx
  rcases hr : x w with ⟨e | r, v⟩
  · rw [hr] at hx
    exact ⟨hx.1.2, hx.1.1, hx.2.opened⟩
  · rw [hr] at hx
    exact hx

theorem Settles.apply (h : Settles lent a x b) {others : Hands} {w : World} (hlent : lent ⊆ others)
    (hw : a.Holds others w) : ∃ outcome v, x w = (outcome, v) ∧
      (settled b outcome).Holds others v ∧ Steady w v :=
  ⟨_, _, rfl, h others w hlent hw⟩

/-- Nothing is left by an action that never fails. -/
theorem Owns.total (h : Owns lent a x b left) (hx : ∀ w, ∃ r v, x w = (.ok r, v)) :
    Owns lent a x b left' := by
  intro others w hlent hw
  have hxw := h others w hlent hw
  obtain ⟨r, v, hr⟩ := hx w
  rw [hr] at hxw ⊢
  exact hxw

theorem Owns.settles (h : Owns lent a x b 0) (hx : ∀ w, ∃ r v, x w = (.ok r, v)) :
    Settles lent a x b := by
  intro others w hlent hw
  have hxw := h others w hlent hw
  obtain ⟨r, v, hr⟩ := hx w
  rw [hr] at hxw
  rw [attempt_apply, hr]
  exact hxw

theorem Settles.weaken (h : Settles lent a x b) (ha : a'.Entails a)
    (hb : ∀ r, (b r).Entails (b' r)) : Settles lent a' x b' :=
  Owns.weaken h ha fun o => by
    cases o with
    | ok r => exact hb r
    | error e => exact .refl _

theorem Settles.pure {r : α} (h : a.Entails (b r)) : Settles lent a (pure r) b := Owns.pure h

theorem Settles.throw {e : Failure} (he : ¬e.Internal) (h : a.Entails (0 : Hands)) :
    Settles lent a (throw e : Act α) b :=
  Owns.pure fun others w hw => ⟨(h others w hw).1, he⟩

theorem Settles.of_plain {p : Prop} (h : p → Settles lent u x b) : Settles lent (plain u p) x b :=
  Owns.of_plain h

theorem attempt_bind (x : Act α) (f : α → Act β) :
    attempt (x >>= f) = attempt x >>= fun o =>
      match o with
      | .ok r => attempt (f r)
      | .error e => Pure.pure (.error e) := by
  funext w
  rw [bind_apply, attempt_apply, attempt_apply, bind_apply]
  rcases x w with ⟨e | r, v⟩
  · rfl
  · rfl

theorem Settles.get_bind {f : World → Act β} (hf : ∀ w, Settles lent a (f w) c) :
    Settles lent a ((MonadState.get : Act World) >>= f) c := by
  unfold Settles
  rw [attempt_bind]
  exact Owns.get_bind fun w => hf w

theorem attempt_onFailure (x : Act α) (cleanup : Act Unit) :
    attempt (Act.onFailure x cleanup) = attempt x >>= fun o =>
      match o with
      | .ok r => Pure.pure (.ok r)
      | .error e => attempt cleanup >>= fun o' => Pure.pure (.error (e.leaving o')) := by
  funext w
  rw [attempt_apply, onFailure_apply, bind_apply, attempt_apply]
  rcases x w with ⟨e | r, v⟩
  · rfl
  · rfl

theorem Settles.bind (hx : Settles lent a x b) (hf : ∀ r, Settles lent (b r) (f r) c) :
    Settles lent a (x >>= f) c := by
  unfold Settles
  rw [attempt_bind]
  refine Owns.bind hx fun o => ?_
  cases o with
  | ok r => exact hf r
  | error e => exact .pure (.refl _)

theorem attempt_always (x : Act α) (ending : Act Unit) :
    attempt (Act.always x ending) = attempt x >>= fun o => attempt ending >>= fun o' =>
      Pure.pure (match o, o' with
        | .ok r, .ok _ => .ok r
        | .ok _, .error e => .error e
        | .error e, o' => .error (e.leaving o')) := by
  funext w
  rw [attempt_apply, always_apply, bind_apply, attempt_apply]
  rcases x w with ⟨e | r, v⟩
  · rfl
  · dsimp only
    rw [bind_apply, attempt_apply]
    rcases ending v with ⟨f | y, z⟩
    · rfl
    · rfl

/-- What is left in hand by an action that is caught. -/
theorem Settles.lending {t : Hands} (hx : Settles (lent + u) t x b) :
    Owns lent ↑(t + u) (attempt x)
      (fun o => match o with
        | .ok r => (b r).and u
        | .error e => plain u (¬e.Internal)) left := by
  have hlending : Owns lent ↑(t + u) (attempt x) (fun o => (settled b o).and u) left :=
    (Owns.lending hx).total fun w => ⟨_, _, rfl⟩
  refine hlending.weaken (.refl _) fun o => ?_
  cases o with
  | ok r => exact .refl _
  | error e => exact plain_of_eq (zero_add u)

/-- An action that fails is followed by another one, whose failure does not matter then. -/
theorem Settles.rescue {cleanup : Act Unit} {t : Hands} {F : World → Prop}
    (hF : ∀ {w v}, Onward w v → F w → F v) (hx : Settles (lent + u) t x b)
    (hc : Settles lent ⟨u, F⟩ cleanup fun _ => (0 : Hands)) :
    Settles lent ⟨t + u, F⟩ (Act.onFailure x cleanup)
      fun r => ⟨(b r).hands + u, fun w => (b r).fact w ∧ F w⟩ := by
  unfold Settles
  rw [attempt_onFailure]
  have hstart : Owns lent ⟨t + u, F⟩ (attempt x) _ 0 :=
    (hx.lending.lasting hF).weaken (fun _ _ hw => ⟨hw.1, trivial, hw.2⟩) fun _ => .refl _
  refine hstart.bind fun o => ?_
  cases o with
  | ok r => exact .pure (.refl _)
  | error e =>
    refine .of_and fun he => Owns.bind hc fun o' => ?_
    cases o' with
    | ok _ => exact .pure fun _ w hw => ⟨hw.1, he⟩
    | error f =>
      refine .pure fun _ w hw => ⟨hw.1, Failure.not_internal_leaving he fun g hg => ?_⟩
      cases hg
      exact hw.2

theorem Settles.ending {ending : Act Unit} {t : Hands}
    (hx : Settles (lent + u) t x fun _ => (0 : Hands))
    (he : Settles lent u ending fun _ => (0 : Hands)) :
    Settles lent ↑(t + u) (Act.always x ending) fun _ => (0 : Hands) := by
  unfold Settles
  rw [attempt_always]
  refine hx.lending.bind fun o => ?_
  cases o with
  | ok r =>
    refine Owns.weaken (a := (u : Situation)) (Owns.bind he fun o' => ?_)
      (entails_of_eq (zero_add u)) fun _ => .refl _
    cases o' with
    | ok _ => exact .pure (.refl _)
    | error f => exact .pure (.refl _)
  | error e =>
    refine .of_plain fun hi => Owns.bind he fun o' => ?_
    cases o' with
    | ok _ => exact .pure fun _ w hw => ⟨hw.1, hi⟩
    | error f =>
      refine .pure fun _ w hw => ⟨hw.1, Failure.not_internal_leaving hi fun g hg => ?_⟩
      cases hg
      exact hw.2

end Act

end LiveOrder
