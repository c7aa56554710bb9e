import LiveOrder.Proofs.World.Owns

/-!
# Access to containers in order

* `Sees`           a situation that assures that an object is there;
* `bracket`        an action inside an access, or inside the guard: what was set at the beginning is
                   still so at the end, and what was there before is put back;
* `sharing_eq`, `exclusivelyOr_eq`, `searching_eq`   what they do where they are granted;
* `exclusively_searching_eq`   a store operation on a container that is not in use;
* `sharing_owns`, `exclusivelyOr_owns`, `searching_owns`   the three brackets;
* `readStore_owns`, `InOrder.store`, `onStore_owns`   a store operation does not fail, and moves what
                   it stores, what it frees and the pins.
-/

namespace LiveOrder

namespace World

def Has (w : World) (r : Nat) : Prop := ∃ d, Table.get? r w.cells = some d

def HasContainer (w : World) (r : Nat) : Prop := ∃ c, containerAt? w.cells r = some c

/-- The container is being read. -/
def Accessed (w : World) (r : Nat) : Prop :=
  ∃ c n, containerAt? w.cells r = some c ∧ c.access = .shared (n + 1)

/-- The operation changes the container, and nothing searches in it. -/
def Locked (w : World) (r : Nat) (op : Operation) : Prop :=
  ∃ c, containerAt? w.cells r = some c ∧ c.changes = [op] ∧ c.active = none

def Idle (w : World) (r : Nat) : Prop :=
  ∃ c, containerAt? w.cells r = some c ∧ c.access = .shared 0

/-- The world with another container at an object. -/
def changed (w : World) (r : Nat) (c : Container) : World :=
  { w with cells := Table.change r (fun d => { d with body := .container c }) w.cells }

/-- The object is a container of this kind, or is gone. -/
def Kinded (w : World) (r : Nat) (kind : Kind) : Prop :=
  r < w.fresh ∧ ∀ {c}, containerAt? w.cells r = some c → c.kind = kind

/-- The fact does not depend on what a container is like. -/
def Stable (r : Nat) (F : World → Prop) : Prop :=
  ∀ w c d, containerAt? w.cells r = some c → F w → F (w.changed r d)

end World

namespace Act

open Situation

variable {lent : Hands} {a : Situation} {r : Nat}

/-- The object is there as long as what is lent, what is in hand and the fact are. -/
def Sees (lent : Hands) (a : Situation) (r : Nat) : Prop :=
  ∀ others w, lent ⊆ others → a.Holds others w → w.Has r

theorem Sees.of_lent (h : .handle r ∈ lent) : Sees lent a r :=
  fun _ _ hlent hw => hw.1.exists_of_mem (Multiset.mem_add.mpr (.inl (hlent h)))

theorem Sees.of_fact (h : ∀ w, a.fact w → w.Has r) : Sees lent a r :=
  fun _ w _ hw => h w hw.2

/-- A cursor holds its container. -/
theorem Sees.of_cursor (id : Nat) (s? : Option Nat)
    (h : .cursor id (some ⟨some r, s?⟩) ∈ lent + a.hands) : Sees lent a r := by
  intro others w hlent hw
  have hmem : .cursor id (some ⟨some r, s?⟩) ∈ others + a.hands := by
    rcases Multiset.mem_add.mp h with h | h
    · exact Multiset.mem_add.mpr (.inl (hlent h))
    · exact Multiset.mem_add.mpr (.inr h)
  refine hw.1.exists_of_mem_assets (hw.1.subset_of_row (hw.1.known hmem) ?_)
  simp [Walk.assets]

end Act

namespace World

open Act Situation Table

variable {α : Type} {w : World} {lent h left hands : Hands} {a : Situation} {b : α → Situation} {x : Act α}
  {g : α → Hands} {p : α → Prop} {r : Nat} {c d : Container}

/-! ## objects -/

theorem changed_changed (e : Container) : (w.changed r d).changed r e = w.changed r e := by
  unfold changed
  rw [change_change]

theorem changed_registering (more : List Origin) :
    (w.registering more).changed r d = (w.changed r d).registering more := rfl

theorem changed_self (hw : Table.Distinct w.cells) (hc : containerAt? w.cells r = some c) :
    w.changed r c = w := by
  obtain ⟨n, hd⟩ := containerAt?_eq_some_iff.mp hc
  unfold changed
  rw [hw.change_eq_self hd rfl]

theorem containerAt?_changed (hc : containerAt? w.cells r = some c) (d : Container) :
    containerAt? (w.changed r d).cells r = some d := by
  obtain ⟨n, hd⟩ := containerAt?_eq_some_iff.mp hc
  unfold changed
  rw [containerAt?_setBody, if_pos rfl, hd]
  rfl

theorem containerAt?_changed_of_ne (d : Container) {q : Nat} (hq : q ≠ r) :
    containerAt? (w.changed r d).cells q = containerAt? w.cells q := by
  unfold changed
  rw [containerAt?_setBody, if_neg hq]

theorem formAt_changed (hc : containerAt? w.cells r = some c) (d : Container) (q : Nat) :
    formAt (w.changed r d).cells q = if q = r then some d.form else formAt w.cells q := by
  obtain ⟨n, hd⟩ := containerAt?_eq_some_iff.mp hc
  unfold formAt changed
  rw [get?_change]
  split
  · rename_i hq
    rw [hq, hd]
    rfl
  · rfl

theorem formAt_eq_some_iff {cells : List (Nat × Cell)} :
    formAt cells r = some c.form ↔ ∃ d, containerAt? cells r = some d ∧ d.form = c.form := by
  unfold formAt containerAt?
  cases get? r cells with
  | none => exact ⟨nofun, fun ⟨_, h, _⟩ => nomatch h⟩
  | some e =>
    obtain ⟨n, body⟩ := e
    cases body with
    | container d => exact ⟨fun h => ⟨d, rfl, Option.some.inj h⟩, fun ⟨_, rfl, h⟩ => congrArg some h⟩
    | function f => exact ⟨nofun, fun ⟨_, h, _⟩ => nomatch h⟩
    | allocation s => exact ⟨nofun, fun ⟨_, h, _⟩ => nomatch h⟩

/-- A container that is not gone is still the same one, at a later time. -/
theorem container_of_onward {v : World} (h : Onward w v) (hc : containerAt? w.cells r = some c)
    (hr : r < w.fresh) (hv : v.Has r) :
    ∃ d, containerAt? v.cells r = some d ∧ d.form = c.form ∧ c.store.chain.Ages d.store.chain := by
  obtain ⟨cell, hcell⟩ := hv
  have hform : formAt v.cells r = some cell.body.form := by
    unfold formAt
    rw [hcell]
    rfl
  rcases h.forms hform with hold | ⟨hle, _⟩
  · have hsame : formAt w.cells r = some c.form := formAt_eq_some_iff.mpr ⟨c, hc, rfl⟩
    rw [hsame] at hold
    rw [← hold] at hform
    obtain ⟨d, hd, hdform⟩ := formAt_eq_some_iff.mp hform
    rcases h.ages hd with ⟨b, hb, hage⟩ | hle
    · rw [hc] at hb
      cases hb
      exact ⟨d, hd, hdform, hage⟩
    · exact absurd hr (Nat.not_lt.mpr hle)
  · exact absurd hr (Nat.not_lt.mpr hle)

theorem InOrder.kinded (hw : w.InOrder hands) (hc : containerAt? w.cells r = some c) :
    w.Kinded r c.kind := by
  obtain ⟨n, hn⟩ := containerAt?_eq_some_iff.mp hc
  refine ⟨hw.books.lt_fresh hn, fun hd => ?_⟩
  rw [hc] at hd
  cases hd
  rfl

theorem Kinded.changed {kind : Kind} (h : w.Kinded r kind) (hc : containerAt? w.cells r = some c)
    (hkind : d.kind = c.kind) : (w.changed r d).Kinded r kind := by
  refine ⟨h.1, fun he => ?_⟩
  rw [containerAt?_changed hc] at he
  cases he
  exact hkind.trans (h.2 hc)

/-- A container never becomes one of another kind. -/
theorem Kinded.onward {v : World} {kind : Kind} (h : Onward w v) (hw : w.Kinded r kind) :
    v.Kinded r kind := by
  refine ⟨Nat.lt_of_lt_of_le hw.1 h.fresh, fun {d} hd => ?_⟩
  rcases h.forms (formAt_eq_some_iff.mpr ⟨d, hd, rfl⟩) with hold | ⟨hle, _⟩
  · obtain ⟨c, hc, hform⟩ := formAt_eq_some_iff.mp hold
    exact (Form.container.inj hform).1.symm.trans (hw.2 hc)
  · exact absurd hw.1 (Nat.not_lt.mpr hle)

/-- Another use of a container. -/
theorem InOrder.use (hw : w.InOrder hands) (hc : containerAt? w.cells r = some c)
    (hstore : d.store = c.store) (hkind : d.kind = c.kind) (hguard : d.Disciplined) :
    (w.changed r d).InOrder hands := by
  have hnone : hands = hands + handles [] + pinAt r none := by simp
  have hset : (w.changed r d).InOrder (hands + handles [] + pinAt r none) :=
    (hw.of_eq hnone.symm).setContainer hc (by rw [hstore]) (w.houses_zero r)
      (fun pins hs => by rwa [hstore]) hguard (.of_store hstore hkind)
  exact hset.of_eq hnone

/-- What a container holds is there. -/
theorem has_of_held (hw : w.InOrder hands) (hc : containerAt? w.cells r = some c) {e : Key × Item}
    (he : e ∈ c.store.held) :
    ∀ q ∈ e.1.refs ++ e.2.refs, w.Has q := by
  intro q hq
  obtain ⟨n, hd⟩ := containerAt?_eq_some_iff.mp hc
  refine hw.exists_of_mem_assets (hw.subset_of_cell hd (subset_pairsOf he ?_))
  exact handle_mem_handles.mpr hq

theorem stable_has (r q : Nat) : Stable r fun w => w.Has q := by
  intro w c d _ ⟨e, he⟩
  unfold Has changed
  rw [get?_change, he]
  split <;> exact ⟨_, rfl⟩

theorem cell_eq {e : Cell} (he : get? r w.cells = some e) : cell r w = (.ok e, w) := by
  rw [cell, get_bind_apply, he]
  rfl

theorem cell_eq_none (hr : get? r w.cells = none) :
    cell r w = (.error (.dangling r), { w with faults := .dangling r :: w.faults }) := by
  rw [cell, get_bind_apply, hr]
  rfl

theorem cell_owns (ha : Sees lent a r) :
    Owns lent a (cell r) (fun d => ⟨a.hands, fun w => a.fact w ∧ get? r w.cells = some d⟩) left := by
  intro others w hlent hw
  obtain ⟨d, hd⟩ := ha others w hlent hw
  rw [cell_eq hd]
  exact ⟨⟨hw.1, hw.2, hd⟩, .refl w⟩

/-- An object is a container, or else it is misused. -/
theorem container_cases (hr : w.Has r) :
    (∃ c, containerAt? w.cells r = some c ∧ container r w = (.ok c, w)) ∨
      container r w = (.error (.misuse .operation), w) := by
  obtain ⟨d, hd⟩ := hr
  obtain ⟨n, body⟩ := d
  rw [container, bind_apply, cell_eq hd]
  cases body with
  | container c => exact .inl ⟨c, containerAt?_eq_some_iff.mpr ⟨n, hd⟩, rfl⟩
  | function f => exact .inr rfl
  | allocation s => exact .inr rfl

/-- A container that is found is there. -/
theorem container_eq_ok {v : World} (hr : w.Has r) (h : container r w = (.ok c, v)) :
    v = w ∧ containerAt? w.cells r = some c := by
  rcases container_cases hr with ⟨d, hd, he⟩ | he
  · rw [he] at h
    cases h
    exact ⟨rfl, hd⟩
  · rw [he] at h
    cases h

theorem container_eq (hc : containerAt? w.cells r = some c) : container r w = (.ok c, w) := by
  obtain ⟨n, hd⟩ := containerAt?_eq_some_iff.mp hc
  rw [container, bind_apply, cell_eq hd]
  rfl

theorem container_error (hc : containerAt? w.cells r = none) :
    ∃ e v, container r w = (.error e, v) := by
  cases hd : get? r w.cells with
  | none => exact ⟨_, _, by rw [container, bind_apply, cell_eq_none hd]⟩
  | some cell =>
    obtain ⟨n, body⟩ := cell
    rw [container, bind_apply, cell_eq hd]
    cases body with
    | container c => rw [containerAt?_eq_some_iff.mpr ⟨n, hd⟩] at hc; cases hc
    | function f => exact ⟨_, _, rfl⟩
    | allocation s => exact ⟨_, _, rfl⟩

/-- A look into a store that it answers. -/
theorem readStore_eq {f : Store Item → Except Fault α} {y : α}
    (hc : containerAt? w.cells r = some c) (hf : f c.store = .ok y) :
    readStore r f w = (.ok y, w) := by
  rw [readStore, bind_apply, container_eq hc]
  dsimp only
  rw [hf]
  rfl

theorem onStore_eq {f : Store Item → Except Fault (α × Store Item)} {y : α} {t : Store Item}
    (hc : containerAt? w.cells r = some c) (hf : f c.store = .ok (y, t)) :
    onStore r f w = (.ok y, w.changed r { c with store := t }) := by
  rw [onStore, bind_of_ok (container_eq hc), hf]
  rfl

theorem setAccess_eq (hc : containerAt? w.cells r = some c) (access : Access) :
    setAccess r access w = (.ok (), w.changed r { c with access }) := by
  rw [setAccess, bind_apply, container_eq hc]
  rfl

theorem setActive_eq (hc : containerAt? w.cells r = some c) (active : Option Operation) :
    setActive r active w = (.ok (), w.changed r { c with active }) := by
  rw [setActive, bind_apply, container_eq hc]
  rfl

/-! ## uses that begin and end -/

theorem enlist_eq (hc : containerAt? w.cells r = some c) (use : Use) :
    enlist r use w = (.ok (), w.changed r { c with uses := use :: c.uses }) := by
  rw [enlist, bind_apply, container_eq hc]
  rfl

theorem delist_eq (hc : containerAt? w.cells r = some c) :
    delist r w = (.ok (), w.changed r { c with uses := c.uses.tail }) := by
  rw [delist, bind_apply, container_eq hc]
  rfl

theorem sharing_eq {n : Nat} (hc : containerAt? w.cells r = some c) (ha : c.access = .shared n) :
    sharing r x w = always x (do
      delist r
      endShared r) (w.changed r (c.beingRead n)) := by
  have hbegin : beginShared r w = (.ok (), w.changed r { c with access := .shared (n + 1) }) := by
    rw [beginShared, bind_apply, container_eq hc]
    dsimp only
    rw [ha]
    exact setAccess_eq hc _
  rw [sharing, bind_of_ok hbegin, bind_of_ok (enlist_eq (containerAt?_changed hc _) _),
    changed_changed]
  rfl

theorem exclusivelyOr_eq {refused : Act Unit} {op : Operation} (hc : containerAt? w.cells r = some c)
    (ha : c.access = .shared 0) :
    exclusivelyOr refused r op x w = always x (do
      delist r
      endExclusive r) (w.changed r (c.beingChanged op)) := by
  have hbegin : beginExclusive r w = (.ok (), w.changed r { c with access := .exclusive }) := by
    rw [beginExclusive, bind_apply, container_eq hc]
    dsimp only
    rw [ha]
    exact setAccess_eq hc _
  rw [exclusivelyOr, bind_of_ok (onFailure_eq_ok.mpr hbegin),
    bind_of_ok (enlist_eq (containerAt?_changed hc _) _), changed_changed]
  rfl

theorem searching_eq {op : Operation} (hc : containerAt? w.cells r = some c) (hnone : c.active = none) :
    searching r op x w = always x (do
      delist r
      leaveGuard r) (w.changed r (c.beingSearched op)) := by
  have henter : enterGuard r op w = (.ok (), w.changed r { c with active := some op }) := by
    rw [enterGuard, bind_apply, container_eq hc]
    dsimp only
    rw [hnone]
    exact setActive_eq hc _
  rw [searching, bind_of_ok henter, bind_of_ok (enlist_eq (containerAt?_changed hc _) _),
    changed_changed]
  rfl

theorem endReading_eq {n : Nat} (ha : c.access = .shared n) (hd : containerAt? w.cells r = some d)
    (hform : d.form = (c.beingRead n).form) :
    (do
      delist r
      endShared r : Act Unit) w = (.ok (), w.changed r (d.usedAs c)) := by
  obtain ⟨kind, store, access, active, uses⟩ := d
  obtain ⟨_, rfl, rfl, rfl⟩ := Form.container.inj hform
  have hd' := containerAt?_changed hd ⟨kind, store, .shared (n + 1), c.active, c.uses⟩
  have hend : endShared r (w.changed r ⟨kind, store, .shared (n + 1), c.active, c.uses⟩) =
      (.ok (), w.changed r ⟨kind, store, .shared n, c.active, c.uses⟩) := by
    rw [endShared, bind_of_ok (container_eq hd')]
    dsimp only
    rw [setAccess_eq hd', changed_changed]
    rfl
  rw [bind_of_ok (delist_eq hd), Container.usedAs, ha]
  exact hend

theorem endChanging_eq {op : Operation} (ha : c.access = .shared 0)
    (hd : containerAt? w.cells r = some d) (hform : d.form = (c.beingChanged op).form) :
    (do
      delist r
      endExclusive r : Act Unit) w = (.ok (), w.changed r (d.usedAs c)) := by
  obtain ⟨kind, store, access, active, uses⟩ := d
  obtain ⟨_, rfl, rfl, rfl⟩ := Form.container.inj hform
  rw [bind_of_ok (delist_eq hd), endExclusive, setAccess_eq (containerAt?_changed hd _),
    changed_changed, Container.usedAs, ha]
  rfl

theorem endSearching_eq {op : Operation} (hnone : c.active = none)
    (hd : containerAt? w.cells r = some d) (hform : d.form = (c.beingSearched op).form) :
    (do
      delist r
      leaveGuard r : Act Unit) w = (.ok (), w.changed r (d.usedAs c)) := by
  obtain ⟨kind, store, access, active, uses⟩ := d
  obtain ⟨_, rfl, rfl, rfl⟩ := Form.container.inj hform
  have hd' := containerAt?_changed hd ⟨kind, store, c.access, some op, c.uses⟩
  have hend : leaveGuard r (w.changed r ⟨kind, store, c.access, some op, c.uses⟩) =
      (.ok (), w.changed r ⟨kind, store, c.access, none, c.uses⟩) := by
    rw [leaveGuard, bind_of_ok (container_eq hd')]
    dsimp only
    rw [setActive_eq hd', changed_changed]
  rw [bind_of_ok (delist_eq hd), Container.usedAs, hnone]
  exact hend

/-! ## brackets -/

/-- What stays while a container is in another use stays when the use that there was is put back. -/
theorem onward_restored {v : World} {e : Container} (hon : Onward (w.changed r d) v)
    (hc : containerAt? w.cells r = some c) (hstore : d.store = c.store) (hkind : d.kind = c.kind)
    (he : containerAt? v.cells r = some e) (hform : e.form = d.form) :
    Onward w (v.changed r (e.usedAs c)) := by
  refine ⟨{ hon.toRecorded with }, hon.fresh, fun {q f} hf => ?_, fun {q f} hf => ?_, hon.freshWalk,
    hon.done, hon.limits⟩
  · rw [formAt_changed he] at hf
    split at hf
    · rename_i hq
      cases hf
      refine .inl (hq ▸ formAt_eq_some_iff.mpr ⟨c, hc, ?_⟩)
      show Form.container c.kind c.access c.active c.uses = .container e.kind c.access c.active c.uses
      rw [← hkind, (Form.container.inj hform).1]
    · rename_i hq
      have hold := hon.forms hf
      rwa [formAt_changed hc, if_neg hq] at hold
  · -- the store is not changed by another use of the container
    have hsame : ∃ f', containerAt? v.cells q = some f' ∧ f'.store = f.store := by
      by_cases hq : q = r
      · subst hq
        rw [containerAt?_changed he] at hf
        cases hf
        exact ⟨e, he, rfl⟩
      · rw [containerAt?_changed_of_ne _ hq] at hf
        exact ⟨f, hf, rfl⟩
    obtain ⟨f', hf', hfstore⟩ := hsame
    rcases hon.ages hf' with ⟨b, hb, hage⟩ | hle
    · rw [hfstore] at hage
      by_cases hq : q = r
      · subst hq
        rw [containerAt?_changed hc] at hb
        cases hb
        exact .inl ⟨c, hc, hstore ▸ hage⟩
      · rw [containerAt?_changed_of_ne _ hq] at hb
        exact .inl ⟨b, hb, hage⟩
    · exact .inr hle

/-- An action between a beginning, which has set the container to another use, and an ending, which
puts back the use that there was. -/
theorem bracket {ending : Act Unit} {others : Hands} {F : World → Prop}
    (hw : w.InOrder (others + h)) (hlent : lent ⊆ others) (hc : containerAt? w.cells r = some c)
    (hstore : d.store = c.store) (hkind : d.kind = c.kind) (hguard : d.Disciplined)
    (hF : F (w.changed r d)) (hx : Owns lent ⟨h, F⟩ x b left) (hb : ∀ y, Stable r (b y).fact)
    (hsees : Sees lent left r) (hsees' : ∀ y, Sees lent (b y) r)
    (hend : ∀ v e, containerAt? v.cells r = some e → e.form = d.form →
      ending v = (.ok (), v.changed r (e.usedAs c))) :
    match always x ending (w.changed r d) with
    | (.ok y, v) => (b y).Holds others v ∧ Steady w v
    | (.error e, v) => ¬e.Internal ∧ v.InOrder (others + left) ∧ Opened w v := by
  have hbegin := hx others (w.changed r d) hlent ⟨hw.use hc hstore hkind hguard, hF⟩
  -- the container that is there at the end is still in the use that was set
  have hstill : ∀ v, Onward (w.changed r d) v → v.Has r →
      ∃ e, containerAt? v.cells r = some e ∧ e.form = d.form := by
    intro v hv hr
    obtain ⟨n, hn⟩ := containerAt?_eq_some_iff.mp hc
    obtain ⟨e, he, hform, _⟩ := container_of_onward hv (containerAt?_changed hc d)
      (hw.books.lt_fresh hn) hr
    exact ⟨e, he, hform⟩
  have hback : ∀ e : Container, (e.usedAs c).Disciplined := (hw.books.guarded hc).usedAs
  have hrestore : ∀ v e hands, v.InOrder hands → Onward (w.changed r d) v →
      containerAt? v.cells r = some e → e.form = d.form →
      (v.changed r (e.usedAs c)).InOrder hands ∧ Onward w (v.changed r (e.usedAs c)) :=
    fun v e hands hv hon he hform =>
      ⟨hv.use he rfl rfl (hback e), onward_restored hon hc hstore hkind he hform⟩
  rw [always_apply]
  rcases hr : x (w.changed r d) with ⟨e | y, v⟩
  · rw [hr] at hbegin
    obtain ⟨hi, hv, hopened⟩ := hbegin
    obtain ⟨f, hf, hform⟩ := hstill v hopened.toOnward (hsees others v hlent ⟨hv, trivial⟩)
    obtain ⟨hv', hon⟩ := hrestore v f _ hv hopened.toOnward hf hform
    dsimp only
    rw [hend v f hf hform]
    exact ⟨hi, hv', hon, hopened.visiting, hopened.calls⟩
  · rw [hr] at hbegin
    obtain ⟨⟨hv, hp⟩, hsteady⟩ := hbegin
    obtain ⟨f, hf, hform⟩ := hstill v hsteady.toOnward (hsees' y others v hlent ⟨hv, hp⟩)
    obtain ⟨hv', hon⟩ := hrestore v f _ hv hsteady.toOnward hf hform
    dsimp only
    rw [hend v f hf hform]
    exact ⟨⟨hv', hb y v f _ hf hp⟩, hon, hsteady.visiting, hsteady.calls⟩

/-! ## access -/

theorem beginShared_cases (hr : w.Has r) :
    (∃ c n, containerAt? w.cells r = some c ∧ c.access = .shared n) ∨
      ∃ e : Failure, ¬e.Internal ∧ beginShared r w = (.error e, w) := by
  rcases container_cases hr with ⟨c, hc, he⟩ | he
  · rw [beginShared, bind_apply, he]
    dsimp only
    cases ha : c.access with
    | shared n => exact .inl ⟨c, n, hc, ha⟩
    | exclusive => exact .inr ⟨.conflict, id, rfl⟩
  · rw [beginShared, bind_apply, he]
    exact .inr ⟨.misuse .operation, id, rfl⟩

theorem beginExclusive_cases (hr : w.Has r) :
    (∃ c, containerAt? w.cells r = some c ∧ c.access = .shared 0) ∨
      ∃ e : Failure, ¬e.Internal ∧ beginExclusive r w = (.error e, w) := by
  rcases container_cases hr with ⟨c, hc, he⟩ | he
  · rw [beginExclusive, bind_apply, he]
    dsimp only
    cases ha : c.access with
    | exclusive => exact .inr ⟨.conflict, id, rfl⟩
    | shared n =>
      cases n with
      | zero => exact .inl ⟨c, hc, ha⟩
      | succ n => exact .inr ⟨.conflict, id, rfl⟩
  · rw [beginExclusive, bind_apply, he]
    exact .inr ⟨.misuse .operation, id, rfl⟩

theorem sharing_owns (hx : Owns lent ⟨h, fun w => w.Accessed r⟩ x (fun y => plain (g y) (p y)) left)
    (hl : (h : Situation).Entails left) (hr : Sees lent h r) (hleft : Sees lent left r)
    (hg : ∀ y, Sees lent (plain (g y) (p y)) r) :
    Owns lent h (sharing r x) (fun y => plain (g y) (p y)) left := by
  intro others w hlent hw
  rcases beginShared_cases (hr others w hlent hw) with ⟨c, n, hc, ha⟩ | ⟨e, hi, he⟩
  · rw [sharing_eq hc ha]
    refine bracket hw.1 hlent hc rfl rfl ((hw.1.books.guarded hc).reading ha) ?_ hx
      (fun _ _ _ _ _ hp => hp) hleft hg fun v e hv hform => endReading_eq ha hv hform
    exact ⟨_, n, containerAt?_changed hc _, rfl⟩
  · rw [sharing, bind_apply, he]
    exact ⟨hi, (hl others w hw).1, (Steady.refl w).opened⟩

theorem exclusivelyOr_owns {refused : Act Unit} {op : Operation} (hop : op.isUpdate = true)
    (hx : Owns lent ⟨h, fun w => w.Locked r op⟩ x (fun y => plain (g y) (p y)) left)
    (hrefused : Owns lent h refused (fun _ => left) left) (hr : Sees lent h r)
    (hleft : Sees lent left r) (hg : ∀ y, Sees lent (plain (g y) (p y)) r) :
    Owns lent h (exclusivelyOr refused r op x) (fun y => plain (g y) (p y)) left := by
  intro others w hlent hw
  rcases beginExclusive_cases (hr others w hlent hw) with ⟨c, hc, ha⟩ | ⟨e, hi, he⟩
  · rw [exclusivelyOr_eq hc ha]
    obtain ⟨hnone, hempty⟩ := (hw.1.books.guarded hc).idle ha
    refine bracket hw.1 hlent hc rfl rfl ((hw.1.books.guarded hc).changing ha hop) ?_ hx
      (fun _ _ _ _ _ hp => hp) hleft hg fun v e hv hform => endChanging_eq ha hv hform
    refine ⟨_, containerAt?_changed hc _, ?_, hnone⟩
    rw [Container.changes, Container.beingChanged, hempty]
    rfl
  · rw [exclusivelyOr, bind_apply, onFailure_apply, he]
    have hend := hrefused others w hlent hw
    dsimp only
    rcases hf : refused w with ⟨f | y, v⟩
    · rw [hf] at hend
      exact ⟨Failure.not_internal_leaving hi fun g hg => by cases hg; exact hend.1, hend.2⟩
    · rw [hf] at hend
      exact ⟨hi, hend.1.1, hend.2.opened⟩

theorem exclusively_owns {op : Operation} (hop : op.isUpdate = true)
    (hx : Owns lent ⟨h, fun w => w.Locked r op⟩ x (fun y => plain (g y) (p y)) left)
    (hl : (h : Situation).Entails left) (hr : Sees lent h r) (hleft : Sees lent left r)
    (hg : ∀ y, Sees lent (plain (g y) (p y)) r) :
    Owns lent h (exclusively r op x) (fun y => plain (g y) (p y)) left :=
  exclusivelyOr_owns hop hx (.pure hl) hr hleft hg

theorem isIdle_eq (hc : containerAt? w.cells r = some c) :
    isIdle r w = (.ok (decide (c.access = .shared 0)), w) := by
  obtain ⟨n, hd⟩ := containerAt?_eq_some_iff.mp hc
  rw [isIdle, bind_of_ok (cell_eq hd)]
  rfl

theorem isIdle_owns (hr : Sees lent h r) :
    Owns lent h (isIdle r) (fun y => ⟨h, fun w => y = true → w.Idle r⟩) left := by
  intro others w hlent hw
  obtain ⟨⟨n, body⟩, hd⟩ := hr others w hlent hw
  rw [isIdle, bind_apply, cell_eq hd]
  cases body with
  | container c =>
    have hc : containerAt? w.cells r = some c := containerAt?_eq_some_iff.mpr ⟨n, hd⟩
    exact ⟨⟨hw.1, fun hi => ⟨c, hc, of_decide_eq_true hi⟩⟩, .refl w⟩
  | function f => exact ⟨⟨hw.1, nofun⟩, .refl w⟩
  | allocation s => exact ⟨⟨hw.1, nofun⟩, .refl w⟩

/-! ## the guard -/

/-- What the guard does to a container that is in use, if nothing searches in it. -/
theorem guard_bracket {others : Hands} {op : Operation} {F : World → Prop}
    (hw : w.InOrder (others + h)) (hlent : lent ⊆ others) (hc : containerAt? w.cells r = some c)
    (hnone : c.active = none) (hguard : (c.beingSearched op).Disciplined)
    (hF : F (w.changed r (c.beingSearched op)))
    (hx : Owns lent ⟨h, F⟩ x b left) (hb : ∀ y, Stable r (b y).fact)
    (hleft : Sees lent left r) (hsees : ∀ y, Sees lent (b y) r) :
    match searching r op x w with
    | (.ok y, v) => (b y).Holds others v ∧ Steady w v
    | (.error e, v) => ¬e.Internal ∧ v.InOrder (others + left) ∧ Opened w v := by
  rw [searching_eq hc hnone]
  exact bracket hw hlent hc rfl rfl hguard hF hx hb hleft hsees
    fun v e hv hform => endSearching_eq hnone hv hform

/-- The operations that change a container search at once. -/
theorem searching_locked_owns {op : Operation} {F : World → Prop}
    (hF : ∀ w c, containerAt? w.cells r = some c → F w → F (w.changed r (c.beingSearched op)))
    (hx : Owns lent ⟨h, F⟩ x (fun y => plain (g y) (p y)) left)
    (hleft : Sees lent left r) (hg : ∀ y, Sees lent (plain (g y) (p y)) r) :
    Owns lent ⟨h, fun w => w.Locked r op ∧ F w⟩ (searching r op x) (fun y => plain (g y) (p y))
      left := by
  intro others w hlent hw
  obtain ⟨⟨c, hc, hchanges, hnone⟩, hFw⟩ := hw.2
  have hguard := (hw.1.books.guarded hc).searching_changer hchanges hnone
  exact guard_bracket hw.1 hlent hc hnone hguard (hF w c hc hFw) hx (fun _ _ _ _ _ hp => hp) hleft hg

theorem searching_refused {op outer : Operation} (hc : containerAt? w.cells r = some c)
    (hactive : c.active = some outer) : searching r op x w = (.error (.reentrant op outer), w) := by
  have henter : enterGuard r op w = (.error (.reentrant op outer), w) := by
    rw [enterGuard, bind_apply, container_eq hc]
    dsimp only
    rw [hactive]
    rfl
  rw [searching, bind_apply, henter]

/-- Those that only read it may be refused. -/
theorem searching_owns {op : Operation} (hop : op.isQuery = true)
    (hx : Owns lent ⟨h, fun w => w.HasContainer r⟩ x b left) (hb : ∀ y, Stable r (b y).fact)
    (hl : (h : Situation).Entails left) (hleft : Sees lent left r) (hsees : ∀ y, Sees lent (b y) r) :
    Owns lent ⟨h, fun w => w.Accessed r⟩ (searching r op x) b left := by
  intro others w hlent hw
  obtain ⟨c, n, hc, ha⟩ := hw.2
  cases hactive : c.active with
  | none =>
    exact guard_bracket hw.1 hlent hc hactive ((hw.1.books.guarded hc).searching_reader ha hactive hop)
      ⟨_, containerAt?_changed hc _⟩ hx hb hleft hsees
  | some outer =>
    rw [searching_refused hc hactive]
    exact ⟨id, (hl others w ⟨hw.1, trivial⟩).1, (Steady.refl w).opened⟩

/-- An exclusive access, if the action changes nothing of the container but its store. -/
theorem exclusivelyOr_done (refused : Act Unit) {op : Operation} {y : α} {v : World} {t : Store Item}
    (hc : containerAt? w.cells r = some c) (ha : c.access = .shared 0)
    (hv : containerAt? v.cells r = some { c.beingChanged op with store := t })
    (hx : x (w.changed r (c.beingChanged op)) = (.ok y, v)) :
    exclusivelyOr refused r op x w = (.ok y, v.changed r { c with store := t }) := by
  rw [exclusivelyOr_eq hc ha, always_apply, hx]
  dsimp only
  rw [endChanging_eq ha hv rfl]
  rfl

/-- A search, if the action changes nothing of the container but its store. -/
theorem searching_done {op : Operation} {y : α} {v : World} {t : Store Item}
    (hc : containerAt? w.cells r = some c) (hnone : c.active = none)
    (hv : containerAt? v.cells r = some { c.beingSearched op with store := t })
    (hx : x (w.changed r (c.beingSearched op)) = (.ok y, v)) :
    searching r op x w = (.ok y, v.changed r { c with store := t }) := by
  rw [searching_eq hc hnone, always_apply, hx]
  dsimp only
  rw [endSearching_eq hnone hv rfl]
  rfl

/-- A search inside an exclusive access to a container that is not in use, if the action looks at
nothing but the store of the container, and changes nothing else of it. -/
theorem exclusively_searching_eq {y : α} {v : World} {t : Store Item} {op : Operation}
    (hc : containerAt? w.cells r = some c) (hv : containerAt? v.cells r = some c)
    (ha : c.access = .shared 0) (hnone : c.active = none)
    (hx : ∀ d, d.store = c.store → x (w.changed r d) = (.ok y, v.changed r { d with store := t })) :
    exclusively r op (searching r op x) w = (.ok y, v.changed r { c with store := t }) := by
  have hsearch : searching r op x (w.changed r (c.beingChanged op)) =
      (.ok y, v.changed r { c.beingChanged op with store := t }) := by
    have hdone := searching_done (containerAt?_changed hc (c.beingChanged op)) hnone
      (containerAt?_changed hv _) ((congrArg x (changed_changed _)).trans
        (hx ((c.beingChanged op).beingSearched op) rfl))
    rwa [changed_changed] at hdone
  have hdone := exclusivelyOr_done (pure ()) hc ha (containerAt?_changed hv _) hsearch
  rwa [changed_changed] at hdone

/-! ## stores -/

/-- The store in a container at a later time. -/
theorem steady_changed (hc : containerAt? w.cells r = some c) (hform : d.form = c.form)
    (hage : c.store.chain.Ages d.store.chain) : Steady w (w.changed r d) := by
  refine ⟨⟨.of_eq rfl, Nat.le_refl _, fun {q f} hf => .inl ?_, fun {q e} he => .inl ?_,
    Nat.le_refl _, fun _ h => h, rfl⟩, rfl, rfl⟩
  · rw [formAt_changed hc] at hf
    split at hf
    · rename_i hq
      rw [← hf, hq, hform]
      exact formAt_eq_some_iff.mpr ⟨c, hc, rfl⟩
    · exact hf
  · by_cases hq : q = r
    · subst hq
      rw [containerAt?_changed hc] at he
      cases he
      exact ⟨c, hc, hage⟩
    · rw [containerAt?_changed_of_ne _ hq] at he
      exact ⟨e, he, .refl _⟩

/-- An action that looks at a container first is refused if there is none. -/
theorem of_container {β : Type} {f : Container → Act β} {b : β → Situation} (hr : Sees lent a r)
    (hl : a.Entails left)
    (hf : Owns lent ⟨a.hands, fun w => a.fact w ∧ w.HasContainer r⟩ (container r >>= f) b left) :
    Owns lent a (container r >>= f) b left := by
  intro others w hlent hw
  rcases container_cases (hr others w hlent hw) with ⟨c, hc, _⟩ | he
  · exact hf others w hlent ⟨hw.1, hw.2, c, hc⟩
  · rw [bind_apply, he]
    exact ⟨id, (hl others w hw).1, (Steady.refl w).opened⟩

theorem container_owns (hcontainer : ∀ w, a.fact w → w.HasContainer r) :
    Owns lent a (container r)
      (fun c => ⟨a.hands, fun w => a.fact w ∧ containerAt? w.cells r = some c⟩) left := by
  intro others w _ hw
  obtain ⟨c, hc⟩ := hcontainer w hw.2
  rw [container_eq hc]
  exact ⟨⟨hw.1, hw.2, hc⟩, .refl w⟩

theorem readStore_owns {f : Store Item → Except Fault α} (hr : Sees lent a r)
    (hl : a.Entails left)
    (hf : ∀ others w c, lent ⊆ others → a.Holds others w → containerAt? w.cells r = some c →
      ∃ y, f c.store = .ok y ∧ (b y).Holds others w) :
    Owns lent a (readStore r f) b left := by
  refine of_container hr hl fun others w hlent hw => ?_
  obtain ⟨c, hc⟩ := hw.2.2
  obtain ⟨y, hy, hb⟩ := hf others w c hlent ⟨hw.1, hw.2.1⟩ hc
  rw [bind_apply, container_eq hc]
  dsimp only
  rw [hy]
  exact ⟨hb, .refl w⟩

/-- What a store operation takes and gives: what pairs hold, and a pin. -/
def Moves (f : Store Item → Except Fault (α × Store Item)) (taken : Hands) (from? : Option Nat)
    (given : α → Hands) (to? : α → Option Nat) : Prop :=
  ∀ t pins, t.Sound (Chain.pinOn from? pins) → ∃ y t', f t = .ok (y, t') ∧
    t'.Sound (Chain.pinOn (to? y) pins) ∧ t.chain.Ages t'.chain ∧
    pairsOf t'.held + given y = pairsOf t.held + taken

/-- A store operation that makes no entry. -/
def MakesNone (f : Store Item → Except Fault (α × Store Item)) (from? : Option Nat) : Prop :=
  ∀ t pins, t.Sound (Chain.pinOn from? pins) → ∃ y t', f t = .ok (y, t') ∧
    t'.ledger.fresh = t.ledger.fresh

section
variable {f : Store Item → Except Fault (α × Store Item)} {u : Hands} {given : α → Hands}
  {from? : Option Nat} {to? : α → Option Nat}

/-- An operation that stores what is in hand.  Entries that it makes are put on record. -/
theorem InOrder.store {taken others : Hands} (hf : Moves f taken from? given to?)
    (hw : w.InOrder (others + u + taken + pinAt r from?)) (hc : containerAt? w.cells r = some c)
    (hhouses : w.Houses r taken) :
    ∃ y t', f c.store = .ok (y, t') ∧ c.store.chain.Ages t'.chain ∧ t'.chain.arena.Sound ∧
      ∀ more, c.Grows { c with store := t' } r more →
        ((w.changed r { c with store := t' }).registering more).InOrder
          (others + (u + given y + pinAt r (to? y))) := by
  obtain ⟨y, t', hy, hsound, hage, hheld⟩ := hf c.store _ (hw.store_sound hc)
  have hstore : ∀ pins, c.store.Sound (Chain.pinOn from? pins) →
      t'.Sound (Chain.pinOn (to? y) pins) := by
    intro pins hs
    obtain ⟨y', t'', hy', hsound', _⟩ := hf c.store pins hs
    rw [hy] at hy'
    cases hy'
    exact hsound'
  refine ⟨y, t', hy, hage, hsound.balanced.sound, fun more hgrows => ?_⟩
  have hguard : { c with store := t' }.Disciplined := (hw.books.guarded hc).withStore t'
  refine (hw.setContainer hc hheld hhouses hstore hguard hgrows).of_eq ?_
  abel

theorem onStore_owns (hf : Moves f 0 from? given to?) (hnone : MakesNone f from?) :
    Owns lent ⟨u + pinAt r from?, fun w => w.HasContainer r⟩ (onStore r f)
      (fun y => ↑(u + given y + pinAt r (to? y))) left := by
  intro others w _ ⟨hw, c, hc⟩
  have hw' : w.InOrder (others + u + 0 + pinAt r from?) := hw.of_eq (by
    show _ = others + (u + pinAt r from?)
    abel)
  obtain ⟨y, t', hy, hage, harena, hset⟩ := hw'.store hf hc (w.houses_zero r)
  obtain ⟨y', t'', hy', hfresh⟩ := hnone c.store _ (hw'.store_sound hc)
  rw [hy] at hy'
  cases hy'
  rw [onStore_eq hc hy]
  exact ⟨⟨hset [] (.of_fresh hage harena hfresh), trivial⟩, steady_changed hc rfl hage⟩

/-- A store operation on a container that is not in use is not refused. -/
theorem exclusively_idle_owns {op : Operation} (hf : Moves f 0 from? given to?)
    (hnone : MakesNone f from?) :
    Owns lent ⟨u + pinAt r from?, fun w => w.Idle r⟩ (exclusively r op <| searching r op <| onStore r f)
      (fun y => ↑(u + given y + pinAt r (to? y))) left := by
  intro others w hlent hw
  obtain ⟨c, hc, ha⟩ := hw.2
  have hw' : w.InOrder (others + u + pinAt r from?) := hw.1.of_eq (add_assoc _ _ _)
  obtain ⟨y, t, hy, _⟩ := hf c.store _ (hw'.store_sound hc)
  have heq : exclusively r op (searching r op (onStore r f)) w = onStore r f w := by
    rw [onStore_eq hc hy]
    refine exclusively_searching_eq hc hc ha ((hw.1.books.guarded hc).idle ha).1 fun d hd => ?_
    rw [onStore_eq (containerAt?_changed hc d) (hd ▸ hy), changed_changed]
  rw [heq]
  exact onStore_owns hf hnone others w hlent ⟨hw.1, c, hc⟩

/-- A store operation with access to the container, or else nothing. -/
theorem exclusively_onStore_owns {op : Operation} (hf : Moves f 0 from? given to?)
    (hnone : MakesNone f from?) (hr : Sees lent ↑(u + pinAt r from?) r) :
    Owns lent ↑(u + pinAt r from?) (exclusively r op <| searching r op <| onStore r f)
      (fun y => ↑(u + given y + pinAt r (to? y))) (u + pinAt r from?) := by
  intro others w hlent hw
  rcases beginExclusive_cases (hr others w hlent hw) with ⟨c, hc, ha⟩ | ⟨e, hi, he⟩
  · exact exclusively_idle_owns hf hnone others w hlent ⟨hw.1, c, hc, ha⟩
  · rw [exclusively, exclusivelyOr, bind_apply, onFailure_apply, he]
    exact ⟨hi, hw.1, (Steady.refl w).opened⟩

end

end World

end LiveOrder
