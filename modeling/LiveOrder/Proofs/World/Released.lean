import LiveOrder.Proofs.World.Atomicity
import LiveOrder.Proofs.World.Drops

/-!
# What is released, and when

An operation that changes a container sets aside what it does not need any more.

* `Mutation`         an operation that changes a container: what it does in the end (`Mutation.perform`),
                     what comes first (`begin`), and what it does to the store (`effect`);
* `changing_ok`      access and guard come and go around the effect;
* `Effected`, `LetGo`   the effect up to the end of the access, and the releases after it;
* `released_after`   what an operation sets aside goes away when it is done.
-/

namespace LiveOrder

/-! ## operations that change a container -/

/-- What an operation leaves to be done when its container is open again. -/
structure Aside where
  notices : List Notice := []
  pieces : List Debris := []

def Upsert.aside : Upsert Item → Aside
  | .inserted _ => {}
  | .updated _ key previous => { pieces := [.key key, .item previous] }

def Freed.aside (freed : Freed Item) : Aside := ⟨freed.notices, World.debrisOf freed.pairs⟩

inductive Mutation where
  /-- an item is set or added, or is one of those that a container is extended by -/
  | put (q : Query) (item : Item)
  /-- the same, with what was replaced as the result -/
  | insert (q : Query) (item : Item)
  | delete (q : Query)
  | clear
  /-- a cursor that has not come to the end is closed -/
  | close (id : Nat) (place? : Option Nat)

namespace Mutation

open World

variable (run : Runner) (r : Nat) (kind : Kind)

def op : Mutation → Operation
  | .put .. | .insert .. => .upsert
  | .delete _ => .remove
  | .clear => .clear
  | .close .. => .unpin

def perform : Mutation → Act Unit
  | .put q item => putEach run r [(q, item)]
  | .insert q item => do
    let _ ← World.insert run r kind q item
  | .delete q => do
    let _ ← World.delete run r q
  | .clear => World.clear run r
  | .close id _ => closeWalk run id

/-- What comes before the effect: a key is asked for its token. -/
def begin : Mutation → Act Unit
  | .put q item | .insert q item => do
    ask run (kind.stored q)
    enter r item
  | .delete q => ask run q
  | .clear => pure ()
  | .close id _ => modify fun w => { w with walks := Table.erase id w.walks }

def effect : Mutation → Store Item → Except Fault (Aside × Store Item)
  | .put q item, t | .insert q item, t => do
    let (outcome, t) ← t.upsert (kind.stored q).key item
    pure (outcome.aside, t)
  | .delete q, t => do
    let (freed, t) ← t.remove q.key
    pure ((freed.getD {}).aside, t)
  | .clear, t => do
    let (freed, t) ← t.clear
    pure (freed.aside, t)
  | .close _ none, t => pure ({}, t)
  | .close _ (some s), t => do
    let (freed, t) ← t.unpin s
    pure (freed.aside, t)

/-- A closed cursor gives up its container too, last of all. -/
def gives : Mutation → List Debris
  | .close .. => [.handle r]
  | .put .. | .insert .. | .delete _ | .clear => []

/-- What the operation has in hand. -/
def holds : Mutation → Hands
  | .put q item | .insert q item => handles q.key.refs + item.offered
  | .delete _ | .clear => 0
  | .close id place? => cursorAt id (some ⟨some r, place?⟩)

/-- The entry whose pin is given up. -/
def place? : Mutation → Option Nat
  | .close _ place? => place?
  | .put .. | .insert .. | .delete _ | .clear => none

/-- What keeps the container: a cursor holds its own. -/
def Kept (others : Hands) : Mutation → Prop
  | .close .. => True
  | _ => .handle r ∈ others

/-- The entry that is put on record, if one is made. -/
def made (t : Store Item) : Mutation → List Origin
  | .put q item | .insert q item => (t.ledger.upsert (kind.stored q).key item).1.origins r q.key
  | .delete _ | .clear | .close .. => []

/-- What a reader sees of the effect. -/
def Shows (before after : Store Item) : Mutation → Prop
  | .put q item | .insert q item => ∃ k, after.lookup (kind.stored q).key = .ok (some (k, item))
  | .delete q => after.contains q.key = .ok false
  | .clear => after.entries = .ok []
  | .close .. => after.entries = before.entries

end Mutation

/-! ## what a reader sees -/

namespace Ledger

variable {ν : Type}

theorem find?_upsert (l : Ledger ν) (k : Key) (v : ν) :
    ((l.upsert k v).2.find? k).map (·.value) = some v := by
  unfold upsert
  cases hr : l.find? k with
  | none =>
    have hnone : l.rows.find? (fun r => r.key.token = k.token) = none := hr
    simp [find?, List.find?_append, hnone]
  | some r =>
    have hsame : (fun q : Row ν => decide (q.key.token = k.token)) ∘
        (fun q => if q.serial = r.serial then q.revalued fun _ => v else q) =
        fun q => decide (q.key.token = k.token) := by
      funext q
      simp only [Function.comp_apply]
      split <;> rfl
    have hfound : l.rows.find? (fun r => r.key.token = k.token) = some r := hr
    show ((l.rows.map _).find? _).map _ = _
    rw [List.find?_map, hsame, hfound]
    simp [Row.revalued]

theorem find?_remove (l : Ledger ν) (k : Key) : (l.remove k).find? k = none := by
  refine List.find?_eq_none.mpr fun r hr => ?_
  simpa using (List.mem_filter.mp hr).2

end Ledger

theorem Mutation.effect_shows {m : Mutation} {kind : Kind} {t t' : Store Item} {aside : Aside}
    {pins : Nat → Nat} (ht : t.Sound (Chain.pinOn m.place? pins))
    (h : m.effect kind t = .ok (aside, t')) : m.Shows kind t t' := by
  have hput : ∀ q item, (do
      let (outcome, t) ← t.upsert (kind.stored q).key item
      pure (outcome.aside, t) : Except Fault (Aside × Store Item)) = .ok (aside, t') →
      ∃ k, t'.lookup (kind.stored q).key = .ok (some (k, item)) := by
    intro q item he
    obtain ⟨t₁, hupsert, hs', hledger, _⟩ := Store.upsert_spec ht (kind.stored q).key item
    rw [hupsert] at he
    cases he
    obtain ⟨row, hrow, hvalue⟩ :=
      Option.map_eq_some_iff.mp (t.ledger.find?_upsert (kind.stored q).key item)
    refine ⟨row.key, ?_⟩
    rw [Store.lookup_spec hs', hledger, hrow, Option.map_some, Row.pair, hvalue]
  cases m with
  | put q item => exact hput q item h
  | insert q item => exact hput q item h
  | delete q =>
    obtain ⟨freed, t₁, _, hremove, _, hs', hledger, _⟩ := Store.remove_spec ht q.key
    rw [effect, hremove] at h
    cases h
    show t'.contains q.key = _
    rw [Store.contains_spec hs', hledger, Ledger.find?_remove]
    rfl
  | clear =>
    obtain ⟨freed, t₁, _, hclear, hs', hledger, _⟩ := Store.clear_spec ht
    rw [effect, hclear] at h
    cases h
    show t'.entries = _
    rw [Store.entries_spec hs', hledger]
    rfl
  | close id place? =>
    cases place? with
    | none =>
      cases h
      rfl
    | some s =>
      obtain ⟨freed, t₁, _, hunpin, hs', hledger, _⟩ := Store.unpin_spec ht
      rw [effect, hunpin] at h
      cases h
      show t'.entries = t.entries
      rw [Store.entries_spec hs', Store.entries_spec ht, hledger]

namespace World

open Act Situation Table

variable {α : Type} {run : Runner} {w z v : World} {others : Hands} {r : Nat} {c : Container}

/-! ## access and guard around the effect -/

theorem onStore_eq_ok {f : Store Item → Except Fault (α × Store Item)} {a : α}
    (hc : containerAt? w.cells r = some c) (h : onStore r f w = (.ok a, v)) :
    ∃ t, f c.store = .ok (a, t) ∧ v = w.changed r { c with store := t } := by
  cases he : f c.store with
  | ok y =>
    rw [onStore_eq hc he] at h
    cases h
    exact ⟨y.2, rfl, rfl⟩
  | error fault =>
    rw [onStore, bind_of_ok (container_eq hc), he] at h
    cases h

/-- An action does something to a store, and puts on record what it has made. -/
def Alters (r : Nat) (x : Act α) (f : Store Item → Except Fault (α × Store Item))
    (made : α → List Origin) : Prop :=
  ∀ u g a v, containerAt? u.cells r = some g → x u = (.ok a, v) →
    ∃ t, f g.store = .ok (a, t) ∧ v = (u.changed r { g with store := t }).registering (made a)

theorem onStore_alters (f : Store Item → Except Fault (α × Store Item)) :
    Alters r (onStore r f) f fun _ => [] :=
  fun _ _ _ _ hg h => onStore_eq_ok hg h

theorem place_alters (given k : Key) (item : Item) :
    Alters r (place r given k item) (·.upsert k item) (·.origins r given) := by
  intro u g outcome v hg h
  obtain ⟨outcome', _, hstored, hdone⟩ := bind_eq_ok.mp h
  obtain ⟨t, ht, rfl⟩ := onStore_eq_ok hg hstored
  cases outcome' <;> cases hdone <;> exact ⟨t, ht, rfl⟩

/-- An operation that changes a container begins, does something to the store, and leaves the container
in the use that it was in. -/
theorem changing_ok {refused begun : Act Unit} {op : Operation} {x : Act α}
    {f : Store Item → Except Fault (α × Store Item)} {made : α → List Origin} {body : Act α} {a : α}
    (halters : Alters r x f made)
    (hc : containerAt? w.cells r = some c) (ha : c.access = .shared 0) (hnone : c.active = none)
    (hbody : ∀ y u, body (w.changed r (c.beingChanged op)) = (.ok y, u) →
      searching r op (begun >>= fun _ => x) (w.changed r (c.beingChanged op)) = (.ok y, u))
    (hstill : ∀ u, begun (w.changed r ((c.beingChanged op).beingSearched op)) = (.ok (), u) →
      ∃ g, containerAt? u.cells r = some g ∧ g.form = ((c.beingChanged op).beingSearched op).form)
    (h : exclusivelyOr refused r op body w = (.ok a, z)) :
    ∃ u g t, begun (w.changed r ((c.beingChanged op).beingSearched op)) = (.ok (), u) ∧
      containerAt? u.cells r = some g ∧ f g.store = .ok (a, t) ∧
      z = (u.changed r { c with store := t }).registering (made a) := by
  rw [exclusivelyOr_eq hc ha] at h
  obtain ⟨u₂, hbody', hclose⟩ := always_eq_ok.mp h
  have hsearch := hbody _ _ hbody'
  rw [searching_eq (c := c.beingChanged op) (containerAt?_changed hc _) hnone, changed_changed] at hsearch
  obtain ⟨u₁, hdone, hleave⟩ := always_eq_ok.mp hsearch
  obtain ⟨_, u, hbegun, heffect⟩ := bind_eq_ok.mp hdone
  obtain ⟨g, hg, hform⟩ := hstill u hbegun
  obtain ⟨t, ht, rfl⟩ := halters u g a _ hg heffect
  -- the container as it is when the guard has ended, and when the access has
  have hg₁ : containerAt? ((u.changed r { g with store := t }).registering (made a)).cells r =
      some { g with store := t } := containerAt?_changed hg _
  rw [endSearching_eq (c := c.beingChanged op) hnone hg₁ hform, changed_registering,
    changed_changed] at hleave
  cases hleave
  have hkind : g.kind = c.kind := (Form.container.inj hform).1
  have hg₂ : containerAt? ((u.changed r (Container.usedAs { g with store := t }
      (c.beingChanged op))).registering (made a)).cells r = some _ := containerAt?_changed hg _
  rw [endChanging_eq ha hg₂ (Container.form_usedAs hkind), changed_registering,
    changed_changed] at hclose
  cases hclose
  refine ⟨u, g, t, hbegun, hg, ht, ?_⟩
  rw [Container.usedAs, Container.usedAs, hkind]

/-! ## what has been set aside -/

theorem tell_nil : tell [] = pure () := by
  funext w
  rw [tell, get_bind_apply]
  split <;> rfl

/-- What an operation that changes a container has done up to the end of its access, with what it has
set aside. -/
def Effected (run : Runner) (r : Nat) (w : World) (c : Container) (m : Mutation) (aside : Aside)
    (z : World) : Prop :=
  ∃ u g t, m.begin run r c.kind (w.changed r ((c.beingChanged m.op).beingSearched m.op)) = (.ok (), u) ∧
    containerAt? u.cells r = some g ∧ m.effect c.kind g.store = .ok (aside, t) ∧
    m.Shows c.kind g.store t ∧
    z = (u.changed r { c with store := t }).registering (m.made r c.kind g.store)

/-- What an operation has set aside goes away when its container is open again, which leaves this world
and no other; up to then it holds what it held. -/
def LetGo (run : Runner) (others : Hands) (r : Nat) (w : World) (c : Container) (m : Mutation)
    (v : World) : Prop :=
  ∃ aside z z', Effected run r w c m aside z ∧
    z.InOrder (others + piecesOf (aside.pieces ++ m.gives r)) ∧
    tell aside.notices z = (.ok (), z') ∧ z'.cells = z.cells ∧
    Drops run (Stays others r c) (aside.pieces ++ m.gives r) z' (.ok ()) v ∧
    ∀ v', Drops run (fun _ => True) (aside.pieces ++ m.gives r) z' (.ok ()) v' → v' = v

section
variable (hrun : run.Safe)
include hrun

/-- An operation that asks a key for its token before it changes anything. -/
theorem asking_ok {hands : Hands} {refused : Act Unit} {body x : Act α} {a : α} (op : Operation)
    (q : Query) (begun : Act Unit) {f : Store Item → Except Fault (α × Store Item)}
    {made : α → List Origin} (halters : Alters r x f made) (hw : w.InOrder hands) (hr : .handle r ∈ hands) (hc : containerAt? w.cells r = some c)
    (ha : c.access = .shared 0) (hop : op.isUpdate = true)
    (hbegun : ∀ v u, begun v = (.ok (), u) → ∃ z, ask run q v = (.ok (), z) ∧ z.cells = u.cells)
    (hbody : ∀ y u, body (w.changed r (c.beingChanged op)) = (.ok y, u) →
      searching r op (begun >>= fun _ => x) (w.changed r (c.beingChanged op)) = (.ok y, u))
    (h : exclusivelyOr refused r op body w = (.ok a, z)) :
    ∃ u g t pins, begun (w.changed r ((c.beingChanged op).beingSearched op)) = (.ok (), u) ∧
      containerAt? u.cells r = some g ∧ g.store.Sound pins ∧ f g.store = .ok (a, t) ∧
      z = (u.changed r { c with store := t }).registering (made a) := by
  have hguard := hw.books.guarded hc
  obtain ⟨hnone, hempty⟩ := hguard.idle ha
  have hchanges : (c.beingChanged op).changes = [op] := by
    rw [Container.changes, Container.beingChanged, hempty]
    rfl
  have hsearched := (hguard.changing ha hop).searching_changer hchanges hnone
  have hstill : ∀ u, begun (w.changed r ((c.beingChanged op).beingSearched op)) = (.ok (), u) →
      ∃ g pins, containerAt? u.cells r = some g ∧ g.store.Sound pins ∧
        g.form = ((c.beingChanged op).beingSearched op).form := by
    intro u hu
    obtain ⟨u', hask, hcells⟩ := hbegun _ u hu
    obtain ⟨hu', g, hg, hform⟩ := asked_still hrun hw hr hc (by rfl) (by rfl) hsearched hask
    exact ⟨g, _, hcells ▸ hg, hu'.books.stores hg, hform⟩
  obtain ⟨u, g, t, hu, hg, ht, hz⟩ := changing_ok halters hc ha hnone hbody (fun u hu => by
    obtain ⟨g, _, hg, _, hform⟩ := hstill u hu
    exact ⟨g, hg, hform⟩) h
  obtain ⟨g', pins, hg', hs, _⟩ := hstill u hu
  rw [hg, Option.some.injEq] at hg'
  subst hg'
  exact ⟨u, g, t, pins, hu, hg, hs, ht, hz⟩

/-- What is stored is on record when it is stored, with the key that was given. -/
theorem upsert_ok {q : Query} {item : Item} {outcome : Upsert Item}
    (hw : w.InOrder (others + (handles q.key.refs + item.offered))) (hr : .handle r ∈ others)
    (hc : containerAt? w.cells r = some c) (ha : c.access = .shared 0)
    (h : upsert run r q item w = (.ok outcome, z)) :
    ∃ u g t pins, Mutation.begin run r c.kind (.put q item)
        (w.changed r ((c.beingChanged .upsert).beingSearched .upsert)) = (.ok (), u) ∧
      containerAt? u.cells r = some g ∧ g.store.Sound pins ∧
      g.store.upsert (c.kind.stored q).key item = .ok (outcome, t) ∧
      z = (u.changed r { c with store := t }).registering (outcome.origins r q.key) := by
  have hr' : .handle r ∈ others + (handles q.key.refs + item.offered) :=
    Multiset.mem_add.mpr (.inl hr)
  have hbegun : ∀ v u, Mutation.begin run r c.kind (.put q item) v = (.ok (), u) →
      ∃ z, ask run (c.kind.stored q) v = (.ok (), z) ∧ z.cells = u.cells := by
    intro v u hv
    obtain ⟨_, z, hask, henter⟩ := bind_eq_ok.mp hv
    refine ⟨z, hask, ?_⟩
    cases item <;> cases henter <;> rfl
  exact asking_ok hrun .upsert (c.kind.stored q)
    (Mutation.begin run r c.kind (.put q item)) (place_alters q.key (c.kind.stored q).key item) hw hr'
    hc ha rfl hbegun (fun y u hbody => by
      rw [onFailure_eq_ok, bind_of_ok (container_eq (containerAt?_changed hc _))] at hbody
      rw [Mutation.begin, bind_assoc]
      exact hbody) h

theorem upserted {q : Query} {item : Item} {outcome : Upsert Item}
    (hw : w.InOrder (others + (handles q.key.refs + item.offered))) (hr : .handle r ∈ others)
    (hc : containerAt? w.cells r = some c) (ha : c.access = .shared 0)
    (h : upsert run r q item w = (.ok outcome, z)) :
    Effected run r w c (.put q item) outcome.aside z ∧ z.InOrder (others + outcome.assets) := by
  obtain ⟨u, g, t, pins, hu, hg, hs, ht, hz⟩ := upsert_ok hrun hw hr hc ha h
  have hmade : Mutation.made r c.kind g.store (.put q item) = outcome.origins r q.key := by
    obtain ⟨t', ht', _⟩ := Store.upsert_spec hs (c.kind.stored q).key item
    rw [ht] at ht'
    cases ht'
    rfl
  have heffect : Mutation.effect c.kind (.put q item) g.store = .ok (outcome.aside, t) := by
    rw [Mutation.effect, ht]
    rfl
  have hs' : g.store.Sound (Chain.pinOn (Mutation.put q item).place? pins) := by
    rwa [Mutation.place?, Chain.pinOn_none]
  exact ⟨⟨u, g, t, hu, hg, heffect, Mutation.effect_shows hs' heffect, hmade ▸ hz⟩,
    ((upsert_owns hrun hr q item).holding_of_ok (Multiset.Subset.refl others) hw h).1⟩

theorem removed {q : Query} {freed : Option (Freed Item)} (hw : w.InOrder others)
    (hr : .handle r ∈ others) (hc : containerAt? w.cells r = some c) (ha : c.access = .shared 0)
    (h : (exclusively r .remove <| searching r .remove do
        ask run q
        onStore r (·.remove q.key)) w = (.ok freed, z)) :
    Effected run r w c (.delete q) (freed.getD {}).aside z ∧
      z.InOrder (others + pairsOf (freed.getD {}).pairs) := by
  obtain ⟨u, g, t, pins, hu, hg, hs, ht, hz⟩ := asking_ok hrun .remove q (ask run q)
    (onStore_alters (·.remove q.key)) hw hr hc ha rfl (fun v u hv => ⟨u, hv, rfl⟩)
    (fun y u hbody => hbody) h
  have heffect : Mutation.effect c.kind (.delete q) g.store = .ok ((freed.getD {}).aside, t) := by
    rw [Mutation.effect, ht]
    rfl
  have hs' : g.store.Sound (Chain.pinOn (Mutation.delete q).place? pins) := by
    rwa [Mutation.place?, Chain.pinOn_none]
  exact ⟨⟨u, g, t, hu, hg, heffect, Mutation.effect_shows hs' heffect, hz⟩,
    ((remove_owns hrun hr q).holding_of_ok (Multiset.Subset.refl others)
      (hw.of_eq (add_zero others)) h).1⟩

omit hrun in
/-- An operation that runs no user code before it has changed the store, and makes no entry. -/
theorem effected_at {run : Runner} {m : Mutation} {pins : Nat → Nat} {u : World} {t : Store Item}
    {aside : Aside} (hc : containerAt? u.cells r = some c)
    (hbegin : ∀ d, m.begin run r c.kind (w.changed r d) = (.ok (), u.changed r d))
    (hs : c.store.Sound (Chain.pinOn m.place? pins)) (heffect : m.effect c.kind c.store = .ok (aside, t))
    (hmade : m.made r c.kind c.store = []) :
    Effected run r w c m aside (u.changed r { c with store := t }) := by
  refine ⟨_, _, t, hbegin _, containerAt?_changed hc _, heffect, Mutation.effect_shows hs heffect, ?_⟩
  rw [changed_changed]
  show _ = World.registering _ (m.made r c.kind c.store)
  rw [hmade]
  rfl

/-! ## releases at the end -/

omit hrun in
theorem Effected.container {m : Mutation} {aside : Aside} (h : Effected run r w c m aside z) :
    ∃ d, containerAt? z.cells r = some d ∧ d.form = c.form := by
  obtain ⟨_, _, _, _, hg, _, _, rfl⟩ := h
  exact ⟨_, containerAt?_changed hg _, rfl⟩

/-- Lists of pieces that go away after a world in which the container was in the same use. -/
theorem discards_staying {d : Container} {parts : List (List Debris)} {u : World}
    (hd : containerAt? z.cells r = some d) (hform : d.form = c.form) (hr : r < z.fresh)
    (hon : Onward z u) (hu : u.InOrder (others + piecesOf parts.flatten))
    (h : parts.forM (discard run) u = (.ok (), v)) :
    Drops run (Stays others r c) parts.flatten u (.ok ()) v := by
  induction parts generalizing u with
  | nil =>
    cases h
    exact .none _
  | cons pieces rest ih =>
    obtain ⟨_, y, hpieces, hrest⟩ := bind_eq_ok.mp h
    have hu' : u.InOrder (others + piecesOf rest.flatten + piecesOf pieces) := hu.of_eq (by
      rw [List.flatten_cons, piecesOf_append]
      abel)
    obtain ⟨hy, hlater⟩ := (discard_owns hrun pieces).holding_of_ok
      (Multiset.Subset.refl (others + piecesOf rest.flatten)) hu' hpieces
    refine Drops.append (discard_drops hrun hu' (fun x hx => ?_) hpieces)
      (ih (hon.trans hlater) (hy.of_eq (add_zero _).symm) hrest)
    exact stays_of_later hd hform hr (hx.of_more.from hon)

/-- What has been set aside is told of and released, and a closed cursor gives up its container. -/
theorem settled {m : Mutation} {aside : Aside} (others : Hands) (parts : List (List Debris))
    (heffect : Effected run r w c m aside z) (hparts : parts.flatten = aside.pieces ++ m.gives r)
    (hz : z.InOrder (others + piecesOf (aside.pieces ++ m.gives r)))
    (h : (do
      tell aside.notices
      parts.forM (discard run) : Act Unit) z = (.ok (), v)) : LetGo run others r w c m v := by
  obtain ⟨d, hd, hform⟩ := heffect.container
  obtain ⟨n, hn⟩ := containerAt?_eq_some_iff.mp hd
  obtain ⟨u, htell, hcells⟩ := tell_ok aside.notices z
  rw [bind_of_ok htell] at h
  have htelling : Owns others (piecesOf (aside.pieces ++ m.gives r)) (tell aside.notices)
      (fun _ => piecesOf (aside.pieces ++ m.gives r)) 0 := tell_owns _
  obtain ⟨hu, hon⟩ := htelling.holding_of_ok (Multiset.Subset.refl others) hz htell
  have hdrops : Drops run (Stays others r c) (aside.pieces ++ m.gives r) u (.ok ()) v := by
    rw [← hparts] at hu ⊢
    exact discards_staying hrun hd hform (hz.books.lt_fresh hn) hon hu h
  exact ⟨aside, z, u, heffect, hz, htell, hcells, hdrops, fun _ h' => h'.unique hdrops⟩

/-! ## each operation -/

omit hrun in
theorem Upsert.pieces_aside (outcome : Upsert Item) :
    (piecesOf outcome.aside.pieces : Hands) = outcome.assets := by
  cases outcome with
  | inserted s => rfl
  | updated s key previous =>
    show piecesOf [.key key, .item previous] = handles key.refs + previous.assets
    simp [Debris.assets]

theorem put_settled {q : Query} {item : Item}
    (hw : w.InOrder (others + (handles q.key.refs + item.offered))) (hr : .handle r ∈ others)
    (hc : containerAt? w.cells r = some c) (ha : c.access = .shared 0)
    (h : putEach run r [(q, item)] w = (.ok (), v)) : LetGo run others r w c (.put q item) v := by
  rw [putEach_single] at h
  obtain ⟨outcome, z, hupsert, h⟩ := bind_eq_ok.mp h
  obtain ⟨heffect, hz⟩ := upserted hrun hw hr hc ha hupsert
  refine settled hrun others [outcome.aside.pieces] heffect rfl (hz.of_eq ?_) ?_
  · rw [Mutation.gives, List.append_nil, Upsert.pieces_aside]
  cases outcome with
  | inserted s =>
    show (tell [] >>= fun _ => discard run [] >>= fun _ => pure ()) z = _
    rw [tell_nil, discard_nil]
    exact h
  | updated s key previous =>
    show (tell [] >>= fun _ => discard run [.key key, .item previous] >>= fun _ => pure ()) z = _
    rw [tell_nil]
    exact bind_eq_ok.mpr ⟨_, _, rfl, bind_eq_ok.mpr ⟨_, _, h, rfl⟩⟩

theorem insert_settled {q : Query} {item : Item} {kind : Kind} {result : Result}
    (hw : w.InOrder (others + (handles q.key.refs + item.offered))) (hr : .handle r ∈ others)
    (hc : containerAt? w.cells r = some c) (ha : c.access = .shared 0)
    (h : insert run r kind q item w = (.ok result, v)) : LetGo run others r w c (.insert q item) v := by
  obtain ⟨outcome, z, hupsert, h⟩ := bind_eq_ok.mp h
  obtain ⟨heffect, hz⟩ := upserted hrun hw hr hc ha hupsert
  have hz' : z.InOrder (others + piecesOf (outcome.aside.pieces ++ [])) := hz.of_eq (by
    rw [List.append_nil, Upsert.pieces_aside])
  cases outcome with
  | inserted s =>
    refine settled hrun others [] heffect rfl hz' ?_
    show (tell [] >>= fun _ => pure ()) z = _
    rw [tell_nil]
    cases h
    rfl
  | updated s key previous =>
    dsimp only at h
    split at h
    · obtain ⟨_, _, h, hdone⟩ := bind_eq_ok.mp h
      cases hdone
      refine settled hrun others [[.key key, .item previous]] heffect rfl hz' ?_
      show (tell [] >>= fun _ => discard run [.key key, .item previous] >>= fun _ => pure ()) z = _
      rw [tell_nil]
      exact bind_eq_ok.mpr ⟨_, _, rfl, bind_eq_ok.mpr ⟨_, _, h, rfl⟩⟩
    · -- the key goes first, and the value when it has been shown
      obtain ⟨_, y, hkey, h⟩ := bind_eq_ok.mp h
      rw [get_bind_apply] at h
      obtain ⟨_, _, hitem, hdone⟩ := bind_eq_ok.mp h
      cases hdone
      refine settled hrun others [[.key key], [.item previous]] heffect rfl hz' ?_
      show (tell [] >>= fun _ => discard run [.key key] >>= fun _ => discard run [.item previous] >>=
        fun _ => pure ()) z = _
      rw [tell_nil]
      exact bind_eq_ok.mpr ⟨_, _, rfl, bind_eq_ok.mpr ⟨_, _, onFailure_eq_ok.mp hkey,
        bind_eq_ok.mpr ⟨_, _, hitem, rfl⟩⟩⟩

theorem delete_settled {q : Query} {found : Bool} (hw : w.InOrder others) (hr : .handle r ∈ others)
    (hc : containerAt? w.cells r = some c) (ha : c.access = .shared 0)
    (h : delete run r q w = (.ok found, v)) : LetGo run others r w c (.delete q) v := by
  obtain ⟨freed, z, hremove, h⟩ := bind_eq_ok.mp h
  obtain ⟨heffect, hz⟩ := removed hrun hw hr hc ha hremove
  refine settled hrun others [(freed.getD {}).aside.pieces] heffect rfl (hz.of_eq ?_) ?_
  · rw [Mutation.gives, List.append_nil]
    exact congrArg _ (piecesOf_debrisOf _)
  cases freed with
  | none =>
    show (tell [] >>= fun _ => discard run [] >>= fun _ => pure ()) z = _
    rw [tell_nil, discard_nil]
    cases h
    rfl
  | some freed =>
    obtain ⟨_, _, htell, h⟩ := bind_eq_ok.mp h
    obtain ⟨_, _, hdiscard, hdone⟩ := bind_eq_ok.mp h
    cases hdone
    exact bind_eq_ok.mpr ⟨_, _, htell, bind_eq_ok.mpr ⟨_, _, hdiscard, rfl⟩⟩

theorem clear_settled (hw : w.InOrder others) (hr : .handle r ∈ others)
    (hc : containerAt? w.cells r = some c) (ha : c.access = .shared 0)
    (h : clear run r w = (.ok (), v)) : LetGo run others r w c .clear v := by
  have hs : c.store.Sound (Chain.pinOn none fun s => (w.assets + others).count (.pin r s)) := by
    rw [Chain.pinOn_none]
    exact hw.books.stores hc
  obtain ⟨freed, t, _, hclear, _⟩ := Store.clear_spec (hw.books.stores hc)
  have hdone : (exclusively r .clear <| searching r .clear <| onStore r (·.clear)) w =
      (.ok freed, w.changed r { c with store := t }) := by
    refine exclusively_searching_eq hc hc ha ((hw.books.guarded hc).idle ha).1 fun d hd => ?_
    rw [onStore_eq (containerAt?_changed hc d) (hd ▸ hclear), changed_changed]
  have heffect : Effected run r w c .clear freed.aside (w.changed r { c with store := t }) :=
    effected_at hc (fun d => rfl) hs (by rw [Mutation.effect, hclear]; rfl) rfl
  obtain ⟨hz, _⟩ := (emptying_owns hr).holding_of_ok (Multiset.Subset.refl others)
    (hw.of_eq (add_zero others)) hdone
  rw [World.clear, bind_of_ok hdone] at h
  refine settled hrun others [freed.aside.pieces] heffect rfl (hz.of_eq ?_) ?_
  · rw [Mutation.gives, List.append_nil]
    exact congrArg _ (piecesOf_debrisOf _)
  · obtain ⟨_, _, htell, hdiscard⟩ := bind_eq_ok.mp h
    exact bind_eq_ok.mpr ⟨_, _, htell, bind_eq_ok.mpr ⟨_, _, hdiscard, rfl⟩⟩

/-- A cursor that has no place gives up its container, and one that has gives up its pin before. -/
theorem close_settled {id : Nat} {place? : Option Nat}
    (hw : w.InOrder (others + cursorAt id (some ⟨some r, place?⟩)))
    (hc : containerAt? w.cells r = some c) (ha : c.access = .shared 0)
    (h : closeWalk run id w = (.ok (), v)) : LetGo run others r w c (.close id place?) v := by
  obtain ⟨pins, hs⟩ := hw.parked_sound hc
  have hbegin : ∀ d place?, Mutation.begin run r c.kind (.close id place?) (w.changed r d) =
      (.ok (), { w with walks := erase id w.walks }.changed r d) := fun d place? => rfl
  have hcu : containerAt? { w with walks := erase id w.walks }.cells r = some c := hc
  cases place? with
  | none =>
    rw [closeWalk, bind_of_ok hw.walk_eq, modify_bind_apply] at h
    have herased := hw.eraseRow
    generalize { w with walks := erase id w.walks } = u at h herased hbegin hcu
    have heffect : Effected run r w c (.close id none) {} (u.changed r { c with store := c.store }) :=
      effected_at hcu (fun d => hbegin d none) hs rfl rfl
    rw [changed_self herased.cells hcu] at heffect
    refine settled hrun others [[.handle r]] heffect rfl (herased.of_eq ?_) ?_
    · simp [Mutation.gives, Walk.assets, Debris.assets]
    · show (tell [] >>= fun _ => discard run [.handle r] >>= fun _ => pure ()) u = _
      rw [tell_nil]
      exact bind_eq_ok.mpr ⟨_, _, rfl, bind_eq_ok.mpr ⟨_, _, h, rfl⟩⟩
  | some s =>
    obtain ⟨freed, t, hunpin, _, hz, hclose⟩ := closeWalk_idle run hw hc ha
    rw [hclose] at h
    generalize { w with walks := erase id w.walks } = u at h hz hbegin hcu
    have heffect : Effected run r w c (.close id (some s)) freed.aside
        (u.changed r { c with store := t }) :=
      effected_at hcu (fun d => hbegin d (some s)) hs (by rw [Mutation.effect, hunpin]; rfl) rfl
    obtain ⟨y, hbody, hlast⟩ := always_eq_ok.mp h
    obtain ⟨_, _, htell, hdiscard⟩ := bind_eq_ok.mp hbody
    refine settled hrun others [freed.aside.pieces, [.handle r]] heffect rfl (hz.of_eq ?_) ?_
    · rw [Mutation.gives, Freed.aside, piecesOf_append, piecesOf_debrisOf]
      simp only [piecesOf_cons, piecesOf_nil, Debris.assets]
      abel
    · exact bind_eq_ok.mpr ⟨_, _, htell, bind_eq_ok.mpr ⟨_, _, hdiscard,
        bind_eq_ok.mpr ⟨_, _, hlast, rfl⟩⟩⟩

/-- What an operation has set aside goes away when it is done. -/
theorem mutation_settled {m : Mutation} (hw : w.InOrder (others + m.holds r)) (hkept : m.Kept r others)
    (hc : containerAt? w.cells r = some c) (ha : c.access = .shared 0)
    (h : m.perform run r c.kind w = (.ok (), v)) : LetGo run others r w c m v := by
  cases m with
  | put q item => exact put_settled hrun hw hkept hc ha h
  | insert q item =>
    obtain ⟨_, _, hinsert, hdone⟩ := bind_eq_ok.mp h
    cases hdone
    exact insert_settled hrun hw hkept hc ha hinsert
  | delete q =>
    obtain ⟨_, _, hdelete, hdone⟩ := bind_eq_ok.mp h
    cases hdone
    exact delete_settled hrun (hw.of_eq (add_zero others).symm) hkept hc ha hdelete
  | clear => exact clear_settled hrun (hw.of_eq (add_zero others).symm) hkept hc ha h
  | close id place? => exact close_settled hrun hw hc ha h

end

/-- A series of insertions is one after the other. -/
theorem putEach_eq_ok {run : Runner} {entry : Query × Item} {rest : List (Query × Item)} :
    putEach run r (entry :: rest) w = (.ok (), v) ↔
      ∃ u, putEach run r [entry] w = (.ok (), u) ∧ putEach run r rest u = (.ok (), v) := by
  obtain ⟨q, item⟩ := entry
  have hfirst : ∀ y, putEach run r [(q, item)] w = (.ok (), y) ↔ (upsert run r q item >>= fun outcome =>
      match outcome with
      | .inserted _ => pure ()
      | .updated _ key previous => discard run [.key key, .item previous]) w = (.ok (), y) := fun y =>
    Iff.of_eq (congrArg (fun act : Act Unit => act w = (.ok (), y)) (putEach_single run r q item))
  rw [putEach]
  constructor
  · intro h
    obtain ⟨_, u, hone, hrest⟩ := bind_eq_ok.mp h
    exact ⟨u, (hfirst u).mpr (onFailure_eq_ok.mp hone), hrest⟩
  · rintro ⟨u, hone, hrest⟩
    exact bind_eq_ok.mpr ⟨_, u, onFailure_eq_ok.mpr ((hfirst u).mp hone), hrest⟩

end World

open World in
/-- What an operation sets aside goes away when it is done: the effect is complete, access and guard have
ended, and the pieces still hold what they held.  They go away one after the other, each reaction in the
world that there is by then, where nothing is refused of the container.  A series of insertions is one
operation after the other. -/
theorem released_after (depth : Nat) :
    (∀ r entry rest w v, putEach (runSteps depth) r (entry :: rest) w = (.ok (), v) ↔
      ∃ u, putEach (runSteps depth) r [entry] w = (.ok (), u) ∧
        putEach (runSteps depth) r rest u = (.ok (), v)) ∧
    ∀ (others : Hands) (w v : World) (r : Nat) (c : Container) (m : Mutation),
      w.InOrder (others + m.holds r) → m.Kept r others → containerAt? w.cells r = some c →
      c.access = .shared 0 → m.perform (runSteps depth) r c.kind w = (.ok (), v) →
      c.active = none ∧ c.uses = [] ∧ LetGo (runSteps depth) others r w c m v := by
  refine ⟨fun r entry rest w v => putEach_eq_ok, fun others w v r c m hw hkept hc ha h => ?_⟩
  obtain ⟨hnone, hempty⟩ := (hw.books.guarded hc).idle ha
  exact ⟨hnone, hempty, mutation_settled (runSteps_safe depth) hw hkept hc ha h⟩

/-- A map whose value stores another one under its key when it goes away, with another handle on it. -/
def refilling : World :=
  let key := Term.text .slice "a"
  let w := (Program.runFrom false (.initial ⟨100, 4, 20⟩ false)
    [.container .map "m" [(key, .tracked 1
      (some [.mk (.put (.named "m") [(key, .tracked 2 none none)]) false]) none)]]).2
  { w with cells := Table.change 0 (fun d => { d with handles := 2 }) w.cells }

theorem refilling_inOrder : refilling.InOrder (0 + handles [0]) := shared_inOrder (by decide +kernel)

open World in
/-- The entry is deleted, and then there is one under the same key, which stays. -/
theorem released_after_refilling :
    let m := Mutation.delete (.plain (.text .slice "a"))
    ∃ (others : Hands) (w v : World) (c : Container), w.InOrder (others + m.holds 0) ∧
      m.Kept 0 others ∧ containerAt? w.cells 0 = some c ∧ c.access = .shared 0 ∧
      m.perform (runSteps 4) 0 c.kind w = (.ok (), v) ∧
      LetGo (runSteps 4) others 0 w c m v ∧
      (containerAt? v.cells 0).map (fun f => f.store.len) = some 1 := by
  intro m
  have hw := refilling_inOrder
  have hopen : (containerAt? refilling.cells 0).map (fun c => (c.kind, c.access)) =
      some (.map, .shared 0) := by decide +kernel
  have hdone : (m.perform (runSteps 4) 0 .map refilling).1 = .ok () := by decide +kernel
  have hfilled : (containerAt? (m.perform (runSteps 4) 0 .map refilling).2.cells 0).map
      (fun f => f.store.len) = some 1 := by decide +kernel
  generalize refilling = w at hw hopen hdone hfilled
  obtain ⟨c, hc, hkind⟩ := Option.map_eq_some_iff.mp hopen
  obtain ⟨hkind, ha⟩ := Prod.mk.inj hkind
  rw [← hkind] at hdone hfilled
  have hperform : m.perform (runSteps 4) 0 c.kind w = (.ok (), _) := Prod.ext hdone rfl
  obtain ⟨_, hafter⟩ := released_after 4
  have hw' : w.InOrder (0 + handles [0] + m.holds 0) := hw.of_eq (add_zero _)
  obtain ⟨_, _, hsettled⟩ := hafter _ w _ 0 c m hw' (by simp [m, Mutation.Kept]) hc ha hperform
  exact ⟨_, w, _, c, hw', by simp [m, Mutation.Kept], hc, ha, hperform, hsettled, hfilled⟩

end LiveOrder
