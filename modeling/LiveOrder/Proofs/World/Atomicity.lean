import LiveOrder.Proofs.World.Refusals

/-!
# Failures that leave no trace

An operation by key asks the key for its token before it changes anything.

* `World.restored`   a world in which a container is back in an earlier use;
* `World.Atomic`     an operation that is refused, or whose key fails, does nothing itself;
* `query_atomic`, `update_atomic`   operations that read and operations that change a container;
* `putEach_stops`    the first failure ends a series;
* `failure_atomic`   all operations by key.

What user code has done by then stays: `World.Atomic` says what becomes of the world that it leaves.
-/

namespace LiveOrder

namespace Container

/-- What a container is like while a query asks for a token, up to the guard; none where it is
refused. -/
def forQuery? (c : Container) : Option Container :=
  match c.access, c.active with
  | .shared n, none => some (c.beingRead n)
  | _, _ => none

def forUpdate? (c : Container) (op : Operation) : Option Container :=
  if c.access = .shared 0 then some (c.beingChanged op) else none

theorem form_usedAs {c d : Container} (hkind : c.kind = d.kind) :
    (c.usedAs d).form = d.form := by
  rw [form, form, usedAs, hkind]

end Container

namespace World

open Act Situation

variable {α β : Type} {run : Runner} {w u : World} {hands others : Hands} {r : Nat}
  {c d f : Container} {q : Query} {op : Operation} {e : Failure} {given : List Debris}

/-- The world, with the container at an object in the use that another one is in. -/
def restored (u : World) (r : Nat) (c : Container) : World :=
  match containerAt? u.cells r with
  | some f => u.changed r (f.usedAs c)
  | none => u

/-- An operation that asks a key for its token, and opens its container for that, does nothing itself if
it is refused or the key fails.  What user code has done stays, the pieces that the operation was given
are released, and the container is back in the use that it was in. -/
structure Atomic (run : Runner) (w : World) (r : Nat) (c : Container) (opened : Option Container)
    (op : Operation) (q : Query) (given : List Debris) (x : Runner → Act α) : Prop where
  refused : opened = none → ∃ e : Failure, e.IsRefusal ∧ w.Refuses given x e
  unwinds : ∀ d e u, opened = some d → ask run q (w.changed r (d.beingSearched op)) = (.error e, u) →
    x run w = (.error (e.leaving (discard run given (u.restored r d)).1),
      (discard run given (u.restored r d)).2.restored r c)

theorem restored_eq (hf : containerAt? u.cells r = some f) (c : Container) :
    u.restored r c = u.changed r (f.usedAs c) := by
  rw [restored, hf]

/-- What follows does not matter to an operation that fails. -/
theorem Atomic.bind {opened : Option Container} {x : Runner → Act α} {y : Runner → α → Act β}
    (h : Atomic run w r c opened op q given x) :
    Atomic run w r c opened op q given fun run => x run >>= y run where
  refused hnone := by
    obtain ⟨e, he, hrefused⟩ := h.refused hnone
    refine ⟨e, he, fun run => ?_⟩
    show (x run >>= y run) w = _
    rw [bind_apply, hrefused run]
  unwinds d e u hd hask := by
    show (x run >>= y run) w = _
    rw [bind_apply, h.unwinds d e u hd hask]

/-! ## the container afterwards -/

/-- A container whose key has been asked for its token is still there, in the use that it was in. -/
theorem asked_still {o : Except Failure Unit} (hrun : run.Safe) (hw : w.InOrder hands)
    (hr : .handle r ∈ hands) (hc : containerAt? w.cells r = some c) (hstore : d.store = c.store)
    (hkind : d.kind = c.kind) (hguard : d.Disciplined) (hask : ask run q (w.changed r d) = (o, u)) :
    u.InOrder hands ∧ ∃ f, containerAt? u.cells r = some f ∧ f.form = d.form := by
  have hbegun : Situation.Holds ((0 : Hands) : Situation) hands (w.changed r d) :=
    ⟨(hw.use hc hstore hkind hguard).of_eq (add_zero _), trivial⟩
  obtain ⟨hu, honward⟩ : u.InOrder hands ∧ Onward (w.changed r d) u := by
    cases o with
    | error e =>
      obtain ⟨_, hu, hopened⟩ :=
        (ask_safe hrun q).of_error (Multiset.Subset.refl hands) hbegun hask
      exact ⟨hu.of_eq (add_zero _).symm, hopened.toOnward⟩
    | ok y =>
      obtain ⟨hu, hsteady⟩ := (ask_safe hrun q).of_ok (Multiset.Subset.refl hands) hbegun hask
      exact ⟨hu.1.of_eq (add_zero _).symm, hsteady.toOnward⟩
  obtain ⟨n, hn⟩ := containerAt?_eq_some_iff.mp hc
  obtain ⟨f, hf, hform, _⟩ := container_of_onward honward (containerAt?_changed hc d)
    (hw.books.lt_fresh hn) (hu.exists_of_mem hr)
  exact ⟨hu, f, hf, hform⟩

/-- So is a container after the release of something else. -/
theorem discarded_still (hrun : run.Safe) (hu : u.InOrder (others + piecesOf given))
    (hr : .handle r ∈ others) (hf : containerAt? u.cells r = some f) :
    ∃ g, containerAt? (discard run given u).2.cells r = some g ∧ g.form = f.form := by
  have hbegun : Situation.Holds ((piecesOf given : Hands) : Situation) others u := ⟨hu, trivial⟩
  obtain ⟨n, hn⟩ := containerAt?_eq_some_iff.mp hf
  have hthere : ∀ v, v.InOrder (others + 0) → Onward u v →
      ∃ g, containerAt? v.cells r = some g ∧ g.form = f.form := by
    intro v hv hon
    obtain ⟨g, hg, hform, _⟩ := container_of_onward hon hf (hu.books.lt_fresh hn)
      ((hv.of_eq (add_zero _).symm).exists_of_mem hr)
    exact ⟨g, hg, hform⟩
  rcases hx : discard run given u with ⟨e | y, v⟩
  · obtain ⟨_, hv, hopened⟩ :=
      (discard_owns hrun given).of_error (Multiset.Subset.refl others) hbegun hx
    exact hthere v hv hopened.toOnward
  · obtain ⟨hv, hsteady⟩ := (discard_owns hrun given).of_ok (Multiset.Subset.refl others) hbegun hx
    exact hthere v hv.1 hsteady.toOnward

/-- A search whose key fails ends, and that is all. -/
theorem searching_unwinds {g : Unit → Act α} (hd : containerAt? w.cells r = some d)
    (hnone : d.active = none) (hask : ask run q (w.changed r (d.beingSearched op)) = (.error e, u))
    (hf : containerAt? u.cells r = some f) (hform : f.form = (d.beingSearched op).form) :
    searching r op (ask run q >>= g) w = (.error e, u.restored r d) := by
  rw [searching_eq hd hnone, always_apply, bind_apply, hask]
  dsimp only
  rw [endSearching_eq hnone hf hform, restored_eq hf]
  rfl

/-! ## operations by key -/

section
variable (hrun : run.Safe) (hw : w.InOrder hands) (hr : .handle r ∈ hands)
  (hc : containerAt? w.cells r = some c)
include hrun hw hr hc

theorem query_atomic (hop : op.isQuery = true) {g : Runner → Unit → Act β} {x : Runner → Act α}
    {y : Runner → β → Act α}
    (hx : ∀ run, x run = sharing r (searching r op (ask run q >>= g run) >>= y run)) :
    Atomic run w r c c.forQuery? op q [] x where
  refused hnone := by
    unfold Container.forQuery? at hnone
    cases ha : c.access with
    | exclusive =>
      refine ⟨.conflict, trivial, fun run => ?_⟩
      rw [hx, sharing_conflicts hc ha, discard_nil]
      rfl
    | shared n =>
      cases hactive : c.active with
      | none =>
        rw [ha, hactive] at hnone
        cases hnone
      | some outer =>
        refine ⟨.reentrant op outer, trivial, fun run => ?_⟩
        rw [hx, discard_nil]
        refine sharing_fails hw.cells hc ha ?_
        rw [bind_apply, searching_refused (c := c.beingRead n) (containerAt?_changed hc _) hactive]
  unwinds d e u hd hask := by
    have hguard := hw.books.guarded hc
    unfold Container.forQuery? at hd
    split at hd
    swap
    · cases hd
    rename_i n ha hnone
    cases hd
    have hbegun := hguard.reading ha
    obtain ⟨_, f, hf, hform⟩ := asked_still hrun hw hr hc (d := (c.beingRead n).beingSearched op) rfl rfl
      (hbegun.searching_reader rfl hnone hop) hask
    have hsearch := searching_unwinds (containerAt?_changed hc (c.beingRead n)) hnone
      (g := g run) (changed_changed (w := w) _ ▸ hask) hf hform
    have hkept : containerAt? (u.restored r (c.beingRead n)).cells r =
        some (f.usedAs (c.beingRead n)) := by
      rw [restored_eq hf]
      exact containerAt?_changed hf _
    rw [hx, sharing_eq hc ha, always_apply, bind_apply, hsearch]
    dsimp only
    rw [endReading_eq ha hkept (Container.form_usedAs (Form.container.inj hform).1), discard_nil]
    rw [restored_eq (u := (pure () : Act Unit) (u.restored r (c.beingRead n)) |>.2) hkept]
    rfl

theorem has_atomic (q : Query) :
    Atomic run w r c c.forQuery? .containsKey q [] fun run => has run r q := by
  refine query_atomic (g := fun _ _ => readStore r (·.contains q.key)) (y := fun _ => pure)
    hrun hw hr hc rfl fun run => ?_
  rw [bind_pure]
  rfl

theorem lookup_atomic (q : Query) :
    Atomic run w r c c.forQuery? .lookup q [] fun run => lookup run r q :=
  query_atomic hrun hw hr hc rfl fun _ => rfl

/-- An update opens its container and searches in it; what it was given is released before the container
is closed. -/
theorem update_atomic (hop : op.isUpdate = true)
    (hgiven : ∃ others, .handle r ∈ others ∧ ∀ v : World, v.InOrder hands →
      v.InOrder (others + piecesOf given))
    {g : Runner → Unit → Act α} {body : Runner → Act α} {x : Runner → Act α}
    (hx : ∀ run, x run = exclusivelyOr (discard run given) r op
      (onFailure (body run) (discard run given)))
    (hbody : ∀ run, body run (w.changed r (c.beingChanged op)) =
      searching r op (ask run q >>= g run) (w.changed r (c.beingChanged op))) :
    Atomic run w r c (c.forUpdate? op) op q given x where
  refused hnone := by
    have ha : c.access ≠ .shared 0 := by
      intro ha
      rw [Container.forUpdate?, if_pos ha] at hnone
      cases hnone
    refine ⟨.conflict, trivial, fun run => ?_⟩
    rw [hx, exclusivelyOr_conflicts hc ha]
  unwinds d e u hd hask := by
    have hguard := hw.books.guarded hc
    unfold Container.forUpdate? at hd
    split at hd
    swap
    · cases hd
    rename_i ha
    cases hd
    obtain ⟨hnone, hempty⟩ := hguard.idle ha
    have hchanges : (c.beingChanged op).changes = [op] := by
      rw [Container.changes, Container.beingChanged, hempty]
      rfl
    have hbegun : ((c.beingChanged op).beingSearched op).Disciplined :=
      (hguard.changing ha hop).searching_changer hchanges hnone
    obtain ⟨hu, f, hf, hform⟩ := asked_still hrun hw hr hc
      (d := (c.beingChanged op).beingSearched op) rfl rfl hbegun hask
    have hsearch := searching_unwinds (containerAt?_changed hc (c.beingChanged op)) hnone
      (g := g run) (changed_changed (w := w) _ ▸ hask) hf hform
    -- what was given is released while the container is still open
    have hkind : f.kind = (c.beingChanged op).kind := (Form.container.inj hform).1
    have hkept : containerAt? (u.restored r (c.beingChanged op)).cells r =
        some (f.usedAs (c.beingChanged op)) := by
      rw [restored_eq hf]
      exact containerAt?_changed hf _
    have hopen : (u.restored r (c.beingChanged op)).InOrder hands := by
      rw [restored_eq hf]
      exact hu.use hf rfl rfl ((hguard.changing ha hop).usedAs f)
    obtain ⟨others, hothers, hown⟩ := hgiven
    obtain ⟨g, hg, hgform⟩ := discarded_still hrun (hown _ hopen) hothers hkept
    rw [hx, exclusivelyOr_eq hc ha, always_apply, onFailure_apply, hbody, hsearch]
    dsimp only
    rw [endChanging_eq ha hg (hgform.trans (Container.form_usedAs hkind)), restored_eq hg]
    rfl

theorem delete_atomic (q : Query) :
    Atomic run w r c (c.forUpdate? .remove) .remove q [] fun run => delete run r q := by
  refine Atomic.bind (update_atomic hrun hw hr hc rfl (g := fun _ _ => onStore r (·.remove q.key))
    ⟨hands, hr, fun v hv => hv.of_eq (add_zero _)⟩ (fun run => ?_) fun run => rfl)
  rw [discard_nil, onFailure_pure]
  rfl

end

/-- A key and a value that are not stored are pieces to be released. -/
theorem InOrder.reject {k : Key} {item : Item}
    (h : w.InOrder (others + (handles k.refs + item.offered))) :
    w.InOrder (others + piecesOf [.item item, .key k]) := by
  have h' : w.InOrder (others + (item.assets + handles k.refs) + item.permits) :=
    h.of_eq (by rw [Item.offered]; abel)
  refine (h'.forgo Item.permits_only).of_eq ?_
  simp [Debris.assets]

section
variable (hrun : run.Safe) {item : Item} (hr : .handle r ∈ others)
  (hw : w.InOrder (others + (handles q.key.refs + item.offered)))
  (hc : containerAt? w.cells r = some c)
include hrun hw hr hc

theorem upsert_atomic : Atomic run w r c (c.forUpdate? .upsert) .upsert (c.kind.stored q)
    [.item item, .key q.key] fun run => upsert run r q item := by
  have hr' : .handle r ∈ others + (handles q.key.refs + item.offered) :=
    Multiset.mem_add.mpr (.inl hr)
  refine update_atomic hrun hw hr' hc rfl ⟨others, hr, fun v => InOrder.reject⟩ (fun run => rfl)
    (g := fun _ _ => do
      enter r item
      place r q.key (c.kind.stored q).key item) fun run => ?_
  exact bind_of_ok (container_eq (containerAt?_changed hc (c.beingChanged .upsert))) _

end

/-- The first failure ends a series: what was stored before it stays, and the rest is released. -/
theorem putEach_stops {before after : List (Query × Item)} {item : Item} {v : World}
    (hbefore : putEach run r before w = (.ok (), u)) (he : upsert run r q item u = (.error e, v)) :
    putEach run r (before ++ (q, item) :: after) w =
      (.error (e.leaving (discard run (after.flatMap fun (q, i) => [.key q.key, .item i]) v).1),
        (discard run (after.flatMap fun (q, i) => [.key q.key, .item i]) v).2) := by
  induction before generalizing w with
  | nil =>
    cases hbefore
    rw [List.nil_append, putEach, bind_apply, onFailure_apply, bind_apply, he]
  | cons entry before ih =>
    obtain ⟨q', item'⟩ := entry
    obtain ⟨_, v', hfirst, hrest⟩ := bind_eq_ok.mp hbefore
    rw [List.cons_append, putEach, bind_of_ok (onFailure_eq_ok.mpr (onFailure_eq_ok.mp hfirst))]
    exact ih hrest

/-! ## what has been changed -/

/-- Nothing is another in the second world but the use of a container. -/
structure OnlyUse (u v : World) (r : Nat) (c : Container) : Prop where
  rest : v = { u with cells := v.cells }
  others : ∀ q, q ≠ r → Table.get? q v.cells = Table.get? q u.cells
  handles : handlesAt v.cells r = handlesAt u.cells r
  container : ∀ f, containerAt? u.cells r = some f → containerAt? v.cells r = some (f.usedAs c)

theorem onlyUse_restored (u : World) (r : Nat) (c : Container) : u.OnlyUse (u.restored r c) r c := by
  cases hf : containerAt? u.cells r with
  | none =>
    rw [restored, hf]
    exact ⟨rfl, fun _ _ => rfl, rfl, fun f hf' => by rw [hf] at hf'; cases hf'⟩
  | some f =>
    rw [restored_eq hf]
    refine ⟨rfl, fun q hq => ?_, handlesAt_setBody r r _ u.cells, fun f' hf' => ?_⟩
    · unfold changed
      rw [Table.get?_change, if_neg hq]
    · rw [hf] at hf'
      cases hf'
      exact containerAt?_changed hf _

/-- Only the last use matters. -/
theorem restored_restored (u : World) (r : Nat) (c d : Container) :
    (u.restored r d).restored r c = u.restored r c := by
  cases hf : containerAt? u.cells r with
  | none =>
    have hnone : ∀ d, u.restored r d = u := fun d => by rw [restored, hf]
    rw [hnone, hnone]
  | some f =>
    rw [restored_eq hf, restored_eq hf, restored_eq (containerAt?_changed hf _), changed_changed]
    rfl

/-- A container that has been opened, and nothing more, is put back as it was. -/
theorem restored_changed (hcells : Table.Distinct w.cells) (hc : containerAt? w.cells r = some c)
    (hstore : d.store = c.store) (hkind : d.kind = c.kind) : (w.changed r d).restored r c = w := by
  have hback : d.usedAs c = c := by
    rw [Container.usedAs, hstore, hkind]
  rw [restored_eq (containerAt?_changed hc d), hback, changed_changed, changed_self hcells hc]

end World

open World in
/-- An operation by key that fails, since it is refused or its key is, does nothing itself.  The world is
the one that user code has left, with the container in the use that it was in, and without what the
operation was given.  In a series of insertions the items before the failing one stay, and none after it
is stored. -/
theorem failure_atomic (depth : Nat) :
    (∀ u r c, OnlyUse u (u.restored r c) r c) ∧
    ∀ (hands : Hands) (w : World) (r : Nat) (c : Container), w.InOrder hands → .handle r ∈ hands →
      containerAt? w.cells r = some c →
      (∀ d : Container, d.store = c.store → d.kind = c.kind → (w.changed r d).restored r c = w) ∧
      (∀ q, Atomic (runSteps depth) w r c c.forQuery? .containsKey q [] fun run => has run r q) ∧
      (∀ q, Atomic (runSteps depth) w r c c.forQuery? .lookup q [] fun run => lookup run r q) ∧
      (∀ q, Atomic (runSteps depth) w r c (c.forUpdate? .remove) .remove q []
        fun run => delete run r q) ∧
      (c.access ≠ .shared 0 → w.Refuses [] (fun run => clear run r) .conflict) ∧
      (∀ others q item kind, hands = others + (handles q.key.refs + item.offered) →
        .handle r ∈ others → Atomic (runSteps depth) w r c (c.forUpdate? .upsert) .upsert
          (c.kind.stored q) [.item item, .key q.key] fun run => insert run r kind q item) ∧
      ∀ others before q item after, hands = others + entriesOf (before ++ (q, item) :: after) →
        .handle r ∈ others → ∀ u, putEach (runSteps depth) r before w = (.ok (), u) →
          (∀ c', containerAt? u.cells r = some c' →
            Atomic (runSteps depth) u r c' (c'.forUpdate? .upsert) .upsert (c'.kind.stored q)
              [.item item, .key q.key] fun run => upsert run r q item) ∧
          ∀ e v, upsert (runSteps depth) r q item u = (.error e, v) →
            putEach (runSteps depth) r (before ++ (q, item) :: after) w =
              (.error (e.leaving (discard (runSteps depth)
                  (after.flatMap fun (q, i) => [.key q.key, .item i]) v).1),
                (discard (runSteps depth) (after.flatMap fun (q, i) => [.key q.key, .item i]) v).2) := by
  have hrun := runSteps_safe depth
  refine ⟨onlyUse_restored, fun hands w r c hw hr hc => ⟨fun d => restored_changed hw.cells hc,
    has_atomic hrun hw hr hc, lookup_atomic hrun hw hr hc, delete_atomic hrun hw hr hc, ?_, ?_, ?_⟩⟩
  · intro ha run
    show World.clear run r w = _
    rw [World.clear, Act.bind_apply, exclusively, exclusivelyOr_conflicts hc ha, discard_nil]
  · rintro others q item kind rfl hothers
    exact (upsert_atomic hrun hothers hw hc).bind
  · rintro others before q item after rfl hothers u hbefore
    refine ⟨fun c' hc' => ?_, fun e v he => putEach_stops hbefore he⟩
    -- what was stored before is not in hand any more
    have hbegun : Situation.Holds ((entriesOf before : Hands) : Situation)
        (others + entriesOf ((q, item) :: after)) w :=
      ⟨hw.of_eq (by rw [entriesOf_append]; abel), trivial⟩
    obtain ⟨hu, _⟩ := (putEach_owns hrun hothers before).of_ok
      (fun a ha => Multiset.mem_add.mpr (.inl ha)) hbegun hbefore
    have hu' : u.InOrder (others + entriesOf after + (handles q.key.refs + item.offered)) :=
      hu.1.of_eq (by
        show _ = others + entriesOf ((q, item) :: after) + 0
        rw [entriesOf_cons]
        abel)
    exact upsert_atomic hrun (Multiset.mem_add.mpr (.inl hothers)) hu' hc'

theorem error_of_fst {α : Type} {x : Act α} {w : World} {e : Failure} (h : (x w).1 = .error e) :
    x w = (.error e, (x w).2) := Prod.ext h rfl

theorem ok_of_toBool {α : Type} {x : Act α} {w : World} (h : (x w).1.toBool = true) :
    ∃ a, x w = (.ok a, (x w).2) := by
  rcases hx : x w with ⟨e | a, v⟩
  · rw [hx] at h
    cases h
  · exact ⟨a, rfl⟩

/-- A map under a name, with another handle on it. -/
def filled : World :=
  let key := Term.text .slice
  let w := (Program.runFrom false (.initial ⟨100, 4, 20⟩ false)
    [.container .map "m" [(key "a", .tracked 1 none none), (key "b", .tracked 2 none none)]]).2
  { w with cells := Table.change 0 (fun d => { d with handles := 2 }) w.cells }

/-- A second handle on the object that a program has made. -/
theorem shared_inOrder {ops : List Op}
    (h : (Table.get? 0 (Program.runFrom false (.initial ⟨100, 4, 20⟩ false) ops).2.cells).map
      Cell.handles = some 1) :
    let w := (Program.runFrom false (.initial ⟨100, 4, 20⟩ false) ops).2
    { w with cells := Table.change 0 (fun d => { d with handles := 2 }) w.cells }.InOrder
      (0 + handles [0]) := by
  obtain ⟨_, hrun, _⟩ := Program.runFrom_spec (World.resting_initial ⟨100, 4, 20⟩ false) false ops
  obtain ⟨d, hd, hhandles⟩ := Option.map_eq_some_iff.mp h
  have hretained := hrun.retain hd
  rw [hhandles] at hretained
  exact hretained

theorem filled_inOrder : filled.InOrder (0 + handles [0]) := shared_inOrder (by decide +kernel)

/-- A key that changes the map while it is asked for its token. -/
def meddling : Query :=
  .reacting (.plain (.text .slice "a")) [.mk (.delete (.named "m") (.text .slice "b")) true]

/-- The map is open for a query. -/
def opened (w : World) : World :=
  match (containerAt? w.cells 0).bind Container.forQuery? with
  | some d => w.changed 0 (d.beingSearched .containsKey)
  | none => w

/-- It is still in order. -/
theorem World.InOrder.opened {w : World} {hands : Hands} (hw : w.InOrder hands) :
    (LiveOrder.opened w).InOrder hands := by
  unfold LiveOrder.opened
  split
  · rename_i d hd
    obtain ⟨c, hc, hd⟩ := Option.bind_eq_some_iff.mp hd
    unfold Container.forQuery? at hd
    split at hd
    · rename_i n ha hnone
      cases hd
      have hguard := (hw.books.guarded hc).reading ha
      exact hw.use hc rfl rfl (hguard.searching_reader rfl hnone rfl)
    · cases hd
  · exact hw

open World in
/-- The query fails with its key, and the map is put back. -/
theorem failure_atomic_meddling :
    ∃ (hands : Hands) (w : World) (c d : Container) (u : World), w.InOrder hands ∧ .handle 0 ∈ hands ∧
      containerAt? w.cells 0 = some c ∧ c.forQuery? = some d ∧
      ask (runSteps 4) meddling (w.changed 0 (d.beingSearched .containsKey)) = (.error .conflict, u) ∧
      has (runSteps 4) 0 meddling w = (.error .conflict, u.restored 0 c) ∧
      OnlyUse u (u.restored 0 c) 0 c := by
  have hw := filled_inOrder
  have hopen : ((containerAt? filled.cells 0).bind Container.forQuery?).isSome = true := by
    decide +kernel
  have hfails : (ask (runSteps 4) meddling (opened filled)).1 = .error .conflict := by
    decide +kernel
  generalize filled = w at hw hopen hfails
  obtain ⟨d, hd⟩ := Option.isSome_iff_exists.mp hopen
  obtain ⟨c, hc, hd'⟩ := Option.bind_eq_some_iff.mp hd
  rw [opened, hd] at hfails
  obtain ⟨u, hask⟩ : ∃ u, ask (runSteps 4) meddling (w.changed 0 (d.beingSearched .containsKey)) =
      (.error .conflict, u) := ⟨_, error_of_fst hfails⟩
  obtain ⟨honly, hops⟩ := failure_atomic 4
  obtain ⟨_, hhas, _⟩ := hops _ w 0 c hw (by simp) hc
  have hfailed := (hhas meddling).unwinds d _ _ hd' hask
  rw [discard_nil] at hfailed
  have hback := hfailed.trans (congrArg (Prod.mk _) (restored_restored u 0 c d))
  exact ⟨_, w, c, d, u, hw, by simp, hc, hd', hask, hback, honly u 0 c⟩

end LiveOrder
