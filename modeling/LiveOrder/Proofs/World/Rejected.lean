import LiveOrder.Proofs.World.Atomicity
import LiveOrder.Proofs.World.Drops

/-!
# What is not stored

What an operation replaces or removes goes away when the operation is done.  What it could not store
goes away earlier.

* `World.Barred`      whatever is done with the container is refused;
* `rejected_within`   the key and the value of an insertion whose key fails go away while the container is
                      still being changed.
-/

namespace LiveOrder

namespace World

open Act Situation Table

variable {run : Runner} {w u : World} {others : Hands} {r : Nat} {c : Container}

/-- Everything is refused of a container that is being changed. -/
structure Barred (w : World) (r : Nat) : Prop where
  has : ∀ q, w.Refuses [] (fun run => has run r q) .conflict
  lookup : ∀ q, w.Refuses [] (fun run => lookup run r q) .conflict
  put : ∀ q item, w.Refuses [.item item, .key q.key] (fun run => putEach run r [(q, item)]) .conflict
  insert : ∀ kind q item,
    w.Refuses [.item item, .key q.key] (fun run => insert run r kind q item) .conflict
  delete : ∀ q, w.Refuses [] (fun run => delete run r q) .conflict
  clear : w.Refuses [] (fun run => clear run r) .conflict
  move : ∀ id last, w.Refuses [] (fun _ => move id r last) .conflict

theorem Refusals.barred {uses : List Use} {op : Operation} (h : w.Refusals r uses)
    (hop : op.isUpdate = true) (huses : .changing op ∈ uses) : w.Barred r := by
  have hsome : uses ≠ [] := List.ne_nil_of_mem huses
  exact
    { has q := (h.has q .conflict trivial).mpr (.inl ⟨rfl, op, hop, huses⟩)
      lookup q := (h.lookup q .conflict trivial).mpr (.inl ⟨rfl, op, hop, huses⟩)
      put q item := (h.put q item .conflict trivial).mpr ⟨rfl, hsome⟩
      insert kind q item := (h.insert kind q item .conflict trivial).mpr ⟨rfl, hsome⟩
      delete q := (h.delete q .conflict trivial).mpr ⟨rfl, hsome⟩
      clear := (h.clear .conflict trivial).mpr ⟨rfl, hsome⟩
      move id last := (h.move id last .conflict trivial).mpr ⟨rfl, hsome⟩ }

end World

open World in
/-- The key and the value that are not stored, as the key has failed to give its token, go away while the
container is still being changed: every reaction finds it there, and whatever it does with it is refused.
Only then does the access end. -/
theorem rejected_within (depth : Nat) {others : Hands} {w u : World} {r : Nat} {c : Container}
    {q : Query} {item : Item} {e : Failure}
    (hw : w.InOrder (others + (handles q.key.refs + item.offered))) (hr : .handle r ∈ others)
    (hc : containerAt? w.cells r = some c) (ha : c.access = .shared 0)
    (hask : ask (runSteps depth) (c.kind.stored q)
      (w.changed r ((c.beingChanged .upsert).beingSearched .upsert)) = (.error e, u)) :
    ∃ o v, Drops (runSteps depth) (fun y => y.HasContainer r ∧ y.Barred r) [.item item, .key q.key]
        (u.restored r (c.beingChanged .upsert)) o v ∧
      putEach (runSteps depth) r [(q, item)] w = (.error (e.leaving o), v.restored r c) ∧
      ∀ kind, insert (runSteps depth) r kind q item w = (.error (e.leaving o), v.restored r c) := by
  have hrun := runSteps_safe depth
  have hguard := hw.books.guarded hc
  obtain ⟨hnone, hempty⟩ := hguard.idle ha
  have hchanges : (c.beingChanged .upsert).changes = [.upsert] := by
    rw [Container.changes, Container.beingChanged, hempty]
    rfl
  have hsearched := (hguard.changing ha rfl).searching_changer hchanges hnone
  -- the world in which the pieces go away: the search has ended and the access has not
  obtain ⟨hu, f, hf, hform⟩ := asked_still hrun hw (Multiset.mem_add.mpr (.inl hr)) hc (by rfl)
    (by rfl) hsearched hask
  have hopen : u.restored r (c.beingChanged .upsert) =
      u.changed r (f.usedAs (c.beingChanged .upsert)) := restored_eq hf _
  have hd : containerAt? (u.restored r (c.beingChanged .upsert)).cells r =
      some (f.usedAs (c.beingChanged .upsert)) := hopen ▸ containerAt?_changed hf _
  have hheld : (u.restored r (c.beingChanged .upsert)).InOrder
      (others + piecesOf [.item item, .key q.key]) := by
    have hchanged : (u.changed r (f.usedAs (c.beingChanged .upsert))).InOrder
        (others + (handles q.key.refs + item.offered)) :=
      hu.use hf rfl rfl ((hguard.changing ha rfl).usedAs f)
    exact hopen ▸ hchanged.reject
  obtain ⟨n, hn⟩ := containerAt?_eq_some_iff.mp hd
  have hbarred : ∀ y, (u.restored r (c.beingChanged .upsert)).Later others y →
      y.HasContainer r ∧ y.Barred r := by
    intro y hy
    have hstays := stays_of_later hd rfl (hheld.books.lt_fresh hn) hy
    obtain ⟨g, hg⟩ := hstays.there hr
    exact ⟨⟨g, hg⟩, (hstays.use g hg).2.barred rfl List.mem_cons_self⟩
  have hupsert := (upsert_atomic hrun hr hw hc).unwinds (c.beingChanged .upsert) e u
    (by rw [Container.forUpdate?, if_pos ha]) hask
  rcases hdiscard : discard (runSteps depth) [.item item, .key q.key]
      (u.restored r (c.beingChanged .upsert)) with ⟨o, v⟩
  rw [hdiscard] at hupsert
  refine ⟨o, v, discard_drops hrun hheld hbarred hdiscard, ?_, fun kind => ?_⟩
  · rw [putEach_single, Act.bind_apply, hupsert]
  · rw [World.insert, Act.bind_apply, hupsert]

/-- A key that looks at the map while it is asked for its token, which is refused and not caught. -/
def looking : Term := .reacting (.text .slice "k") [.mk (.measure (.named "m")) true]

/-- A value is to be stored in a map that stores another one in it when it goes away. -/
def rejecting : List Op :=
  let key := Term.text .slice
  [.container .map "m" [(key "a", .tracked 1 none none)],
    .insert (.named "m") looking
      (.tracked 8 (some [.mk (.put (.named "m") [(key "b", .tracked 2 none none)]) false]) none)]

/-- The failures of what reactions to releases do. -/
def reactionFailures (r : Program.Reply) : List Failure :=
  let failure? : Answer → Option Failure
    | .mk (.error e) _ => some e
    | .mk (.ok _) _ => none
  match r.answer with
  | .mk _ log => log.flatMap fun
    | .released _ (some acts) => acts.filterMap failure?
    | _ => []

/-- The reaction of the rejected value is refused, and the map is left as it was. -/
theorem rejected_not_outside :
    (Program.runFrom false (.initial ⟨100, 8, 20⟩ false) rejecting).1.flatMap reactionFailures =
        [.conflict] ∧
      (containerAt? (Program.runFrom false (.initial ⟨100, 8, 20⟩ false) rejecting).2.cells 0).map
        (fun c => c.store.len) = some 1 := by
  decide +kernel

/-- The map is open for an insertion. -/
def changing (w : World) : World :=
  match containerAt? w.cells 0 with
  | some c => w.changed 0 ((c.beingChanged .upsert).beingSearched .upsert)
  | none => w

/-- The map, when a tracked number has been made that is not in it. -/
def supplied : World := { filled with freshNumber := filled.freshNumber + 1 }

open World in
/-- The value that is rejected goes away while the map is being changed. -/
theorem rejected_within_looking :
    ∃ (others : Hands) (w u v : World) (c : Container) (q : Query) (item : Item)
      (o : Except Failure Unit), w.InOrder (others + (handles q.key.refs + item.offered)) ∧
      .handle 0 ∈ others ∧ containerAt? w.cells 0 = some c ∧ c.access = .shared 0 ∧
      ask (runSteps 4) (c.kind.stored q)
        (w.changed 0 ((c.beingChanged .upsert).beingSearched .upsert)) = (.error .conflict, u) ∧
      Drops (runSteps 4) (fun y => y.HasContainer 0 ∧ y.Barred 0) [.item item, .key q.key]
        (u.restored 0 (c.beingChanged .upsert)) o v ∧
      putEach (runSteps 4) 0 [(q, item)] w = (.error (Failure.conflict.leaving o), v.restored 0 c) := by
  let q : Query := .reacting (.plain (.text .slice "k")) [.mk (.measure (.named "m")) true]
  let item : Item := .tracked filled.freshNumber 8
    (some [.mk (.delete (.named "m") (.text .slice "a")) false]) none
  have hw : supplied.InOrder (0 + handles [0] + (handles q.key.refs + item.offered)) := by
    refine filled_inOrder.supply.of_eq ?_
    show _ + (handles [] + (tracking filled.freshNumber + permit filled.freshNumber)) = _
    simp only [handles_nil, zero_add]
  have hkind : (containerAt? supplied.cells 0).map (fun c => (c.kind, c.access)) =
      some (.map, .shared 0) := by decide +kernel
  have hfails : (ask (runSteps 4) (Kind.map.stored q) (changing supplied)).1 = .error .conflict := by
    decide +kernel
  generalize item = item at hw
  generalize supplied = w at hw hkind hfails
  obtain ⟨c, hc, hshape⟩ := Option.map_eq_some_iff.mp hkind
  obtain ⟨hkind, ha⟩ := Prod.mk.inj hshape
  rw [← hkind, changing, hc] at hfails
  obtain ⟨o, v, hdrops, hput, _⟩ := rejected_within 4 hw (by simp) hc ha (error_of_fst hfails)
  exact ⟨_, w, _, v, c, q, item, o, hw, by simp, hc, ha, error_of_fst hfails, hdrops, hput⟩

end LiveOrder
