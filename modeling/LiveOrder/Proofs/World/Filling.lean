import LiveOrder.Proofs.Store.Filling
import LiveOrder.Proofs.World.Perform
import LiveOrder.Proofs.World.Released

/-!
# Containers that are filled

Entries that are stored in a container one after the other fill its store, if no user code runs
meanwhile.  A map is extended in this way, and a new one is made from a list.

* `Query.silent`, `Silent`   no user code runs when a key is asked for its token, or when an entry is
                      stored and released;
* `discard_silent`    a release of what does not react goes through, or the run comes to its limit;
* `putEach_took`      one entry is stored, and nothing reacts afterwards that did not before;
* `putEach_fills`, `build_fills`   many entries, in a container that is there and in a new one;
* `bulk_construction`   bulk construction equals its closed form, for stores and in the world.

The limit of the run is the bound on the pieces that one release may lead to.
-/

namespace LiveOrder

/-! ## keys and entries without user code -/

/-- No user code runs when the key is asked for its token. -/
def Query.silent : Query → Bool
  | .plain _ => true
  | .reference q | .counted q => q.silent
  | .reacting .. => false

theorem Query.silent_canonical (q : Query) : q.canonical.silent = q.silent := by
  induction q with
  | plain k => rfl
  | reference q => rfl
  | counted q ih => exact ih
  | reacting q body => rfl

theorem Kind.silent_stored (kind : Kind) (q : Query) : (kind.stored q).silent = q.silent := by
  unfold stored
  split
  · rfl
  · exact q.silent_canonical

/-- No user code runs when the entry is stored, and none when it is released. -/
structure Silent (objects : Objects) (e : Query × Item) : Prop where
  asked : e.1.silent = true
  key : ¬Reacts objects (.key e.1.key)
  item : ¬Reacts objects (.item e.2)

theorem Silent.mono {objects objects' : Objects} {e : Query × Item} (h : Silent objects e)
    (hreacts : ∀ p, Reacts objects' p → Reacts objects p) : Silent objects' e :=
  ⟨h.asked, fun hp => h.key (hreacts _ hp), fun hp => h.item (hreacts _ hp)⟩

/-- What is given for the entries of a container. -/
def givenPairs (entries : List (Query × Item)) : List (Key × Item) := entries.map fun e => (e.1.key, e.2)

/-- A key reacts when what it mentions does. -/
theorem reacts_key_of_refs {objects : Objects} {k k' : Key} (h : k'.refs = k.refs)
    (hk : Reacts objects (.key k')) : Reacts objects (.key k) := by
  cases hk with
  | key hr hhandle => exact .key (h ▸ hr) hhandle

/-! ## what a store holds then -/

theorem mem_debrisOf {pairs : List (Key × Item)} {p : Debris} :
    p ∈ World.debrisOf pairs ↔ ∃ e ∈ pairs, p = .key e.1 ∨ p = .item e.2 := by
  simp [World.debrisOf]

namespace Store

variable {t t' : Store Item} {pins : Nat → Nat} {k : Key} {i : Item} {outcome : Upsert Item} {p : Debris}

/-- What a store holds after a value was stored is what it held before, or has been given. -/
theorem upsert_contents (h : t.Sound pins) (he : t.upsert k i = .ok (outcome, t'))
    (hp : p ∈ World.debrisOf t'.contents) : p ∈ World.debrisOf t.contents ∨ p = .key k ∨ p = .item i := by
  obtain ⟨u, hu, hs, _⟩ := upsert_spec h k i
  rw [he, Except.ok.injEq, Prod.mk.injEq] at hu
  obtain ⟨_, rfl⟩ := hu
  have hheld := upsert_held h he
  obtain ⟨e, hmem, hp⟩ := mem_debrisOf.mp hp
  rw [(contents_perm hs).mem_iff] at hmem
  have hold : ∀ f ∈ t.held, f ∈ t.contents := fun f hf => (contents_perm h).mem_iff.mpr hf
  cases outcome with
  | inserted s =>
    rcases List.mem_cons.mp (hheld.mem_iff.mp hmem) with rfl | hmem
    · exact .inr hp
    · exact .inl (mem_debrisOf.mpr ⟨e, hold e hmem, hp⟩)
  | updated s key previous =>
    obtain ⟨_, first, rest, hbefore, hafter⟩ := hheld
    rcases List.mem_cons.mp (hafter.mem_iff.mp hmem) with rfl | hmem
    · rcases hp with rfl | rfl
      · have hfirst := hold _ (hbefore.mem_iff.mpr List.mem_cons_self)
        exact .inl (mem_debrisOf.mpr ⟨_, hfirst, .inl rfl⟩)
      · exact .inr (.inr rfl)
    · have hrest := hold e (hbefore.mem_iff.mpr (List.mem_cons_of_mem _ hmem))
      exact .inl (mem_debrisOf.mpr ⟨e, hrest, hp⟩)

/-- What is set aside is the value that was there, and the key that was not needed. -/
theorem upsert_aside (h : t.Sound pins) (he : t.upsert k i = .ok (outcome, t'))
    (hp : p ∈ outcome.aside.pieces) : p ∈ World.debrisOf t.contents ∨ p = .key k := by
  have hheld := upsert_held h he
  cases outcome with
  | inserted s => cases hp
  | updated s key previous =>
    obtain ⟨rfl, first, rest, hbefore, _⟩ := hheld
    rcases List.mem_pair.mp hp with rfl | rfl
    · exact .inr rfl
    · have hfirst := (contents_perm h).mem_iff.mpr (hbefore.mem_iff.mpr List.mem_cons_self)
      exact .inl (mem_debrisOf.mpr ⟨_, hfirst, .inr rfl⟩)

end Store

namespace Act

variable {α β : Type} {x : Act α} {f : α → Act β} {w : World} {Q : α → World → Prop} {R : β → World → Prop}

/-- The action goes through and comes to such a result and such a world, or the run comes to its
limit. -/
def GoesThrough (x : Act α) (w : World) (Q : α → World → Prop) : Prop :=
  (∃ y v, x w = (.ok y, v) ∧ Q y v) ∨
    ∃ v, x w = (.error .exhausted, v) ∧ w.limits.rounds ≤ v.discarded

theorem GoesThrough.mono {R : α → World → Prop} (h : GoesThrough x w Q) (hQ : ∀ y v, Q y v → R y v) :
    GoesThrough x w R := by
  rcases h with ⟨y, v, hx, hq⟩ | hlimit
  · exact .inl ⟨y, v, hx, hQ y v hq⟩
  · exact .inr hlimit

theorem GoesThrough.bind (hx : GoesThrough x w Q)
    (hf : ∀ y v, Q y v → v.limits = w.limits ∧ GoesThrough (f y) v R) : GoesThrough (x >>= f) w R := by
  rcases hx with ⟨y, v, hxv, hq⟩ | ⟨v, hxv, hle⟩
  · obtain ⟨hlimits, hthrough⟩ := hf y v hq
    rw [GoesThrough, bind_of_ok hxv, ← hlimits]
    exact hthrough
  · exact .inr ⟨v, by rw [bind_apply, hxv], hle⟩

/-- The limit of the run is passed on when more is released after it. -/
theorem GoesThrough.onFailure {cleanup : Act Unit} (hx : GoesThrough x w Q)
    (hcleanup : ∀ v, x w = (.error .exhausted, v) → Onward v (cleanup v).2) :
    GoesThrough (onFailure x cleanup) w Q := by
  rcases hx with ⟨y, v, hxv, hq⟩ | ⟨v, hxv, hle⟩
  · exact .inl ⟨y, v, onFailure_eq_ok.mpr hxv, hq⟩
  · refine .inr ⟨(cleanup v).2, ?_, Nat.le_trans hle (hcleanup v hxv).discarded⟩
    rw [onFailure_apply, hxv]
    exact Prod.ext (congrArg Except.error (Failure.leaving_of_unwinds rfl _)) rfl

end Act

namespace World

open Act Situation Table

variable {run : Runner} {w v u z : World} {others : Hands} {r n : Nat} {c : Container} {kind : Kind}
  {pieces : List Debris} {entries : List (Query × Item)}

/-! ## releases -/

theorem discardOne_silent {d : Debris} (hw : w.InOrder (others + d.assets)) (hd : ¬Reacts w.cells d) :
    ∃ more u, discardOne run d w = (.ok more, u) := by
  cases d with
  | key k => exact ⟨_, _, rfl⟩
  | handle r =>
    have hmem : .handle r ∈ others + (Debris.handle r).assets := by simp [Debris.assets]
    obtain ⟨d, hd⟩ := hw.exists_of_mem hmem
    rw [discardOne, releaseHandle_eq hd]
    split <;> exact ⟨_, _, rfl⟩
  | item i =>
    cases i with
    | tracked id n onRelease onCopy =>
      cases onRelease with
      | some body => exact absurd (.released id n body onCopy) hd
      | none => exact ⟨_, _, rfl⟩
    | _ => exact ⟨_, _, rfl⟩

/-- As many pieces go away as there is time for. -/
theorem discardWithin_silent (hrun : run.Safe) (hw : w.InOrder (others + piecesOf pieces))
    (hp : ∀ p ∈ pieces, ¬Reacts w.cells p) :
    (discardWithin run n pieces w).1 = .ok () ∨
      (discardWithin run n pieces w).1 = .error .exhausted ∧
        w.discarded + n ≤ (discardWithin run n pieces w).2.discarded := by
  induction n generalizing pieces w others with
  | zero =>
    cases pieces with
    | nil => exact .inl rfl
    | cons d rest => exact .inr ⟨rfl, Nat.le_refl _⟩
  | succ n ih =>
    cases pieces with
    | nil => exact .inl rfl
    | cons d rest =>
      obtain ⟨hd, hrest⟩ := List.forall_mem_cons.mp hp
      have hone : w.counted.InOrder (others + piecesOf rest + d.assets) := by
        apply hw.count.of_eq
        rw [piecesOf_cons]
        abel
      have hfirst : ∃ more u, discardOne run d w.counted = (.ok more, u) := discardOne_silent hone hd
      obtain ⟨more, u, hu⟩ := hfirst
      have hstep : w.counted.Kept (discardOne run d w.counted).2 ∧ _ := discardOne_kept hd
      obtain ⟨hkept, hmore⟩ := hstep
      obtain ⟨hv, hon⟩ := (discardOne_settles hrun d).owns.holding_of_ok (Multiset.Subset.refl _) hone hu
      rw [hu] at hkept hmore
      have hu' : u.InOrder (others + piecesOf (more ++ rest)) := hv.of_eq (by
        rw [piecesOf_append]
        abel)
      have hquiet : ∀ p ∈ more ++ rest, ¬Reacts u.cells p := by
        intro p hp hreacts
        rcases List.mem_append.mp hp with hp | hp
        · exact hmore more rfl p hp (hkept.reacts hreacts)
        · exact hrest p hp (hkept.reacts hreacts)
      have hcount : w.discarded + 1 ≤ u.discarded := hon.discarded
      rw [discardWithin_cons, hu]
      rcases ih hu' hquiet with hok | ⟨he, hle⟩
      · exact .inl hok
      · refine .inr ⟨he, ?_⟩
        dsimp only
        omega

/-- A release of what does not react leaves the world as it is, but for what goes away. -/
theorem discard_silent (hrun : run.Safe) (hw : w.InOrder (others + piecesOf pieces))
    (hp : ∀ p ∈ pieces, ¬Reacts w.cells p) : GoesThrough (discard run pieces) w fun _ v => w.Kept v := by
  have hkept : w.Kept (discard run pieces w).2 := discard_kept hp
  rcases discardWithin_silent (n := w.limits.rounds) hrun hw hp with hok | ⟨he, hle⟩
  · exact .inl ⟨(), _, Prod.ext hok rfl, hkept⟩
  · exact .inr ⟨_, Prod.ext he rfl, Nat.le_trans (Nat.le_add_left _ _) hle⟩

/-! ## one entry -/

/-- The container is not in use, and holds nothing that reacts. -/
structure Still (w : World) (r : Nat) (c : Container) : Prop where
  there : containerAt? w.cells r = some c
  idle : c.access = .shared 0
  quiet : ¬Reacts w.cells (.handle r)

theorem Still.contents (h : w.Still r c) : ∀ p ∈ debrisOf c.store.contents, ¬Reacts w.cells p := by
  intro p hp hreacts
  obtain ⟨n, hn⟩ := containerAt?_eq_some_iff.mp h.there
  exact h.quiet (.object hn hp hreacts)

theorem not_reacts_container (hc : containerAt? w.cells r = some c)
    (h : ∀ p ∈ debrisOf c.store.contents, ¬Reacts w.cells p) : ¬Reacts w.cells (.handle r) := by
  obtain ⟨n, hn⟩ := containerAt?_eq_some_iff.mp hc
  intro hreacts
  cases hreacts with
  | object hd hp hpiece =>
    rw [hn] at hd
    cases hd
    exact h _ hp hpiece

theorem ask_silent {q : Query} (hq : q.silent = true) (w : World) :
    ∃ u, ask run q w = (.ok (), u) ∧ u.cells = w.cells := by
  induction q generalizing w with
  | plain k => exact ⟨w, rfl, rfl⟩
  | reference q ih => exact ih hq w
  | counted q ih =>
    obtain ⟨u, hu, hcells⟩ := ih hq (w.logging (.asked (w.showKey q.key) none))
    exact ⟨u, hu, hcells.trans (cells_log _ w)⟩
  | reacting q body => cases hq

/-- A key that is not watched is asked, and what is to be stored goes on record. -/
theorem begin_silent {q : Query} (hq : q.silent = true) (i : Item) (w : World) :
    ∃ u, (do
      ask run q
      enter r i : Act Unit) w = (.ok (), u) ∧ u.cells = w.cells := by
  have hasked : ∃ u, ask run q w = (.ok (), u) ∧ u.cells = w.cells := ask_silent hq w
  obtain ⟨u, hu, hcells⟩ := hasked
  rw [bind_of_ok hu]
  cases i <;> exact ⟨_, rfl, hcells⟩

/-- A container with one entry more does not make anything react. -/
theorem reacts_stored {t : Store Item} {k : Key} {i : Item} {outcome : Upsert Item} {pins : Nat → Nat}
    (hc : containerAt? w.cells r = some c) (hs : c.store.Sound pins)
    (hy : c.store.upsert k i = .ok (outcome, t)) (hk : ¬Reacts w.cells (.key k))
    (hi : ¬Reacts w.cells (.item i)) {p : Debris}
    (hp : Reacts (w.changed r { c with store := t }).cells p) : Reacts w.cells p := by
  obtain ⟨n, hn⟩ := containerAt?_eq_some_iff.mp hc
  have hgiven : ∀ p ∈ [Debris.key k, .item i], ¬Reacts w.cells p :=
    List.forall_mem_cons.mpr ⟨hk, List.forall_mem_singleton.mpr hi⟩
  refine hp.of_given (fun q d hd piece hpiece => ?_) hgiven
  unfold changed at hd
  rw [get?_change] at hd
  split at hd
  · rename_i hq
    obtain ⟨_, _, rfl⟩ := Option.map_eq_some_iff.mp hd
    rcases Store.upsert_contents hs hy hpiece with hold | hnew
    · exact .inr ⟨⟨n, .container c⟩, hq ▸ hn, hold⟩
    · exact .inl (List.mem_pair.mpr hnew)
  · exact .inr ⟨d, hd, hpiece⟩

/-- What the container holds with the entry does not react either, also later. -/
theorem Still.taken {t : Store Item} {k : Key} {i : Item} {outcome : Upsert Item} {pins : Nat → Nat}
    (h : w.Still r c) (hs : c.store.Sound pins) (hy : c.store.upsert k i = .ok (outcome, t))
    (hk : ¬Reacts w.cells (.key k)) (hi : ¬Reacts w.cells (.item i))
    (hv : containerAt? v.cells r = some { c with store := t })
    (hreacts : ∀ p, Reacts v.cells p → Reacts w.cells p) : v.Still r { c with store := t } := by
  refine ⟨hv, h.idle, not_reacts_container hv fun p hp hpreacts => ?_⟩
  rcases Store.upsert_contents hs hy hp with hold | rfl | rfl
  · exact h.contents p hold (hreacts p hpreacts)
  · exact hk (hreacts _ hpreacts)
  · exact hi (hreacts _ hpreacts)

/-- A container that is not in use takes an entry that runs no user code, and nothing else changes. -/
theorem upsert_silent {q : Query} {item : Item} {outcome : Upsert Item} {t : Store Item}
    (hc : w.Still r c) (hguard : c.Disciplined) (hq : q.silent = true)
    (hy : c.store.upsert (c.kind.storedKey q.key) item = .ok (outcome, t)) :
    ∃ z, upsert run r q item w = (.ok outcome, z) ∧
      z.cells = (w.changed r { c with store := t }).cells := by
  have hbegin : ∃ u, (do
      ask run (c.kind.stored q)
      enter r item : Act Unit) (w.changed r ((c.beingChanged .upsert).beingSearched .upsert)) =
        (.ok (), u) ∧ _ := begin_silent ((c.kind.silent_stored q).trans hq) item _
  obtain ⟨u, hbegun, hcells⟩ := hbegin
  have hu := containerAt?_changed hc.there ((c.beingChanged .upsert).beingSearched .upsert)
  rw [← hcells] at hu
  rw [← c.kind.key_stored q] at hy
  refine ⟨_, upsert_eq hc.there hc.idle (hguard.idle hc.idle).1 hbegun hu hy, ?_⟩
  show change r (fun d => { d with body := .container { c with store := t } }) u.cells = _
  rw [hcells]
  exact congrArg World.cells (changed_changed _)

/-- What an entry makes of a container, and of a world in which nothing reacts to it. -/
structure Took (w : World) (r : Nat) (c : Container) (e : Query × Item) (others : Hands) (v : World) :
    Prop where
  filled : ∃ outcome t, c.store.upsert (c.kind.storedKey e.1.key) e.2 = .ok (outcome, t) ∧
    v.Still r { c with store := t }
  order : v.InOrder others
  onward : Onward w v
  reacts : ∀ p, Reacts v.cells p → Reacts w.cells p

theorem putEach_single_eq (run : Runner) (r : Nat) (q : Query) (item : Item) :
    putEach run r [(q, item)] =
      upsert run r q item >>= fun outcome => discard run outcome.aside.pieces := by
  rw [putEach_single]
  congr
  funext outcome
  cases outcome with
  | inserted s => exact (discard_nil run).symm
  | updated s key previous => rfl

/-- One entry is stored, and what it replaces is released. -/
theorem putEach_took (hrun : run.Safe) {e : Query × Item} (hw : w.InOrder (others + entriesOf [e]))
    (hr : .handle r ∈ others) (hc : w.Still r c) (he : Silent w.cells e) :
    GoesThrough (putEach run r [e]) w fun _ v => w.Took r c e others v := by
  obtain ⟨q, item⟩ := e
  have hw' : w.InOrder (others + (handles q.key.refs + item.offered)) := hw.of_eq (by
    rw [entriesOf_cons]
    exact congrArg _ (add_zero _).symm)
  have hs := hw.books.stores hc.there
  obtain ⟨t, hy, _⟩ := Store.upsert_spec hs (c.kind.storedKey q.key) item
  generalize (c.store.ledger.upsert (c.kind.storedKey q.key) item).1 = outcome at hy
  have htaken : ∃ z, upsert run r q item w = (.ok outcome, z) ∧ _ :=
    upsert_silent hc (hw.books.guarded hc.there) he.asked hy
  obtain ⟨z, hupsert, hthere⟩ := htaken
  obtain ⟨hz, hon⟩ := (upsert_owns hrun hr q item).holding_of_ok (Multiset.Subset.refl _) hw' hupsert
  have hstored : ¬Reacts w.cells (.key (c.kind.storedKey q.key)) := fun hreacts =>
    he.key (reacts_key_of_refs (c.kind.key_stored q ▸ c.kind.refs_stored q) hreacts)
  have hreacts : ∀ p, Reacts z.cells p → Reacts w.cells p := fun p hp =>
    reacts_stored hc.there hs hy hstored he.item (hthere ▸ hp)
  have hz' : z.InOrder (others + piecesOf outcome.aside.pieces) := hz.of_eq (by
    rw [Upsert.pieces_aside])
  have haside : ∀ p ∈ outcome.aside.pieces, ¬Reacts z.cells p := by
    intro p hp hpreacts
    rcases Store.upsert_aside hs hy hp with hold | rfl
    · exact hc.contents p hold (hreacts p hpreacts)
    · exact hstored (hreacts _ hpreacts)
  rw [putEach_single_eq, GoesThrough, bind_of_ok hupsert, ← hon.limits]
  rcases discard_silent hrun hz' haside with ⟨_, v, hv, hkept⟩ | hlimit
  · obtain ⟨horder, hlater⟩ := (discard_owns hrun _).holding_of_ok (Multiset.Subset.refl _) hz' hv
    have horder' : v.InOrder others := horder.of_eq (add_zero _).symm
    have hquiet : ∀ p, Reacts v.cells p → Reacts w.cells p := fun p hp => hreacts p (hkept.reacts hp)
    have hopen : containerAt? z.cells r = some { c with store := t } :=
      hthere ▸ containerAt?_changed hc.there _
    have hstill : v.Still r { c with store := t } :=
      hc.taken hs hy hstored he.item (hkept.container hopen (horder'.exists_of_mem hr)) hquiet
    exact .inl ⟨(), v, hv, ⟨outcome, t, hy, hstill⟩, horder', hon.trans hlater, hquiet⟩
  · exact .inr hlimit

/-! ## many entries -/

theorem putEach_cons (run : Runner) (r : Nat) (e : Query × Item) (rest : List (Query × Item)) :
    putEach run r (e :: rest) = Act.onFailure (putEach run r [e])
      (discard run (rest.flatMap fun (q, i) => [.key q.key, .item i])) >>= fun _ =>
        putEach run r rest := by
  obtain ⟨q, item⟩ := e
  rw [putEach_single]
  rfl

/-- Entries that are stored one after the other fill the store of the container. -/
theorem putEach_fills (hrun : run.Safe) (hw : w.InOrder (others + entriesOf entries))
    (hr : .handle r ∈ others) (hc : w.Still r c) (he : ∀ e ∈ entries, Silent w.cells e) :
    GoesThrough (putEach run r entries) w fun _ v => ∃ t,
      c.store.fill c.kind.storedKey (givenPairs entries) = .ok t ∧ v.Still r { c with store := t } ∧
        v.InOrder others ∧ Onward w v := by
  induction entries generalizing w c with
  | nil => exact .inl ⟨(), w, rfl, c.store, rfl, hc, hw.of_eq (add_zero _).symm, .refl w⟩
  | cons e rest ih =>
    obtain ⟨hfirst, hrest⟩ := List.forall_mem_cons.mp he
    have hw' : w.InOrder (others + entriesOf rest + entriesOf [e]) := hw.of_eq (by
      rw [entriesOf_cons, entriesOf_cons]
      show _ + (_ + 0) = _
      abel)
    have hr' : .handle r ∈ others + entriesOf rest := Multiset.mem_add.mpr (.inl hr)
    rw [putEach_cons]
    refine ((putEach_took hrun hw' hr' hc hfirst).onFailure fun v hv => ?_).bind fun _ v htook => ?_
    · obtain ⟨_, horder, _⟩ := (putEach_owns hrun hr' [e]).of_error (Multiset.Subset.refl _)
        ⟨hw', trivial⟩ hv
      exact (discardEntries_owns hrun rest).onward (Multiset.zero_subset others)
        ⟨horder.of_eq (add_zero _).symm, trivial⟩
    · obtain ⟨⟨outcome, t, hy, hstill⟩, horder, hon, hreacts⟩ := htook
      refine ⟨hon.limits, ?_⟩
      have hsilent : ∀ e ∈ rest, Silent v.cells e := fun e hmem => (hrest e hmem).mono hreacts
      rcases ih horder hstill hsilent with ⟨_, z, hz, t', hfill, hdone⟩ | hlimit
      · refine .inl ⟨(), z, hz, t', ?_, hdone.1, hdone.2.1, hon.trans hdone.2.2⟩
        rw [givenPairs, List.map_cons, Store.fill, hy]
        exact hfill
      · exact .inr hlimit

/-- Two lists, one after the other, are one list. -/
theorem putEach_append_eq_ok {xs ys : List (Query × Item)} :
    putEach run r (xs ++ ys) w = (.ok (), v) ↔
      ∃ u, putEach run r xs w = (.ok (), u) ∧ putEach run r ys u = (.ok (), v) := by
  induction xs generalizing w with
  | nil =>
    constructor
    · exact fun h => ⟨w, rfl, h⟩
    · rintro ⟨u, hu, h⟩
      cases hu
      exact h
  | cons e rest ih =>
    rw [List.cons_append, putEach_eq_ok]
    constructor
    · rintro ⟨u, hone, hrest⟩
      obtain ⟨z, hz, hys⟩ := ih.mp hrest
      exact ⟨z, putEach_eq_ok.mpr ⟨u, hone, hz⟩, hys⟩
    · rintro ⟨z, hz, hys⟩
      obtain ⟨u, hone, hrest⟩ := putEach_eq_ok.mp hz
      exact ⟨u, hone, ih.mpr ⟨z, hrest, hys⟩⟩

/-- A container with nothing in it, in which nothing goes on. -/
def emptyContainer (kind : Kind) : Container := ⟨kind, .empty, .shared 0, none, []⟩

theorem newContainer_still {hands : Hands} (hw : w.InOrder hands) (kind : Kind) :
    ∃ u, newContainer kind w = (.ok w.fresh, u) ∧ u.Still w.fresh (emptyContainer kind) ∧
      ∀ p, Reacts u.cells p → Reacts w.cells p := by
  have hfree : get? w.fresh w.cells = none := by
    cases hd : get? w.fresh w.cells with
    | none => rfl
    | some d => exact absurd (hw.books.lt_fresh hd) (Nat.lt_irrefl _)
  have hthere : containerAt? (w.cells ++ [(w.fresh, ⟨1, .container (emptyContainer kind)⟩)]) w.fresh =
      some (emptyContainer kind) := by
    rw [containerAt?, get?_append, hfree]
    dsimp only
    rw [if_pos rfl]
    rfl
  refine ⟨{ w with
    cells := w.cells ++ [(w.fresh, ⟨1, .container (emptyContainer kind)⟩)], fresh := w.fresh + 1 },
    rfl, ⟨hthere, rfl, not_reacts_container hthere nofun⟩, fun p hp => ?_⟩
  refine hp.of_given (fun q d hd piece hpiece => ?_) (List.forall_mem_nil _)
  rw [get?_append] at hd
  cases hq : get? q w.cells with
  | some e =>
    rw [hq] at hd
    cases hd
    exact .inr ⟨d, rfl, hpiece⟩
  | none =>
    -- there is nothing in the new one
    rw [hq] at hd
    dsimp only at hd
    split at hd <;> cases hd
    cases hpiece

/-- A new container is filled from its beginning. -/
theorem build_fills (hrun : run.Safe) (hw : w.InOrder (others + entriesOf entries)) (kind : Kind)
    (he : ∀ e ∈ entries, Silent w.cells e) :
    GoesThrough (build run kind entries) w fun r v => ∃ t,
      Store.empty.fill kind.storedKey (givenPairs entries) = .ok t ∧
        v.Still r { emptyContainer kind with store := t } := by
  obtain ⟨u, hnew, hstill, hreacts⟩ := newContainer_still hw kind
  have hmakes : Owns 0 (entriesOf entries) (newContainer kind)
      (fun r => ↑(entriesOf entries + handles [r])) 0 := newContainer_owns kind
  obtain ⟨hu, hon⟩ := hmakes.holding_of_ok (Multiset.zero_subset others) hw hnew
  have hu' : u.InOrder (others + handles [w.fresh] + entriesOf entries) := hu.of_eq (by abel)
  have hr : .handle w.fresh ∈ others + handles [w.fresh] := mem_add_handles others w.fresh
  have hsilent : ∀ e ∈ entries, Silent u.cells e := fun e hmem => (he e hmem).mono hreacts
  rw [build, GoesThrough, bind_of_ok hnew, ← hon.limits]
  refine ((putEach_fills hrun hu' hr hstill hsilent).onFailure fun v hv => ?_).bind fun _ v hv => ?_
  · obtain ⟨_, horder, _⟩ := (putEach_owns hrun hr entries).of_error (Multiset.Subset.refl _)
      ⟨hu', trivial⟩ hv
    exact (discardHandle_owns hrun w.fresh).onward (Multiset.zero_subset others)
      ⟨horder.of_eq (add_zero _).symm, trivial⟩
  · obtain ⟨t, hfill, hdone, _, hlater⟩ := hv
    exact ⟨hlater.limits, .inl ⟨w.fresh, v, rfl, t, hfill, hdone⟩⟩

end World

open World in
/-- **Bulk construction equals its closed form**: the old entries in their places, then the new keys
in the order in which they first occur, every key with the last value that is given to it.  An old
key stays as it is, and a new one has the stored form of its first occurrence.

So it is for every store of any history, for what is built from lists, and for containers in the
world that are not in use and are given entries that run no user code, unless the run comes to its
limit there.  Two lists, one after the other, do what both do together. -/
theorem bulk_construction :
    (∀ (ν : Type) (hasher : Token → UInt64) (commands : List (Command ν)), ∃ replies t,
      (Tour.start hasher).run commands = .ok (replies, t) ∧
      (∀ items, ∃ t', t.store.insertAll items = .ok t' ∧ t.store.Fills Key.canonical items t') ∧
      ∀ xs ys, t.store.insertAll (xs ++ ys) = t.store.insertAll xs >>= fun u => u.insertAll ys) ∧
    (∀ (hasher : Token → UInt64) (commands : List (Command Unit)), ∃ replies t,
      (Tour.start hasher).run commands = .ok (replies, t) ∧
      (∀ keys, ∃ t', t.store.addAll keys = .ok t' ∧
        t.store.Fills id (keys.map fun k => (k, ())) t') ∧
      ∀ xs ys, t.store.addAll (xs ++ ys) = t.store.addAll xs >>= fun u => u.addAll ys) ∧
    (∀ b : Bulk, ∃ built, b.build = .ok built ∧
      built.size = (tokensOf (b.items ++ b.more)).dedup.length ∧
      built.entries =
        if b.isSet then
          (merged id [] ((b.items ++ b.more).map fun e => (e.1, ()))).map fun e => (e.1, 0)
        else merged Key.canonical [] (b.items ++ b.more)) ∧
    (∀ (depth : Nat) (others : Hands) (entries : List (Query × Item)) (w : World),
      w.InOrder (others + entriesOf entries) → (∀ e ∈ entries, Silent w.cells e) →
      (∀ r c, .handle r ∈ others → w.Still r c →
        (putEach (runSteps depth) r entries).GoesThrough w fun _ v => ∃ t,
          v.Still r { c with store := t } ∧
          c.store.Fills c.kind.storedKey (givenPairs entries) t) ∧
      ∀ kind, (build (runSteps depth) kind entries).GoesThrough w fun r v => ∃ t,
        v.Still r { emptyContainer kind with store := t } ∧
        t.entries = .ok (merged kind.storedKey [] (givenPairs entries)) ∧
        t.len = (tokensOf (givenPairs entries)).dedup.length) ∧
    ∀ (depth r : Nat) (xs ys : List (Query × Item)) (w v : World),
      putEach (runSteps depth) r (xs ++ ys) w = (.ok (), v) ↔
        ∃ u, putEach (runSteps depth) r xs w = (.ok (), u) ∧
          putEach (runSteps depth) r ys u = (.ok (), v) := by
  refine ⟨fun ν hasher commands => Store.insertAll_fills hasher commands,
    fun hasher commands => Store.addAll_fills hasher commands, Bulk.build_spec, fun depth others entries w hw he => ⟨fun r c hr hc => ?_, fun kind => ?_⟩,
    fun depth r xs ys w v => putEach_append_eq_ok⟩
  · refine (putEach_fills (runSteps_safe depth) hw hr hc he).mono fun _ v hv => ?_
    obtain ⟨t, hfill, hstill, _⟩ := hv
    obtain ⟨t', hfill', _, hfills⟩ := Store.fill_spec (hw.books.stores hc.there)
      c.kind.token_storedKey (givenPairs entries)
    cases hfill.symm.trans hfill'
    exact ⟨t, hstill, hfills⟩
  · refine (build_fills (runSteps_safe depth) hw kind he).mono fun r v hv => ?_
    obtain ⟨t, hfill, hstill⟩ := hv
    obtain ⟨t', _, hfill', hnone, hentries, hlen⟩ :=
      Store.fill_empty kind.storedKey kind.token_storedKey (givenPairs entries) []
    cases hfill.symm.trans hfill'
    cases hnone
    rw [List.append_nil] at hentries hlen
    exact ⟨t, hstill, hentries, hlen⟩

/-- A map with another handle on it.  Its one entry is stored under a zero, which was given with a
sign. -/
def extensible : World :=
  let w := (Program.runFrom false (.initial ⟨100, 4, 20⟩ false)
    [.container .map "m" [(.double 0x8000000000000000, .tracked 1 none none)]]).2
  { w with cells := Table.change 0 (fun d => { d with handles := 2 }) w.cells }

theorem extensible_inOrder : extensible.InOrder (0 + handles [0]) := shared_inOrder (by decide +kernel)

open World in
/-- Two entries are given under equal keys, and one under a zero with a sign. -/
theorem bulk_construction_extending :
    let entries : List (Query × Item) := [(.plain (.text .slice "a"), .copy 2),
      (.plain (.double 0x8000000000000000), .copy 3), (.plain (.text .owned "a"), .copy 4)]
    ∃ (others : Hands) (w v : World) (c : Container) (t : Store Item),
      w.InOrder (others + entriesOf entries) ∧ (∀ e ∈ entries, Silent w.cells e) ∧
      .handle 0 ∈ others ∧ w.Still 0 c ∧ putEach (runSteps 4) 0 entries w = (.ok (), v) ∧
      v.Still 0 { c with store := t } ∧ c.store.Fills c.kind.storedKey (givenPairs entries) t ∧
      t.entries.toOption.map (fun l => l.map (·.1)) = some [.double 0, .text .slice "a"] := by
  intro entries
  have hw := extensible_inOrder
  have hopen : (containerAt? extensible.cells 0).map (·.access) = some (.shared 0) := by
    decide +kernel
  have hcalm : calm extensible.cells = true := by decide +kernel
  have hdone : (putEach (runSteps 4) 0 entries extensible).1 = .ok () := by decide +kernel
  have hkeys : (containerAt? (putEach (runSteps 4) 0 entries extensible).2.cells 0).map
      (fun d => d.store.entries.toOption.map fun l => l.map (·.1)) =
      some (some [.double 0, .text .slice "a"]) := by decide +kernel
  generalize extensible = w at hw hopen hcalm hdone hkeys
  obtain ⟨c, hc, ha⟩ := Option.map_eq_some_iff.mp hopen
  have hstill : w.Still 0 c := ⟨hc, ha, not_reacts_of_calm hcalm rfl⟩
  have hsilent : ∀ e ∈ entries, Silent w.cells e := by
    have hplain : ∀ e ∈ entries, e.1.silent = true ∧ (Debris.item e.2).plain = true := by decide
    intro e he
    obtain ⟨hasked, hitem⟩ := hplain e he
    exact ⟨hasked, not_reacts_of_calm hcalm rfl, not_reacts_of_calm hcalm hitem⟩
  have hw' : w.InOrder (0 + handles [0] + entriesOf entries) := hw.of_eq (add_zero _)
  obtain ⟨_, _, _, hworld, _⟩ := bulk_construction
  obtain ⟨hextend, _⟩ := hworld 4 _ entries w hw' hsilent
  rcases hextend 0 c (by simp) hstill with ⟨_, v, hv, t, ht, hfills⟩ | ⟨v, hv, _⟩
  · rw [hv] at hkeys
    rw [ht.there] at hkeys
    exact ⟨_, w, v, c, t, hw', hsilent, by simp, hstill, hv, ht, hfills, Option.some.inj hkeys⟩
  · rw [hv] at hdone
    cases hdone

end LiveOrder
