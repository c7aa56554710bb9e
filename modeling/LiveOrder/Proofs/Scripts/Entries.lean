import LiveOrder.Proofs.Scripts.Rules
import LiveOrder.Proofs.Store.Notices
import LiveOrder.Proofs.World.Entries

/-!
# The operations by key on script containers

No user code runs between the beginning of an access and its end, so an operation always finds its
container free, and leaves it free.

* `sharing_calm`       a reader, given what is done inside it;
* `search_calm`        a search for a plain key inside a reader;
* `exclusivelyOr_leads`   an exclusive access, given what is done inside it;
* `exclusively_calm`   a store operation inside an exclusive access, when nothing is being read;
* `has_calm`, `lookup_calm`, `upsert_calm`, `delete_calm`, `clear_calm`, `putEach_calm`.
-/

namespace LiveOrder

/-- The key has no watches around it. -/
def Query.isPlain : Query → Bool
  | .plain _ => true
  | _ => false

/-- What is stored under a key is not tracked, and the key runs no user code. -/
def Entry.Quiet (e : Query × Item) : Prop := e.1.isPlain = true ∧ Untracked e.2.assets

namespace World

open Act Table

variable {α : Type} {run : Runner} {w : World} {g : Grip} {r : Nat} {c : Container} {x : Act α}
  {p : α → Prop}

/-! ## what is not there -/

/-- An action that begins with a look at a container that is not there. -/
theorem container_missing (hw : w.Gentle g) (hc : containerAt? w.cells r = none) (f : Container → Act α) :
    ∃ e v, (container r >>= f) w = (.error e, v) ∧ ¬e.IsRefusal ∧ v.Gentle g := by
  obtain ⟨e, v, he⟩ := container_error hc
  have hend := container_leads r w hw
  rw [he] at hend
  exact ⟨e, v, by rw [bind_apply, he], hend⟩

/-! ## readers -/

/-- What is not a container is not read. -/
theorem Gentle.unread (h : w.Gentle { g with reading := r :: g.reading })
    (hc : containerAt? w.cells r = none) : w.Gentle g := by
  refine { h with bodies := fun {q d} hd => ?_ }
  have hbody := h.bodies hd
  obtain ⟨n, body⟩ := d
  cases body with
  | container d =>
    have hne : r ≠ q := by
      rintro rfl
      rw [containerAt?_eq_some_iff.mpr ⟨n, hd⟩] at hc
      cases hc
    rw [List.count_cons_of_ne hne] at hbody
    exact hbody
  | function f => exact hbody
  | allocation s => exact hbody

/-- The container in the use in which it is. -/
theorem Gentle.reread (h : w.Gentle g) (reading : List Nat) (hc : containerAt? w.cells r = some c)
    {d : Container} (hd : d.Gentle (reading.count r)) (hstore : d.store = c.store)
    (hreading : ∀ q, q ≠ r → reading.count q = g.reading.count q) :
    (w.changed r d).Gentle { g with reading } := by
  obtain ⟨n, hn⟩ := containerAt?_eq_some_iff.mp hc
  have hbody : d.Gentle (reading.count r) ∧ d.store.Sound (w.pinsAt { g with reading } r) :=
    ⟨hd, hstore ▸ (h.container hc).2⟩
  exact h.setBody (.container d) g.pins reading hn hbody hreading fun _ _ => rfl

theorem endReading_leads : Leads (·.Gentle { g with reading := r :: g.reading })
    (do
      delist r
      endShared r : Act Unit) (fun _ => (·.Gentle g)) (·.Gentle g) := by
  intro w hw
  cases hd : containerAt? w.cells r with
  | none =>
    obtain ⟨e, v, he, hend⟩ := container_missing (hw.unread hd) hd
      fun c => setContainer r { c with uses := c.uses.tail }
    rw [bind_apply, delist, he]
    exact hend
  | some d =>
    obtain ⟨⟨hkind, haccess, hactive, huses, huntracked⟩, _⟩ := hw.container hd
    rw [List.count_cons_self] at haccess huses
    let c : Container :=
      { d with access := .shared (g.reading.count r), uses := List.replicate (g.reading.count r) .reading }
    have hform : d.form = (c.beingRead (g.reading.count r)).form := by
      show Form.container d.kind d.access d.active d.uses = _
      rw [haccess, huses]
      rfl
    rw [endReading_eq rfl hd hform]
    exact hw.reread g.reading hd ⟨hkind, rfl, hactive, rfl, huntracked⟩ rfl
      fun q hq => (List.count_cons_of_ne (Ne.symm hq)).symm

theorem sharing_calm (hx : Calm { g with reading := r :: g.reading } x p) : Calm g (sharing r x) p := by
  intro w hw
  cases hc : containerAt? w.cells r with
  | none =>
    have hbegin : ∃ e v, beginShared r w = (.error e, v) ∧ ¬e.IsRefusal ∧ v.Gentle g :=
      container_missing hw hc _
    obtain ⟨e, v, he, hend⟩ := hbegin
    rw [sharing, bind_apply, he]
    exact hend
  | some c =>
    obtain ⟨hgentle, _⟩ := hw.container hc
    rw [sharing_eq hc hgentle.access]
    have hread : (w.changed r (c.beingRead (g.reading.count r))).Gentle
        { g with reading := r :: g.reading } := by
      refine hw.reread (r :: g.reading) hc ?_ rfl fun q hq => List.count_cons_of_ne (Ne.symm hq)
      rw [List.count_cons_self]
      exact hgentle.beingRead
    refine Leads.always hx (fun a v hv => ?_) endReading_leads _ hread
    have hend := endReading_leads v hv.1
    split at hend
    · exact ⟨hend, hv.2⟩
    · exact hend

/-- A look into a store. -/
theorem readStore_calm {f : Store Item → Except Fault α}
    (hf : ∀ t pins y, t.Sound pins → Untracked (pairsOf t.held) → f t = .ok y → p y) :
    Calm g (readStore r f) p := by
  refine Leads.bind (container_leads r) fun c w hw => ?_
  obtain ⟨hgentle, hsound⟩ := hw.1.container hw.2
  cases hy : f c.store with
  | ok y => exact ⟨hw.1, hf _ _ y hsound hgentle.untracked hy⟩
  | error e => exact ⟨id, (hw.1.fault _).relax⟩

theorem size_calm (r : Nat) : Calm g (size r) Anything :=
  sharing_calm (readStore_calm fun _ _ _ _ _ _ => trivial)

/-- A search for a plain key by a reader. -/
theorem search_calm {op : Operation} {k : Key} {f : Store Item → Except Fault α}
    (hf : ∀ t pins, t.Sound pins → Untracked (pairsOf t.held) → ∃ y, f t = .ok y ∧ p y) :
    Calm g
      (searching r op do
        ask run (.plain k)
        readStore r f) p := by
  intro w hw
  cases hc : containerAt? w.cells r with
  | none =>
    have henter : ∃ e v, enterGuard r op w = (.error e, v) ∧ ¬e.IsRefusal ∧ v.Gentle g :=
      container_missing hw hc _
    obtain ⟨e, v, he, hend⟩ := henter
    rw [searching, bind_apply, he]
    exact hend
  | some c =>
    obtain ⟨hgentle, hsound⟩ := hw.container hc
    obtain ⟨y, hy, hp⟩ := hf _ _ hsound hgentle.untracked
    have hin := containerAt?_changed hc (c.beingSearched op)
    have hread : (do
        ask run (.plain k)
        readStore r f) (w.changed r (c.beingSearched op)) = (.ok y, w.changed r (c.beingSearched op)) :=
      readStore_eq hin hy
    rw [searching_done hc hgentle.active hin hread, changed_changed]
    exact ⟨hw.reread g.reading hc hgentle rfl fun _ _ => rfl, hp⟩

theorem has_calm {q : Query} (hq : q.isPlain = true) : Calm g (has run r q) Anything := by
  cases q with
  | plain k =>
    exact sharing_calm (search_calm fun t pins hs _ => ⟨_, Store.contains_spec hs k, trivial⟩)
  | _ => cases hq

theorem lookup_calm {q : Query} (hq : q.isPlain = true) :
    Calm g (lookup run r q) fun found => ∀ i, found = some i → Untracked i.assets := by
  cases q with
  | plain k =>
    have hfind : ∀ (t : Store Item) pins, t.Sound pins → Untracked (pairsOf t.held) →
        ∃ found, t.lookup k = .ok found ∧ ∀ e, found = some e → Untracked e.2.assets := by
      intro t pins hs huntracked
      refine ⟨_, Store.lookup_spec hs k, fun e he => untracked_of_mem huntracked ?_⟩
      exact Store.lookup_held (k := k) hs (by rw [Store.lookup_spec hs, he])
    refine sharing_calm ((search_calm hfind).bind fun found hfound => ?_)
    cases found with
    | none => exact .pure nofun
    | some e =>
      refine (copyItem_calm (hfound e rfl)).bind fun copy hcopy => .pure fun i hi => ?_
      cases hi
      exact hcopy
  | _ => cases hq

/-! ## changes -/

/-- An access fails without being refused if there is no container. -/
theorem exclusivelyOr_leads {op : Operation} {refused : Act Unit} {P : World → Prop}
    {Q : α → World → Prop} (hP : ∀ w, P w → w.Gentle g) (hrefused : Calm g refused Anything)
    (hthere : Leads (fun w => P w ∧ w.HasContainer r) (exclusivelyOr refused r op x) Q (·.Gentle g)) :
    Leads P (exclusivelyOr refused r op x) Q (·.Gentle g) := by
  intro w hw
  cases hc : containerAt? w.cells r with
  | some c => exact hthere w ⟨hw, c, hc⟩
  | none =>
    have hbegin : ∃ e v, beginExclusive r w = (.error e, v) ∧ ¬e.IsRefusal ∧ v.Gentle g :=
      container_missing (hP w hw) hc _
    obtain ⟨e, v, he, hi, hv⟩ := hbegin
    have hend := hrefused v hv
    rw [exclusivelyOr, bind_apply, onFailure_apply, he]
    dsimp only
    rcases hr : refused v with ⟨f | y, v'⟩
    · rw [hr] at hend
      exact ⟨Failure.not_isRefusal_leaving hi fun f hf => by cases hf; exact hend.1, hend.2⟩
    · rw [hr] at hend
      exact ⟨hi, hend.1⟩

/-- A store operation on a container, which is free. -/
theorem exclusively_leads (r : Nat) (cursor : Option Nat) (op : Operation) {from? : Option Nat}
    {f : Store Item → Except Fault (α × Store Item)} {given : α → Hands} {to? : α → Option Nat}
    {E : World → Prop} (hf : Moves f 0 from? given to?) (hp : ∀ t y t', f t = .ok (y, t') → p y) :
    Leads (fun w => w.Gentle { pins := pinned r from?, cursor } ∧ w.HasContainer r)
      (exclusively r op <| searching r op <| onStore r f)
      (fun y w => w.Gentle { pins := pinned r (to? y), cursor } ∧ Untracked (given y) ∧ p y) E := by
  intro w ⟨hw, c, hc⟩
  obtain ⟨hgentle, _⟩ := hw.container hc
  obtain ⟨y, t, hy, hgiven, hv⟩ := hw.storing hc hf untracked_zero
  rw [exclusively_searching_eq hc hc hgentle.access hgentle.active fun d hd =>
    (onStore_eq (containerAt?_changed hc d) (hd ▸ hy)).trans (by rw [changed_changed])]
  exact ⟨hv, hgiven, hp _ _ _ hy⟩

theorem exclusively_calm (r : Nat) (op : Operation) {f : Store Item → Except Fault (α × Store Item)}
    {given : α → Hands} (hf : Moves f 0 none given fun _ => none)
    (hp : ∀ t y t', f t = .ok (y, t') → p y) :
    Calm {} (exclusively r op <| searching r op <| onStore r f) fun y => Untracked (given y) ∧ p y :=
  exclusivelyOr_leads (fun _ hw => hw) (.pure trivial) (exclusively_leads r none op hf hp)

theorem enter_untracked {i : Item} (hi : Untracked i.assets) : enter r i = pure () := by
  cases i with
  | tracked id n onRelease onCopy => exact absurd (mem_tracking.mpr rfl) (hi id)
  | _ => rfl

/-- What is stored under a plain key runs no user code. -/
theorem upsert_plain_eq {q : Query} {k : Key} {item : Item} {y : Upsert Item} {t : Store Item}
    (hc : containerAt? w.cells r = some c) (ha : c.access = .shared 0) (hnone : c.active = none)
    (hk : c.kind.stored q = .plain k) (hi : Untracked item.assets)
    (hy : c.store.upsert k item = .ok (y, t)) :
    upsert run r q item w =
      (.ok y, (w.changed r { c with store := t }).registering (y.origins r q.key)) := by
  have hbegun : (do
        ask run (c.kind.stored q)
        enter r item : Act Unit) (w.changed r ((c.beingChanged .upsert).beingSearched .upsert)) =
      (.ok (), w.changed r ((c.beingChanged .upsert).beingSearched .upsert)) := by
    rw [hk, enter_untracked hi]
    rfl
  have hkey : (c.kind.stored q).key = k := congrArg Query.key hk
  rw [upsert_eq hc ha hnone hbegun (containerAt?_changed hc _) (hkey ▸ hy), changed_changed]

theorem upsert_calm {q : Query} {item : Item} (h : Entry.Quiet (q, item)) :
    Calm {} (upsert run r q item) fun outcome => Untracked outcome.assets := by
  obtain ⟨hq, hi⟩ := h
  have hrejected : Calm {} (discard run [.item item, .key q.key]) Anything :=
    discard_calm (untracked_add.mpr ⟨hi, untracked_add.mpr ⟨untracked_handles _, untracked_zero⟩⟩)
  refine exclusivelyOr_leads (fun _ hw => hw) hrejected fun w ⟨hw, c, hc⟩ => ?_
  obtain ⟨hgentle, _⟩ := hw.container hc
  obtain ⟨k, hk⟩ : ∃ k, c.kind.stored q = .plain k := by
    cases q with
    | plain k =>
      unfold Kind.stored
      split <;> exact ⟨_, rfl⟩
    | _ => cases hq
  have hw' : w.Gentle { pins := pinned r none } := hw
  obtain ⟨y, t, hy, hgiven, hv⟩ := hw'.storing hc (upsert_moves k item)
    (untracked_add.mpr ⟨untracked_handles _, hi⟩)
  have hdone : upsert run r q item w = _ := upsert_plain_eq hc hgentle.access hgentle.active hk hi hy
  rw [upsert] at hdone
  rw [hdone]
  exact ⟨{ hv with }, hgiven⟩

/-- What is freed is released when the container is free again. -/
theorem discardFreed_calm {pairs : List (Key × Item)} (h : Untracked (pairsOf pairs)) :
    Calm g (discard run (debrisOf pairs)) Anything := discard_calm (piecesOf_debrisOf pairs ▸ h)

theorem delete_calm {q : Query} (hq : q.isPlain = true) : Calm {} (delete run r q) Anything := by
  cases q with
  | plain k =>
    have hremove := exclusively_calm r .remove (remove_moves k)
      (p := fun freed => ∀ f, freed = some f → f.Traced) fun t freed t' he f hf => by
        subst hf
        exact Store.remove_traced he
    refine Calm.bind hremove fun freed hfreed => ?_
    cases freed with
    | none => exact Calm.pure trivial
    | some freed =>
      exact (tell_calm (hfreed.2 freed rfl).not_pinLeaked).bind fun _ _ =>
        (discardFreed_calm hfreed.1).bind fun _ _ => Calm.pure trivial
  | _ => cases hq

theorem clear_calm (r : Nat) : Calm {} (clear run r) Anything := by
  refine Calm.bind (exclusively_calm r .clear clear_moves (p := Freed.Traced) fun t freed t' he =>
    Store.clear_traced he) fun freed hfreed => ?_
  exact (tell_calm hfreed.2.not_pinLeaked).bind fun _ _ => discardFreed_calm hfreed.1

/-! ## many entries -/

theorem untracked_entries {entries : List (Query × Item)} (h : ∀ e ∈ entries, Entry.Quiet e) :
    Untracked (piecesOf (entries.flatMap fun (q, i) => [.key q.key, .item i])) := by
  induction entries with
  | nil => exact untracked_zero
  | cons e rest ih =>
    rw [List.flatMap_cons, piecesOf_append]
    refine untracked_add.mpr ⟨?_, ih fun d hd => h d (List.mem_cons_of_mem e hd)⟩
    exact untracked_add.mpr ⟨untracked_handles _,
      untracked_add.mpr ⟨(h e List.mem_cons_self).2, untracked_zero⟩⟩

theorem discardPair_calm (k : Key) {i : Item} (hi : Untracked i.assets) :
    Calm g (discard run [.key k, .item i]) Anything :=
  discard_calm (untracked_add.mpr ⟨untracked_handles _, untracked_add.mpr ⟨hi, untracked_zero⟩⟩)

theorem putEach_calm {entries : List (Query × Item)} (h : ∀ e ∈ entries, Entry.Quiet e) :
    Calm {} (putEach run r entries) Anything := by
  induction entries with
  | nil => exact .pure trivial
  | cons e rest ih =>
    obtain ⟨q, item⟩ := e
    have hrest : ∀ e ∈ rest, Entry.Quiet e := fun d hd => h d (List.mem_cons_of_mem _ hd)
    rw [putEach]
    refine Calm.bind (Calm.onFailure (p := Anything) ?_ (discard_calm (untracked_entries hrest)))
      fun _ _ => ih hrest
    refine (upsert_calm (h (q, item) List.mem_cons_self)).bind fun outcome hgiven => ?_
    cases outcome with
    | inserted s => exact .pure trivial
    | updated s key previous => exact discardPair_calm key (untracked_add.mp hgiven).2

end World

end LiveOrder
