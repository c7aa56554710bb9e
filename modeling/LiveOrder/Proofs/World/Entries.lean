import LiveOrder.Proofs.World.Lifetime

/-!
# The operations by key

* `ask_safe`, `copyItem_owns`   user code in searches and copies;
* `upsert_owns`    takes a key and a value, and gives what they replace;
* `delete_safe`, `clear_safe`, `has_safe`, `lookup_owns`.
-/

namespace LiveOrder

def Upsert.assets : Upsert Item → Hands
  | .inserted _ => 0
  | .updated _ key previous => handles key.refs + previous.assets

/-- What entries hold that are to be stored. -/
def entriesOf (entries : List (Query × Item)) : Hands :=
  (entries.map fun e => handles e.1.key.refs + e.2.offered).sum

@[simp] theorem entriesOf_cons (e : Query × Item) (entries : List (Query × Item)) :
    entriesOf (e :: entries) = handles e.1.key.refs + e.2.offered + entriesOf entries :=
  List.sum_cons

@[simp] theorem entriesOf_append (entries more : List (Query × Item)) :
    entriesOf (entries ++ more) = entriesOf entries + entriesOf more := by
  rw [entriesOf, List.map_append, List.sum_append]
  rfl

theorem Item.permits_only {i : Item} : ∀ a ∈ i.permits, ∃ n, a = .permit n := by
  cases i <;> simp [Item.permits]

/-- Entries hold the pieces that they are made of, and permits to store them. -/
theorem entriesOf_eq (entries : List (Query × Item)) : ∃ permits : Hands,
    entriesOf entries =
      piecesOf (entries.flatMap fun (q, i) => [.key q.key, .item i]) + permits ∧
    ∀ a ∈ permits, ∃ n, a = .permit n := by
  induction entries with
  | nil => exact ⟨0, rfl, fun a ha => absurd ha (Multiset.notMem_zero a)⟩
  | cons e rest ih =>
    obtain ⟨permits, heq, honly⟩ := ih
    refine ⟨e.2.permits + permits, ?_, fun a ha => ?_⟩
    · rw [entriesOf_cons, heq, Item.offered, List.flatMap_cons, piecesOf_append, piecesOf_cons,
        piecesOf_cons, piecesOf_nil, Debris.assets, Debris.assets]
      abel
    · exact (Multiset.mem_add.mp ha).elim (Item.permits_only a) (honly a)

theorem Kind.refs_stored (kind : Kind) (q : Query) : (kind.stored q).key.refs = q.key.refs := by
  unfold Kind.stored
  split
  · rfl
  · exact q.refs_canonical

namespace World

open Act Situation

variable {run : Runner} {lent h left : Hands} {r : Nat}

/-! ## what store operations move -/

theorem upsert_moves (k : Key) (i : Item) :
    Moves (·.upsert k i) (handles k.refs + i.assets) none Upsert.assets fun _ => none := by
  intro t pins hs
  obtain ⟨t', he, ht, _, hchange⟩ := Store.upsert_spec hs k i
  refine ⟨_, t', he, ht, hchange.chain.ages hs.balanced.toLinked, ?_⟩
  generalize (t.ledger.upsert k i).1 = outcome at he
  cases outcome with
  | inserted s =>
    have hheld : t'.held.Perm ((k, i) :: t.held) := Store.upsert_held hs he
    rw [pairsOf_perm hheld, pairsOf_cons]
    show _ + 0 = _
    abel
  | updated s key previous =>
    obtain ⟨rfl, first, rest, hold, hnew⟩ := Store.upsert_held hs he
    rw [pairsOf_perm hold, pairsOf_perm hnew, pairsOf_cons, pairsOf_cons, Upsert.assets]
    abel

theorem remove_moves (k : Key) :
    Moves (·.remove k) 0 none (fun freed => pairsOf (freed.getD {}).pairs) fun _ => none := by
  intro t pins hs
  obtain ⟨freed, t', _, he, _, ht, _, hchange, _⟩ := Store.remove_spec hs k
  refine ⟨freed, t', he, ht, hchange.chain.ages hs.balanced.toLinked, ?_⟩
  rw [pairsOf_perm (Store.remove_held hs he), pairsOf_append, add_zero, add_comm]

theorem clear_moves :
    Moves (·.clear) 0 none (fun freed => pairsOf freed.pairs) fun _ => none := by
  intro t pins hs
  obtain ⟨freed, t', _, he, ht, _, hchange, _⟩ := Store.clear_spec hs
  refine ⟨freed, t', he, ht, hchange.chain.ages hs.balanced.toLinked, ?_⟩
  rw [pairsOf_perm (Store.clear_held hs he), pairsOf_append, add_zero, add_comm]

theorem remove_makesNone (k : Key) : MakesNone (·.remove k) none := by
  intro t pins hs
  obtain ⟨freed, t', _, he, _, _, hledger, _⟩ := Store.remove_spec hs k
  exact ⟨freed, t', he, hledger ▸ rfl⟩

theorem clear_makesNone : MakesNone (·.clear) none := by
  intro t pins hs
  obtain ⟨freed, t', _, he, _, hledger, _⟩ := Store.clear_spec hs
  exact ⟨freed, t', he, hledger ▸ rfl⟩

/-- What a container has that it had not before is put on record. -/
theorem upsert_grows {c : Container} {pins : Nat → Nat} {given : Key} {i : Item}
    {outcome : Upsert Item} {t : Store Item} (hs : c.store.Sound pins)
    (he : c.store.upsert (c.kind.storedKey given) i = .ok (outcome, t)) :
    c.Grows { c with store := t } r (outcome.origins r given) := by
  rcases Store.upsert_made hs he with ⟨rfl, hfresh⟩ | ⟨⟨s, old, hnone⟩, hfresh⟩
  · refine ⟨rfl, ?_, fun {s y} hy => ?_, fun o ho => ?_, List.nodup_singleton _⟩
    · exact Nat.le_of_lt (Nat.lt_of_lt_of_eq (Nat.lt_succ_self _) hfresh.symm)
    · rcases Store.upsert_named hs he hy with hold | ⟨hnew, hkey⟩
      · exact .inl hold
      · cases hnew
        exact .inr ⟨given, List.mem_singleton_self _, hkey⟩
    · cases List.mem_singleton.mp ho
      exact ⟨rfl, Nat.le_refl _, Nat.lt_of_lt_of_eq (Nat.lt_succ_self _) hfresh.symm⟩
  · obtain ⟨t', he', ht', _, hchange⟩ := Store.upsert_spec hs (c.kind.storedKey given) i
    rw [he, Except.ok.injEq, Prod.mk.injEq] at he'
    obtain ⟨_, rfl⟩ := he'
    rw [hnone]
    exact .of_fresh (hchange.chain.ages hs.balanced.toLinked) ht'.balanced.sound hfresh

theorem place_eq {w : World} {c : Container} {k : Key} {item : Item} {outcome : Upsert Item}
    {t : Store Item} (given : Key) (hc : containerAt? w.cells r = some c)
    (hy : c.store.upsert k item = .ok (outcome, t)) :
    place r given k item w =
      (.ok outcome, (w.changed r { c with store := t }).registering (outcome.origins r given)) := by
  rw [place, bind_of_ok (onStore_eq hc hy)]
  cases outcome <;> rfl

/-- A container that is not in use takes what is stored once its key has been asked. -/
theorem upsert_eq {w u : World} {c : Container} {q : Query} {item : Item} {outcome : Upsert Item}
    {t : Store Item} (hc : containerAt? w.cells r = some c) (ha : c.access = .shared 0)
    (hnone : c.active = none)
    (hbegun : (do
      ask run (c.kind.stored q)
      enter r item : Act Unit) (w.changed r ((c.beingChanged .upsert).beingSearched .upsert)) =
        (.ok (), u))
    (hu : containerAt? u.cells r = some ((c.beingChanged .upsert).beingSearched .upsert))
    (hy : c.store.upsert (c.kind.stored q).key item = .ok (outcome, t)) :
    upsert run r q item w =
      (.ok outcome, (u.changed r { c with store := t }).registering (outcome.origins r q.key)) := by
  have hchanged := containerAt?_changed hc (c.beingChanged .upsert)
  have hplaced : (do
        ask run (c.kind.stored q)
        enter r item
        place r q.key (c.kind.stored q).key item : Act (Upsert Item))
        ((w.changed r (c.beingChanged .upsert)).changed r
          ((c.beingChanged .upsert).beingSearched .upsert)) =
      (.ok outcome, (u.changed r { (c.beingChanged .upsert).beingSearched .upsert with
        store := t }).registering (outcome.origins r q.key)) := by
    rw [changed_changed, ← bind_assoc, bind_of_ok hbegun]
    exact place_eq q.key hu hy
  have hopen : ∀ d, containerAt? ((u.changed r d).registering (outcome.origins r q.key)).cells r =
      some d := containerAt?_changed hu
  have hsearch := searching_done hchanged hnone (hopen _) hplaced
  rw [changed_registering, changed_changed] at hsearch
  have hbody : Act.onFailure (do
        let stored := (← container r).kind.stored q
        searching r .upsert do
          ask run stored
          enter r item
          place r q.key stored.key item) (discard run [.item item, .key q.key])
        (w.changed r (c.beingChanged .upsert)) =
      (.ok outcome, (u.changed r { c.beingChanged .upsert with store := t }).registering
        (outcome.origins r q.key)) := by
    rw [onFailure_eq_ok, bind_of_ok (container_eq hchanged)]
    exact hsearch
  have hdone := exclusivelyOr_done (discard run [.item item, .key q.key]) hc ha (hopen _) hbody
  rwa [changed_registering, changed_changed] at hdone

/-! ## user code in searches and copies -/

theorem setQuiet_owns (quiet : Bool) :
    Owns lent h (modify fun w : World => { w with quiet }) (fun _ => h) left :=
  .modify fun _ _ hw => ⟨⟨{ hw.1 with }, trivial⟩, .of_same rfl rfl⟩

section
variable (hrun : run.Safe)
include hrun

theorem ask_safe (q : Query) : Safe lent (ask run q) Anything := by
  induction q with
  | plain k => exact .pure trivial
  | reference q ih => exact ih
  | counted q ih =>
    refine Owns.get_bind fun w => (log_owns ?_).bind fun _ => ih
    exact .asked fun l hl => by cases hl
  | reacting q body ih =>
    refine (hrun.run lent body).before fun acts hacts => Owns.get_bind fun w => ?_
    refine (log_owns (.asked fun l hl => ?_)).bind fun _ => ih
    cases hl
    exact hacts

theorem copyItem_owns (i : Item) :
    Owns lent ⟨0, fun w => ∀ r ∈ i.refs, w.Has r⟩ (copyItem run i) (fun j => ↑j.assets) 0 := by
  cases i with
  | unit => exact .pure (entails_hands _)
  | copy n => exact .pure (entails_hands _)
  | value v =>
    have hall : Owns lent ⟨0, fun w => ∀ r ∈ v.refs, w.Has r⟩ (retainAll v.refs)
        (fun _ => ↑(handles v.refs)) 0 := by
      refine (retainAll_owns v.refs []).weaken (fun _ w hw => ⟨hw.1, ?_⟩) fun _ _ w hw => ?_
      · simpa using hw.2
      · exact ⟨hw.1.of_eq (by show _ = _ + (0 + _); rw [zero_add]), trivial⟩
    exact hall.bind fun _ => .pure (.refl _)
  | tracked id n onRelease onCopy =>
    refine Owns.weaken (a := ((0 : Hands) : Situation)) ?_ (entails_hands _) fun _ => .refl _
    cases onCopy with
    | none => exact .pure (.refl _)
    | some body =>
      refine .get_bind fun w => ?_
      split
      · exact .pure (.refl _)
      · refine (setQuiet_owns true).bind fun _ => ?_
        have hrest : Safe lent (always (run body) (modify fun w => { w with quiet := false }))
            fun acts => ∀ a ∈ acts, a.Clean := Owns.ending (hrun.run _ body) (setQuiet_owns false)
        refine hrest.before fun acts hacts => ?_
        exact (log_owns (.copied hacts)).bind fun _ => .pure (.refl _)

/-! ## changing -/

omit hrun in
/-- What is not stored need not be allowed to be. -/
theorem entails_forgo {u : Hands} (i : Item) :
    ((u + i.offered : Hands) : Situation).Entails ↑(u + i.assets) := by
  intro others w hw
  have h : w.InOrder (others + (u + i.assets) + i.permits) := hw.1.of_eq (by
    show _ = others + (u + (i.assets + i.permits))
    abel)
  exact ⟨h.forgo Item.permits_only, trivial⟩

omit hrun in
/-- What enters a container is on record, and may not enter another one. -/
theorem enter_owns {u : Hands} (i : Item) :
    Owns lent ↑(u + i.offered) (enter r i) (fun _ => ⟨u + i.assets, fun w => w.Houses r i.assets⟩)
      left := by
  cases i with
  | tracked id n onRelease onCopy =>
    refine .modify fun others w hw => ⟨⟨?_, fun m hm => ?_⟩, ?_⟩
    · have h : w.InOrder (others + (u + tracking id) + permit id) := hw.1.of_eq (by
        show _ = others + (u + (tracking id + permit id))
        abel)
      exact h.enter r
    · cases mem_tracking.mp hm
      exact List.mem_cons_self
    · exact .of_grown rfl { Recorded.refl w with stored := List.suffix_cons _ _ }
  | value v =>
    refine .pure fun others w hw => ⟨hw.1.of_eq ?_, fun m hm => ?_⟩
    · simp [Item.offered, Item.permits]
    · simp [Item.assets, handles] at hm
  | unit => exact .pure fun others w hw => ⟨hw.1, w.houses_zero r⟩
  | copy n => exact .pure fun others w hw => ⟨hw.1, w.houses_zero r⟩

omit hrun in
/-- What is stored is on record at once: no user code runs between the two. -/
theorem place_owns {kind : Kind} {given k : Key} (hk : k = kind.storedKey given) (item : Item)
    (hr : Sees lent ↑(handles k.refs + item.assets) r) :
    Owns lent ⟨handles k.refs + item.assets, fun w => w.Houses r item.assets ∧ w.Kinded r kind⟩
      (place r given k item) (fun outcome => ↑outcome.assets) (handles k.refs + item.assets) := by
  intro others w hlent ⟨hw, hhouses, hkind⟩
  rcases container_cases (hr others w hlent ⟨hw, trivial⟩) with ⟨c, hc, _⟩ | he
  · have hw' : w.InOrder (others + 0 + (handles k.refs + item.assets) + pinAt r none) := by
      refine hw.of_eq ?_
      show others + 0 + (handles k.refs + item.assets) + 0 = others + (handles k.refs + item.assets)
      abel
    have hhouses' : w.Houses r (handles k.refs + item.assets) := by
      intro n hn
      refine hhouses n ((Multiset.mem_add.mp hn).elim (fun hn => ?_) id)
      simp [handles] at hn
    obtain ⟨outcome, t, hstored, hage, _, hset⟩ := hw'.store (upsert_moves k item) hc hhouses'
    have hgrows : c.Grows { c with store := t } r (outcome.origins r given) := by
      apply upsert_grows (hw.books.stores hc)
      rw [hkind.2 hc, ← hk]
      exact hstored
    have hsteady : Steady w (w.changed r { c with store := t }) := steady_changed hc rfl hage
    rw [place_eq given hc hstored]
    refine ⟨⟨(hset _ hgrows).of_eq ?_, trivial⟩, hsteady.trans (.of_grown rfl ?_)⟩
    · show others + outcome.assets = others + (0 + outcome.assets + 0)
      abel
    · exact { Recorded.refl _ with origins := List.suffix_append _ _ }
  · rw [place, onStore, bind_apply, bind_apply, he]
    exact ⟨id, hw, (Steady.refl w).opened⟩

theorem upsert_owns (hr : .handle r ∈ lent) (q : Query) (item : Item) :
    Owns lent ↑(handles q.key.refs + item.offered) (upsert run r q item)
      (fun outcome => ↑outcome.assets) 0 := by
  have hsees : ∀ a, Sees lent a r := fun _ => .of_lent hr
  have hrejected : Owns lent ↑(handles q.key.refs + item.assets)
      (discard run [.item item, .key q.key]) (fun _ => (0 : Hands)) 0 := by
    refine discard_of_eq_owns hrun ?_
    simp [Debris.assets, add_comm]
  refine exclusivelyOr_owns (p := fun _ => True) rfl (Owns.onFailure ?_ hrejected)
    (hrejected.weaken (entails_forgo item) fun _ => .refl _) (hsees _) (hsees _) fun _ => hsees _
  refine (container_owns fun w hw => ?_).bind fun c => ?_
  · obtain ⟨c, hc, _⟩ := hw
    exact ⟨c, hc⟩
  -- while the key is asked the container does not become one of another kind
  refine Owns.weaken (a := ⟨_, fun w => w.Locked r .upsert ∧ w.Kinded r c.kind⟩) ?_
    (fun _ _ hw => ⟨hw.1, hw.2.1, hw.1.kinded hw.2.2⟩) fun _ => .refl _
  refine searching_locked_owns (p := fun _ => True) (fun _ _ hd h => h.changed hd rfl) ?_ (hsees _)
    fun _ => hsees _
  have hask : Owns lent ↑(handles q.key.refs + item.offered) (ask run (c.kind.stored q))
      (fun _ => ↑(handles q.key.refs + item.offered)) (handles q.key.refs + item.assets) :=
    (((ask_safe hrun (c.kind.stored q)).beside _).weaken (.refl _) fun _ => entails_hands _).leave
      (entails_forgo item)
  refine Owns.weaken ((hask.lasting Kinded.onward).bind fun _ => ?_)
    (fun _ _ hw => ⟨hw.1, trivial, hw.2⟩) fun _ => .refl _
  refine ((enter_owns item).lasting Kinded.onward).bind fun _ => ?_
  have hrefs : (c.kind.stored q).key.refs = q.key.refs := c.kind.refs_stored q
  rw [← hrefs]
  refine (place_owns (c.kind.key_stored q) item (hsees _)).weaken (.refl _) fun _ => ?_
  exact entails_plain trivial

theorem discardEntries_owns (entries : List (Query × Item)) :
    Owns lent (entriesOf entries)
      (discard run (entries.flatMap fun (q, i) => [.key q.key, .item i])) (fun _ => (0 : Hands)) 0 := by
  obtain ⟨permits, heq, honly⟩ := entriesOf_eq entries
  refine (discard_owns hrun _).weaken (fun others w hw => ⟨?_, trivial⟩) fun _ => .refl _
  have h : w.InOrder (others + piecesOf (entries.flatMap fun (q, i) => [.key q.key, .item i]) +
      permits) := hw.1.of_eq (by rw [add_assoc, ← heq])
  exact h.forgo honly

theorem putEach_owns (hr : .handle r ∈ lent) (entries : List (Query × Item)) :
    Owns lent (entriesOf entries) (putEach run r entries) (fun _ => (0 : Hands)) 0 := by
  induction entries with
  | nil => exact .pure (.refl _)
  | cons e rest ih =>
    obtain ⟨q, item⟩ := e
    rw [putEach]
    refine Owns.bind (.of_eq (.rescue (b := fun _ => (0 : Hands)) ?_ (discardEntries_owns hrun rest))
      (entriesOf_cons _ _)) fun _ => ih.of_eq (zero_add _)
    refine (upsert_owns hrun (Multiset.mem_add.mpr (.inl hr)) q item).bind fun outcome => ?_
    cases outcome with
    | inserted s => exact .pure (.refl _)
    | updated s key previous => exact discardPair_owns hrun key previous

/-- What is freed is released when the container is open again. -/
theorem discardFreed_owns (pairs : List (Key × Item)) :
    Owns lent (pairsOf pairs) (discard run (debrisOf pairs)) (fun _ => (0 : Hands)) 0 :=
  discard_of_eq_owns hrun (piecesOf_debrisOf pairs).symm

theorem remove_owns (hr : .handle r ∈ lent) (q : Query) :
    Owns lent (0 : Hands)
      (exclusively r .remove <| searching r .remove do
        ask run q
        onStore r (·.remove q.key)) (fun freed => ↑(pairsOf (freed.getD {}).pairs)) 0 := by
  have hsees : ∀ a, Sees lent a r := fun _ => .of_lent hr
  refine exclusively_owns (p := fun _ => True) rfl ?_ (.refl _) (hsees _) (hsees _) fun _ => hsees _
  refine Owns.weaken (a := ⟨_, fun w => w.Locked r .remove ∧ True⟩) ?_
    (fun _ _ hw => ⟨hw.1, hw.2, trivial⟩) fun _ => .refl _
  refine searching_locked_owns (p := fun _ => True) (fun _ _ _ _ => trivial) ?_ (hsees _)
    fun _ => hsees _
  refine (ask_safe hrun q).before fun _ _ => of_container (hsees _) (.refl _) ?_
  refine (onStore_owns (u := 0) (remove_moves q.key) (remove_makesNone q.key)).weaken
    (fun _ w hw => ⟨hw.1.of_eq (by simp), hw.2.2⟩) fun _ => entails_of_eq (by simp)

theorem delete_safe (hr : .handle r ∈ lent) (q : Query) : Safe lent (delete run r q) Anything := by
  refine Owns.bind (remove_owns hrun hr q) fun freed => ?_
  cases freed with
  | none => exact .pure (.refl _)
  | some freed =>
    refine (tell_owns freed.notices).bind fun _ => (discardFreed_owns hrun freed.pairs).bind fun _ => ?_
    exact .pure (.refl _)

omit hrun in
theorem emptying_owns (hr : .handle r ∈ lent) :
    Owns lent (0 : Hands) (exclusively r .clear <| searching r .clear <| onStore r (·.clear))
      (fun freed => ↑(pairsOf freed.pairs)) 0 :=
  (exclusively_onStore_owns (u := 0) clear_moves clear_makesNone (.of_lent hr)).weaken (entails_of_eq (by simp))
    fun _ => entails_of_eq (by simp)

theorem clear_safe (hr : .handle r ∈ lent) : Safe lent (clear run r) Anything := by
  refine (emptying_owns hr).bind fun freed => (tell_owns freed.notices).bind fun _ => ?_
  exact (discardFreed_owns hrun freed.pairs).weaken (.refl _) fun _ => .refl _

/-! ## reading -/

theorem has_safe (hr : .handle r ∈ lent) (q : Query) : Safe lent (has run r q) Anything := by
  have hsees : ∀ a, Sees lent a r := fun _ => .of_lent hr
  refine sharing_owns ?_ (.refl _) (hsees _) (hsees _) fun _ => hsees _
  refine searching_owns rfl ?_ (fun _ _ _ _ _ hp => hp) (.refl _) (hsees _) fun _ => hsees _
  refine Owns.weaken (a := ((0 : Hands) : Situation)) ?_ (entails_hands _) fun _ => .refl _
  refine (ask_safe hrun q).before fun _ _ =>
    readStore_owns (hsees _) (.refl _) fun others w c _ hw hc => ?_
  exact ⟨_, Store.contains_spec (hw.1.books.stores hc) q.key, hw.1, trivial⟩

theorem lookup_owns (hr : .handle r ∈ lent) (q : Query) :
    Owns lent (0 : Hands) (lookup run r q) (fun i? => ↑(i?.elim 0 Item.assets)) 0 := by
  have hsees : ∀ a, Sees lent a r := fun _ => .of_lent hr
  refine sharing_owns (p := fun _ => True) ?_ (.refl _) (hsees _) (hsees _) fun _ => hsees _
  have hfind : Owns lent ⟨0, fun w => w.Accessed r⟩ (searching r .lookup do
      ask run q
      readStore r (·.lookup q.key)) (fun found => ⟨0, fun w =>
        ∀ e ∈ found, ∀ q ∈ e.2.refs, w.Has q⟩) 0 := by
    refine searching_owns rfl ?_ (fun _ w c d hc hF e he q hq => stable_has r q w c d hc (hF e he q hq))
      (.refl _) (hsees _) fun _ => hsees _
    refine Owns.weaken (a := ((0 : Hands) : Situation)) ?_ (entails_hands _) fun _ => .refl _
    refine (ask_safe hrun q).before fun _ _ =>
      readStore_owns (hsees _) (.refl _) fun others w c _ hw hc => ?_
    have hsound := hw.1.books.stores hc
    refine ⟨_, Store.lookup_spec hsound q.key, hw.1, fun e he q' hq => ?_⟩
    have hheld := Store.lookup_held (k := q.key) hsound (by rw [Store.lookup_spec hsound, he])
    exact has_of_held hw.1 hc hheld q' (List.mem_append_right _ hq)
  refine hfind.bind fun found => ?_
  cases found with
  | none => exact .pure (entails_hands _)
  | some e =>
    refine Owns.bind ((copyItem_owns hrun e.2).weaken (fun _ w hw => ⟨hw.1, hw.2 e rfl⟩)
      fun _ => .refl _) fun copy => .pure (.refl _)

end

end World

end LiveOrder
