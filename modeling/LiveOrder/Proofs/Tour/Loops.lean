import LiveOrder.Proofs.Tour.Turns

/-!
# Loops along backward links

Two loops follow backward links: the one by which a cursor finds its way from a removed entry to a
live one, and the one that frees removed slots one after the other.  Both meet each slot once at most,
since every link leads to a slot that was filled earlier, and both meet removed slots only before
they end.

* `Chain.GoesOn`    the way from a removed slot back to a live one and on;
* `Chain.Ceases`    how the cascade from a slot on ends, which it does if the chain is `Ready` for it;
* `Tour.Due`        the calls of the cascade, read off from the operations;
* `Due.ready`       in each of them the chain is in balance but for slots about to be freed;
* `Tour.step_due`   nothing is freed in another way;
* `Tour.loops_end`   it is so after every run.
-/

namespace LiveOrder

variable {ν : Type}

namespace Chain

variable {c d e : Chain ν} {pins : Nat → Nat} {s : Nat} {x : Slot ν} {freed : Freed ν}

/-! ## the way back and on -/

/-- From a slot the links lead back over `path` to `r`, and on from there to `next`. -/
structure GoesOn (c : Chain ν) (s : Nat) (path : List Nat) (r next : Option Nat) : Prop where
  back : c.LeadsBack (some s) path r
  descending : (path ++ r.toList).Pairwise (· > ·)
  nearest : LastBefore c.Live (some s) r
  /-- the loop looks at no more removed slots than there are -/
  ends : ∃ n, c.tombstones = .ok n ∧ path.length ≤ n ∧ ∀ k, n < k → c.anchor k (some s) = .ok r
  successor : c.successor (some s) = .ok next
  first : FirstAfter c.Live (some s) next

theorem Linked.goesOn (h : c.Linked) (hx : c.arena.get? s = some x) (hr : x.removed = true) :
    ∃ path r next, c.GoesOn s path r next := by
  have hs := Arena.mem_serials_of_get? hx
  obtain ⟨path, r, hback⟩ := h.leadsBack hs
  obtain ⟨next, hnext, hfirst⟩ := successor_spec h fun _ e => Option.some.inj e ▸ hs
  have hle := hback.length_le h
  refine ⟨path, r, next, hback, hback.descending h, ?_,
    ⟨_, h.tombstones_eq, hle, fun k hk => hback.anchor_eq ?_⟩, hnext, hfirst⟩
  · -- the slot itself is not live
    refine (hback.lastBefore h).move fun q hq => ?_
    have hne : q ≠ s := by
      rintro rfl
      exact not_live_of_removed hx hr hq
    show q < s ↔ q < s + 1
    omega
  · have hend : r.toList.length ≤ 1 := by cases r <;> simp
    rw [List.length_append]
    omega

/-! ## the cascade -/

/-- The last reference to a removed slot is given up. -/
def LetsGo (c : Chain ν) (s : Nat) (d : Chain ν) : Prop :=
  ∃ x, c.slot s = .ok x ∧ x.removed = true ∧ x.refs = 1 ∧ c.update s Slot.unreferred = .ok d

/-- A slot can be freed: it was removed, nothing refers to it, and all else is in balance. -/
def Ready (c : Chain ν) (s : Nat) : Prop :=
  ∃ pins idle x, c.Balanced pins (s :: idle) ∧ c.arena.get? s = some x ∧ x.removed = true ∧
    x.refs = 0

/-- The cascade from a slot on comes to an end: it takes no more rounds than there are removed slots,
frees one of them in each, and takes a reference from one live slot at most. -/
def Ceases (c : Chain ν) (s : Nat) : Prop :=
  ∃ n d gone, c.tombstones = .ok n ∧ gone.length ≤ n ∧ c.Reclaims s gone d ∧
    c.reclaim s = .ok (d, .ofCascade (c.pairsOf gone))

theorem Ready.ceases (h : c.Ready s) : c.Ceases s := by
  obtain ⟨pins, idle, x, hb, hx, hr, h0⟩ := h
  obtain ⟨d, gone, hrec, _⟩ := reclaimFrom_spec c s x idle hb hx hr h0
  exact ⟨_, d, gone, hb.tombstones_eq, hrec.length_le hb.sound, hrec, hrec.result hb.sound⟩

theorem LetsGo.ready (h : c.Balanced (pinOn (some s) pins) []) (hd : c.LetsGo s d) : d.Ready s := by
  obtain ⟨x, hx, hr, h1, hu⟩ := hd
  obtain ⟨_, rfl⟩ := update_eq_ok_iff.mp hu
  refine ⟨pins, [], x.unreferred, h.unreferred, ?_, hr, ?_⟩
  · show (c.unreferring s).arena.get? s = _
    rw [get?_unreferring, if_pos rfl, slot_eq_ok_iff.mp hx]
    rfl
  · show x.refs - 1 = 0
    rw [h1]

/-- Calls of the loop, one after the other, each for a slot and in a chain of some kind, and the pairs
that come out of them. -/
inductive Calls (P : Chain ν → Nat → Prop) : Chain ν → List (Key × ν) → Chain ν → Prop where
  | none (c : Chain ν) : Calls P c [] c
  | more {c d e : Chain ν} {s : Nat} {freed : Freed ν} {pairs : List (Key × ν)} (hP : P c s)
      (hc : c.reclaim s = .ok (d, freed)) (h : Calls P d pairs e) :
      Calls P c (freed.pairs ++ pairs) e

theorem Calls.one {P : Chain ν → Nat → Prop} (hP : P c s) (hc : c.reclaim s = .ok (d, freed)) :
    Calls P c freed.pairs d := by
  rw [← List.append_nil freed.pairs]
  exact .more hP hc (.none d)

/-- One slot more is freed after the others. -/
theorem reclaimEach_concat {front : List Nat} {more : Freed ν}
    (hfront : c.reclaimEach front = .ok (d, freed)) (hs : d.reclaimEach [s] = .ok (e, more)) :
    ∃ all, c.reclaimEach (front ++ [s]) = .ok (e, all) := by
  induction front generalizing c freed with
  | nil =>
    cases hfront
    exact ⟨more, hs⟩
  | cons u front ih =>
    rw [List.cons_append]
    unfold reclaimEach at hfront ⊢
    split at hfront
    · rename_i hu
      obtain ⟨⟨c', first⟩, hfirst, hfront⟩ := Fault.of_bind hfront
      obtain ⟨⟨d', rest⟩, hrest, hfront⟩ := Fault.of_bind hfront
      cases hfront
      obtain ⟨all, hall⟩ := ih hrest
      refine ⟨first ++ all, ?_⟩
      rw [if_pos hu, hfirst]
      simp only [bind, Except.bind]
      rw [hall]
      rfl
    · rename_i hu
      rw [if_neg hu]
      exact ih hfront

end Chain

open Chain

namespace Tour

variable {t u : Tour ν} {c d e : Chain ν} {s : Nat} {reply : Reply ν} {freed : Freed ν}

/-! ## the calls of the cascade -/

/-- A slot is about to be freed in a chain, on the way through an operation. -/
inductive Due (t : Tour ν) : Chain ν → Nat → Prop where
  /-- when a cursor is closed -/
  | closed {i s : Nat} {d : Chain ν} (hp : t.place? i = some (some s))
      (hd : t.store.chain.LetsGo s d) : Due t d s
  /-- when a cursor is moved, after its new place was pinned -/
  | moved {i s : Nat} {next : Option Nat} {e d : Chain ν} (hp : t.place? i = some (some s))
      (hn : t.store.chain.successor (some s) = .ok next) (he : t.store.chain.pin next = .ok e)
      (hd : e.LetsGo s d) : Due t d s
  /-- when an entry is removed, after its neighbours were joined -/
  | removed {k : Key} {s : Nat} {x y : Slot ν} {c₁ c₂ c₃ d : Chain ν}
      (hk : t.store.find k = .ok (some s)) (hx : t.store.chain.slot s = .ok x)
      (h₁ : t.store.chain.update s (fun x => { x with removed := true }) = .ok c₁)
      (h₂ : c₁.joinBefore x = .ok c₂) (h₃ : c₂.joinAfter x = .ok c₃)
      (hd : d = { c₃ with len := c₃.len - 1 }) (hy : d.slot s = .ok y) (h0 : y.refs = 0) : Due t d s
  /-- when the store is cleared, after all entries were detached and some slots were freed -/
  | cleared {s : Nat} {e d : Chain ν} {front back : List Nat} {freed : Freed ν}
      (he : detachFrom t.store.chain.arena.size
        { t.store.chain with head := none, tail := none, len := 0 } t.store.chain.head = .ok e)
      (hidle : e.idleSlots = front ++ s :: back) (hd : e.reclaimEach front = .ok (d, freed))
      (hs : (d.arena.get? s).isSome) : Due t d s

theorem Due.ready (h : t.Sound) (hd : t.Due c s) : c.Ready s := by
  cases hd with
  | closed hp hd => exact hd.ready (h.at_place hp).balanced
  | @moved i _ next e _ hp hn he hd =>
    have hb := (h.at_place hp).balanced
    have hs : s ∈ t.store.chain.arena.serials := hb.pinned (by rw [pinOn_self]; omega)
    obtain ⟨next', hn', hfirst⟩ := successor_spec hb.toLinked fun _ e => Option.some.inj e ▸ hs
    rw [hn, Except.ok.injEq] at hn'
    subst hn'
    have hmem : ∀ n, next = some n → n ∈ t.store.chain.arena.serials := by
      rintro n rfl
      exact hfirst.1.mem
    rw [pin_eq hmem, Except.ok.injEq] at he
    subst he
    have hb' := hb.referred hmem
    rw [pinOn_comm] at hb'
    exact hd.ready hb'
  | @removed k _ x y c₁ c₂ c₃ _ hk hx h₁ h₂ h₃ hd hy h0 =>
    rw [Store.find_spec h, Except.ok.injEq] at hk
    obtain ⟨r, hr, rfl⟩ := Option.map_eq_some_iff.mp hk
    obtain ⟨z, hz, hl, _⟩ := Store.Sound.slot_of_find? h hr
    rw [slot_of hz, Except.ok.injEq] at hx
    subst hx
    obtain ⟨d₁, d₂, d₃, e₁, e₂, e₃, _, hunlinked⟩ := joins_eq h.balanced.toLinked hz hl
    rw [e₁, Except.ok.injEq] at h₁
    subst h₁
    rw [e₂, Except.ok.injEq] at h₂
    subst h₂
    rw [e₃, Except.ok.injEq] at h₃
    subst h₃
    rw [hunlinked] at hd
    subst hd
    have hget := get?_unlinked h.balanced.toLinked hz hl r.serial
    rw [if_pos rfl] at hget
    rw [slot_of hget, Except.ok.injEq] at hy
    subst hy
    exact ⟨_, _, _, h.balanced.unlinked hz hl, hget, rfl, h0⟩
  | @cleared _ e _ front back freed he hidle hd hs =>
    obtain ⟨e', he', hemptied, _⟩ := clear_eq h.balanced.toLinked
    rw [he, Except.ok.injEq] at he'
    subst he'
    have hb := hemptied.balanced_idle h.balanced
    have hwaits := hemptied.waits
    rw [hidle] at hb hwaits
    obtain ⟨d, freed', _, hd', _, _, hbd, hwd⟩ := reclaimEach_spec front (s :: back) e hb
      fun u hu => hwaits u (List.mem_append_left _ hu)
    rw [hd, Except.ok.injEq] at hd'
    cases hd'
    obtain ⟨x, hx⟩ := Option.isSome_iff_exists.mp hs
    obtain ⟨hr, h0⟩ := hwd s (hwaits s (List.mem_append_right _ List.mem_cons_self)) x hx
    exact ⟨_, _, _, hbd, hx, hr, h0⟩

/-! ## nothing is freed in another way -/

theorem turn_due {m : Turn} {i : Nat} (he : t.step (m.of i) = .ok (reply, freed, u)) :
    ∃ c, Calls t.Due c freed.pairs u.store.chain := by
  rcases turn_cases he with ⟨rfl, _⟩ | ⟨at?, next, hp, ha⟩ | ⟨s, hp, hu⟩
  · exact ⟨_, .none _⟩
  · obtain ⟨e, hnext, hpin, hcase⟩ := step_cases (Store.chain_of_advance ha)
    cases at? with
    | none =>
      rw [hcase]
      exact ⟨_, .none _⟩
    | some s =>
      obtain ⟨x, d, hx, hd, ⟨hr, h1, hreclaim⟩ | rfl⟩ := release_cases hcase
      · exact ⟨d, .one (.moved hp hnext hpin ⟨x, hx, hr, h1, hd⟩) hreclaim⟩
      · exact ⟨_, .none _⟩
  · obtain ⟨x, d, hx, hd, ⟨hr, h1, hreclaim⟩ | rfl⟩ := release_cases (Store.chain_of_unpin hu)
    · exact ⟨d, .one (.closed hp ⟨x, hx, hr, h1, hd⟩) hreclaim⟩
    · exact ⟨_, .none _⟩

/-- A clearing goes through the slots without references. -/
theorem reclaimEach_due
    (he : detachFrom t.store.chain.arena.size
      { t.store.chain with head := none, tail := none, len := 0 } t.store.chain.head = .ok e)
    (front rest : List Nat) (hidle : e.idleSlots = front ++ rest)
    (hfront : ∃ before, e.reclaimEach front = .ok (c, before))
    (hrest : c.reclaimEach rest = .ok (d, freed)) : Calls t.Due c freed.pairs d := by
  induction rest generalizing front c freed with
  | nil =>
    cases hrest
    exact .none _
  | cons s rest ih =>
    obtain ⟨before, hbefore⟩ := hfront
    have hidle' : e.idleSlots = (front ++ [s]) ++ rest := by
      rw [hidle, List.append_assoc, List.singleton_append]
    unfold reclaimEach at hrest
    split at hrest
    · rename_i hs
      obtain ⟨⟨c', first⟩, hfirst, hrest⟩ := Fault.of_bind hrest
      obtain ⟨⟨d', more⟩, hmore, hrest⟩ := Fault.of_bind hrest
      cases hrest
      have hone : c.reclaimEach [s] = .ok (c', first ++ {}) := by
        rw [reclaimEach, if_pos hs, hfirst]
        rfl
      exact .more (.cleared he hidle hbefore hs) hfirst
        (ih _ hidle' (reclaimEach_concat hbefore hone) hmore)
    · rename_i hs
      have hone : c.reclaimEach [s] = .ok (c, {}) := by
        rw [reclaimEach, if_neg hs]
        rfl
      exact ih _ hidle' (reclaimEach_concat hbefore hone) hrest

/-- Whatever a command frees is freed by such calls. -/
theorem step_due {m : Command ν} (he : t.step m = .ok (reply, freed, u)) :
    ∃ c, Calls t.Due c freed.pairs u.store.chain := by
  cases m with
  | remove k =>
    obtain ⟨⟨freed?, store⟩, hremove, he⟩ := Fault.of_bind he
    cases he
    cases freed? with
    | none => exact ⟨_, .none _⟩
    | some freed =>
      obtain ⟨s, hfind, hremove⟩ := Store.chain_of_remove hremove
      obtain ⟨x, c₁, c₂, c₃, y, hx, h₁, h₂, h₃, hy, ⟨h0, hreclaim⟩ | rfl⟩ := remove_cases hremove
      · exact ⟨_, .one (.removed hfind hx h₁ h₂ h₃ rfl hy h0) hreclaim⟩
      · exact ⟨_, .none _⟩
  | clear =>
    obtain ⟨⟨freed, store⟩, hclear, he⟩ := Fault.of_bind he
    cases he
    obtain ⟨e, each, hdetach, heach, rfl⟩ := clear_cases (Store.chain_of_clear hclear)
    have hcalls : Calls t.Due e each.pairs store.chain :=
      reclaimEach_due hdetach [] _ rfl ⟨{}, rfl⟩ heach
    refine ⟨e, ?_⟩
    show Calls t.Due e (each.pairs ++ []) store.chain
    rwa [List.append_nil]
  | upsert _ _ | find _ | contains _ | lookup _ | entries =>
    obtain ⟨_, _, he⟩ := Fault.of_bind he
    cases he
    exact ⟨_, .none _⟩
  | key _ | value _ | len | start =>
    cases he
    exact ⟨_, .none _⟩
  | modify s f =>
    rw [step] at he
    split at he <;> cases he <;> exact ⟨_, .none _⟩
  | advance i => exact turn_due (m := .advance) he
  | close i => exact turn_due (m := .close) he
  | abandon i => exact turn_due (m := .abandon) he

/-- **Both loops end, and end where they should.**  After every run the way back from each removed
slot ends at the nearest live one, and whatever is freed next is freed by loops that come to an end. -/
theorem loops_end (hasher : Token → UInt64) (commands : List (Command ν)) :
    ∃ replies t, (start hasher).run commands = .ok (replies, t) ∧
      (∀ s x, t.store.chain.arena.get? s = some x → x.removed = true →
        ∃ path r next, t.store.chain.GoesOn s path r next) ∧
      (∀ c s, t.Due c s → c.Ceases s) ∧
      ∀ m, ∃ reply freed u c, t.step m = .ok (reply, freed, u) ∧
        Calls t.Due c freed.pairs u.store.chain := by
  obtain ⟨t, he, hs, _⟩ := run_spec (sound_start hasher) commands
  refine ⟨_, t, he, fun s x hx hr => hs.balanced.toLinked.goesOn hx hr,
    fun c s hd => (hd.ready hs).ceases, fun m => ?_⟩
  obtain ⟨freed, u, hstep, _⟩ := step_spec hs m
  obtain ⟨c, hcalls⟩ := step_due hstep
  exact ⟨_, freed, u, c, hstep, hcalls⟩

end Tour

end LiveOrder
