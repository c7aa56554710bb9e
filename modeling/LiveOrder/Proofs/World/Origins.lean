import LiveOrder.Proofs.World.Objects

/-!
# Where entries come from

The world keeps a record of every entry that was made, with the key that was given for it.

* `Kind.storedKey`      the key that is stored for a given one;
* `Container.Registered`   every entry of a container, be it live or removed, was made for a key, and is
                        stored under the stored form of that key;
* `Container.Grows`     what a container has that it had not before is on a list;
* `Registered`          all containers are registered, now and whenever user code ran, and every entry is
                        on record once;
* `Registered.mark`, `.allocate`, `.setContainer`   it stays so.

An entry is known by its serial, which is given out once in each container, and keeps its key
(`Chain.Ages`).  So a record never has to be changed, whatever keys later operations are given.
-/

namespace LiveOrder

namespace Kind

/-- Maps store the canonical form of a key, sets store it as it was given. -/
def storedKey (kind : Kind) (given : Key) : Key := if kind.isSet then given else given.canonical

theorem key_stored (kind : Kind) (q : Query) : (kind.stored q).key = kind.storedKey q.key := by
  unfold stored storedKey
  split
  · rfl
  · exact q.key_canonical

theorem token_storedKey (kind : Kind) (k : Key) : (kind.storedKey k).token = k.token := by
  unfold storedKey
  split
  · rfl
  · exact k.token_canonical

end Kind

/-- Where an entry is, among all that were ever made. -/
def Origin.place (o : Origin) : Nat × Nat := (o.container, o.entry)

/-- What is put on record of an entry when a value has been stored. -/
def Upsert.origins {ν : Type} (r : Nat) (given : Key) : Upsert ν → List Origin
  | .inserted s => [⟨r, s, given⟩]
  | .updated .. => []

/-- The world with more entries on record. -/
def World.registering (w : World) (more : List Origin) : World :=
  { w with origins := more ++ w.origins }

namespace Container

variable {c d : Container} {r : Nat} {more origins : List Origin}

/-- Every entry is on record, and has the stored form of the key that it was made for. -/
def Registered (c : Container) (r : Nat) (origins : List Origin) : Prop :=
  ∀ s x, c.store.chain.arena.get? s = some x →
    ∃ given, ⟨r, s, given⟩ ∈ origins ∧ x.key = c.kind.storedKey given

theorem Registered.mono (h : c.Registered r origins) (hmore : origins ⊆ more) : c.Registered r more := by
  intro s x hx
  obtain ⟨given, ho, hkey⟩ := h s x hx
  exact ⟨given, hmore ho, hkey⟩

/-- The second container is the first one at a later time, and has more entries. -/
structure Grows (c d : Container) (r : Nat) (more : List Origin) : Prop where
  kind : d.kind = c.kind
  fresh : c.store.chain.arena.fresh ≤ d.store.chain.arena.fresh
  entries : ∀ {s y}, d.store.chain.arena.get? s = some y →
    (∃ x, c.store.chain.arena.get? s = some x ∧ y.key = x.key) ∨
      ∃ given, ⟨r, s, given⟩ ∈ more ∧ y.key = c.kind.storedKey given
  made : ∀ o ∈ more, o.container = r ∧ c.store.chain.arena.fresh ≤ o.entry ∧
    o.entry < d.store.chain.arena.fresh
  once : (more.map Origin.place).Nodup

theorem Grows.of_store (hstore : d.store = c.store) (hkind : d.kind = c.kind) : c.Grows d r [] where
  kind := hkind
  fresh := Nat.le_of_eq (hstore ▸ rfl)
  entries hy := .inl ⟨_, hstore ▸ hy, rfl⟩
  made := nofun
  once := List.nodup_nil

/-- Where no entry is made there is nothing to put on record. -/
theorem Grows.of_fresh {t : Store Item} (hage : c.store.chain.Ages t.chain) (ht : t.chain.arena.Sound)
    (hf : t.chain.arena.fresh = c.store.chain.arena.fresh) : c.Grows { c with store := t } r [] where
  kind := rfl
  fresh := hage.fresh
  entries {s y} hy := by
    rcases hage.named hy with hx | hle
    · exact .inl hx
    · have hlt : s < t.chain.arena.fresh := ht.below s (Arena.mem_serials_of_get? hy)
      exact absurd (hf ▸ hle) (Nat.not_le.mpr hlt)
  made := nofun
  once := List.nodup_nil

theorem Registered.grows (h : c.Registered r origins) (hg : c.Grows d r more) :
    d.Registered r (more ++ origins) := by
  intro s y hy
  rw [hg.kind]
  rcases hg.entries hy with ⟨x, hx, hkey⟩ | ⟨given, ho, hkey⟩
  · obtain ⟨given, ho, hgiven⟩ := h s x hx
    exact ⟨given, List.mem_append_right _ ho, hkey.trans hgiven⟩
  · exact ⟨given, List.mem_append_left _ ho, hkey⟩

end Container

structure Registered (cells : Objects) (fresh : Nat) (moments : List Moment) (origins : List Origin) :
    Prop where
  now : ∀ {r c}, containerAt? cells r = some c → c.Registered r origins
  past : ∀ m ∈ moments, ∀ {r c}, containerAt? m.objects r = some c → c.Registered r origins
  once : (origins.map Origin.place).Nodup
  below : ∀ o ∈ origins, o.container < fresh ∧ ∀ {c}, containerAt? cells o.container = some c →
    o.entry < c.store.chain.arena.fresh

namespace Registered

variable {cells cells' : Objects} {fresh r : Nat} {moments : List Moment} {origins more : List Origin}
  {c d : Container}

/-- Containers go away, and do not change. -/
theorem of_cells (h : Registered cells fresh moments origins)
    (hcells : ∀ {q e}, containerAt? cells' q = some e → containerAt? cells q = some e) :
    Registered cells' fresh moments origins where
  now hc := h.now (hcells hc)
  past := h.past
  once := h.once
  below o ho := ⟨(h.below o ho).1, fun hc => (h.below o ho).2 (hcells hc)⟩

theorem mark (h : Registered cells fresh moments origins) (walks : List (Nat × Walk)) :
    Registered cells fresh (⟨cells, walks⟩ :: moments) origins where
  now := h.now
  past m hm := by
    rcases List.mem_cons.mp hm with rfl | hm
    · exact h.now
    · exact h.past m hm
  once := h.once
  below := h.below

/-- A new container is empty. -/
theorem allocate (h : Registered cells fresh moments origins) {cell : Cell}
    (hnew : ∀ {e}, cell.body.container? = some e → ∀ s, e.store.chain.arena.get? s = none) :
    Registered (cells ++ [(fresh, cell)]) (fresh + 1) moments origins where
  now {q e} he := by
    rcases containerAt?_append he with ⟨_, hbody⟩ | he
    · intro s x hx
      rw [hnew hbody s] at hx
      cases hx
    · exact h.now he
  past := h.past
  once := h.once
  below o ho := by
    obtain ⟨hlt, hentry⟩ := h.below o ho
    refine ⟨Nat.lt_succ_of_lt hlt, fun he => ?_⟩
    rcases containerAt?_append he with ⟨hq, _⟩ | he
    · exact absurd hq (Nat.ne_of_lt hlt)
    · exact hentry he

/-- New entries have new serials, so none of them is on record yet. -/
theorem setContainer (h : Registered cells fresh moments origins) (hr : r < fresh)
    (hc : containerAt? cells r = some c) (hg : c.Grows d r more) :
    Registered (Table.change r (fun e => { e with body := .container d }) cells) fresh moments
      (more ++ origins) where
  now {q e} he := by
    rcases containerAt?_setContainer hc he with ⟨rfl, rfl⟩ | ⟨_, he⟩
    · exact (h.now hc).grows hg
    · exact (h.now he).mono (List.subset_append_right _ _)
  past m hm _ _ he := (h.past m hm he).mono (List.subset_append_right _ _)
  once := by
    rw [List.map_append, List.nodup_append]
    refine ⟨hg.once, h.once, fun a ha b hb hab => ?_⟩
    obtain ⟨o, ho, rfl⟩ := List.mem_map.mp ha
    obtain ⟨p, hp, rfl⟩ := List.mem_map.mp hb
    obtain ⟨hcontainer, hentry⟩ := Prod.mk.inj hab
    obtain ⟨hown, hle, _⟩ := hg.made o ho
    have hlt := (h.below p hp).2 (hcontainer ▸ hown ▸ hc)
    omega
  below o ho := by
    rcases List.mem_append.mp ho with ho | ho
    · obtain ⟨rfl, _, hlt⟩ := hg.made o ho
      refine ⟨hr, fun he => ?_⟩
      rcases containerAt?_setContainer hc he with ⟨_, rfl⟩ | ⟨hne, _⟩
      · exact hlt
      · exact absurd rfl hne
    · obtain ⟨hlt, hentry⟩ := h.below o ho
      refine ⟨hlt, fun he => ?_⟩
      rcases containerAt?_setContainer hc he with ⟨hq, rfl⟩ | ⟨_, he⟩
      · exact Nat.lt_of_lt_of_le (hentry (hq ▸ hc)) hg.fresh
      · exact hentry he

end Registered

end LiveOrder
