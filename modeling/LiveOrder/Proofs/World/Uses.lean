import LiveOrder.World.Run

/-!
# What goes on in a container

A container notes what goes on in it, innermost first, until it has ended.  Its access and its guard
are set and put back apart from that, by the operations themselves.  Here is what they should be.

* `Container.searches`, `changes`, `readers`   what goes on, sort by sort;
* `Container.beingRead`, `beingChanged`, `beingSearched`   what a container is like when that begins;
* `Container.Disciplined`     access and guard say what goes on, which is one search at most, inside a
                        use of its own sort;
* `Disciplined.reading`, `.changing`, `.searching_reader`, `.searching_changer`   what begins keeps it.

Only operations that ask a key for its token are among the changes: the others run no user code while
they change a container, so nobody meets them there.
-/

namespace LiveOrder

namespace Operation

/-- The operations that ask a key for its token and change nothing. -/
def isQuery : Operation → Bool
  | .containsKey | .lookup => true
  | _ => false

/-- The operations that ask a key for its token and change the store. -/
def isUpdate : Operation → Bool
  | .upsert | .remove => true
  | _ => false

theorem not_isUpdate {op : Operation} (h : op.isQuery = true) : ¬op.isUpdate = true := by
  cases op <;> revert h <;> decide

end Operation

namespace Use

def search? : Use → Option Operation
  | .searching op => some op
  | .reading | .changing _ => none

def change? : Use → Option Operation
  | .changing op => some op
  | .reading | .searching _ => none

end Use

namespace Container

/-- The searches that have not ended. -/
def searches (c : Container) : List Operation := c.uses.filterMap Use.search?

/-- The changes that have not ended. -/
def changes (c : Container) : List Operation := c.uses.filterMap Use.change?

def readers (c : Container) : Nat := c.uses.count .reading

/-! ## beginnings and ends of use -/

/-- Another reader. -/
def beingRead (c : Container) (n : Nat) : Container :=
  { c with access := .shared (n + 1), uses := .reading :: c.uses }

def beingChanged (c : Container) (op : Operation) : Container :=
  { c with access := .exclusive, uses := .changing op :: c.uses }

def beingSearched (c : Container) (op : Operation) : Container :=
  { c with active := some op, uses := .searching op :: c.uses }

/-- The container as it is, in the use that another one is in. -/
def usedAs (c d : Container) : Container :=
  { c with access := d.access, active := d.active, uses := d.uses }

/-! ## the discipline -/

structure Disciplined (c : Container) : Prop where
  /-- the guard names the search that goes on -/
  guard : c.active = c.searches.head?
  single : c.searches.length ≤ 1
  /-- readers only, or one change alone; who searches is one of them -/
  access : (c.changes = [] ∧ c.access = .shared c.readers ∧
      ∀ s ∈ c.searches, s.isQuery = true ∧ 0 < c.readers) ∨
    ∃ op, op.isUpdate = true ∧ c.changes = [op] ∧ c.readers = 0 ∧ c.access = .exclusive ∧
      ∀ s ∈ c.searches, s = op

namespace Disciplined

variable {c d : Container} {op : Operation} {n : Nat}

/-- What goes on does not depend on what is stored. -/
theorem usedAs (h : c.Disciplined) (d : Container) : (d.usedAs c).Disciplined :=
  ⟨h.guard, h.single, h.access⟩

theorem withStore (h : c.Disciplined) (store : Store Item) : { c with store }.Disciplined :=
  ⟨h.guard, h.single, h.access⟩

theorem shared (h : c.Disciplined) (ha : c.access = .shared n) : c.changes = [] ∧ c.readers = n ∧
    ∀ s ∈ c.searches, s.isQuery = true ∧ 0 < c.readers := by
  rcases h.access with ⟨hchanges, hshared, hsearches⟩ | ⟨_, _, _, _, hexclusive, _⟩
  · rw [hshared, Access.shared.injEq] at ha
    exact ⟨hchanges, ha, hsearches⟩
  · rw [hexclusive] at ha
    cases ha

theorem changer (h : c.Disciplined) (hc : c.changes = [op]) : op.isUpdate = true ∧ c.readers = 0 ∧
    c.access = .exclusive ∧ ∀ s ∈ c.searches, s = op := by
  rcases h.access with ⟨hnone, _⟩ | ⟨op', hop, hone, hrest⟩
  · rw [hnone] at hc
    cases hc
  · rw [hone, List.cons.injEq] at hc
    obtain ⟨rfl, _⟩ := hc
    exact ⟨hop, hrest⟩

theorem searches_eq_nil (h : c.Disciplined) (hnone : c.active = none) : c.searches = [] :=
  List.head?_eq_none_iff.mp (h.guard.symm.trans hnone)

/-- Nothing goes on in a container that is not accessed. -/
theorem idle (h : c.Disciplined) (ha : c.access = .shared 0) : c.active = none ∧ c.uses = [] := by
  obtain ⟨hchanges, hreaders, hsearches⟩ := h.shared ha
  have hnone : c.searches = [] := by
    refine List.eq_nil_iff_forall_not_mem.mpr fun s hs => ?_
    exact absurd (hsearches s hs).2 (Nat.not_lt.mpr (Nat.le_of_eq hreaders))
  refine ⟨by rw [h.guard, hnone, List.head?_nil], List.eq_nil_iff_forall_not_mem.mpr fun use hu => ?_⟩
  cases use with
  | reading => exact List.count_eq_zero.mp hreaders hu
  | changing op => cases List.filterMap_eq_nil_iff.mp hchanges _ hu
  | searching op => cases List.filterMap_eq_nil_iff.mp hnone _ hu

theorem idle_iff (h : c.Disciplined) : c.access = .shared 0 ↔ c.uses = [] := by
  refine ⟨fun ha => (h.idle ha).2, fun hempty => ?_⟩
  rcases h.access with ⟨_, hshared, _⟩ | ⟨op, _, hchanges, _⟩
  · rw [hshared, readers, hempty]
    rfl
  · rw [changes, hempty] at hchanges
    cases hchanges

theorem mem_changes : .changing op ∈ c.uses ↔ op ∈ c.changes := by
  refine ⟨fun h => List.mem_filterMap.mpr ⟨_, h, rfl⟩, fun h => ?_⟩
  obtain ⟨use, hu, hop⟩ := List.mem_filterMap.mp h
  cases use <;> cases hop
  exact hu

theorem mem_searches : .searching op ∈ c.uses ↔ op ∈ c.searches := by
  refine ⟨fun h => List.mem_filterMap.mpr ⟨_, h, rfl⟩, fun h => ?_⟩
  obtain ⟨use, hu, hop⟩ := List.mem_filterMap.mp h
  cases use <;> cases hop
  exact hu

theorem exclusive_iff (h : c.Disciplined) :
    c.access = .exclusive ↔ ∃ op, op.isUpdate = true ∧ .changing op ∈ c.uses := by
  constructor
  · intro ha
    rcases h.access with ⟨_, hshared, _⟩ | ⟨op, hop, hchanges, _⟩
    · rw [hshared] at ha
      cases ha
    · exact ⟨op, hop, mem_changes.mpr (hchanges ▸ List.mem_singleton_self op)⟩
  · rintro ⟨op, _, hmem⟩
    rcases h.access with ⟨hnone, _⟩ | ⟨_, _, _, _, hexclusive, _⟩
    · rw [mem_changes, hnone] at hmem
      cases hmem
    · exact hexclusive

/-- The guard names the one search that goes on. -/
theorem active_iff (h : c.Disciplined) : c.active = some op ↔ .searching op ∈ c.uses := by
  have hsingle := h.single
  rw [h.guard, mem_searches]
  rcases hs : c.searches with _ | ⟨s, _ | ⟨t, more⟩⟩
  · simp
  · simp [eq_comm]
  · simp [hs] at hsingle

theorem searches_of_active (h : c.Disciplined) (hop : c.active = some op) : c.searches = [op] := by
  have hsingle := h.single
  rw [h.guard] at hop
  rcases hs : c.searches with _ | ⟨s, _ | ⟨t, more⟩⟩
  · simp [hs] at hop
  · simpa [hs] using hop
  · simp [hs] at hsingle

/-- What searches in a container that is not being changed is a query, and a reader. -/
theorem query_of_shared (h : c.Disciplined) (ha : c.access = .shared n) (hop : .searching op ∈ c.uses) :
    op.isQuery = true ∧ 0 < n := by
  obtain ⟨_, hreaders, hsearches⟩ := h.shared ha
  exact hreaders ▸ hsearches op (mem_searches.mp hop)

/-- What searches in a container that is being changed is what changes it. -/
theorem update_of_exclusive (h : c.Disciplined) (ha : c.access = .exclusive)
    (hop : .searching op ∈ c.uses) : op.isUpdate = true ∧ .changing op ∈ c.uses := by
  rcases h.access with ⟨_, hshared, _⟩ | ⟨op', hupdate, hchanges, _, _, hsearches⟩
  · rw [hshared] at ha
    cases ha
  · obtain rfl := hsearches op (mem_searches.mp hop)
    exact ⟨hupdate, mem_changes.mpr (hchanges ▸ List.mem_singleton_self op)⟩

theorem new (kind : Kind) : Disciplined ⟨kind, .empty, .shared 0, none, []⟩ :=
  ⟨rfl, Nat.zero_le 1, .inl ⟨rfl, rfl, nofun⟩⟩

/-! ## beginnings -/

theorem reading (h : c.Disciplined) (ha : c.access = .shared n) :
    (c.beingRead n).Disciplined := by
  obtain ⟨hchanges, hreaders, hsearches⟩ := h.shared ha
  have hcount : (Use.reading :: c.uses).count .reading = n + 1 :=
    List.count_cons_self.trans (congrArg (· + 1) hreaders)
  refine ⟨h.guard, h.single, .inl ⟨hchanges, congrArg Access.shared hcount.symm, fun s hs => ?_⟩⟩
  exact ⟨(hsearches s hs).1, Nat.lt_of_lt_of_eq (Nat.succ_pos n) hcount.symm⟩

theorem changing (h : c.Disciplined) (ha : c.access = .shared 0) (hop : op.isUpdate = true) :
    (c.beingChanged op).Disciplined := by
  obtain ⟨kind, store, access, active, uses⟩ := c
  obtain ⟨hnone, hempty⟩ := h.idle ha
  cases hnone
  cases hempty
  exact ⟨rfl, Nat.zero_le 1, .inr ⟨op, hop, rfl, rfl, rfl, nofun⟩⟩

/-- A query begins to search. -/
theorem searching_reader (h : c.Disciplined) (ha : c.access = .shared (n + 1)) (hnone : c.active = none)
    (hop : op.isQuery = true) :
    (c.beingSearched op).Disciplined := by
  obtain ⟨hchanges, hreaders, _⟩ := h.shared ha
  have hsearches : (Use.searching op :: c.uses).filterMap Use.search? = [op] :=
    congrArg (op :: ·) (h.searches_eq_nil hnone)
  have hcount : (Use.searching op :: c.uses).count .reading = n + 1 :=
    (List.count_cons_of_ne (by simp)).trans hreaders
  refine ⟨(congrArg List.head? hsearches).symm, Nat.le_of_eq (congrArg List.length hsearches),
    .inl ⟨hchanges, ha.trans (congrArg Access.shared hcount.symm), fun s hs => ?_⟩⟩
  have hs' : s ∈ [op] := hsearches ▸ hs
  exact ⟨List.mem_singleton.mp hs' ▸ hop, Nat.lt_of_lt_of_eq (Nat.succ_pos n) hcount.symm⟩

/-- An update begins to search. -/
theorem searching_changer (h : c.Disciplined) (hc : c.changes = [op]) (hnone : c.active = none) :
    (c.beingSearched op).Disciplined := by
  obtain ⟨hop, hreaders, haccess, _⟩ := h.changer hc
  have hsearches : (Use.searching op :: c.uses).filterMap Use.search? = [op] :=
    congrArg (op :: ·) (h.searches_eq_nil hnone)
  refine ⟨(congrArg List.head? hsearches).symm, Nat.le_of_eq (congrArg List.length hsearches),
    .inr ⟨op, hop, hc, (List.count_cons_of_ne (by simp)).trans hreaders, haccess, fun s hs => ?_⟩⟩
  exact List.mem_singleton.mp (hsearches ▸ hs : s ∈ [op])

end Disciplined

end Container

end LiveOrder
