import LiveOrder.Proofs.Store.Rows
import LiveOrder.Proofs.Store.Stepping

/-!
# What an operation can do to a chain

* `Chain.Change`   the five things that can happen to a chain, with the slots that are freed;
* `Change.mem_gone_iff`, `Change.gone_perm`   the freed slots are those that were held and are not
                 any more, each once;
* `Change.gone_eq`   in which order they are freed, if it is along backward links;
* `Change.pairs_perm`   what comes out of an operation is what went out of the arena;
* `Change.trims`   where it leaves what it does not free;
* `Change.removed_before`   where a removed entry leads to after it;
* `Change.named_before`, `Change.named_kept`   entries keep their keys;
* `Chain.Ages`     what any number of operations can do: no serial is given out again, what is not
                 live any more stays so, and entries keep their keys.
-/

namespace LiveOrder.Chain

variable {ν : Type} {c d e : Chain ν} {gone : List Nat} {s : Nat} {x y : Slot ν}

inductive Change (c : Chain ν) : List Nat → Chain ν → Prop where
  | appended (key : Key) (value : ν) (hash : UInt64) : Change c [] (c.appended key value hash)
  | revalued {s : Nat} (hs : c.Live s) (f : ν → ν) : Change c [] (c.revalued s f)
  /-- slots go and counts change, as when a pin is moved or given up -/
  | freed {gone : List Nat} {d : Chain ν} (h : Frees c d gone) : Change c gone d
  | removed {s : Nat} {x : Slot ν} {gone : List Nat} {d : Chain ν} (hx : c.arena.get? s = some x)
      (hl : x.removed = false) (h : Frees (c.unlinked s x) d gone) : Change c gone d
  | cleared {e : Chain ν} {gone : List Nat} {d : Chain ν} (he : c.Emptied e)
      (h : Frees e d gone) : Change c gone d

theorem Change.same (h : c.arena.Sound) : Change c [] c := .freed (Frees.refl h)

theorem Change.gone_nodup (h : Change c gone d) : gone.Nodup := by
  cases h with
  | appended => exact List.nodup_nil
  | revalued => exact List.nodup_nil
  | freed hf => exact hf.nodup
  | removed _ _ hf => exact hf.nodup
  | cleared _ hf => exact hf.nodup

theorem Change.mem_gone_iff (h : Change c gone d) (s : Nat) :
    s ∈ gone ↔ s ∈ c.arena.serials ∧ s ∉ d.arena.serials := by
  cases h with
  | appended =>
    rw [serials_appended]
    constructor
    · exact fun hs => absurd hs List.not_mem_nil
    · exact fun hs => absurd (List.mem_append_left _ hs.1) hs.2
  | revalued =>
    rw [serials_revalued]
    exact ⟨fun hs => absurd hs List.not_mem_nil, fun hs => absurd hs.1 hs.2⟩
  | freed hf => exact hf.mem_gone_iff s
  | removed _ _ hf =>
    rw [hf.mem_gone_iff, serials_unlinked]
  | cleared he hf =>
    rw [hf.mem_gone_iff, he.serials]

/-- The slots that one chain holds and another one does not. -/
def lost (c d : Chain ν) : List Nat := c.arena.serials.filter fun s => s ∉ d.arena.serials

theorem Change.gone_perm (h : Change c gone d) (hc : c.arena.Sound) : gone.Perm (c.lost d) := by
  refine (List.perm_ext_iff_of_nodup h.gone_nodup (hc.nodup.filter _)).mpr fun s => ?_
  rw [h.mem_gone_iff, List.mem_filter, decide_eq_true_eq]

/-- Slots freed along backward links are known in their order. -/
theorem Change.gone_eq (h : Change c gone d) (hc : c.arena.Sound) (hd : gone.Pairwise (· > ·)) :
    gone = (c.lost d).reverse := by
  have hlost : (c.lost d).reverse.Pairwise (· > ·) :=
    List.pairwise_reverse.mpr (hc.increasing.filter _)
  refine ((h.gone_perm hc).trans (List.reverse_perm _).symm).eq_of_pairwise ?_ hd hlost
  exact fun _ _ _ _ hab hba => absurd hab (Nat.lt_asymm hba)

theorem Change.pairs_perm (h : Change c gone d) (hc : c.arena.Sound) :
    (c.pairsOf gone).Perm (c.pairsOf (c.lost d)) :=
  (h.gone_perm hc).filterMap _

/-- Places are given out to new entries only. -/
theorem Change.trims (h : Change c gone d) (hf : d.arena.fresh = c.arena.fresh) :
    c.arena.Trims d.arena := by
  cases h with
  | appended =>
    rw [fresh_appended] at hf
    exact absurd hf (Nat.succ_ne_self _)
  | revalued => exact .modify _ _ _
  | freed hf => exact hf.trims
  | removed _ _ hf =>
    refine Arena.Trims.trans ?_ hf.trims
    exact (Arena.Trims.modify _ _ _).trans ((Arena.Trims.modifyAt _ _ _).trans (.modifyAt _ _ _))
  | cleared he hf => exact he.trims.trans hf.trims

/-! ## where removed entries lead -/

/-- A removed entry was removed before, and leads where it led; or it was live, and leads to the last
entry before it that is live still. -/
theorem Change.removed_before (hc : c.Linked) (h : Change c gone d) (hy : d.arena.get? s = some y)
    (hr : y.removed = true) :
    ∃ x, c.arena.get? s = some x ∧ x.pair = y.pair ∧
      (x.removed = true ∧ y.prev = x.prev ∨
        x.removed = false ∧ LastBefore d.Live (some s) y.prev) := by
  cases h with
  | appended key value hash =>
    rw [get?_appended hc] at hy
    split at hy
    · rw [← Option.some.inj hy] at hr
      cases hr
    · split at hy
      · obtain ⟨x, hx, rfl⟩ := Option.map_eq_some_iff.mp hy
        exact ⟨x, hx, rfl, .inl ⟨hr, rfl⟩⟩
      · exact ⟨y, hy, rfl, .inl ⟨hr, rfl⟩⟩
  | @revalued u hu f =>
    rw [get?_revalued] at hy
    split at hy
    · rename_i hs
      obtain ⟨x, hx, rfl⟩ := Option.map_eq_some_iff.mp hy
      exact absurd (hs ▸ hu) (not_live_of_removed hx hr)
    · exact ⟨y, hy, rfl, .inl ⟨hr, rfl⟩⟩
  | freed hf =>
    obtain ⟨_, x, hx, e⟩ := hf.before hy
    rw [e] at hr ⊢
    exact ⟨x, hx, rfl, .inl ⟨hr, rfl⟩⟩
  | @removed u x _ _ hx hl hf =>
    have hlive : ∀ q, d.Live q ↔ c.Live q ∧ q ≠ u := fun q =>
      (hf.live_iff q).trans (live_unlinked hc hx hl q)
    obtain ⟨_, z, hz, e⟩ := hf.before hy
    rw [e] at hr ⊢
    rcases unlinked_cases hc hx hl hz with
      ⟨rfl, rfl⟩ | ⟨_, w, hw, rfl⟩ | ⟨hn, w, hw, rfl⟩ | ⟨_, _, _, hw⟩
    · refine ⟨x, hx, rfl, .inr ⟨hl, ?_⟩⟩
      exact (hc.prev hx hl).without (prev_ne_self hc hx hl) hlive
    · exact ⟨w, hw, rfl, .inl ⟨hr, rfl⟩⟩
    · exact absurd (hc.live_next hx hl hn).1 (not_live_of_removed hw hr)
    · exact ⟨z, hw, rfl, .inl ⟨hr, rfl⟩⟩
  | cleared he hf =>
    obtain ⟨_, z, hz, e⟩ := hf.before hy
    obtain ⟨x, hx, rfl⟩ := he.before hz
    rw [e]
    refine ⟨x, hx, x.pair_emptied.symm, ?_⟩
    show _ ∨ x.removed = false ∧ LastBefore d.Live (some s) x.emptied.prev
    cases hxr : x.removed with
    | true => exact .inl ⟨rfl, by simp [Slot.emptied, hxr]⟩
    | false =>
      refine .inr ⟨rfl, ?_⟩
      have hnone : x.emptied.prev = none := by simp [Slot.emptied, Slot.detached, hxr]
      rw [hnone]
      exact fun q hq => absurd ((hf.live_iff q).mp hq) (he.not_live q)

/-- An entry keeps its key and the hash of it, or else it is the one that was just made. -/
theorem Change.named_before (hc : c.Linked) (h : Change c gone d) (hy : d.arena.get? s = some y) :
    (∃ x, c.arena.get? s = some x ∧ y.key = x.key ∧ y.hash = x.hash) ∨
      (s = c.arena.fresh ∧ d.arena.fresh = c.arena.fresh + 1) := by
  cases h with
  | appended key value hash =>
    rw [get?_appended hc] at hy
    split at hy
    · rename_i hs
      exact .inr ⟨hs, fresh_appended c⟩
    · split at hy
      · obtain ⟨x, hx, rfl⟩ := Option.map_eq_some_iff.mp hy
        exact .inl ⟨x, hx, rfl, rfl⟩
      · exact .inl ⟨y, hy, rfl, rfl⟩
  | revalued _ f =>
    obtain ⟨x, hx, e⟩ := before_revalued hy
    rw [e]
    exact .inl ⟨x, hx, rfl, rfl⟩
  | freed hf =>
    obtain ⟨_, x, hx, e⟩ := hf.before hy
    rw [e]
    exact .inl ⟨x, hx, rfl, rfl⟩
  | removed hx hl hf =>
    obtain ⟨_, z, hz, e⟩ := hf.before hy
    rw [e]
    rcases unlinked_cases hc hx hl hz with
      ⟨rfl, rfl⟩ | ⟨_, w, hw, rfl⟩ | ⟨_, w, hw, rfl⟩ | ⟨_, _, _, hw⟩
    · exact .inl ⟨_, hx, rfl, rfl⟩
    · exact .inl ⟨w, hw, rfl, rfl⟩
    · exact .inl ⟨w, hw, rfl, rfl⟩
    · exact .inl ⟨z, hw, rfl, rfl⟩
  | cleared he hf =>
    obtain ⟨_, z, hz, e⟩ := hf.before hy
    obtain ⟨x, hx, rfl⟩ := he.before hz
    rw [e]
    refine .inl ⟨x, hx, ?_⟩
    show x.emptied.key = x.key ∧ x.emptied.hash = x.hash
    unfold Slot.emptied
    split <;> exact ⟨rfl, rfl⟩

/-- Where no entry is made, all of them keep their keys. -/
theorem Change.named_kept (hc : c.Linked) (h : Change c gone d) (hf : d.arena.fresh = c.arena.fresh)
    (hy : d.arena.get? s = some y) :
    ∃ x, c.arena.get? s = some x ∧ y.key = x.key ∧ y.hash = x.hash := by
  rcases h.named_before hc hy with hx | ⟨_, hone⟩
  · exact hx
  · omega

/-! ## many operations -/

/-- One chain is another one at a later time. -/
structure Ages (c d : Chain ν) : Prop where
  fresh : c.arena.fresh ≤ d.arena.fresh
  /-- an entry is live since it was made -/
  live : ∀ {s}, d.Live s → c.Live s ∨ c.arena.fresh ≤ s
  /-- and has its key since then, as long as it is kept -/
  named : ∀ {s y}, d.arena.get? s = some y →
    (∃ x, c.arena.get? s = some x ∧ y.key = x.key) ∨ c.arena.fresh ≤ s

theorem Ages.refl (c : Chain ν) : c.Ages c := ⟨Nat.le_refl _, .inl, fun hy => .inl ⟨_, hy, rfl⟩⟩

theorem Ages.trans (h : c.Ages d) (h' : d.Ages e) : c.Ages e where
  fresh := Nat.le_trans h.fresh h'.fresh
  live hs := by
    rcases h'.live hs with hs | hs
    · exact h.live hs
    · exact .inr (Nat.le_trans h.fresh hs)
  named hz := by
    rcases h'.named hz with ⟨y, hy, hkey⟩ | hs
    · rcases h.named hy with ⟨x, hx, hkey'⟩ | hs
      · exact .inl ⟨x, hx, hkey.trans hkey'⟩
      · exact .inr hs
    · exact .inr (Nat.le_trans h.fresh hs)

theorem Change.ages (hc : c.Linked) (h : Change c gone d) : c.Ages d := by
  have hnamed : ∀ {s y}, d.arena.get? s = some y →
      (∃ x, c.arena.get? s = some x ∧ y.key = x.key) ∨ c.arena.fresh ≤ s := by
    intro s y hy
    rcases h.named_before hc hy with ⟨x, hx, hkey, _⟩ | ⟨hs, _⟩
    · exact .inl ⟨x, hx, hkey⟩
    · exact .inr (Nat.le_of_eq hs.symm)
  cases h with
  | appended key value hash =>
    refine ⟨?_, fun {s} hs => ?_, hnamed⟩
    · rw [fresh_appended]
      exact Nat.le_succ _
    · rcases (live_appended hc s).mp hs with hs | hs
      · exact .inl hs
      · exact .inr (Nat.le_of_eq hs.symm)
  | revalued hs f => exact ⟨Nat.le_refl _, fun hs => .inl ((live_revalued _).mp hs), hnamed⟩
  | freed hf =>
    exact ⟨Nat.le_of_eq hf.fresh.symm, fun hs => .inl ((hf.live_iff _).mp hs), hnamed⟩
  | removed hx hl hf =>
    refine ⟨?_, fun {s} hs => ?_, hnamed⟩
    · exact Nat.le_of_eq (hf.fresh.trans (fresh_unlinked c _ _)).symm
    · exact .inl ((live_unlinked hc hx hl s).mp ((hf.live_iff s).mp hs)).1
  | cleared he hf =>
    refine ⟨?_, fun {s} hs => ?_, hnamed⟩
    · exact Nat.le_of_eq (hf.fresh.trans he.fresh).symm
    · exact absurd ((hf.live_iff s).mp hs) (he.not_live s)

/-- What is new is live. -/
theorem Change.live_of_new (hc : c.Linked) (h : Change c gone d) (hs : c.arena.fresh ≤ s)
    (hlt : s < d.arena.fresh) : d.Live s := by
  cases h with
  | appended key value hash =>
    rw [fresh_appended] at hlt
    exact (live_appended hc s).mpr (.inr (by omega))
  | revalued _ f => exact absurd hlt (Nat.not_lt.mpr hs)
  | freed hf =>
    rw [hf.fresh] at hlt
    omega
  | removed _ _ hf =>
    rw [hf.fresh, fresh_unlinked] at hlt
    omega
  | cleared he hf =>
    rw [hf.fresh, he.fresh] at hlt
    omega

end LiveOrder.Chain
