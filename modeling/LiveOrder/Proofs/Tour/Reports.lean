import LiveOrder.Proofs.Store.Contents
import LiveOrder.Proofs.Tour.Turns

/-!
# Reports on what was freed

A store reports every clearing, and every cascade that frees at least two entries.  Removals and
clearings free entries that were live until then, one by one; so they never report a cascade, and
leave alone what was removed before.  Only a pin that moves or is given up can start a cascade.

* `Store.FreesLive`    the pairs of live entries are handed back, and all else is held still;
* `Store.remove_frees`, `clear_frees`   it is so for removals and clearings;
* `Tour.reports`       after every run, whatever is reported next is what happens.
-/

namespace LiveOrder

open Chain

variable {ν : Type}

namespace Store

variable {t : Store ν} {pins : Nat → Nat}

/-- The slots that are given up were those of live entries; their pairs are handed back, each
once. -/
structure FreesLive (t : Store ν) (gone : List Nat) (freed : Freed ν) (t' : Store ν) : Prop where
  live : ∀ s ∈ gone, t.chain.Live s
  nodup : gone.Nodup
  pairs : freed.pairs = t.chain.pairsOf gone
  lost : ∀ s, s ∈ gone ↔ s ∈ t.chain.arena.serials ∧ s ∉ t'.chain.arena.serials

section
variable (h : t.Sound pins)
include h

theorem remove_frees (k : Key) :
    ∃ freed t' gone, t.remove k = .ok (freed, t') ∧ (freed.getD {}).notices = [] ∧
      t.FreesLive gone (freed.getD {}) t' ∧
      (gone = [] ∨ ∃ s, t.find k = .ok (some s) ∧ gone = [s]) := by
  rw [remove, find_spec h]
  cases hr : t.ledger.find? k with
  | none =>
    have hsame : t.chain.Change [] t.chain := .same h.balanced.sound
    exact ⟨none, t, [], rfl, rfl, ⟨fun _ hs => absurd hs List.not_mem_nil, List.nodup_nil, rfl,
      hsame.mem_gone_iff⟩, .inl rfl⟩
  | some r =>
    obtain ⟨x, hx, hl, _⟩ := h.slot_of_find? hr
    obtain ⟨d, gone, he, hf, _, hgone⟩ := Chain.remove_spec h.balanced hx hl
    have hchange : t.chain.Change gone d := .removed hx hl hf.toFrees
    refine ⟨some (.ofCascade (t.chain.pairsOf gone)),
      { t with chain := d, index := t.index.filter (· ≠ r.serial) }, gone, ?_, ?_,
      ⟨?_, hf.nodup, rfl, hchange.mem_gone_iff⟩, ?_⟩
    · simp only [Option.map_some, bind, Except.bind]
      rw [he]
      rfl
    · rcases hgone with rfl | rfl
      · rfl
      · rw [pairsOf_cons hx]
        rfl
    · rcases hgone with rfl | rfl
      · exact fun _ hs => absurd hs List.not_mem_nil
      · exact fun s hs => List.mem_singleton.mp hs ▸ ⟨x, hx, hl⟩
    · rcases hgone with rfl | rfl
      · exact .inl rfl
      · exact .inr ⟨r.serial, rfl, rfl⟩

/-- What was held before a clearing is held after it or handed back. -/
theorem clear_frees :
    ∃ entries before freed t' gone after, t.entries = .ok entries ∧ t.tombstones = .ok before ∧
      t.clear = .ok (freed, t') ∧ t'.tombstones = .ok after ∧
      freed.notices = [.cleared entries.length after] ∧
      entries.length + before = after + freed.pairs.length ∧ t.FreesLive gone freed t' := by
  obtain ⟨entries, hentries, hbefore, hperm⟩ := held_spec h
  have hlen : t.chain.len = entries.length := by
    have hrows := hentries.symm.trans (entries_spec h)
    rw [Except.ok.injEq] at hrows
    rw [hrows, List.length_map, ← h.balanced.toLinked.length_rows]
    rfl
  obtain ⟨e, d, he, hf, hclear⟩ := Chain.clear_alone h.balanced
  have hchange : t.chain.Change e.idleSlots d := .cleared he hf
  have hnone : d.len = 0 := hf.len.trans he.len
  have hcleared : t.clear = .ok (⟨t.chain.pairsOf e.idleSlots, [.cleared t.chain.len d.arena.size]⟩,
      { t with chain := d, index := [] }) := by
    rw [clear, hclear]
    rfl
  refine ⟨entries, t.retained.length, _, _, e.idleSlots, d.arena.size, hentries, hbefore, hcleared,
    ?_, ?_, ?_, fun s hs => ?_, hf.nodup, rfl, hchange.mem_gone_iff⟩
  · show Chain.tombstones d = _
    rw [Chain.tombstones, hnone, if_neg (Nat.not_lt_zero _), Nat.sub_zero]
  · rw [hlen]
  · have hheld := hperm.symm.trans (clear_held h hcleared)
    have hafter : d.held.length = d.arena.size := length_held hf.sound
    have hsum := hheld.length_eq
    rw [List.length_append, List.length_append, show Store.held _ = d.held from rfl, hafter] at hsum
    rw [hsum, Nat.add_comm]
  · obtain ⟨x, hx, hl, _⟩ := he.live_of_idle h.balanced hs
    exact ⟨x, hx, hl⟩

end

end Store

namespace Tour

variable {t : Tour ν}

/-- A clearing tells what was live and what is retained, and all adds up. -/
def ReportsClearing (t : Tour ν) : Prop :=
  ∃ entries before freed store gone after, t.store.entries = .ok entries ∧
    t.store.tombstones = .ok before ∧ t.step .clear = .ok (.done, freed, { t with store }) ∧
    store.tombstones = .ok after ∧ freed.notices = [.cleared entries.length after] ∧
    entries.length + before = after + freed.pairs.length ∧ t.store.FreesLive gone freed store

/-- A removal tells nothing: it frees the entry that was removed, or nothing at all. -/
def ReportsRemoval (t : Tour ν) (k : Key) : Prop :=
  ∃ reply freed store gone, t.step (.remove k) = .ok (reply, freed, { t with store }) ∧
    freed.notices = [] ∧ t.store.FreesLive gone freed store ∧
    (gone = [] ∨ ∃ s, t.store.find k = .ok (some s) ∧ gone = [s])

/-- A turn of a cursor tells how much it freed, if that was more than one entry. -/
def ReportsTurn (t : Tour ν) (m : Turn) (i : Nat) : Prop :=
  ∃ reply freed u, t.step (m.of i) = .ok (reply, freed, u) ∧
    freed.notices = if 2 ≤ freed.pairs.length then [.chainFreed freed.pairs.length] else []

theorem Sound.reportsClearing (h : t.Sound) : t.ReportsClearing := by
  obtain ⟨entries, before, freed, store, gone, after, hl, hb, he, hspec⟩ := Store.clear_frees h
  refine ⟨entries, before, freed, store, gone, after, hl, hb, ?_, hspec⟩
  rw [step, he]
  rfl

theorem Sound.reportsRemoval (h : t.Sound) (k : Key) : t.ReportsRemoval k := by
  obtain ⟨freed, store, gone, he, hspec⟩ := Store.remove_frees h k
  refine ⟨.flag freed.isSome, freed.getD {}, store, gone, ?_, hspec⟩
  rw [step, he]
  rfl

theorem Sound.reportsTurn (h : t.Sound) (m : Turn) (i : Nat) : t.ReportsTurn m i := by
  obtain ⟨freed, u, he, _, _, hcascade⟩ := turn_spec h m i
  exact ⟨_, freed, u, he, congrArg (·.notices) hcascade⟩

/-- **Reports tell the truth.**  After every run, whatever is cleared, removed or moved next reports
what happens to the entries, and nothing else. -/
theorem reports (hasher : Token → UInt64) (commands : List (Command ν)) :
    ∃ replies t, (start hasher).run commands = .ok (replies, t) ∧ t.ReportsClearing ∧
      (∀ k, t.ReportsRemoval k) ∧ ∀ m i, t.ReportsTurn m i := by
  obtain ⟨t, he, hs, _⟩ := run_spec (sound_start hasher) commands
  exact ⟨_, t, he, hs.reportsClearing, hs.reportsRemoval, hs.reportsTurn⟩

end Tour

end LiveOrder
