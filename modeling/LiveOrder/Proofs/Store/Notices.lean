import LiveOrder.Store.Basic

/-!
# What stores report

A store reports on its own work: how many entries a release freed at once, and what a clearing left.
Such reports are for tracing only.

* `Chain.release_cases`, `remove_cases`, `clear_cases`, `step_cases`   an operation that ended well,
                  taken apart;
* `Store.chain_of_remove`, …   what it is on the chain;
* `Freed.Traced`    all that is reported is for tracing;
* `remove_traced`, `clear_traced`, `advance_traced`, `unpin_traced`   it is so for every operation.
-/

namespace LiveOrder

variable {ν α β : Type}

/-- Steps that end well, one after the other. -/
theorem Fault.of_bind {x : Except Fault α} {f : α → Except Fault β} {b : β}
    (h : x >>= f = .ok b) : ∃ a, x = .ok a ∧ f a = .ok b := by
  cases x with
  | error e => cases h
  | ok a => exact ⟨a, rfl, h⟩

namespace Chain

variable {c d : Chain ν} {s : Nat} {at? next : Option Nat} {freed : Freed ν}

theorem release_cases (h : c.release s = .ok (d, freed)) :
    ∃ x e, c.slot s = .ok x ∧ c.update s (fun x => { x with refs := x.refs - 1 }) = .ok e ∧
      (x.removed = true ∧ x.refs = 1 ∧ e.reclaim s = .ok (d, freed) ∨ freed = {}) := by
  obtain ⟨x, hx, h⟩ := Fault.of_bind h
  dsimp only at h
  split at h
  · cases h
  obtain ⟨e, he, h⟩ := Fault.of_bind h
  refine ⟨x, e, hx, he, ?_⟩
  split at h
  · rename_i hlast
    rw [Bool.and_eq_true, decide_eq_true_eq] at hlast
    exact .inl ⟨hlast.1, hlast.2, h⟩
  · cases h
    exact .inr rfl

theorem remove_cases (h : c.remove s = .ok (d, freed)) :
    ∃ x c₁ c₂ c₃ y, c.slot s = .ok x ∧ c.update s (fun x => { x with removed := true }) = .ok c₁ ∧
      c₁.joinBefore x = .ok c₂ ∧ c₂.joinAfter x = .ok c₃ ∧
      ({ c₃ with len := c₃.len - 1 } : Chain ν).slot s = .ok y ∧
      (y.refs = 0 ∧ ({ c₃ with len := c₃.len - 1 } : Chain ν).reclaim s = .ok (d, freed) ∨
        freed = {}) := by
  obtain ⟨x, hx, h⟩ := Fault.of_bind h
  obtain ⟨c₁, h₁, h⟩ := Fault.of_bind h
  obtain ⟨c₂, h₂, h⟩ := Fault.of_bind h
  obtain ⟨c₃, h₃, h⟩ := Fault.of_bind h
  dsimp only at h
  split at h
  · cases h
  obtain ⟨y, hy, h⟩ := Fault.of_bind h
  refine ⟨x, c₁, c₂, c₃, y, hx, h₁, h₂, h₃, hy, ?_⟩
  split at h
  · rename_i h0
    exact .inl ⟨h0, h⟩
  · cases h
    exact .inr rfl

theorem clear_cases (h : c.clear = .ok (d, freed)) :
    ∃ e each, detachFrom c.arena.size { c with head := none, tail := none, len := 0 } c.head = .ok e ∧
      e.reclaimEach ((e.arena.byPlace.filter fun x => x.item.refs = 0).map (·.serial)) =
        .ok (d, each) ∧
      freed = each ++ ⟨[], [.cleared c.len d.arena.size]⟩ := by
  obtain ⟨e, he, h⟩ := Fault.of_bind h
  obtain ⟨⟨_, each⟩, heach, h⟩ := Fault.of_bind h
  cases h
  exact ⟨e, each, he, heach, rfl⟩

theorem step_cases (h : c.step at? = .ok (next, d, freed)) :
    ∃ e, c.successor at? = .ok next ∧ c.pin next = .ok e ∧
      match at? with
      | none => freed = {}
      | some s => e.release s = .ok (d, freed) := by
  obtain ⟨n, hn, h⟩ := Fault.of_bind h
  obtain ⟨e, he, h⟩ := Fault.of_bind h
  cases at? with
  | none =>
    cases h
    exact ⟨_, hn, he, rfl⟩
  | some s =>
    obtain ⟨⟨d', released⟩, hreleased, h⟩ := Fault.of_bind h
    cases h
    exact ⟨e, hn, he, hreleased⟩

end Chain

namespace Freed

def Traced (f : Freed ν) : Prop := ∀ n ∈ f.notices, n.level = .trace

theorem Traced.empty : ({} : Freed ν).Traced := nofun

theorem Traced.append {f f' : Freed ν} (h : f.Traced) (h' : f'.Traced) : (f ++ f').Traced :=
  fun n hn => (List.mem_append.mp hn).elim (h n) (h' n)

/-- A cursor that leaves its pin behind is more than a trace. -/
theorem Traced.not_pinLeaked {f : Freed ν} (h : f.Traced) : .pinLeaked ∉ f.notices :=
  fun hn => by cases h _ hn

end Freed

namespace Chain

variable {c d : Chain ν} {s : Nat} {freed : Freed ν}

theorem reclaim_traced (h : c.reclaim s = .ok (d, freed)) : freed.Traced := by
  obtain ⟨⟨e, pairs⟩, _, h⟩ := Fault.of_bind h
  cases h
  intro n hn
  dsimp only at hn
  split at hn
  · rw [List.mem_singleton.mp hn]
    rfl
  · cases hn

theorem release_traced (h : c.release s = .ok (d, freed)) : freed.Traced := by
  obtain ⟨_, _, _, _, ⟨_, _, h⟩ | rfl⟩ := release_cases h
  · exact reclaim_traced h
  · exact .empty

theorem remove_traced (h : c.remove s = .ok (d, freed)) : freed.Traced := by
  obtain ⟨_, _, _, _, _, _, _, _, _, _, ⟨_, h⟩ | rfl⟩ := remove_cases h
  · exact reclaim_traced h
  · exact .empty

theorem reclaimEach_traced {slots : List Nat} (h : c.reclaimEach slots = .ok (d, freed)) :
    freed.Traced := by
  induction slots generalizing c d freed with
  | nil =>
    cases h
    exact .empty
  | cons s rest ih =>
    unfold reclaimEach at h
    split at h
    · obtain ⟨⟨e, first⟩, hfirst, h⟩ := Fault.of_bind h
      obtain ⟨⟨e', more⟩, hmore, h⟩ := Fault.of_bind h
      cases h
      exact (reclaim_traced hfirst).append (ih hmore)
    · exact ih h

theorem clear_traced (h : c.clear = .ok (d, freed)) : freed.Traced := by
  obtain ⟨_, each, _, heach, rfl⟩ := clear_cases h
  refine (reclaimEach_traced heach).append fun n hn => ?_
  rw [List.mem_singleton.mp hn]
  rfl

theorem step_traced {at? next : Option Nat} (h : c.step at? = .ok (next, d, freed)) :
    freed.Traced := by
  obtain ⟨_, _, _, h⟩ := step_cases h
  cases at? with
  | none =>
    rw [h]
    exact .empty
  | some s => exact release_traced h

end Chain

namespace Store

variable {t t' : Store ν} {freed : Freed ν}

theorem chain_of_advance {at? next : Option Nat} (h : t.advance at? = .ok (next, freed, t')) :
    t.chain.step at? = .ok (next, t'.chain, freed) := by
  obtain ⟨_, hstep, h⟩ := Fault.of_bind h
  cases h
  exact hstep

theorem chain_of_unpin {s : Nat} (h : t.unpin s = .ok (freed, t')) :
    t.chain.release s = .ok (t'.chain, freed) := by
  obtain ⟨_, hrelease, h⟩ := Fault.of_bind h
  cases h
  exact hrelease

theorem chain_of_clear (h : t.clear = .ok (freed, t')) : t.chain.clear = .ok (t'.chain, freed) := by
  obtain ⟨_, hclear, h⟩ := Fault.of_bind h
  cases h
  exact hclear

theorem chain_of_remove {k : Key} (h : t.remove k = .ok (some freed, t')) :
    ∃ s, t.find k = .ok (some s) ∧ t.chain.remove s = .ok (t'.chain, freed) := by
  obtain ⟨found, hfind, h⟩ := Fault.of_bind h
  cases found with
  | none => cases h
  | some s =>
    obtain ⟨_, hremove, h⟩ := Fault.of_bind h
    cases h
    exact ⟨s, hfind, hremove⟩

theorem remove_traced {k : Key} (h : t.remove k = .ok (some freed, t')) : freed.Traced := by
  obtain ⟨_, _, hremove⟩ := chain_of_remove h
  exact Chain.remove_traced hremove

theorem clear_traced (h : t.clear = .ok (freed, t')) : freed.Traced :=
  Chain.clear_traced (chain_of_clear h)

theorem advance_traced {at? next : Option Nat} (h : t.advance at? = .ok (next, freed, t')) :
    freed.Traced := Chain.step_traced (chain_of_advance h)

theorem unpin_traced {s : Nat} (h : t.unpin s = .ok (freed, t')) : freed.Traced :=
  Chain.release_traced (chain_of_unpin h)

end Store

end LiveOrder
