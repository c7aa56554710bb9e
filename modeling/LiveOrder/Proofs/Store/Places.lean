import LiveOrder.Proofs.Store.Count
import Mathlib.Data.List.Nodup

/-!
# The places in an arena

* `Arena.sites`    which serials are held, and at which places; with the items they make out the cells
                 (`Sound.cells_ext`);
* `Arena.Trims`    one arena is another one with items changed or given up: what is left is where it
                 was, and what was given up is vacant;
* `Arena.SamePlaces`   two arenas that hold the same serials at the same places, with the same places
                 vacant, in any order;
* `Trims.samePlaces`   what is left of one arena, in two ways, if it is the same.
-/

namespace LiveOrder.Arena

variable {α : Type} {a b c : Arena α}

def sites (a : Arena α) : List (Nat × Nat) := a.cells.map fun c => (c.serial, c.place)

/-- All places of an arena, filled or vacant. -/
def room (a : Arena α) : List Nat := a.vacant ++ a.sites.map (·.2)

theorem sites_fst (a : Arena α) : a.sites.map (·.1) = a.serials := by
  simp [sites, serials]

theorem sites_modify (a : Arena α) (s : Nat) (f : α → α) : (a.modify s f).sites = a.sites := by
  simp only [sites, modify, List.map_map]
  refine List.map_congr_left fun c _ => ?_
  simp only [Function.comp_apply]
  split <;> rfl

theorem sites_erase (a : Arena α) (s : Nat) :
    (a.erase s).sites = a.sites.filter (·.1 ≠ s) := by
  simp only [sites, cells_erase, List.filter_map]
  rfl

/-- What is held under which serial and where makes out the cells. -/
theorem Sound.cells_ext (ha : a.Sound) (hb : b.Sound) (hs : a.sites = b.sites)
    (hget : ∀ s, a.get? s = b.get? s) : a.cells = b.cells := by
  have hcells : ∀ {a : Arena α}, a.Sound →
      a.cells.map some = a.sites.map fun e => (a.get? e.1).map (Cell.mk e.1 e.2) := by
    intro a h
    rw [sites, List.map_map]
    refine List.map_congr_left fun c hc => ?_
    rw [Function.comp_apply, h.get?_eq_some_iff.mpr ⟨c, hc, rfl, rfl⟩]
    rfl
  refine List.map_injective_iff.mpr (fun _ _ => Option.some.inj) ?_
  rw [hcells ha, hcells hb, hs]
  simp only [hget]

/-- The place of what is erased is vacant. -/
theorem room_erase (h : a.Sound) (s : Nat) : (a.erase s).room.Perm a.room := by
  cases hx : a.get? s with
  | none =>
    have hfind : a.cells.find? (·.serial = s) = none := by simpa [get?] using hx
    rw [erase, hfind]
  | some x =>
    obtain ⟨l, c, r, hcells, hs, _, hl, hr⟩ := h.split hx
    have hsame : ∀ m : List (Cell α), (∀ d ∈ m, d.serial ≠ s) → m.filter (·.serial ≠ s) = m := by
      intro m hm
      exact List.filter_eq_self.mpr fun d hd => by simpa using hm d hd
    have hfind : a.cells.find? (·.serial = s) = some c := by
      rw [hcells, List.find?_append, List.find?_eq_none.mpr fun d hd => by simpa using hl d hd]
      simp [hs]
    have herase : a.erase s = ⟨l ++ r, c.place :: a.vacant, a.fresh⟩ := by
      rw [erase, hfind]
      simp only [hcells, List.filter_append, List.filter_cons, hsame l hl, hsame r hr, hs, ne_eq,
        not_true_eq_false, decide_false, Bool.false_eq_true, if_false]
    rw [herase]
    simp only [room, sites, hcells, List.map_append, List.map_cons, List.cons_append]
    exact List.perm_middle.symm.trans (List.perm_middle.symm.append_left _)

structure Trims (a b : Arena α) : Prop where
  sites : b.sites ⊆ a.sites
  room : b.room.Perm a.room

namespace Trims

theorem refl (a : Arena α) : a.Trims a := ⟨List.Subset.refl _, .refl _⟩

theorem trans (h : a.Trims b) (h' : b.Trims c) : a.Trims c :=
  ⟨List.Subset.trans h'.sites h.sites, h'.room.trans h.room⟩

theorem modify (a : Arena α) (s : Nat) (f : α → α) : a.Trims (a.modify s f) := by
  have hs := sites_modify a s f
  refine ⟨by rw [hs]; exact List.Subset.refl _, ?_⟩
  rw [Arena.room, hs]
  exact .refl _

theorem modifyAt (a : Arena α) (s? : Option Nat) (f : α → α) : a.Trims (a.modifyAt s? f) := by
  cases s? with
  | none => exact .refl a
  | some s => exact .modify a s f

theorem erase (h : a.Sound) (s : Nat) : a.Trims (a.erase s) := by
  refine ⟨?_, room_erase h s⟩
  rw [sites_erase]
  exact List.filter_subset_self _

end Trims

structure SamePlaces (a b : Arena α) : Prop where
  sites : a.sites = b.sites
  vacant : a.vacant.Perm b.vacant

/-- Numbered places are determined by which of them there are. -/
theorem sites_ext (all : List (Nat × Nat)) {l m : List (Nat × Nat)}
    (hall : (all.map (·.1)).Nodup) (hl : l ⊆ all)
    (hm : m ⊆ all) (h : l.map (·.1) = m.map (·.1)) : l = m := by
  induction l generalizing m with
  | nil => exact (List.map_eq_nil_iff.mp h.symm).symm
  | cons e l ih =>
    cases m with
    | nil => cases h
    | cons e' m =>
      obtain ⟨hhead, htail⟩ := List.cons.inj h
      obtain ⟨he, hl⟩ := List.cons_subset.mp hl
      obtain ⟨he', hm⟩ := List.cons_subset.mp hm
      rw [List.inj_on_of_nodup_map hall he he' hhead, ih hl hm htail]

theorem Trims.samePlaces (ha : a.Sound) (hb : a.Trims b) (hc : a.Trims c)
    (h : b.serials = c.serials) : b.SamePlaces c := by
  have hsites : b.sites = c.sites := by
    refine sites_ext a.sites ?_ hb.sites hc.sites ?_
    · rw [sites_fst]
      exact ha.nodup
    · rw [sites_fst, sites_fst, h]
  refine ⟨hsites, ?_⟩
  have hroom := hb.room.trans hc.room.symm
  rw [Arena.room, Arena.room, hsites] at hroom
  exact (List.perm_append_right_iff _).mp hroom

end LiveOrder.Arena
