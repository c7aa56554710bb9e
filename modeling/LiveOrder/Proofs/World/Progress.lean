import LiveOrder.Proofs.Store.Change
import LiveOrder.Proofs.World.Records

/-!
# Progress of a whole walk

* `Course.Progress`   how far a walk has come: its visits are faithful so far, and what is live and has
                      not been visited comes after the last visit;
* `Progress.later`    it stays so whatever happens to the container;
* `Progress.visit`    a visit of the first live entry after the last one is one step more;
* `Progress.orderly`  at the end the walk is orderly.

The whole argument rests on two facts about a container that grows older (`Chain.Ages`): no serial is
given out twice, and what is not live any more stays so.
-/

namespace LiveOrder

variable {c d : Container} {x : Course} {y : Stop} {r s : Nat} {objects : Objects}

namespace Course

/-- What is live had not been removed earlier. -/
theorem not_gone (hc : containerAt? objects r = some c) (hage : c.store.chain.Ages d.store.chain)
    (hs : d.store.chain.Live s) : ¬Gone r s objects := by
  rintro ⟨b, hb, hlt, hdead⟩
  rw [hc] at hb
  cases hb
  rcases hage.live hs with hlive | hle
  · exact hdead hlive
  · exact Nat.not_lt.mpr hle hlt

structure Progress (x : Course) (c : Container) : Prop extends x.Faithful where
  opened : ∃ b, containerAt? x.begun x.container = some b ∧ b.store.chain.Linked ∧
    b.store.chain.Ages c.store.chain
  earlier : ∀ y ∈ x.stops, ∀ objects, objects = y.arrived ∨ objects = y.left →
    ∃ b, containerAt? objects x.container = some b ∧ b.store.chain.Ages c.store.chain
  reached : ∀ {s}, c.store.chain.Live s → s ∈ x.visited ∨ After x.visited.getLast? s
  below : ∀ s ∈ x.visited, s < c.store.chain.arena.fresh

theorem progress_begin (hc : containerAt? x.begun x.container = some c) (hlinked : c.store.chain.Linked)
    (hx : x.stops = []) : x.Progress c := by
  have hvisited : x.visited = [] := by rw [visited, hx, List.filterMap_nil]
  constructor
  case toFaithful =>
    refine ⟨?_, ?_, ?_, ?_⟩
    · rw [hx]
      exact List.forall_mem_nil _
    · rw [hvisited]
      exact .nil
    · rw [hvisited]
      exact fun s _ => List.not_mem_nil
    · rw [hx]
      exact .nil
  case opened => exact ⟨c, hc, hlinked, .refl _⟩
  case earlier =>
    rw [hx]
    exact List.forall_mem_nil _
  case reached =>
    rw [hvisited]
    exact fun _ => .inr trivial
  case below =>
    rw [hvisited]
    exact List.forall_mem_nil _

/-- What has been visited comes before what is made later. -/
theorem Progress.after_of_fresh (h : x.Progress c) (hs : c.store.chain.arena.fresh ≤ s) :
    After x.visited.getLast? s := by
  cases hlast : x.visited.getLast? with
  | none => trivial
  | some last => exact Nat.lt_of_lt_of_le (h.below last (List.mem_of_getLast? hlast)) hs

theorem Progress.later (h : x.Progress c) (hage : c.store.chain.Ages d.store.chain) :
    x.Progress d where
  toFaithful := h.toFaithful
  opened := by
    obtain ⟨b, hb, hlinked, hbc⟩ := h.opened
    exact ⟨b, hb, hlinked, hbc.trans hage⟩
  earlier y hy objects ho := by
    obtain ⟨b, hb, hbc⟩ := h.earlier y hy objects ho
    exact ⟨b, hb, hbc.trans hage⟩
  reached hs := by
    rcases hage.live hs with hlive | hle
    · exact h.reached hlive
    · exact .inr (h.after_of_fresh hle)
  below s hs := Nat.lt_of_lt_of_le (h.below s hs) hage.fresh

/-! ## visits -/

/-- One visit more. -/
def extended (x : Course) (y : Stop) : Course := { x with stops := x.stops ++ [y] }

theorem Quiet.of_extended (h : (x.extended y).Quiet) : x.Quiet := fun objects ho =>
  h objects (List.mem_cons.mpr ((List.mem_cons.mp ho).imp_right fun ho =>
    List.map_append ▸ List.mem_append_left _ ho))

theorem visited_extended (hy : y.entry = some s) : (x.extended y).visited = x.visited ++ [s] := by
  unfold extended visited
  rw [List.filterMap_append, List.filterMap_cons_some hy, List.filterMap_nil]

/-- What comes after the last one of a rising list comes after all of them. -/
theorem lt_of_after {l : List Nat} (hl : l.Pairwise (· < ·)) (hs : After l.getLast? s) :
    ∀ q ∈ l, q < s := by
  intro q hq
  cases hlast : l.getLast? with
  | none =>
    rw [List.getLast?_eq_none_iff.mp hlast] at hq
    cases hq
  | some last =>
    rw [hlast] at hs
    obtain ⟨front, rfl⟩ := List.getLast?_eq_some_iff.mp hlast
    rcases List.mem_append.mp hq with hq | hq
    · exact Nat.lt_trans ((List.pairwise_append.mp hl).2.2 q hq last (List.mem_singleton_self _)) hs
    · exact List.mem_singleton.mp hq ▸ hs

theorem Progress.visit (h : x.Progress c) (hlinked : c.store.chain.Linked)
    (hs : FirstAfter c.store.chain.Live x.visited.getLast? (some s)) (hentry : y.entry = some s)
    (hshows : y.Shows x.container) (hc : containerAt? y.arrived x.container = some c)
    (hd : containerAt? y.left x.container = some d) (hage : c.store.chain.Ages d.store.chain) :
    (x.extended y).Progress d := by
  obtain ⟨hlive, hafter, hmin⟩ := hs
  have hvisited := visited_extended (x := x) hentry
  have hlast : (x.visited ++ [s]).getLast? = some s := List.getLast?_concat
  have hlt := lt_of_after h.rising hafter
  have hfresh : s < c.store.chain.arena.fresh := hlinked.lt_fresh hlive.mem
  obtain ⟨b, hb, hblinked, hbc⟩ := h.opened
  constructor
  case toFaithful =>
    refine ⟨?_, ?_, ?_, ?_⟩
    · intro z hz
      rcases List.mem_append.mp hz with hz | hz
      · exact h.shows z hz
      · rw [List.mem_singleton.mp hz]
        exact hshows
    · rw [hvisited]
      refine List.pairwise_append.mpr ⟨h.rising, List.pairwise_singleton _ _, fun q hq t ht => ?_⟩
      rw [List.mem_singleton.mp ht]
      exact hlt q hq
    · intro t ht hmem
      rw [hvisited] at hmem
      rcases List.mem_append.mp hmem with hmem | hmem
      · exact h.absent t ht hmem
      · rw [List.mem_singleton.mp hmem] at ht
        exact not_gone hb hbc hlive ht
    · refine List.pairwise_append.mpr ⟨h.removed, List.pairwise_singleton _ _, fun z hz y' hy' t ht => ?_⟩
      rw [List.mem_singleton.mp hy', hentry]
      rintro ⟨rfl⟩
      rcases ht with ht | ht
      · obtain ⟨e, he, hec⟩ := h.earlier z hz _ (.inl rfl)
        exact not_gone he hec hlive ht
      · obtain ⟨e, he, hec⟩ := h.earlier z hz _ (.inr rfl)
        exact not_gone he hec hlive ht
  case opened => exact ⟨b, hb, hblinked, hbc.trans hage⟩
  case earlier =>
    intro z hz objects ho
    rcases List.mem_append.mp hz with hz | hz
    · exact (h.later hage).earlier z hz objects ho
    · rw [List.mem_singleton.mp hz] at ho
      rcases ho with rfl | rfl
      · exact ⟨c, hc, hage⟩
      · exact ⟨d, hd, .refl _⟩
  case reached =>
    intro t ht
    rw [hvisited, hlast]
    rcases hage.live ht with hlive' | hle
    · rcases h.reached hlive' with hmem | hafter'
      · exact .inl (List.mem_append_left _ hmem)
      · rcases Nat.eq_or_lt_of_le (hmin t hlive' hafter') with rfl | hst
        · exact .inl (List.mem_append_right _ (List.mem_singleton_self _))
        · exact .inr hst
    · exact .inr (Nat.lt_of_lt_of_le hfresh hle)
  case below =>
    intro t ht
    rw [hvisited] at ht
    rcases List.mem_append.mp ht with ht | ht
    · exact (h.later hage).below t ht
    · rw [List.mem_singleton.mp ht]
      exact Nat.lt_of_lt_of_le hfresh hage.fresh

/-! ## the end -/

theorem Faithful.length_visited (h : x.Faithful) : x.visited.length = x.stops.length := by
  rw [visited, List.length_filterMap_eq_countP]
  refine List.countP_eq_length.mpr fun y hy => ?_
  obtain ⟨s, _, _, _, hentry, _⟩ := h.shows y hy
  rw [hentry]
  rfl

/-- What is visited was live at the begin, or has been made since then. -/
theorem Progress.length_le (h : x.Progress c) {b : Container}
    (hb : containerAt? x.begun x.container = some b) (hlinked : b.store.chain.Linked) :
    x.stops.length ≤ b.store.len + (c.store.chain.arena.fresh - b.store.chain.arena.fresh) := by
  have hnodup : x.visited.Nodup := h.rising.imp Nat.ne_of_lt
  have hsub : x.visited ⊆ b.store.chain.rows.map (·.serial) ++
      List.range' b.store.chain.arena.fresh (c.store.chain.arena.fresh - b.store.chain.arena.fresh) := by
    intro s hs
    by_cases hlive : b.store.chain.Live s
    · exact List.mem_append_left _ (Chain.mem_rows_serials.mpr hlive)
    · have hle : b.store.chain.arena.fresh ≤ s := by
        by_contra hlt
        exact h.absent s ⟨b, hb, Nat.not_le.mp hlt, hlive⟩ hs
      have hbelow := h.below s hs
      refine List.mem_append_right _ (List.mem_range'_1.mpr ⟨hle, ?_⟩)
      omega
  have hlength := (List.subperm_of_subset hnodup hsub).length_le
  rw [List.length_append, List.length_map, hlinked.length_rows, List.length_range',
    h.length_visited] at hlength
  exact hlength

theorem Progress.orderly (h : x.Progress c) {complete : Bool}
    (hc : containerAt? objects x.container = some c)
    (hend : complete = true → FirstAfter c.store.chain.Live x.visited.getLast? none) :
    Passage.Orderly ⟨x, objects, complete⟩ where
  toFaithful := h.toFaithful
  reached {d s} hcomplete hd hs := by
    rw [hc] at hd
    cases hd
    rcases h.reached hs with hmem | hafter
    · exact hmem
    · exact absurd hafter (hend hcomplete s hs)
  bounded := by
    obtain ⟨b, hb, hlinked, hbc⟩ := h.opened
    exact ⟨b, c, hb, hc, hbc.fresh, h.length_le hb hlinked⟩

end Course

end LiveOrder
