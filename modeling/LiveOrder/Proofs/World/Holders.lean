import LiveOrder.Proofs.World.Quiet
import LiveOrder.Proofs.World.Steps
import LiveOrder.Proofs.World.Values

/-!
# Who holds what

An object is there as long as somebody holds it.  The world holds objects by names, by cursors that have
not come to the end, by what containers store, live or removed, and by the visits and calls that are
going on; whoever is at work may have some more in hand.

* `World.held`         the objects that the world holds, once for each handle;
* `World.Lifetimes`    an object is there if and only if it is held, and its handles are counted;
* `World.Releases`     what becomes of an object, and of what it holds, when a handle on it is given up;
* `lifetime`           all of this in every run, between its operations and inside of them.

Pieces whose release was given up at the limit of a run still hold what they held.
-/

namespace LiveOrder

open World Table

namespace Debris

def refs : Debris → List Nat
  | .item i => i.refs
  | .key k => k.refs
  | .handle r => [r]

end Debris

namespace Body

/-- The objects that an object holds, once for each handle: entry by entry, removed ones included. -/
def refs (b : Body) : List Nat := b.contents.flatMap Debris.refs

end Body

section
variable {r : Nat}

theorem Item.count_handle_assets (i : Item) : i.assets.count (.handle r) = i.refs.count r := by
  cases i <;> simp [Item.assets, Item.refs]

theorem Debris.count_handle_assets (d : Debris) : d.assets.count (.handle r) = d.refs.count r := by
  cases d with
  | item i => exact i.count_handle_assets
  | key k => exact count_handle_handles
  | handle q => exact count_handle_handles

theorem count_handle_piecesOf (pieces : List Debris) :
    (piecesOf pieces).count (.handle r) = (pieces.flatMap Debris.refs).count r := by
  induction pieces with
  | nil => rfl
  | cons d rest ih =>
    rw [piecesOf_cons, Multiset.count_add, d.count_handle_assets, ih, List.flatMap_cons,
      List.count_append]

theorem Walk.count_handle_assets (x : Walk) : x.assets.count (.handle r) = x.store.toList.count r := by
  obtain ⟨_ | q, last⟩ := x
  · rfl
  · exact (Multiset.count_add _ _ _).trans (by simp)

theorem Table.count_handle_total {κ α : Type} {f : α → Hands} {g : α → List Nat} {t : List (κ × α)}
    (h : ∀ row ∈ t, (f row.2).count (.handle r) = (g row.2).count r) :
    (total f t).count (.handle r) = (t.flatMap fun row => g row.2).count r := by
  induction t with
  | nil => rfl
  | cons row rest ih =>
    rw [total_cons, Multiset.count_add, List.flatMap_cons, List.count_append,
      h row List.mem_cons_self, ih fun row hrow => h row (List.mem_cons_of_mem _ hrow)]

end

namespace World

/-! ## holders -/

/-- The objects that are held from outside, once for each handle: by names, by cursors that have not come
to the end, and by visits and calls that are going on. -/
def rooted (w : World) : List Nat :=
  w.names.flatMap (·.2.refs) ++ w.walks.flatMap (·.2.store.toList) ++ w.visiting.flatMap Key.refs ++
    w.calls.flatMap Call.refs

/-- The objects that the world holds, once for each handle. -/
def held (w : World) : List Nat :=
  w.rooted ++ w.cells.flatMap (·.2.body.refs) ++ w.abandoned.flatMap Debris.refs

/-- Somebody holds the object: the world, or whoever is at work. -/
def Holds (w : World) (hands : Hands) (r : Nat) : Prop := r ∈ w.held ∨ .handle r ∈ hands

/-- The life of all objects, when some are in hand. -/
structure Lifetimes (w : World) (hands : Hands) : Prop where
  alive : ∀ r, (get? r w.cells).isSome ↔ w.Holds hands r
  counted : ∀ {r d}, get? r w.cells = some d →
    d.handles = w.held.count r + hands.count (.handle r)
  /-- a container holds its entries and what it retains of removed ones -/
  contents : ∀ {r c}, containerAt? w.cells r = some c → ∃ entries, c.store.entries = .ok entries ∧
    c.store.contents.Perm (entries ++ c.store.retained)
  /-- a cursor that has not come to the end keeps its container, and can go on -/
  walking : ∀ {id x}, get? id w.walks = some x → x.Readable w.cells
  /-- nothing is given up but at the limit of the run -/
  patient : w.abandoned = [] ∨ w.limits.rounds ≤ w.discarded

namespace InOrder

variable {w : World} {hands : Hands} {r : Nat} {d : Cell}

theorem count_handle_body (h : w.InOrder hands) (hd : get? r w.cells = some d) (q : Nat) :
    d.body.assets.count (.handle q) = d.body.refs.count q := by
  rw [← piecesOf_contents fun c hc => h.books.stores (r := r) ?_]
  · exact count_handle_piecesOf _
  · unfold containerAt?
    rw [hd]
    exact hc

theorem count_held (h : w.InOrder hands) (r : Nat) : w.assets.count (.handle r) = w.held.count r := by
  have hnames : (total Binding.assets w.names).count (.handle r) =
      (w.names.flatMap (·.2.refs)).count r := count_handle_total fun row _ => count_handle_handles
  have hwalks : (total Walk.assets w.walks).count (.handle r) =
      (w.walks.flatMap (·.2.store.toList)).count r :=
    count_handle_total (g := fun x : Walk => x.store.toList) fun row _ => row.2.count_handle_assets
  have hcells : (total Cell.assets w.cells).count (.handle r) =
      (w.cells.flatMap (·.2.body.refs)).count r :=
    count_handle_total (g := fun d : Cell => d.body.refs) fun row hrow =>
      h.count_handle_body (get?_of_mem h.cells (show (row.1, row.2) ∈ w.cells from hrow)) r
  have hiterators : (total Iterator.assets w.iterators).count (.handle r) = 0 := by
    refine Multiset.count_eq_zero.mpr fun hm => ?_
    obtain ⟨row, _, hm⟩ := Table.mem_total.mp hm
    cases mem_cursorAt.mp hm
  have hleaks : ((w.leaks.map fun p => Asset.pin p.1 p.2 : List Asset) : Hands).count (.handle r) =
      0 := Multiset.count_eq_zero.mpr fun hm => by simp at hm
  unfold assets loose held rooted
  simp only [Multiset.count_add, List.count_append, hnames, hwalks, hcells, hiterators, hleaks,
    count_handle_handles, count_handle_piecesOf]
  omega

theorem handles_eq (h : w.InOrder hands) (r : Nat) :
    handlesAt w.cells r = w.held.count r + hands.count (.handle r) := by
  rw [h.books.counted, Multiset.count_add, h.count_held]

theorem lifetimes (h : w.InOrder hands) : w.Lifetimes hands where
  alive r := by
    have hcount := h.handles_eq r
    unfold Holds
    rw [← List.count_pos_iff, ← Multiset.count_pos, ← Nat.add_pos_iff_pos_or_pos, ← hcount]
    unfold handlesAt
    cases hd : get? r w.cells with
    | none => simp
    | some d => simpa using h.books.shared hd
  counted {r d} hd := by
    have hcount := h.handles_eq r
    rwa [handlesAt, hd, Option.map_some, Option.getD_some] at hcount
  contents hc := by
    have hs := h.books.stores hc
    obtain ⟨entries, he, _, hheld⟩ := Store.held_spec hs
    exact ⟨entries, he, (Store.contents_perm hs).trans hheld⟩
  walking hx := h.readable hx
  patient := h.patient

end InOrder

/-! ## releases -/

section
variable {run : Runner} {w v : World} {others hands : Hands} {r id : Nat} {d : Cell}

theorem discardWithin_handle (hd : get? r w.cells = some d) (n : Nat) (rest : List Debris) :
    discardWithin run (n + 1) (.handle r :: rest) w =
      if d.handles ≤ 1 then discardWithin run n (d.body.contents ++ rest)
        { w with cells := erase r w.cells, discarded := w.discarded + 1 }
      else discardWithin run n rest { w with
        cells := change r (fun e => { e with handles := d.handles - 1 }) w.cells
        discarded := w.discarded + 1 } := by
  have hrelease : discardOne run (.handle r) { w with discarded := w.discarded + 1 } = _ :=
    releaseHandle_eq hd
  have hstep : discardWithin run (n + 1) (.handle r :: rest) w =
      (Act.onFailure (discardOne run (.handle r)) (discardWithin run n rest) >>= fun more =>
        discardWithin run n (more ++ rest)) { w with discarded := w.discarded + 1 } := rfl
  rw [hstep]
  split at hrelease
  all_goals rename_i hhandles; rw [Act.bind_of_ok (Act.onFailure_eq_ok.mpr hrelease)]
  · rw [if_pos hhandles]
  · rw [if_neg hhandles]
    rfl

/-- What becomes of an object when somebody gives up a handle on it. -/
structure Releases (run : Runner) (w : World) (others : Hands) (r : Nat) : Prop where
  /-- as long as somebody holds it, it stays, and nothing is released with the handle -/
  shared : w.Holds others r → ∃ d, get? r w.cells = some d ∧ 1 < d.handles ∧ ∀ n rest,
    discardWithin run (n + 1) (.handle r :: rest) w = discardWithin run n rest { w with
      cells := change r (fun e => { e with handles := d.handles - 1 }) w.cells
      discarded := w.discarded + 1 }
  /-- with its last handle it goes away, and what it holds is released next, before anything else -/
  last : ¬w.Holds others r → ∃ d, get? r w.cells = some d ∧ d.handles = 1 ∧ ∀ n rest,
    discardWithin run (n + 1) (.handle r :: rest) w = discardWithin run n (d.body.contents ++ rest)
      { w with cells := erase r w.cells, discarded := w.discarded + 1 }
  /-- it does not come back, whatever user code does; afterwards again what is held is there, and nothing
  else is -/
  gone : ∀ v, (discard run [.handle r] w).2 = v → v.InOrder others ∧ v.Lifetimes others ∧
    (¬w.Holds others r → 0 < w.limits.rounds → get? r v.cells = none)
  /-- what it alone held goes away with it, if no user code runs meanwhile -/
  cascade : ∀ v d q, (discard run [.handle r] w).2 = v → ¬w.Holds others r →
    ¬Reacts w.cells (.handle r) → get? r w.cells = some d → w.held.count q = d.body.refs.count q →
    .handle q ∉ others → v.discarded < v.limits.rounds → get? q v.cells = none

/-- The handle that is given up is the only one. -/
theorem InOrder.handles_of_last (hw : w.InOrder (others + handles [r]))
    (hd : get? r w.cells = some d) : d.handles = w.held.count r + others.count (.handle r) + 1 := by
  rw [hw.lifetimes.counted hd, Multiset.count_add, count_handle_handles, List.count_singleton_self,
    add_assoc]

theorem InOrder.holds_iff (hw : w.InOrder (others + handles [r])) (hd : get? r w.cells = some d) :
    w.Holds others r ↔ 1 < d.handles := by
  rw [hw.handles_of_last hd, Holds, ← List.count_pos_iff, ← Multiset.count_pos]
  omega

theorem count_held_cell (hcells : Distinct w.cells) (hd : get? r w.cells = some d) (q : Nat) :
    w.held.count q = w.rooted.count q + d.body.refs.count q +
      ((erase r w.cells).flatMap (·.2.body.refs)).count q +
        (w.abandoned.flatMap Debris.refs).count q := by
  have hperm := (perm_of_get? hcells hd).flatMap_right (·.2.body.refs)
  unfold held
  rw [List.count_append, List.count_append, hperm.count_eq, List.flatMap_cons, List.count_append,
    ← add_assoc (List.count q w.rooted)]

/-- An object goes away, and no user code runs: what it alone held is held by nobody any more. -/
theorem Kept.notMem_held (h : w.Kept v) (hw : Distinct w.cells) (hv : Distinct v.cells)
    (hd : get? r w.cells = some d) (hgone : get? r v.cells = none) (habandoned : v.abandoned = [])
    {q : Nat} (halone : w.held.count q = d.body.refs.count q) : q ∉ v.held := by
  have hsplit := count_held_cell hw hd q
  have hroots := h.roots
  simp only [World.roots, Prod.mk.injEq] at hroots
  obtain ⟨hnames, hvisiting, hcalls⟩ := hroots
  unfold held rooted
  rw [hnames, hvisiting, hcalls, h.walks, habandoned, List.flatMap_nil, List.append_nil]
  intro hq
  rcases List.mem_append.mp hq with hq | hq
  · have hpos : 0 < w.rooted.count q := List.count_pos_iff.mpr hq
    omega
  · obtain ⟨⟨p, e⟩, hrow, hq⟩ := List.mem_flatMap.mp hq
    have he : get? p v.cells = some e := get?_of_mem hv hrow
    obtain ⟨f, hf, hbody⟩ := h.bodies he
    have hne : p ≠ r := by
      rintro rfl
      rw [hgone] at he
      cases he
    have hrest : get? p (erase r w.cells) = some f := by rw [get?_erase, if_neg hne, hf]
    have hpos : 0 < ((erase r w.cells).flatMap (·.2.body.refs)).count q :=
      List.count_pos_iff.mpr (List.mem_flatMap.mpr ⟨_, mem_of_get? hrest, hbody ▸ hq⟩)
    omega

theorem discardHandle_order (hrun : run.Safe) (hw : w.InOrder (others + handles [r])) :
    (discard run [.handle r] w).2.InOrder others ∧ Steady w (discard run [.handle r] w).2 := by
  obtain ⟨outcome, v, he, hv, hon⟩ := (discard_settles hrun [.handle r]).apply
    (Multiset.zero_subset others) ⟨hw.of_eq (congrArg _ (add_zero _).symm), trivial⟩
  rw [he]
  cases outcome with
  | ok _ => exact ⟨hv.1.of_eq (add_zero others).symm, hon⟩
  | error e => exact ⟨hv.1.of_eq (add_zero others).symm, hon⟩

theorem releases_of_inOrder (hrun : run.Safe) (hw : w.InOrder (others + handles [r])) :
    w.Releases run others r := by
  obtain ⟨d, hd⟩ := hw.exists_of_mem (mem_add_handles others r)
  have hgone : ∀ v, (discard run [.handle r] w).2 = v → v.InOrder others ∧ v.Lifetimes others ∧
      (¬w.Holds others r → 0 < w.limits.rounds → get? r v.cells = none) := by
    rintro v rfl
    obtain ⟨hv, _⟩ := discardHandle_order hrun hw
    refine ⟨hv, hv.lifetimes, fun hlast hrounds => ?_⟩
    have hone : d.handles ≤ 1 := Nat.le_of_not_lt fun hlt => hlast ((hw.holds_iff hd).mpr hlt)
    obtain ⟨outcome, v, he, _, _, hgone⟩ := discardHandle_destroys hrun hw hd hone hrounds
    rw [he]
    exact hgone
  refine ⟨fun hholds => ⟨d, hd, (hw.holds_iff hd).mp hholds, fun n rest => ?_⟩,
    fun hlast => ⟨d, hd, ?_, fun n rest => ?_⟩, hgone, ?_⟩
  · rw [discardWithin_handle hd, if_neg (Nat.not_le.mpr ((hw.holds_iff hd).mp hholds))]
  · have hpos := hw.books.shared hd
    rw [hw.holds_iff hd] at hlast
    omega
  · rw [discardWithin_handle hd, if_pos (Nat.le_of_not_lt fun hlt => hlast ((hw.holds_iff hd).mpr hlt))]
  · rintro v d' q hv hlast hquiet hd' halone hothers hlimit
    cases hd.symm.trans hd'
    obtain ⟨hv', hlife, hdestroyed⟩ := hgone v hv
    have hrounds : 0 < w.limits.rounds := by
      have hlimits := (discardHandle_order hrun hw).2.limits
      rw [hv] at hlimits
      exact hlimits ▸ Nat.zero_lt_of_lt hlimit
    refine Option.not_isSome_iff_eq_none.mp fun hq => ?_
    have hkept : w.Kept v := hv ▸ discard_kept fun p hp => List.mem_singleton.mp hp ▸ hquiet
    have habandoned : v.abandoned = [] := hv'.patient.resolve_right (Nat.not_le.mpr hlimit)
    rcases (hlife.alive q).mp hq with hheld | hheld
    · exact hkept.notMem_held hw.cells hv'.cells hd (hdestroyed hlast hrounds) habandoned halone hheld
    · exact hothers hheld

end

end World

open World in
/-- An object is there as long as somebody holds it: between the operations of a run, when the world does,
and inside of them, when the world does or whoever is at work.  With its last handle it goes away at once,
and what it held is released next, which may be the last handle on other objects.

A cursor keeps its container, and can go on in it, until it has come to the end; then it holds nothing, and
yields nothing ever after. -/
theorem lifetime :
    (∀ (limits : Limits) (tracing snapshots : Bool) (ops : List Op) (w : World),
      (Program.runFrom snapshots (.initial limits tracing) ops).2 = w →
      w.Lifetimes 0 ∧ w.visiting = [] ∧ w.calls = [] ∧
      (∀ m ∈ w.moments, ∀ id x, get? id m.walks = some x → x.Readable m.objects) ∧
      ∀ id more, id < w.freshWalk → w.Done id → (Program.runFrom snapshots w more).2.Done id) ∧
    ∀ (depth : Nat) (hands : Hands) (w : World), w.InOrder hands →
      w.Lifetimes hands ∧
      (∀ steps v, (runSteps depth steps w).2 = v → v.InOrder hands ∧ v.Lifetimes hands ∧
        ∀ id, id < w.freshWalk → w.Done id → v.Done id) ∧
      (∀ others r, hands = others + handles [r] → w.Releases (runSteps depth) others r) ∧
      (∀ others id kind selection v, hands = others + cursorAt id none →
        advance (runSteps depth) id kind selection w = (.ok none, v) →
        id < v.freshWalk ∧ v.Done id) ∧
      ∀ id kind selection, w.Done id → advance (runSteps depth) id kind selection w = (.ok none, w) := by
  refine ⟨?_, fun depth hands w hw => ⟨hw.lifetimes, ?_, ?_, ?_, ?_⟩⟩
  · rintro limits tracing snapshots ops w rfl
    obtain ⟨_, hw, _⟩ := Program.runFrom_spec (resting_initial limits tracing) snapshots ops
    refine ⟨hw.lifetimes, hw.visiting, hw.calls, fun m hm id x hx => (hw.moments m hm).walking hx,
      fun id more hid hdone => ?_⟩
    exact (Program.runFrom_spec hw snapshots more).2.2.done hid hdone
  · rintro steps v rfl
    obtain ⟨outcome, v, he, hv, hon⟩ := (runSteps_safe depth 0 steps).apply
      (Multiset.zero_subset hands) ⟨hw.of_eq (add_zero hands), trivial⟩
    rw [he]
    have hv' : v.InOrder hands := by
      cases outcome with
      | ok _ => exact hv.1.of_eq (add_zero hands).symm
      | error e => exact hv.1.of_eq (add_zero hands).symm
    exact ⟨hv', hv'.lifetimes, fun id => hon.done⟩
  · rintro others r rfl
    exact releases_of_inOrder (runSteps_safe depth) hw
  · rintro others id kind selection v rfl h
    exact done_of_advance (runSteps_safe depth) hw h
  · exact fun id kind selection h => advance_of_done (runSteps depth) kind selection h

/-- A set that holds a map alone, and a cursor on it when its name is gone. -/
def nesting : List Op :=
  [.container .map "inner" [(.text .slice "a", .tracked 1 none none)],
    .container .set "outer" [(.map "inner", .unit)], .unbind "inner",
    .iterate (.named "outer") .keys "i", .unbind "outer"]

/-- The set has a name, and the map has none any more. -/
def stowed : World := (Program.runFrom false (.initial ⟨100, 4, 20⟩ false) (nesting.take 3)).2

theorem stowed_resting : stowed.Resting :=
  (Program.runFrom_spec (resting_initial ⟨100, 4, 20⟩ false) false (nesting.take 3)).2.1

/-- The cursor keeps the set, and the set the map; both go away when the cursor is closed, and so they do
with the name of the set. -/
theorem lifetime_nesting :
    (∃ w v, (Program.runFrom false (.initial ⟨100, 4, 20⟩ false) nesting).2 = w ∧
      (Program.runFrom false (.initial ⟨100, 4, 20⟩ false) (nesting ++ [.close "i"])).2 = v ∧
      w.Lifetimes 0 ∧ w.rooted = [1] ∧ w.held = [1, 0] ∧ v.Lifetimes 0 ∧ v.held = [] ∧
      (v.cells.map (·.1)) = []) ∧
    ∃ w v, w.InOrder (0 + handles [1]) ∧ ¬w.Holds 0 1 ∧ (Table.get? 0 w.cells).isSome ∧
      (World.discard (World.runSteps 4) [.handle 1] w).2 = v ∧
      Table.get? 1 v.cells = none ∧ Table.get? 0 v.cells = none := by
  refine ⟨?_, ?_⟩
  · have hw := lifetime.1 ⟨100, 4, 20⟩ false false nesting _ rfl
    have hv := lifetime.1 ⟨100, 4, 20⟩ false false (nesting ++ [.close "i"]) _ rfl
    exact ⟨_, _, rfl, rfl, hw.1, by decide +kernel, by decide +kernel, hv.1, by decide +kernel,
      by decide +kernel⟩
  · have hname : (get? "outer" stowed.names).map Binding.refs = some [1] := by decide +kernel
    have hheld : { stowed with names := erase "outer" stowed.names }.held = [0] := by decide +kernel
    have hcalm : calm stowed.cells = true := by decide +kernel
    have hbody : (get? 1 stowed.cells).map (·.body.refs) = some [0] := by decide +kernel
    have hrounds : 0 < stowed.limits.rounds := by decide +kernel
    have hlimit : let v := (discard (runSteps 4) [.handle 1]
        { stowed with names := erase "outer" stowed.names }).2
        v.discarded < v.limits.rounds := by decide +kernel
    have hstowed := stowed_resting
    generalize stowed = w at *
    have hw := hstowed.unbind "outer"
    obtain ⟨b, hb, hrefs⟩ := Option.map_eq_some_iff.mp hname
    rw [hb, Option.elim_some, Binding.assets, hrefs] at hw
    obtain ⟨d, hd, hbody⟩ := Option.map_eq_some_iff.mp hbody
    have hreleases := (lifetime.2 4 _ _ hw).2.2.1 0 1 rfl
    have hlast : ¬{ w with names := erase "outer" w.names }.Holds 0 1 := by
      unfold Holds
      rw [hheld]
      simp
    obtain ⟨_, _, hgone⟩ := hreleases.gone _ rfl
    refine ⟨_, _, hw, hlast, ?_, rfl, hgone hlast hrounds, ?_⟩
    · refine (hw.lifetimes.alive 0).mpr (.inl ?_)
      rw [hheld]
      simp
    · refine hreleases.cascade _ d 0 rfl hlast (not_reacts_of_calm hcalm rfl) hd ?_
        (Multiset.notMem_zero _) hlimit
      rw [hheld, hbody]

end LiveOrder
