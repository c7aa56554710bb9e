import LiveOrder.Proofs.Scripts.Basic

/-!
# Worlds whose cursors have a place

A release and a whole walk are loops, and user code runs in their rounds.  That they end by themselves
depends on little: a cursor moves on in the order of insertion, since the stores are sound and it has the
pin of its place, and what is released is not there any more.

* `Answer.Whole`     no loop was given up, at any depth;
* `World.upTo`       the world with another limit on the rounds of its loops;
* `World.Footed`     the stores are sound, and every cursor has the pin of its place;
* `Unmoved`, `Slight`   no cursor has moved and no container holds anything new; all else that an action
                     may change without running an operation;
* `Footed.slight`, `.rows`, `.storing`, `.append`   how changes of the world keep it so.
-/

namespace LiveOrder

/-! ## answers -/

/-- A loop was given up at the limit on its rounds. -/
def Failure.GivenUp : Failure → Prop
  | .exhausted => True
  | _ => False

abbrev Event.Whole : Event → Prop := Event.Throughout (fun e => ¬e.GivenUp) fun _ => True

abbrev Visit.Whole : Visit → Prop := Visit.Throughout (fun e => ¬e.GivenUp) fun _ => True

abbrev Result.Whole : Result → Prop := Result.Throughout (fun e => ¬e.GivenUp) fun _ => True

abbrev Answer.Whole : Answer → Prop := Answer.Throughout (fun e => ¬e.GivenUp) fun _ => True

/-! ## worlds -/

namespace World

/-- The world with another limit on the rounds of its loops. -/
def upTo (w : World) (n : Nat) : World := { w with limits := { w.limits with rounds := n } }

/-- The stores are sound, and every cursor has the pin of its place; some more pins are in hand. -/
structure Footed (w : World) (pins : List (Nat × Nat)) : Prop where
  walks : Table.Distinct w.walks
  freshWalk : ∀ {id}, w.freshWalk ≤ id → Table.get? id w.walks = none
  stores : ∀ {r c}, containerAt? w.cells r = some c →
    ∃ all, c.store.Sound all ∧ ∀ s, (pins ++ places w.walks).count (r, s) ≤ all s
  fresh : ∀ {r}, w.fresh ≤ r →
    Table.get? r w.cells = none ∧ ∀ s, (pins ++ places w.walks).count (r, s) = 0
  frames : ∀ log ∈ w.frames, ∀ e ∈ log, e.Whole

end World

/-- No cursor has moved, and no container holds anything new. -/
structure Unmoved (w v : World) : Prop where
  walks : v.walks = w.walks
  fresh : v.fresh = w.fresh
  stores : ∀ {r c}, containerAt? v.cells r = some c →
    ∃ d, containerAt? w.cells r = some d ∧ d.store = c.store

/-- A change that every action may make, even if it runs no operation. -/
structure Slight (w v : World) : Prop extends Unmoved w v where
  freshWalk : v.freshWalk = w.freshWalk
  cells : ∀ {r}, Table.get? r w.cells = none → Table.get? r v.cells = none
  frames : (∀ log ∈ w.frames, ∀ e ∈ log, e.Whole) → ∀ log ∈ v.frames, ∀ e ∈ log, e.Whole
  spent : v.spent = w.spent
  limits : v.limits = w.limits

/-- What an action does to the world that runs no operation is a slight change at least. -/
class Lax (R : World → World → Prop) : Prop extends IsTrans World R where
  of_unmoved : ∀ {w v}, Unmoved w v → R w v

/-- Nothing is said. -/
def Anyhow (_ _ : World) : Prop := True

section
variable {w v z : World} {pins : List (Nat × Nat)}

theorem Unmoved.refl (w : World) : Unmoved w w := ⟨rfl, rfl, fun hc => ⟨_, hc, rfl⟩⟩

theorem Unmoved.trans (h : Unmoved w v) (h' : Unmoved v z) : Unmoved w z where
  walks := h'.walks.trans h.walks
  fresh := h'.fresh.trans h.fresh
  stores hc := by
    obtain ⟨d, hd, hstore⟩ := h'.stores hc
    obtain ⟨e, he, hstore'⟩ := h.stores hd
    exact ⟨e, he, hstore'.trans hstore⟩

instance : Lax Unmoved where
  trans _ _ _ := Unmoved.trans
  of_unmoved := id

instance : Lax Anyhow where
  trans _ _ _ _ _ := trivial
  of_unmoved _ := trivial

/-- Neither objects nor cursors nor logs change. -/
theorem Slight.of_same
    (h : (v.cells, v.fresh, v.walks, v.freshWalk, v.frames, v.spent, v.limits) =
      (w.cells, w.fresh, w.walks, w.freshWalk, w.frames, w.spent, w.limits)) : Slight w v := by
  simp only [Prod.mk.injEq] at h
  obtain ⟨hcells, hfresh, hwalks, hfreshWalk, hframes, hspent, hlimits⟩ := h
  exact ⟨⟨hwalks, hfresh, fun hc => ⟨_, hcells ▸ hc, rfl⟩⟩, hfreshWalk, fun hr => hcells ▸ hr,
    fun hlogs => hframes ▸ hlogs, hspent, hlimits⟩

theorem Slight.refl (w : World) : Slight w w := .of_same rfl

/-- Objects may go away or change, but no container holds anything new. -/
theorem Slight.of_cells {cells : Objects}
    (hstores : ∀ {r c}, containerAt? cells r = some c →
      ∃ d, containerAt? w.cells r = some d ∧ d.store = c.store)
    (hcells : ∀ {r}, Table.get? r w.cells = none → Table.get? r cells = none) :
    Slight w { w with cells } :=
  ⟨⟨rfl, rfl, hstores⟩, rfl, hcells, id, rfl, rfl⟩

theorem Slight.of_change {r : Nat} {f : Cell → Cell}
    (hstores : ∀ {q c}, containerAt? (Table.change r f w.cells) q = some c →
      ∃ d, containerAt? w.cells q = some d ∧ d.store = c.store) :
    Slight w { w with cells := Table.change r f w.cells } :=
  .of_cells hstores fun {q} hq => by
    rw [Table.get?_change, hq]
    exact ite_self _

theorem Slight.of_frames {frames : List (List Event)}
    (h : (∀ log ∈ w.frames, ∀ e ∈ log, e.Whole) → ∀ log ∈ frames, ∀ e ∈ log, e.Whole) :
    Slight w { w with frames } :=
  ⟨⟨rfl, rfl, fun hc => ⟨_, hc, rfl⟩⟩, rfl, id, h, rfl, rfl⟩

theorem World.Footed.slight (h : w.Footed pins) (hs : Slight w v) : v.Footed pins where
  walks := hs.walks ▸ h.walks
  freshWalk hid := by
    rw [hs.walks]
    exact h.freshWalk (hs.freshWalk ▸ hid)
  stores hc := by
    obtain ⟨d, hd, hstore⟩ := hs.stores hc
    rw [hs.walks, ← hstore]
    exact h.stores hd
  fresh hr := by
    obtain ⟨hnone, hzero⟩ := h.fresh (hs.fresh ▸ hr)
    exact ⟨hs.cells hnone, hs.walks ▸ hzero⟩
  frames := hs.frames h.frames

end

namespace World

open Table

variable {w : World} {pins pins' : List (Nat × Nat)} {r id : Nat} {c : Container}

theorem count_pinned (r q s : Nat) (s? : Option Nat) :
    (pinned r s?).count (q, s) = if q = r ∧ s? = some s then 1 else 0 := by
  cases s? with
  | none => simp [pinned]
  | some u =>
    simp only [pinned, Option.map_some, Option.toList_some, List.count_singleton, beq_iff_eq,
      Prod.mk.injEq, Option.some.injEq, @eq_comm _ q r]

namespace Footed

/-- Pins that are in hand need not be counted. -/
theorem drop (h : w.Footed (pins' ++ pins)) : w.Footed pins where
  walks := h.walks
  freshWalk := h.freshWalk
  stores hc := by
    obtain ⟨all, hsound, hle⟩ := h.stores hc
    refine ⟨all, hsound, fun s => Nat.le_trans ?_ (hle s)⟩
    simp only [List.count_append]
    omega
  fresh hr := by
    obtain ⟨hnone, hzero⟩ := h.fresh hr
    refine ⟨hnone, fun s => ?_⟩
    have hs := hzero s
    simp only [List.count_append] at hs ⊢
    omega
  frames := h.frames

/-- Cursors come, go and move, and take pins that are in hand. -/
theorem rows (h : w.Footed pins) {walks : List (Nat × Walk)} {freshWalk : Nat}
    (hwalks : Distinct walks) (hfresh : ∀ {id}, freshWalk ≤ id → get? id walks = none)
    (hpins : (pins' ++ places walks).Subperm (pins ++ places w.walks)) :
    { w with walks, freshWalk }.Footed pins' where
  walks := hwalks
  freshWalk := hfresh
  stores hc := by
    obtain ⟨all, hsound, hle⟩ := h.stores hc
    exact ⟨all, hsound, fun s => Nat.le_trans (hpins.count_le _) (hle s)⟩
  fresh hr := ⟨(h.fresh hr).1, fun s =>
    Nat.eq_zero_of_le_zero (Nat.le_trans (hpins.count_le _) (Nat.le_of_eq ((h.fresh hr).2 s)))⟩
  frames := h.frames

theorem lt_freshWalk {x : Walk} (h : w.Footed pins) (hx : get? id w.walks = some x) :
    id < w.freshWalk := Nat.lt_of_not_le fun hle => by
  rw [h.freshWalk hle] at hx
  cases hx

/-- A new cursor has no place yet. -/
theorem openWalk {x : Walk} (h : w.Footed pins) (hx : x.place? = none) :
    { w with walks := w.walks ++ [(w.freshWalk, x)], freshWalk := w.freshWalk + 1 }.Footed pins := by
  have hnone := h.freshWalk (Nat.le_refl w.freshWalk)
  refine h.rows (h.walks.append hnone x) (fun {j} hj => ?_) ?_
  · rw [get?_append, h.freshWalk (Nat.le_of_succ_le hj)]
    exact if_neg (Nat.ne_of_gt hj)
  · unfold places
    rw [List.filterMap_append, List.filterMap_cons, hx]
    simp [List.Subperm.refl]

/-- A cursor leaves its place, and the pin there is in hand. -/
theorem depart {x y : Walk} (h : w.Footed pins) (hx : get? id w.walks = some x) (hy : y.place? = none) :
    { w with walks := put id y w.walks }.Footed (x.place?.toList ++ pins) := by
  refine h.rows (h.walks.put id y) (fun {j} hj => ?_) ?_
  · rw [get?_put, if_neg (Nat.ne_of_gt (Nat.lt_of_lt_of_le (h.lt_freshWalk hx) hj))]
    exact h.freshWalk hj
  · rw [places_put, hy, List.append_assoc]
    exact (List.perm_append_comm_assoc _ _ _).subperm.trans
      ((places_of_get? h.walks hx).symm.append_left pins).subperm

/-- A cursor takes a place, of which the pin is in hand. -/
theorem land {x : Walk} (h : w.Footed (x.place?.toList ++ pins)) (hlt : id < w.freshWalk) :
    { w with walks := put id x w.walks }.Footed pins := by
  refine h.rows (h.walks.put id x) (fun {j} hj => ?_) ?_
  · rw [get?_put, if_neg (Nat.ne_of_gt (Nat.lt_of_lt_of_le hlt hj))]
    exact h.freshWalk hj
  · rw [places_put, List.append_assoc]
    refine (List.perm_append_comm_assoc _ _ _).subperm.trans ?_
    exact (((List.filter_sublist.filterMap _).append_left _).append_left _).subperm

/-- A cursor is given up, and the pin that it had is in hand. -/
theorem close {x : Walk} (h : w.Footed pins)
    (hx : get? id w.walks = some x ∨ get? id w.walks = none ∧ x.place? = none) :
    { w with walks := Table.erase id w.walks }.Footed (x.place?.toList ++ pins) := by
  refine h.rows (h.walks.erase id) (fun {j} hj => ?_) ?_
  · rw [get?_erase]
    split
    · rfl
    · exact h.freshWalk hj
  · rw [List.append_assoc]
    refine (List.perm_append_comm_assoc _ _ _).subperm.trans ?_
    rcases hx with hx | ⟨hnone, hplace⟩
    · exact ((places_of_get? h.walks hx).symm.append_left pins).subperm
    · rw [hplace, erase_of_get?_eq_none hnone]
      exact .refl _

/-- A store counts the pin that is in hand. -/
theorem store_sound {from? : Option Nat} (h : w.Footed (pinned r from? ++ pins))
    (hc : containerAt? w.cells r = some c) : ∃ all, c.store.Sound (Chain.pinOn from? all) ∧
      ∀ s, (pins ++ places w.walks).count (r, s) ≤ all s := by
  obtain ⟨all, hsound, hle⟩ := h.stores hc
  have hall : all = Chain.pinOn from? fun s => all s - if from? = some s then 1 else 0 := by
    funext s
    have hs := hle s
    simp only [List.count_append, count_pinned, true_and] at hs
    unfold Chain.pinOn
    split at hs <;> simp only [*, if_true, if_false] <;> omega
  refine ⟨_, hall ▸ hsound, fun s => ?_⟩
  have hs := hle s
  simp only [List.count_append, count_pinned, true_and] at hs ⊢
  omega

/-- A store operation, which moves a pin. -/
theorem storing {α : Type} {from? : Option Nat} {taken : Hands}
    {f : Store Item → Except Fault (α × Store Item)} {given : α → Hands} {to? : α → Option Nat}
    (h : w.Footed (pinned r from? ++ pins)) (hc : containerAt? w.cells r = some c)
    (hf : Moves f taken from? given to?) :
    ∃ y t, f c.store = .ok (y, t) ∧
      ∀ d : Container, d.store = t → (w.changed r d).Footed (pinned r (to? y) ++ pins) := by
  obtain ⟨all, hsound, hle⟩ := h.store_sound hc
  obtain ⟨y, t, hy, ht, _⟩ := hf c.store _ hsound
  refine ⟨y, t, hy, fun d hd => ⟨h.walks, h.freshWalk, fun {q e} he => ?_, fun {q} hq => ?_, h.frames⟩⟩
  · rcases containerAt?_setContainer hc he with ⟨rfl, rfl⟩ | ⟨hne, he⟩
    · refine ⟨_, hd ▸ ht, fun s => ?_⟩
      have hs := hle s
      show (pinned q (to? y) ++ pins ++ places w.walks).count (q, s) ≤ _
      simp only [List.count_append, count_pinned, true_and, Chain.pinOn] at hs ⊢
      omega
    · obtain ⟨all', hsound', hle'⟩ := h.stores he
      refine ⟨all', hsound', fun s => ?_⟩
      have hs := hle' s
      simp only [List.count_append, count_pinned, hne, false_and, if_false] at hs
      show (pinned r (to? y) ++ pins ++ places w.walks).count (q, s) ≤ _
      simp only [List.count_append, count_pinned, hne, false_and, if_false]
      exact hs
  · obtain ⟨hnone, hzero⟩ := h.fresh hq
    have hne : q ≠ r := by
      rintro rfl
      obtain ⟨n, hn⟩ := containerAt?_eq_some_iff.mp hc
      rw [hnone] at hn
      cases hn
    refine ⟨?_, fun s => ?_⟩
    · unfold changed
      rw [get?_change, if_neg hne]
      exact hnone
    · have hs := hzero s
      simp only [List.count_append, count_pinned, hne, false_and, if_false] at hs
      show (pinned r (to? y) ++ pins ++ places w.walks).count (q, s) = 0
      simp only [List.count_append, count_pinned, hne, false_and, if_false]
      exact hs

/-- A new object. -/
theorem append (h : w.Footed pins) {body : Body} {n : Nat}
    (hbody : ∀ c, body.container? = some c → c.store.Sound fun _ => 0) :
    { w with cells := w.cells ++ [(w.fresh, (⟨n, body⟩ : Cell))], fresh := w.fresh + 1 }.Footed pins where
  walks := h.walks
  freshWalk := h.freshWalk
  stores {q c} hc := by
    rcases containerAt?_append hc with ⟨rfl, hnew⟩ | hold
    · exact ⟨_, hbody c hnew, fun s => Nat.le_of_eq ((h.fresh (Nat.le_refl _)).2 s)⟩
    · exact h.stores hold
  fresh {q} hq := by
    have hle : w.fresh < q := hq
    obtain ⟨hnone, hzero⟩ := h.fresh (Nat.le_of_lt hle)
    refine ⟨?_, hzero⟩
    rw [get?_append, hnone]
    exact if_neg (Nat.ne_of_gt hle)
  frames := h.frames

end Footed

end World

end LiveOrder
