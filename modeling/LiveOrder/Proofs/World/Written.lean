import LiveOrder.Proofs.World.Access
import LiveOrder.World.Written

/-!
# Writing changes nothing

* `Act.Observes`       an action that leaves the world as it was, whether it fails or not;
* `sharing_observes`   a shared access does so, if what is done inside it does;
* `size_observes`, `displayKey_observes`, `debugText_observes`   containers in writing.
-/

namespace LiveOrder

namespace Act

open Situation

variable {α β : Type} {w : World} {x : Act α} {f : α → Act β}

def Observes (x : Act α) (w : World) : Prop :=
  ∃ outcome, x w = (outcome, w) ∧ Outcome Anything outcome

theorem Observes.pure (r : α) : (Pure.pure r : Act α).Observes w := ⟨.ok r, rfl, trivial⟩

theorem Observes.throw {e : Failure} (he : ¬e.Internal) :
    (MonadExcept.throw e : Act α).Observes w := ⟨.error e, rfl, he⟩

theorem Observes.bind (hx : x.Observes w) (hf : ∀ r, (f r).Observes w) : (x >>= f).Observes w := by
  obtain ⟨outcome, he, ho⟩ := hx
  unfold Observes
  rw [bind_apply, he]
  cases outcome with
  | ok r => exact hf r
  | error e => exact ⟨.error e, rfl, ho⟩

theorem Observes.mapM {l : List α} (hf : ∀ a ∈ l, (f a).Observes w) : (l.mapM f).Observes w := by
  induction l with
  | nil => exact .pure []
  | cons a rest ih =>
    rw [List.mapM_cons]
    refine (hf a List.mem_cons_self).bind fun b => ?_
    exact (ih fun a' ha => hf a' (List.mem_cons_of_mem a ha)).bind fun more => .pure _

/-- An action that only observes may be done in any situation. -/
theorem Observes.owns {lent left : Hands} {a : Situation} (hl : a.Entails left)
    (hx : ∀ others w, lent ⊆ others → a.Holds others w → x.Observes w) :
    Owns lent a x (fun _ => a) left := by
  intro others w hlent hw
  obtain ⟨outcome, he, ho⟩ := hx others w hlent hw
  rw [he]
  cases outcome with
  | ok r => exact ⟨hw, .refl w⟩
  | error e => exact ⟨ho, (hl others w hw).1, (Steady.refl w).opened⟩

end Act

namespace World

open Act Situation

variable {α : Type} {w : World} {hands lent : Hands} {r : Nat} {c d : Container} {x : Act α}

/-! ## access -/

theorem sharing_observes (hw : w.InOrder hands) (hr : w.Has r)
    (hx : ∀ c n, containerAt? w.cells r = some c → c.access = .shared n →
      x.Observes (w.changed r (c.beingRead n))) : (sharing r x).Observes w := by
  unfold Observes
  rcases beginShared_cases hr with ⟨c, n, hc, ha⟩ | ⟨e, hi, he⟩
  · obtain ⟨outcome, hox, ho⟩ := hx c n hc ha
    have hend := endReading_eq ha (containerAt?_changed hc (c.beingRead n)) rfl
    have hback : (w.changed r (c.beingRead n)).changed r ((c.beingRead n).usedAs c) = w :=
      (changed_changed _).trans (changed_self hw.cells hc)
    rw [hback] at hend
    rw [sharing_eq hc ha, always_apply, hox]
    cases outcome with
    | ok y =>
      dsimp only
      rw [hend]
      exact ⟨_, rfl, trivial⟩
    | error e =>
      dsimp only
      rw [hend]
      exact ⟨_, rfl, Failure.not_internal_leaving ho fun f hf => by cases hf⟩
  · rw [sharing, bind_apply, he]
    exact ⟨.error e, rfl, hi⟩

theorem cell_observes (hr : w.Has r) : (cell r).Observes w := by
  obtain ⟨d, hd⟩ := hr
  exact ⟨.ok d, cell_eq hd, trivial⟩

theorem container_observes (hr : w.Has r) : (container r).Observes w := by
  rcases container_cases hr with ⟨c, _, he⟩ | he
  · exact ⟨.ok c, he, trivial⟩
  · exact ⟨_, he, id⟩

theorem size_observes (hw : w.InOrder hands) (hr : w.Has r) : (size r).Observes w :=
  sharing_observes hw hr fun _ _ hc _ =>
    ⟨_, readStore_eq (containerAt?_changed hc _) rfl, trivial⟩

theorem size_safe (hr : .handle r ∈ lent) : Safe lent (size r) Anything :=
  Observes.owns (.refl _) fun others w hlent hw =>
    size_observes hw.1 (Sees.of_lent (a := ((0 : Hands) : Situation)) hr others w hlent hw)

/-! ## writing -/

theorem displayValue_observes (hw : w.InOrder hands) (v : Value) (spread : Bool)
    (hv : ∀ r ∈ v.refs, w.Has r) : (v.display facts spread : Act String).Observes w := by
  cases v with
  | object r => exact (size_observes hw (hv r List.mem_cons_self)).bind fun _ => .pure _
  | map r => exact (size_observes hw (hv r List.mem_cons_self)).bind fun _ => .pure _
  | set r => exact (size_observes hw (hv r List.mem_cons_self)).bind fun _ => .pure _
  | _ => exact .pure _

theorem displayKey_observes (hw : w.InOrder hands) (k : Key) (spread : Bool)
    (hk : ∀ r ∈ k.refs, w.Has r) : (k.display facts spread : Act String).Observes w := by
  induction k with
  | map r => exact (size_observes hw (hk r List.mem_cons_self)).bind fun _ => .pure _
  | set r => exact (size_observes hw (hk r List.mem_cons_self)).bind fun _ => .pure _
  | value v => exact displayValue_observes hw v spread hk
  | reference k ih => exact ih hk
  | shared atomic r =>
    have hcontent : (facts.content r).Observes w := by
      refine (cell_observes (hk r List.mem_cons_self)).bind fun d => ?_
      split
      · exact .pure _
      · exact .throw id
    exact hcontent.bind fun _ => .pure _
  | _ => exact .pure _

theorem displayItem_observes (hw : w.InOrder hands) (spread : Bool) (i : Item)
    (hi : ∀ r ∈ i.refs, w.Has r) : (displayItem spread i).Observes w := by
  cases i with
  | value v => exact displayValue_observes hw v spread hi
  | _ => exact .pure _

theorem debugText_observes (hw : w.InOrder hands) (hr : w.Has r) (spread : Bool) :
    (debugText r spread).Observes w := by
  refine (container_observes hr).bind fun c => ?_
  split
  · exact (size_observes hw hr).bind fun _ => .pure _
  split
  · exact .pure _
  refine sharing_observes hw hr fun d n hd ha => ?_
  -- the entries are those of the store, and what they refer to is still there
  have hin := containerAt?_changed hd (d.beingRead n)
  have hv : (w.changed r (d.beingRead n)).InOrder hands :=
    hw.use hd rfl rfl ((hw.books.guarded hd).reading ha)
  obtain ⟨entries, hread, hheld⟩ : ∃ entries, d.store.entries = .ok entries ∧
      ∀ e ∈ entries, e ∈ d.store.held :=
    ⟨_, Store.entries_spec (hw.books.stores hd),
      Store.entries_held (hw.books.stores hd) (Store.entries_spec (hw.books.stores hd))⟩
  have hhas : ∀ e ∈ entries, ∀ q ∈ e.1.refs ++ e.2.refs,
      (w.changed r (d.beingRead n)).Has q :=
    fun e he => has_of_held hv hin (hheld e he)
  have hkey : ∀ e ∈ entries, (e.1.display facts spread : Act String).Observes
      (w.changed r (d.beingRead n)) := fun e he =>
    displayKey_observes hv e.1 spread fun q hq => hhas e he q (List.mem_append_left _ hq)
  unfold Observes
  rw [bind_apply, readStore_eq hin hread]
  dsimp only
  change Observes _ _
  split
  · exact (Observes.mapM hkey).bind fun _ => .pure _
  · refine (Observes.mapM fun e he => ?_).bind fun _ => .pure _
    refine (hkey e he).bind fun _ => Observes.bind ?_ fun _ => .pure _
    exact displayItem_observes hv spread e.2 fun q hq => hhas e he q (List.mem_append_right _ hq)

end World

end LiveOrder
