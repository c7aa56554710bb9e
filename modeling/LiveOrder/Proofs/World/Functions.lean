import LiveOrder.Proofs.World.Reading
import LiveOrder.Proofs.World.Scope
import LiveOrder.Proofs.World.Walks
import LiveOrder.World.Functions

/-!
# Functions and realms in order

* `invoke_owns`         a call borrows its receiver and its arguments, and gives its result;
* `callbackArgs_owns`   what a cursor yielded becomes the arguments of a callback;
* `realmForEach_safe`   a walk that calls a function at every entry.
-/

namespace LiveOrder.World

open Act Situation

variable {run : Runner} {lent h left : Hands} {r : Nat}

/-- A function that is there stays one. -/
theorem setFunction_owns {n : Nat} {f f' : FunctionBody} :
    Owns lent ⟨h, fun w => Table.get? r w.cells = some ⟨n, .function f⟩⟩ (setBody r (.function f'))
      (fun _ => h) left := by
  refine .modify fun others w hw => ⟨⟨hw.1.setFunction hw.2, trivial⟩,
    .of_forms (fun q form hf => ?_) fun q c => containerAt?_of_setPlain rfl⟩
  unfold formAt at hf ⊢
  rw [Table.get?_change] at hf
  split at hf
  · rename_i hq
    rw [hq, hw.2] at hf ⊢
    exact hf
  · exact hf

section
variable (hrun : run.Safe)
include hrun

theorem invoke_owns {f : Nat} {receiver : Value} {args : List Value} (hf : .handle f ∈ lent)
    (hr : handles receiver.refs ⊆ lent) (hargs : handles (args.flatMap Value.refs) ⊆ lent) :
    Owns lent (0 : Hands) (invoke run f receiver args) (fun v => ↑(handles v.refs)) 0 := by
  refine (cell_owns (.of_lent hf)).bind fun d => ?_
  obtain ⟨n, body⟩ := d
  cases body with
  | container c => exact .throw id (entails_hands _)
  | allocation s => exact .throw id (entails_hands _)
  | function b =>
    refine .get_bind fun w => ?_
    have hset : Owns lent ⟨0, fun w => True ∧ Table.get? f w.cells = some ⟨n, .function b⟩⟩
        (setBody f (.function { b with calls := b.calls + 1 })) (fun _ => (0 : Hands)) 0 :=
      setFunction_owns.weaken (fun _ _ hw => ⟨hw.1, hw.2.2⟩) fun _ => .refl _
    have hbody : Owns lent (0 : Hands)
        (do
          let acts ← if b.calls < b.limit then run b.body else pure []
          let result ← Act.attempt (enclosed run (readValue b.result))
          pure (acts, result.toOption.getD .undefined))
        (fun y : List Answer × Value => plain (handles y.2.refs) (∀ a ∈ y.1, a.Clean)) 0 := by
      have hresult : ∀ acts : List Answer, (∀ a ∈ acts, a.Clean) → Owns lent (0 : Hands)
          (do
            let result ← Act.attempt (enclosed run (readValue b.result))
            pure (acts, result.toOption.getD .undefined))
          (fun y : List Answer × Value => plain (handles y.2.refs) (∀ a ∈ y.1, a.Clean)) 0 := by
        intro acts hacts
        refine Owns.bind (enclosed_settles hrun (readValue_owns b.result)) fun result => ?_
        cases result with
        | ok v => exact .pure (entails_plain hacts)
        | error e => exact .pure fun _ w hw => ⟨hw.1, hacts⟩
      dsimp only
      split
      · exact (hrun.run lent b.body).before hresult
      · exact hresult [] nofun
    refine hset.bind fun _ => ?_
    refine (duringCall_owns hrun hr hargs hbody fun y => discardValue_owns hrun y.2).bind fun y => ?_
    exact .of_plain fun hacts => (log_owns (.called hacts)).bind fun _ => .pure (.refl _)

omit hrun in
theorem receiverFor_owns {realm : Realm} {given : Option Value} (hrealm : .handle realm.global ∈ lent)
    (hgiven : handles (given.elim [] Value.refs) ⊆ lent) :
    Owns lent (0 : Hands) (receiverFor realm given) (fun v => ↑(handles v.refs)) 0 := by
  have hcopy : ∀ v : Value, handles v.refs ⊆ lent →
      Owns lent (0 : Hands) (copyValue v) (fun v => ↑(handles v.refs)) 0 := by
    intro v hv
    refine (copyValue_lent_owns (by rwa [add_zero])).weaken (.refl _) fun v' _ w hw =>
      ⟨hw.1.of_eq ?_, trivial⟩
    show _ = _ + (0 + handles v.refs)
    rw [hw.2, zero_add]
  have hunbound : Owns lent (0 : Hands) (receiverFor.unbound realm) (fun v => ↑(handles v.refs)) 0 := by
    unfold receiverFor.unbound
    split
    · exact .pure (.refl _)
    · exact hcopy (.object realm.global) (Multiset.singleton_subset.mpr hrealm)
  cases given with
  | none => exact hunbound
  | some v =>
    unfold receiverFor
    dsimp only
    split
    · exact hunbound
    · exact hcopy v hgiven

/-- The arguments of a callback hold what the cursor yielded, and the container. -/
theorem callbackArgs_owns (hr : .handle r ∈ lent) (kind : Kind) (y : Yield) :
    Owns lent y.assets (callbackArgs run r kind y)
      (fun args => ↑(handles (args.flatMap Value.refs))) 0 := by
  fun_cases callbackArgs run r kind y with
  | case1 k v =>
    refine (retain_owns (.of_lent hr)).bind fun _ => .pure (entails_of_eq ?_)
    rw [Yield.assets_entry, List.flatMap_cons, List.flatMap_cons, List.flatMap_singleton]
    simp only [handles_append]
    show handles k.refs + handles v.refs + handles [r] =
      handles v.refs + (handles k.refs + handles [r])
    abel
  | case2 k =>
    have hk : handles k.refs ⊆ lent + (Yield.key (.value k)).assets := by
      rw [Yield.assets_key]
      exact Multiset.subset_of_le (Multiset.le_add_left _ _)
    refine (copyValue_lent_owns hk).bind fun again => .of_plain fun hagain => ?_
    refine (retain_owns (.of_lent hr)).bind fun _ => .pure (entails_of_eq ?_)
    subst hagain
    have hcontainer : (if kind.isSet then Value.set r else .map r).refs = [r] := by
      split <;> rfl
    rw [Yield.assets_key, List.flatMap_cons, List.flatMap_cons, List.flatMap_singleton, hcontainer]
    simp only [handles_append]
    exact add_assoc _ _ _
  | case3 y =>
    exact (discard_of_eq_owns hrun rfl).bind fun _ => .throw id (.refl _)

/-- A callback at an entry: what it is given is released after it, and then its result. -/
theorem callback_owns {f : Nat} {receiver : Value} (hr : .handle r ∈ lent) (hf : .handle f ∈ lent)
    (hreceiver : handles receiver.refs ⊆ lent) (kind : Kind) (y : Yield) :
    Owns lent y.assets
      (do
        let args ← callbackArgs run r kind y
        let release := discard run (args.map fun v => .item (.value v))
        let result ← Act.onFailure (invoke run f receiver args) release
        Act.onFailure release (discardValue run result)
        discardValue run result) (fun _ => plain 0 (Anything ())) 0 := by
  refine (callbackArgs_owns hrun hr kind y).bind fun args => ?_
  have hinvoke : Owns (lent + handles (args.flatMap Value.refs)) (0 : Hands) (invoke run f receiver args)
      (fun v => ↑(handles v.refs)) 0 :=
    invoke_owns hrun (Multiset.mem_add.mpr (.inl hf)) (Multiset.Subset.trans hreceiver (subset_add _ _))
      (Multiset.subset_of_le (Multiset.le_add_left _ _))
  dsimp only
  refine Owns.bind (hinvoke.keep (discardValues_owns hrun args)) fun result => ?_
  have hargs : Owns (lent + handles result.refs) (handles (args.flatMap Value.refs)) _ _ 0 :=
    discardValues_owns hrun args
  refine Owns.bind ((hargs.rescue (discardValue_owns hrun result)).of_eq (add_comm _ _)) fun _ => ?_
  exact (discardValue_owns hrun result).of_eq (zero_add _)

theorem realmForEach_safe {realm : Realm} {kind : Kind} {callback : Value} {given : Option Value}
    (hrealm : .handle realm.global ∈ lent) (hr : .handle r ∈ lent)
    (hcallback : handles callback.refs ⊆ lent)
    (hgiven : handles (given.elim [] Value.refs) ⊆ lent) :
    Safe lent (realmForEach run realm r kind callback given) Anything := by
  unfold realmForEach
  split
  · exact (tell_owns _).bind fun _ => .throw id (.refl _)
  · rename_i f hf
    have hfunction : .handle f ∈ lent := by
      cases callback with
      | function q =>
        cases hf
        exact hcallback (by simp [Value.refs])
      | _ => cases hf
    refine (receiverFor_owns hrealm hgiven).bind fun receiver => ?_
    have hwalk : Safe (lent + handles receiver.refs) (forEach run r _) _ :=
      forEach_safe hrun (Multiset.mem_add.mpr (.inl hr)) fun _ => callback_owns hrun
        (Multiset.mem_add.mpr (.inl hr)) (Multiset.mem_add.mpr (.inl hfunction))
        (Multiset.subset_of_le (Multiset.le_add_left _ _)) kind
    exact Safe.ending (hwalk.bind fun _ _ => .pure trivial) (discardValue_owns hrun receiver)

omit hrun in
theorem constructing_safe (typeName : String) (plain : Bool) :
    Safe lent (constructing typeName plain) Anything := by
  unfold constructing
  split
  · exact (tell_owns _).bind fun _ => .throw id (.refl _)
  · exact .pure trivial

end

end LiveOrder.World
