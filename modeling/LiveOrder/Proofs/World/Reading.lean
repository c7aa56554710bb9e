import LiveOrder.Proofs.World.Cursor
import LiveOrder.Proofs.World.Written

/-!
# What is read belongs to the reader

* `readValue_owns`, `readQuery_owns`, `readEntries_owns`   terms are read, and give handles;
* `withValue_safe`, `withQuery_safe`, `withTarget_safe`    what was read is lent to an operation and
  given up after it.
-/

namespace LiveOrder.World

open Act Situation

variable {run : Runner} {α : Type} {lent : Hands} {p : α → Prop}

/-! ## values and keys -/

theorem readNamed_owns (name : String) (wanted : Body → Bool) (otherwise : Misuse) :
    Owns lent (0 : Hands) (readNamed name wanted otherwise) (fun r => ↑(handles [r])) 0 := by
  refine (named_owns name (.refl _)).bind fun r => ?_
  refine (cell_owns (.of_fact fun w hw => hw)).bind fun d => ?_
  split
  · refine Owns.bind (retain_owns (.of_fact fun w hw => hw.1)) fun _ => .pure ?_
    exact entails_of_eq (zero_add _)
  · exact .throw id (entails_hands _)

/-- What the world holds can be copied. -/
theorem copyValue_held_owns {w : World} {v : Value} (hv : handles v.refs ⊆ w.loose) :
    Owns lent ⟨0, fun u => u = w ∧ True⟩ (copyValue v) (fun v => ↑(handles v.refs)) 0 := by
  refine Owns.bind (b := fun _ => ⟨0 + handles v.refs, fun w => ∀ q ∈ [], w.Has q⟩) ?_ fun _ => .pure ?_
  · refine (retainAll_owns v.refs []).weaken (fun others u hu => ⟨hu.1, fun q hq => ?_⟩) fun _ => .refl _
    obtain ⟨rfl, _⟩ := hu.2
    rw [List.append_nil] at hq
    refine hu.1.exists_of_mem_assets (Multiset.mem_add.mpr (.inr (hv ?_)))
    exact handle_mem_handles.mpr hq
  · exact fun _ _ hu => ⟨hu.1.of_eq (by show _ + _ = _ + (0 + _); rw [zero_add]), trivial⟩

/-- The receiver and the arguments of the innermost call are copied. -/
theorem readCall_owns {f : Call → Value} (hf : ∀ c, (f c).refs ⊆ c.refs) :
    Owns lent (0 : Hands) (do
      match (← get).calls with
      | call :: _ => copyValue (f call)
      | [] => throw (.misuse .value)) (fun v => ↑(handles v.refs)) 0 := by
  refine Owns.get.bind fun w => ?_
  split
  · rename_i call rest hcalls
    refine copyValue_held_owns fun a ha => ?_
    obtain ⟨r, hr, rfl⟩ := mem_handles_iff.mp ha
    unfold World.loose
    rw [hcalls, List.flatMap_cons]
    simp [hf call hr]
  · exact .throw id (entails_hands _)

theorem readValue_owns (t : Term) :
    Owns lent (0 : Hands) (readValue t) (fun v => ↑(handles v.refs)) 0 := by
  have hnamed : ∀ name wanted, Owns lent (0 : Hands) (readNamed name wanted .value)
      (fun r => ↑(handles [r])) 0 := fun name wanted => readNamed_owns name wanted .value
  fun_cases readValue t with
  | case9 name => exact (hnamed name _).bind fun r => .pure (.refl _)
  | case10 name => exact (hnamed name _).bind fun r => .pure (.refl _)
  | case11 name => exact (hnamed name _).bind fun r => .pure (.refl _)
  | case12 name => exact (hnamed name _).bind fun r => .pure (.refl _)
  | case13 =>
    exact readCall_owns fun c => List.subset_append_left _ _
  | case14 i =>
    refine readCall_owns (f := fun c => c.args.getD i .undefined) fun c r hr => ?_
    rw [List.getD_eq_getElem?_getD] at hr
    cases hi : c.args[i]? with
    | none =>
      rw [hi] at hr
      cases hr
    | some v =>
      rw [hi] at hr
      exact List.mem_flatMap.mpr ⟨v, List.mem_cons_of_mem _ (List.mem_of_getElem? hi), hr⟩
  | case15 => exact .throw id (.refl _)
  | _ => exact .pure (.refl _)

/-- The key of the innermost visit is there to be copied. -/
theorem copyVisiting_owns {w : World} {k : Key} {rest : List Key} (hvisiting : w.visiting = k :: rest) :
    Owns lent ⟨0, fun v => v = w ∧ True⟩ (copyKey k) (fun k' => ↑(handles k'.refs)) 0 := by
  have hcopy : Owns lent ⟨0, fun v => v = w ∧ True⟩ (copyKey k)
      (fun k' => ⟨0 + handles k.refs, fun v => k' = k ∧ ∀ q ∈ [], v.Has q⟩) 0 := by
    refine (copyKey_owns k []).weaken (fun others v hv => ⟨hv.1, fun q hq => ?_⟩) fun _ => .refl _
    obtain ⟨rfl, _⟩ := hv.2
    rw [List.append_nil] at hq
    refine hv.1.exists_of_mem_assets (Multiset.mem_add.mpr (.inr ?_))
    unfold World.loose
    rw [hvisiting, List.flatMap_cons, handles_append]
    simp only [Multiset.mem_add, handle_mem_handles, hq, true_or, or_true]
  refine hcopy.weaken (.refl _) fun k' _ v hv => ⟨?_, trivial⟩
  rw [hv.2.1]
  exact hv.1.of_eq (congrArg _ (zero_add _).symm)

theorem readQuery_owns (t : Term) :
    Owns lent (0 : Hands) (readQuery t) (fun q => ↑(handles q.key.refs)) 0 := by
  have hnamed : ∀ name wanted, Owns lent (0 : Hands) (readNamed name wanted .key)
      (fun r => ↑(handles [r])) 0 := fun name wanted => readNamed_owns name wanted .key
  fun_induction readQuery t with
  | case8 atomic name => exact (hnamed name _).bind fun r => .pure (.refl _)
  | case9 name => exact (hnamed name _).bind fun r => .pure (.refl _)
  | case10 name => exact (hnamed name _).bind fun r => .pure (.refl _)
  | case11 t => exact (readValue_owns t).bind fun v => .pure (.refl _)
  | case12 t ih => exact ih.bind fun q => .pure (.refl _)
  | case13 t ih => exact ih.bind fun q => .pure (.refl _)
  | case14 t body ih => exact ih.bind fun q => .pure (.refl _)
  | case15 =>
    refine Owns.get.bind fun w => ?_
    split
    · rename_i hvisiting
      exact (copyVisiting_owns hvisiting).bind fun k => .pure (.refl _)
    · exact .throw id (entails_hands _)
  | case16 => exact .throw id (.refl _)
  | _ => exact .pure (.refl _)

theorem readQueryFor_owns (kind : Kind) (t : Term) :
    Owns lent (0 : Hands) (readQueryFor kind t) (fun q => ↑(handles q.key.refs)) 0 := by
  have hvalue : Owns lent (0 : Hands) (do pure (Query.plain (.value (← readValue t))))
      (fun q => ↑(handles q.key.refs)) 0 :=
    (readValue_owns t).bind fun v => .pure (.refl _)
  cases kind with
  | map => exact readQuery_owns t
  | set => exact readQuery_owns t
  | scriptMap => exact hvalue
  | scriptSet => exact hvalue
  | object =>
    cases t with
    | property s => exact .pure (.refl _)
    | _ => exact .throw id (.refl _)

theorem supply_owns : Owns lent (0 : Hands) supply (fun id => ↑(tracking id + permit id)) 0 :=
  fun _ _ _ hw => ⟨⟨(hw.1.of_eq (add_zero _).symm).supply, trivial⟩, .of_same rfl rfl⟩

theorem readItem_owns (kind : Kind) (payload : Payload) :
    Owns lent (0 : Hands) (readItem kind payload) (fun i => ↑i.offered) 0 := by
  fun_cases readItem kind payload with
  | case1 n onRelease onCopy => exact supply_owns.bind fun id => .pure (.refl _)
  | case2 t => exact (readValue_owns t).bind fun v => .pure (entails_of_eq (add_zero _).symm)
  | case3 t => exact (readValue_owns t).bind fun v => .pure (entails_of_eq (add_zero _).symm)
  | case4 => exact .pure (.refl _)
  | case5 => exact .pure (.refl _)
  | case6 => exact .throw id (.refl _)

/-! ## entries -/

section
variable (hrun : run.Safe)
include hrun

/-- A key with what is to be stored under it. -/
theorem readEntry_owns (kind : Kind) (t : Term) (payload : Payload) :
    Owns lent (0 : Hands)
      (do
        let q ← readQueryFor kind t
        let item ← Act.onFailure (readItem kind payload) (discard run [.key q.key])
        pure (q, item))
      (fun e => ↑(entriesOf [e])) 0 := by
  refine (readQueryFor_owns kind t).bind fun q => ?_
  have hitem : Owns (lent + handles q.key.refs) (0 : Hands) (readItem kind payload)
      (fun i => ↑i.offered) 0 := readItem_owns kind payload
  refine Owns.bind (hitem.keep (discardKey_owns hrun q.key)) fun i => .pure (entails_of_eq ?_)
  simp [entriesOf, add_comm]

theorem readEntriesAfter_owns (kind : Kind) (done : List (Query × Item))
    (entries : List (Term × Payload)) :
    Owns lent (entriesOf done) (readEntriesAfter run kind done entries)
      (fun l => ↑(entriesOf l)) 0 := by
  induction entries generalizing done with
  | nil => exact .pure (.refl _)
  | cons entry rest ih =>
    have hone : Owns (lent + entriesOf done) (0 : Hands) _
        (fun e => ↑(entriesOf [e])) 0 := readEntry_owns hrun kind entry.1 entry.2
    refine Owns.bind (hone.keep (discardEntries_owns hrun done)) fun e => ?_
    apply (ih (done ++ [e])).of_eq
    rw [entriesOf_append, add_comm]

theorem readEntries_owns (kind : Kind) (entries : List (Term × Payload)) :
    Owns lent (0 : Hands) (readEntries run kind entries) (fun l => ↑(entriesOf l)) 0 :=
  readEntriesAfter_owns hrun kind [] entries

/-! ## for the time of an operation -/

theorem discardValue_owns (v : Value) :
    Owns lent (handles v.refs) (discardValue run v) (fun _ => (0 : Hands)) 0 :=
  discardItem_owns hrun (.value v)

theorem withValue_safe (t : Term) {body : Value → Act α}
    (hbody : ∀ v, Safe (lent + handles v.refs) (body v) p) : Safe lent (withValue run t body) p := by
  exact (readValue_owns t).bind fun v => (hbody v).ending (discardValue_owns hrun v)

theorem withValue?_safe (t? : Option Term) {body : Option Value → Act α}
    (hbody : ∀ v? : Option Value, Safe (lent + handles (v?.elim [] Value.refs)) (body v?) p) :
    Safe lent (withValue? run t? body) p := by
  cases t? with
  | none => exact Owns.lend (hbody none) (by simp)
  | some t => exact withValue_safe hrun t fun v => hbody (some v)

theorem withQuery_safe (kind : Kind) (t : Term) {body : Query → Act α}
    (hbody : ∀ q, Safe (lent + handles q.key.refs) (body q) p) :
    Safe lent (withQuery run kind t body) p := by
  exact (readQueryFor_owns kind t).bind fun q => (hbody q).ending (discardKey_owns hrun q.key)

omit hrun in
theorem readBinding_owns (target : Target) :
    Owns lent (0 : Hands) (readBinding target) (fun b => ↑b.assets) 0 := by
  cases target with
  | named name =>
    refine (binding_owns name (.refl _)).bind fun b => ?_
    refine Owns.bind (b := fun _ => ⟨0 + handles b.refs, fun w => ∀ q ∈ [], w.Has q⟩) ?_ fun _ => .pure ?_
    · refine (retainAll_owns b.refs []).weaken (fun _ w hw => ⟨hw.1, ?_⟩) fun _ => .refl _
      rw [List.append_nil]
      exact hw.2
    · exact fun _ _ hw => ⟨hw.1.of_eq (by show _ + _ = _ + (0 + _); rw [zero_add]; rfl), trivial⟩
  | value t =>
    refine (readValue_owns t).bind fun v => ?_
    cases v with
    | object r => exact .pure (.refl _)
    | function r => exact .pure (.refl _)
    | map r => exact .pure (.refl _)
    | set r => exact .pure (.refl _)
    | _ => exact .throw id (.refl _)

theorem withTarget_safe (target : Target) {body : Nat → Act α}
    (hbody : ∀ r, Safe (lent + handles [r]) (body r) p) :
    Safe lent (withTarget run target body) p := by
  cases target with
  | named name => exact (named_owns name (.refl _)).bind fun r => holding_owns hrun (hbody r)
  | value t =>
    refine withValue_safe hrun t fun v => ?_
    split
    · rename_i r hrefs
      rw [hrefs]
      exact hbody r
    · exact .throw id

theorem withContainer_owns (target : Target) {body : Nat → Kind → Act α}
    (hbody : ∀ r kind, Owns (lent + handles [r]) ⟨0, fun w => w.HasContainer r⟩ (body r kind)
      (fun y => plain 0 (p y)) 0) :
    Safe lent (withContainer run target body) p := by
  refine withTarget_safe hrun target fun r => of_container (.of_lent (by simp)) (.refl _)
    (Owns.bind (container_owns fun _ => And.right) fun c => ?_)
  exact (hbody r c.kind).weaken (fun _ _ hw => ⟨hw.1, c, hw.2.2⟩) fun _ => .refl _

theorem withContainer_safe (target : Target) {body : Nat → Kind → Act α}
    (hbody : ∀ r kind, Safe (lent + handles [r]) (body r kind) p) :
    Safe lent (withContainer run target body) p :=
  withContainer_owns hrun target fun r kind => Owns.weaken (hbody r kind) (entails_hands _) fun _ => .refl _

end

end LiveOrder.World
