import LiveOrder.Proofs.World.Functions
import LiveOrder.World.Perform

/-!
# Operations in order

* `bindName_owns`, `install_owns`   what a name is bound to is the world's;
* `consume_owns`, `visit_owns`      what a cursor yielded is used up;
* `perform_safe`    one operation takes nothing and gives nothing, if the programs inside it are safe.
-/

namespace LiveOrder.World

open Act Situation

variable {run : Runner} {lent : Hands} {r : Nat}

/-! ## names and iterators -/

theorem takeIterator_owns (it : String) :
    Owns lent (0 : Hands) (takeIterator it) (fun x => ↑x.assets) 0 := by
  refine Owns.get.bind fun w => ?_
  cases hx : Table.get? it w.iterators with
  | none => exact .throw nofun (entails_hands _)
  | some x =>
    refine Owns.bind (b := fun _ => (x.assets : Hands)) (.modify fun others v hv => ?_) fun _ =>
      .pure (.refl _)
    obtain ⟨rfl, _⟩ := hv.2
    have htake := hv.1.takeIterator it
    rw [hx, add_assoc] at htake
    refine ⟨⟨htake.of_eq ?_, trivial⟩, .of_same rfl rfl⟩
    show others + x.assets = others + (0 + x.assets)
    rw [zero_add]

section
variable (hrun : run.Safe)
include hrun

theorem bindName_owns (name : String) (b : Binding) :
    Owns lent b.assets (bindName run name b) (fun _ => (0 : Hands)) 0 := by
  have hrebind : Owns lent b.assets (rebind name b)
      (fun old => ↑(0 + old.elim 0 Binding.assets)) 0 :=
    (rebind_owns name b).of_eq (zero_add _).symm
  refine hrebind.bind fun old => ?_
  cases old with
  | none => exact .pure (.refl _)
  | some old => exact (discardHandles_owns hrun old.refs).of_eq (zero_add _)

theorem install_owns (it : String) (x : Iterator) :
    Owns lent x.assets (install run it x) (fun _ => (0 : Hands)) 0 := by
  refine Owns.get.bind fun w => Owns.bind (b := fun _ =>
    ↑((Table.get? it w.iterators).elim 0 Iterator.assets)) (.modify fun others v hv => ?_) fun _ => ?_
  · obtain ⟨rfl, _⟩ := hv.2
    exact ⟨⟨hv.1.putIterator it, trivial⟩, .of_same rfl rfl⟩
  · cases Table.get? it w.iterators with
    | none => exact .pure (.refl _)
    | some old => exact closeWalk_owns hrun old.walk

/-- An iterator comes back to its name, also when the operation on it fails. -/
theorem withIterator_safe {α : Type} {p : α → Prop} (it : String) {body : Iterator → Act α}
    (hbody : ∀ x, Owns lent x.assets (body x) (fun y => plain x.assets (p y)) x.assets) :
    Safe lent (withIterator run it body) p := by
  refine (takeIterator_owns it).bind fun x => ?_
  refine (hbody x).always (fun y => .of_plain fun hp => ?_) (install_owns hrun it x)
  exact (install_owns hrun it x).weaken (.refl _) fun _ => entails_plain hp

/-! ## parts of operations -/

theorem consume_owns (kind : Kind) (y : Yield) :
    Owns lent y.assets (consume run kind y) (fun s => plain 0 (Anything s)) 0 :=
  .get_bind fun _ => (discard_of_eq_owns hrun rfl).bind fun _ => .pure (entails_plain trivial)

theorem build_owns (kind : Kind) (entries : List (Query × Item)) :
    Owns lent (entriesOf entries) (build run kind entries) (fun r => ↑(handles [r])) 0 := by
  refine (newContainer_owns kind).bind fun r => ?_
  have hput := (putEach_owns hrun (mem_add_handles lent r) entries).rescue
    (discardHandle_owns hrun r)
  exact hput.bind fun _ => .pure (entails_of_eq (zero_add _))

theorem store_safe (hr : .handle r ∈ lent) (kind : Kind) (entries : List (Term × Payload)) :
    Safe lent (store run r kind entries) Anything := by
  have hall : ∀ l, Safe lent (do putEach run r (← readEntries run kind l)) Anything := fun l =>
    (readEntries_owns hrun kind l).bind fun l => (putEach_owns hrun hr l).weaken (.refl _) fun _ => .refl _
  cases kind with
  | object => exact .forM fun entry => hall [entry]
  | map => exact hall entries
  | set => exact hall entries
  | scriptMap => exact hall entries
  | scriptSet => exact hall entries

omit hrun in
theorem require_safe (known : Bool) : Safe lent (require known) Anything := by
  unfold require
  split
  · exact .pure trivial
  · exact .throw id

theorem insert_owns (hr : .handle r ∈ lent) (kind : Kind) (q : Query) (item : Item) :
    Owns lent ↑(handles q.key.refs + item.offered) (insert run r kind q item)
      (fun y => plain 0 y.Clean) 0 := by
  refine (upsert_owns hrun hr q item).bind fun outcome => ?_
  cases outcome with
  | inserted s =>
    refine .pure (entails_plain ?_)
    split
    · exact .of_plain rfl
    · exact .of_plain rfl
  | updated s key previous =>
    dsimp only
    split
    · exact (discardPair_owns hrun key previous).bind fun _ => .pure (entails_plain (.of_plain rfl))
    · have hkey : Owns (lent + previous.assets) (handles key.refs) (discard run [.key key]) _ 0 :=
        discardKey_owns hrun key
      refine Owns.bind ((hkey.rescue (discardItem_owns hrun previous)).weaken (.refl _)
        fun _ => entails_of_eq (zero_add _)) fun _ => .get_bind fun w => ?_
      exact (discardItem_owns hrun previous).bind fun _ => .pure (entails_plain (.of_plain rfl))

theorem nextShown_owns (x : Iterator) :
    Owns lent x.assets (nextShown run x) (fun s => plain x.assets (Anything s)) x.assets := by
  refine (advance_owns hrun x.walk x.kind x.selection).bind fun y? => ?_
  cases y? with
  | none => exact .pure (entails_plain trivial)
  | some y => exact used_owns (consume_owns hrun x.kind y)

theorem nextEach_owns (x : Iterator) (n : Nat) :
    Owns lent x.assets (nextEach run x n) (fun l => plain x.assets (Anything l)) x.assets := by
  induction n with
  | zero => exact .pure (entails_plain trivial)
  | succ n ih =>
    refine (nextShown_owns hrun x).bind fun s => .of_plain fun _ => ih.bind fun rest => ?_
    exact .pure (plain_entails fun _ => trivial)

omit hrun in
theorem subset_yieldKey {y : Yield} {k : Key} (hk : yieldKey y = some k) :
    handles k.refs ⊆ y.assets := by
  intro a ha
  cases y <;> cases hk <;> simp [ha]

theorem visit_owns (kind : Kind) (each : List Step) (atVisit : List (Nat × List Step))
    (limit n : Nat) (y : Yield) :
    Owns lent y.assets (visit run kind each atVisit limit n y) (fun v => plain 0 v.Clean) 0 := by
  have hrunning : ∀ lent (body : List Step), Safe lent (if body.isEmpty then pure [] else run body)
      fun l => ∀ a ∈ l, a.Clean := by
    intro lent body
    split
    · exact .pure nofun
    · exact hrun.run lent body
  refine .get_bind fun w => Owns.bind (b := fun l => plain 0 (∀ a ∈ l, Answer.Clean a)) ?_ fun acts =>
    .of_plain fun hacts => .pure (entails_plain (.mk hacts))
  refine Safe.ending ?_ (discard_of_eq_owns hrun rfl)
  split
  · rename_i k hk
    refine duringVisit_safe hrun (fun a ha => ?_) (hrunning _ _)
    exact Multiset.mem_add.mpr (.inr (subset_yieldKey hk ha))
  · exact hrunning _ _

omit hrun in
theorem inspection_safe {v : Value} (hv : handles v.refs ⊆ lent) :
    Safe lent (inspection v) Anything := by
  have hdisplay : Safe lent (v.display facts false) Anything :=
    Observes.owns (.refl _) fun others w hlent hw => displayValue_observes hw.1 v false
      (has_of_handles hw.1 hlent (Multiset.Subset.trans hv (subset_add _ _)))
  exact .get_bind fun _ => hdisplay.bind fun _ _ => .pure trivial

theorem readArgs_owns (terms : List Term) (done : List Value) :
    Owns lent (handles (done.flatMap Value.refs)) (readArgs run terms done)
      (fun l => ↑(handles (l.flatMap Value.refs))) 0 := by
  induction terms generalizing done with
  | nil => exact .pure (.refl _)
  | cons t rest ih =>
    have hread : Owns (lent + handles (done.flatMap Value.refs)) (0 : Hands) (readValue t)
        (fun v => ↑(handles v.refs)) 0 := readValue_owns t
    refine Owns.bind (hread.keep (discardValues_owns hrun done)) fun v => ?_
    apply (ih (done ++ [v])).of_eq
    rw [List.flatMap_append, handles_append, List.flatMap_singleton, add_comm]

/-! ## operations -/

theorem perform_insert_safe (c : Target) (k : Term) (v : Payload) :
    Safe lent (perform run (.insert c k v)) Result.Clean := by
  rw [perform]
  refine withContainer_safe hrun c fun r kind => (require_safe _).before fun _ _ => ?_
  refine (readQueryFor_owns kind k).bind fun q => ?_
  have hinsert := insert_owns hrun (mem_add_handles lent r) kind q
  dsimp only
  split
  · exact (hinsert .unit).of_eq (add_zero _).symm
  · refine Owns.bind ((readItem_owns kind v).keep (discardKey_owns hrun q.key)) fun item => ?_
    exact (hinsert item).of_eq (add_comm _ _)

theorem perform_get_safe (c : Target) (k : Term) :
    Safe lent (perform run (.get c k)) Result.Clean := by
  rw [perform]
  refine withContainer_safe hrun c fun r kind => (require_safe _).before fun _ _ => ?_
  refine withQuery_safe hrun kind k fun q => ?_
  refine (lookup_owns hrun (Multiset.mem_add.mpr (.inl (mem_add_handles lent r))) q).bind fun found => ?_
  cases found with
  | none => exact Safe.pure (.of_plain rfl)
  | some item =>
    refine .get_bind fun w => ?_
    exact (discardItem_owns hrun item).bind fun _ => Safe.pure (.of_plain rfl)

theorem perform_measure_safe (c : Target) :
    Safe lent (perform run (.measure c)) Result.Clean := by
  rw [perform]
  refine withContainer_safe hrun c fun r kind => ?_
  have hsize : Safe (lent + handles [r]) (size r) Anything := size_safe (mem_add_handles lent r)
  refine hsize.bind fun len _ => ?_
  split
  · exact hsize.bind fun n _ => Safe.pure (.of_plain rfl)
  · exact hsize.bind fun n _ => hsize.bind fun m _ => Safe.pure (.of_plain rfl)

theorem perform_debug_safe (c : Target) (spread : Bool) :
    Safe lent (perform run (.debug c spread)) Result.Clean := by
  rw [perform]
  refine withTarget_safe hrun c fun r => ?_
  have hsees : Sees (lent + handles [r]) (0 : Hands) r := .of_lent (mem_add_handles lent r)
  refine Owns.bind (b := fun _ => ((0 : Hands) : Situation))
    ((cell_owns hsees).weaken (.refl _) fun _ => entails_hands _) fun d => ?_
  split
  · have htext : Safe (lent + handles [r]) (debugText r spread) Anything :=
      Observes.owns (.refl _) fun others w hlent hw =>
        debugText_observes hw.1 (hsees others w hlent hw) spread
    exact htext.bind fun text _ => Safe.pure (.of_plain rfl)
  · exact Safe.pure (.of_plain rfl)
  · exact Safe.throw id

theorem perform_realm_safe (name : String) (unboundThis : UnboundThis) (global : Option String) :
    Safe lent (perform run (.realm name unboundThis global)) Result.Clean := by
  unfold perform
  dsimp only
  have hrest : ∀ (r : Nat) (f : String → Result), (∀ text l same, f text ≠ .visits l same) →
      Owns lent (handles [r])
        (do
          Act.onFailure
            (do
              retain r
              bindName run (name ++ ".global") (.object r))
            (discard run [.handle r])
          let object ← Act.onFailure (debugText r false) (discard run [.handle r])
          bindName run name (.realm ⟨r, unboundThis⟩)
          pure (f object)) (fun y => plain 0 y.Clean) 0 := by
    intro r f hf
    have hsees : ∀ a, Sees (lent + handles [r]) a r := fun _ => .of_lent (mem_add_handles lent r)
    have hfirst : Owns (lent + handles [r]) (0 : Hands)
        (do
          retain r
          bindName run (name ++ ".global") (.object r)) (fun _ => (0 : Hands)) 0 :=
      (retain_owns (hsees _)).bind fun _ =>
        (bindName_owns hrun _ (.object r)).of_eq (zero_add _)
    have htext : Owns (lent + handles [r]) (0 : Hands) (debugText r false)
        (fun _ => (0 : Hands)) 0 :=
      Observes.owns (.refl _) fun others w hlent hw =>
        debugText_observes hw.1 (hsees _ others w hlent hw) false
    refine Owns.bind (hfirst.keep (discardHandle_owns hrun r)) fun _ => ?_
    refine Owns.bind (htext.rescue (discardHandle_owns hrun r)) fun text => ?_
    refine Owns.bind ((bindName_owns hrun name (.realm ⟨r, unboundThis⟩)).of_eq (zero_add _)) fun _ => ?_
    exact Safe.pure (.plain (hf text))
  cases global with
  | none =>
    refine (newContainer_owns .object).bind fun r => ?_
    refine Owns.weaken (hrest r _ ?_) (entails_of_eq (zero_add _)) fun _ => .refl _
    exact nofun
  | some g => exact (readNamed_owns g (isKind .object) .value).bind fun r => hrest r _ nofun

theorem perform_construct_safe (kind : Kind) (home name : String) (entries : List (Term × Payload))
    (plain : Bool) : Safe lent (perform run (.construct kind home name entries plain)) Result.Clean := by
  rw [perform]
  refine (realmNamed_owns home (.refl _)).bind fun here => ?_
  refine Owns.bind ((readEntries_owns hrun kind entries).weaken (entails_hands _) fun _ => .refl _)
    fun l => ?_
  have hcheck : Owns (lent + entriesOf l) (0 : Hands)
      (constructing (if kind.isSet then "Set" else "Map") plain) (fun _ => (0 : Hands)) 0 :=
    (constructing_safe _ plain).weaken (.refl _) fun _ => entails_hands _
  refine Owns.bind (hcheck.keep (discardEntries_owns hrun l)) fun _ => ?_
  refine ((build_owns hrun kind l).of_eq (zero_add _)).bind fun r => ?_
  refine (bindName_owns hrun name (.object r)).bind fun _ => ?_
  exact Safe.pure (.of_plain rfl)

theorem perform_realmForEach_safe (home : String) (c : Target) (callback : Term)
    (receiver : Option Term) :
    Safe lent (perform run (.realmForEach home c callback receiver)) Result.Clean := by
  rw [perform]
  refine (realmNamed_owns home (.refl _)).bind fun here => ?_
  refine Owns.bind (holding_owns hrun (p := Anything) ?_) fun _ => .of_plain fun _ =>
    Safe.pure (.of_plain rfl)
  refine withValue_safe hrun callback fun f => withValue?_safe hrun receiver fun given => ?_
  refine withContainer_safe hrun c fun r kind => (require_safe _).bind fun _ _ => ?_
  refine realmForEach_safe hrun (by simp) (mem_add_handles _ r) (fun a ha => ?_) fun a ha => ?_
  · simp [ha]
  · simp [ha]

theorem perform_call_safe (f given : Term) (args : List Term) :
    Safe lent (perform run (.call f given args)) Result.Clean := by
  rw [perform]
  refine withValue_safe hrun f fun f => ?_
  split
  · exact Safe.throw id
  · rename_i q hq
    have hfunction : .handle q ∈ handles f.refs := by
      cases f with
      | function q' =>
        cases hq
        simp [Value.refs]
      | _ => cases hq
    refine withValue_safe hrun given fun given => ?_
    refine (readArgs_owns hrun args []).bind fun args => ?_
    refine Safe.ending ?_ (discardValues_owns hrun args)
    refine (invoke_owns hrun (by simp [hfunction]) (fun a ha => by simp [ha])
      fun a ha => by simp [ha]).bind fun result => .get_bind fun w => ?_
    exact (discardValue_owns hrun result).bind fun _ => Safe.pure (.of_plain rfl)

theorem perform_safe (op : Op) : Safe lent (perform run op) Result.Clean := by
  have hbind : ∀ name b, Owns lent b.assets
      (do
        bindName run name b
        pure Result.nothing) (fun y => plain 0 y.Clean) 0 := fun name b =>
    (bindName_owns hrun name b).bind fun _ => Safe.pure (.of_plain rfl)
  have hr : ∀ r, .handle r ∈ lent + handles [r] := mem_add_handles lent
  cases op with
  | insert c k v => exact perform_insert_safe hrun c k v
  | get c k => exact perform_get_safe hrun c k
  | measure c => exact perform_measure_safe hrun c
  | debug c spread => exact perform_debug_safe hrun c spread
  | realm name unboundThis global => exact perform_realm_safe hrun name unboundThis global
  | construct kind home name entries plain =>
    exact perform_construct_safe hrun kind home name entries plain
  | realmForEach home c callback receiver => exact perform_realmForEach_safe hrun home c callback receiver
  | call f given args => exact perform_call_safe hrun f given args
  | container kind name entries =>
    rw [perform]
    exact (readEntries_owns hrun kind entries).bind fun l => (build_owns hrun kind l).bind fun r =>
      hbind name (.object r)
  | allocation name text =>
    rw [perform]
    refine Owns.bind (allocatePlain_owns rfl) fun r => ?_
    exact (hbind name (.object r)).of_eq (zero_add _)
  | function name body limit result =>
    rw [perform]
    refine Owns.bind (allocatePlain_owns rfl) fun r => ?_
    exact (hbind name (.object r)).of_eq (zero_add _)
  | share target name =>
    rw [perform]
    exact (readBinding_owns target).bind fun b => hbind name b
  | unbind name =>
    rw [perform]
    refine (unbound_owns name).bind fun old => ?_
    cases old with
    | none => exact .pure (entails_plain (.of_plain rfl))
    | some old =>
      refine Owns.bind ((discardHandles_owns hrun old.refs).of_eq (zero_add _)) fun _ => ?_
      exact Safe.pure (.of_plain rfl)
  | identical c d =>
    rw [perform]
    exact withTarget_safe hrun c fun r => withTarget_safe hrun d fun s => Safe.pure (.of_plain rfl)
  | put c entries =>
    rw [perform]
    exact withContainer_safe hrun c fun r kind => (store_safe hrun (hr r) kind entries).bind fun _ _ =>
      (size_safe (hr r)).bind fun n _ => Safe.pure (.of_plain rfl)
  | extend c entries =>
    rw [perform]
    exact withContainer_safe hrun c fun r kind => (require_safe _).bind fun _ _ =>
      (store_safe hrun (hr r) kind _).bind fun _ _ => (size_safe (hr r)).bind fun n _ =>
        Safe.pure (.of_plain rfl)
  | has c k =>
    rw [perform]
    exact withContainer_safe hrun c fun r kind => withQuery_safe hrun kind k fun q =>
      (has_safe hrun (Multiset.mem_add.mpr (.inl (hr r))) q).bind fun b _ => Safe.pure (.of_plain rfl)
  | delete c k =>
    rw [perform]
    exact withContainer_safe hrun c fun r kind => (require_safe _).bind fun _ _ =>
      withQuery_safe hrun kind k fun q =>
        (delete_safe hrun (Multiset.mem_add.mpr (.inl (hr r))) q).bind fun b _ =>
          Safe.pure (.of_plain rfl)
  | clear c =>
    rw [perform]
    exact withContainer_safe hrun c fun r kind => (require_safe _).bind fun _ _ =>
      (clear_safe hrun (hr r)).bind fun _ _ => (size_safe (hr r)).bind fun n _ =>
        Safe.pure (.of_plain rfl)
  | list c selection limit =>
    rw [perform]
    exact withContainer_safe hrun c fun r kind =>
      (list_safe hrun (hr r) selection (consume_owns hrun kind) limit).bind fun l _ =>
        Safe.pure (.of_plain rfl)
  | forEach c each atVisit limit =>
    rw [perform]
    refine withContainer_safe hrun c fun r kind => (require_safe _).bind fun _ _ => ?_
    exact (forEach_safe hrun (hr r) (visit_owns hrun kind each atVisit limit)).bind fun l hl =>
      Safe.pure (.visits hl)
  | iterate c selection it =>
    rw [perform]
    refine withContainer_owns hrun c fun r kind => (openWalk_owns (hr r)).bind fun id => ?_
    refine Owns.bind ((install_owns hrun it ⟨id, kind, selection⟩).of_eq (zero_add _)) fun _ => ?_
    exact Safe.pure (.of_plain rfl)
  | next it count =>
    cases count with
    | none =>
      rw [perform]
      exact withIterator_safe hrun it fun x => (nextShown_owns hrun x).bind fun s =>
        .pure (plain_entails fun _ => .of_plain rfl)
    | some n =>
      rw [perform]
      exact withIterator_safe hrun it fun x => (nextEach_owns hrun x n).bind fun l =>
        .pure (plain_entails fun _ => .of_plain rfl)
  | drain it limit =>
    rw [perform]
    refine (takeIterator_owns it).bind fun x => ?_
    refine (takeLast_owns hrun x.walk x.kind x.selection (consume_owns hrun x.kind) limit).bind fun l => ?_
    exact .pure (plain_entails fun _ => .of_plain rfl)
  | close it =>
    rw [perform]
    exact (takeIterator_owns it).bind fun x => (closeWalk_owns hrun x.walk).bind fun _ =>
      Safe.pure (.of_plain rfl)
  | same a b =>
    rw [perform]
    exact withValue_safe hrun a fun a => withValue_safe hrun b fun b => Safe.pure (.of_plain rfl)
  | inspect v =>
    rw [perform]
    refine withValue_safe hrun v fun v => (inspection_safe ?_).bind fun i _ => Safe.pure (.of_plain rfl)
    exact Multiset.subset_of_le (Multiset.le_add_left _ _)
  | unknown =>
    rw [perform]
    exact Safe.throw id

end

end LiveOrder.World
