import LiveOrder.Proofs.Rounds.Reading
import LiveOrder.World.Perform

/-!
# Operations end

* `showYield_upTo`   what is shown has nothing to do with the limit;
* `allocate_ends`, `install_ends`, `bindName_ends`   objects, iterators and names;
* `store_ends`, `insert_ends`, `visit_ends`   parts of operations;
* `perform_ends`    one operation, if the programs inside it end.
-/

namespace LiveOrder.World

open Act Table

variable {R : World → World → Prop} [Lax R] {run : Runner} {r : Nat}

/-! ## what is shown -/

theorem showKeyOf_upTo (w : World) (n : Nat) : (w.upTo n).showKeyOf = w.showKeyOf := by
  funext kind k
  simp only [showKeyOf, showValue_upTo, showKey_upTo]

theorem showItem_upTo (w : World) (n : Nat) : (w.upTo n).showItem = w.showItem := by
  funext i
  simp only [showItem, showValue_upTo]

theorem showYield_upTo (w : World) (n : Nat) : (w.upTo n).showYield = w.showYield := by
  funext kind y
  simp only [showYield, showKeyOf_upTo, showItem_upTo]

theorem visitShown_upTo (w : World) (n : Nat) : (w.upTo n).visitShown = w.visitShown := by
  funext kind y
  simp only [visitShown, showKeyOf_upTo, showItem_upTo, showYield_upTo]

/-! ## objects, names and iterators -/

theorem allocate_ends (body : Body) (hbody : ∀ c, body.container? = some c → c.store.Sound fun _ => 0) :
    Ends Anyhow (allocate body) Anything := by
  intro pins w hw
  refine ⟨.ok w.fresh, _, .of_eq fun _ => rfl, ?_, hw.append (n := 1) hbody, trivial⟩
  exact .unspent rfl rfl (Nat.le_refl _)

theorem newContainer_ends (kind : Kind) : Ends Anyhow (newContainer kind) Anything :=
  allocate_ends _ fun c hc => by
    cases hc
    exact Store.sound_withHasher Token.digest

theorem takeIterator_ends (it : String) : Ends R (takeIterator it) Anything := by
  refine .get_bind (fun _ _ => rfl) fun w _ => ?_
  cases get? it w.iterators with
  | none => exact .throw id
  | some x => exact Ends.bind (.modify (fun _ _ => rfl) fun _ => .of_same rfl) fun _ _ => .pure trivial

section
variable (hrun : run.Ends)
include hrun

theorem bindName_ends (name : String) (b : Binding) : Ends R (bindName run name b) Anything := by
  refine (rebind_ends name b).bind fun old _ => ?_
  cases old with
  | none => exact .pure trivial
  | some old => exact discard_ends hrun _

theorem install_ends (it : String) (x : Iterator) : Ends Anyhow (install run it x) Anything := by
  refine .get_bind (fun _ _ => rfl) fun w _ =>
    Ends.bind (.modify (fun _ _ => rfl) fun _ => .of_same rfl) fun _ _ => ?_
  cases get? it w.iterators with
  | none => exact .pure trivial
  | some old => exact closeWalk_ends hrun old.walk

theorem withIterator_ends {α : Type} {p : α → Prop} (it : String) {body : Iterator → Act α}
    (hbody : ∀ x, Ends Anyhow (body x) p) : Ends Anyhow (withIterator run it body) p :=
  (takeIterator_ends it).bind fun x _ => (hbody x).always (install_ends hrun it x)

/-! ## parts of operations -/

theorem consume_ends (kind : Kind) (y : Yield) : Ends R (consume run kind y) Anything :=
  .get_bind (fun w n => by rw [showYield_upTo]) fun _ _ => (discard_ends hrun _).bind fun _ _ =>
    .pure trivial

theorem build_ends (kind : Kind) (entries : List (Query × Item)) :
    Ends Anyhow (build run kind entries) Anything :=
  (newContainer_ends kind).bind fun _ _ =>
    ((putEach_ends hrun entries).onFailure (discard_ends hrun _)).bind fun _ _ => .pure trivial

theorem store_ends (r : Nat) (kind : Kind) (entries : List (Term × Payload)) :
    Ends Anyhow (store run r kind entries) Anything := by
  have hall : ∀ l, Ends Anyhow (do putEach run r (← readEntries run kind l)) Anything := fun l =>
    (readEntries_ends hrun kind l).bind fun l _ => putEach_ends hrun l
  unfold store
  split
  · exact .forM fun entry _ => hall [entry]
  · exact hall entries

omit hrun in
theorem require_ends (known : Bool) : Ends R (require known) Anything := by
  unfold require
  split
  · exact .pure trivial
  · exact .throw id

theorem insert_ends (r : Nat) (kind : Kind) (q : Query) (item : Item) :
    Ends Anyhow (insert run r kind q item) Result.Whole := by
  refine (upsert_ends hrun q item).bind fun outcome _ => ?_
  cases outcome with
  | inserted s =>
    refine .pure ?_
    split
    · exact .of_plain rfl
    · exact .of_plain rfl
  | updated s key previous =>
    dsimp only
    split
    · exact (discard_ends hrun _).bind fun _ _ => .pure (.of_plain rfl)
    · exact ((discard_ends hrun _).onFailure (discard_ends hrun _)).bind fun _ _ =>
        .get_bind (fun _ _ => by rw [showItem_upTo]) fun _ _ => (discard_ends hrun _).bind fun _ _ =>
          .pure (.of_plain rfl)

theorem nextShown_ends (x : Iterator) : Ends Anyhow (nextShown run x) Anything := by
  refine (advance_ends hrun x.walk x.kind x.selection).bind fun y? _ => ?_
  cases y? with
  | none => exact .pure trivial
  | some y => exact consume_ends hrun x.kind y

theorem nextEach_ends (x : Iterator) (n : Nat) : Ends Anyhow (nextEach run x n) Anything := by
  induction n with
  | zero => exact .pure trivial
  | succ n ih => exact (nextShown_ends hrun x).bind fun _ _ => ih.bind fun _ _ => .pure trivial

omit hrun in
theorem inspection_ends (v : Value) : Ends R (inspection v) Anything :=
  .get_bind (fun _ _ => by rw [showValue_upTo]; rfl) fun _ _ => (displayValue_ends v false).bind fun _ _ =>
    .pure trivial

theorem readArgs_ends (terms : List Term) (done : List Value) :
    Ends R (readArgs run terms done) Anything := by
  induction terms generalizing done with
  | nil => exact .pure trivial
  | cons t rest ih =>
    exact ((readValue_ends t).onFailure (discard_ends hrun _)).bind fun v _ => ih (done ++ [v])

/-- A visit changes nothing that the walk depends on, if nothing is run in it. -/
theorem visit_ends (kind : Kind) (each : List Step) (atVisit : List (Nat × List Step)) (limit n : Nat)
    (y : Yield) : Ends R (visit run kind each atVisit limit n y) Visit.Whole := by
  refine .get_bind (fun _ _ => by rw [visitShown_upTo]) fun w _ =>
    Ends.bind (p := fun l : List Answer => ∀ a ∈ l, a.Whole) ?_ fun acts hacts => .pure (.mk hacts)
  have hrunning : ∀ body : List Step,
      Ends R (if body.isEmpty then pure [] else run body) fun l => ∀ a ∈ l, a.Whole := by
    intro body
    split
    · exact .pure (List.forall_mem_nil _)
    · exact hrun.run body
  refine Ends.always ?_ (discard_ends hrun _)
  split
  · exact duringVisit_ends hrun _ (hrunning _)
  · exact hrunning _

/-! ## operations -/

theorem perform_insert_ends (c : Target) (k : Term) (v : Payload) :
    Ends Anyhow (perform run (.insert c k v)) Result.Whole := by
  rw [perform]
  refine withContainer_ends hrun c fun r kind => (require_ends _).bind fun _ _ => ?_
  refine (readQueryFor_ends kind k).bind fun q _ => ?_
  dsimp only
  split
  · exact insert_ends hrun r kind q .unit
  · exact ((readItem_ends kind v).onFailure (discard_ends hrun _)).bind fun item _ =>
      insert_ends hrun r kind q item

theorem perform_get_ends (c : Target) (k : Term) : Ends Anyhow (perform run (.get c k)) Result.Whole := by
  rw [perform]
  refine withContainer_ends hrun c fun r kind => (require_ends _).bind fun _ _ => ?_
  refine withQuery_ends hrun kind k fun q => (lookup_ends hrun q).bind fun found _ => ?_
  cases found with
  | none => exact .pure (.of_plain rfl)
  | some item =>
    exact .get_bind (fun _ _ => by rw [showItem_upTo]) fun _ _ => (discard_ends hrun _).bind fun _ _ =>
      .pure (.of_plain rfl)

theorem perform_measure_ends (c : Target) : Ends Anyhow (perform run (.measure c)) Result.Whole := by
  rw [perform]
  refine withContainer_ends hrun c fun r kind => (size_ends r).bind fun len _ => ?_
  split
  · exact (size_ends r).bind fun _ _ => .pure (.of_plain rfl)
  · exact (size_ends r).bind fun _ _ => (size_ends r).bind fun _ _ => .pure (.of_plain rfl)

theorem perform_debug_ends (c : Target) (spread : Bool) :
    Ends Anyhow (perform run (.debug c spread)) Result.Whole := by
  rw [perform]
  refine withTarget_ends hrun c fun r => (cell_ends r).bind fun d _ => ?_
  split
  · exact (debugText_ends r spread).bind fun _ _ => .pure (.of_plain rfl)
  · exact .pure (.of_plain rfl)
  · exact .throw id

theorem perform_realm_ends (name : String) (unboundThis : UnboundThis) (global : Option String) :
    Ends Anyhow (perform run (.realm name unboundThis global)) Result.Whole := by
  unfold perform
  dsimp only
  have hrest : ∀ (r : Nat) (f : String → Result), (∀ text, (f text).isPlain = true) →
      Ends Anyhow (do
        Act.onFailure
          (do
            retain r
            bindName run (name ++ ".global") (.object r))
          (discard run [.handle r])
        let object ← Act.onFailure (debugText r false) (discard run [.handle r])
        bindName run name (.realm ⟨r, unboundThis⟩)
        pure (f object)) Result.Whole := by
    intro r f hf
    have hfirst : Ends Anyhow (do
        retain r
        bindName run (name ++ ".global") (.object r)) Anything :=
      (retain_ends r).bind fun _ _ => bindName_ends hrun _ _
    refine (hfirst.onFailure (discard_ends hrun _)).bind fun _ _ => ?_
    refine ((debugText_ends r false).onFailure (discard_ends hrun _)).bind fun text _ => ?_
    exact (bindName_ends hrun name _).bind fun _ _ => .pure (.of_plain (hf text))
  cases global with
  | none => exact (newContainer_ends .object).bind fun r _ => hrest r _ fun _ => rfl
  | some g => exact (readNamed_ends g _ _).bind fun r _ => hrest r _ fun _ => rfl

theorem perform_construct_ends (kind : Kind) (home name : String) (entries : List (Term × Payload))
    (plain : Bool) : Ends Anyhow (perform run (.construct kind home name entries plain)) Result.Whole := by
  rw [perform]
  refine (realmNamed_ends home).bind fun _ _ => (readEntries_ends hrun kind entries).bind fun l _ => ?_
  refine ((constructing_ends _ plain).onFailure (discard_ends hrun _)).bind fun _ _ => ?_
  exact (build_ends hrun kind l).bind fun r _ => (bindName_ends hrun name _).bind fun _ _ =>
    .pure (.of_plain rfl)

theorem perform_realmForEach_ends (home : String) (c : Target) (callback : Term)
    (receiver : Option Term) :
    Ends Anyhow (perform run (.realmForEach home c callback receiver)) Result.Whole := by
  rw [perform]
  refine (realmNamed_ends home).bind fun here _ =>
    Ends.bind (holding_ends (p := Anything) hrun here.global ?_) fun _ _ => .pure (.of_plain rfl)
  refine withValue_ends hrun callback fun f => withValue?_ends hrun receiver fun given => ?_
  exact withContainer_ends hrun c fun r kind => (require_ends _).bind fun _ _ =>
    realmForEach_ends hrun here r kind f given

theorem perform_call_ends (f given : Term) (args : List Term) :
    Ends Anyhow (perform run (.call f given args)) Result.Whole := by
  rw [perform]
  refine withValue_ends hrun f fun f => ?_
  split
  · exact .throw id
  · rename_i q _
    refine withValue_ends hrun given fun given => (readArgs_ends hrun args []).bind fun args _ => ?_
    refine Ends.always ?_ (discard_ends hrun _)
    exact (invoke_ends hrun q given args).bind fun result _ =>
      .get_bind (fun _ _ => by rw [showValue_upTo]) fun _ _ => (discardValue_ends hrun result).bind
        fun _ _ => .pure (.of_plain rfl)

theorem perform_ends (op : Op) : Ends Anyhow (perform run op) Result.Whole := by
  have hbind : ∀ name b, Ends Anyhow (do
      bindName run name b
      pure Result.nothing) Result.Whole := fun name b =>
    (bindName_ends hrun name b).bind fun _ _ => .pure (.of_plain rfl)
  cases op with
  | insert c k v => exact perform_insert_ends hrun c k v
  | get c k => exact perform_get_ends hrun c k
  | measure c => exact perform_measure_ends hrun c
  | debug c spread => exact perform_debug_ends hrun c spread
  | realm name unboundThis global => exact perform_realm_ends hrun name unboundThis global
  | construct kind home name entries plain =>
    exact perform_construct_ends hrun kind home name entries plain
  | realmForEach home c callback receiver => exact perform_realmForEach_ends hrun home c callback receiver
  | call f given args => exact perform_call_ends hrun f given args
  | container kind name entries =>
    rw [perform]
    exact (readEntries_ends hrun kind entries).bind fun l _ => (build_ends hrun kind l).bind fun r _ =>
      hbind name (.object r)
  | forEach c each atVisit limit =>
    rw [perform]
    refine withContainer_ends hrun c fun r kind => (require_ends _).bind fun _ _ => ?_
    exact (forEach_ends hrun r fun n y => visit_ends hrun kind each atVisit limit n y).bind fun l hl =>
      .pure (.visits hl)
  | function name body limit result =>
    rw [perform]
    exact (allocate_ends (.function _) fun c hc => by cases hc).bind fun r _ => hbind name (.object r)
  | allocation name text =>
    rw [perform]
    exact (allocate_ends (.allocation text) fun c hc => by cases hc).bind fun r _ => hbind name (.object r)
  | share c name =>
    rw [perform]
    exact (readBinding_ends c).bind fun b _ => hbind name b
  | unbind name =>
    rw [perform]
    refine (unbound_ends name).bind fun old _ => ?_
    cases old with
    | none => exact .pure (.of_plain rfl)
    | some old => exact (discard_ends hrun _).bind fun _ _ => .pure (.of_plain rfl)
  | identical c d =>
    rw [perform]
    exact withTarget_ends hrun c fun r => withTarget_ends hrun d fun s => .pure (.of_plain rfl)
  | put c entries =>
    rw [perform]
    exact withContainer_ends hrun c fun r kind => (store_ends hrun r kind entries).bind fun _ _ =>
      (size_ends r).bind fun _ _ => .pure (.of_plain rfl)
  | extend c entries =>
    rw [perform]
    exact withContainer_ends hrun c fun r kind => (require_ends _).bind fun _ _ =>
      (store_ends hrun r kind _).bind fun _ _ => (size_ends r).bind fun _ _ => .pure (.of_plain rfl)
  | has c k =>
    rw [perform]
    exact withContainer_ends hrun c fun r kind => withQuery_ends hrun kind k fun q =>
      (has_ends hrun q).bind fun _ _ => .pure (.of_plain rfl)
  | delete c k =>
    rw [perform]
    exact withContainer_ends hrun c fun r kind => (require_ends _).bind fun _ _ =>
      withQuery_ends hrun kind k fun q => (delete_ends hrun q).bind fun _ _ => .pure (.of_plain rfl)
  | clear c =>
    rw [perform]
    exact withContainer_ends hrun c fun r kind => (require_ends _).bind fun _ _ =>
      (clear_ends hrun r).bind fun _ _ => (size_ends r).bind fun _ _ => .pure (.of_plain rfl)
  | list c selection limit =>
    rw [perform]
    exact withContainer_ends hrun c fun r kind =>
      (list_ends hrun r selection (fun y => consume_ends hrun kind y) limit).bind fun _ _ =>
        .pure (.of_plain rfl)
  | iterate c selection it =>
    rw [perform]
    exact withContainer_ends hrun c fun r kind => (openWalk_ends r).bind fun id _ =>
      (install_ends hrun it ⟨id, kind, selection⟩).bind fun _ _ => .pure (.of_plain rfl)
  | next it count =>
    cases count with
    | none =>
      rw [perform]
      exact withIterator_ends hrun it fun x => (nextShown_ends hrun x).bind fun _ _ => .pure (.of_plain rfl)
    | some n =>
      rw [perform]
      exact withIterator_ends hrun it fun x => (nextEach_ends hrun x n).bind fun _ _ => .pure (.of_plain rfl)
  | drain it limit =>
    rw [perform]
    exact (takeIterator_ends it).bind fun x _ =>
      (takeLast_ends hrun (fun y => consume_ends hrun x.kind y) limit).bind fun _ _ =>
        .pure (.of_plain rfl)
  | close it =>
    rw [perform]
    exact (takeIterator_ends it).bind fun x _ => (closeWalk_ends hrun x.walk).bind fun _ _ =>
      .pure (.of_plain rfl)
  | same a b =>
    rw [perform]
    exact withValue_ends hrun a fun _ => withValue_ends hrun b fun _ => .pure (.of_plain rfl)
  | inspect v =>
    rw [perform]
    exact withValue_ends hrun v fun v => (inspection_ends v).bind fun _ _ => .pure (.of_plain rfl)
  | unknown =>
    rw [perform]
    exact .throw id

end

end LiveOrder.World
