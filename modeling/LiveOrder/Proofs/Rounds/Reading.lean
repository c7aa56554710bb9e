import LiveOrder.Proofs.Rounds.Cursor
import LiveOrder.World.Functions

/-!
# Readings, visits and calls end

* `readValue_ends`, `readQuery_ends`, `readItem_ends`, `readEntries_ends`   what is read;
* `withValue_ends`, `withQuery_ends`, `withTarget_ends`   for the time of an operation;
* `debugText_ends`    a container in writing;
* `duringVisit_ends`, `duringCall_ends`, `enclosed_ends`   visits and calls;
* `invoke_ends`       functions, which run programs.

None of them changes what is in a container or where a cursor is, but in the programs that they run.
-/

namespace LiveOrder.World

open Act Table

variable {α : Type} {R : World → World → Prop} [Lax R] {run : Runner} {r : Nat} {p : α → Prop}

/-! ## values and keys -/

theorem readNamed_ends (name : String) (wanted : Body → Bool) (otherwise : Misuse) :
    Ends R (readNamed name wanted otherwise) Anything := by
  refine (named_ends name).bind fun r _ => (cell_ends r).bind fun d _ => ?_
  split
  · exact (retain_ends r).bind fun _ _ => .pure trivial
  · exact .throw id

theorem readValue_ends (t : Term) : Ends R (readValue t) Anything := by
  fun_cases readValue t with
  | case9 name | case10 name | case11 name | case12 name =>
    exact (readNamed_ends name _ _).bind fun _ _ => .pure trivial
  | case13 | case14 i =>
    refine .get_bind (fun _ _ => rfl) fun w _ => ?_
    split
    · exact copyValue_ends _
    · exact .throw id
  | case15 => exact .throw id
  | _ => exact .pure trivial

theorem readQuery_ends (t : Term) : Ends R (readQuery t) Anything := by
  fun_induction readQuery t with
  | case8 atomic name | case9 name | case10 name =>
    exact (readNamed_ends name _ _).bind fun _ _ => .pure trivial
  | case11 t => exact (readValue_ends t).bind fun _ _ => .pure trivial
  | case12 t ih | case13 t ih | case14 t body ih => exact ih.bind fun _ _ => .pure trivial
  | case15 =>
    refine .get_bind (fun _ _ => rfl) fun w _ => ?_
    split
    · exact (copyKey_ends _).bind fun _ _ => .pure trivial
    · exact .throw id
  | case16 => exact .throw id
  | _ => exact .pure trivial

theorem readQueryFor_ends (kind : Kind) (t : Term) : Ends R (readQueryFor kind t) Anything := by
  have hvalue : Ends R (do pure (Query.plain (.value (← readValue t)))) Anything :=
    (readValue_ends t).bind fun _ _ => .pure trivial
  cases kind with
  | map | set => exact readQuery_ends t
  | scriptMap | scriptSet => exact hvalue
  | object =>
    cases t with
    | property s => exact .pure trivial
    | _ => exact .throw id

theorem readItem_ends (kind : Kind) (payload : Payload) : Ends R (readItem kind payload) Anything := by
  fun_cases readItem kind payload with
  | case1 n onRelease onCopy =>
    have hsupply : Ends R supply Anything := .get_bind (fun _ _ => rfl) fun _ _ =>
      Ends.bind (.modify (fun _ _ => rfl) fun _ => .of_same rfl) fun _ _ => .pure trivial
    exact hsupply.bind fun _ _ => .pure trivial
  | case2 t | case3 t => exact (readValue_ends t).bind fun _ _ => .pure trivial
  | case4 | case5 => exact .pure trivial
  | case6 => exact .throw id

/-! ## writing -/

theorem displayValue_ends (v : Value) (spread : Bool) :
    Ends R (v.display facts spread : Act String) Anything := by
  cases v with
  | object r | map r | set r => exact (size_ends r).bind fun _ _ => .pure trivial
  | _ => exact .pure trivial

theorem displayKey_ends (k : Key) (spread : Bool) :
    Ends R (k.display facts spread : Act String) Anything := by
  induction k with
  | map r | set r => exact (size_ends r).bind fun _ _ => .pure trivial
  | value v => exact displayValue_ends v spread
  | reference k ih => exact ih
  | shared atomic r =>
    have hcontent : Ends R (facts.content r) Anything := (cell_ends r).bind fun d _ => by
      split
      · exact .pure trivial
      · exact .throw id
    exact hcontent.bind fun _ _ => .pure trivial
  | _ => exact .pure trivial

theorem displayItem_ends (spread : Bool) (i : Item) : Ends R (displayItem spread i) Anything := by
  cases i with
  | value v => exact displayValue_ends v spread
  | _ => exact .pure trivial

theorem debugText_ends (r : Nat) (spread : Bool) : Ends R (debugText r spread) Anything := by
  refine (container_ends r).bind fun c _ => ?_
  split
  · exact (size_ends r).bind fun _ _ => .pure trivial
  split
  · exact .pure trivial
  refine sharing_ends ((readStore_ends r _).bind fun entries _ => ?_)
  split
  · exact (Ends.mapM fun e _ => displayKey_ends e.1 spread).bind fun _ _ => .pure trivial
  · refine (Ends.mapM fun e _ => ?_).bind fun _ _ => .pure trivial
    exact (displayKey_ends e.1 spread).bind fun _ _ => (displayItem_ends spread e.2).bind fun _ _ =>
      .pure trivial

theorem readBinding_ends (c : Target) : Ends R (readBinding c) Anything := by
  cases c with
  | named name =>
    exact (binding_ends name).bind fun b _ => (retainAll_ends b.refs).bind fun _ _ => .pure trivial
  | value t =>
    refine (readValue_ends t).bind fun v _ => ?_
    split
    · exact .pure trivial
    · exact .throw id

section
variable (hrun : run.Ends)
include hrun

theorem readEntriesAfter_ends (kind : Kind) (done : List (Query × Item))
    (entries : List (Term × Payload)) : Ends R (readEntriesAfter run kind done entries) Anything := by
  induction entries generalizing done with
  | nil => exact .pure trivial
  | cons entry rest ih =>
    obtain ⟨t, payload⟩ := entry
    have hentry : Ends R (do
        let q ← readQueryFor kind t
        let item ← Act.onFailure (readItem kind payload) (discard run [.key q.key])
        pure (q, item)) Anything :=
      (readQueryFor_ends kind t).bind fun q _ =>
        ((readItem_ends kind payload).onFailure (discard_ends hrun _)).bind fun _ _ => .pure trivial
    exact (hentry.onFailure (discard_ends hrun _)).bind fun e _ => ih _

theorem readEntries_ends (kind : Kind) (entries : List (Term × Payload)) :
    Ends R (readEntries run kind entries) Anything := readEntriesAfter_ends hrun kind [] entries

/-! ## for the time of an operation -/

theorem discardValue_ends (v : Value) : Ends R (discardValue run v) Anything := discard_ends hrun _

theorem withValue_ends (t : Term) {body : Value → Act α} (hbody : ∀ v, Ends R (body v) p) :
    Ends R (withValue run t body) p :=
  (readValue_ends t).bind fun v _ => (hbody v).always (discardValue_ends hrun v)

theorem withValue?_ends (t? : Option Term) {body : Option Value → Act α}
    (hbody : ∀ v?, Ends R (body v?) p) : Ends R (withValue? run t? body) p := by
  cases t? with
  | none => exact hbody none
  | some t => exact withValue_ends hrun t fun v => hbody (some v)

theorem withQuery_ends (kind : Kind) (t : Term) {body : Query → Act α}
    (hbody : ∀ q : Query, Ends R (body q) p) : Ends R (withQuery run kind t body) p :=
  (readQueryFor_ends kind t).bind fun q _ => (hbody q).always (discard_ends hrun _)

theorem withTarget_ends (c : Target) {body : Nat → Act α} (hbody : ∀ r, Ends R (body r) p) :
    Ends R (withTarget run c body) p := by
  cases c with
  | named name => exact (named_ends name).bind fun r _ => holding_ends hrun r (hbody r)
  | value t =>
    refine withValue_ends hrun t fun v => ?_
    split
    · exact hbody _
    · exact .throw id

theorem withContainer_ends (c : Target) {body : Nat → Kind → Act α}
    (hbody : ∀ r kind, Ends R (body r kind) p) : Ends R (withContainer run c body) p :=
  withTarget_ends hrun c fun r => (container_ends r).bind fun d _ => hbody r d.kind

/-! ## visits and calls -/

theorem duringVisit_ends (k : Key) {x : Act α} (hx : Ends R x p) : Ends R (duringVisit run k x) p := by
  refine (copyKey_ends k).bind fun k' _ =>
    Ends.bind (.modify (fun _ _ => rfl) fun _ => .of_same rfl) fun _ _ => ?_
  refine hx.bind fun y hy => Ends.bind (.modify (fun _ _ => rfl) fun _ => .of_same rfl) fun _ _ => ?_
  exact (discard_ends hrun _).bind fun _ _ => .pure hy

theorem duringCall_ends (receiver : Value) (args : List Value) {x : Act α} {release : α → Act Unit}
    (hx : Ends R x p) (hrelease : ∀ y, Ends R (release y) Anything) :
    Ends R (duringCall run receiver args x release) p := by
  refine (copyValue_ends receiver).bind fun receiver' _ =>
    (Ends.mapM fun v _ => copyValue_ends v).bind fun args' _ => ?_
  refine Ends.bind (.modify (fun _ _ => rfl) fun _ => .of_same rfl) fun _ _ => hx.bind fun y hy => ?_
  refine Ends.bind (.modify (fun _ _ => rfl) fun _ => .of_same rfl) fun _ _ => ?_
  exact ((discard_ends hrun _).onFailure (hrelease y)).bind fun _ _ => .pure hy

theorem backTo_ends (earlier : World) : Ends R (backTo run earlier) Anything := by
  refine .get_bind (fun _ _ => rfl) fun w _ =>
    Ends.bind (.modify (fun _ _ => rfl) fun _ => .of_same rfl) fun _ _ => ?_
  exact (discard_ends hrun _).always (discard_ends hrun _)

theorem enclosed_ends {x : Act α} (hx : Ends R x p) : Ends R (enclosed run x) p :=
  .get_bind (fun _ _ => rfl) fun w _ => hx.onFailure (backTo_ends hrun w)

/-! ## functions -/

omit hrun in
theorem slight_setFunction (w : World) (r : Nat) (f : FunctionBody) :
    Slight w { w with cells := change r (fun d => { d with body := .function f }) w.cells } :=
  .of_change fun hc => ⟨_, containerAt?_of_setPlain rfl hc, rfl⟩

theorem invoke_ends (f : Nat) (receiver : Value) (args : List Value) :
    Ends R (invoke run f receiver args) Anything := by
  refine (cell_ends f).bind fun d _ => ?_
  obtain ⟨n, body⟩ := d
  cases body with
  | container c => exact .throw id
  | allocation s => exact .throw id
  | function b =>
    have hresult : ∀ acts : List Answer, (∀ a ∈ acts, a.Whole) → Ends R (do
        let result ← attempt (enclosed run (readValue b.result))
        pure (acts, result.toOption.getD .undefined)) fun y => ∀ a ∈ y.1, a.Whole :=
      fun acts hacts => (enclosed_ends hrun (readValue_ends b.result)).attempt.bind fun _ _ => .pure hacts
    have hbody : Ends R (do
        let acts ← if b.calls < b.limit then run b.body else pure []
        let result ← attempt (enclosed run (readValue b.result))
        pure (acts, result.toOption.getD .undefined)) fun y => ∀ a ∈ y.1, a.Whole := by
      dsimp only
      split
      · exact (hrun.run b.body).bind hresult
      · exact hresult [] (List.forall_mem_nil _)
    refine .get_bind (fun _ _ => by rw [showValue_upTo]) fun w _ => ?_
    refine Ends.bind (.modify (fun _ _ => rfl) fun w => slight_setFunction w f _) fun _ _ => ?_
    refine (duringCall_ends hrun receiver args hbody fun y => discardValue_ends hrun y.2).bind
      fun y hy => ?_
    exact (log_ends (.called hy)).bind fun _ _ => .pure trivial

omit hrun in
theorem receiverFor_ends (realm : Realm) (given : Option Value) :
    Ends R (receiverFor realm given) Anything := by
  have hunbound : Ends R (receiverFor.unbound realm) Anything := by
    unfold receiverFor.unbound
    split
    · exact .pure trivial
    · exact copyValue_ends _
  unfold receiverFor
  split
  · split
    · exact hunbound
    · exact copyValue_ends _
  · exact hunbound

theorem callbackArgs_ends (r : Nat) (kind : Kind) (y : Yield) :
    Ends R (callbackArgs run r kind y) Anything := by
  fun_cases callbackArgs run r kind y with
  | case1 k v => exact (retain_ends r).bind fun _ _ => .pure trivial
  | case2 k => exact (copyValue_ends k).bind fun _ _ => (retain_ends r).bind fun _ _ => .pure trivial
  | case3 y => exact (discard_ends hrun _).bind fun _ _ => .throw id

theorem callback_ends (f : Nat) (receiver : Value) (kind : Kind) (y : Yield) : Ends R (do
    let args ← callbackArgs run r kind y
    let release := discard run (args.map fun v => .item (.value v))
    let result ← Act.onFailure (invoke run f receiver args) release
    Act.onFailure release (discardValue run result)
    discardValue run result) Anything := by
  refine (callbackArgs_ends hrun r kind y).bind fun args _ => ?_
  have hrelease : Ends R (discard run (args.map fun v => .item (.value v))) Anything := discard_ends hrun _
  refine ((invoke_ends hrun f receiver args).onFailure hrelease).bind fun result _ => ?_
  exact (hrelease.onFailure (discardValue_ends hrun result)).bind fun _ _ => discardValue_ends hrun result

theorem realmForEach_ends (realm : Realm) (r : Nat) (kind : Kind) (callback : Value)
    (given : Option Value) : Ends Anyhow (realmForEach run realm r kind callback given) Anything := by
  unfold realmForEach
  split
  · exact (tell_ends _).bind fun _ _ => .throw id
  · rename_i f _
    refine (receiverFor_ends realm given).bind fun receiver _ => ?_
    exact ((forEach_ends hrun r fun _ y => callback_ends hrun f receiver kind y).bind fun _ _ =>
      .pure trivial).always (discardValue_ends hrun receiver)

end

theorem constructing_ends (typeName : String) (plain : Bool) :
    Ends R (constructing typeName plain) Anything := by
  unfold constructing
  split
  · exact (tell_ends _).bind fun _ _ => .throw id
  · exact .pure trivial

end LiveOrder.World
