import LiveOrder.Proofs.Scripts.Cursor
import LiveOrder.Proofs.World.Reading
import LiveOrder.Proofs.World.Scope

/-!
# What is read for a script container

* `readQueryFor_calm`, `readItem_calm`, `readEntries_calm`   keys without watches, and nothing tracked;
* `withValue_calm`, `withQuery_calm`, `withContainer_calm`   for the time of an operation;
* `debugText_calm`    a container in writing, also inside of readers;
* `duringVisit_calm`, `duringCall_calm`, `enclosed_calm`   visits and calls.

A term may still stand for a watched key or a tracked number.  A script container does not take it: the
term is refused as misuse, before anything is looked up.
-/

namespace LiveOrder.World

open Act Table

variable {run : Runner} {α β : Type} {g : Grip} {r : Nat} {kind : Kind} {p : α → Prop}

/-! ## values and keys -/

theorem readNamed_calm (name : String) (wanted : Body → Bool) (otherwise : Misuse) :
    Calm g (readNamed name wanted otherwise) Anything := by
  refine (named_calm name).bind fun r _ => (cell_calm r).bind fun d _ => ?_
  split
  · exact (retain_calm r).bind fun _ _ => .pure trivial
  · exact .throw id

theorem readValue_calm (t : Term) : Calm g (readValue t) Anything := by
  fun_cases readValue t with
  | case9 name | case10 name | case11 name | case12 name =>
    exact (readNamed_calm name _ _).bind fun _ _ => .pure trivial
  | case13 | case14 i =>
    refine .get_bind fun w _ => ?_
    split
    · exact copyValue_calm _
    · exact .throw id
  | case15 => exact .throw id
  | _ => exact .pure trivial

theorem readQueryFor_calm (hkind : kind.isScript = true) (t : Term) :
    Calm g (readQueryFor kind t) fun q => q.isPlain = true := by
  have hvalue : Calm g (do pure (Query.plain (.value (← readValue t)))) fun q => q.isPlain = true :=
    (readValue_calm t).bind fun _ _ => .pure rfl
  cases kind with
  | map => cases hkind
  | set => cases hkind
  | scriptMap => exact hvalue
  | scriptSet => exact hvalue
  | object =>
    cases t with
    | property s => exact .pure rfl
    | _ => exact .throw id

theorem readItem_calm (hkind : kind.isScript = true) (payload : Payload) :
    Calm g (readItem kind payload) fun i => Untracked i.assets := by
  fun_cases readItem kind payload with
  | case1 n onRelease onCopy => cases hkind
  | case2 t | case3 t => exact (readValue_calm t).bind fun _ _ => .pure (untracked_handles _)
  | case4 | case5 => exact .pure untracked_zero
  | case6 => exact .throw id

theorem readEntriesAfter_calm (hkind : kind.isScript = true) {done : List (Query × Item)}
    (hdone : ∀ e ∈ done, Entry.Quiet e) (entries : List (Term × Payload)) :
    Calm g (readEntriesAfter run kind done entries) fun l => ∀ e ∈ l, Entry.Quiet e := by
  induction entries generalizing done with
  | nil => exact .pure hdone
  | cons entry rest ih =>
    obtain ⟨t, payload⟩ := entry
    have hentry : Calm g (do
        let q ← readQueryFor kind t
        let item ← Act.onFailure (readItem kind payload) (discard run [.key q.key])
        pure (q, item)) Entry.Quiet :=
      (readQueryFor_calm hkind t).bind fun q hq =>
        ((readItem_calm hkind payload).onFailure (discardKey_calm q.key)).bind fun _ hi => .pure ⟨hq, hi⟩
    refine (hentry.onFailure (discard_calm (untracked_entries hdone))).bind fun e he => ih fun d hd => ?_
    rcases List.mem_append.mp hd with hd | hd
    · exact hdone d hd
    · exact List.mem_singleton.mp hd ▸ he

theorem readEntries_calm (hkind : kind.isScript = true) (entries : List (Term × Payload)) :
    Calm g (readEntries run kind entries) fun l => ∀ e ∈ l, Entry.Quiet e :=
  readEntriesAfter_calm hkind (List.forall_mem_nil _) entries

/-! ## for the time of an operation -/

theorem discardValue_calm (v : Value) : Calm g (discardValue run v) Anything :=
  discardItem_calm (untracked_handles v.refs)

theorem withValue_calm (t : Term) {body : Value → Act α} (hbody : ∀ v, Calm g (body v) p) :
    Calm g (withValue run t body) p :=
  (readValue_calm t).bind fun v _ => (hbody v).always (discardValue_calm v)

theorem withValue?_calm (t? : Option Term) {body : Option Value → Act α}
    (hbody : ∀ v?, Calm g (body v?) p) : Calm g (withValue? run t? body) p := by
  cases t? with
  | none => exact hbody none
  | some t => exact withValue_calm t fun v => hbody (some v)

theorem withQuery_calm (hkind : kind.isScript = true) (t : Term) {body : Query → Act α}
    (hbody : ∀ q : Query, q.isPlain = true → Calm g (body q) p) : Calm g (withQuery run kind t body) p :=
  (readQueryFor_calm hkind t).bind fun q hq => (hbody q hq).always (discardKey_calm q.key)

theorem readBinding_calm (c : Target) : Calm g (readBinding c) Anything := by
  cases c with
  | named name =>
    exact (binding_calm name).bind fun b _ => (retainAll_calm b.refs).bind fun _ _ => .pure trivial
  | value t =>
    refine (readValue_calm t).bind fun v _ => ?_
    split
    · exact .pure trivial
    · exact .throw id

theorem withTarget_calm (c : Target) {body : Nat → Act α} (hbody : ∀ r, Calm g (body r) p) :
    Calm g (withTarget run c body) p := by
  cases c with
  | named name => exact (named_calm name).bind fun r _ => holding_calm (hbody r)
  | value t =>
    refine withValue_calm t fun v => ?_
    split
    · exact hbody _
    · exact .throw id

theorem withContainer_calm (c : Target) {body : Nat → Kind → Act α}
    (hbody : ∀ r kind, kind.isScript = true → Calm g (body r kind) p) :
    Calm g (withContainer run c body) p :=
  withTarget_calm c fun r => (container_calm r).bind fun d hd => hbody r d.kind hd.1

/-! ## writing -/

theorem displayValue_calm (v : Value) (spread : Bool) :
    Calm g (v.display facts spread : Act String) Anything := by
  cases v with
  | object r | map r | set r => exact (size_calm r).bind fun _ _ => .pure trivial
  | _ => exact .pure trivial

theorem displayKey_calm (k : Key) (spread : Bool) :
    Calm g (k.display facts spread : Act String) Anything := by
  induction k with
  | map r | set r => exact (size_calm r).bind fun _ _ => .pure trivial
  | value v => exact displayValue_calm v spread
  | reference k ih => exact ih
  | shared atomic r =>
    have hcontent : Calm g (facts.content r) Anything := by
      refine (cell_calm r).bind fun d _ => ?_
      split
      · exact .pure trivial
      · exact .throw id
    exact hcontent.bind fun _ _ => .pure trivial
  | _ => exact .pure trivial

theorem displayItem_calm (spread : Bool) (i : Item) : Calm g (displayItem spread i) Anything := by
  cases i with
  | value v => exact displayValue_calm v spread
  | _ => exact .pure trivial

theorem debugText_calm (r : Nat) (spread : Bool) : Calm g (debugText r spread) Anything := by
  refine (container_calm r).bind fun c _ => ?_
  split
  · exact (size_calm r).bind fun _ _ => .pure trivial
  split
  · exact .pure trivial
  -- the containers that it refers to are looked into while it is being read itself
  refine sharing_calm (Calm.bind (readStore_calm (p := Anything) fun _ _ _ _ _ _ => trivial)
    fun entries _ => ?_)
  split
  · exact (Calm.mapM fun e _ => displayKey_calm e.1 spread).bind fun _ _ => .pure trivial
  · refine (Calm.mapM fun e _ => ?_).bind fun _ _ => .pure trivial
    exact (displayKey_calm e.1 spread).bind fun _ _ => (displayItem_calm spread e.2).bind fun _ _ =>
      .pure trivial

/-! ## visits and calls -/

theorem duringVisit_calm (k : Key) {x : Act α} (hx : Calm g x p) : Calm g (duringVisit run k x) p := by
  refine (copyKey_calm k).bind fun k' _ => Calm.bind (.modify fun _ hw => { hw with }) fun _ _ => ?_
  refine hx.bind fun y hy => Calm.bind (.modify fun _ hw => { hw with }) fun _ _ => ?_
  exact (discardKey_calm k').bind fun _ _ => .pure hy

theorem discardCall_calm (call : Call) : Calm g (discard run call.debris) Anything :=
  discardValues_calm (call.receiver :: call.args)

theorem duringCall_calm (receiver : Value) (args : List Value) {x : Act α} {release : α → Act Unit}
    (hx : Calm g x p) (hrelease : ∀ y, Calm g (release y) Anything) :
    Calm g (duringCall run receiver args x release) p := by
  refine (copyValue_calm receiver).bind fun receiver' _ =>
    (Calm.mapM fun v _ => copyValue_calm v).bind fun args' _ => ?_
  refine Calm.bind (.modify fun _ hw => { hw with }) fun _ _ => hx.bind fun y hy => ?_
  refine Calm.bind (.modify fun _ hw => { hw with }) fun _ _ => ?_
  exact ((discardCall_calm ⟨receiver', args'⟩).onFailure (hrelease y)).bind fun _ _ => .pure hy

theorem backTo_calm (earlier : World) : Calm g (backTo run earlier) Anything := by
  refine .get_bind fun w _ => Calm.bind (.modify fun _ hw => { hw with }) fun _ _ => ?_
  refine Calm.always (discard_calm ?_) (discard_calm ?_)
  · rw [piecesOf_keys]
    exact untracked_handles _
  · rw [piecesOf_flatMap piecesOf_call, ← handles_flatMap]
    exact untracked_handles _

theorem enclosed_calm {x : Act α} (hx : Calm g x p) : Calm g (enclosed run x) p :=
  .get_bind fun w _ => hx.onFailure (backTo_calm w)

end LiveOrder.World
