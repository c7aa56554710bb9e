import LiveOrder.Proofs.Scripts.Reading
import LiveOrder.Proofs.World.Functions
import LiveOrder.World.Perform

/-!
# Operations of script programs

* `perform_measure_calm`   the size of a container, which is read and nothing else;
* `invoke_calm`, `realmForEach_calm`   functions, which run script programs;
* `store_calm`, `insert_calm`, `visit_calm`   parts of operations;
* `perform_calm`    one operation, if the programs inside it are calm.

A container of script values is made with no entries, in no use, and stays a script container.  So what
an operation finds under a name is one, and takes plain keys only.
-/

namespace LiveOrder.World

open Act Table

variable {run : Runner} {r : Nat} {kind : Kind}

/-! ## the size of a container -/

theorem perform_measure_calm (c : Target) : Calm {} (perform run (.measure c)) Result.Peaceful := by
  rw [perform]
  refine withContainer_calm c fun r kind _ => (size_calm r).bind fun len _ => ?_
  split
  · exact (size_calm r).bind fun _ _ => .pure (.of_plain rfl)
  · exact (size_calm r).bind fun _ _ => (size_calm r).bind fun _ _ => .pure (.of_plain rfl)

/-! ## functions -/

/-- A call is counted, and the function stays what it was. -/
theorem setFunction_leads {n : Nat} {f f' : FunctionBody} {E : World → Prop} (hbody : f'.body = f.body) :
    Leads (fun w => w.Gentle {} ∧ get? r w.cells = some ⟨n, .function f⟩) (setBody r (.function f'))
      (fun _ => (·.Gentle {})) E := by
  refine .modify fun w ⟨hw, hd⟩ => ?_
  obtain ⟨hscripted, hpins⟩ := hw.bodies hd
  exact hw.setBody (.function f') [] [] hd ⟨hbody ▸ hscripted, hpins⟩ (fun _ _ => rfl) fun _ _ => rfl

section
variable (hrun : run.Calm)
include hrun

theorem invoke_calm (f : Nat) (receiver : Value) (args : List Value) :
    Calm {} (invoke run f receiver args) Anything := by
  refine Leads.bind (cell_leads f).relax fun d => ?_
  obtain ⟨n, body⟩ := d
  cases body with
  | container c => exact .throw id fun _ hw => hw.1
  | allocation s => exact .throw id fun _ hw => hw.1
  | function b =>
    refine Leads.pre (P := fun w => (w.Gentle {} ∧ get? f w.cells = some ⟨n, .function b⟩) ∧
      ∀ s ∈ b.body, s.Scripted) (.of_and fun hscripted => ?_) fun w hw => ⟨hw, (hw.1.bodies hw.2).1⟩
    have hresult : ∀ acts : List Answer, (∀ a ∈ acts, a.Peaceful) → Calm {} (do
        let result ← attempt (enclosed run (readValue b.result))
        pure (acts, result.toOption.getD .undefined)) fun y => ∀ a ∈ y.1, a.Peaceful :=
      fun acts hacts => (enclosed_calm (readValue_calm b.result)).attempt.bind fun _ _ => .pure hacts
    have hbody : Calm {} (do
        let acts ← if b.calls < b.limit then run b.body else pure []
        let result ← attempt (enclosed run (readValue b.result))
        pure (acts, result.toOption.getD .undefined)) fun y => ∀ a ∈ y.1, a.Peaceful := by
      dsimp only
      split
      · exact (hrun b.body hscripted).bind hresult
      · exact hresult [] (List.forall_mem_nil _)
    refine .get_bind fun w _ => Leads.pre ?_ fun _ hv => hv.1
    refine Leads.bind (setFunction_leads rfl) fun _ => ?_
    refine Calm.bind (duringCall_calm receiver args hbody fun y => discardValue_calm y.2) fun y hy => ?_
    exact (log_calm (.called hy)).bind fun _ _ => .pure trivial

omit hrun in
theorem receiverFor_calm (realm : Realm) (given : Option Value) :
    Calm {} (receiverFor realm given) Anything := by
  have hunbound : Calm {} (receiverFor.unbound realm) Anything := by
    unfold receiverFor.unbound
    split
    · exact .pure trivial
    · exact copyValue_calm _
  unfold receiverFor
  split
  · split
    · exact hunbound
    · exact copyValue_calm _
  · exact hunbound

omit hrun in
theorem callbackArgs_calm (r : Nat) (kind : Kind) {y : Yield} (hy : Untracked y.assets) :
    Calm {} (callbackArgs run r kind y) Anything := by
  fun_cases callbackArgs run r kind y with
  | case1 k v => exact (retain_calm r).bind fun _ _ => .pure trivial
  | case2 k => exact (copyValue_calm k).bind fun _ _ => (retain_calm r).bind fun _ _ => .pure trivial
  | case3 y => exact (discard_calm hy).bind fun _ _ => .throw id

theorem callback_calm (f : Nat) (receiver : Value) (kind : Kind) {y : Yield} (hy : Untracked y.assets) :
    Calm {} (do
      let args ← callbackArgs run r kind y
      let release := discard run (args.map fun v => .item (.value v))
      let result ← Act.onFailure (invoke run f receiver args) release
      Act.onFailure release (discardValue run result)
      discardValue run result) Anything := by
  refine (callbackArgs_calm r kind hy).bind fun args _ => ?_
  have hrelease : Calm {} (discard run (args.map fun v => .item (.value v))) Anything :=
    discardValues_calm args
  refine ((invoke_calm hrun f receiver args).onFailure hrelease).bind fun result _ => ?_
  exact (hrelease.onFailure (discardValue_calm result)).bind fun _ _ => discardValue_calm result

theorem realmForEach_calm (realm : Realm) (r : Nat) (kind : Kind) (callback : Value)
    (given : Option Value) : Calm {} (realmForEach run realm r kind callback given) Anything := by
  unfold realmForEach
  split
  · exact (tell_calm (by simp)).bind fun _ _ => .throw id
  · rename_i f _
    refine (receiverFor_calm realm given).bind fun receiver _ => ?_
    exact ((forEach_calm r fun _ _ hy => callback_calm hrun f receiver kind hy).bind fun _ _ =>
      .pure trivial).always (discardValue_calm receiver)

omit hrun in
theorem constructing_calm (typeName : String) (plain : Bool) :
    Calm {} (constructing typeName plain) Anything := by
  unfold constructing
  split
  · exact (tell_calm (by simp)).bind fun _ _ => .throw id
  · exact .pure trivial

end

/-! ## names and iterators -/

theorem takeIterator_calm (it : String) : Calm {} (takeIterator it) Anything := by
  refine .get_bind fun w _ => ?_
  cases get? it w.iterators with
  | none => exact .throw id
  | some x => exact Calm.bind (.modify fun _ hw => { hw with }) fun _ _ => .pure trivial

theorem bindName_calm (name : String) (b : Binding) : Calm {} (bindName run name b) Anything := by
  refine (rebind_calm name b).bind fun old _ => ?_
  cases old with
  | none => exact .pure trivial
  | some old => exact discardHandles_calm old.refs

theorem install_calm (it : String) (x : Iterator) : Calm {} (install run it x) Anything := by
  refine .get_bind fun w _ => Calm.bind (.modify fun _ hw => { hw with }) fun _ _ => ?_
  cases get? it w.iterators with
  | none => exact .pure trivial
  | some old => exact closeWalk_calm old.walk

theorem withIterator_calm {α : Type} {p : α → Prop} (it : String) {body : Iterator → Act α}
    (hbody : ∀ x, Calm {} (body x) p) : Calm {} (withIterator run it body) p :=
  (takeIterator_calm it).bind fun x _ => (hbody x).always (install_calm it x)

/-! ## parts of operations -/

theorem consume_calm (kind : Kind) {y : Yield} (hy : Untracked y.assets) :
    Calm {} (consume run kind y) Anything :=
  .get_bind fun _ _ => (discard_calm hy).bind fun _ _ => .pure trivial

theorem build_calm (hkind : kind.isScript = true) {entries : List (Query × Item)}
    (h : ∀ e ∈ entries, Entry.Quiet e) : Calm {} (build run kind entries) Anything :=
  (newContainer_calm hkind).bind fun r _ =>
    ((putEach_calm h).onFailure (discardHandle_calm r)).bind fun _ _ => .pure trivial

theorem store_calm (r : Nat) (hkind : kind.isScript = true) (entries : List (Term × Payload)) :
    Calm {} (store run r kind entries) Anything := by
  have hall : ∀ l, Calm {} (do putEach run r (← readEntries run kind l)) Anything := fun l =>
    (readEntries_calm hkind l).bind fun _ hl => putEach_calm hl
  unfold store
  split
  · exact .forM fun entry _ => hall [entry]
  · exact hall entries

theorem require_calm (known : Bool) : Calm {} (require known) Anything := by
  unfold require
  split
  · exact .pure trivial
  · exact .throw id

theorem insert_calm (r : Nat) (kind : Kind) {q : Query} {item : Item} (h : Entry.Quiet (q, item)) :
    Calm {} (insert run r kind q item) Result.Peaceful := by
  refine (upsert_calm h).bind fun outcome hgiven => ?_
  cases outcome with
  | inserted s =>
    refine .pure ?_
    split
    · exact .of_plain rfl
    · exact .of_plain rfl
  | updated s key previous =>
    have hprevious : Untracked previous.assets := (untracked_add.mp hgiven).2
    have hitem : Calm {} (discard run [.item previous]) Anything := discardItem_calm hprevious
    dsimp only
    split
    · exact (discardPair_calm key hprevious).bind fun _ _ => .pure (.of_plain rfl)
    · exact ((discardKey_calm key).onFailure hitem).bind fun _ _ => .get_bind fun _ _ =>
        hitem.bind fun _ _ => .pure (.of_plain rfl)

theorem nextShown_calm (x : Iterator) : Calm {} (nextShown run x) Anything := by
  refine (advance_calm x.walk x.kind x.selection).bind fun y? hy => ?_
  cases y? with
  | none => exact .pure trivial
  | some y => exact consume_calm x.kind (hy y rfl)

theorem nextEach_calm (x : Iterator) (n : Nat) : Calm {} (nextEach run x n) Anything := by
  induction n with
  | zero => exact .pure trivial
  | succ n ih => exact (nextShown_calm x).bind fun _ _ => ih.bind fun _ _ => .pure trivial

theorem inspection_calm (v : Value) : Calm {} (inspection v) Anything :=
  .get_bind fun _ _ => (displayValue_calm v false).bind fun _ _ => .pure trivial

theorem readArgs_calm (terms : List Term) (done : List Value) :
    Calm {} (readArgs run terms done) Anything := by
  induction terms generalizing done with
  | nil => exact .pure trivial
  | cons t rest ih =>
    exact ((readValue_calm t).onFailure (discardValues_calm done)).bind fun v _ => ih (done ++ [v])

/-- A callback runs only programs of its operation. -/
theorem visit_calm (hrun : run.Calm) (kind : Kind) {each : List Step} {atVisit : List (Nat × List Step)}
    (heach : ∀ s ∈ each, s.Scripted) (hvisits : ∀ row ∈ atVisit, ∀ s ∈ row.2, s.Scripted) (limit n : Nat)
    {y : Yield} (hy : Untracked y.assets) :
    Calm {} (visit run kind each atVisit limit n y) Visit.Peaceful := by
  have hat : ∀ s ∈ (get? n atVisit).getD [], s.Scripted := by
    intro s hs
    cases hrow : get? n atVisit with
    | none =>
      rw [hrow] at hs
      cases hs
    | some steps =>
      rw [hrow] at hs
      exact hvisits _ (mem_of_get? hrow) s hs
  have hbody : ∀ s ∈ if n < limit then each ++ (get? n atVisit).getD [] else [], s.Scripted := by
    split
    · exact fun s hs => (List.mem_append.mp hs).elim (heach s) (hat s)
    · exact List.forall_mem_nil _
  refine .get_bind fun w _ => Calm.bind (p := fun l : List Answer => ∀ a ∈ l, a.Peaceful) ?_
    fun acts hacts => .pure (.mk hacts)
  have hrunning : ∀ body : List Step, (∀ s ∈ body, s.Scripted) →
      Calm {} (if body.isEmpty then pure [] else run body) fun l => ∀ a ∈ l, a.Peaceful := by
    intro body h
    split
    · exact .pure (List.forall_mem_nil _)
    · exact hrun body h
  refine Calm.always ?_ (discard_calm hy)
  split
  · exact duringVisit_calm _ (hrunning _ hbody)
  · exact hrunning _ hbody

/-! ## operations -/

section
variable (hrun : run.Calm)

theorem perform_insert_calm (c : Target) (k : Term) (v : Payload) :
    Calm {} (perform run (.insert c k v)) Result.Peaceful := by
  rw [perform]
  refine withContainer_calm c fun r kind hkind => (require_calm _).bind fun _ _ => ?_
  refine (readQueryFor_calm hkind k).bind fun q hq => ?_
  dsimp only
  split
  · exact insert_calm r kind ⟨hq, untracked_zero⟩
  · exact ((readItem_calm hkind v).onFailure (discardKey_calm q.key)).bind fun item hi =>
      insert_calm r kind ⟨hq, hi⟩

theorem perform_get_calm (c : Target) (k : Term) :
    Calm {} (perform run (.get c k)) Result.Peaceful := by
  rw [perform]
  refine withContainer_calm c fun r kind hkind => (require_calm _).bind fun _ _ => ?_
  refine withQuery_calm hkind k fun q hq => (lookup_calm hq).bind fun found hfound => ?_
  cases found with
  | none => exact .pure (.of_plain rfl)
  | some item =>
    exact .get_bind fun _ _ => (discardItem_calm (hfound item rfl)).bind fun _ _ => .pure (.of_plain rfl)

theorem perform_debug_calm (c : Target) (spread : Bool) :
    Calm {} (perform run (.debug c spread)) Result.Peaceful := by
  rw [perform]
  refine withTarget_calm c fun r => (cell_calm r).bind fun d _ => ?_
  split
  · exact (debugText_calm r spread).bind fun _ _ => .pure (.of_plain rfl)
  · exact .pure (.of_plain rfl)
  · exact .throw id

theorem perform_realm_calm (name : String) (unboundThis : UnboundThis) (global : Option String) :
    Calm {} (perform run (.realm name unboundThis global)) Result.Peaceful := by
  unfold perform
  dsimp only
  have hrest : ∀ (r : Nat) (f : String → Result), (∀ text, (f text).isPlain = true) →
      Calm {} (do
        Act.onFailure
          (do
            retain r
            bindName run (name ++ ".global") (.object r))
          (discard run [.handle r])
        let object ← Act.onFailure (debugText r false) (discard run [.handle r])
        bindName run name (.realm ⟨r, unboundThis⟩)
        pure (f object)) Result.Peaceful := by
    intro r f hf
    have hfirst : Calm {} (do
        retain r
        bindName run (name ++ ".global") (.object r)) Anything :=
      (retain_calm r).bind fun _ _ => bindName_calm _ _
    refine (hfirst.onFailure (discardHandle_calm r)).bind fun _ _ => ?_
    refine ((debugText_calm r false).onFailure (discardHandle_calm r)).bind fun text _ => ?_
    exact (bindName_calm name _).bind fun _ _ => .pure (.of_plain (hf text))
  cases global with
  | none => exact (newContainer_calm rfl).bind fun r _ => hrest r _ fun _ => rfl
  | some g => exact (readNamed_calm g _ _).bind fun r _ => hrest r _ fun _ => rfl

theorem perform_construct_calm (hkind : kind.isScript = true) (home name : String)
    (entries : List (Term × Payload)) (plain : Bool) :
    Calm {} (perform run (.construct kind home name entries plain)) Result.Peaceful := by
  rw [perform]
  refine (realmNamed_calm home).bind fun _ _ => (readEntries_calm hkind entries).bind fun l hl => ?_
  refine ((constructing_calm _ plain).onFailure (discard_calm (untracked_entries hl))).bind fun _ _ => ?_
  exact (build_calm hkind hl).bind fun r _ => (bindName_calm name _).bind fun _ _ => .pure (.of_plain rfl)

include hrun in
theorem perform_realmForEach_calm (home : String) (c : Target) (callback : Term)
    (receiver : Option Term) :
    Calm {} (perform run (.realmForEach home c callback receiver)) Result.Peaceful := by
  rw [perform]
  refine (realmNamed_calm home).bind fun here _ => Calm.bind (holding_calm (p := Anything) ?_) fun _ _ =>
    .pure (.of_plain rfl)
  refine withValue_calm callback fun f => withValue?_calm receiver fun given => ?_
  exact withContainer_calm c fun r kind _ => (require_calm _).bind fun _ _ =>
    realmForEach_calm hrun here r kind f given

include hrun in
theorem perform_call_calm (f given : Term) (args : List Term) :
    Calm {} (perform run (.call f given args)) Result.Peaceful := by
  rw [perform]
  refine withValue_calm f fun f => ?_
  split
  · exact .throw id
  · rename_i q _
    refine withValue_calm given fun given => (readArgs_calm args []).bind fun args _ => ?_
    refine Calm.always ?_ (discardValues_calm args)
    exact (invoke_calm hrun q given args).bind fun result _ => .get_bind fun _ _ =>
      (discardValue_calm result).bind fun _ _ => .pure (.of_plain rfl)

include hrun in
theorem perform_calm {op : Op} (h : op.Scripted) : Calm {} (perform run op) Result.Peaceful := by
  have hbind : ∀ name b, Calm {} (do
      bindName run name b
      pure Result.nothing) Result.Peaceful := fun name b =>
    (bindName_calm name b).bind fun _ _ => .pure (.of_plain rfl)
  cases h with
  | @container kind name entries hkind =>
    rw [perform]
    exact (readEntries_calm hkind entries).bind fun _ hl => (build_calm hkind hl).bind fun r _ =>
      hbind name (.object r)
  | @construct kind home name entries plain hkind =>
    exact perform_construct_calm hkind home name entries plain
  | @forEach c each atVisit limit heach hvisits =>
    rw [perform]
    refine withContainer_calm c fun r kind _ => (require_calm _).bind fun _ _ => ?_
    exact (forEach_calm r fun n _ hy => visit_calm hrun kind heach hvisits limit n hy).bind fun l hl =>
      .pure (.visits hl)
  | @function name body limit result hbody =>
    rw [perform]
    exact (allocate_calm (.function _) ⟨hbody, fun _ => rfl⟩).bind fun r _ => hbind name (.object r)
  | plain hplain =>
    cases op with
    | container kind name entries => cases hplain
    | construct kind home name entries plain => cases hplain
    | forEach c each atVisit limit => cases hplain
    | function name body limit result => cases hplain
    | insert c k v => exact perform_insert_calm c k v
    | get c k => exact perform_get_calm c k
    | measure c => exact perform_measure_calm c
    | debug c spread => exact perform_debug_calm c spread
    | realm name unboundThis global => exact perform_realm_calm name unboundThis global
    | realmForEach home c callback receiver => exact perform_realmForEach_calm hrun home c callback receiver
    | call f given args => exact perform_call_calm hrun f given args
    | allocation name text =>
      rw [perform]
      exact (allocate_calm (.allocation text) fun _ => rfl).bind fun r _ => hbind name (.object r)
    | share c name =>
      rw [perform]
      exact (readBinding_calm c).bind fun b _ => hbind name b
    | unbind name =>
      rw [perform]
      refine (unbound_calm name).bind fun old _ => ?_
      cases old with
      | none => exact .pure (.of_plain rfl)
      | some old => exact (discardHandles_calm old.refs).bind fun _ _ => .pure (.of_plain rfl)
    | identical c d =>
      rw [perform]
      exact withTarget_calm c fun r => withTarget_calm d fun s => .pure (.of_plain rfl)
    | put c entries =>
      rw [perform]
      exact withContainer_calm c fun r kind hkind => (store_calm r hkind entries).bind fun _ _ =>
        (size_calm r).bind fun _ _ => .pure (.of_plain rfl)
    | extend c entries =>
      rw [perform]
      exact withContainer_calm c fun r kind hkind => (require_calm _).bind fun _ _ =>
        (store_calm r hkind _).bind fun _ _ => (size_calm r).bind fun _ _ => .pure (.of_plain rfl)
    | has c k =>
      rw [perform]
      exact withContainer_calm c fun r kind hkind => withQuery_calm hkind k fun q hq =>
        (has_calm hq).bind fun _ _ => .pure (.of_plain rfl)
    | delete c k =>
      rw [perform]
      exact withContainer_calm c fun r kind hkind => (require_calm _).bind fun _ _ =>
        withQuery_calm hkind k fun q hq => (delete_calm hq).bind fun _ _ => .pure (.of_plain rfl)
    | clear c =>
      rw [perform]
      exact withContainer_calm c fun r kind _ => (require_calm _).bind fun _ _ =>
        (clear_calm r).bind fun _ _ => (size_calm r).bind fun _ _ => .pure (.of_plain rfl)
    | list c selection limit =>
      rw [perform]
      exact withContainer_calm c fun r kind _ =>
        (list_calm r selection (fun _ hy => consume_calm kind hy) limit).bind fun _ _ =>
          .pure (.of_plain rfl)
    | iterate c selection it =>
      rw [perform]
      exact withContainer_calm c fun r kind _ => (openWalk_calm r).bind fun id _ =>
        (install_calm it ⟨id, kind, selection⟩).bind fun _ _ => .pure (.of_plain rfl)
    | next it count =>
      cases count with
      | none =>
        rw [perform]
        exact withIterator_calm it fun x => (nextShown_calm x).bind fun _ _ => .pure (.of_plain rfl)
      | some n =>
        rw [perform]
        exact withIterator_calm it fun x => (nextEach_calm x n).bind fun _ _ => .pure (.of_plain rfl)
    | drain it limit =>
      rw [perform]
      exact (takeIterator_calm it).bind fun x _ =>
        (takeLast_calm (fun _ hy => consume_calm x.kind hy) limit).bind fun _ _ => .pure (.of_plain rfl)
    | close it =>
      rw [perform]
      exact (takeIterator_calm it).bind fun x _ => (closeWalk_calm x.walk).bind fun _ _ =>
        .pure (.of_plain rfl)
    | same a b =>
      rw [perform]
      exact withValue_calm a fun _ => withValue_calm b fun _ => .pure (.of_plain rfl)
    | inspect v =>
      rw [perform]
      exact withValue_calm v fun v => (inspection_calm v).bind fun _ _ => .pure (.of_plain rfl)
    | unknown =>
      rw [perform]
      exact .throw id

end

end LiveOrder.World
