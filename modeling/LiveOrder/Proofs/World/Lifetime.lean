import LiveOrder.Proofs.World.Access

/-!
# Logs, handles and releases

* `Runner.Safe`       what is asked of the programs inside an operation;
* `log_owns`, `logged_safe`   what is logged is clean, so what was logged is;
* `retainAll_owns`    one handle for each reference;
* `discard_owns`      a release runs user code, piece by piece, and takes what the pieces hold.
-/

namespace LiveOrder

/-- Programs answer without internal failures, and leave nothing open when they are cut short. -/
def Runner.Safe (run : Runner) : Prop :=
  ∀ lent steps, Act.Settles lent (0 : Hands) (run steps) fun l => .plain 0 (∀ a ∈ l, a.Clean)

theorem Runner.Safe.run {run : Runner} (h : run.Safe) (lent : Hands) (steps : List Step) :
    Act.Safe lent (run steps) fun l => ∀ a ∈ l, a.Clean := (h lent steps).owns

namespace World

open Act Situation Table

variable {α : Type} {w : World} {lent h u left : Hands} {a : Situation} {b : α → Situation} {x : Act α}
  {p : α → Prop} {r : Nat}

/-! ## logs -/

theorem log_owns {e : Event} (he : e.Clean) : Owns lent h (log e) (fun _ => h) left := by
  refine .modify fun others w hw => ?_
  cases hf : w.frames with
  | nil => exact ⟨hw, .refl w⟩
  | cons f rest =>
    refine ⟨⟨hw.1.setFrames fun l hl d hd => ?_, trivial⟩, .of_same rfl rfl⟩
    have hold : ∀ l ∈ f :: rest, ∀ d ∈ l, d.Clean := hf ▸ hw.1.clean
    rcases List.mem_cons.mp hl with rfl | hl
    · rcases List.mem_cons.mp hd with rfl | hd
      · exact he
      · exact hold f List.mem_cons_self d hd
    · exact hold l (List.mem_cons_of_mem _ hl) d hd

theorem tell_owns (notices : List Notice) : Owns lent h (tell notices) (fun _ => h) left := by
  refine .get_bind fun w => ?_
  split
  · induction notices with
    | nil => exact .pure (.refl _)
    | cons n rest ih => exact (log_owns (.notice trivial)).bind fun _ => ih
  · exact .pure (.refl _)

theorem cells_log (e : Event) (w : World) : (log e w).2.cells = w.cells := by
  cases hframes : w.frames with
  | nil => simp only [log, modify_apply, hframes]
  | cons f rest => simp only [log, modify_apply, hframes]

/-- What is told is logged, and that is all. -/
theorem tell_ok (notices : List Notice) (w : World) :
    ∃ u, tell notices w = (.ok (), u) ∧ u.cells = w.cells := by
  have hall : ∀ w, ∃ u, notices.forM (fun n => log (.notice n)) w = (.ok (), u) ∧ u.cells = w.cells := by
    induction notices with
    | nil => exact fun w => ⟨w, rfl, rfl⟩
    | cons n rest ih =>
      intro w
      obtain ⟨u, hrest, hcells⟩ := ih (log (.notice n) w).2
      exact ⟨u, hrest, hcells.trans (cells_log _ w)⟩
  rw [tell, get_bind_apply]
  split
  · exact hall w
  · exact ⟨w, rfl, rfl⟩

theorem setFrames_owns {g : List (List Event) → List (List Event)}
    (hg : ∀ frames, (∀ log ∈ frames, ∀ e ∈ log, e.Clean) → ∀ log ∈ g frames, ∀ e ∈ log, e.Clean) :
    Owns lent h (modify fun w : World => { w with frames := g w.frames }) (fun _ => h) left :=
  .modify fun _ w hw =>
    ⟨⟨hw.1.setFrames (hg w.frames hw.1.clean), trivial⟩, .of_same rfl rfl⟩

/-- The outcome of an action with its log. -/
theorem logged_safe {q : Except Failure α → Prop} (hx : Safe lent (attempt x) q) :
    Safe lent (logged x) fun y => q y.1 ∧ ∀ e ∈ y.2, e.Clean := by
  refine Owns.bind (setFrames_owns fun frames hf log hlog e he => ?_) fun _ =>
    hx.before fun outcome ho => Owns.get.bind fun w => ?_
  · rcases List.mem_cons.mp hlog with rfl | hlog
    · cases he
    · exact hf log hlog e he
  refine .of_holds (p := ∀ e ∈ w.frames.headD [], e.Clean) (fun others v _ hv e he => ?_) fun hlog => ?_
  · obtain ⟨rfl, _⟩ := hv.2
    cases hf : v.frames with
    | nil =>
      rw [hf] at he
      cases he
    | cons f rest =>
      rw [hf] at he
      exact hv.1.clean f (hf ▸ List.mem_cons_self) e he
  · refine Owns.bind ((setFrames_owns fun frames hf log hl => ?_).weaken (entails_hands _)
      fun _ => .refl _) fun _ => Safe.pure ⟨ho, fun e he => hlog e (List.mem_reverse.mp he)⟩
    exact hf log (List.mem_of_mem_tail hl)

/-! ## handles -/

theorem steady_setHandles (w : World) (r n : Nat) :
    Steady w { w with cells := change r (fun d => { d with handles := n }) w.cells } := by
  refine .of_forms (fun q f hf => ?_) fun q c hc => ?_
  · rwa [formAt_setHandles] at hf
  · rwa [containerAt?_setHandles] at hc

theorem retain_keeps (hw : w.InOrder h) (hr : w.Has r) :
    ∃ v, retain r w = (.ok (), v) ∧ v.InOrder (h + handles [r]) ∧ (∀ q, w.Has q → v.Has q) ∧
      Steady w v := by
  obtain ⟨d, hd⟩ := hr
  refine ⟨_, ?_, hw.retain hd, fun q ⟨e, he⟩ => ?_, steady_setHandles w r _⟩
  · rw [retain, bind_apply, cell_eq hd]
    rfl
  · unfold Has
    rw [get?_change, he]
    split <;> exact ⟨_, rfl⟩

theorem retain_owns (hr : Sees lent a r) :
    Owns lent a (retain r) (fun _ => ↑(a.hands + handles [r])) left := by
  intro others w hlent hw
  obtain ⟨v, he, hv, _, hsteady⟩ := retain_keeps hw.1 (hr others w hlent hw)
  rw [he]
  exact ⟨⟨hv.of_eq (add_assoc _ _ _).symm, trivial⟩, hsteady⟩

/-- Objects that are there can be held, and others that are there are still there. -/
theorem retainAll_owns (refs more : List Nat) :
    Owns lent ⟨h, fun w => ∀ q ∈ refs ++ more, w.Has q⟩ (retainAll refs)
      (fun _ => ⟨h + handles refs, fun w => ∀ q ∈ more, w.Has q⟩) left := by
  induction refs generalizing h with
  | nil => exact .pure fun _ _ hw => ⟨hw.1.of_eq (by simp), hw.2⟩
  | cons r rest ih =>
    refine Owns.bind (b := fun _ => ⟨h + handles [r], fun w => ∀ q ∈ rest ++ more, w.Has q⟩) ?_
      fun _ => ?_
    · intro others w _ hw
      obtain ⟨v, he, hv, hkeeps, hsteady⟩ := retain_keeps hw.1 (hw.2 r List.mem_cons_self)
      rw [he]
      refine ⟨⟨hv.of_eq (add_assoc _ _ _).symm, fun q hq => ?_⟩, hsteady⟩
      exact hkeeps q (hw.2 q (List.mem_cons_of_mem _ hq))
    · refine ih.weaken (.refl _) fun _ others w hw => ⟨hw.1.of_eq ?_, hw.2⟩
      show others + (h + handles (r :: rest)) = others + (h + handles [r] + handles rest)
      rw [handles_cons]
      abel

/-- What is lent or in hand is there. -/
theorem has_of_handles {refs : List Nat} {others : Hands} (hw : w.InOrder (others + h))
    (hlent : lent ⊆ others) (hr : handles refs ⊆ lent + h) : ∀ r ∈ refs, w.Has r := by
  intro r hmem
  refine hw.exists_of_mem (Multiset.mem_add.mpr ?_)
  rcases Multiset.mem_add.mp (hr (handle_mem_handles.mpr hmem)) with hl | hl
  · exact .inl (hlent hl)
  · exact .inr hl

/-- A copy of what is lent or in hand. -/
theorem retainAll_lent_owns {refs : List Nat} (hr : handles refs ⊆ lent + h) :
    Owns lent h (retainAll refs) (fun _ => ↑(h + handles refs)) left := by
  have hall := (retainAll_owns refs [] : Owns lent ⟨h, _⟩ _ _ left)
  intro others w hlent hw
  have hhas : ∀ q ∈ refs ++ [], w.Has q := by
    rw [List.append_nil]
    exact has_of_handles hw.1 hlent hr
  exact hall.weaken (.refl _) (fun _ => entails_hands _) others w hlent ⟨hw.1, hhas⟩

theorem copyKey_lent_owns {k : Key} (hk : handles k.refs ⊆ lent + h) :
    Owns lent h (copyKey k) (fun k' => plain (h + handles k.refs) (k' = k)) left :=
  (retainAll_lent_owns hk).bind fun _ => .pure (entails_plain rfl)

theorem copyValue_lent_owns {v : Value} (hv : handles v.refs ⊆ lent + h) :
    Owns lent h (copyValue v) (fun v' => plain (h + handles v.refs) (v' = v)) left :=
  (retainAll_lent_owns hv).bind fun _ => .pure (entails_plain rfl)

theorem copyValues_lent_owns {l : List Value} (hl : handles (l.flatMap Value.refs) ⊆ lent) :
    Owns lent h (l.mapM copyValue)
      (fun l' => plain (h + handles (l.flatMap Value.refs)) (l' = l)) left := by
  induction l generalizing h with
  | nil => exact .pure fun _ _ hw => ⟨hw.1.of_eq (by simp [plain]), rfl⟩
  | cons v rest ih =>
    rw [List.flatMap_cons, handles_append] at hl ⊢
    have hv : handles v.refs ⊆ lent + h := fun z hz =>
      Multiset.mem_add.mpr (.inl (hl (Multiset.mem_add.mpr (.inl hz))))
    have hrest : handles (rest.flatMap Value.refs) ⊆ lent := fun z hz =>
      hl (Multiset.mem_add.mpr (.inr hz))
    rw [List.mapM_cons]
    refine (copyValue_lent_owns hv).bind fun v' => .of_plain fun hv' => ?_
    refine (ih hrest).bind fun l' => .of_plain fun hl' => .pure fun _ w hw => ⟨hw.1.of_eq ?_, ?_⟩
    · exact congrArg _ (add_assoc _ _ _).symm
    · rw [hv', hl']
      exact rfl

/-! ## new objects -/

theorem allocate_owns {body : Body} (hassets : body.assets = 0)
    (hb : ∀ c, body.container? = some c → c.store.Sound (fun _ => 0) ∧ c.Disciplined)
    (hnew : ∀ {c}, body.container? = some c → ∀ s, c.store.chain.arena.get? s = none)
    (hidle : body.form.Idle) :
    Owns lent h (allocate body) (fun r => ↑(h + handles [r])) left := by
  intro others w _ hw
  refine ⟨⟨(hw.1.allocate hassets hb hnew).of_eq (add_assoc _ _ _).symm, trivial⟩,
    ⟨.of_eq rfl, Nat.le_succ _, fun {q f} hf => ?_, fun {q c} hc => ?_, Nat.le_refl _, fun _ h => h,
      rfl⟩, rfl, rfl⟩
  · unfold formAt at hf ⊢
    rw [get?_append] at hf
    cases hq : get? q w.cells with
    | some d =>
      rw [hq] at hf
      exact .inl hf
    | none =>
      rw [hq] at hf
      dsimp only at hf
      split at hf
      · rename_i hfresh
        cases hf
        exact .inr ⟨Nat.le_of_eq hfresh.symm, hidle⟩
      · cases hf
  · unfold containerAt? at hc ⊢
    rw [get?_append] at hc
    cases hq : get? q w.cells with
    | some d =>
      rw [hq] at hc
      exact .inl ⟨c, hc, .refl _⟩
    | none =>
      rw [hq] at hc
      dsimp only at hc
      split at hc
      · rename_i hfresh
        exact .inr (Nat.le_of_eq hfresh.symm)
      · cases hc

theorem allocatePlain_owns {body : Body} (hb : body.container? = none) :
    Owns lent h (allocate body) (fun r => ↑(h + handles [r])) left := by
  refine allocate_owns ?_ (fun c hc => ?_) (fun hc => ?_) ?_
  · cases body with
    | container c => cases hb
    | _ => rfl
  · rw [hb] at hc
    cases hc
  · rw [hb] at hc
    cases hc
  · cases body with
    | container c => cases hb
    | _ => exact trivial

theorem newContainer_owns (kind : Kind) :
    Owns lent h (newContainer kind) (fun r => ↑(h + handles [r])) left := by
  refine allocate_owns rfl (fun c hc => ?_) (fun hc s => ?_) ⟨rfl, rfl, rfl⟩
  · cases hc
    exact ⟨Store.sound_withHasher Token.digest, .new kind⟩
  · cases hc
    rfl

/-! ## names -/

theorem binding_owns (name : String) (hl : (h : Situation).Entails left) :
    Owns lent h (binding name) (fun b => ⟨h, fun w => ∀ r ∈ b.refs, w.Has r⟩) left := by
  refine Owns.get.bind fun w => ?_
  cases hb : get? name w.names with
  | none => exact .throw id fun others v hv => hl others v ⟨hv.1, trivial⟩
  | some b =>
    refine .pure fun others v hv => ⟨hv.1, fun r hr => ?_⟩
    obtain ⟨rfl, _⟩ := hv.2
    apply hv.1.exists_of_mem_assets
    unfold World.assets World.loose
    rw [total_of_get? Binding.assets hv.1.names hb]
    simp [Binding.assets, hr]

theorem named_owns (name : String) (hl : (h : Situation).Entails left) :
    Owns lent h (named name) (fun r => ⟨h, fun w => w.Has r⟩) left := by
  refine (binding_owns name hl).bind fun b => ?_
  cases b with
  | object r => exact .pure fun _ _ hw => ⟨hw.1, hw.2 r List.mem_cons_self⟩
  | realm x => exact .throw id fun others w hw => hl others w ⟨hw.1, trivial⟩

theorem realmNamed_owns (name : String) (hl : (h : Situation).Entails left) :
    Owns lent h (realmNamed name) (fun x => ⟨h, fun w => w.Has x.global⟩) left := by
  refine (binding_owns name hl).bind fun b => ?_
  cases b with
  | object r => exact .throw id fun others w hw => hl others w ⟨hw.1, trivial⟩
  | realm x => exact .pure fun _ _ hw => ⟨hw.1, hw.2 x.global List.mem_cons_self⟩

theorem rebind_owns (name : String) (b : Binding) :
    Owns lent (h + b.assets : Hands) (rebind name b)
      (fun old => ↑(h + old.elim 0 Binding.assets)) left := by
  refine Owns.get.bind fun w => Owns.bind (b := fun _ =>
    ↑(h + (get? name w.names).elim 0 Binding.assets)) (.modify fun others v hv => ?_)
      fun _ => .pure (.refl _)
  obtain ⟨rfl, _⟩ := hv.2
  have hv' : v.InOrder (others + h + b.assets) := hv.1.of_eq (add_assoc _ _ _)
  exact ⟨⟨(hv'.rebind name).of_eq (add_assoc _ _ _).symm, trivial⟩, .of_same rfl rfl⟩

theorem unbound_owns (name : String) :
    Owns lent h (unbound name) (fun old => ↑(h + old.elim 0 Binding.assets)) left := by
  refine Owns.get.bind fun w => Owns.bind (b := fun _ =>
    ↑(h + (get? name w.names).elim 0 Binding.assets)) (.modify fun others v hv => ?_)
      fun _ => .pure (.refl _)
  obtain ⟨rfl, _⟩ := hv.2
  exact ⟨⟨(hv.1.unbind name).of_eq (add_assoc _ _ _).symm, trivial⟩, .of_same rfl rfl⟩

/-! ## releases -/

theorem piecesOf_contents {body : Body} {pins : Nat → Nat}
    (hb : ∀ c, body.container? = some c → c.store.Sound pins) :
    piecesOf body.contents = body.assets := by
  cases body with
  | function f => rfl
  | allocation s => rfl
  | container c =>
    calc piecesOf (debrisOf c.store.contents)
        = pairsOf c.store.contents := piecesOf_debrisOf _
      _ = pairsOf c.store.held := pairsOf_perm (Store.contents_perm (hb c rfl))

theorem releaseHandle_eq {d : Cell} (hd : get? r w.cells = some d) :
    releaseHandle r w =
      if d.handles ≤ 1 then (.ok d.body.contents, { w with cells := erase r w.cells })
      else (.ok [], { w with
        cells := change r (fun e => { e with handles := d.handles - 1 }) w.cells }) := by
  rw [releaseHandle, bind_apply, cell_eq hd]
  dsimp only
  split <;> rfl

/-- The last handle hands back what the object held. -/
theorem releaseHandle_last {d : Cell} (hw : w.InOrder (h + handles [r]))
    (hd : get? r w.cells = some d) (hlast : d.handles ≤ 1) :
    ∃ v, releaseHandle r w = (.ok d.body.contents, v) ∧
      v.InOrder (h + piecesOf d.body.contents) ∧ Steady w v ∧ get? r v.cells = none := by
  refine ⟨{ w with cells := erase r w.cells }, (releaseHandle_eq hd).trans (if_pos hlast), ?_,
    .of_forms (fun q f => formAt_erase) fun q c => containerAt?_of_erase, ?_⟩
  · rw [piecesOf_contents fun c hc => hw.books.stores (r := r) ?_]
    · exact hw.destroy hd hlast
    · unfold containerAt?
      rw [hd]
      exact hc
  · exact (get?_erase r r w.cells).trans (if_pos rfl)

theorem releaseHandle_settles (r : Nat) :
    Settles lent (handles [r]) (releaseHandle r) fun more => ↑(piecesOf more) := by
  intro others w hlent hw
  obtain ⟨d, hd⟩ := hw.1.exists_of_mem (r := r) (by simp)
  rw [attempt_apply]
  by_cases hlast : d.handles ≤ 1
  · obtain ⟨v, he, hv, hon, _⟩ := releaseHandle_last hw.1 hd hlast
    rw [he]
    exact ⟨⟨hv, trivial⟩, hon⟩
  · have hrelease := hw.1.release hd (Nat.lt_of_not_le hlast)
    rw [releaseHandle_eq hd, if_neg hlast]
    exact ⟨⟨hrelease.of_eq (add_zero _), trivial⟩, steady_setHandles w r _⟩

/-- The limit of the run is not reached before so many more pieces have been released. -/
def Within (n : Nat) (w : World) : Prop := w.limits.rounds ≤ w.discarded + n

theorem InOrder.count (hw : w.InOrder h) : { w with discarded := w.discarded + 1 }.InOrder h :=
  { hw with patient := hw.patient.imp id fun hle => Nat.le_succ_of_le hle }

theorem steady_count (w : World) : Steady w { w with discarded := w.discarded + 1 } :=
  .of_grown rfl { Recorded.refl w with discarded := Nat.le_succ _ }

theorem Within.onward {n : Nat} {w v : World} (hon : Onward w v) (h : Within n w) : Within n v := by
  have hdiscarded := hon.discarded
  unfold Within at h ⊢
  rw [hon.limits]
  omega

section
variable {run : Runner} (hrun : run.Safe)
include hrun

theorem releaseTracked_settles (id : Nat) (n : Int) (onRelease : Option (List Step)) :
    Settles lent (tracking id) (releaseTracked run id n onRelease) fun _ => (0 : Hands) := by
  have hrecord : Settles lent (tracking id)
      (modify fun w : World => { w with releases := ⟨id, w.cells⟩ :: w.releases })
      fun _ => (0 : Hands) := by
    refine Owns.settles (.modify fun others w hw => ?_) fun w => ⟨_, _, rfl⟩
    exact ⟨⟨hw.1.releaseNumber.of_eq (add_zero _), trivial⟩, .of_same rfl rfl⟩
  refine hrecord.bind fun _ => ?_
  cases onRelease with
  | none =>
    exact Owns.settles (log_owns (.released fun l hl => by cases hl)) fun w => ⟨_, _, rfl⟩
  | some body =>
    refine (hrun lent body).bind fun acts => ?_
    refine .of_plain fun hacts => Owns.settles (log_owns (.released fun l hl => ?_)) fun w => ⟨_, _, rfl⟩
    cases hl
    exact hacts

/-- What a piece holds is handed back, or is gone. -/
theorem discardOne_settles (d : Debris) :
    Settles lent d.assets (discardOne run d) fun more => ↑(piecesOf more) := by
  cases d with
  | handle r => exact releaseHandle_settles r
  | key k => exact .pure (entails_of_eq (piecesOf_handles k.refs).symm)
  | item i =>
    cases i with
    | tracked id n onRelease onCopy =>
      exact (releaseTracked_settles hrun id n onRelease).bind fun _ => .pure (.refl _)
    | unit => exact .pure (.refl _)
    | copy n => exact .pure (.refl _)
    | value v => exact .pure (entails_of_eq (piecesOf_handles v.refs).symm)

/-- A release that may take so many more pieces ends before the limit of the run, or at it. -/
theorem discardWithin_settles (n : Nat) (pieces : List Debris) :
    Settles lent ⟨piecesOf pieces, Within n⟩ (discardWithin run n pieces) fun _ => (0 : Hands) := by
  induction n generalizing pieces with
  | zero =>
    cases pieces with
    | nil => exact .pure (entails_hands _)
    | cons d rest =>
      refine Settles.bind (b := fun _ => ((0 : Hands) : Situation)) (Owns.settles
        (.modify fun others w hw => ?_) fun w => ⟨_, _, rfl⟩) fun _ => .throw nofun (.refl _)
      exact ⟨⟨(hw.1.abandon (u := others) hw.2).of_eq (add_zero _), trivial⟩, .of_same rfl rfl⟩
  | succ n ih =>
    cases pieces with
    | nil => exact .pure (entails_hands _)
    | cons d rest =>
      have hcount : Settles lent ⟨piecesOf (d :: rest), Within (n + 1)⟩
          (modify fun w : World => { w with discarded := w.discarded + 1 })
          fun _ => ⟨d.assets + piecesOf rest, Within n⟩ := by
        refine Owns.settles (.modify fun others w hw => ⟨⟨hw.1.count, ?_⟩, steady_count w⟩)
          fun w => ⟨_, _, rfl⟩
        have hwithin : w.limits.rounds ≤ w.discarded + (n + 1) := hw.2
        show w.limits.rounds ≤ w.discarded + 1 + n
        omega
      refine hcount.bind fun _ => ?_
      refine ((discardOne_settles hrun d).rescue Within.onward (ih rest)).bind fun more => ?_
      refine (ih (more ++ rest)).weaken (fun _ w hw => ⟨hw.1.of_eq ?_, hw.2.2⟩) fun _ => .refl _
      exact congrArg _ (piecesOf_append more rest)

theorem discard_settles (pieces : List Debris) :
    Settles lent (piecesOf pieces) (discard run pieces) fun _ => (0 : Hands) := by
  unfold Settles discard
  rw [attempt_bind]
  refine Owns.get.bind fun w => ?_
  refine Owns.weaken (discardWithin_settles hrun w.limits.rounds pieces) (fun _ v hv => ⟨hv.1, ?_⟩)
    fun _ => .refl _
  obtain ⟨rfl, _⟩ := hv.2
  exact Nat.le_add_left _ _

/-- The last handle destroys the object, whatever else that releases. -/
theorem discardHandle_destroys {d : Cell} (hw : w.InOrder (h + handles [r]))
    (hd : get? r w.cells = some d) (hlast : d.handles ≤ 1) (hrounds : 0 < w.limits.rounds) :
    ∃ outcome v, discard run [.handle r] w = (outcome, v) ∧ v.InOrder h ∧ Steady w v ∧
      get? r v.cells = none := by
  obtain ⟨m, hm⟩ := Nat.exists_eq_succ_of_ne_zero (Nat.ne_of_gt hrounds)
  obtain ⟨u, hu, huorder, huon, hgone⟩ := releaseHandle_last hw.count hd hlast
  have hwithin : Within m { w with discarded := w.discarded + 1 } := by
    show w.limits.rounds ≤ w.discarded + 1 + m
    omega
  have huheld : Situation.Holds ⟨piecesOf (d.body.contents ++ []), Within m⟩ h u :=
    ⟨by rwa [List.append_nil], hwithin.onward huon.toOnward⟩
  obtain ⟨outcome, v, he, hv, hon⟩ :=
    (discardWithin_settles hrun m _).apply (Multiset.zero_subset h) huheld
  refine ⟨outcome, v, ?_, ?_, (steady_count w).trans (huon.trans hon), ?_⟩
  · calc discard run [.handle r] w
        = discardWithin run (m + 1) [.handle r] w := congrArg (discardWithin run · _ w) hm
      _ = discardWithin run m (d.body.contents ++ []) u := bind_of_ok (onFailure_eq_ok.mpr hu) _
      _ = (outcome, v) := he
  · cases outcome with
    | ok _ => exact hv.1.of_eq (add_zero h).symm
    | error e => exact hv.1.of_eq (add_zero h).symm
  · exact hon.gone hgone (Nat.lt_of_lt_of_le (hw.books.lt_fresh hd) huon.fresh)

theorem discard_of_eq_settles {pieces : List Debris} (hu : u = piecesOf pieces) :
    Settles lent u (discard run pieces) fun _ => (0 : Hands) := hu ▸ discard_settles hrun pieces

theorem discard_owns (pieces : List Debris) :
    Owns lent (piecesOf pieces) (discard run pieces) (fun _ => (0 : Hands)) 0 :=
  (discard_settles hrun pieces).owns

theorem discard_of_eq_owns {pieces : List Debris} (hu : u = piecesOf pieces) :
    Owns lent u (discard run pieces) (fun _ => (0 : Hands)) 0 := (discard_of_eq_settles hrun hu).owns

theorem discardHandle_owns (r : Nat) :
    Owns lent (handles [r]) (discard run [.handle r]) (fun _ => (0 : Hands)) 0 :=
  discard_of_eq_owns hrun rfl

theorem discardHandles_owns (refs : List Nat) :
    Owns lent (handles refs) (discard run (refs.map .handle)) (fun _ => (0 : Hands)) 0 :=
  discard_of_eq_owns hrun (piecesOf_handles refs).symm

theorem discardKey_owns (k : Key) :
    Owns lent (handles k.refs) (discard run [.key k]) (fun _ => (0 : Hands)) 0 :=
  discard_of_eq_owns hrun (add_zero _).symm

theorem discardItem_owns (i : Item) :
    Owns lent i.assets (discard run [.item i]) (fun _ => (0 : Hands)) 0 :=
  discard_of_eq_owns hrun (add_zero _).symm

theorem discardPair_owns (k : Key) (i : Item) :
    Owns lent ↑(handles k.refs + i.assets) (discard run [.key k, .item i]) (fun _ => (0 : Hands)) 0 :=
  discard_of_eq_owns hrun (by simp [Debris.assets])

theorem discardValues_owns (l : List Value) :
    Owns lent (handles (l.flatMap Value.refs)) (discard run (l.map fun v => .item (.value v)))
      (fun _ => (0 : Hands)) 0 :=
  discard_of_eq_owns hrun (piecesOf_values l).symm

theorem holding_owns (hx : Safe (lent + handles [r]) x p) :
    Owns lent ⟨0, fun w => w.Has r⟩ (holding run r x) (fun y => plain 0 (p y)) 0 := by
  refine (retain_owns (.of_fact fun w hw => hw)).bind fun _ => ?_
  exact Owns.ending hx (discardHandle_owns hrun r)

end

end World

end LiveOrder
