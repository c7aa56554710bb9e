import LiveOrder.Proofs.World.Entries

/-!
# Releases and copies without user code

* `calm`           no user code is attached to anything that is stored, so every container is quiet;
* `World.Kept`     nothing happened to the objects that are left, and no cursor was moved;
* `Reacts.of_given`, `Reacts.mono`   what objects are given, and what they hold less of;
* `discard_kept`   a release keeps the world if no piece of it reacts;
* `gives_copyEntry`   a copy of an entry is what is stored there, if copying runs no user code.

Nothing is asked of the programs inside an operation here: they are not run.
-/

namespace LiveOrder

open World Table

/-- What objects are given does not make anything react that did not, unless it reacts itself. -/
theorem Reacts.of_given {objects objects' : Objects} {given : List Debris}
    (h : ∀ q d, get? q objects' = some d → ∀ p ∈ d.body.contents,
      p ∈ given ∨ ∃ e, get? q objects = some e ∧ p ∈ e.body.contents)
    (hgiven : ∀ p ∈ given, ¬Reacts objects p) {piece : Debris} (hp : Reacts objects' piece) :
    Reacts objects piece := by
  induction hp with
  | released id n body onCopy => exact .released id n body onCopy
  | value hr _ ih => exact .value hr ih
  | key hr _ ih => exact .key hr ih
  | object hd hp _ ih =>
    rcases h _ _ hd _ hp with hnew | ⟨e, he, hold⟩
    · exact absurd ih (hgiven _ hnew)
    · exact .object he hold ih

/-- Objects that hold less react less. -/
theorem Reacts.mono {objects objects' : Objects}
    (h : ∀ q d, get? q objects' = some d →
      ∃ e, get? q objects = some e ∧ ∀ p ∈ d.body.contents, p ∈ e.body.contents)
    {piece : Debris} (hp : Reacts objects' piece) : Reacts objects piece := by
  refine Reacts.of_given (fun q d hd p hp => ?_) (List.forall_mem_nil _) hp
  obtain ⟨e, he, hsub⟩ := h q d hd
  exact .inr ⟨e, he, hsub p hp⟩

/-! ## objects without reactions -/

/-- No user code is attached to the piece. -/
def Debris.plain : Debris → Bool
  | .item (.tracked _ _ onRelease onCopy) => onRelease.isNone && onCopy.isNone
  | _ => true

/-- No user code is attached to anything that is stored. -/
def calm (objects : Objects) : Bool := objects.all fun row => row.2.body.contents.all Debris.plain

theorem plain_of_calm {objects : Objects} (h : calm objects = true) {r : Nat} {d : Cell}
    (hd : Table.get? r objects = some d) {piece : Debris} (hp : piece ∈ d.body.contents) :
    piece.plain = true :=
  List.all_eq_true.mp (List.all_eq_true.mp h _ (Table.mem_of_get? hd)) piece hp

theorem not_reacts_of_calm {objects : Objects} (h : calm objects = true) {piece : Debris}
    (hplain : piece.plain = true) : ¬Reacts objects piece := by
  intro hp
  induction hp with
  | released id n body onCopy => cases hplain
  | value _ _ ih => exact ih rfl
  | key _ _ ih => exact ih rfl
  | object hd hp _ ih => exact ih (plain_of_calm h hd hp)

theorem quiet_of_calm {objects : Objects} (h : calm objects = true) (r : Nat) : Quiet objects r where
  releases := not_reacts_of_calm h rfl
  copies {c} hc e he := by
    obtain ⟨n, hd⟩ := containerAt?_eq_some_iff.mp hc
    have hmem : .item e.2 ∈ (Body.container c).contents :=
      List.mem_flatMap.mpr ⟨e, he, List.mem_cons_of_mem _ (List.mem_singleton_self _)⟩
    have hplain := plain_of_calm h hd hmem
    obtain ⟨k, i⟩ := e
    cases i with
    | tracked id m onRelease onCopy => exact Option.isNone_iff_eq_none.mp (Bool.and_elim_right hplain)
    | _ => trivial

namespace World

variable {α β : Type} {w v z : World} {run : Runner}

/-- What has a hold on objects from outside, besides cursors. -/
def roots (w : World) := (w.names, w.visiting, w.calls)

structure Kept (w v : World) : Prop where
  walks : v.walks = w.walks
  roots : v.roots = w.roots
  bodies : ∀ {q d}, get? q v.cells = some d → ∃ e, get? q w.cells = some e ∧ e.body = d.body

theorem Kept.refl (w : World) : Kept w w := ⟨rfl, rfl, fun hd => ⟨_, hd, rfl⟩⟩

theorem Kept.trans (h : Kept w v) (h' : Kept v z) : Kept w z where
  walks := h'.walks.trans h.walks
  roots := h'.roots.trans h.roots
  bodies hd := by
    obtain ⟨e, he, hbody⟩ := h'.bodies hd
    obtain ⟨f, hf, hbody'⟩ := h.bodies he
    exact ⟨f, hf, hbody'.trans hbody⟩

theorem Kept.of_same (hcells : v.cells = w.cells) (hwalks : v.walks = w.walks)
    (hroots : v.roots = w.roots) : Kept w v := ⟨hwalks, hroots, fun hd => ⟨_, hcells ▸ hd, rfl⟩⟩

theorem Kept.containerAt? (h : Kept w v) {q : Nat} {c : Container}
    (hc : containerAt? v.cells q = some c) : LiveOrder.containerAt? w.cells q = some c := by
  obtain ⟨n, hd⟩ := containerAt?_eq_some_iff.mp hc
  obtain ⟨⟨m, body⟩, he, hbody⟩ := h.bodies hd
  cases hbody
  exact containerAt?_eq_some_iff.mpr ⟨m, he⟩

/-- A container that is not gone is the one that was there. -/
theorem Kept.container (h : Kept w v) {q : Nat} {c : Container}
    (hc : LiveOrder.containerAt? w.cells q = some c) (hv : v.Has q) :
    LiveOrder.containerAt? v.cells q = some c := by
  obtain ⟨n, hd⟩ := containerAt?_eq_some_iff.mp hc
  obtain ⟨⟨m, body⟩, he⟩ := hv
  obtain ⟨f, hf, hbody⟩ := h.bodies he
  rw [hd] at hf
  cases hf
  cases hbody
  exact containerAt?_eq_some_iff.mpr ⟨m, he⟩

theorem Kept.reacts (h : Kept w v) {piece : Debris} (hp : Reacts v.cells piece) :
    Reacts w.cells piece := by
  refine hp.mono fun q d hd => ?_
  obtain ⟨e, he, hbody⟩ := h.bodies hd
  exact ⟨e, he, fun p hp => hbody ▸ hp⟩

theorem kept_setHandles (w : World) (r n : Nat) :
    Kept w { w with cells := change r (fun d => { d with handles := n }) w.cells } := by
  refine ⟨rfl, rfl, fun {q d} hd => ?_⟩
  rw [get?_change] at hd
  split at hd
  · obtain ⟨e, he, rfl⟩ := Option.map_eq_some_iff.mp hd
    exact ⟨e, he, rfl⟩
  · exact ⟨d, hd, rfl⟩

theorem kept_erase (w : World) (r : Nat) : Kept w { w with cells := erase r w.cells } := by
  refine ⟨rfl, rfl, fun {q d} hd => ?_⟩
  rw [get?_erase] at hd
  split at hd
  · cases hd
  · exact ⟨d, hd, rfl⟩

end World

/-! ## actions that keep the world -/

namespace Act

variable {α β : Type} {x : Act α} {f : α → Act β}

def Keeps (x : Act α) : Prop := ∀ w, World.Kept w (x w).2

theorem Keeps.pure (r : α) : Keeps (pure r) := World.Kept.refl

theorem Keeps.throw (e : Failure) : Keeps (throw e : Act α) := World.Kept.refl

theorem Keeps.modify {g : World → World} (h : ∀ w, World.Kept w (g w)) : Keeps (modify g) := h

theorem Keeps.bind (hx : Keeps x) (hf : ∀ r, Keeps (f r)) : Keeps (x >>= f) := by
  intro w
  have hxw := hx w
  rw [bind_apply]
  rcases hr : x w with ⟨e | r, v⟩
  · rw [hr] at hxw
    exact hxw
  · rw [hr] at hxw
    exact hxw.trans (hf r v)

theorem Keeps.get_bind {f : World → Act β} (hf : ∀ w, Keeps (f w)) :
    Keeps ((MonadState.get : Act World) >>= f) := Keeps.bind World.Kept.refl hf

theorem Keeps.forM {l : List α} {f : α → Act Unit} (hf : ∀ a, Keeps (f a)) : Keeps (l.forM f) := by
  induction l with
  | nil => exact .pure ()
  | cons a rest ih => exact (hf a).bind fun _ => ih

end Act

namespace World

open Act

variable {w v : World} {run : Runner}

theorem keeps_log (e : Event) : Keeps (log e) := by
  refine .modify fun w => ?_
  cases w.frames with
  | nil => exact .refl w
  | cons f rest => exact .of_same rfl rfl rfl

theorem keeps_tell (notices : List Notice) : Keeps (tell notices) := by
  refine .get_bind fun w => ?_
  split
  · exact .forM fun n => keeps_log (.notice n)
  · exact .pure ()

theorem keeps_cell (r : Nat) : Keeps (cell r) := by
  refine .get_bind fun w => ?_
  split
  · exact .pure _
  · exact Keeps.bind (.modify fun _ => .of_same rfl rfl rfl) fun _ => .throw _

theorem keeps_retain (r : Nat) : Keeps (retain r) :=
  (keeps_cell r).bind fun d => .modify fun w => kept_setHandles w r (d.handles + 1)

theorem keeps_retainAll (refs : List Nat) : Keeps (retainAll refs) := .forM keeps_retain

/-! ## releases -/

/-- The last handle on an object gives up what it holds. -/
theorem releaseHandle_kept {r : Nat} (hr : ¬Reacts w.cells (.handle r)) :
    w.Kept (releaseHandle r w).2 ∧
      ∀ more, (releaseHandle r w).1 = .ok more → ∀ p ∈ more, ¬Reacts w.cells p := by
  rw [releaseHandle, bind_apply]
  cases hd : get? r w.cells with
  | none =>
    rw [cell_eq_none hd]
    exact ⟨.of_same rfl rfl rfl, fun more hm => by cases hm⟩
  | some d =>
    rw [cell_eq hd]
    dsimp only
    split
    · refine ⟨kept_erase w r, fun more hm p hp hreacts => hr ?_⟩
      cases hm
      exact .object hd hp hreacts
    · refine ⟨kept_setHandles w r _, fun more hm p hp => ?_⟩
      cases hm
      cases hp

/-- A piece that does not react sets nothing free that does. -/
theorem discardOne_kept {d : Debris} (hd : ¬Reacts w.cells d) :
    w.Kept (discardOne run d w).2 ∧
      ∀ more, (discardOne run d w).1 = .ok more → ∀ p ∈ more, ¬Reacts w.cells p := by
  have hrefs : ∀ refs : List Nat, (∀ r ∈ refs, ¬Reacts w.cells (.handle r)) →
      ∀ p ∈ refs.map Debris.handle, ¬Reacts w.cells p := by
    intro refs h p hp
    obtain ⟨r, hr, rfl⟩ := List.mem_map.mp hp
    exact h r hr
  cases d with
  | handle r => exact releaseHandle_kept hd
  | key k =>
    refine ⟨.refl w, fun more hm => ?_⟩
    cases hm
    exact hrefs _ fun r hr h => hd (.key hr h)
  | item i =>
    cases i with
    | unit => exact ⟨.refl w, fun more hm => by cases hm; exact nofun⟩
    | copy n => exact ⟨.refl w, fun more hm => by cases hm; exact nofun⟩
    | value v =>
      refine ⟨.refl w, fun more hm => ?_⟩
      cases hm
      exact hrefs _ fun r hr h => hd (.value hr h)
    | tracked id n onRelease onCopy =>
      cases onRelease with
      | some body => exact absurd (.released id n body onCopy) hd
      | none =>
        have hkeeps : Keeps (releaseTracked run id n none) :=
          Keeps.bind (x := modify fun w : World => { w with
            releases := ⟨id, w.cells⟩ :: w.releases })
            (.modify fun w => .of_same rfl rfl rfl) fun _ => keeps_log _
        refine ⟨(hkeeps.bind fun _ => .pure []) w, fun more hm => ?_⟩
        have hempty : more = [] := by
          obtain ⟨y, v, _, hm⟩ := bind_eq_ok.mp (Prod.ext hm rfl)
          cases hm
          rfl
        rw [hempty]
        exact nofun

theorem discardWithin_kept (n : Nat) {pieces : List Debris}
    (hp : ∀ p ∈ pieces, ¬Reacts w.cells p) : w.Kept (discardWithin run n pieces w).2 := by
  induction n generalizing w pieces with
  | zero =>
    cases pieces with
    | nil => exact .refl w
    | cons d rest => exact .of_same rfl rfl rfl
  | succ n ih =>
    cases pieces with
    | nil => exact .refl w
    | cons d rest =>
      obtain ⟨hd, hrest⟩ := List.forall_mem_cons.mp hp
      let u : World := { w with discarded := w.discarded + 1 }
      have hcounted : w.Kept u := .of_same rfl rfl rfl
      have hfirst : u.Kept (discardOne run d u).2 ∧ _ := discardOne_kept hd
      obtain ⟨hone, hmore⟩ := hfirst
      have hstep : discardWithin run (n + 1) (d :: rest) w =
          (onFailure (discardOne run d) (discardWithin run n rest) >>= fun more =>
            discardWithin run n (more ++ rest)) u := rfl
      rw [hstep, bind_apply, onFailure_apply]
      refine hcounted.trans ?_
      rcases hr : discardOne run d u with ⟨e | more, v⟩
      · rw [hr] at hone
        exact hone.trans (ih fun p hp h => hrest p hp (hone.reacts h))
      · rw [hr] at hone hmore
        refine hone.trans (ih fun p hp h => ?_)
        rcases List.mem_append.mp hp with hp | hp
        · exact hmore more rfl p hp (hone.reacts h)
        · exact hrest p hp (hone.reacts h)

theorem discard_kept {pieces : List Debris} (hp : ∀ p ∈ pieces, ¬Reacts w.cells p) :
    w.Kept (discard run pieces w).2 := discardWithin_kept w.limits.rounds hp

/-! ## copies -/

end World

namespace Act

variable {α β : Type} {x : Act α} {f : α → Act β} {r : α} {q : β}

/-- The action keeps the world and gives the result, unless it fails. -/
def Gives (x : Act α) (r : α) : Prop := ∀ w v y, x w = (.ok y, v) → y = r ∧ World.Kept w v

theorem Gives.pure (r : α) : Gives (pure r) r := by
  intro w v y h
  cases h
  exact ⟨rfl, .refl w⟩

theorem Gives.bind (hx : Gives x r) (hf : Gives (f r) q) : Gives (x >>= f) q := by
  intro w v y h
  obtain ⟨r', z, hr, h⟩ := bind_eq_ok.mp h
  obtain ⟨rfl, hkept⟩ := hx w z r' hr
  obtain ⟨hy, hkept'⟩ := hf z v y h
  exact ⟨hy, hkept.trans hkept'⟩

theorem Gives.onFailure {cleanup : Act Unit} (hx : Gives x r) : Gives (onFailure x cleanup) r :=
  fun w v y h => hx w v y (onFailure_eq_ok.mp h)

theorem Keeps.gives {x : Act Unit} (hx : Keeps x) : Gives x () := by
  intro w v y h
  have hxw := hx w
  rw [h] at hxw
  exact ⟨rfl, hxw⟩

end Act

namespace World

open Act

variable {run : Runner}

theorem gives_copyKey (k : Key) : Gives (copyKey k) k :=
  (keeps_retainAll k.refs).gives.bind (.pure k)

theorem gives_copyItem {i : Item} (hi : i.CopiesQuietly) : Gives (copyItem run i) i.copied := by
  cases i with
  | unit => exact .pure _
  | copy n => exact .pure _
  | value v => exact (keeps_retainAll v.refs).gives.bind (.pure _)
  | tracked id n onRelease onCopy =>
    cases hi
    exact .pure _

/-- A copy of an entry is the selected part of it. -/
theorem gives_copyEntry (kind : Kind) (selection : Selection) (k : Key) {i : Item}
    (hi : i.CopiesQuietly) : Gives (copyEntry run kind selection k i) (.of kind selection k i) := by
  have hkey : Gives (do pure (Yield.key (← copyKey k))) (.key k) := (gives_copyKey k).bind (.pure _)
  have htwice : Gives (do
      let a ← copyKey k
      let b ← copyKey k
      pure (Yield.twice a b)) (.twice k k) :=
    (gives_copyKey k).bind ((gives_copyKey k).bind (.pure _))
  have hitem : Gives (do pure (Yield.item (← copyItem run i))) (.item i.copied) :=
    (gives_copyItem hi).bind (.pure _)
  have hentry : Gives (do
      let k ← copyKey k
      let i ← Act.onFailure (copyItem run i) (discard run [.key k])
      pure (Yield.entry k i)) (.entry k i.copied) :=
    (gives_copyKey k).bind ((gives_copyItem hi).onFailure.bind (.pure _))
  cases kind <;> cases selection <;> first
    | exact hkey
    | exact htwice
    | exact hitem
    | exact hentry

end World

end LiveOrder
