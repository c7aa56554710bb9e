import LiveOrder.Proofs.Tour.Refinement

/-!
# Handles

The serial that an insertion hands out names one entry for ever: that entry while it is live, and
nothing from then on.

* `Command.fate`      what a command makes of the value of an entry; what is gone stays gone
                      (`Command.fate_none`);
* `Store.Resolves`    everything that can be asked of a handle, for an entry that is live with a value
                      or gone;
* `Ledger.Follows`    the row of a handle, kept by every step (`Follows.step`) and so by every run
                      (`Tour.follows_run`);
* `Tour.handles_resolve`   after every run each handle resolves to what its fate was, and no two
                      insertions hand out the same.
-/

namespace LiveOrder

variable {ν : Type} {s : Nat} {k : Key} {held : Option ν}

namespace Command

/-- What becomes of the value that the entry `s`, of a key like `k`, holds.  An entry that is gone
holds none, also when its key is entered again. -/
def fate (s : Nat) (k : Key) : Command ν → Option ν → Option ν
  | .upsert q v, held => if q.token = k.token then held.map fun _ => v else held
  | .remove q, held => if q.token = k.token then none else held
  | .clear, _ => none
  | .modify u f, held => if u = s then held.map f else held
  | _, held => held

theorem fate_none (c : Command ν) : c.fate s k none = none := by
  cases c <;> simp [fate]

/-- What a command makes of the rows; cursors do not come into it. -/
def onLedger : Command ν → Ledger ν → Ledger ν
  | .upsert k v, l => (l.upsert k v).2
  | .remove k, l => l.remove k
  | .clear, l => l.clear
  | .modify s f, l => l.revalued s f
  | _, l => l

end Command

/-! ## rows of handles -/

namespace Ledger

variable {l : Ledger ν} {q : Key} {r : Row ν}

/-- The handle `s` was given out, and its row is of the key `k` with the value `held`, or none. -/
structure Follows (l : Ledger ν) (s : Nat) (k : Key) (held : Option ν) : Prop where
  below : s < l.fresh
  row : l.row? s = held.map (Row.mk s k)

theorem revalued_of_row? (h : l.row? s = none) (f : ν → ν) : l.revalued s f = l := by
  have hsame : ∀ r ∈ l.rows, (if r.serial = s then r.revalued f else r) = r := by
    intro r hr
    have hno := List.find?_eq_none.mp h r hr
    rw [decide_eq_true_eq] at hno
    exact if_neg hno
  show Ledger.mk (l.rows.map _) _ = _
  rw [List.map_congr_left hsame, List.map_id']

/-- What is found of an equal key under the handle. -/
theorem Follows.find?_iff (hf : l.Follows s k held) (h : l.Sound) :
    (l.find? q = some r ∧ r.serial = s) ↔ (held.map (Row.mk s k) = some r ∧ q.token = k.token) := by
  rw [← hf.row, h.find?_eq_some_iff, h.row?_eq_some_iff]
  have hkey : r ∈ l.rows → r.serial = s → r.key = k := by
    intro hr hs
    have hrow := h.row?_eq_some_iff.mpr ⟨hr, hs⟩
    rw [hf.row] at hrow
    obtain ⟨v, _, rfl⟩ := Option.map_eq_some_iff.mp hrow
    rfl
  constructor
  · rintro ⟨⟨hr, hk⟩, hs⟩
    exact ⟨⟨hr, hs⟩, by rw [← hk, hkey hr hs]⟩
  · rintro ⟨⟨hr, hs⟩, hk⟩
    exact ⟨⟨hr, by rw [hk, hkey hr hs]⟩, hs⟩

theorem Follows.upserted (hf : l.Follows s k held) (h : l.Sound) (q : Key) (w : ν) :
    (l.upsert q w).1 ≠ .inserted s ∧
      ∀ old, (l.upsert q w).1 = .updated s q old ↔ held = some old ∧ q.token = k.token := by
  have hiff := fun r => hf.find?_iff (q := q) (r := r) h
  rw [Ledger.upsert]
  cases hr : l.find? q with
  | none =>
    constructor
    · intro e
      have hfresh := hf.below
      have hs := Upsert.inserted.inj e
      omega
    · intro old
      constructor
      · intro e
        cases e
      · rintro ⟨rfl, hk⟩
        have hfound := (hiff ⟨s, k, old⟩).mpr ⟨rfl, hk⟩
        rw [hr] at hfound
        cases hfound.1
  | some r =>
    constructor
    · intro e
      cases e
    · intro old
      rw [Upsert.updated.injEq]
      constructor
      · rintro ⟨hs, _, rfl⟩
        obtain ⟨hheld, hk⟩ := (hiff r).mp ⟨hr, hs⟩
        obtain ⟨v, rfl, rfl⟩ := Option.map_eq_some_iff.mp hheld
        exact ⟨rfl, hk⟩
      · rintro ⟨rfl, hk⟩
        have hfound := (hiff ⟨s, k, old⟩).mpr ⟨rfl, hk⟩
        rw [hr] at hfound
        obtain ⟨e, _⟩ := hfound
        cases e
        exact ⟨rfl, rfl, rfl⟩

theorem fresh_le_upsert (l : Ledger ν) (k : Key) (v : ν) : l.fresh ≤ (l.upsert k v).2.fresh := by
  rw [upsert]
  split
  · exact Nat.le_refl _
  · exact Nat.le_succ _

theorem fresh_le_onLedger (c : Command ν) (l : Ledger ν) : l.fresh ≤ (c.onLedger l).fresh := by
  cases c with
  | upsert k v => exact l.fresh_le_upsert k v
  | _ => exact Nat.le_refl _

/-- Every command does to the row what its fate says. -/
theorem Follows.step (hf : l.Follows s k held) (h : l.Sound) (c : Command ν) :
    (c.onLedger l).Follows s k (c.fate s k held) where
  below := Nat.lt_of_lt_of_le hf.below (fresh_le_onLedger c l)
  row := by
    cases c with
    | upsert q v =>
      show (l.upsert q v).2.row? s = _
      rw [h.row?_upsert hf.below, hf.row, Command.fate]
      cases held with
      | none => simp
      | some w =>
        by_cases hk : k.token = q.token
        · simp [hk, Row.revalued]
        · simp [hk, Ne.symm hk]
    | remove q =>
      show (l.remove q).row? s = _
      rw [h.row?_remove, hf.row, Command.fate]
      cases held with
      | none => simp
      | some w =>
        by_cases hk : k.token = q.token
        · simp [hk]
        · simp [hk, Ne.symm hk]
    | clear => rfl
    | modify u f =>
      show (l.revalued u f).row? s = _
      rw [row?_revalued, hf.row, Command.fate]
      cases held with
      | none => simp
      | some w =>
        by_cases hu : u = s
        · simp [hu, Row.revalued]
        · simp [hu, Ne.symm hu]
    | _ => exact hf.row

end Ledger

/-! ## handles along an itinerary -/

namespace Itinerary

variable {i : Itinerary ν} {n m : Nat}

theorem ledger_step (i : Itinerary ν) (c : Command ν) :
    (i.step c).2.ledger = c.onLedger i.ledger := by
  cases c with
  | modify s f =>
    rw [step]
    cases hr : i.ledger.row? s with
    | none => exact (Ledger.revalued_of_row? hr f).symm
    | some r => rfl
  | advance j =>
    rw [step]
    cases i.place? j <;> rfl
  | close j =>
    rw [step]
    cases i.place? j <;> rfl
  | abandon j =>
    rw [step]
    cases i.place? j <;> rfl
  | _ => rfl

/-- An insertion hands out the next serial, and gives an entry to it. -/
theorem step_inserted {c : Command ν} (h : (i.step c).1 = .upserted (.inserted s)) :
    s = i.ledger.fresh ∧ ∃ k v, c = .upsert k v ∧
      (i.step c).2.ledger = ⟨i.ledger.rows ++ [⟨s, k, v⟩], s + 1⟩ := by
  cases c with
  | upsert k v =>
    have hu : (i.ledger.upsert k v).1 = .inserted s := Reply.upserted.inj h
    rw [ledger_step, Command.onLedger]
    rw [Ledger.upsert] at hu ⊢
    cases hk : i.ledger.find? k with
    | some r =>
      rw [hk] at hu
      cases hu
    | none =>
      rw [hk] at hu
      cases hu
      exact ⟨rfl, k, v, rfl, rfl⟩
  | modify u f =>
    rw [step] at h
    cases hr : i.ledger.row? u <;> rw [hr] at h <;> cases h
  | advance j =>
    rw [step] at h
    cases hp : i.place? j <;> rw [hp] at h <;> cases h
  | close j =>
    rw [step] at h
    cases hp : i.place? j <;> rw [hp] at h <;> cases h
  | abandon j =>
    rw [step] at h
    cases hp : i.place? j <;> rw [hp] at h <;> cases h
  | _ => cases h

/-- Handles are given out in order. -/
theorem fresh_le_of_inserted (commands : List (Command ν))
    (h : (i.run commands).1[n]? = some (.upserted (.inserted s))) : i.ledger.fresh ≤ s := by
  induction commands generalizing i n with
  | nil => cases h
  | cons c rest ih =>
    rw [run_cons] at h
    cases n with
    | zero =>
      obtain ⟨hs, _⟩ := step_inserted (Option.some.inj h)
      omega
    | succ n =>
      have hfresh := Ledger.fresh_le_onLedger c i.ledger
      rw [← ledger_step] at hfresh
      exact Nat.le_trans hfresh (ih h)

/-- No serial is handed out twice. -/
theorem inserted_inj (commands : List (Command ν))
    (hn : (i.run commands).1[n]? = some (.upserted (.inserted s)))
    (hm : (i.run commands).1[m]? = some (.upserted (.inserted s))) : n = m := by
  induction commands generalizing i n m with
  | nil => cases hn
  | cons c rest ih =>
    rw [run_cons] at hn hm
    -- what comes after an insertion is handed out later
    have hlater : ∀ {j : Nat}, (i.step c).1 = .upserted (.inserted s) →
        ((i.step c).2.run rest).1[j]? ≠ some (.upserted (.inserted s)) := by
      intro j hc hj
      obtain ⟨_, k, v, _, hledger⟩ := step_inserted hc
      have hle := fresh_le_of_inserted rest hj
      rw [hledger] at hle
      exact Nat.not_succ_le_self s hle
    cases n with
    | zero =>
      cases m with
      | zero => rfl
      | succ m => exact absurd hm (hlater (Option.some.inj hn))
    | succ n =>
      cases m with
      | zero => exact absurd hn (hlater (Option.some.inj hm))
      | succ m => rw [ih hn hm]

end Itinerary

/-! ## what a handle resolves to -/

namespace Store

variable {t : Store ν} {pins : Nat → Nat}

/-- The handle `s` stands for the entry of the key `k` with the value `held`, or for no entry. -/
structure Resolves (t : Store ν) (s : Nat) (k : Key) (held : Option ν) : Prop where
  key : t.key? s = held.map fun _ => k
  value : t.value? s = held
  gone : held = none → ∀ f, t.modifyValue? s f = none
  /-- writing through the handle reaches its entry and no other -/
  written : ∀ v, held = some v → ∀ f, ∃ t', t.modifyValue? s f = some (f v, t') ∧
    t'.key? = t.key? ∧ ∀ u, t'.value? u = if u = s then some (f v) else t.value? u
  found : ∀ q, t.find q = .ok (some s) ↔ held.isSome ∧ q.token = k.token
  /-- an equal key comes back with the handle, and no new entry is given it -/
  updated : ∀ q w, ∃ u t', t.upsert q w = .ok (u, t') ∧ u ≠ .inserted s ∧
    ∀ old, u = .updated s q old ↔ held = some old ∧ q.token = k.token

theorem revalued_spec (h : t.Sound pins) (f : ν → ν) :
    ({ t with chain := t.chain.revalued s f } : Store ν).key? = t.key? ∧
      ∀ u, ({ t with chain := t.chain.revalued s f } : Store ν).value? u =
        if u = s then (t.value? s).map f else t.value? u := by
  have hrow : ∀ u, ({ t with chain := t.chain.revalued s f } : Store ν).ledger.row? u =
      (t.ledger.row? u).map fun r => if r.serial = s then r.revalued f else r := by
    intro u
    rw [ledger_revalued h, Ledger.row?_revalued]
  constructor
  · funext u
    rw [key?_spec (h.revalued s f), key?_spec h, hrow, Option.map_map]
    apply Option.map_congr
    intro r _
    rw [Function.comp_apply]
    split <;> rfl
  · intro u
    rw [value?_spec (h.revalued s f), value?_spec h, value?_spec h, hrow]
    cases hr : t.ledger.row? u with
    | none =>
      by_cases hu : u = s
      · subst hu
        simp [hr]
      · simp [hu]
    | some r =>
      have hserial := (h.ledger_sound.row?_eq_some_iff.mp hr).2
      by_cases hu : u = s
      · subst hu
        simp [hr, hserial, Row.revalued]
      · simp [hu, hserial]

theorem Sound.resolves (h : t.Sound pins) (hf : t.ledger.Follows s k held) :
    t.Resolves s k held where
  key := by
    rw [key?_spec h, hf.row, Option.map_map]
    rfl
  value := by
    rw [value?_spec h, hf.row, Option.map_map]
    exact Option.map_id'
  gone hn f := by
    rw [modifyValue?_spec h, hf.row, hn]
    rfl
  written v hv f := by
    obtain ⟨hkeys, hvalues⟩ := revalued_spec h (s := s) f
    refine ⟨{ t with chain := t.chain.revalued s f }, ?_, hkeys, ?_⟩
    · rw [modifyValue?_spec h, hf.row, hv]
      rfl
    · intro u
      have hval : t.value? s = some v := by
        rw [value?_spec h, hf.row, hv]
        rfl
      rw [hvalues, hval]
      rfl
  found q := by
    rw [find_spec h, Except.ok.injEq, Option.map_eq_some_iff]
    constructor
    · rintro ⟨r, hr⟩
      obtain ⟨hheld, hk⟩ := (hf.find?_iff h.ledger_sound).mp hr
      obtain ⟨v, rfl, _⟩ := Option.map_eq_some_iff.mp hheld
      exact ⟨rfl, hk⟩
    · rintro ⟨hsome, hk⟩
      obtain ⟨v, rfl⟩ := Option.isSome_iff_exists.mp hsome
      exact ⟨⟨s, k, v⟩, (hf.find?_iff h.ledger_sound).mpr ⟨rfl, hk⟩⟩
  updated q w := by
    obtain ⟨t', he, _⟩ := upsert_spec h q w
    exact ⟨_, t', he, hf.upserted h.ledger_sound q w⟩

end Store

/-! ## handles along a run -/

namespace Tour

variable {t : Tour ν} {v : ν}

/-- What becomes of an entry in the course of many commands. -/
theorem follows_run (h : t.Sound) (hf : t.itinerary.ledger.Follows s k held)
    (commands : List (Command ν)) :
    (t.itinerary.run commands).2.ledger.Follows s k
      (commands.foldl (fun held c => c.fate s k held) held) := by
  induction commands generalizing t held with
  | nil => exact hf
  | cons c rest ih =>
    obtain ⟨freed, t', _, htook⟩ := step_spec h c
    have hf' := hf.step h.ledger_sound c
    rw [← Itinerary.ledger_step, ← htook.itinerary] at hf'
    rw [Itinerary.run_cons, ← htook.itinerary]
    exact ih htook.sound hf'

/-- The entry that the command after `before` made, at the end of the run. -/
theorem follows_inserted (h : t.Sound) (before after : List (Command ν))
    (hr : (t.itinerary.run (before ++ .upsert k v :: after)).1[before.length]? =
      some (.upserted (.inserted s))) :
    (t.itinerary.run (before ++ .upsert k v :: after)).2.ledger.Follows s k
      (after.foldl (fun held c => c.fate s k held) (some v)) := by
  induction before generalizing t with
  | nil =>
    obtain ⟨freed, t', _, htook⟩ := step_spec h (.upsert k v)
    rw [List.nil_append, Itinerary.run_cons] at hr ⊢
    obtain ⟨hs, q, w, hc, hledger⟩ := Itinerary.step_inserted (Option.some.inj hr)
    cases hc
    have hf : (t.itinerary.step (.upsert k v)).2.ledger.Follows s k (some v) := by
      rw [← htook.itinerary] at hledger ⊢
      have hsound : t'.itinerary.ledger.Sound := htook.sound.ledger_sound
      refine ⟨?_, hsound.row?_eq_some_iff.mpr ⟨?_, rfl⟩⟩
      · rw [hledger]
        exact Nat.lt_succ_self s
      · rw [hledger]
        exact List.mem_append_right _ List.mem_cons_self
    rw [← htook.itinerary] at hf ⊢
    exact follows_run htook.sound hf after
  | cons c rest ih =>
    obtain ⟨freed, t', _, htook⟩ := step_spec h c
    rw [List.cons_append, Itinerary.run_cons, ← htook.itinerary] at hr ⊢
    exact ih htook.sound hr

/-- **Handles are stable and never alias.**  Every sequence of commands goes through, whatever the
hashes and wherever the cursors are.  No two insertions hand out the same handle.  The handle of an
insertion resolves at the end to what the commands since then made of that entry: to its key, its
present value and the place to write it while the entry is live, and it is what a search for an equal
key finds; to nothing from the moment the entry is removed, and what is gone stays gone. -/
theorem handles_resolve (hasher : Token → UInt64) (commands : List (Command ν)) :
    ∃ replies t, (start hasher).run commands = .ok (replies, t) ∧
      (∀ (n m s : Nat), replies[n]? = some (.upserted (.inserted s)) →
        replies[m]? = some (.upserted (.inserted s)) → n = m) ∧
      (∀ before k v after s, commands = before ++ .upsert k v :: after →
        replies[before.length]? = some (.upserted (.inserted s)) →
        t.store.Resolves s k (after.foldl (fun held c => c.fate s k held) (some v))) ∧
      ∀ s k (c : Command ν), c.fate s k none = none := by
  have h : (start hasher : Tour ν).Sound := sound_start hasher
  obtain ⟨t, he, hsound, hi⟩ := run_spec h commands
  refine ⟨_, t, he, ?_, ?_, fun s k c => c.fate_none⟩
  · intro n m s hn hm
    exact Itinerary.inserted_inj commands hn hm
  · rintro before k v after s rfl hr
    have hf := follows_inserted h before after hr
    rw [← hi] at hf
    exact hsound.resolves hf

end Tour

end LiveOrder
