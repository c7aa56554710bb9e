import LiveOrder.Proofs.Store.Change

/-!
# Stores and their ledgers

* `Store.Sound`    the chain is in balance, the index holds each live entry once, hashes are those of
                   the tokens, and no two live entries have equal tokens;
* `Store.ledger`   what the store is to its user;
* `find_spec`, `lookup_spec`, `upsert_spec`, `remove_spec`, `clear_spec`, …   no operation fails; each
                   answers as the ledger does, and leaves a store that is sound and has the ledger
                   that follows.

Of an operation that changes the store it is said as well what happens to the chain
(`Store.Change`).
-/

namespace LiveOrder.Store

open Chain

variable {ν : Type} {t : Store ν} {pins : Nat → Nat} {s : Nat} {r q : Row ν} {k : Key} {v : ν}

structure Sound (t : Store ν) (pins : Nat → Nat) : Prop where
  balanced : t.chain.Balanced pins []
  indexed : t.index.Perm (t.chain.rows.map (·.serial))
  hashed : ∀ {s x}, t.chain.arena.get? s = some x → x.hash = t.hasher x.key.token
  tokens : (t.chain.rows.map fun r => r.key.token).Nodup

def ledger (t : Store ν) : Ledger ν := ⟨t.chain.rows, t.chain.arena.fresh⟩

/-- What can happen to a store, with the slots that are freed. -/
structure Change (t : Store ν) (gone : List Nat) (t' : Store ν) : Prop where
  chain : t.chain.Change gone t'.chain
  hasher : t'.hasher = t.hasher

theorem Change.same (h : t.chain.arena.Sound) : t.Change [] t := ⟨.same h, rfl⟩

theorem sound_withHasher (hasher : Token → UInt64) :
    (withHasher hasher : Store ν).Sound fun _ => 0 where
  balanced :=
    { sound := Arena.sound_empty
      head := fun q hq => absurd hq.mem List.not_mem_nil
      tail := fun q hq => absurd hq.mem List.not_mem_nil
      len := rfl
      next := fun hx => by cases hx
      prev := fun hx => by cases hx
      back := fun hx => by cases hx
      gap := fun hx => by cases hx
      counted := fun hx => by cases hx
      kept := fun hx => by cases hx
      pinned := fun hs => absurd hs (Nat.lt_irrefl 0) }
  indexed := .refl _
  hashed hx := by cases hx
  tokens := List.nodup_nil

/-! ## rows of a sound store -/

section
variable (h : t.Sound pins)
include h

theorem Sound.rows_sorted : Row.Sorted t.chain.rows := Chain.rows_sorted h.balanced.sound

theorem Sound.mem_index_iff : s ∈ t.index ↔ t.chain.Live s := by
  rw [h.indexed.mem_iff, mem_rows_serials]

theorem Sound.ledger_sound : t.ledger.Sound where
  sorted := h.rows_sorted
  below _ hr := h.balanced.toLinked.lt_fresh (mem_rows_serials.mp (List.mem_map_of_mem hr)).mem
  tokens := h.tokens

theorem Sound.eq_of_token (hr : r ∈ t.chain.rows) (hq : q ∈ t.chain.rows)
    (e : r.key.token = q.key.token) : r = q :=
  h.ledger_sound.eq_of_token hr hq e

theorem Sound.row?_eq (s : Nat) : t.ledger.row? s = t.chain.row? s := by
  apply Option.ext
  intro r
  rw [h.ledger_sound.row?_eq_some_iff]
  constructor
  · rintro ⟨hr, rfl⟩
    exact mem_rows.mp hr
  · intro hr
    have hs := serial_of_row? hr
    exact ⟨mem_rows.mpr (by rwa [hs]), hs⟩

theorem Sound.find?_eq_some_iff :
    t.ledger.find? k = some r ↔ r ∈ t.chain.rows ∧ r.key.token = k.token :=
  h.ledger_sound.find?_eq_some_iff

theorem Sound.slot_of_find? (hr : t.ledger.find? k = some r) :
    ∃ x, t.chain.arena.get? r.serial = some x ∧ x.removed = false ∧ x.row r.serial = r :=
  slot_of_row (h.find?_eq_some_iff.mp hr).1

/-! ## finding -/

theorem findAmong_spec (k : Key) (l : List Nat) (hl : ∀ s ∈ l, t.chain.Live s) :
    findAmong t.chain (t.hasher k.token) k.token l =
      .ok (l.find? fun s => (t.chain.row? s).any fun r => r.key.token = k.token) := by
  induction l with
  | nil => rfl
  | cons s rest ih =>
    obtain ⟨x, hx, hlive⟩ := hl s List.mem_cons_self
    have hrest := ih fun u hu => hl u (List.mem_cons_of_mem _ hu)
    have hcond : (x.hash = t.hasher k.token ∧ x.key.token = k.token) ↔ x.key.token = k.token := by
      rw [h.hashed hx]
      exact ⟨fun hk => hk.2, fun hk => ⟨by rw [hk], hk⟩⟩
    rw [findAmong, slot_of hx]
    simp only [bind, Except.bind, hcond]
    rw [List.find?_cons, row?_of_live hx hlive, hrest]
    by_cases hk : x.key.token = k.token
    · simp [hk, Slot.row, pure, Except.pure]
    · simp [hk, Slot.row]

theorem find_spec (k : Key) : t.find k = .ok ((t.ledger.find? k).map (·.serial)) := by
  rw [find, findToken, findAmong_spec h k t.index fun s hs => h.mem_index_iff.mp hs]
  congr 1
  cases hr : t.ledger.find? k with
  | none =>
    refine List.find?_eq_none.mpr fun s hs => ?_
    obtain ⟨r, hrow⟩ := live_iff_row?.mp (h.mem_index_iff.mp hs)
    rw [hrow, Option.any_some, decide_eq_true_eq]
    intro hk
    have hmem := mem_rows.mpr (by rwa [serial_of_row? hrow])
    rw [h.find?_eq_some_iff.mpr ⟨hmem, hk⟩] at hr
    cases hr
  | some r =>
    obtain ⟨hmem, hk⟩ := h.find?_eq_some_iff.mp hr
    have hrow := mem_rows.mp hmem
    -- the index holds the entry, so the search ends, and it ends nowhere else
    have hin : r.serial ∈ t.index := h.mem_index_iff.mpr (live_iff_row?.mpr ⟨r, hrow⟩)
    cases hf : t.index.find? fun s => (t.chain.row? s).any fun r => r.key.token = k.token with
    | none =>
      have hno := List.find?_eq_none.mp hf r.serial hin
      rw [hrow, Option.any_some, decide_eq_true_eq] at hno
      exact absurd hk hno
    | some u =>
      have hu := List.find?_some hf
      rw [Option.any_eq_true] at hu
      obtain ⟨q, hq, hqk⟩ := hu
      have hserial := serial_of_row? hq
      have hqr := h.eq_of_token hmem (mem_rows.mpr (by rwa [hserial]))
        (hk.trans (of_decide_eq_true hqk).symm)
      rw [← hserial, ← hqr]
      rfl

theorem contains_spec (k : Key) : t.contains k = .ok (t.ledger.find? k).isSome := by
  rw [contains, find_spec h]
  exact congrArg Except.ok Option.isSome_map

theorem lookup_spec (k : Key) : t.lookup k = .ok ((t.ledger.find? k).map Row.pair) := by
  rw [lookup, find_spec h]
  cases hr : t.ledger.find? k with
  | none => rfl
  | some r =>
    obtain ⟨x, hx, _, hxr⟩ := h.slot_of_find? hr
    simp only [Option.map_some, bind, Except.bind]
    rw [slot_of hx, ← hxr]
    rfl

theorem entries_spec : t.entries = .ok (t.ledger.rows.map Row.pair) :=
  Chain.entries_spec h.balanced.toLinked

theorem key?_spec (s : Nat) : t.key? s = (t.ledger.row? s).map (·.key) := by
  rw [h.row?_eq, key?, row?, Option.map_map]
  rfl

theorem value?_spec (s : Nat) : t.value? s = (t.ledger.row? s).map (·.value) := by
  rw [h.row?_eq, value?, row?, Option.map_map]
  rfl

/-! ## changing values -/

theorem Sound.revalued (s : Nat) (f : ν → ν) :
    ({ t with chain := t.chain.revalued s f } : Store ν).Sound pins where
  balanced := h.balanced.revalued
  indexed := by
    refine h.indexed.trans (.of_eq ?_)
    show _ = (t.chain.revalued s f).rows.map _
    rw [rows_revalued h.balanced.sound, List.map_map]
    refine List.map_congr_left fun r _ => ?_
    simp only [Function.comp_apply]
    split <;> rfl
  hashed {u y} hy := by
    obtain ⟨x, hx, e⟩ := before_revalued hy
    rw [e]
    exact h.hashed (x := x) hx
  tokens := by
    show ((t.chain.revalued s f).rows.map _).Nodup
    rw [rows_revalued h.balanced.sound, List.map_map]
    refine (congrArg List.Nodup (List.map_congr_left fun r _ => ?_)).mpr h.tokens
    simp only [Function.comp_apply]
    split <;> rfl

theorem ledger_revalued (s : Nat) (f : ν → ν) :
    ({ t with chain := t.chain.revalued s f } : Store ν).ledger = t.ledger.revalued s f := by
  show Ledger.mk (t.chain.revalued s f).rows _ = _
  rw [rows_revalued h.balanced.sound]
  rfl

/-- The value of a live entry is changed, and nothing at any other handle. -/
theorem modifyValue?_spec (s : Nat) (f : ν → ν) :
    t.modifyValue? s f =
      (t.ledger.row? s).map fun r => (f r.value, { t with chain := t.chain.revalued s f }) := by
  rw [h.row?_eq, modifyValue?, row?, Option.map_map]
  rfl

/-! ## changing entries -/

theorem upsert_spec (k : Key) (v : ν) :
    ∃ t', t.upsert k v = .ok ((t.ledger.upsert k v).1, t') ∧ t'.Sound pins ∧
      t'.ledger = (t.ledger.upsert k v).2 ∧ t.Change [] t' := by
  rw [upsert, find_spec h, Ledger.upsert]
  cases hr : t.ledger.find? k with
  | some r =>
    obtain ⟨x, hx, hl, hxr⟩ := h.slot_of_find? hr
    refine ⟨{ t with chain := t.chain.revalued r.serial fun _ => v }, ?_, h.revalued _ _,
      ledger_revalued h _ _, .revalued ⟨x, hx, hl⟩ _, rfl⟩
    have hu := update_of (Arena.mem_serials_of_get? hx) (Slot.revalued fun _ => v)
    simp only [Option.map_some, bind, Except.bind]
    rw [slot_of hx, ← hxr]
    dsimp only [Slot.row]
    rw [show t.chain.update r.serial (fun x => { x with value := v }) = _ from hu]
    rfl
  | none =>
    let d := t.chain.appended k v (t.hasher k.token)
    have hrows : d.rows = _ := rows_appended h.balanced.toLinked
    have hnone := List.find?_eq_none.mp hr
    refine ⟨{ t with chain := d, index := t.chain.arena.fresh :: t.index }, ?_,
      ⟨h.balanced.appended, ?_, ?_, ?_⟩, ?_, .appended _ _ _, rfl⟩
    · simp only [Option.map_none, bind, Except.bind]
      rw [link_eq h.balanced.toLinked]
      rfl
    · show (t.chain.arena.fresh :: t.index).Perm (d.rows.map _)
      rw [hrows, List.map_append]
      exact (h.indexed.cons _).trans (List.perm_append_singleton _ _).symm
    · intro s y hy
      have hget : d.arena.get? s = _ := get?_appended h.balanced.toLinked s
      rw [hy] at hget
      split at hget
      · rw [Option.some.inj hget]
      · split at hget
        · obtain ⟨x, hx, rfl⟩ := Option.map_eq_some_iff.mp hget.symm
          exact h.hashed (x := x) hx
        · exact h.hashed hget.symm
    · show (d.rows.map _).Nodup
      rw [hrows, List.map_append, List.nodup_append]
      refine ⟨h.tokens, List.nodup_singleton _, fun a ha b hb e => ?_⟩
      obtain ⟨r, hmem, rfl⟩ := List.mem_map.mp ha
      rw [List.map_singleton, List.mem_singleton] at hb
      exact hnone r hmem (decide_eq_true (e.trans hb))
    · show Ledger.mk d.rows d.arena.fresh = _
      rw [hrows, fresh_appended]
      rfl

/-- An entry is made when no entry has an equal key, and only then. -/
theorem upsert_made {k : Key} {v : ν} {outcome : Upsert ν} {t' : Store ν}
    (he : t.upsert k v = .ok (outcome, t')) :
    outcome = .inserted t.ledger.fresh ∧ t'.ledger.fresh = t.ledger.fresh + 1 ∨
      (∃ s old, outcome = .updated s k old) ∧ t'.ledger.fresh = t.ledger.fresh := by
  obtain ⟨u, hu, _, hledger, _⟩ := upsert_spec h k v
  rw [he] at hu
  cases hu
  rw [hledger, Ledger.upsert]
  cases t.ledger.find? k with
  | some r => exact .inr ⟨⟨_, _, rfl⟩, rfl⟩
  | none => exact .inl ⟨rfl, rfl⟩

/-- The entry that is made has the key, and the others keep theirs. -/
theorem upsert_named {k : Key} {v : ν} {outcome : Upsert ν} {t' : Store ν} {s : Nat} {y : Slot ν}
    (he : t.upsert k v = .ok (outcome, t')) (hy : t'.chain.arena.get? s = some y) :
    (∃ x, t.chain.arena.get? s = some x ∧ y.key = x.key) ∨ outcome = .inserted s ∧ y.key = k := by
  obtain ⟨u, hu, ht', hledger, hchange⟩ := upsert_spec h k v
  rw [he] at hu
  cases hu
  rcases hchange.chain.named_before h.balanced.toLinked hy with ⟨x, hx, hkey, _⟩ | ⟨hs, hone⟩
  · exact .inl ⟨x, hx, hkey⟩
  · obtain ⟨z, hz, hlive⟩ := hchange.chain.live_of_new h.balanced.toLinked (Nat.le_of_eq hs.symm)
      (Nat.lt_of_lt_of_eq (hs ▸ Nat.lt_succ_self _) hone.symm)
    rw [hy, Option.some.injEq] at hz
    subst hz
    have hrow : y.row s ∈ t'.ledger.rows := mem_rows.mpr (row?_of_live hy hlive)
    have hfresh : t'.ledger.fresh = t.ledger.fresh + 1 := hone
    rw [hledger] at hrow hfresh
    rw [Ledger.upsert] at hrow hfresh ⊢
    cases hk : t.ledger.find? k with
    | some r =>
      rw [hk] at hfresh
      exact absurd hfresh (Nat.ne_of_lt (Nat.lt_succ_self _))
    | none =>
      rw [hk] at hrow
      rcases List.mem_append.mp hrow with hold | hnew
      · have hlt : s < t.chain.arena.fresh := h.ledger_sound.below _ hold
        omega
      · have hkey := congrArg Row.key (List.mem_singleton.mp hnew)
        exact .inr ⟨congrArg Upsert.inserted hs.symm, hkey⟩

theorem remove_spec (k : Key) :
    ∃ freed t' gone, t.remove k = .ok (freed, t') ∧
      freed.isSome = (t.ledger.find? k).isSome ∧ t'.Sound pins ∧ t'.ledger = t.ledger.remove k ∧
      t.Change gone t' ∧ (freed.getD {}).pairs = t.chain.pairsOf gone ∧ gone.Pairwise (· > ·) := by
  rw [remove, find_spec h]
  cases hr : t.ledger.find? k with
  | none =>
    have hnone := List.find?_eq_none.mp hr
    refine ⟨none, t, [], rfl, rfl, h, ?_, .same h.balanced.sound, rfl, .nil⟩
    have hall : t.ledger.rows.filter (fun r => r.key.token ≠ k.token) = t.ledger.rows := by
      refine List.filter_eq_self.mpr fun r hmem => ?_
      have hno := hnone r hmem
      rw [decide_eq_true_eq] at hno ⊢
      exact hno
    rw [Ledger.remove, hall]
  | some r =>
    obtain ⟨hmem, hk⟩ := h.find?_eq_some_iff.mp hr
    obtain ⟨x, hx, hl, hxr⟩ := slot_of_row hmem
    obtain ⟨d, gone, he, hf, hd, _⟩ := Chain.remove_spec h.balanced hx hl
    have hlinked := h.balanced.toLinked.unlinked hx hl
    have hrows : d.rows = t.chain.rows.filter (·.serial ≠ r.serial) := by
      rw [hf.rows hlinked.sound, rows_unlinked h.balanced.toLinked hx hl]
    refine ⟨some (.ofCascade (t.chain.pairsOf gone)),
      { t with chain := d, index := t.index.filter (· ≠ r.serial) }, gone, ?_, rfl,
      ⟨hd, ?_, ?_, ?_⟩, ?_, ⟨.removed hx hl hf.toFrees, rfl⟩, rfl, hf.descending⟩
    · simp only [Option.map_some, bind, Except.bind]
      rw [he]
      rfl
    · show (t.index.filter _).Perm (d.rows.map _)
      rw [hrows]
      refine (h.indexed.filter _).trans (.of_eq ?_)
      rw [List.filter_map]
      rfl
    · intro u y hy
      have hfresh : d.arena.fresh = t.chain.arena.fresh := by rw [hf.fresh, fresh_unlinked]
      have hchange : t.chain.Change gone d := .removed hx hl hf.toFrees
      obtain ⟨z, hz, hkey, hhash⟩ := hchange.named_kept h.balanced.toLinked hfresh hy
      rw [hkey, hhash]
      exact h.hashed hz
    · show (d.rows.map _).Nodup
      rw [hrows]
      exact (List.filter_sublist.map _).nodup h.tokens
    · show Ledger.mk d.rows d.arena.fresh = _
      rw [hrows, hf.fresh, fresh_unlinked]
      refine congrArg (Ledger.mk · _) (List.filter_congr fun q hq => ?_)
      have hsame : q.serial = r.serial ↔ q.key.token = k.token := by
        rw [h.ledger_sound.serial_eq_iff hq hmem, hk]
      rw [decide_eq_decide, ne_eq, ne_eq, hsame]

theorem clear_spec :
    ∃ freed t' gone, t.clear = .ok (freed, t') ∧ t'.Sound pins ∧ t'.ledger = t.ledger.clear ∧
      t.Change gone t' ∧ freed.pairs = t.chain.pairsOf gone := by
  obtain ⟨e, d, freed, gone, hc, he, hp, hf, hd⟩ := Chain.clear_spec h.balanced
  have hrows : d.rows = [] := by rw [hf.rows he.sound, rows_emptied he]
  refine ⟨freed, { t with chain := d, index := [] }, gone, ?_, ⟨hd, ?_, ?_, ?_⟩, ?_,
    ⟨.cleared he hf, rfl⟩, hp⟩
  · rw [clear, hc]
    rfl
  · show List.Perm [] (d.rows.map _)
    rw [hrows]
    exact .refl _
  · intro u y hy
    have hfresh : d.arena.fresh = t.chain.arena.fresh := hf.fresh.trans he.fresh
    obtain ⟨x, hx, hkey, hhash⟩ :=
      (Chain.Change.cleared he hf).named_kept h.balanced.toLinked hfresh hy
    rw [hkey, hhash]
    exact h.hashed hx
  · show (d.rows.map _).Nodup
    rw [hrows]
    exact List.nodup_nil
  · show Ledger.mk d.rows d.arena.fresh = _
    rw [hrows, hf.fresh, he.fresh]
    rfl

/-! ## cursors -/

theorem Sound.frees {pins' : Nat → Nat} {d : Chain ν} {gone : List Nat}
    (hf : Frees t.chain d gone) (hd : d.Balanced pins' []) :
    ({ t with chain := d } : Store ν).Sound pins' where
  balanced := hd
  indexed := by
    show t.index.Perm (d.rows.map _)
    rw [hf.rows h.balanced.sound]
    exact h.indexed
  hashed {u y} hy := by
    obtain ⟨_, x, hx, e⟩ := hf.before hy
    rw [e]
    exact h.hashed (x := x) hx
  tokens := by
    show (d.rows.map _).Nodup
    rw [hf.rows h.balanced.sound]
    exact h.tokens

theorem ledger_frees {d : Chain ν} {gone : List Nat} (hf : Frees t.chain d gone) :
    ({ t with chain := d } : Store ν).ledger = t.ledger := by
  show Ledger.mk d.rows d.arena.fresh = _
  rw [hf.rows h.balanced.sound, hf.fresh]
  rfl

theorem after_spec {at? next : Option Nat} (hn : FirstAfter t.chain.Live at? next) :
    (t.ledger.after at?).map (·.serial) = next := by
  cases next with
  | none =>
    refine Option.map_eq_none_iff.mpr (List.find?_eq_none.mpr fun r hr => ?_)
    rw [decide_eq_true_eq]
    exact hn r.serial (live_iff_row?.mpr ⟨r, mem_rows.mp hr⟩)
  | some n =>
    obtain ⟨hlive, hafter, hmin⟩ := hn
    obtain ⟨r, hr⟩ := live_iff_row?.mp hlive
    have hs := serial_of_row? hr
    have hfirst : t.ledger.after at? = some r := by
      refine h.rows_sorted.find?_eq_some (mem_rows.mpr (by rwa [hs]))
        (decide_eq_true (by rwa [hs])) fun q hq hqa => ?_
      rw [hs]
      exact hmin q.serial (live_iff_row?.mpr ⟨q, mem_rows.mp hq⟩) (of_decide_eq_true hqa)
    rw [hfirst]
    exact congrArg some hs

/-- The first row after a position is the one of the first live slot. -/
theorem firstAfter_ledger (at? : Option Nat) :
    FirstAfter t.chain.Live at? ((t.ledger.after at?).map (·.serial)) := by
  cases hrow : t.ledger.after at? with
  | none =>
    intro s hs hafter
    obtain ⟨r, hr⟩ := live_iff_row?.mp hs
    have hserial := serial_of_row? hr
    have hno := List.find?_eq_none.mp hrow r (mem_rows.mpr (by rwa [hserial]))
    rw [hserial, decide_eq_true_eq] at hno
    exact hno hafter
  | some r =>
    obtain ⟨hafter, front, back, hsplit, hbefore⟩ := List.find?_eq_some_iff_append.mp hrow
    have hr : r ∈ t.ledger.rows := List.mem_of_find?_eq_some hrow
    refine ⟨live_iff_row?.mpr ⟨r, mem_rows.mp hr⟩, of_decide_eq_true hafter, fun s hs hafter' => ?_⟩
    obtain ⟨q, hq⟩ := live_iff_row?.mp hs
    have hserial := serial_of_row? hq
    have hmem : q ∈ t.ledger.rows := mem_rows.mpr (by rwa [hserial])
    have hsorted : Row.Sorted t.ledger.rows := h.rows_sorted
    rw [hsplit] at hmem hsorted
    rcases List.mem_append.mp hmem with hfront | hback
    · have hno := hbefore q hfront
      rw [hserial, decide_eq_true hafter'] at hno
      cases hno
    · rcases List.mem_cons.mp hback with rfl | hback
      · exact Nat.le_of_eq hserial
      · have hlt := (List.pairwise_cons.mp (List.pairwise_append.mp hsorted).2.1).1 q hback
        exact hserial ▸ Nat.le_of_lt hlt

end

/-- A cursor comes to the first row after its place, and nothing else changes for the user. -/
theorem advance_spec {at? : Option Nat} (h : t.Sound (pinOn at? pins)) :
    ∃ freed t' gone, t.advance at? = .ok ((t.ledger.after at?).map (·.serial), freed, t') ∧
      t'.Sound (pinOn ((t.ledger.after at?).map (·.serial)) pins) ∧ t'.ledger = t.ledger ∧
      t.Change gone t' ∧ freed.pairs = t.chain.pairsOf gone ∧ gone.Pairwise (· > ·) := by
  obtain ⟨next, d, gone, he, hn, hf, hd⟩ := Chain.step_spec h.balanced
  rw [after_spec h hn]
  refine ⟨.ofCascade (t.chain.pairsOf gone), { t with chain := d }, gone, ?_,
    h.frees hf.toFrees hd, ledger_frees h hf.toFrees, ⟨.freed hf.toFrees, rfl⟩, rfl,
    hf.descending⟩
  rw [advance, he]
  rfl

theorem unpin_spec (h : t.Sound (pinOn (some s) pins)) :
    ∃ freed t' gone, t.unpin s = .ok (freed, t') ∧ t'.Sound pins ∧ t'.ledger = t.ledger ∧
      t.Change gone t' ∧ freed.pairs = t.chain.pairsOf gone ∧ gone.Pairwise (· > ·) := by
  obtain ⟨d, gone, he, hf, hd⟩ := Chain.release_spec h.balanced
  refine ⟨.ofCascade (t.chain.pairsOf gone), { t with chain := d }, gone, ?_,
    h.frees hf.toFrees hd, ledger_frees h hf.toFrees, ⟨.freed hf.toFrees, rfl⟩, rfl,
    hf.descending⟩
  rw [unpin, he]
  rfl

/-- A pinned entry can be read, live or not. -/
theorem pinned_spec (h : t.Sound pins) (hs : 0 < pins s) :
    ∃ x, t.chain.arena.get? s = some x ∧ t.pinned s = .ok x.pair := by
  obtain ⟨x, hx, hp⟩ := Chain.pinned_spec h.balanced hs
  refine ⟨x, hx, ?_⟩
  rw [pinned, hp]
  rfl

/-- There are never more live entries than slots. -/
theorem tombstones_spec (h : t.Sound pins) :
    t.tombstones = .ok (t.chain.arena.size - t.chain.len) := by
  have hle : t.chain.len ≤ t.chain.arena.size := by
    rw [h.balanced.len]
    exact Arena.count_le_size _ _
  rw [tombstones, Chain.tombstones, if_neg (by omega)]

/-- Without pins nothing is held but what is live. -/
theorem tombstones_of_unpinned (h : t.Sound pins) (hp : ∀ s, pins s = 0) : t.tombstones = .ok 0 := by
  have hlen : t.chain.len = t.chain.arena.size := by
    rw [h.balanced.len]
    refine List.countP_eq_length.mpr fun cell hcell => ?_
    have hlive : cell.item.removed = false := h.balanced.not_removed hp _ (Nat.le_add_left _ _)
      (h.balanced.sound.get?_eq_some_iff.mpr ⟨cell, hcell, rfl, rfl⟩)
    exact congrArg (!·) hlive
  rw [tombstones_spec h, hlen, Nat.sub_self]

end LiveOrder.Store
