import LiveOrder.Bulk
import LiveOrder.Proofs.Tour.Refinement
import Mathlib.Data.List.Dedup

/-!
# Filled containers

What many pairs, stored one after the other, make of the entries of a container.

* `merged`      the result in closed form: the old entries in their places, then the new keys in the
                order in which they first occur, every key with the last value given to it;
* `mergedOne`   what one pair does, and `merged_cons`, the induction that ties the two;
* `Store.fill`  the loop that fills maps and sets alike; `Store.fill_spec`, what it leaves;
* `Store.insertAll_fills`, `Store.addAll_fills`   maps and sets of any content, extended by any list;
* `Bulk.build_spec`   maps and sets built from lists.
-/

namespace LiveOrder

variable {ν : Type}

/-! ## the closed form -/

def tokensOf (entries : List (Key × ν)) : List Token := entries.map fun e => e.1.token

/-- The value that a list of pairs gives to a key: the last one under an equal key. -/
def lastFor (items : List (Key × ν)) (k : Key) : Option ν :=
  (items.findRev? fun e => e.1.token = k.token).map (·.2)

/-- The first pair of every key. -/
def firsts (items : List (Key × ν)) : List (Key × ν) :=
  items.eraseDupsBy fun e f => e.1.token = f.1.token

/-- The pairs under keys that are not there yet. -/
def newTo (before items : List (Key × ν)) : List (Key × ν) :=
  items.filter fun e => e.1.token ∉ tokensOf before

/-- The entries that `items` make of `before`, where a new key is stored in the form `stored`. -/
def merged (stored : Key → Key) (before items : List (Key × ν)) : List (Key × ν) :=
  (before.map fun e => (e.1, (lastFor items e.1).getD e.2)) ++
    (firsts (newTo before items)).map fun e => (stored e.1, (lastFor items e.1).getD e.2)

/-- The entries that one pair makes of others. -/
def mergedOne (stored : Key → Key) (before : List (Key × ν)) (e : Key × ν) : List (Key × ν) :=
  if e.1.token ∈ tokensOf before then
    before.map fun f => if f.1.token = e.1.token then (f.1, e.2) else f
  else before ++ [(stored e.1, e.2)]

section
variable {stored : Key → Key} {before items rest : List (Key × ν)} {e f : Key × ν} {k : Key}

theorem lastFor_cons (e : Key × ν) (rest : List (Key × ν)) (k : Key) :
    lastFor (e :: rest) k =
      (lastFor rest k).or (if e.1.token = k.token then some e.2 else none) := by
  rw [lastFor, lastFor, List.findRev?]
  cases rest.findRev? fun e => e.1.token = k.token with
  | some f => rfl
  | none => by_cases h : e.1.token = k.token <;> simp [h]

theorem lastFor_of_token (items : List (Key × ν)) {k q : Key} (h : k.token = q.token) :
    lastFor items k = lastFor items q := by
  rw [lastFor, lastFor, h]

/-- A pair says nothing of other keys. -/
theorem lastFor_cons_of_ne (h : e.1.token ≠ k.token) : lastFor (e :: rest) k = lastFor rest k := by
  rw [lastFor_cons, if_neg h, Option.or_none]

theorem firsts_cons (e : Key × ν) (rest : List (Key × ν)) :
    firsts (e :: rest) = e :: firsts (rest.filter fun f => f.1.token ≠ e.1.token) := by
  rw [firsts, List.eraseDupsBy_cons, firsts]
  congr 3
  funext f
  simp

theorem mem_of_mem_firsts {items : List (Key × ν)} (h : e ∈ firsts items) : e ∈ items := by
  induction hn : items.length using Nat.strongRecOn generalizing items with
  | ind n ih =>
    cases items with
    | nil => exact h
    | cons f rest =>
      rw [firsts_cons] at h
      rcases List.mem_cons.mp h with rfl | h
      · exact List.mem_cons_self
      · have hlt : (rest.filter fun g => g.1.token ≠ f.1.token).length < n := by
          have hle := List.length_filter_le (fun g : Key × ν => decide (g.1.token ≠ f.1.token)) rest
          rw [List.length_cons] at hn
          omega
        exact List.mem_cons_of_mem f (List.mem_filter.mp (ih _ hlt h rfl)).1

theorem tokensOf_replaced (before : List (Key × ν)) (e : Key × ν) :
    tokensOf (before.map fun f => if f.1.token = e.1.token then (f.1, e.2) else f) =
      tokensOf before := by
  rw [tokensOf, tokensOf, List.map_map]
  apply List.map_congr_left
  intro f _
  rw [Function.comp_apply]
  split <;> rfl

theorem tokensOf_append_stored (hstored : ∀ k, (stored k).token = k.token) :
    tokensOf (before ++ [(stored e.1, e.2)]) = tokensOf before ++ [e.1.token] := by
  rw [tokensOf, List.map_append, ← hstored e.1]
  rfl

theorem merged_nil (stored : Key → Key) (before : List (Key × ν)) :
    merged stored before [] = before := by
  have hsame : ∀ e ∈ before, (e.1, (lastFor [] e.1).getD e.2) = e := fun e _ => rfl
  rw [merged, List.map_congr_left hsame, List.map_id']
  exact List.append_nil before

theorem newTo_congr {other : List (Key × ν)} (h : tokensOf before = tokensOf other) :
    newTo before items = newTo other items := by
  rw [newTo, newTo, h]

theorem notMem_of_mem_firsts (h : f ∈ firsts (newTo before items)) : f.1.token ∉ tokensOf before := by
  have hfresh := (List.mem_filter.mp (mem_of_mem_firsts h)).2
  rwa [decide_eq_true_eq] at hfresh

/-- A key that is there is given the value of the pair, unless it is given another one later. -/
theorem merged_cons_of_mem (he : e.1.token ∈ tokensOf before) :
    merged stored before (e :: rest) =
      merged stored (before.map fun f => if f.1.token = e.1.token then (f.1, e.2) else f) rest := by
  have hnew : newTo before (e :: rest) = newTo before rest := by
    rw [newTo, List.filter_cons_of_neg (by simpa using he), newTo]
  rw [merged, merged, hnew, newTo_congr (tokensOf_replaced before e), List.map_map]
  congr 1
  · apply List.map_congr_left
    intro f _
    rw [Function.comp_apply]
    by_cases hf : f.1.token = e.1.token
    · rw [if_pos hf, lastFor_cons, if_pos hf.symm]
      cases lastFor rest f.1 <;> rfl
    · rw [if_neg hf, lastFor_cons_of_ne (Ne.symm hf)]
  · apply List.map_congr_left
    intro f hf
    rw [lastFor_cons_of_ne fun hfe => notMem_of_mem_firsts hf (hfe ▸ he)]

/-- A key that is not there is the first of the new ones. -/
theorem merged_cons_of_notMem (hstored : ∀ k, (stored k).token = k.token)
    (he : e.1.token ∉ tokensOf before) :
    merged stored before (e :: rest) = merged stored (before ++ [(stored e.1, e.2)]) rest := by
  have hnew : newTo before (e :: rest) = e :: newTo before rest := by
    rw [newTo, List.filter_cons_of_pos (by simpa using he), newTo]
  have hother : (newTo before rest).filter (fun f => f.1.token ≠ e.1.token) =
      newTo (before ++ [(stored e.1, e.2)]) rest := by
    rw [newTo, newTo, List.filter_filter]
    apply List.filter_congr
    intro f _
    rw [tokensOf_append_stored hstored, Bool.eq_iff_iff]
    simp [and_comm]
  rw [merged, merged, hnew, firsts_cons, hother, List.map_append, List.map_cons, List.append_assoc]
  congr 1
  · apply List.map_congr_left
    intro f hf
    have hne : e.1.token ≠ f.1.token := fun hfe => he (hfe ▸ List.mem_map_of_mem hf)
    rw [lastFor_cons_of_ne hne]
  · congr 1
    · dsimp only
      rw [lastFor_cons, if_pos rfl, lastFor_of_token rest (hstored e.1)]
      cases lastFor rest e.1 <;> rfl
    · apply List.map_congr_left
      intro f hf
      have hfresh := notMem_of_mem_firsts hf
      rw [tokensOf_append_stored hstored] at hfresh
      rw [lastFor_cons_of_ne fun hfe =>
        hfresh (List.mem_append_right _ (List.mem_singleton.mpr hfe.symm))]

/-- A list does what its first pair does, and then its rest. -/
theorem merged_cons (hstored : ∀ k, (stored k).token = k.token) (before : List (Key × ν))
    (e : Key × ν) (rest : List (Key × ν)) :
    merged stored before (e :: rest) = merged stored (mergedOne stored before e) rest := by
  rw [mergedOne]
  split
  · rename_i he
    exact merged_cons_of_mem he
  · rename_i he
    exact merged_cons_of_notMem hstored he

theorem mem_tokensOf_mergedOne (hstored : ∀ k, (stored k).token = k.token) {u : Token} :
    u ∈ tokensOf (mergedOne stored before e) ↔ u ∈ tokensOf before ∨ u = e.1.token := by
  rw [mergedOne]
  by_cases he : e.1.token ∈ tokensOf before
  · rw [if_pos he, tokensOf_replaced]
    constructor
    · exact .inl
    · rintro (hu | rfl)
      · exact hu
      · exact he
  · rw [if_neg he, tokensOf_append_stored hstored, List.mem_append, List.mem_singleton]

/-- The keys afterwards are the old ones and those of the list. -/
theorem mem_tokensOf_merged (hstored : ∀ k, (stored k).token = k.token) {u : Token} :
    u ∈ tokensOf (merged stored before items) ↔ u ∈ tokensOf (before ++ items) := by
  induction items generalizing before with
  | nil => rw [merged_nil, List.append_nil]
  | cons e rest ih =>
    rw [merged_cons hstored, ih]
    simp only [tokensOf, List.map_append, List.mem_append, List.map_cons, List.mem_cons]
    have hput : u ∈ tokensOf (mergedOne stored before e) ↔ u ∈ tokensOf before ∨ u = e.1.token :=
      mem_tokensOf_mergedOne hstored
    rw [tokensOf, tokensOf] at hput
    rw [hput, or_assoc]

end

/-! ## filling a ledger -/

namespace Ledger

variable {l : Ledger ν} {stored : Key → Key}

theorem Sound.pairs_upsert (h : l.Sound) (hstored : ∀ k, (stored k).token = k.token) (k : Key)
    (v : ν) :
    (l.upsert (stored k) v).2.rows.map Row.pair = mergedOne stored (l.rows.map Row.pair) (k, v) := by
  have htokens : tokensOf (l.rows.map Row.pair) = l.rows.map fun r => r.key.token := by
    rw [tokensOf, List.map_map]
    rfl
  rw [upsert, mergedOne, htokens]
  cases hr : l.find? (stored k) with
  | some q =>
    obtain ⟨hq, hqk⟩ := h.find?_eq_some_iff.mp hr
    rw [hstored] at hqk
    rw [if_pos (List.mem_map.mpr ⟨q, hq, hqk⟩)]
    show (l.rows.map _).map Row.pair = _
    rw [List.map_map, List.map_map]
    apply List.map_congr_left
    intro r hmem
    have hsame : r.serial = q.serial ↔ r.key.token = k.token := by
      rw [h.serial_eq_iff hmem hq, hqk]
    rw [Function.comp_apply, Function.comp_apply]
    by_cases hs : r.serial = q.serial
    · rw [if_pos hs]
      exact (if_pos (hsame.mp hs)).symm
    · rw [if_neg hs]
      exact (if_neg (mt hsame.mpr hs)).symm
  | none =>
    have hnone : k.token ∉ l.rows.map fun r => r.key.token := by
      intro hmem
      obtain ⟨r, hmem, hk⟩ := List.mem_map.mp hmem
      have hno := List.find?_eq_none.mp hr r hmem
      rw [decide_eq_true_eq, hstored] at hno
      exact hno hk
    rw [if_neg hnone, List.map_append]
    rfl

end Ledger

/-! ## filling a store -/

namespace Store

variable {t : Store ν} {pins : Nat → Nat} {stored : Key → Key}

/-- Stores pairs one after the other, under keys in a form of their own. -/
def fill (stored : Key → Key) (t : Store ν) : List (Key × ν) → Except Fault (Store ν)
  | [] => pure t
  | (k, v) :: rest => do
    let (_, t) ← t.upsert (stored k) v
    fill stored t rest

theorem insertAll_eq_fill (t : Store ν) (items : List (Key × ν)) :
    t.insertAll items = t.fill Key.canonical items := by
  induction items generalizing t with
  | nil => rfl
  | cons e rest ih =>
    rw [insertAll, fill]
    simp only [ih]

theorem addAll_eq_fill (t : Store Unit) (keys : List Key) :
    t.addAll keys = t.fill id (keys.map fun k => (k, ())) := by
  induction keys generalizing t with
  | nil => rfl
  | cons k rest ih =>
    rw [addAll, List.map_cons, fill]
    simp only [ih]
    rfl

/-- Two lists, one after the other, are one list. -/
theorem fill_append (stored : Key → Key) (t : Store ν) (xs ys : List (Key × ν)) :
    t.fill stored (xs ++ ys) = t.fill stored xs >>= fun t => t.fill stored ys := by
  induction xs generalizing t with
  | nil => rfl
  | cons e rest ih =>
    rw [List.cons_append, fill, fill]
    cases t.upsert (stored e.1) e.2 with
    | error f => rfl
    | ok p => exact ih p.2

/-- The entries of a store, as its ledger has them. -/
def pairs (t : Store ν) : List (Key × ν) := t.ledger.rows.map Row.pair

theorem fill_sound (h : t.Sound pins) (hstored : ∀ k, (stored k).token = k.token)
    (items : List (Key × ν)) :
    ∃ t', t.fill stored items = .ok t' ∧ t'.Sound pins ∧
      t'.pairs = merged stored t.pairs items ∧ t'.hasher = t.hasher := by
  induction items generalizing t with
  | nil => exact ⟨t, rfl, h, (merged_nil stored t.pairs).symm, rfl⟩
  | cons e rest ih =>
    obtain ⟨t', he, hs, hl, hc⟩ := upsert_spec h (stored e.1) e.2
    obtain ⟨t'', he', hs', hp, hh⟩ := ih hs
    refine ⟨t'', ?_, hs', ?_, hh.trans hc.hasher⟩
    · rw [fill, he]
      exact he'
    · rw [hp, merged_cons hstored, pairs, hl, h.ledger_sound.pairs_upsert hstored]
      rfl

theorem Sound.len_eq (h : t.Sound pins) : t.len = t.pairs.length := by
  rw [pairs, List.length_map]
  exact h.balanced.toLinked.length_rows.symm

theorem Sound.tokens_nodup (h : t.Sound pins) : (tokensOf t.pairs).Nodup := by
  rw [tokensOf, pairs, List.map_map]
  exact h.tokens

/-- What filling leaves, in closed form. -/
structure Fills (stored : Key → Key) (t : Store ν) (items : List (Key × ν)) (t' : Store ν) :
    Prop where
  entries : ∃ before, t.entries = .ok before ∧ t'.entries = .ok (merged stored before items) ∧
    t'.len = (tokensOf (before ++ items)).dedup.length
  hasher : t'.hasher = t.hasher

theorem fill_spec (h : t.Sound pins) (hstored : ∀ k, (stored k).token = k.token)
    (items : List (Key × ν)) :
    ∃ t', t.fill stored items = .ok t' ∧ t'.Sound pins ∧ t.Fills stored items t' := by
  obtain ⟨t', he, hs, hp, hh⟩ := fill_sound h hstored items
  refine ⟨t', he, hs, ⟨t.pairs, entries_spec h, ?_, ?_⟩, hh⟩
  · rw [entries_spec hs, ← hp]
    rfl
  · have hperm : (tokensOf t'.pairs).Perm (tokensOf (t.pairs ++ items)).dedup := by
      apply (List.perm_ext_iff_of_nodup hs.tokens_nodup (List.nodup_dedup _)).mpr
      intro u
      rw [hp, mem_tokensOf_merged hstored, List.mem_dedup]
    rw [hs.len_eq, ← hperm.length_eq, tokensOf, List.length_map]

/-- A store of any history is extended as a map is: the entries are those of the closed form, and a
new key is stored in the canonical form of its first occurrence. -/
theorem insertAll_fills (hasher : Token → UInt64) (commands : List (Command ν)) : ∃ replies t,
    (Tour.start hasher).run commands = .ok (replies, t) ∧
    (∀ items, ∃ t', t.store.insertAll items = .ok t' ∧ t.store.Fills Key.canonical items t') ∧
    ∀ xs ys, t.store.insertAll (xs ++ ys) = t.store.insertAll xs >>= fun u => u.insertAll ys := by
  obtain ⟨t, he, h, _⟩ := Tour.run_spec (Tour.sound_start hasher) commands
  refine ⟨_, t, he, fun items => ?_, fun xs ys => ?_⟩
  · obtain ⟨t', hfill, _, hfills⟩ := fill_spec h Key.token_canonical items
    rw [← insertAll_eq_fill] at hfill
    exact ⟨t', hfill, hfills⟩
  · simp only [insertAll_eq_fill]
    exact fill_append _ _ xs ys

/-- It is extended as a set is in the same way, but elements are stored as they are given. -/
theorem addAll_fills (hasher : Token → UInt64) (commands : List (Command Unit)) : ∃ replies t,
    (Tour.start hasher).run commands = .ok (replies, t) ∧
    (∀ keys, ∃ t', t.store.addAll keys = .ok t' ∧
      t.store.Fills id (keys.map fun k => (k, ())) t') ∧
    ∀ xs ys, t.store.addAll (xs ++ ys) = t.store.addAll xs >>= fun u => u.addAll ys := by
  obtain ⟨t, he, h, _⟩ := Tour.run_spec (Tour.sound_start hasher) commands
  refine ⟨_, t, he, fun keys => ?_, fun xs ys => ?_⟩
  · have hid : ∀ k : Key, (id k).token = k.token := fun _ => rfl
    obtain ⟨t', hfill, _, hfills⟩ := fill_spec h hid (keys.map fun k => (k, ()))
    rw [← addAll_eq_fill] at hfill
    exact ⟨t', hfill, hfills⟩
  · simp only [addAll_eq_fill, List.map_append]
    exact fill_append _ _ _ _

end Store

/-! ## containers built from lists -/

namespace Store

/-- What one list and then another make of an empty store. -/
theorem fill_empty (stored : Key → Key) (hstored : ∀ k, (stored k).token = k.token)
    (xs ys : List (Key × ν)) :
    ∃ t t', (Store.empty : Store ν).fill stored xs = .ok t ∧ t.fill stored ys = .ok t' ∧
      t'.entries = .ok (merged stored [] (xs ++ ys)) ∧
      t'.len = (tokensOf (xs ++ ys)).dedup.length := by
  have h : (Store.empty : Store ν).Sound fun _ => 0 := sound_withHasher _
  obtain ⟨t, hx, hs, _⟩ := fill_sound h hstored xs
  obtain ⟨t', hy, _⟩ := fill_sound hs hstored ys
  obtain ⟨u, hu, _, ⟨before, hbefore, hentries, hlen⟩, _⟩ := fill_spec h hstored (xs ++ ys)
  rw [fill_append, hx] at hu
  cases hy.symm.trans hu
  cases hbefore
  exact ⟨t, t', hx, hy, hentries, hlen⟩

end Store

namespace Bulk

/-- Building a container from one list and extending it by another yields what both together
fill. -/
theorem build_spec (b : Bulk) : ∃ built, b.build = .ok built ∧
    built.size = (tokensOf (b.items ++ b.more)).dedup.length ∧
    built.entries =
      if b.isSet then
        (merged id [] ((b.items ++ b.more).map fun e => (e.1, ()))).map fun e => (e.1, 0)
      else merged Key.canonical [] (b.items ++ b.more) := by
  rw [build]
  cases b.isSet with
  | true =>
    have hkeys : ∀ l : List (Key × Int), (l.map (·.1)).map (fun k => (k, ())) =
        l.map fun e => (e.1, ()) := fun l => List.map_map
    obtain ⟨t, t', hx, hy, hentries, hlen⟩ := Store.fill_empty id (fun _ => rfl)
      (b.items.map fun e => (e.1, ())) (b.more.map fun e => (e.1, ()))
    rw [← hkeys, ← Store.addAll_eq_fill] at hx hy
    simp only [if_true, hx, hy, hentries, bind, Except.bind]
    refine ⟨_, rfl, ?_, ?_⟩
    · rw [hlen, tokensOf, tokensOf, ← List.map_append, List.map_map]
      rfl
    · rw [List.map_append]
  | false =>
    obtain ⟨t, t', hx, hy, hentries, hlen⟩ := Store.fill_empty _ Key.token_canonical b.items b.more
    rw [← Store.insertAll_eq_fill] at hx hy
    simp only [Bool.false_eq_true, if_false, hx, hy, hentries, bind, Except.bind]
    exact ⟨_, rfl, hlen, rfl⟩

end Bulk

end LiveOrder
