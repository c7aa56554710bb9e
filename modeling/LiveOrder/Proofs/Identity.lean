import LiveOrder.Proofs.Number.Quantity
import LiveOrder.Proofs.Tour.Refinement

/-!
# Identity

What a key is, said without tokens: a text whatever holds it, an integer whatever its type, a number
whatever its width, an allocation.

* `Identity`, `Key.denotes`, `Value.denotes`   what a key or a value denotes; a reference denotes what
                                               it refers to;
* `Key.token_eq_iff`   equal tokens are equal denotations: `Token.denotes` forgets nothing of the
                       tokens that keys have, which are folded (`Token.Folded`);
* `tokens_decide_identity`   so equality of values is an equivalence, and equality of values and the
                             lookups of every store decide what keys denote.
-/

namespace LiveOrder

inductive Identity where
  | undefined
  | null
  | truth (b : Bool)
  | number (q : Quantity)
  | integer (n : ℤ)
  | char (c : Char)
  | text (s : String)
  | allocation (r : Nat)

def Value.denotes : Value → Identity
  | .undefined => .undefined
  | .null => .null
  | .bool b => .truth b
  | .number bits => .number (Number.quantity bits)
  | .text s => .text s
  | .object r | .function r | .map r | .set r => .allocation r

/-- Unit and null are one. -/
def Key.denotes : Key → Identity
  | .text _ s => .text s
  | .unit => .null
  | .bool b => .truth b
  | .char c => .char c
  | .double bits => .number (Number.quantity bits)
  | .single bits => .number (Number.quantity32 bits)
  | .int _ n => .integer n
  | .shared _ r | .map r | .set r => .allocation r
  | .value v => v.denotes
  | .reference k => k.denotes

namespace Token

variable {t u : Token}

def denotes : Token → Identity
  | .undefined => .undefined
  | .null => .null
  | .bool b => .truth b
  | .number bits => .number (Number.quantity bits)
  | .int n => .integer n
  | .char c => .char c
  | .text s => .text s
  | .ref r => .allocation r

/-- A token of a number has the one pattern that stands for it. -/
def Folded : Token → Prop
  | .number bits => Number.identity bits = bits
  | _ => True

theorem denotes_ofNumber (bits : UInt64) :
    (ofNumber bits).denotes = .number (Number.quantity bits) :=
  congrArg Identity.number (Number.quantity_identity bits)

theorem folded_ofNumber (bits : UInt64) : (ofNumber bits).Folded :=
  Number.identity_identity bits

/-- Folded tokens of one denotation are one token. -/
theorem Folded.eq_of_denotes (ht : t.Folded) (hu : u.Folded) (h : t.denotes = u.denotes) :
    t = u := by
  cases t with
  | number b =>
    cases u with
    | number c =>
      have hq : Number.quantity b = Number.quantity c := Identity.number.inj h
      have hbc := Number.identity_eq_iff.mpr hq
      rw [Folded] at ht hu
      rw [← ht, ← hu, hbc]
    | _ => cases h
  | _ => cases u <;> simp_all [denotes]

end Token

/-! ## keys and values -/

theorem Value.denotes_token (v : Value) : v.token.denotes = v.denotes := by
  cases v with
  | number bits => exact Token.denotes_ofNumber bits
  | _ => rfl

theorem Value.folded_token (v : Value) : v.token.Folded := by
  cases v with
  | number bits => exact Token.folded_ofNumber bits
  | _ => trivial

theorem Key.denotes_token (k : Key) : k.token.denotes = k.denotes := by
  induction k with
  | double bits => exact Token.denotes_ofNumber bits
  | single bits =>
    -- the one place where the width of a number could show
    show (Token.ofNumber (Number.widen bits)).denotes = _
    rw [Token.denotes_ofNumber, Number.quantity_widen]
    rfl
  | value v => exact v.denotes_token
  | reference k ih => exact ih
  | _ => rfl

theorem Key.folded_token (k : Key) : k.token.Folded := by
  induction k with
  | double bits => exact Token.folded_ofNumber bits
  | single bits => exact Token.folded_ofNumber _
  | value v => exact v.folded_token
  | reference k ih => exact ih
  | _ => trivial

theorem Key.token_eq_iff {a b : Key} : a.token = b.token ↔ a.denotes = b.denotes := by
  constructor
  · intro h
    rw [← a.denotes_token, h, b.denotes_token]
  · intro h
    rw [← a.denotes_token, ← b.denotes_token] at h
    exact a.folded_token.eq_of_denotes b.folded_token h

/-! ## lookups -/

namespace Store

variable {ν : Type} {t : Store ν} {pins : Nat → Nat} {q : Key} {s : Nat}

/-- The entry that is found is the live one whose key denotes the same. -/
theorem Sound.find_iff (h : t.Sound pins) :
    t.find q = .ok (some s) ↔ ∃ k, t.key? s = some k ∧ k.denotes = q.denotes := by
  rw [find_spec h, Except.ok.injEq, Option.map_eq_some_iff, key?_spec h]
  constructor
  · rintro ⟨r, hr, hs⟩
    obtain ⟨hmem, hk⟩ := h.find?_eq_some_iff.mp hr
    refine ⟨r.key, ?_, Key.token_eq_iff.mp hk⟩
    rw [h.ledger_sound.row?_eq_some_iff.mpr ⟨hmem, hs⟩]
    rfl
  · rintro ⟨k, hk, hdenotes⟩
    obtain ⟨r, hr, rfl⟩ := Option.map_eq_some_iff.mp hk
    obtain ⟨hmem, hs⟩ := h.ledger_sound.row?_eq_some_iff.mp hr
    exact ⟨r, h.find?_eq_some_iff.mpr ⟨hmem, Key.token_eq_iff.mpr hdenotes⟩, hs⟩

theorem Sound.contains_iff (h : t.Sound pins) :
    t.contains q = .ok true ↔ ∃ s k, t.key? s = some k ∧ k.denotes = q.denotes := by
  simp only [← h.find_iff]
  rw [contains_spec h, find_spec h, Except.ok.injEq]
  simp only [Except.ok.injEq, Option.map_eq_some_iff]
  rw [Option.isSome_iff_exists]
  constructor
  · rintro ⟨r, hr⟩
    exact ⟨r.serial, r, hr, rfl⟩
  · rintro ⟨_, r, hr, _⟩
    exact ⟨r, hr⟩

end Store

/-- **Tokens decide identity.**  The tokens of two keys of any types are equal exactly when the keys
denote the same.  So equality of values is an equivalence and decides what values denote, and after
every run of a store, whatever the hashes, the entry that is found of a key, if any, is the one whose
stored key denotes the same; of a value, the one stored under an equal value. -/
theorem tokens_decide_identity :
    (∀ a b : Key, a.token = b.token ↔ a.denotes = b.denotes) ∧
    (Equivalence fun v w : Value => v.same w = true) ∧
    (∀ v w : Value, v.same w = true ↔ v.denotes = w.denotes) ∧
    ∀ {ν : Type} (hasher : Token → UInt64) (commands : List (Command ν)),
      ∃ replies t, (Tour.start hasher).run commands = .ok (replies, t) ∧
        (∀ q s, t.store.find q = .ok (some s) ↔
          ∃ k, t.store.key? s = some k ∧ k.denotes = q.denotes) ∧
        (∀ q, t.store.contains q = .ok true ↔
          ∃ s k, t.store.key? s = some k ∧ k.denotes = q.denotes) ∧
        ∀ v w s, t.store.key? s = some (.value v) →
          (t.store.find (.value w) = .ok (some s) ↔ v.same w = true) := by
  have hsame : ∀ v w : Value, v.same w = true ↔ v.denotes = w.denotes := fun v w =>
    Value.same_iff.trans (Key.token_eq_iff (a := .value v) (b := .value w))
  refine ⟨fun a b => Key.token_eq_iff, ?_, hsame, ?_⟩
  · simp only [hsame]
    exact ⟨fun _ => rfl, Eq.symm, Eq.trans⟩
  · intro ν hasher commands
    obtain ⟨t, he, h, _⟩ := Tour.run_spec (Tour.sound_start hasher) commands
    refine ⟨_, t, he, fun q s => h.find_iff, fun q => h.contains_iff, ?_⟩
    intro v w s hk
    rw [h.find_iff, hk, hsame]
    constructor
    · rintro ⟨k, hkv, hdenotes⟩
      cases hkv
      exact hdenotes
    · intro hdenotes
      exact ⟨.value v, rfl, hdenotes⟩

end LiveOrder
