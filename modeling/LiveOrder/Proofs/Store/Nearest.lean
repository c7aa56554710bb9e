/-!
# Nearest numbers

The first number with a property after a position, and the last one before it.  No position (`none`)
stands for the beginning when what comes after it is asked for, and for the end when what comes
before it is.

* `FirstAfter P s a`   `a` is the first number with `P` after `s`, if there is any;
* `LastBefore P s a`   `a` is the last one before `s`;
* `.move`   nothing changes with a position if no number with `P` is passed over;
* `.without`, `.skip`   what becomes of them when a number loses the property;
* `.extend`, `.reach`, `.close`   when a number above all others gets it.
-/

namespace LiveOrder

/-- Every number comes after the beginning. -/
def After : Option Nat → Nat → Prop
  | none, _ => True
  | some s, q => s < q

/-- Every number comes before the end. -/
def Before : Option Nat → Nat → Prop
  | none, _ => True
  | some s, q => q < s

instance (s : Option Nat) (q : Nat) : Decidable (After s q) :=
  match s with
  | none => .isTrue trivial
  | some s => inferInstanceAs (Decidable (s < q))

theorem After.trans {s : Option Nat} {n q : Nat} (hn : After s n) (hq : n < q) : After s q := by
  cases s with
  | none => trivial
  | some s => exact Nat.lt_trans hn hq

def FirstAfter (P : Nat → Prop) (s : Option Nat) : Option Nat → Prop
  | none => ∀ q, P q → ¬After s q
  | some n => P n ∧ After s n ∧ ∀ q, P q → After s q → n ≤ q

def LastBefore (P : Nat → Prop) (s : Option Nat) : Option Nat → Prop
  | none => ∀ q, P q → ¬Before s q
  | some p => P p ∧ Before s p ∧ ∀ q, P q → Before s q → q ≤ p

section
variable {P Q : Nat → Prop} {s a b : Option Nat} {k n f : Nat}

/-! ## first after -/

theorem FirstAfter.unique (ha : FirstAfter P s a) (hb : FirstAfter P s b) : a = b := by
  cases a with
  | none =>
    cases b with
    | none => rfl
    | some m => exact absurd hb.2.1 (ha m hb.1)
  | some n =>
    cases b with
    | none => exact absurd ha.2.1 (hb n ha.1)
    | some m =>
      have h1 := ha.2.2 m hb.1 hb.2.1
      have h2 := hb.2.2 n ha.1 ha.2.1
      rw [Nat.le_antisymm h1 h2]

theorem FirstAfter.congr (h : FirstAfter P s a) (hPQ : ∀ q, Q q ↔ P q) : FirstAfter Q s a := by
  cases a with
  | none => exact fun q hq => h q ((hPQ q).mp hq)
  | some n => exact ⟨(hPQ n).mpr h.1, h.2.1, fun q hq => h.2.2 q ((hPQ q).mp hq)⟩

theorem FirstAfter.without (h : FirstAfter P s a) (hk : a ≠ some k)
    (hPQ : ∀ q, Q q ↔ P q ∧ q ≠ k) : FirstAfter Q s a := by
  cases a with
  | none => exact fun q hq => h q ((hPQ q).mp hq).1
  | some n =>
    have hn : n ≠ k := fun e => hk (congrArg some e)
    exact ⟨(hPQ n).mpr ⟨h.1, hn⟩, h.2.1, fun q hq => h.2.2 q ((hPQ q).mp hq).1⟩

/-- The one after the one that is gone takes its place. -/
theorem FirstAfter.skip (h : FirstAfter P s (some k)) (ha : FirstAfter P (some k) a)
    (hPQ : ∀ q, Q q ↔ P q ∧ q ≠ k) : FirstAfter Q s a := by
  have hlt : ∀ q, Q q → After s q → k < q := by
    intro q hq hs
    obtain ⟨hP, hne⟩ := (hPQ q).mp hq
    have hle := h.2.2 q hP hs
    omega
  cases a with
  | none => exact fun q hq hs => ha q ((hPQ q).mp hq).1 (hlt q hq hs)
  | some n =>
    have hkn : k < n := ha.2.1
    refine ⟨(hPQ n).mpr ⟨ha.1, by omega⟩, ?_, ?_⟩
    · exact h.2.1.trans hkn
    · exact fun q hq hs => ha.2.2 q ((hPQ q).mp hq).1 (hlt q hq hs)

theorem FirstAfter.extend (h : FirstAfter P s (some n)) (hf : ∀ q, P q → q < f)
    (hPQ : ∀ q, Q q ↔ P q ∨ q = f) : FirstAfter Q s (some n) := by
  refine ⟨(hPQ n).mpr (.inl h.1), h.2.1, fun q hq hs => ?_⟩
  rcases (hPQ q).mp hq with hq | rfl
  · exact h.2.2 q hq hs
  · exact Nat.le_of_lt (hf n h.1)

theorem FirstAfter.reach (h : FirstAfter P s none) (hs : After s f)
    (hPQ : ∀ q, Q q ↔ P q ∨ q = f) : FirstAfter Q s (some f) := by
  refine ⟨(hPQ f).mpr (.inr rfl), hs, fun q hq hs => ?_⟩
  rcases (hPQ q).mp hq with hq | rfl
  · exact absurd hs (h q hq)
  · exact Nat.le_refl q

/-- What lies between two positions does not matter if it has not the property. -/
theorem FirstAfter.move {s' : Option Nat} (h : FirstAfter P s a)
    (hs : ∀ q, P q → (After s' q ↔ After s q)) : FirstAfter P s' a := by
  cases a with
  | none => exact fun q hq hs' => h q hq ((hs q hq).mp hs')
  | some n =>
    exact ⟨h.1, (hs n h.1).mpr h.2.1, fun q hq hs' => h.2.2 q hq ((hs q hq).mp hs')⟩

/-! ## last before -/

theorem LastBefore.unique (ha : LastBefore P s a) (hb : LastBefore P s b) : a = b := by
  cases a with
  | none =>
    cases b with
    | none => rfl
    | some m => exact absurd hb.2.1 (ha m hb.1)
  | some n =>
    cases b with
    | none => exact absurd ha.2.1 (hb n ha.1)
    | some m =>
      have h1 := ha.2.2 m hb.1 hb.2.1
      have h2 := hb.2.2 n ha.1 ha.2.1
      rw [Nat.le_antisymm h2 h1]

theorem LastBefore.congr (h : LastBefore P s a) (hPQ : ∀ q, Q q ↔ P q) : LastBefore Q s a := by
  cases a with
  | none => exact fun q hq => h q ((hPQ q).mp hq)
  | some n => exact ⟨(hPQ n).mpr h.1, h.2.1, fun q hq => h.2.2 q ((hPQ q).mp hq)⟩

theorem LastBefore.move {s' : Option Nat} (h : LastBefore P s a)
    (hs : ∀ q, P q → (Before s' q ↔ Before s q)) : LastBefore P s' a := by
  cases a with
  | none => exact fun q hq hs' => h q hq ((hs q hq).mp hs')
  | some n =>
    exact ⟨h.1, (hs n h.1).mpr h.2.1, fun q hq hs' => h.2.2 q hq ((hs q hq).mp hs')⟩

theorem LastBefore.without (h : LastBefore P s a) (hk : a ≠ some k)
    (hPQ : ∀ q, Q q ↔ P q ∧ q ≠ k) : LastBefore Q s a := by
  cases a with
  | none => exact fun q hq => h q ((hPQ q).mp hq).1
  | some n =>
    have hn : n ≠ k := fun e => hk (congrArg some e)
    exact ⟨(hPQ n).mpr ⟨h.1, hn⟩, h.2.1, fun q hq => h.2.2 q ((hPQ q).mp hq).1⟩

theorem LastBefore.skip (h : LastBefore P s (some k)) (ha : LastBefore P (some k) a)
    (hPQ : ∀ q, Q q ↔ P q ∧ q ≠ k) : LastBefore Q s a := by
  have hlt : ∀ q, Q q → Before s q → q < k := by
    intro q hq hs
    obtain ⟨hP, hne⟩ := (hPQ q).mp hq
    have hle := h.2.2 q hP hs
    omega
  cases a with
  | none => exact fun q hq hs => ha q ((hPQ q).mp hq).1 (hlt q hq hs)
  | some n =>
    have hkn : n < k := ha.2.1
    refine ⟨(hPQ n).mpr ⟨ha.1, by omega⟩, ?_, ?_⟩
    · cases s with
      | none => trivial
      | some s => exact Nat.lt_trans hkn h.2.1
    · exact fun q hq hs => ha.2.2 q ((hPQ q).mp hq).1 (hlt q hq hs)

theorem LastBefore.extend (h : LastBefore P (some n) a) (hf : n ≤ f)
    (hPQ : ∀ q, Q q ↔ P q ∨ q = f) : LastBefore Q (some n) a := by
  have hlt : ∀ q, Q q → q < n → P q := by
    intro q hq hn
    rcases (hPQ q).mp hq with hq | rfl
    · exact hq
    · omega
  cases a with
  | none => exact fun q hq hn => h q (hlt q hq hn) hn
  | some p =>
    exact ⟨(hPQ p).mpr (.inl h.1), h.2.1, fun q hq hn => h.2.2 q (hlt q hq hn) hn⟩

/-- What comes last of all comes last before a number above all others. -/
theorem LastBefore.close (h : LastBefore P none a) (hf : ∀ q, P q → q < f)
    (hPQ : ∀ q, Q q ↔ P q ∨ q = f) : LastBefore Q (some f) a := by
  have hlt : ∀ q, Q q → q < f → P q := by
    intro q hq hn
    rcases (hPQ q).mp hq with hq | rfl
    · exact hq
    · omega
  cases a with
  | none => exact fun q hq hn => h q (hlt q hq hn) trivial
  | some p =>
    exact ⟨(hPQ p).mpr (.inl h.1), hf p h.1, fun q hq hn => h.2.2 q (hlt q hq hn) trivial⟩

theorem LastBefore.reach (hf : ∀ q, P q → q < f) (hPQ : ∀ q, Q q ↔ P q ∨ q = f) :
    LastBefore Q none (some f) := by
  refine ⟨(hPQ f).mpr (.inr rfl), trivial, fun q hq _ => ?_⟩
  rcases (hPQ q).mp hq with hq | rfl
  · exact Nat.le_of_lt (hf q hq)
  · exact Nat.le_refl q

end

end LiveOrder
