import Mathlib.Algebra.Order.Group.Multiset
import Mathlib.Tactic.Abel
import LiveOrder.Proofs.Store.Contents
import LiveOrder.Proofs.Tour.Turns

/-!
# Keys and values in tours

Keys and values go into a store by `upsert` only.  They come out again in a reply, when the key was
there already, or as pairs that a command frees.

* `matter`      the keys and the values of pairs, each on its own, since a value that is replaced does
                not come out with the key that it went in with;
* `Command.given`, `Reply.returned`   what goes in with a command, and what comes out in its reply;
* `Tour.trace`   a run, with everything that has come out;
* `Tour.turn_conserves`, `step_conserves`, `trace_spec`   nothing is lost, and nothing comes out that
                has not gone in.
-/

namespace LiveOrder

open Chain

variable {ν : Type}

/-! ## what goes in and comes out -/

def matter (pairs : List (Key × ν)) : Multiset (Key ⊕ ν) :=
  (pairs.flatMap fun e => [.inl e.1, .inr e.2] : List (Key ⊕ ν))

@[simp] theorem matter_nil : matter ([] : List (Key × ν)) = 0 := rfl

@[simp] theorem matter_cons (e : Key × ν) (pairs : List (Key × ν)) :
    matter (e :: pairs) = {.inl e.1} + {.inr e.2} + matter pairs := rfl

@[simp] theorem matter_append (pairs more : List (Key × ν)) :
    matter (pairs ++ more) = matter pairs + matter more := by
  unfold matter
  rw [List.flatMap_append, Multiset.coe_add]

theorem matter_perm {pairs more : List (Key × ν)} (h : pairs.Perm more) :
    matter pairs = matter more := Multiset.coe_eq_coe.mpr (h.flatMap_right _)

namespace Command

def given : Command ν → List (Key × ν)
  | .upsert k v => [(k, v)]
  | _ => []

/-- A value is exchanged through a handle, which hands nothing back. -/
def exchanges : Command ν → Bool
  | .modify .. => true
  | _ => false

end Command

/-- The key that was not stored, with the value that was replaced. -/
def Reply.returned : Reply ν → List (Key × ν)
  | .upserted (.updated _ rejected previous) => [(rejected, previous)]
  | _ => []

theorem Turn.returned_reply (l : Ledger ν) (m : Turn) (p : Option (Option Nat)) :
    (m.reply l p).returned = [] := by
  cases m <;> cases p <;> rfl

namespace Tour

variable {t t' : Tour ν}

/-- A run, and the pairs that have come out of it. -/
def trace (t : Tour ν) : List (Command ν) →
    Except Fault (List (Reply ν) × List (Key × ν) × Tour ν)
  | [] => pure ([], [], t)
  | c :: rest => do
    let (reply, freed, t) ← t.step c
    let (replies, out, t) ← t.trace rest
    pure (reply :: replies, reply.returned ++ freed.pairs ++ out, t)

theorem trace_run (t : Tour ν) (commands : List (Command ν)) :
    (t.trace commands).map (fun x => (x.1, x.2.2)) = t.run commands := by
  induction commands generalizing t with
  | nil => rfl
  | cons c rest ih =>
    rw [trace, run]
    cases t.step c with
    | error f => rfl
    | ok x =>
      obtain ⟨reply, freed, t⟩ := x
      simp only [bind, Except.bind]
      rw [← ih]
      cases t.trace rest <;> rfl

/-! ## one step -/

section
variable (h : t.Sound) {i : Nat}
include h

theorem turn_conserves {m : Turn} {reply : Reply ν} {freed : Freed ν}
    (he : t.step (m.of i) = .ok (reply, freed, t')) :
    reply.returned = [] ∧ t.store.held.Perm (freed.pairs ++ t'.store.held) := by
  obtain ⟨freed', u, he', _, hturned, _⟩ := turn_spec h m i
  rw [he, Except.ok.injEq, Prod.mk.injEq, Prod.mk.injEq] at he'
  obtain ⟨rfl, rfl, rfl⟩ := he'
  obtain ⟨gone, hf, hp⟩ := hturned.frees
  rw [hp]
  exact ⟨Turn.returned_reply _ _ _, hf.held_perm h.balanced.sound⟩

/-- A command takes in what is given with it, and gives out what it hands back. -/
theorem step_conserves {c : Command ν} (hc : c.exchanges = false) {reply : Reply ν}
    {freed : Freed ν} (he : t.step c = .ok (reply, freed, t')) :
    matter c.given + matter t.store.held =
      matter reply.returned + matter freed.pairs + matter t'.store.held := by
  have hsame : reply.returned = [] → c.given = [] →
      t.store.held.Perm (freed.pairs ++ t'.store.held) →
      matter c.given + matter t.store.held =
        matter reply.returned + matter freed.pairs + matter t'.store.held := by
    intro hreturned hgiven hheld
    rw [hreturned, hgiven, matter_nil, zero_add, zero_add, matter_perm hheld, matter_append]
  cases c with
  | upsert k v =>
    obtain ⟨store, hu, _⟩ := Store.upsert_spec h k v
    generalize (t.store.ledger.upsert k v).1 = outcome at hu
    rw [step, hu] at he
    cases he
    cases outcome with
    | inserted s =>
      have hheld : store.held.Perm ((k, v) :: t.store.held) := Store.upsert_held h hu
      simp only [Command.given, Reply.returned, matter_perm hheld, matter_cons, matter_nil]
      abel
    | updated s key previous =>
      obtain ⟨rfl, first, rest, hold, hnew⟩ := Store.upsert_held h hu
      simp only [Command.given, Reply.returned, matter_perm hold, matter_perm hnew, matter_cons,
        matter_nil]
      abel
  | remove k =>
    cases hr : t.store.remove k with
    | error f =>
      rw [step, hr] at he
      cases he
    | ok x =>
      rw [step, hr] at he
      cases he
      exact hsame rfl rfl (Store.remove_held h hr)
  | clear =>
    cases hr : t.store.clear with
    | error f =>
      rw [step, hr] at he
      cases he
    | ok x =>
      rw [step, hr] at he
      cases he
      exact hsame rfl rfl (Store.clear_held h hr)
  | find k =>
    rw [step, Store.find_spec h] at he
    cases he
    exact hsame rfl rfl (.refl _)
  | contains k =>
    rw [step, Store.contains_spec h] at he
    cases he
    exact hsame rfl rfl (.refl _)
  | lookup k =>
    rw [step, Store.lookup_spec h] at he
    cases he
    exact hsame rfl rfl (.refl _)
  | entries =>
    rw [step, Store.entries_spec h] at he
    cases he
    exact hsame rfl rfl (.refl _)
  | modify s f => cases hc
  | key s =>
    cases he
    exact hsame rfl rfl (.refl _)
  | value s =>
    cases he
    exact hsame rfl rfl (.refl _)
  | len =>
    cases he
    exact hsame rfl rfl (.refl _)
  | start =>
    cases he
    exact hsame rfl rfl (.refl _)
  | advance i =>
    obtain ⟨hreturned, hheld⟩ := turn_conserves h (m := .advance) he
    exact hsame hreturned rfl hheld
  | close i =>
    obtain ⟨hreturned, hheld⟩ := turn_conserves h (m := .close) he
    exact hsame hreturned rfl hheld
  | abandon i =>
    obtain ⟨hreturned, hheld⟩ := turn_conserves h (m := .abandon) he
    exact hsame hreturned rfl hheld

/-! ## many steps -/

/-- No run fails, and what has gone in is held or has come out. -/
theorem trace_spec (commands : List (Command ν)) (hc : ∀ c ∈ commands, c.exchanges = false) :
    ∃ replies out t', t.trace commands = .ok (replies, out, t') ∧ t'.Sound ∧
      matter (commands.flatMap Command.given) + matter t.store.held =
        matter out + matter t'.store.held := by
  induction commands generalizing t with
  | nil => exact ⟨[], [], t, rfl, h, rfl⟩
  | cons c rest ih =>
    obtain ⟨freed, next, he, htook⟩ := step_spec h c
    obtain ⟨replies, out, last, htrace, hlast, hrest⟩ :=
      ih htook.sound fun d hd => hc d (List.mem_cons_of_mem _ hd)
    have hone := step_conserves h (hc c List.mem_cons_self) he
    generalize (t.itinerary.step c).1 = reply at he hone
    refine ⟨reply :: replies, reply.returned ++ freed.pairs ++ out, last, ?_, hlast, ?_⟩
    · rw [trace, he]
      simp only [bind, Except.bind]
      rw [htrace]
      rfl
    · rw [List.flatMap_cons, matter_append, matter_append, matter_append]
      calc matter c.given + matter (rest.flatMap Command.given) + matter t.store.held
          = (matter c.given + matter t.store.held) + matter (rest.flatMap Command.given) := by abel
        _ = matter reply.returned + matter freed.pairs +
            (matter (rest.flatMap Command.given) + matter next.store.held) := by
          rw [hone]
          abel
        _ = matter reply.returned + matter freed.pairs + matter out + matter last.store.held := by
          rw [hrest, add_assoc _ (matter out)]

end

end Tour

end LiveOrder
