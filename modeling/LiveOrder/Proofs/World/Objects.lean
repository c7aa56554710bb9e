import LiveOrder.Proofs.World.Records

/-!
# Objects that change

* `containerAt?_setBody`, `containerAt?_append`, …   the container at an object when the table of objects
                      changes;
* `isSome_containerAt?_setContainer`, …   what remains a container;
* `handlesAt`         the number of handles on an object.
-/

namespace LiveOrder

/-! ## containers -/

theorem containerAt?_eq_some_iff {cells : List (Nat × Cell)} {r : Nat} {c : Container} :
    containerAt? cells r = some c ↔ ∃ n, Table.get? r cells = some ⟨n, .container c⟩ := by
  unfold containerAt?
  cases h : Table.get? r cells with
  | none => simp
  | some d =>
    obtain ⟨n, body⟩ := d
    cases body <;> simp [Body.container?]

theorem containerAt?_setHandles (r q n : Nat) (cells : List (Nat × Cell)) :
    containerAt? (Table.change r (fun d => { d with handles := n }) cells) q =
      containerAt? cells q := by
  unfold containerAt?
  rw [Table.get?_change]
  split
  · rw [Option.bind_map]
    rfl
  · rfl

theorem containerAt?_of_erase {cells : List (Nat × Cell)} {r q : Nat} {c : Container}
    (hc : containerAt? (Table.erase r cells) q = some c) : containerAt? cells q = some c := by
  unfold containerAt? at hc ⊢
  rw [Table.get?_erase] at hc
  split at hc
  · cases hc
  · exact hc

theorem containerAt?_setBody (r q : Nat) (body : Body) (cells : List (Nat × Cell)) :
    containerAt? (Table.change r (fun d => { d with body }) cells) q =
      if q = r then (Table.get? q cells).bind fun _ => body.container? else containerAt? cells q := by
  unfold containerAt?
  rw [Table.get?_change]
  split
  · rw [Option.bind_map]
    rfl
  · rfl

theorem containerAt?_setContainer {cells : List (Nat × Cell)} {r q : Nat} {c c' e : Container}
    (hc : containerAt? cells r = some c)
    (he : containerAt? (Table.change r (fun d => { d with body := .container c' }) cells) q = some e) :
    (q = r ∧ e = c') ∨ (q ≠ r ∧ containerAt? cells q = some e) := by
  obtain ⟨n, hd⟩ := containerAt?_eq_some_iff.mp hc
  rw [containerAt?_setBody] at he
  split at he
  · rename_i hq
    rw [hq, hd] at he
    exact .inl ⟨hq, (Option.some.inj he).symm⟩
  · rename_i hq
    exact .inr ⟨hq, he⟩

theorem containerAt?_append {cells : List (Nat × Cell)} {r q : Nat} {d : Cell} {e : Container}
    (he : containerAt? (cells ++ [(r, d)]) q = some e) :
    (q = r ∧ d.body.container? = some e) ∨ containerAt? cells q = some e := by
  unfold containerAt? at he ⊢
  rw [Table.get?_append] at he
  cases hq : Table.get? q cells with
  | some d =>
    rw [hq] at he
    exact .inr he
  | none =>
    rw [hq] at he
    dsimp only at he
    split at he
    · rename_i hr
      exact .inl ⟨hr, he⟩
    · cases he

/-- What is not a container does not become one. -/
theorem containerAt?_of_setPlain {cells : List (Nat × Cell)} {r q : Nat} {body : Body} {c : Container}
    (hb : body.container? = none)
    (hc : containerAt? (Table.change r (fun d => { d with body }) cells) q = some c) :
    containerAt? cells q = some c := by
  rw [containerAt?_setBody] at hc
  split at hc
  · rw [hb] at hc
    simp at hc
  · exact hc

/-- A container stays one when it is changed. -/
theorem isSome_containerAt?_setContainer {cells : List (Nat × Cell)} {r q : Nat} {c c' : Container}
    (hc : containerAt? cells r = some c) (hq : (containerAt? cells q).isSome) :
    (containerAt? (Table.change r (fun d => { d with body := .container c' }) cells) q).isSome := by
  obtain ⟨n, hd⟩ := containerAt?_eq_some_iff.mp hc
  rw [containerAt?_setBody]
  split
  · rename_i he
    rw [he, hd]
    rfl
  · exact hq

theorem isSome_containerAt?_setPlain {cells : List (Nat × Cell)} {r q : Nat} {body : Body}
    (hr : containerAt? cells r = none) (hq : (containerAt? cells q).isSome) :
    (containerAt? (Table.change r (fun d => { d with body }) cells) q).isSome := by
  rw [containerAt?_setBody, if_neg fun he => ?_]
  · exact hq
  · rw [he, hr] at hq
    cases hq

theorem isSome_containerAt?_append {cells : List (Nat × Cell)} {r q : Nat} {d : Cell}
    (hq : (containerAt? cells q).isSome) : (containerAt? (cells ++ [(r, d)]) q).isSome := by
  unfold containerAt? at hq ⊢
  rw [Table.get?_append]
  cases he : Table.get? q cells with
  | some e =>
    rw [he] at hq
    exact hq
  | none =>
    rw [he] at hq
    cases hq

theorem isSome_containerAt?_erase {cells : List (Nat × Cell)} {r q : Nat} (hr : q ≠ r)
    (hq : (containerAt? cells q).isSome) : (containerAt? (Table.erase r cells) q).isSome := by
  unfold containerAt? at hq ⊢
  rwa [Table.get?_erase, if_neg hr]

/-! ## handles -/

def handlesAt (cells : List (Nat × Cell)) (r : Nat) : Nat :=
  ((Table.get? r cells).map (·.handles)).getD 0

theorem handlesAt_setBody (r q : Nat) (body : Body) (cells : List (Nat × Cell)) :
    handlesAt (Table.change r (fun d => { d with body }) cells) q = handlesAt cells q := by
  unfold handlesAt
  rw [Table.get?_change]
  split
  · rw [Option.map_map]
    rfl
  · rfl

theorem handlesAt_setHandles (r q n : Nat) (cells : List (Nat × Cell)) :
    handlesAt (Table.change r (fun d => { d with handles := n }) cells) q =
      if q = r then (if (Table.get? q cells).isSome then n else 0) else handlesAt cells q := by
  unfold handlesAt
  rw [Table.get?_change]
  split
  · cases Table.get? q cells <;> rfl
  · rfl

end LiveOrder
