import FsmFabric.Json.Decode

/-!
# Decoders that invert encoders

A value survives being written when the decoder gives it back. Numbers of the library are unbounded,
while those of a text are not, so a pair of encoder and decoder comes with the range in which it is
faithful: what is in range is given back, and nothing else is ever decoded. Each way of building a
decoder has one rule for it.
-/

namespace FsmFabric.Decode

variable {α β : Type}

/-- The decoder gives back what was written in range, and decodes nothing out of range. -/
structure Inverts (item : Decoder α) (write : α → Json) (inRange : α → Prop) : Prop where
  read : ∀ a, inRange a → item (write a) = .ok a
  range : ∀ j a, item j = .ok a → inRange a

theorem inverts_natBelow (bound : Nat) : Inverts (natBelow bound) .nat (· < bound) where
  read n small := if_pos small
  range j n decoded := by
    cases j with
    | nat m =>
      simp only [natBelow] at decoded
      split at decoded
      · next small => exact Except.ok.inj decoded ▸ small
      · cases decoded
    | null | bool | number | string | array | object => cases decoded

theorem inverts_index : Inverts index .nat (· < UInt64.size) := inverts_natBelow UInt64.size

theorem inverts_id : Inverts id .nat (· < UInt32.size) := inverts_natBelow UInt32.size

section Containers

variable {item : Decoder α} {write : α → Json} {inRange : α → Prop}

theorem Inverts.list (inverts : Inverts item write inRange) :
    Inverts (list item) (fun l => .array (l.map write)) fun l => ∀ a ∈ l, inRange a where
  read l all := by
    show (l.map write).mapM item = .ok l
    induction l with
    | nil => rfl
    | cons a rest ih =>
      obtain ⟨here, later⟩ := List.forall_mem_cons.1 all
      rw [List.map_cons, List.mapM_cons, inverts.read a here, ih later]
      rfl
  range j l decoded := by
    cases j with
    | array items =>
      change items.mapM item = .ok l at decoded
      induction items generalizing l with
      | nil =>
        cases decoded
        exact fun a member => absurd member List.not_mem_nil
      | cons j rest ih =>
        rw [List.mapM_cons, bind_eq_ok] at decoded
        obtain ⟨a, first, decoded⟩ := decoded
        obtain ⟨as, others, decoded⟩ := bind_eq_ok.1 decoded
        cases decoded
        exact List.forall_mem_cons.2 ⟨inverts.range j a first, ih as others⟩
    | null | bool | nat | number | string | object => cases decoded

theorem option_of_ne_null {j : Json} (value : j ≠ .null) :
    option item j = some <$> item j := by
  cases j with
  | null => exact absurd rfl value
  | bool | nat | number | string | array | object => rfl

theorem Inverts.option (inverts : Inverts item write inRange) (value : ∀ a, write a ≠ .null) :
    Inverts (option item) (fun o => o.elim .null write) fun o => ∀ a ∈ o, inRange a where
  read o all := by
    cases o with
    | none => rfl
    | some a =>
      show Decode.option item (write a) = .ok (some a)
      rw [option_of_ne_null (value a), inverts.read a (all a rfl)]
      rfl
  range j o decoded := by
    by_cases null : j = .null
    · subst null
      cases decoded
      intro a member
      cases member
    · rw [option_of_ne_null null] at decoded
      cases read : item j with
      | error e =>
        rw [read] at decoded
        cases decoded
      | ok a =>
        rw [read] at decoded
        cases decoded
        intro b member
        exact Option.some.inj member ▸ inverts.range j a read

end Containers

/-! ## Records -/

section Records

variable {names : List String} {probe : String → Json → Except DecodeError Unit}
  {pairs seen : List (String × Json)}

theorem members_eq (known : ∀ p ∈ pairs, p.1 ∈ names)
    (distinct : (pairs.map Prod.fst).Nodup)
    (unseen : ∀ p ∈ pairs, seen.lookup p.1 = none)
    (probed : ∀ p ∈ pairs, probe p.1 p.2 = .ok ()) :
    members names probe seen pairs = .ok (seen.reverse ++ pairs) := by
  induction pairs generalizing seen with
  | nil => simp [members]
  | cons p rest ih =>
    obtain ⟨name, value⟩ := p
    obtain ⟨knownHere, knownLater⟩ := List.forall_mem_cons.1 known
    obtain ⟨unseenHere, unseenLater⟩ := List.forall_mem_cons.1 unseen
    obtain ⟨probedHere, probedLater⟩ := List.forall_mem_cons.1 probed
    rw [List.map_cons, List.nodup_cons] at distinct
    have contained : names.contains name = true := List.contains_iff_mem.2 knownHere
    have stillUnseen : ∀ p ∈ rest, ((name, value) :: seen).lookup p.1 = none := by
      intro p member
      have other : (p.1 == name) = false :=
        beq_eq_false_iff_ne.2 fun same => distinct.1 (List.mem_map.2 ⟨p, member, same⟩)
      rw [List.lookup_cons, other]
      exact unseenLater p member
    have later : members names probe ((name, value) :: seen) rest =
        .ok (((name, value) :: seen).reverse ++ rest) :=
      ih knownLater distinct.2 stillUnseen probedLater
    simp only at unseenHere probedHere
    rw [members, if_pos contained, unseenHere, probedHere]
    simpa [bind, Except.bind] using later

/-- An object that has only known members, each of them once and fit for its name, is a record with
these fields. -/
theorem probedRecord_object (known : ∀ p ∈ pairs, p.1 ∈ names)
    (distinct : (pairs.map Prod.fst).Nodup) (probed : ∀ p ∈ pairs, probe p.1 p.2 = .ok ()) :
    probedRecord names probe (.object pairs) = .ok pairs :=
  members_eq known distinct (fun _ _ => rfl) probed

theorem record_object (known : ∀ p ∈ pairs, p.1 ∈ names) (distinct : (pairs.map Prod.fst).Nodup) :
    record names (.object pairs) = .ok pairs :=
  probedRecord_object known distinct fun _ _ => rfl

@[simp] theorem field_cons_self (name : String) (j : Json) (rest : List (String × Json))
    (item : Decoder α) : field ((name, j) :: rest) name item = item j := by
  simp [field]

@[simp] theorem field_cons_of_ne {name other : String} (differ : name ≠ other) (j : Json)
    (rest : List (String × Json)) (item : Decoder α) :
    field ((other, j) :: rest) name item = field rest name item := by
  rw [field, List.lookup_cons, beq_eq_false_iff_ne.2 differ, field]

@[simp] theorem fieldOr_cons_self (name : String) (j : Json) (rest : List (String × Json))
    (default : α) (item : Decoder α) :
    fieldOr ((name, j) :: rest) name default item = item j := by
  simp [fieldOr]

@[simp] theorem fieldOr_cons_of_ne {name other : String} (differ : name ≠ other) (j : Json)
    (rest : List (String × Json)) (default : α) (item : Decoder α) :
    fieldOr ((other, j) :: rest) name default item = fieldOr rest name default item := by
  rw [fieldOr, List.lookup_cons, beq_eq_false_iff_ne.2 differ, fieldOr]

theorem exists_of_field {fields : List (String × Json)} {name : String} {item : Decoder α} {a : α}
    (decoded : field fields name item = .ok a) : ∃ j, item j = .ok a := by
  unfold field at decoded
  split at decoded
  · next j _ => exact ⟨j, decoded⟩
  · cases decoded

theorem exists_of_fieldOr {fields : List (String × Json)} {name : String} {default : α}
    {item : Decoder α} {a : α} (decoded : fieldOr fields name default item = .ok a) :
    a = default ∨ ∃ j, item j = .ok a := by
  unfold fieldOr at decoded
  split at decoded
  · next j _ => exact .inr ⟨j, decoded⟩
  · exact .inl (Except.ok.inj decoded).symm

end Records

end FsmFabric.Decode
