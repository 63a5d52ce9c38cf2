import FsmFabric.Json.Token
import Mathlib.Data.Nat.Digits.Defs

/-!
# Numerals and lines in a text

A listing is read by cutting it at the characters that end its parts, and taking the parts as
numerals. Both are given here apart from the functions that write listings.
-/

namespace FsmFabric.Reading

/-! ## Numerals -/

/-- The text writes the number with lower-case digits. -/
def Writes (base n : Nat) (text : List Char) : Prop :=
  ∃ values : List Nat, text = values.map Nat.digitChar ∧ (∀ d ∈ values, d < base) ∧
    Nat.ofDigits base values.reverse = n

theorem hexValue?_digitChar : ∀ d < 16, Json.hexValue? (Nat.digitChar d) = some d := by
  decide

variable {base n : Nat} {text : List Char}

theorem Writes.not_mem (writes : Writes base n text) (small : base ≤ 16) {c : Char}
    (other : Json.hexValue? c = none) : c ∉ text := by
  obtain ⟨values, rfl, digits, -⟩ := writes
  rw [List.mem_map]
  rintro ⟨d, member, rfl⟩
  have := digits d member
  rw [hexValue?_digitChar d (by omega)] at other
  cases other

theorem writes_toDigits (two : 1 < base) (n : Nat) : Writes base n (Nat.toDigits base n) := by
  induction n using Nat.base_induction base two with
  | single m lt =>
    rw [Nat.toDigits_of_lt_base lt]
    exact ⟨[m], rfl, by simpa using lt, Nat.ofDigits_singleton⟩
  | digit m d lt pos ih =>
    obtain ⟨values, text, digits, value⟩ := ih
    rw [← Nat.toDigits_append_toDigits two pos lt, Nat.toDigits_of_lt_base lt, text]
    refine ⟨values ++ [d], by simp, ?_, ?_⟩
    · simpa [or_imp, forall_and] using ⟨digits, lt⟩
    · rw [List.reverse_append, List.reverse_singleton, List.singleton_append, Nat.ofDigits_cons,
        value, Nat.add_comm]

theorem utf8ByteSize_ofList_cons (c : Char) (rest : List Char) :
    (String.ofList (c :: rest)).utf8ByteSize =
      c.utf8Size + (String.ofList rest).utf8ByteSize := by
  rw [String.ofList_cons, String.utf8ByteSize_append, String.utf8ByteSize_singleton]

/-- Every character takes a byte or more. -/
theorem length_le_utf8ByteSize (text : String) : text.length ≤ text.utf8ByteSize := by
  rw [← String.length_toList, ← String.ofList_toList (s := text), String.toList_ofList]
  induction text.toList with
  | nil => exact Nat.le_refl 0
  | cons c rest ih =>
    rw [List.length_cons, utf8ByteSize_ofList_cons]
    have := c.utf8Size_pos
    omega

/-! ## Lines -/

/-- The parts of a text, each of which ends with a character. -/
def pieces? (stop : Char) (text : List Char) : Option (List (List Char)) :=
  if (text.splitOn stop).getLast? = some [] then some (text.splitOn stop).dropLast else none

theorem splitOn_flatMap {stop : Char} {parts : List (List Char)}
    (free : ∀ part ∈ parts, stop ∉ part) (rest : List Char) :
    (parts.flatMap (· ++ [stop]) ++ rest).splitOn stop = parts ++ rest.splitOn stop := by
  induction parts with
  | nil => rfl
  | cons part parts ih =>
    obtain ⟨here, later⟩ := List.forall_mem_cons.1 free
    rw [List.flatMap_cons, List.append_assoc, List.append_assoc, List.singleton_append,
      List.splitOn_append_cons_self_of_not_mem here, ih later, List.cons_append]

theorem pieces?_flatMap {stop : Char} {parts : List (List Char)}
    (free : ∀ part ∈ parts, stop ∉ part) :
    pieces? stop (parts.flatMap (· ++ [stop])) = some parts := by
  have split := splitOn_flatMap free []
  rw [List.append_nil, List.splitOn_nil] at split
  rw [pieces?, split]
  simp

end FsmFabric.Reading
