import Mathlib.Data.Nat.Notation
import Mathlib.Data.List.Basic

/-!
# A Wire Format of Numbered Fields

A message is a list of fields, each with a number and a payload: a number, or a sequence of
bytes. Numbers are written to the base `128`, the lowest digit first, and every byte but the last
one has its high bit set. In front of a payload stands its key, which has the field number and
the kind of the payload; sequences of bytes have their length in front of them.

## Main results

* `decodeFields_encodeFields`: what has been written is read as what it was.
-/

namespace WireFormat

/-- A byte. -/
abbrev Octet := Fin 256

/-- A number to the base `128`. -/
def encodeVarint (n : ℕ) : List Octet :=
  if n < 128 then [Fin.ofNat 256 n]
  else Fin.ofNat 256 (n % 128 + 128) :: encodeVarint (n / 128)
termination_by n
decreasing_by omega

/-- The number in front of some bytes, and the rest. -/
def decodeVarint : List Octet → Option (ℕ × List Octet)
  | [] => none
  | b :: bytes =>
      if b.val < 128 then some (b.val, bytes)
      else (decodeVarint bytes).map fun (n, rest) => (b.val - 128 + 128 * n, rest)

/-- What stands in a field. -/
inductive Payload
  | varint (n : ℕ)
  | bytes (b : List Octet)
  deriving DecidableEq, Repr

/-- A field, with its number. -/
abbrev Field := ℕ × Payload

/-- The key of a field and its payload. -/
def encodeField : Field → List Octet
  | (number, .varint n) => encodeVarint (number * 8) ++ encodeVarint n
  | (number, .bytes b) => encodeVarint (number * 8 + 2) ++ (encodeVarint b.length ++ b)

/-- The fields, one after another. -/
def encodeFields (fields : List Field) : List Octet :=
  fields.flatMap encodeField

/-- The payload of kind `kind` in front of some bytes, and the rest. -/
def decodePayload (kind : ℕ) (bytes : List Octet) : Option (Payload × List Octet) :=
  if kind = 0 then (decodeVarint bytes).map fun (n, rest) => (.varint n, rest)
  else if kind = 2 then
    (decodeVarint bytes).bind fun (n, rest) =>
      if n ≤ rest.length then some (.bytes (rest.take n), rest.drop n) else none
  else none

/-- At most `fuel` fields. -/
def decodeUpTo : ℕ → List Octet → Option (List Field)
  | _, [] => some []
  | 0, _ :: _ => none
  | fuel + 1, b :: bytes =>
      (decodeVarint (b :: bytes)).bind fun (key, rest) =>
        (decodePayload (key % 8) rest).bind fun (payload, rest) =>
          (decodeUpTo fuel rest).map fun fields => (key / 8, payload) :: fields

/-- The fields of a message. -/
def decodeFields (bytes : List Octet) : Option (List Field) :=
  decodeUpTo bytes.length bytes

/-! ### Round trips -/

/-- **A number is read back**, whatever follows. -/
theorem decodeVarint_encodeVarint (n : ℕ) (rest : List Octet) :
    decodeVarint (encodeVarint n ++ rest) = some (n, rest) := by
  induction n using Nat.strongRecOn with
  | _ n ih =>
      rw [encodeVarint]
      split_ifs with hn
      · have hval : (Fin.ofNat 256 n).val = n := Nat.mod_eq_of_lt (by omega)
        rw [List.singleton_append, decodeVarint, if_pos (by rw [hval]; exact hn), hval]
      · have hval : (Fin.ofNat 256 (n % 128 + 128)).val = n % 128 + 128 :=
          Nat.mod_eq_of_lt (by omega)
        rw [List.cons_append, decodeVarint, if_neg (by rw [hval]; omega), ih (n / 128) (by omega),
          Option.map_some, hval]
        have hdigits : n % 128 + 128 - 128 + 128 * (n / 128) = n := by omega
        simp only [hdigits]

/-- A number takes an octet at least. -/
theorem encodeVarint_ne_nil (n : ℕ) : encodeVarint n ≠ [] := by
  rw [encodeVarint]
  split_ifs <;> simp

/-- So does a field. -/
theorem encodeField_ne_nil (field : Field) : encodeField field ≠ [] := by
  obtain ⟨number, payload⟩ := field
  cases payload <;> simp [encodeField, encodeVarint_ne_nil]

/-- The key and the payload of a field are read back. -/
theorem decode_encodeField (field : Field) (rest : List Octet) :
    ∃ key payload, decodeVarint (encodeField field ++ rest) = some (key, payload) ∧
      key / 8 = field.1 ∧ decodePayload (key % 8) payload = some (field.2, rest) := by
  obtain ⟨number, payload⟩ := field
  cases payload with
  | varint n =>
      refine ⟨number * 8, encodeVarint n ++ rest, ?_, by omega, ?_⟩
      · rw [encodeField, List.append_assoc, decodeVarint_encodeVarint]
      · have hkind : number * 8 % 8 = 0 := by omega
        rw [decodePayload, if_pos hkind, decodeVarint_encodeVarint]
        rfl
  | bytes b =>
      refine ⟨number * 8 + 2, encodeVarint b.length ++ (b ++ rest), ?_, by omega, ?_⟩
      · rw [encodeField, List.append_assoc, List.append_assoc, decodeVarint_encodeVarint]
      · have hkind : (number * 8 + 2) % 8 = 2 := by omega
        have hlength : b.length ≤ (b ++ rest).length := by simp
        rw [hkind, decodePayload, if_neg (by omega), if_pos rfl, decodeVarint_encodeVarint,
          Option.bind_some]
        simp only [if_pos hlength, List.take_left, List.drop_left]

/-- **Fields are read back**, if there is fuel for each of them. -/
theorem decodeUpTo_encodeFields (fields : List Field) {fuel : ℕ} (hfuel : fields.length ≤ fuel) :
    decodeUpTo fuel (encodeFields fields) = some fields := by
  induction fields generalizing fuel with
  | nil => cases fuel <;> rfl
  | cons field fields ih =>
      obtain ⟨key, payload, hkey, hnumber, hpayload⟩ :=
        decode_encodeField field (encodeFields fields)
      have hcons : encodeFields (field :: fields) = encodeField field ++ encodeFields fields :=
        List.flatMap_cons
      rw [← hcons] at hkey
      cases fuel with
      | zero => simp at hfuel
      | succ fuel =>
          have hrest := ih (Nat.le_of_succ_le_succ hfuel)
          cases hbytes : encodeFields (field :: fields) with
          | nil => simp [hcons, encodeField_ne_nil] at hbytes
          | cons b bytes =>
              rw [hbytes] at hkey
              simp only [decodeUpTo, hkey, Option.bind_some, hpayload, hrest, Option.map_some,
                hnumber]

/-- **What has been written is read as what it was.** -/
theorem decodeFields_encodeFields (fields : List Field) :
    decodeFields (encodeFields fields) = some fields := by
  refine decodeUpTo_encodeFields fields ?_
  induction fields with
  | nil => exact Nat.le_refl 0
  | cons field fields ih =>
      have hpos := List.length_pos_iff.mpr (encodeField_ne_nil field)
      have hlength : (encodeFields (field :: fields)).length =
          (encodeField field).length + (encodeFields fields).length := by
        rw [encodeFields, List.flatMap_cons, List.length_append]
        rfl
      rw [hlength, List.length_cons]
      omega

end WireFormat
