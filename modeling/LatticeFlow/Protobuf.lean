import LatticeFlow.Lib.WireFormat
import LatticeFlow.Server

/-!
# Protocol Buffers of the Key-Value Store

The messages of `key_value_stores/message.proto` in the wire format of protocol buffers, as the
code generated from it writes them: the fields that are set, in the order of their numbers. An
`int64` is written as the number with the same `64` bits.

The parser takes the last one of several fields with the same number, and leaves out fields that
it does not know. A message that is no sequence of fields is parsed as one in which nothing is
set.

## Main results

* `parseRequest_serializeRequest`, `parseResponse_serializeResponse`: the round trips.
-/

namespace LatticeFlow

open WireFormat

/-! ### Messages -/

/-- The fields of a message; none if it is malformed. -/
def parseFields (bytes : Bytes) : List Field :=
  (decodeFields bytes).getD []

@[simp] theorem parseFields_encodeFields (fields : List Field) :
    parseFields (encodeFields fields) = fields := by
  rw [parseFields, decodeFields_encodeFields, Option.getD_some]

/-- The bytes of a field with number `n`. -/
def Field.bytesAt (n : ℕ) : Field → Option Bytes
  | (m, .bytes b) => if m = n then some b else none
  | _ => none

/-- The number in a field with number `n`. -/
def Field.varintAt (n : ℕ) : Field → Option ℕ
  | (m, .varint k) => if m = n then some k else none
  | _ => none

/-- The value of an `int64` on the wire. -/
def int64OfVarint (n : ℕ) : Int64 :=
  Int64.ofBitVec (BitVec.ofNat 64 n)

/-- An `int64` on the wire. -/
def varintOfInt64 (i : Int64) : ℕ :=
  i.toBitVec.toNat

@[simp] theorem int64OfVarint_varintOfInt64 (i : Int64) :
    int64OfVarint (varintOfInt64 i) = i := by
  rw [int64OfVarint, varintOfInt64, BitVec.ofNat_toNat, BitVec.setWidth_eq,
    Int64.ofBitVec_toBitVec]

/-- The fields of a `KeyValuePair`. -/
def pairFields (p : KeyValuePair) : List Field :=
  [(1, .bytes p.key), (2, .bytes p.value)]

/-- A `KeyValuePair` from its fields. -/
def pairOfFields (fields : List Field) : KeyValuePair where
  key := ((fields.filterMap (Field.bytesAt 1)).getLast?).getD []
  value := ((fields.filterMap (Field.bytesAt 2)).getLast?).getD []

/-- The fields of a `Put`. -/
def putFields (timestamp : Int64) (kv_pair : List KeyValuePair) : List Field :=
  (1, .varint (varintOfInt64 timestamp)) ::
    kv_pair.map fun p => (2, .bytes (encodeFields (pairFields p)))

/-- A `Put` from its fields. -/
def putOfFields (fields : List Field) : Request :=
  .put (int64OfVarint (((fields.filterMap (Field.varintAt 1)).getLast?).getD 0))
    ((fields.filterMap (Field.bytesAt 2)).map fun b => pairOfFields (parseFields b))

/-- `SerializeToString` of a `Request`. -/
def serializeRequest : Request → Bytes
  | .beginTransaction => encodeFields [(1, .bytes [])]
  | .get key => encodeFields [(2, .bytes (encodeFields [(1, .bytes key)]))]
  | .put timestamp kv_pair =>
      encodeFields [(3, .bytes (encodeFields (putFields timestamp kv_pair)))]
  | .notSet => []

/-- A field of the `oneof` of a `Request`. -/
def requestOfField : Field → Option Request
  | (1, .bytes _) => some .beginTransaction
  | (2, .bytes b) => some (.get
      ((((parseFields b).filterMap (Field.bytesAt 1)).getLast?).getD []))
  | (3, .bytes b) => some (putOfFields (parseFields b))
  | _ => none

/-- `ParseFromString` of a `Request`. -/
def parseRequest (bytes : Bytes) : Request :=
  (((parseFields bytes).filterMap requestOfField).getLast?).getD .notSet

/-- The fields of a `Response`. -/
def responseFields (r : Response) : List Field :=
  (r.succeed.toList.map fun b => (1, .varint b.toNat)) ++
    (r.value.toList.map fun v => (2, .bytes v)) ++
    r.timestamp.toList.map fun t => (3, .varint (varintOfInt64 t))

/-- `SerializeToString` of a `Response`. -/
def serializeResponse (r : Response) : Bytes :=
  encodeFields (responseFields r)

/-- `ParseFromString` of a `Response`. -/
def parseResponse (bytes : Bytes) : Response :=
  let fields := parseFields bytes
  { succeed := ((fields.filterMap (Field.varintAt 1)).getLast?).map fun n => n ≠ 0
    value := (fields.filterMap (Field.bytesAt 2)).getLast?
    timestamp := ((fields.filterMap (Field.varintAt 3)).getLast?).map int64OfVarint }

/-! ### Round trips -/

/-- A pair is read back from its fields. -/
theorem pairOfFields_pairFields (p : KeyValuePair) : pairOfFields (pairFields p) = p := by
  simp [pairOfFields, pairFields, Field.bytesAt]

/-- A PUT is read back from its fields, with its pairs in order. -/
theorem putOfFields_putFields (timestamp : Int64) (kv_pair : List KeyValuePair) :
    putOfFields (putFields timestamp kv_pair) = .put timestamp kv_pair := by
  have hvarints : (putFields timestamp kv_pair).filterMap (Field.varintAt 1) =
      [varintOfInt64 timestamp] := by
    have hnone :
        (kv_pair.map fun p => ((2, .bytes (encodeFields (pairFields p))) : Field)).filterMap
          (Field.varintAt 1) = [] := by
      rw [List.filterMap_map, List.filterMap_eq_nil_iff]
      intro p _
      rfl
    simp [putFields, Field.varintAt, hnone]
  have hbytes : (putFields timestamp kv_pair).filterMap (Field.bytesAt 2) =
      kv_pair.map fun p => encodeFields (pairFields p) := by
    have hnone : Field.bytesAt 2 (1, .varint (varintOfInt64 timestamp)) = none := rfl
    rw [putFields, List.filterMap_cons_none hnone, List.filterMap_map, ← List.filterMap_eq_map]
    rfl
  have hpairs : (kv_pair.map fun p => encodeFields (pairFields p)).map
      (fun b => pairOfFields (parseFields b)) = kv_pair := by
    rw [List.map_map]
    refine (List.map_congr_left fun p _ => ?_).trans (List.map_id kv_pair)
    rw [Function.comp_apply, parseFields_encodeFields, pairOfFields_pairFields]
    rfl
  rw [putOfFields, hvarints, hbytes, hpairs, List.getLast?_singleton, Option.getD_some,
    int64OfVarint_varintOfInt64]

/-- **A request is parsed as what it was**. -/
theorem parseRequest_serializeRequest (r : Request) : parseRequest (serializeRequest r) = r := by
  cases r with
  | beginTransaction => simp [parseRequest, serializeRequest, requestOfField]
  | get key => simp [parseRequest, serializeRequest, requestOfField, Field.bytesAt]
  | put timestamp kv_pair =>
      simp [parseRequest, serializeRequest, requestOfField, putOfFields_putFields]
  | notSet => rfl

/-- **A response is parsed as what it was**. -/
theorem parseResponse_serializeResponse (r : Response) :
    parseResponse (serializeResponse r) = r := by
  obtain ⟨succeed, value, timestamp⟩ := r
  have hsucceed : (responseFields ⟨succeed, value, timestamp⟩).filterMap (Field.varintAt 1) =
      succeed.toList.map Bool.toNat := by
    cases succeed <;> cases value <;> cases timestamp <;> rfl
  have hvalue : (responseFields ⟨succeed, value, timestamp⟩).filterMap (Field.bytesAt 2) =
      value.toList := by
    cases succeed <;> cases value <;> cases timestamp <;> rfl
  have htimestamp : (responseFields ⟨succeed, value, timestamp⟩).filterMap (Field.varintAt 3) =
      timestamp.toList.map varintOfInt64 := by
    cases succeed <;> cases value <;> cases timestamp <;> rfl
  simp only [parseResponse, serializeResponse, parseFields_encodeFields, hsucceed, hvalue,
    htimestamp, Response.mk.injEq]
  refine ⟨?_, ?_, ?_⟩
  · rcases succeed with _ | (_ | _) <;> rfl
  · cases value <;> rfl
  · cases timestamp <;> simp

end LatticeFlow
