import Mathlib.Algebra.Group.Nat.Defs
import Mathlib.Data.List.Basic
import Mathlib.Tactic.IntervalCases

/-!
# HexDump

This module models `hexdump.cc`: the insertion of a byte array into an output stream in
the style of `hexdump -C`, and a reader for what it prints.

The stream is modelled with the formatting state the code depends on. The number base and
the fill character are sticky and stay as the last manipulator left them; the width holds
for one formatted output. In particular the base of a row's offset is whatever the stream
was left in, by earlier rows or by earlier output. All other formatting flags are taken
at their defaults. Printability is that of the `"C"` locale.

There are four separately padded layouts: the empty array, a full row, at most eight
bytes, and nine to sixteen bytes. `IsLine` says what they have in common.

## Main results

* `hexDump_reads_back`: for every array of less than `2 ^ 32` bytes and every state of the
  stream, the printed lines are numbered and aligned, and reading their two-digit groups
  gives back the bytes.
-/

namespace LatticeFlow

/-! ### Output streams -/

/-- The base in which a stream prints integers. -/
inductive Base
  | dec
  | oct
  | hex
  deriving DecidableEq, Repr

def Base.radix : Base → ℕ
  | dec => 10
  | oct => 8
  | hex => 16

/-- A `std::ostream`: its formatting state and what was written to it. -/
structure Ostream where
  base : Base
  width : ℕ
  fill : Char
  text : List Char

namespace Ostream

/-- `std::setw(n)`. -/
def setw (out : Ostream) (n : ℕ) : Ostream := { out with width := n }

/-- `std::setfill(c)`. -/
def setfill (out : Ostream) (c : Char) : Ostream := { out with fill := c }

/-- `std::hex`. -/
def hex (out : Ostream) : Ostream := { out with base := .hex }

/-- Formatted output of characters: they are padded on the left to the width, which is
then reset. -/
def write (out : Ostream) (s : List Char) : Ostream :=
  { out with width := 0, text := out.text ++ s.leftpad out.width out.fill }

/-- Formatted output of an unsigned integer. -/
def writeNat (out : Ostream) (n : ℕ) : Ostream :=
  out.write (Nat.toDigits out.base.radix n)

/-- `std::endl`, an unformatted output. -/
def endl (out : Ostream) : Ostream := { out with text := out.text ++ ['\n'] }

section Fields

variable (out : Ostream) (n : ℕ) (c : Char) (s : List Char)

@[simp] theorem setw_base : (out.setw n).base = out.base := rfl
@[simp] theorem setw_width : (out.setw n).width = n := rfl
@[simp] theorem setw_fill : (out.setw n).fill = out.fill := rfl
@[simp] theorem setw_text : (out.setw n).text = out.text := rfl
@[simp] theorem setfill_base : (out.setfill c).base = out.base := rfl
@[simp] theorem setfill_width : (out.setfill c).width = out.width := rfl
@[simp] theorem setfill_fill : (out.setfill c).fill = c := rfl
@[simp] theorem setfill_text : (out.setfill c).text = out.text := rfl
@[simp] theorem hex_base : out.hex.base = .hex := rfl
@[simp] theorem hex_width : out.hex.width = out.width := rfl
@[simp] theorem hex_fill : out.hex.fill = out.fill := rfl
@[simp] theorem hex_text : out.hex.text = out.text := rfl
@[simp] theorem write_base : (out.write s).base = out.base := rfl
@[simp] theorem write_width : (out.write s).width = 0 := rfl
@[simp] theorem writeNat_base : (out.writeNat n).base = out.base := rfl
@[simp] theorem writeNat_width : (out.writeNat n).width = 0 := rfl
@[simp] theorem endl_base : out.endl.base = out.base := rfl
@[simp] theorem endl_width : out.endl.width = out.width := rfl
@[simp] theorem endl_text : out.endl.text = out.text ++ ['\n'] := rfl

/-- A string is padded on the left to the width. -/
theorem write_text : (out.write s).text = out.text ++ s.leftpad out.width out.fill := rfl

/-- A number is written in the base of the stream, and padded as a string is. -/
theorem writeNat_text : (out.writeNat n).text =
    out.text ++ (Nat.toDigits out.base.radix n).leftpad out.width out.fill := rfl

/-- Without a width the characters are written as they are. -/
@[simp] theorem write_text_of_width (h : out.width = 0) :
    (out.write s).text = out.text ++ s := by
  rw [write_text, h, List.leftpad, Nat.zero_sub, List.replicate_zero, List.nil_append]

@[simp] theorem write_write_text (t : List Char) :
    ((out.write s).write t).text = (out.write s).text ++ t :=
  write_text_of_width _ t rfl

@[simp] theorem writeNat_write_text :
    ((out.writeNat n).write s).text = (out.writeNat n).text ++ s :=
  write_text_of_width _ s rfl

end Fields

end Ostream

/-! ### Hex and Ascii -/

/-- `std::isprint` on bytes. -/
def isprint (b : UInt8) : Bool := 0x20 ≤ b.toNat && b.toNat ≤ 0x7e

namespace Ostream

/-- The loop of `operator<<(out, Hex(data, size))` from index `i` on. -/
def hexLoop (out : Ostream) (i : ℕ) : List UInt8 → Ostream
  | [] => out
  | b :: bs =>
      let out := if i ≠ 0 then out.write [' '] else out
      hexLoop (out |>.setw 2 |>.setfill '0' |>.hex |>.writeNat b.toNat) (i + 1) bs

/-- `out << Hex(data, size)`. -/
def putHex (out : Ostream) (data : List UInt8) : Ostream :=
  out.hexLoop 0 data

/-- `out << Ascii(data, size)`. -/
def putAscii (out : Ostream) (data : List UInt8) : Ostream :=
  data.foldl (fun out b =>
    if isprint b then out.write [Char.ofNat b.toNat] else out.write ['.']) out

end Ostream

/-! ### HexDump -/

/-- The bytes at `&data[i]`, `size` of them. -/
def slice (data : List UInt8) (i size : ℕ) : List UInt8 :=
  (data.drop i).take size

/-- The row of the empty array. -/
def emptyRow (out : Ostream) : Ostream :=
  out |>.setw 8 |>.setfill '0' |>.writeNat 0 |>.write [' ']
    |>.write (List.replicate (3 * 8) ' ') |>.write [' ']
    |>.write (List.replicate (3 * 8) ' ') |>.write [' ', ' ', '|', '|']

/-- A full row. -/
def fullRow (data : List UInt8) (i : ℕ) (out : Ostream) : Ostream :=
  out |>.setw 8 |>.setfill '0' |>.writeNat i |>.write [' ', ' ']
    |>.putHex (slice data i 8) |>.write [' ', ' ']
    |>.putHex (slice data (i + 8) 8) |>.write [' ', ' ', '|']
    |>.putAscii (slice data i 16) |>.write ['|']

/-- The partial first half row. -/
def firstHalfRow (data : List UInt8) (i numCharsLeft : ℕ) (out : Ostream) : Ostream :=
  out |>.setw 8 |>.setfill '0' |>.writeNat i |>.write [' ', ' ']
    |>.putHex (slice data i numCharsLeft)
    |>.write (List.replicate ((8 - numCharsLeft) * 3) ' ') |>.write [' ']
    |>.write (List.replicate (8 * 3) ' ') |>.write [' ', ' ', '|']
    |>.putAscii (slice data i numCharsLeft) |>.write ['|']

/-- The partial second half row. -/
def secondHalfRow (data : List UInt8) (i numCharsLeft : ℕ) (out : Ostream) : Ostream :=
  out |>.setw 8 |>.setfill '0' |>.writeNat i |>.write [' ', ' ']
    |>.putHex (slice data i 8) |>.write [' ', ' ']
    |>.putHex (slice data (i + 8) (numCharsLeft - 8))
    |>.write (List.replicate ((16 - numCharsLeft) * 3) ' ') |>.write [' ', ' ', '|']
    |>.putAscii (slice data i numCharsLeft) |>.write ['|']

/-- The loop over the full rows, with the index after it. -/
def fullRows (data : List UInt8) (i : ℕ) (out : Ostream) : ℕ × Ostream :=
  if i + 16 < data.length then
    fullRows data (i + 16) (fullRow data i (if i ≠ 0 then out.endl else out))
  else (i, out)
termination_by data.length - i

/-- `out << HexDump(data, size)`, with `index_width = 8`, `row_width = 16` and
`half_row_width = 8`; `none` when `assert(false)` fails. -/
def hexDump (data : List UInt8) (out : Ostream) : Option Ostream :=
  if data.length = 0 then some (emptyRow out)
  else
    let (i, out) := fullRows data 0 out
    let numCharsLeft := data.length - i
    let out := if 0 < numCharsLeft ∧ i ≠ 0 then out.endl else out
    if numCharsLeft ≤ 0 then some out
    else if numCharsLeft ≤ 8 then some (firstHalfRow data i numCharsLeft out)
    else if numCharsLeft ≤ 16 then some (secondHalfRow data i numCharsLeft out)
    else none

/-! ### Reading a dump -/

/-- The value of a lower-case hexadecimal digit. -/
def hexValue (c : Char) : Option ℕ :=
  if '0' ≤ c ∧ c ≤ '9' then some (c.toNat - '0'.toNat)
  else if 'a' ≤ c ∧ c ≤ 'f' then some (c.toNat - 'a'.toNat + 10)
  else none

/-- Read groups of two hexadecimal digits, each followed by a space, between any number
of further spaces. -/
def readGroups : List Char → Option (List UInt8)
  | [] => some []
  | ' ' :: cs => readGroups cs
  | c :: d :: ' ' :: cs => do
      let hi ← hexValue c
      let lo ← hexValue d
      let bs ← readGroups cs
      return UInt8.ofNat (16 * hi + lo) :: bs
  | _ => none

/-- The bytes of a line: the groups between the offset of eight digits and the text
column. -/
def readLine (line : List Char) : Option (List UInt8) :=
  readGroups ((line.takeWhile (· ≠ '|')).drop 8)

/-- The bytes of all lines in order. -/
def readLines : List (List Char) → Option (List UInt8)
  | [] => some []
  | line :: lines => do
      let bs ← readLine line
      let bs' ← readLines lines
      return bs ++ bs'

/-! ### What Hex and Ascii print -/

/-- A byte in two digits. -/
def hexByte (b : UInt8) : List Char :=
  (Nat.toDigits 16 b.toNat).leftpad 2 '0'

/-- Bytes in two digits each, separated by spaces. -/
def hexText : List UInt8 → List Char
  | [] => []
  | b :: bs => hexByte b ++ bs.flatMap fun b => ' ' :: hexByte b

/-- The character of a byte in the text column. -/
def asciiChar (b : UInt8) : Char :=
  if isprint b then Char.ofNat b.toNat else '.'

namespace Ostream

/-- After the first byte each one is written behind a blank. -/
theorem hexLoop_succ_text (out : Ostream) (i : ℕ) (bs : List UInt8) (h : out.width = 0) :
    (out.hexLoop (i + 1) bs).text = out.text ++ bs.flatMap fun b => ' ' :: hexByte b := by
  induction bs generalizing out i with
  | nil => simp [hexLoop]
  | cons b bs ih =>
      rw [hexLoop, ih _ _ rfl, writeNat_text]
      simp [h, hexByte, Base.radix]

/-- `putHex` writes the digits of the bytes with blanks between them. -/
theorem putHex_text (out : Ostream) (bs : List UInt8) :
    (out.putHex bs).text = out.text ++ hexText bs := by
  cases bs with
  | nil => simp [putHex, hexLoop, hexText]
  | cons b bs =>
      rw [putHex, hexLoop, hexLoop_succ_text _ _ _ rfl, writeNat_text]
      simp [hexText, hexByte, Base.radix]

/-- `Hex` leaves the stream in hexadecimal mode and without a width. -/
theorem hexLoop_state (out : Ostream) (i : ℕ) (bs : List UInt8)
    (h : out.base = .hex ∧ out.width = 0) :
    (out.hexLoop i bs).base = .hex ∧ (out.hexLoop i bs).width = 0 := by
  induction bs generalizing out i with
  | nil => exact h
  | cons b bs ih => exact ih _ _ ⟨rfl, rfl⟩

/-- After a byte the stream is in base 16. -/
theorem putHex_base (out : Ostream) {bs : List UInt8} (h : bs ≠ []) :
    (out.putHex bs).base = .hex := by
  obtain ⟨b, bs, rfl⟩ := List.exists_cons_of_ne_nil h
  exact (hexLoop_state _ _ bs ⟨rfl, rfl⟩).1

/-- After a byte no width is pending. -/
theorem putHex_width (out : Ostream) {bs : List UInt8} (h : bs ≠ []) :
    (out.putHex bs).width = 0 := by
  obtain ⟨b, bs, rfl⟩ := List.exists_cons_of_ne_nil h
  exact (hexLoop_state _ _ bs ⟨rfl, rfl⟩).2

/-- `Ascii` prints one character per byte and leaves the base as it is. -/
theorem putAscii_spec (out : Ostream) (bs : List UInt8) (h : out.width = 0) :
    (out.putAscii bs).text = out.text ++ bs.map asciiChar ∧ (out.putAscii bs).width = 0 ∧
      (out.putAscii bs).base = out.base := by
  induction bs generalizing out with
  | nil => simp [putAscii, h]
  | cons b bs ih =>
      have hstep : (if isprint b then out.write [Char.ofNat b.toNat] else out.write ['.']) =
          out.write [asciiChar b] := by
        rw [asciiChar]
        split_ifs <;> rfl
      rw [putAscii, List.foldl_cons, hstep]
      obtain ⟨htext, hwidth, hbase⟩ := ih (out.write [asciiChar b]) rfl
      refine ⟨htext.trans ?_, hwidth, hbase⟩
      simp [h]

end Ostream

/-! ### Digits -/

/-- A character that can stand before the text column. -/
def IsPlain (c : Char) : Prop := c ≠ '|' ∧ c ≠ '\n'

/-- A digit is read back as its value. -/
theorem hexValue_digitChar {d : ℕ} (h : d < 16) : hexValue d.digitChar = some d := by
  interval_cases d <;> rfl

/-- A digit is not a blank. -/
theorem digitChar_ne_space {d : ℕ} (h : d < 16) : d.digitChar ≠ ' ' := by
  interval_cases d <;> decide

/-- A digit is neither the bar nor the end of a line. -/
theorem isPlain_digitChar {d : ℕ} (h : d < 16) : IsPlain d.digitChar := by
  interval_cases d <;> exact ⟨by decide, by decide⟩

/-- Every byte has two digits. -/
theorem hexByte_eq (b : UInt8) :
    hexByte b = [(b.toNat / 16).digitChar, (b.toNat % 16).digitChar] := by
  have hb : b.toNat < 256 := b.toNat_lt
  rw [hexByte, Nat.toDigits_eq_if (by decide)]
  split_ifs with h
  · rw [Nat.div_eq_of_lt h, Nat.mod_eq_of_lt h]
    rfl
  · rw [Nat.toDigits_of_lt_base (by omega)]
    rfl

/-- The digits of a number are plain. -/
theorem isPlain_of_mem_toDigits {n : ℕ} : ∀ c ∈ Nat.toDigits 16 n, IsPlain c := by
  induction n using Nat.strong_induction_on with
  | _ n ih =>
      intro c hc
      rw [Nat.toDigits_eq_if (by decide)] at hc
      split_ifs at hc with h
      · rw [List.mem_singleton] at hc
        exact hc ▸ isPlain_digitChar h
      · rcases List.mem_append.mp hc with hc | hc
        · exact ih (n / 16) (by omega) c hc
        · rw [List.mem_singleton] at hc
          exact hc ▸ isPlain_digitChar (by omega)

/-- The two digits of a byte are plain. -/
theorem isPlain_of_mem_hexByte {b : UInt8} : ∀ c ∈ hexByte b, IsPlain c := by
  have hb : b.toNat < 256 := b.toNat_lt
  rw [hexByte_eq]
  rintro c hc
  rcases List.mem_pair.mp hc with rfl | rfl
  · exact isPlain_digitChar (by omega)
  · exact isPlain_digitChar (by omega)

/-- The digits of several bytes are plain, with the blanks between them. -/
theorem isPlain_of_mem_hexText {bs : List UInt8} : ∀ c ∈ hexText bs, IsPlain c := by
  cases bs with
  | nil => simp [hexText]
  | cons b bs =>
      intro c hc
      rcases List.mem_append.mp hc with hc | hc
      · exact isPlain_of_mem_hexByte c hc
      · obtain ⟨b', -, hc⟩ := List.mem_flatMap.mp hc
        rcases List.mem_cons.mp hc with rfl | hc
        · exact ⟨by decide, by decide⟩
        · exact isPlain_of_mem_hexByte c hc

/-- Blanks are plain. -/
theorem isPlain_of_mem_spaces {n : ℕ} : ∀ c ∈ List.replicate n ' ', IsPlain c := by
  intro c hc
  rw [List.eq_of_mem_replicate hc]
  exact ⟨by decide, by decide⟩

/-- No byte is shown as the end of a line. -/
theorem asciiChar_ne_newline (b : UInt8) : asciiChar b ≠ '\n' := by
  have hprint : ∀ n ≤ 0x7e, 0x20 ≤ n → Char.ofNat n ≠ '\n' := by decide
  rw [asciiChar]
  split_ifs with h
  · rw [isprint, Bool.and_eq_true, decide_eq_true_iff, decide_eq_true_iff] at h
    exact hprint b.toNat h.2 h.1
  · decide

/-- A byte takes three characters, but for the last one, which takes two. -/
theorem hexText_length {bs : List UInt8} (h : bs ≠ []) :
    (hexText bs).length + 1 = 3 * bs.length := by
  obtain ⟨b, bs, rfl⟩ := List.exists_cons_of_ne_nil h
  have hlen : ∀ b : UInt8, (hexByte b).length = 2 := fun b => by rw [hexByte_eq]; rfl
  have hrest : (bs.flatMap fun b => ' ' :: hexByte b).length = 3 * bs.length := by
    induction bs with
    | nil => rfl
    | cons b bs ih => simp [ih, hlen]; omega
  simp [hexText, hlen, hrest]
  omega

/-! ### Reading groups -/

/-- The reader takes a group of two digits for its byte. -/
theorem readGroups_hexByte (b : UInt8) (s : List Char) :
    readGroups (hexByte b ++ ' ' :: s) = (readGroups s).map (b :: ·) := by
  have hb : b.toNat < 256 := b.toNat_lt
  have hne : (b.toNat / 16).digitChar ≠ ' ' := digitChar_ne_space (by omega)
  rw [hexByte_eq, List.cons_append, List.cons_append, List.nil_append,
    readGroups.eq_3 _ _ _ hne, hexValue_digitChar (by omega), hexValue_digitChar (by omega)]
  have hbyte : UInt8.ofNat (16 * (b.toNat / 16) + b.toNat % 16) = b := by
    rw [Nat.div_add_mod, UInt8.ofNat_toNat]
  cases readGroups s with
  | none => rfl
  | some bs => exact congrArg (fun b => some (b :: bs)) hbyte

/-- The reader skips a blank between groups. -/
theorem readGroups_space (s : List Char) : readGroups (' ' :: s) = readGroups s := by
  rw [readGroups]

/-- The reader skips blanks in any number. -/
theorem readGroups_spaces (n : ℕ) (s : List Char) :
    readGroups (List.replicate n ' ' ++ s) = readGroups s := by
  induction n with
  | zero => rfl
  | succ n ih => rw [List.replicate_succ, List.cons_append, readGroups_space, ih]

/-- Blanks before a blank begin with a blank. -/
theorem head?_spaces (n : ℕ) (s : List Char) :
    (List.replicate n ' ' ++ ' ' :: s).head? = some ' ' := by
  cases n <;> rfl

/-- What `Hex` printed is read back, if a space follows it. -/
theorem readGroups_hexText (bs : List UInt8) {s : List Char} (h : s.head? = some ' ') :
    readGroups (hexText bs ++ s) = (readGroups s).map (bs ++ ·) := by
  obtain ⟨s, rfl⟩ := List.head?_eq_some_iff.mp h
  cases bs with
  | nil => simp [hexText]
  | cons b bs =>
      induction bs generalizing b with
      | nil =>
          simp only [hexText, List.flatMap_nil, List.append_nil]
          rw [readGroups_hexByte, readGroups_space]
          rfl
      | cons b' bs ih =>
          have hsplit : hexText (b :: b' :: bs) = hexByte b ++ ' ' :: hexText (b' :: bs) := by
            simp [hexText]
          rw [hsplit, List.append_assoc, List.cons_append, readGroups_hexByte, ih,
            Option.map_map]
          rfl

/-! ### Lines -/

/-- The part of a line between the offset and the text column: 52 characters, from which
the bytes of the line are read. -/
structure HexArea (bytes : List UInt8) (area : List Char) : Prop where
  length_eq : area.length = 52
  reads : readGroups area = some bytes
  plain : ∀ c ∈ area, IsPlain c

/-- The layout of the empty array. -/
theorem hexArea_empty :
    HexArea [] ([' '] ++ (List.replicate (3 * 8) ' ' ++ ([' '] ++
      (List.replicate (3 * 8) ' ' ++ [' ', ' '])))) where
  length_eq := by simp
  reads := by
    simp only [List.cons_append, List.nil_append, readGroups_space, readGroups_spaces]
    rfl
  plain := by
    simp only [List.forall_mem_append]
    exact ⟨isPlain_of_mem_spaces (n := 1), isPlain_of_mem_spaces,
      isPlain_of_mem_spaces (n := 1), isPlain_of_mem_spaces, isPlain_of_mem_spaces (n := 2)⟩

/-- The layout of at most eight bytes. -/
theorem hexArea_first {bs : List UInt8} (h : bs ≠ []) (hlen : bs.length ≤ 8) :
    HexArea bs ([' ', ' '] ++ (hexText bs ++ (List.replicate ((8 - bs.length) * 3) ' ' ++
      ([' '] ++ (List.replicate (8 * 3) ' ' ++ [' ', ' ']))))) where
  length_eq := by
    have := hexText_length h
    simp only [List.length_append, List.length_replicate, List.length_cons, List.length_nil]
    omega
  reads := by
    simp only [List.cons_append, List.nil_append, readGroups_space]
    rw [readGroups_hexText bs (head?_spaces _ _)]
    simp only [readGroups_space, readGroups_spaces]
    simp [readGroups]
  plain := by
    simp only [List.forall_mem_append]
    exact ⟨isPlain_of_mem_spaces (n := 2), isPlain_of_mem_hexText, isPlain_of_mem_spaces,
      isPlain_of_mem_spaces (n := 1), isPlain_of_mem_spaces, isPlain_of_mem_spaces (n := 2)⟩

/-- The layout of nine to sixteen bytes. -/
theorem hexArea_second {bs bs' : List UInt8} (h : bs.length = 8) (h' : bs' ≠ [])
    (hlen : bs'.length ≤ 8) :
    HexArea (bs ++ bs') ([' ', ' '] ++ (hexText bs ++ ([' ', ' '] ++ (hexText bs' ++
      (List.replicate ((8 - bs'.length) * 3) ' ' ++ [' ', ' ']))))) where
  length_eq := by
    have := hexText_length h'
    have := hexText_length (List.ne_nil_of_length_pos (by omega : 0 < bs.length))
    simp only [List.length_append, List.length_replicate, List.length_cons, List.length_nil]
    omega
  reads := by
    simp only [List.cons_append, List.nil_append, readGroups_space]
    rw [readGroups_hexText bs rfl, readGroups_space, readGroups_space,
      readGroups_hexText bs' (head?_spaces _ _)]
    simp only [readGroups_spaces]
    simp [readGroups]
  plain := by
    simp only [List.forall_mem_append]
    exact ⟨isPlain_of_mem_spaces (n := 2), isPlain_of_mem_hexText,
      isPlain_of_mem_spaces (n := 2), isPlain_of_mem_hexText, isPlain_of_mem_spaces,
      isPlain_of_mem_spaces (n := 2)⟩

/-- A line of a dump, whatever its layout: the offset `i`, an area for the bytes, and the
text column. -/
def IsLine (i : ℕ) (bytes : List UInt8) (line : List Char) : Prop :=
  ∃ area, HexArea bytes area ∧
    line = (Nat.toDigits 16 i).leftpad 8 '0' ++
      (area ++ '|' :: (bytes.map asciiChar ++ ['|']))

/-- What a reader relies on in a line with offset `i` and the given bytes. -/
structure DumpLine (i : ℕ) (bytes : List UInt8) (line : List Char) : Prop where
  /-- The line starts with the offset in eight lower-case hexadecimal digits. -/
  offset : line.take 8 = (Nat.toDigits 16 i).leftpad 8 '0'
  /-- The text column opens at column 60. -/
  opening : line.idxOf '|' = 60
  /-- The text column has one character per byte. -/
  text : line.drop 60 = '|' :: (bytes.map asciiChar ++ ['|'])
  /-- The two-digit groups are the bytes. -/
  reads : readLine line = some bytes

/-- The characters of an offset are plain. -/
theorem isPlain_of_mem_offset {i : ℕ} :
    ∀ c ∈ (Nat.toDigits 16 i).leftpad 8 '0', IsPlain c := by
  intro c hc
  rcases List.mem_append.mp hc with hc | hc
  · rw [List.eq_of_mem_replicate hc]
    exact ⟨by decide, by decide⟩
  · exact isPlain_of_mem_toDigits c hc

/-- A line has no end of a line in it. -/
theorem IsLine.newline_notMem {i : ℕ} {bytes : List UInt8} {line : List Char}
    (h : IsLine i bytes line) : '\n' ∉ line := by
  obtain ⟨area, harea, rfl⟩ := h
  intro hc
  simp only [List.mem_append, List.mem_cons, List.mem_map, List.not_mem_nil, or_false] at hc
  rcases hc with hc | hc | hc | ⟨b, -, hc⟩ | hc
  · exact (isPlain_of_mem_offset _ hc).2 rfl
  · exact (harea.plain _ hc).2 rfl
  · exact absurd hc (by decide)
  · exact asciiChar_ne_newline b hc
  · exact absurd hc (by decide)

/-- A line as the dump prints it has all that a reader relies on. -/
theorem IsLine.dumpLine {i : ℕ} {bytes : List UInt8} {line : List Char}
    (h : IsLine i bytes line) (hi : i < 2 ^ 32) : DumpLine i bytes line := by
  obtain ⟨area, harea, rfl⟩ := h
  have hdigits : (Nat.toDigits 16 i).length ≤ 8 :=
    (Nat.length_toDigits_le_iff (by decide) (by decide)).mpr (by omega)
  have hlen : ((Nat.toDigits 16 i).leftpad 8 '0').length = 8 := by
    rw [List.leftpad, List.length_append, List.length_replicate]
    omega
  have hbar : ∀ c ∈ (Nat.toDigits 16 i).leftpad 8 '0' ++ area, c ≠ '|' := by
    intro c hc
    rcases List.mem_append.mp hc with hc | hc
    · exact (isPlain_of_mem_offset c hc).1
    · exact (harea.plain c hc).1
  have hlen60 : ((Nat.toDigits 16 i).leftpad 8 '0' ++ area).length = 60 := by
    rw [List.length_append, hlen, harea.length_eq]
  rw [← List.append_assoc]
  refine ⟨?_, ?_, ?_, ?_⟩
  · rw [List.append_assoc, List.take_left' hlen]
  · rw [List.idxOf_append_of_notMem fun hc => hbar _ hc rfl, List.idxOf_cons_self, hlen60]
  · rw [List.drop_left' hlen60]
  · rw [readLine, List.takeWhile_append_of_pos fun c hc => decide_eq_true (hbar c hc),
      List.takeWhile_cons_of_neg (by simp), List.append_nil, List.drop_left' hlen]
    exact harea.reads

/-! ### Rows -/

namespace Ostream

/-- The offset of a row is hexadecimal if the stream is in that mode or the offset is
zero, which looks the same in every base. -/
theorem offset_text (out : Ostream) {i : ℕ} (h : i ≠ 0 → out.base = .hex) :
    (((out.setw 8).setfill '0').writeNat i).text =
      out.text ++ (Nat.toDigits 16 i).leftpad 8 '0' := by
  rw [writeNat_text]
  by_cases hi : i = 0
  · subst hi
    simp [Nat.toDigits_zero]
  · simp [h hi, Base.radix]

section Fields

variable (out : Ostream) (s : List Char) (bs : List UInt8)

@[simp] theorem putAscii_write_text :
    ((out.write s).putAscii bs).text = (out.write s).text ++ bs.map asciiChar :=
  (putAscii_spec _ bs rfl).1

@[simp] theorem putAscii_write_width : ((out.write s).putAscii bs).width = 0 :=
  (putAscii_spec _ bs rfl).2.1

@[simp] theorem putAscii_write_base : ((out.write s).putAscii bs).base = out.base :=
  (putAscii_spec _ bs rfl).2.2

end Fields

end Ostream

/-- The line break before a row leaves the base of its offset as it is. -/
theorem break_base {i : ℕ} {out : Ostream} (h : i ≠ 0 → out.base = .hex) :
    i ≠ 0 → (if i ≠ 0 then out.endl else out).base = .hex := by
  intro hi
  rw [if_pos hi]
  exact h hi

/-- `out'` is `out` after the line for the bytes of one row at offset `i`. -/
def PrintsLine (i : ℕ) (bytes : List UInt8) (out out' : Ostream) : Prop :=
  ∃ line, IsLine i bytes line ∧ out'.text = out.text ++ line

/-- Two slices, one after the other, are one slice. -/
theorem slice_append (data : List UInt8) (i m n : ℕ) :
    slice data i m ++ slice data (i + m) n = slice data i (m + n) := by
  rw [slice, slice, slice, List.take_add, List.drop_drop]

/-- A slice within the data has its length. -/
theorem length_slice {data : List UInt8} {i n : ℕ} (h : i + n ≤ data.length) :
    (slice data i n).length = n := by
  rw [slice, List.length_take, List.length_drop]
  omega

/-- A slice within the data is not empty if its length is not zero. -/
theorem slice_ne_nil {data : List UInt8} {i n : ℕ} (hn : 0 < n) (h : i + n ≤ data.length) :
    slice data i n ≠ [] :=
  List.ne_nil_of_length_pos (by rw [length_slice h]; exact hn)

/-- The row of no data is a line of no bytes. -/
theorem emptyRow_spec (out : Ostream) : PrintsLine 0 [] out (emptyRow out) := by
  refine ⟨_, ⟨_, hexArea_empty, rfl⟩, ?_⟩
  simp only [emptyRow, Ostream.write_write_text, Ostream.writeNat_write_text,
    Ostream.offset_text out (i := 0) (absurd rfl), List.append_assoc]
  rfl

/-- A row of 16 bytes is a line, and leaves the stream in base 16. -/
theorem fullRow_spec {data : List UInt8} {i : ℕ} {out : Ostream}
    (hbase : i ≠ 0 → out.base = .hex) (h : i + 16 ≤ data.length) :
    PrintsLine i (slice data i 16) out (fullRow data i out) ∧
      (fullRow data i out).base = .hex := by
  have h₁ : slice data i 8 ≠ [] := slice_ne_nil (by decide) (by omega)
  have h₂ : slice data (i + 8) 8 ≠ [] := slice_ne_nil (by decide) (by omega)
  have hlen₁ : (slice data i 8).length = 8 := length_slice (by omega)
  have hlen : (slice data (i + 8) 8).length = 8 := length_slice (by omega)
  have harea := hexArea_second hlen₁ h₂ hlen.le
  rw [slice_append, hlen] at harea
  refine ⟨⟨_, ⟨_, harea, rfl⟩, ?_⟩, ?_⟩
  · simp [fullRow, Ostream.putHex_text, Ostream.putHex_width _ h₁,
      Ostream.putHex_width _ h₂, Ostream.offset_text out hbase]
  · simp [fullRow, Ostream.putHex_base _ h₂]

/-- A last row of 8 bytes at most is a line. -/
theorem firstHalfRow_spec {data : List UInt8} {i n : ℕ} {out : Ostream}
    (hbase : i ≠ 0 → out.base = .hex) (hn : 0 < n) (hn' : n ≤ 8) (h : i + n ≤ data.length) :
    PrintsLine i (slice data i n) out (firstHalfRow data i n out) := by
  have h₁ : slice data i n ≠ [] := slice_ne_nil hn h
  have harea := hexArea_first h₁ ((length_slice h).trans_le hn')
  rw [length_slice h] at harea
  refine ⟨_, ⟨_, harea, rfl⟩, ?_⟩
  simp [firstHalfRow, Ostream.putHex_text, Ostream.putHex_width _ h₁,
    Ostream.offset_text out hbase]

/-- A last row of more than 8 bytes is a line. -/
theorem secondHalfRow_spec {data : List UInt8} {i n : ℕ} {out : Ostream}
    (hbase : i ≠ 0 → out.base = .hex) (hn : 8 < n) (hn' : n ≤ 16)
    (h : i + n ≤ data.length) :
    PrintsLine i (slice data i n) out (secondHalfRow data i n out) := by
  have h₁ : slice data i 8 ≠ [] := slice_ne_nil (by decide) (by omega)
  have h₂ : slice data (i + 8) (n - 8) ≠ [] := slice_ne_nil (by omega) (by omega)
  have hlen₁ : (slice data i 8).length = 8 := length_slice (by omega)
  have hlen : (slice data (i + 8) (n - 8)).length = n - 8 := length_slice (by omega)
  have harea := hexArea_second hlen₁ h₂ (by omega)
  rw [slice_append, hlen, show 8 + (n - 8) = n by omega,
    show 8 - (n - 8) = 16 - n by omega] at harea
  refine ⟨_, ⟨_, harea, rfl⟩, ?_⟩
  simp [secondHalfRow, Ostream.putHex_text, Ostream.putHex_width _ h₁,
    Ostream.putHex_width _ h₂, Ostream.offset_text out hbase]

/-! ### Whole dumps -/

/-- The stream holds `start` and then the rows of `data` in the given lines. -/
structure Rows (data : List UInt8) (start : List Char) (out : Ostream)
    (lines : List (List Char)) : Prop where
  text : out.text = start ++ ['\n'].intercalate lines
  isLine : ∀ r line, lines[r]? = some line →
    IsLine (16 * r) (slice data (16 * r) 16) line

/-- One more line is written behind the end of the line before, if there is one. -/
theorem intercalate_concat {lines : List (List Char)} (line : List Char) :
    ['\n'].intercalate (lines ++ [line]) =
      ['\n'].intercalate lines ++ ((if lines.length ≠ 0 then ['\n'] else []) ++ line) := by
  induction lines with
  | nil => simp
  | cons l lines ih =>
      cases lines with
      | nil => simp
      | cons l' lines =>
          rw [List.cons_append, List.cons_append, List.intercalate_cons_cons,
            ← List.cons_append, ih, List.intercalate_cons_cons]
          simp

/-- One more row. The line break before it is printed if there were rows already. -/
theorem Rows.concat {data : List UInt8} {start : List Char} {out out' : Ostream}
    {lines : List (List Char)} {i : ℕ} (h : Rows data start out lines)
    (hi : i = 16 * lines.length)
    (hline : PrintsLine i (slice data i 16) (if i ≠ 0 then out.endl else out) out') :
    ∃ line, Rows data start out' (lines ++ [line]) := by
  obtain ⟨line, hline, htext⟩ := hline
  refine ⟨line, ?_, ?_⟩
  · have hbreak : (if i ≠ 0 then out.endl else out).text =
        out.text ++ if lines.length ≠ 0 then ['\n'] else [] := by
      by_cases h0 : lines.length = 0
      · simp [hi, h0]
      · simp [hi, h0]
    rw [htext, hbreak, h.text, intercalate_concat]
    simp only [List.append_assoc]
  · intro r l hl
    rcases Nat.lt_trichotomy r lines.length with hr | rfl | hr
    · rw [List.getElem?_append_left hr] at hl
      exact h.isLine r l hl
    · rw [List.getElem?_concat_length] at hl
      cases hl
      exact hi ▸ hline
    · rw [List.getElem?_eq_none (by simpa using Nat.succ_le_of_lt hr)] at hl
      cases hl

/-- The loop over the full rows stops with one to sixteen bytes left. -/
theorem fullRows_spec {data : List UInt8} {start : List Char} (i : ℕ) (out : Ostream)
    {lines : List (List Char)} (hrows : Rows data start out lines)
    (hi : i = 16 * lines.length) (hbase : i ≠ 0 → out.base = .hex) (h : i < data.length) :
    ∃ lines', Rows data start (fullRows data i out).2 lines' ∧
      (fullRows data i out).1 = 16 * lines'.length ∧
      ((fullRows data i out).1 ≠ 0 → (fullRows data i out).2.base = .hex) ∧
      (fullRows data i out).1 < data.length ∧ data.length ≤ (fullRows data i out).1 + 16 := by
  induction i, out using fullRows.induct data generalizing lines with
  | case1 i out hlt ih =>
      rw [fullRows, if_pos hlt]
      obtain ⟨hline, hhex⟩ := fullRow_spec (break_base hbase) hlt.le
      obtain ⟨line, hrows'⟩ := hrows.concat hi hline
      exact ih hrows' (by simp [hi]; omega) (fun _ => hhex) hlt
  | case2 i out hge =>
      rw [fullRows, if_neg hge]
      exact ⟨lines, hrows, hi, hbase, h, by omega⟩

/-- The lines of a dump: one for the empty array, otherwise one for every sixteen bytes
begun. -/
theorem hexDump_rows (data : List UInt8) (out : Ostream) :
    ∃ out' lines, hexDump data out = some out' ∧ Rows data out.text out' lines ∧
      lines.length = max 1 ((data.length + 15) / 16) := by
  have hstart : Rows data out.text out [] := ⟨by simp, by simp⟩
  by_cases h0 : data.length = 0
  · rw [hexDump, if_pos h0]
    have hline := emptyRow_spec out
    rw [show [] = slice data 0 16 by rw [List.length_eq_zero_iff.mp h0]; rfl] at hline
    obtain ⟨line, hrows⟩ := hstart.concat rfl hline
    exact ⟨_, _, rfl, hrows, by simp [h0]⟩
  · obtain ⟨lines, hrows, hi, hbase, hlt, hle⟩ :=
      fullRows_spec 0 out hstart rfl (absurd rfl) (by omega)
    rw [hexDump, if_neg h0]
    generalize fullRows data 0 out = res at hrows hi hbase hlt hle ⊢
    obtain ⟨i, out₁⟩ := res
    dsimp only at hrows hi hbase hlt hle ⊢
    -- The rest of the array is the last row.
    obtain ⟨n, hn⟩ : ∃ n, data.length - i = n := ⟨_, rfl⟩
    have hslice : slice data i n = slice data i 16 := by
      rw [slice, slice, List.take_of_length_le (by simp; omega),
        List.take_of_length_le (by simp; omega)]
    have hbreak : (0 < n ∧ i ≠ 0) ↔ i ≠ 0 := by omega
    have hcount : lines.length + 1 = max 1 ((data.length + 15) / 16) := by omega
    simp only [hn, hbreak]
    rw [if_neg (by omega)]
    by_cases h8 : n ≤ 8
    · rw [if_pos h8]
      have hline := firstHalfRow_spec (break_base hbase) (by omega) h8
        (by omega : i + n ≤ data.length)
      rw [hslice] at hline
      obtain ⟨line, hrows'⟩ := hrows.concat hi hline
      exact ⟨_, _, rfl, hrows', by simpa using hcount⟩
    · have h16 : n ≤ 16 := by omega
      rw [if_neg h8, if_pos h16]
      have hline := secondHalfRow_spec (break_base hbase) (by omega) h16
        (by omega : i + n ≤ data.length)
      rw [hslice] at hline
      obtain ⟨line, hrows'⟩ := hrows.concat hi hline
      exact ⟨_, _, rfl, hrows', by simpa using hcount⟩

/-- Lines that are read as the rows of an array are read as the array. -/
theorem readLines_eq {data : List UInt8} {lines : List (List Char)}
    (h : ∀ r line, lines[r]? = some line → readLine line = some (slice data (16 * r) 16))
    (hlen : data.length ≤ 16 * lines.length) : readLines lines = some data := by
  induction lines generalizing data with
  | nil =>
      rw [List.length_eq_zero_iff.mp (Nat.le_zero.mp hlen)]
      rfl
  | cons line lines ih =>
      have hrest : readLines lines = some (data.drop 16) := by
        refine ih (fun r l hl => ?_) (by simp at hlen ⊢; omega)
        rw [h (r + 1) l hl, slice, slice, List.drop_drop]
        congr 3
        omega
      rw [readLines, h 0 line rfl, hrest]
      exact congrArg some (List.take_append_drop 16 data)

/-- **A dump can be read back.** For every array of less than `2 ^ 32` bytes, on a stream
in any state, `assert(false)` is not reached; the printed text has `max 1 ⌈n / 16⌉`
lines, line `r` has the offset `16 * r`, opens its text column at the common column and
has one character per byte there; and the two-digit groups of all lines are the bytes. -/
theorem hexDump_reads_back (data : List UInt8) (h : data.length < 2 ^ 32) (out : Ostream) :
    ∃ out' printed, hexDump data out = some out' ∧ out'.text = out.text ++ printed ∧
      (printed.splitOn '\n').length = max 1 ((data.length + 15) / 16) ∧
      (∀ r line, (printed.splitOn '\n')[r]? = some line →
        DumpLine (16 * r) (slice data (16 * r) 16) line) ∧
      readLines (printed.splitOn '\n') = some data := by
  obtain ⟨out', lines, heq, hrows, hlen⟩ := hexDump_rows data out
  have hne : lines ≠ [] := List.ne_nil_of_length_pos (by omega)
  have hsplit : (['\n'].intercalate lines).splitOn '\n' = lines := by
    refine List.splitOn_intercalate '\n' (fun line hline => ?_) hne
    obtain ⟨r, hr⟩ := List.mem_iff_getElem?.mp hline
    exact (hrows.isLine r line hr).newline_notMem
  have hdump : ∀ r line, lines[r]? = some line →
      DumpLine (16 * r) (slice data (16 * r) 16) line := by
    intro r line hline
    have hr : r < lines.length := (List.getElem?_eq_some_iff.mp hline).1
    exact (hrows.isLine r line hline).dumpLine (by omega)
  refine ⟨out', _, heq, hrows.text, ?_, ?_, ?_⟩
  · rw [hsplit, hlen]
  · rw [hsplit]
    exact hdump
  · rw [hsplit]
    exact readLines_eq (fun r line hline => (hdump r line hline).reads) (by omega)

/-- Seventeen bytes on a stream in decimal mode: two lines, of which the second has the
offset `10` in hexadecimal. -/
theorem hexDump_reads_back_two_lines :
    let data : List UInt8 := List.replicate 17 0x41
    ∃ out' printed, hexDump data ⟨.dec, 0, ' ', []⟩ = some out' ∧ out'.text = [] ++ printed ∧
      (printed.splitOn '\n').length = 2 ∧
      (∀ r line, (printed.splitOn '\n')[r]? = some line →
        DumpLine (16 * r) (slice data (16 * r) 16) line) ∧
      readLines (printed.splitOn '\n') = some data :=
  hexDump_reads_back (List.replicate 17 0x41) (by decide) ⟨.dec, 0, ' ', []⟩

end LatticeFlow
