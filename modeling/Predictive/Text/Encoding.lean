/-
Texts as bytes. A character takes one to four bytes; positions in a text are
byte counts, so cutting a text by bytes succeeds only between characters. Byte
sequences are read back as texts, or refused at the first byte that continues no
well-formed text.
-/

import Predictive.Text.Span

namespace Predictive.Text

/-- The number of bytes of a text. -/
def byteLength : List Char → Nat
  | [] => 0
  | char :: rest => char.utf8Size + byteLength rest

@[simp]
theorem byteLength_nil : byteLength [] = 0 := rfl

@[simp]
theorem byteLength_cons (char : Char) (rest : List Char) :
    byteLength (char :: rest) = char.utf8Size + byteLength rest := rfl

theorem byteLength_append (left right : List Char) :
    byteLength (left ++ right) = byteLength left + byteLength right := by
  induction left with
  | nil => simp
  | cons char rest ih => simp [ih, Nat.add_assoc]

theorem length_le_byteLength (text : List Char) : text.length ≤ byteLength text := by
  induction text with
  | nil => exact Nat.le_refl 0
  | cons char rest ih =>
      have positive : 0 < char.utf8Size := Char.utf8Size_pos char
      rw [List.length_cons, byteLength_cons]
      omega

theorem byteLength_pos {text : List Char} (nonempty : text ≠ []) : 0 < byteLength text :=
  Nat.lt_of_lt_of_le (List.length_pos_iff.mpr nonempty) (length_le_byteLength text)

/-- Cuts a text after `bytes` bytes. There is no cut inside a character or
beyond the end. -/
def splitBytes? (bytes : Nat) (text : List Char) : Option (List Char × List Char) :=
  if bytes = 0 then some ([], text)
  else
    match text with
    | [] => none
    | char :: rest =>
        if char.utf8Size ≤ bytes then
          (splitBytes? (bytes - char.utf8Size) rest).map fun (left, right) =>
            (char :: left, right)
        else none

theorem splitBytes?_byteLength (left right : List Char) :
    splitBytes? (byteLength left) (left ++ right) = some (left, right) := by
  induction left with
  | nil => cases right <;> simp [splitBytes?]
  | cons char rest ih =>
      have positive : 0 < char.utf8Size := Char.utf8Size_pos char
      have nonzero : char.utf8Size + byteLength rest ≠ 0 := by omega
      simp only [byteLength_cons, List.cons_append, splitBytes?, nonzero, if_false,
        Nat.le_add_right, if_true, Nat.add_sub_cancel_left, ih, Option.map_some]

/-- Two cuts of a text after the same number of bytes are one. -/
theorem append_inj_of_byteLength {left right front back : List Char}
    (same : left ++ right = front ++ back) (size : byteLength left = byteLength front) :
    left = front ∧ right = back := by
  have cut := splitBytes?_byteLength left right
  rw [same, size, splitBytes?_byteLength] at cut
  cases cut
  exact ⟨rfl, rfl⟩

theorem append_of_splitBytes? {bytes : Nat} {text left right : List Char}
    (cut : splitBytes? bytes text = some (left, right)) :
    text = left ++ right ∧ byteLength left = bytes := by
  induction text generalizing bytes left with
  | nil =>
      by_cases zero : bytes = 0
      · simp_all [splitBytes?]
      · simp [splitBytes?, zero] at cut
  | cons char rest ih =>
      by_cases zero : bytes = 0
      · simp_all [splitBytes?]
      · by_cases fits : char.utf8Size ≤ bytes
        · simp only [splitBytes?, zero, if_false, fits, if_true, Option.map_eq_some_iff] at cut
          obtain ⟨⟨inner, outer⟩, innerCut, same⟩ := cut
          obtain ⟨rfl, rfl⟩ := Prod.mk.inj same
          obtain ⟨whole, size⟩ := ih innerCut
          refine ⟨by simp [whole], ?_⟩
          simp only [byteLength_cons, size]
          omega
        · simp [splitBytes?, zero, fits] at cut

/-- Bytes with the high bits `10` continue a character. -/
def isContinuation (byte : UInt8) : Bool := 0x80 ≤ byte && byte ≤ 0xbf

/-- The number of bytes that a lead byte announces, if it can lead at all. -/
def announcedLength (lead : UInt8) : Option Nat :=
  if lead ≤ 0x7f then some 1
  else if 0xc2 ≤ lead && lead ≤ 0xdf then some 2
  else if 0xe0 ≤ lead && lead ≤ 0xef then some 3
  else if 0xf0 ≤ lead && lead ≤ 0xf4 then some 4
  else none

/-- Whether the second byte may follow the lead. Overlong forms, surrogates and
code points beyond the last are excluded here. -/
def canFollow (lead second : UInt8) : Bool :=
  if lead = 0xe0 then 0xa0 ≤ second && second ≤ 0xbf
  else if lead = 0xed then 0x80 ≤ second && second ≤ 0x9f
  else if lead = 0xf0 then 0x90 ≤ second && second ≤ 0xbf
  else if lead = 0xf4 then 0x80 ≤ second && second ≤ 0x8f
  else isContinuation second

/-- The number of bytes at the head of a sequence that cannot begin a character,
or `none` if the sequence ends inside a character that could still be completed. -/
def faultLength : List UInt8 → Option Nat
  | [] => none
  | lead :: rest =>
      match announcedLength lead, rest with
      | none, _ => some 1
      | some _, [] => none
      | some length, second :: rest =>
          if !canFollow lead second then some 1
          else if length ≤ 2 then none
          else
            match rest with
            | [] => none
            | third :: rest =>
                if !isContinuation third then some 2
                else if length ≤ 3 then none
                else
                  match rest with
                  | [] => none
                  | fourth :: _ => if !isContinuation fourth then some 3 else none

/-- The characters that can be read from byte `start` on, up to the end or to the
first byte that begins no character. -/
def readFrom (bytes : ByteArray) (start : Nat) : List Char :=
  if start < bytes.size then
    match bytes.utf8DecodeChar? start with
    | some char => char :: readFrom bytes (start + char.utf8Size)
    | none => []
  else []
termination_by bytes.size - start
decreasing_by
  have positive : 0 < char.utf8Size := Char.utf8Size_pos char
  omega

/-- How a byte sequence fails to be a text: it begins with the text `readable`,
and then `length` bytes cannot go on. -/
structure EncodingFault where
  readable : List Char
  length : Nat
  deriving DecidableEq, Repr

/-- The text that a byte sequence encodes, or its first fault. A sequence that
ends inside a character is at fault up to its end. -/
def decode (bytes : ByteArray) : Except EncodingFault (List Char) :=
  let text := readFrom bytes 0
  let stop := byteLength text
  if stop = bytes.size then .ok text
  else
    .error
      { readable := text
        length := (faultLength (bytes.toList.drop stop)).getD (bytes.size - stop) }

end Predictive.Text
