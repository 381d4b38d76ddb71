/-
Bytes that are no text are refused at the end of the longest front that is one. The
reading stops there because no character begins, so no text of another cut reaches
further, and the bytes at fault are those that could still begin a character.
-/

import Predictive.Proofs.Lexical.Coverage

namespace Predictive

namespace Text

/-! ### Characters as bytes -/

theorem announcedLength_eq_some_iff {lead : UInt8} {length : Nat} :
    announcedLength lead = some length ↔
      length = 1 ∧ lead.toNat ≤ 0x7f ∨
        length = 2 ∧ 0xc2 ≤ lead.toNat ∧ lead.toNat ≤ 0xdf ∨
        length = 3 ∧ 0xe0 ≤ lead.toNat ∧ lead.toNat ≤ 0xef ∨
        length = 4 ∧ 0xf0 ≤ lead.toNat ∧ lead.toNat ≤ 0xf4 := by
  simp only [announcedLength, UInt8.le_iff_toNat_le, UInt8.reduceToNat, Bool.and_eq_true,
    decide_eq_true_eq]
  split_ifs <;> simp only [Option.some.injEq, false_iff] <;> omega

theorem isContinuation_iff (byte : UInt8) :
    isContinuation byte = true ↔ 0x80 ≤ byte.toNat ∧ byte.toNat ≤ 0xbf := by
  simp [isContinuation, UInt8.le_iff_toNat_le]

theorem canFollow_iff (lead second : UInt8) :
    canFollow lead second = true ↔
      (0x80 ≤ second.toNat ∧ second.toNat ≤ 0xbf) ∧
        (lead.toNat = 0xe0 → 0xa0 ≤ second.toNat) ∧ (lead.toNat = 0xed → second.toNat ≤ 0x9f) ∧
        (lead.toNat = 0xf0 → 0x90 ≤ second.toNat) ∧ (lead.toNat = 0xf4 → second.toNat ≤ 0x8f) := by
  simp only [canFollow, isContinuation, UInt8.le_iff_toNat_le, ← UInt8.toNat_inj,
    UInt8.reduceToNat]
  split_ifs <;> simp only [Bool.and_eq_true, decide_eq_true_eq] <;> omega

/-- The bytes of one character: a lead, as many bytes behind it as it announces, and the
first of them one that may follow it. -/
inductive WellFormed : List UInt8 → Prop where
  | one {lead : UInt8} (announced : announcedLength lead = some 1) : WellFormed [lead]
  | two {lead second : UInt8} (announced : announcedLength lead = some 2)
      (follows : canFollow lead second = true) : WellFormed [lead, second]
  | three {lead second third : UInt8} (announced : announcedLength lead = some 3)
      (follows : canFollow lead second = true) (continues : isContinuation third = true) :
      WellFormed [lead, second, third]
  | four {lead second third fourth : UInt8} (announced : announcedLength lead = some 4)
      (follows : canFollow lead second = true) (continues : isContinuation third = true)
      (closes : isContinuation fourth = true) : WellFormed [lead, second, third, fourth]

theorem exists_char (code : Nat) (valid : code.isValidChar) : ∃ char : Char, char.toNat = code :=
  ⟨Char.ofNatAux code valid, rfl⟩

theorem ofNat_eq (byte : UInt8) {code : Nat} (same : code = byte.toNat) :
    UInt8.ofNat code = byte := by
  rw [same, UInt8.ofNat_toNat]

theorem toNat_ofNat {code : Nat} (small : code < 256) : (UInt8.ofNat code).toNat = code := by
  rw [UInt8.toNat_ofNat', Nat.mod_eq_of_lt small]

theorem utf8EncodeChar_eq (char : Char) :
    String.utf8EncodeChar char =
      if char.toNat ≤ 0x7f then [UInt8.ofNat char.toNat]
      else if char.toNat ≤ 0x7ff then
        [UInt8.ofNat (char.toNat / 64 % 0x20 + 0xc0), UInt8.ofNat (char.toNat % 0x40 + 0x80)]
      else if char.toNat ≤ 0xffff then
        [UInt8.ofNat (char.toNat / 4096 % 0x10 + 0xe0),
          UInt8.ofNat (char.toNat / 64 % 0x40 + 0x80), UInt8.ofNat (char.toNat % 0x40 + 0x80)]
      else
        [UInt8.ofNat (char.toNat / 262144 % 0x08 + 0xf0),
          UInt8.ofNat (char.toNat / 4096 % 0x40 + 0x80),
          UInt8.ofNat (char.toNat / 64 % 0x40 + 0x80), UInt8.ofNat (char.toNat % 0x40 + 0x80)] :=
  rfl

theorem isContinuation_ofNat (code : Nat) :
    isContinuation (UInt8.ofNat (code % 0x40 + 0x80)) = true := by
  rw [isContinuation_iff, toNat_ofNat (by omega)]
  omega

theorem wellFormed_utf8EncodeChar (char : Char) : WellFormed (String.utf8EncodeChar char) := by
  have valid : char.toNat < 0xd800 ∨ 0xdfff < char.toNat ∧ char.toNat < 0x110000 := char.valid
  rw [utf8EncodeChar_eq]
  split_ifs with one two three
  · refine .one (announcedLength_eq_some_iff.mpr ?_)
    rw [toNat_ofNat (by omega)]
    omega
  · refine .two (announcedLength_eq_some_iff.mpr ?_) ((canFollow_iff _ _).mpr ?_)
    · rw [toNat_ofNat (by omega)]
      omega
    · rw [toNat_ofNat (by omega), toNat_ofNat (by omega)]
      omega
  · -- Surrogates are no characters, so 0xed is followed by nothing above 0x9f.
    refine .three (announcedLength_eq_some_iff.mpr ?_) ((canFollow_iff _ _).mpr ?_)
      (isContinuation_ofNat _)
    · rw [toNat_ofNat (by omega)]
      omega
    · rw [toNat_ofNat (by omega), toNat_ofNat (by omega)]
      omega
  · refine .four (announcedLength_eq_some_iff.mpr ?_) ((canFollow_iff _ _).mpr ?_)
      (isContinuation_ofNat _) (isContinuation_ofNat _)
    · rw [toNat_ofNat (by omega)]
      omega
    · rw [toNat_ofNat (by omega), toNat_ofNat (by omega)]
      omega

theorem WellFormed.exists_char {bytes : List UInt8} (formed : WellFormed bytes) :
    ∃ char, String.utf8EncodeChar char = bytes := by
  cases formed with
  | @one lead announced =>
      have first := announcedLength_eq_some_iff.mp announced
      obtain ⟨char, code⟩ := Text.exists_char lead.toNat (Or.inl (by omega))
      refine ⟨char, ?_⟩
      rw [utf8EncodeChar_eq, code, if_pos (by omega), UInt8.ofNat_toNat]
  | @two lead second announced follows =>
      have first := announcedLength_eq_some_iff.mp announced
      have next := (canFollow_iff _ _).mp follows
      obtain ⟨char, code⟩ := Text.exists_char
        ((lead.toNat - 0xc0) * 64 + (second.toNat - 0x80)) (Or.inl (by omega))
      refine ⟨char, ?_⟩
      rw [utf8EncodeChar_eq, code, if_neg (by omega), if_pos (by omega),
        ofNat_eq lead (by omega), ofNat_eq second (by omega)]
  | @three lead second third announced follows continues =>
      have first := announcedLength_eq_some_iff.mp announced
      have next := (canFollow_iff _ _).mp follows
      have last := (isContinuation_iff _).mp continues
      obtain ⟨char, code⟩ := Text.exists_char
        ((lead.toNat - 0xe0) * 4096 + (second.toNat - 0x80) * 64 + (third.toNat - 0x80))
        (by simp only [Nat.isValidChar]; omega)
      refine ⟨char, ?_⟩
      rw [utf8EncodeChar_eq, code, if_neg (by omega), if_neg (by omega), if_pos (by omega),
        ofNat_eq lead (by omega), ofNat_eq second (by omega), ofNat_eq third (by omega)]
  | @four lead second third fourth announced follows continues closes =>
      have first := announcedLength_eq_some_iff.mp announced
      have next := (canFollow_iff _ _).mp follows
      have later := (isContinuation_iff _).mp continues
      have last := (isContinuation_iff _).mp closes
      obtain ⟨char, code⟩ := Text.exists_char
        ((lead.toNat - 0xf0) * 262144 + (second.toNat - 0x80) * 4096 +
          (third.toNat - 0x80) * 64 + (fourth.toNat - 0x80)) (Or.inr (by omega))
      refine ⟨char, ?_⟩
      rw [utf8EncodeChar_eq, code, if_neg (by omega), if_neg (by omega), if_neg (by omega),
        ofNat_eq lead (by omega), ofNat_eq second (by omega), ofNat_eq third (by omega),
        ofNat_eq fourth (by omega)]

/-! ### Where a character fails -/

def Begins (bytes : List UInt8) : Prop := ∃ more, WellFormed (bytes ++ more)

theorem exists_canFollow (lead : UInt8) : ∃ second, canFollow lead second = true := by
  by_cases low : lead.toNat = 0xed ∨ lead.toNat = 0xf4
  · exact ⟨0x80, (canFollow_iff _ _).mpr (by simp only [UInt8.reduceToNat]; omega)⟩
  · exact ⟨0xa0, (canFollow_iff _ _).mpr (by simp only [UInt8.reduceToNat]; omega)⟩

theorem Begins.of_append {front back : List UInt8} (begins : Begins (front ++ back)) :
    Begins front := by
  obtain ⟨more, formed⟩ := begins
  exact ⟨back ++ more, by rwa [← List.append_assoc]⟩

theorem begins_lead {lead : UInt8} {length : Nat}
    (announced : announcedLength lead = some length) : Begins [lead] := by
  obtain ⟨second, follows⟩ := exists_canFollow lead
  have continues : isContinuation 0x80 = true := rfl
  rcases announcedLength_eq_some_iff.mp announced with ⟨rfl, -⟩ | ⟨rfl, -⟩ | ⟨rfl, -⟩ | ⟨rfl, -⟩
  · exact ⟨[], .one announced⟩
  · exact ⟨[second], .two announced follows⟩
  · exact ⟨[second, 0x80], .three announced follows continues⟩
  · exact ⟨[second, 0x80, 0x80], .four announced follows continues continues⟩

theorem begins_second {lead second : UInt8} {length : Nat}
    (announced : announcedLength lead = some length) (longer : 2 ≤ length)
    (follows : canFollow lead second = true) : Begins [lead, second] := by
  have continues : isContinuation 0x80 = true := rfl
  rcases announcedLength_eq_some_iff.mp announced with ⟨rfl, -⟩ | ⟨rfl, -⟩ | ⟨rfl, -⟩ | ⟨rfl, -⟩
  · omega
  · exact ⟨[], .two announced follows⟩
  · exact ⟨[0x80], .three announced follows continues⟩
  · exact ⟨[0x80, 0x80], .four announced follows continues continues⟩

theorem begins_third {lead second third : UInt8} {length : Nat}
    (announced : announcedLength lead = some length) (longer : 3 ≤ length)
    (follows : canFollow lead second = true) (continues : isContinuation third = true) :
    Begins [lead, second, third] := by
  rcases announcedLength_eq_some_iff.mp announced with ⟨rfl, -⟩ | ⟨rfl, -⟩ | ⟨rfl, -⟩ | ⟨rfl, -⟩
  · omega
  · omega
  · exact ⟨[], .three announced follows continues⟩
  · exact ⟨[0x80], .four announced follows continues rfl⟩

theorem Begins.lead {lead : UInt8} {rest : List UInt8} (begins : Begins (lead :: rest)) :
    announcedLength lead ≠ none := by
  obtain ⟨more, formed⟩ := begins
  rw [List.cons_append] at formed
  generalize rest ++ more = bytes at formed
  cases formed <;> simp [*]

theorem Begins.second {lead second : UInt8} {rest : List UInt8}
    (begins : Begins (lead :: second :: rest)) : canFollow lead second = true := by
  obtain ⟨more, formed⟩ := begins
  rw [List.cons_append, List.cons_append] at formed
  generalize rest ++ more = bytes at formed
  cases formed <;> assumption

theorem Begins.third {lead second third : UInt8} {rest : List UInt8}
    (begins : Begins (lead :: second :: third :: rest)) : isContinuation third = true := by
  obtain ⟨more, formed⟩ := begins
  rw [List.cons_append, List.cons_append, List.cons_append] at formed
  generalize rest ++ more = bytes at formed
  cases formed <;> assumption

theorem Begins.fourth {lead second third fourth : UInt8} {rest : List UInt8}
    (begins : Begins (lead :: second :: third :: fourth :: rest)) :
    isContinuation fourth = true := by
  obtain ⟨more, formed⟩ := begins
  rw [List.cons_append, List.cons_append, List.cons_append, List.cons_append] at formed
  generalize rest ++ more = bytes at formed
  cases formed
  assumption

/-- How many bytes are at fault where no character can be read: those that could still
begin one, and at least one. -/
structure Fault (bytes : List UInt8) (length : Nat) : Prop where
  positive : 0 < length
  inside : length ≤ bytes.length
  short : length ≤ 3
  begins : length = 1 ∨ Begins (bytes.take length)
  furthest : ∀ count ≤ bytes.length, Begins (bytes.take count) → count ≤ length

theorem Fault.of_front {front back : List UInt8} {next : UInt8} (nonempty : front ≠ [])
    (short : front.length ≤ 3) (begins : front.length = 1 ∨ Begins front)
    (unfit : ¬Begins (front ++ [next])) : Fault (front ++ next :: back) front.length where
  positive := List.length_pos_iff.mpr nonempty
  inside := by
    rw [List.length_append]
    exact Nat.le_add_right _ _
  short := short
  begins := by rwa [List.take_left]
  furthest := by
    intro count inside reached
    refine Nat.le_of_not_lt fun further => unfit ?_
    obtain ⟨extra, rfl⟩ := Nat.exists_eq_add_of_lt further
    have longer : (front ++ next :: back).take (front.length + extra + 1) =
        front ++ [next] ++ back.take extra := by
      rw [Nat.add_assoc, List.take_length_add_append, List.take_succ_cons, List.append_assoc]
      rfl
    rw [longer] at reached
    exact reached.of_append

theorem Fault.of_end {bytes : List UInt8} (nonempty : bytes ≠ []) (short : bytes.length ≤ 3)
    (begins : Begins bytes) : Fault bytes bytes.length where
  positive := List.length_pos_iff.mpr nonempty
  inside := Nat.le_refl _
  short := short
  begins := Or.inr (by rwa [List.take_length])
  furthest := fun _ inside _ => inside

theorem fault_faultLength {bytes : List UInt8} (nonempty : bytes ≠ [])
    (unreadable : ∀ front back, bytes = front ++ back → ¬WellFormed front) :
    Fault bytes ((faultLength bytes).getD bytes.length) := by
  fun_cases faultLength bytes
  case case1 => exact (nonempty rfl).elim
  case case2 lead rest unannounced =>
    refine ⟨Nat.one_pos, Nat.succ_pos _, Nat.le_add_left 1 2, Or.inl rfl, fun count _ reached => ?_⟩
    refine Nat.le_of_not_lt fun further => ?_
    obtain ⟨extra, rfl⟩ := Nat.exists_eq_add_of_lt further
    exact reached.lead unannounced
  case case3 lead length announced => exact .of_end nonempty (by simp) (begins_lead announced)
  case case4 lead length second rest announced refused =>
    have fault : Fault ([lead] ++ second :: rest) [lead].length :=
      .of_front (List.cons_ne_nil _ _) (by simp) (Or.inl rfl) fun begins => by
        simp [begins.second] at refused
    exact fault
  case case5 lead length second rest announced follows short =>
    simp only [Bool.not_eq_true, Bool.not_eq_false'] at follows
    rcases announcedLength_eq_some_iff.mp announced with ⟨rfl, -⟩ | ⟨rfl, -⟩ | ⟨rfl, -⟩ | ⟨rfl, -⟩
    · exact (unreadable [lead] _ rfl (.one announced)).elim
    · exact (unreadable [lead, second] _ rfl (.two announced follows)).elim
    · omega
    · omega
  case case6 lead length second announced follows longer =>
    simp only [Bool.not_eq_true, Bool.not_eq_false'] at follows
    exact .of_end nonempty (by simp) (begins_second announced (by omega) follows)
  case case7 lead length second announced follows longer third rest refused =>
    simp only [Bool.not_eq_true, Bool.not_eq_false'] at follows
    have fault : Fault ([lead, second] ++ third :: rest) [lead, second].length :=
      .of_front (List.cons_ne_nil _ _) (by simp)
        (Or.inr (begins_second announced (by omega) follows)) fun begins => by
          simp [begins.third] at refused
    exact fault
  case case8 lead length second announced follows longer third rest continues short =>
    simp only [Bool.not_eq_true, Bool.not_eq_false'] at follows continues
    have three : length = 3 := by omega
    subst three
    exact (unreadable [lead, second, third] _ rfl (.three announced follows continues)).elim
  case case9 lead length second announced follows longer third continues longest =>
    simp only [Bool.not_eq_true, Bool.not_eq_false'] at follows continues
    exact .of_end nonempty (by simp) (begins_third announced (by omega) follows continues)
  case case10 lead length second announced follows longer third continues longest fourth rest
      refused =>
    simp only [Bool.not_eq_true, Bool.not_eq_false'] at follows continues
    have fault : Fault ([lead, second, third] ++ fourth :: rest) [lead, second, third].length :=
      .of_front (List.cons_ne_nil _ _) (by simp)
        (Or.inr (begins_third announced (by omega) follows continues)) fun begins => by
          simp [begins.fourth] at refused
    exact fault
  case case11 lead length second announced follows longer third continues longest fourth rest
      closes =>
    simp only [Bool.not_eq_true, Bool.not_eq_false'] at follows continues closes
    have four : length = 4 := by
      rcases announcedLength_eq_some_iff.mp announced with same | same | same | same <;> omega
    subst four
    exact (unreadable [lead, second, third, fourth] _ rfl
      (.four announced follows continues closes)).elim

/-! ### Where the reading stops -/

theorem size_utf8Encode (text : List Char) : text.utf8Encode.size = byteLength text := by
  induction text with
  | nil => rfl
  | cons char rest ih =>
      rw [List.utf8Encode_cons, ByteArray.size_append, ih, List.utf8Encode_singleton,
        List.size_toByteArray, String.length_utf8EncodeChar, byteLength_cons]

theorem readFrom_of_some {bytes : ByteArray} {start : Nat} {char : Char}
    (found : bytes.utf8DecodeChar? start = some char) :
    readFrom bytes start = char :: readFrom bytes (start + char.utf8Size) := by
  have fits := ByteArray.le_size_of_utf8DecodeChar?_eq_some found
  have positive := char.utf8Size_pos
  conv_lhs => rw [readFrom, if_pos (by omega), found]

theorem readFrom_of_none {bytes : ByteArray} {start : Nat}
    (refused : bytes.utf8DecodeChar? start = none) : readFrom bytes start = [] := by
  rw [readFrom, refused]
  exact ite_self []

theorem exists_unread (bytes : ByteArray) (start : Nat) :
    ∃ back, bytes.extract start bytes.size = (readFrom bytes start).utf8Encode ++ back ∧
      back.utf8DecodeChar? 0 = none := by
  fun_induction readFrom bytes start with
  | case1 start inside char found ih =>
      obtain ⟨back, later, stopped⟩ := ih
      refine ⟨back, ?_, stopped⟩
      have fits := ByteArray.le_size_of_utf8DecodeChar?_eq_some found
      rw [ByteArray.utf8DecodeChar?_eq_utf8DecodeChar?_extract] at found
      have first := String.toByteArray_utf8EncodeChar_of_utf8DecodeChar?_eq_some found
      rw [ByteArray.extract_extract, Nat.add_zero, Nat.min_eq_left fits] at first
      rw [List.utf8Encode_cons, ByteArray.append_assoc, ← later, List.utf8Encode_singleton, first]
      exact ByteArray.extract_eq_extract_append_extract _ (Nat.le_add_right _ _) fits
  | case2 start inside refused =>
      rw [ByteArray.utf8DecodeChar?_eq_utf8DecodeChar?_extract] at refused
      exact ⟨_, ByteArray.empty_append.symm, refused⟩
  | case3 start outside =>
      refine ⟨.empty, ?_, rfl⟩
      rw [ByteArray.extract_eq_empty_iff.mpr (by omega)]
      rfl

theorem prefix_of_unread {text other : List Char} {back rest : ByteArray}
    (same : text.utf8Encode ++ back = other.utf8Encode ++ rest)
    (stopped : back.utf8DecodeChar? 0 = none) : other <+: text := by
  induction other generalizing text with
  | nil => exact List.nil_prefix
  | cons char other ih =>
      rw [List.utf8Encode_cons, ByteArray.append_assoc] at same
      cases text with
      | nil =>
          have back_eq : back = [char].utf8Encode ++ (other.utf8Encode ++ rest) :=
            ByteArray.empty_append.symm.trans same
          rw [back_eq, List.utf8DecodeChar?_utf8Encode_singleton_append] at stopped
          cases stopped
      | cons first text =>
          rw [List.utf8Encode_cons, ByteArray.append_assoc] at same
          have decoded := congrArg (ByteArray.utf8DecodeChar? · 0) same
          simp only [List.utf8DecodeChar?_utf8Encode_singleton_append, Option.some.injEq] at decoded
          subst decoded
          exact List.cons_prefix_cons.mpr ⟨rfl, ih ((ByteArray.append_right_inj _).mp same)⟩

theorem decode_utf8Encode (text : List Char) : decode text.utf8Encode = .ok text := by
  obtain ⟨back, whole, stopped⟩ := exists_unread text.utf8Encode 0
  rw [ByteArray.extract_zero_size] at whole
  have ended := ByteArray.append_empty.trans whole
  have longer := prefix_of_unread ended.symm stopped
  have shorter := prefix_of_unread ended rfl
  have same := longer.eq_of_length_le shorter.length_le
  rw [decode, ← same, if_pos (size_utf8Encode text).symm]

theorem data_toList_utf8Encode (text : List Char) :
    text.utf8Encode.data.toList = text.flatMap String.utf8EncodeChar := by
  rw [List.utf8Encode, List.toList_data_toByteArray]

theorem toList_loop (bytes : ByteArray) (start : Nat) (front : List UInt8) :
    ByteArray.toList.loop bytes start front = front.reverse ++ bytes.data.toList.drop start := by
  fun_induction ByteArray.toList.loop bytes start front with
  | case1 start front inside ih =>
      have within : start < bytes.data.toList.length := inside
      have byte : bytes.get! start = bytes.data.toList[start] :=
        getElem!_pos bytes.data start inside
      rw [ih, List.drop_eq_getElem_cons within, List.reverse_cons, List.append_assoc, byte]
      rfl
  | case2 start front outside =>
      have past : bytes.data.toList.length ≤ start := Nat.le_of_not_lt outside
      rw [List.drop_eq_nil_of_le past, List.append_nil]

theorem toList_eq (bytes : ByteArray) : bytes.toList = bytes.data.toList :=
  toList_loop bytes 0 []

theorem unreadable_of_unread {back : ByteArray} (stopped : back.utf8DecodeChar? 0 = none)
    (front rest : List UInt8) (split : back.data.toList = front ++ rest) : ¬WellFormed front := by
  intro formed
  obtain ⟨char, rfl⟩ := formed.exists_char
  have same : back = (String.utf8EncodeChar char).toByteArray ++ rest.toByteArray := by
    apply ByteArray.ext
    apply Array.toList_inj.mp
    rw [split, ByteArray.toList_data_append, List.toList_data_toByteArray,
      List.toList_data_toByteArray]
  rw [same, ByteArray.utf8DecodeChar?_utf8EncodeChar_append] at stopped
  cases stopped

/-- Bytes that are no text are a text and bytes behind it that are at fault. -/
theorem exists_fault {bytes : ByteArray} (invalid : ¬bytes.IsValidUTF8) :
    ∃ text back length, bytes = text.utf8Encode ++ back ∧ back.utf8DecodeChar? 0 = none ∧
      Fault back.data.toList length ∧ decode bytes = .error ⟨text, length⟩ := by
  obtain ⟨back, whole, stopped⟩ := exists_unread bytes 0
  rw [ByteArray.extract_zero_size] at whole
  generalize read : readFrom bytes 0 = text at whole
  have left : back.data.toList ≠ [] := by
    intro none
    have empty : back = .empty := ByteArray.ext (Array.toList_inj.mp none)
    rw [empty, ByteArray.append_empty] at whole
    exact invalid ⟨_, whole⟩
  have positive : 0 < back.size := List.length_pos_iff.mpr left
  have size : bytes.size = byteLength text + back.size := by
    rw [whole, ByteArray.size_append, size_utf8Encode]
  have rest : bytes.toList.drop (byteLength text) = back.data.toList := by
    have front : text.utf8Encode.data.toList.length = byteLength text := size_utf8Encode text
    rw [toList_eq, whole, ByteArray.toList_data_append, ← front, List.drop_left]
  have remaining : bytes.size - byteLength text = back.data.toList.length := by
    rw [size, Nat.add_sub_cancel_left]
    rfl
  refine ⟨text, back, _, whole, stopped,
    fault_faultLength left (unreadable_of_unread stopped), ?_⟩
  rw [decode, read, if_neg (by omega), rest, remaining]

/-! ### What could still be a text -/

def Completable (bytes : ByteArray) : Prop := ∃ more, (bytes ++ more).IsValidUTF8

theorem completable_iff {text : List Char} {part : ByteArray}
    (unreadable : ∀ front rest, part.data.toList = front ++ rest → ¬WellFormed front) :
    Completable (text.utf8Encode ++ part) ↔ Begins part.data.toList := by
  constructor
  · intro completable
    obtain ⟨more, whole, same⟩ := completable
    rw [ByteArray.append_assoc] at same
    obtain ⟨others, rfl⟩ := List.isPrefix_of_utf8Encode_append_eq_utf8Encode _ same
    rw [List.utf8Encode_append, ByteArray.append_right_inj] at same
    have bytes := congrArg (fun bytes => bytes.data.toList) same
    simp only [ByteArray.toList_data_append, data_toList_utf8Encode] at bytes
    cases others with
    | nil =>
        obtain ⟨none, -⟩ := List.append_eq_nil_iff.mp bytes
        rw [none]
        exact ⟨[0], .one rfl⟩
    | cons char others =>
        rw [List.flatMap_cons] at bytes
        rcases List.append_eq_append_iff.mp bytes with ⟨rest, split, -⟩ | ⟨rest, split, -⟩
        · exact ⟨rest, split ▸ wellFormed_utf8EncodeChar char⟩
        · exact (unreadable _ _ split (wellFormed_utf8EncodeChar char)).elim
  · intro begins
    obtain ⟨more, formed⟩ := begins
    obtain ⟨char, encoded⟩ := formed.exists_char
    refine ⟨more.toByteArray, text ++ [char], ?_⟩
    rw [List.utf8Encode_append, ByteArray.append_assoc, List.utf8Encode_singleton, encoded,
      List.toByteArray_append]
    congr 2
    exact ByteArray.ext (Array.toList_inj.mp List.toList_data_toByteArray.symm)

end Text

/-- What an error says about bytes that are no text. It stands behind the longest front
that is one, and it covers what could still begin a character there, and at least a byte. -/
structure LexError.Undecoded (bytes : ByteArray) (error : LexError) : Prop where
  fault : error.fault = .invalidEncoding
  nonempty : error.span.start < error.span.stop
  inside : error.span.stop ≤ bytes.size
  behind : ∃ text : List Char, bytes.extract 0 error.span.start = text.utf8Encode ∧
    Position.Behind text ⟨error.span.start, error.line, error.column⟩
  longest : ∀ stop ≤ bytes.size, (bytes.extract 0 stop).IsValidUTF8 → stop ≤ error.span.start
  short : error.span.stop ≤ error.span.start + 3
  begins : error.span.stop = error.span.start + 1 ∨
    Text.Completable (bytes.extract 0 error.span.stop)
  furthest : ∀ stop ≤ bytes.size, Text.Completable (bytes.extract 0 stop) →
    stop ≤ error.span.stop

namespace Text

variable {text : List Char} {back : ByteArray}

theorem extract_behind (count : Nat) :
    (text.utf8Encode ++ back).extract 0 (byteLength text + count) =
      text.utf8Encode ++ back.extract 0 count := by
  have size := (size_utf8Encode text).symm
  have rest : (text.utf8Encode ++ back).extract (byteLength text + 0) (byteLength text + count) =
      back.extract 0 count := ByteArray.extract_append_size_add' size
  rw [ByteArray.extract_eq_extract_append_extract (byteLength text) (Nat.zero_le _)
    (Nat.le_add_right _ _), ByteArray.extract_append_eq_left size, ← rest, Nat.add_zero]

/-- Where no character begins behind a text, a front that reaches further could be completed
if the bytes behind the text begin a character. -/
theorem completable_extract_iff (stopped : back.utf8DecodeChar? 0 = none) (count : Nat) :
    Completable ((text.utf8Encode ++ back).extract 0 (byteLength text + count)) ↔
      Begins (back.data.toList.take count) := by
  have part : (back.extract 0 count).data.toList = back.data.toList.take count := by
    rw [ByteArray.data_extract, Array.toList_extract]
    rfl
  rw [extract_behind, ← part]
  refine completable_iff fun front rest split => ?_
  apply unreadable_of_unread stopped front (rest ++ back.data.toList.drop count)
  rw [← List.append_assoc, ← split, part, List.take_append_drop]

theorem le_of_isValidUTF8 (stopped : back.utf8DecodeChar? 0 = none) {stop : Nat}
    (inside : stop ≤ (text.utf8Encode ++ back).size)
    (valid : ((text.utf8Encode ++ back).extract 0 stop).IsValidUTF8) :
    stop ≤ byteLength text := by
  obtain ⟨other, encoded⟩ := valid
  have cut := ByteArray.extract_eq_extract_append_extract (a := text.utf8Encode ++ back) stop
    (Nat.zero_le _) inside
  rw [ByteArray.extract_zero_size, encoded] at cut
  obtain ⟨rest, rfl⟩ := prefix_of_unread cut stopped
  have size := congrArg ByteArray.size encoded
  rw [ByteArray.size_extract, Nat.sub_zero, Nat.min_eq_left inside, size_utf8Encode] at size
  rw [byteLength_append]
  omega

theorem Fault.undecoded {length : Nat} (fault : Fault back.data.toList length)
    (stopped : back.utf8DecodeChar? 0 = none)
    (fits : (text.utf8Encode ++ back).size ≤ Offset.limit) :
    (LexError.located .invalidEncoding (Position.origin.advanceOver text) length).Undecoded
      (text.utf8Encode ++ back) := by
  have size : (text.utf8Encode ++ back).size = byteLength text + back.data.toList.length := by
    rw [ByteArray.size_append, size_utf8Encode]
    rfl
  have positive := fault.positive
  have inside := fault.inside
  have behind := Position.origin_advanceOver_behind text (by omega)
  have small : Offset.ofSize length = length := Nat.min_eq_left (by omega)
  rw [LexError.located, Span.sized, behind.offset, small, Offset.add_eq_of_le (by omega)]
  refine ⟨rfl, Nat.lt_add_of_pos_right positive, ?_, ⟨text, ?_, ?_⟩, ?_, ?_, ?_, ?_⟩
  · show byteLength text + length ≤ (text.utf8Encode ++ back).size
    omega
  · exact ByteArray.extract_append_eq_left (size_utf8Encode text).symm
  · exact ⟨rfl, behind.line, behind.column⟩
  · exact fun stop within valid => le_of_isValidUTF8 stopped within valid
  · exact Nat.add_le_add_left fault.short _
  · rw [completable_extract_iff stopped]
    exact fault.begins.imp (congrArg (byteLength text + ·)) id
  · intro stop within completable
    rcases Nat.le_total stop (byteLength text) with reached | further
    · exact Nat.le_add_right_of_le reached
    · obtain ⟨count, rfl⟩ := Nat.exists_eq_add_of_le further
      have begins := (completable_extract_iff stopped count).mp completable
      exact Nat.add_le_add_left (fault.furthest count (by omega) begins) _

end Text

namespace Dfa

/-- A text given by its bytes has its tokens; other bytes are refused with one error,
whatever stands in the front that can be read. -/
theorem tokenizeBytes_decides (dfa : Dfa) (bytes : ByteArray)
    (fits : bytes.size ≤ Offset.limit) :
    (∀ text : List Char, bytes = text.utf8Encode →
        dfa.tokenizeBytes bytes = dfa.tokenize text) ∧
      (¬bytes.IsValidUTF8 → ∃ error : LexError,
        dfa.tokenizeBytes bytes = .error error ∧ error.Undecoded bytes) := by
  constructor
  · intro text encoded
    rw [tokenizeBytes, encoded, Text.decode_utf8Encode]
  · intro invalid
    obtain ⟨text, back, length, rfl, stopped, fault, failed⟩ := Text.exists_fault invalid
    exact ⟨_, by rw [tokenizeBytes, failed], fault.undecoded stopped fits⟩

/-- Two lines with a mark that begins no token, and a character that breaks off. -/
def cutShort : ByteArray := ⟨#[0xc3, 0xa9, 0x0a, 0x3f, 0xe2, 0x82, 0x41]⟩

theorem decode_cutShort : Text.decode cutShort = .error ⟨['é', '\n', '?'], 2⟩ := by
  have first : cutShort.utf8DecodeChar? 0 = some 'é' := by decide +kernel
  have second : cutShort.utf8DecodeChar? 2 = some '\n' := by decide +kernel
  have third : cutShort.utf8DecodeChar? 3 = some '?' := by decide +kernel
  have last : cutShort.utf8DecodeChar? 4 = none := by decide +kernel
  have read : Text.readFrom cutShort 0 = ['é', '\n', '?'] := by
    rw [Text.readFrom_of_some first]
    refine congrArg ('é' :: ·) ((Text.readFrom_of_some second).trans ?_)
    refine congrArg ('\n' :: ·) ((Text.readFrom_of_some third).trans ?_)
    exact congrArg ('?' :: ·) (Text.readFrom_of_none last)
  rw [Text.decode, read, Text.toList_eq]
  decide +kernel

theorem tokenizeBytes_cutShort :
    cutShort.size ≤ Offset.limit ∧ ¬cutShort.IsValidUTF8 ∧
      accented.tokenizeBytes cutShort = .error ⟨.invalidEncoding, ⟨4, 6⟩, 2, 2⟩ ∧
      (∀ text : List Char, cutShort = text.utf8Encode →
          accented.tokenizeBytes cutShort = accented.tokenize text) ∧
        (¬cutShort.IsValidUTF8 → ∃ error : LexError,
          accented.tokenizeBytes cutShort = .error error ∧ error.Undecoded cutShort) := by
  have fits : cutShort.size ≤ Offset.limit := by decide
  have invalid : ¬cutShort.IsValidUTF8 := by
    intro valid
    obtain ⟨text, encoded⟩ := valid
    have decoded := decode_cutShort
    rw [encoded, Text.decode_utf8Encode] at decoded
    cases decoded
  have refused : accented.tokenizeBytes cutShort =
      .error ⟨.invalidEncoding, ⟨4, 6⟩, 2, 2⟩ := by
    rw [tokenizeBytes, decode_cutShort]
    decide +kernel
  exact ⟨fits, invalid, refused, tokenizeBytes_decides accented cutShort fits⟩

end Dfa

end Predictive
