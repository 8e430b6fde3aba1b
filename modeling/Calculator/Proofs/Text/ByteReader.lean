/-
  Positions behind which the characters are known. The bytes from such a position on are those of
  the characters that follow (`IsAt.drop_utf8`), and an ASCII character there is told by its one
  byte, as all bytes of other characters are greater (`head?_utf8_eq_iff`). `Meets` says of a reader
  that nothing is refused to it, that all its accesses are safe, and what it answers; the accesses
  of `ByteReader` are safe at such positions (`meets_byteAt?`, `meets_bytes`, `meets_characters`).
-/
import Mathlib.Data.List.Basic
import Calculator.Error
import Calculator.Text.ByteReader

namespace Calculator

/-! ## The bytes of characters -/

section Bytes

variable {a c : Char} {cs ds : List Char}

@[simp] theorem utf8_nil : utf8 [] = [] := rfl

@[simp] theorem utf8_append : utf8 (cs ++ ds) = utf8 cs ++ utf8 ds := List.flatMap_append

@[simp] theorem utf8_cons_of_lt (h : c.toNat < 128) : utf8 (c :: cs) = c.toUInt8 :: utf8 cs := by
  have hsize : c.utf8Size = 1 := by
    rw [Char.utf8Size_eq_one_iff, UInt32.le_iff_toNat_le]
    exact Nat.le_of_lt_succ h
  rw [utf8, List.flatMap_cons, String.utf8EncodeChar_eq_singleton hsize]
  rfl

/-- The first byte of a character beyond ASCII is no ASCII byte. -/
theorem exists_utf8EncodeChar_eq_cons (h : 128 ≤ c.toNat) :
    ∃ b bs, String.utf8EncodeChar c = b :: bs ∧ 128 ≤ b.toNat := by
  have hc : c.val.toNat = c.toNat := rfl
  fun_cases String.utf8EncodeChar c with
  | case1 v hv => omega
  | case2 v h1 h2 =>
    refine ⟨_, _, rfl, ?_⟩
    rw [UInt8.toNat_ofNat']
    omega
  | case3 v h1 h2 h3 =>
    refine ⟨_, _, rfl, ?_⟩
    rw [UInt8.toNat_ofNat']
    omega
  | case4 v h1 h2 h3 =>
    refine ⟨_, _, rfl, ?_⟩
    rw [UInt8.toNat_ofNat']
    omega

theorem exists_utf8_cons_eq (h : 128 ≤ c.toNat) (cs : List Char) :
    ∃ b bs, utf8 (c :: cs) = b :: bs ∧ 128 ≤ b.toNat := by
  obtain ⟨b, bs, hbytes, hb⟩ := exists_utf8EncodeChar_eq_cons h
  exact ⟨b, bs ++ utf8 cs, by rw [utf8, List.flatMap_cons, hbytes]; rfl, hb⟩

@[simp] theorem toNat_toUInt8 (h : c.toNat < 128) : c.toUInt8.toNat = c.toNat := by
  have hmod : c.toUInt8.toNat = c.toNat % 256 := UInt32.toNat_toUInt8 c.val
  omega

theorem length_utf8_of_lt (h : ∀ c ∈ cs, c.toNat < 128) : (utf8 cs).length = cs.length := by
  induction cs with
  | nil => rfl
  | cons c cs ih =>
    obtain ⟨hc, hcs⟩ := List.forall_mem_cons.1 h
    simp [hc, ih hcs]

/-- An ASCII character at the head is told by its byte. -/
theorem head?_utf8_eq_iff (ha : a.toNat < 128) :
    (utf8 cs).head? = some a.toUInt8 ↔ cs.head? = some a := by
  cases cs with
  | nil => simp
  | cons c cs =>
    rw [List.head?_cons, Option.some_inj]
    rcases Nat.lt_or_ge c.toNat 128 with hc | hc
    · rw [utf8_cons_of_lt hc, List.head?_cons, Option.some_inj]
      constructor
      · intro h
        have hnat : c.toNat = a.toNat := by simpa [hc, ha] using congrArg UInt8.toNat h
        exact Char.toNat_inj.1 hnat
      · rintro rfl
        rfl
    · obtain ⟨b, bs, hbytes, hb⟩ := exists_utf8_cons_eq hc cs
      rw [hbytes, List.head?_cons, Option.some_inj]
      constructor
      · rintro rfl
        rw [toNat_toUInt8 ha] at hb
        omega
      · rintro rfl
        omega

theorem toByteArray_ofList (cs : List Char) :
    (String.ofList cs).toByteArray = (utf8 cs).toByteArray := String.toByteArray_ofList

theorem utf8ByteSize_ofList (cs : List Char) :
    (String.ofList cs).utf8ByteSize = (utf8 cs).length := by
  rw [← String.size_toByteArray, toByteArray_ofList, List.size_toByteArray]

theorem utf8ByteSize_eq (text : String) : text.utf8ByteSize = (utf8 text.toList).length := by
  rw [← utf8ByteSize_ofList, String.ofList_toList]

end Bytes

/-! ## Positions -/

/-- The position behind which `rest` stands. -/
def IsAt (text : String) (position : Nat) (rest : List Char) : Prop :=
  ∃ before, text.toList = before ++ rest ∧ position = (utf8 before).length

section Positions

variable {text : String} {start stop : Nat} {part rest : List Char}

theorem isAt_zero (text : String) : IsAt text 0 text.toList := ⟨[], rfl, rfl⟩

theorem isAt_utf8ByteSize (text : String) : IsAt text text.utf8ByteSize [] :=
  ⟨text.toList, (List.append_nil _).symm, utf8ByteSize_eq text⟩

namespace IsAt

theorem isBoundary (h : IsAt text start rest) : IsBoundary text start := by
  obtain ⟨before, htext, rfl⟩ := h
  refine String.Pos.Raw.isValid_iff_exists_append.2 ⟨.ofList before, .ofList rest, ?_, ?_⟩
  · rw [← String.ofList_append, ← htext, String.ofList_toList]
  · rw [String.Pos.Raw.ext_iff, String.byteIdx_rawEndPos, utf8ByteSize_ofList]

theorem le_utf8ByteSize (h : IsAt text start rest) : start ≤ text.utf8ByteSize :=
  h.isBoundary.le_utf8ByteSize

theorem append (h : IsAt text start (part ++ rest)) :
    IsAt text (start + (utf8 part).length) rest := by
  obtain ⟨before, htext, rfl⟩ := h
  exact ⟨before ++ part, by simp [htext], by simp⟩

/-- ASCII characters are as many positions. -/
theorem append_ascii (h : IsAt text start (part ++ rest)) (hpart : ∀ c ∈ part, c.toNat < 128) :
    IsAt text (start + part.length) rest := by
  have happend := h.append
  rwa [length_utf8_of_lt hpart] at happend

theorem exists_tail {a : Char} (h : IsAt text start rest) (hhead : rest.head? = some a)
    (ha : a.toNat < 128) : ∃ more, rest = a :: more ∧ IsAt text (start + 1) more := by
  obtain ⟨more, rfl⟩ := List.head?_eq_some_iff.1 hhead
  have happend : IsAt text start ([a] ++ more) := h
  exact ⟨more, rfl, happend.append_ascii (by simpa using ha)⟩

theorem drop_utf8 (h : IsAt text start rest) : (utf8 text.toList).drop start = utf8 rest := by
  obtain ⟨before, htext, rfl⟩ := h
  simp [htext]

/-- A later position lies behind the part between. -/
theorem eq_add (h : IsAt text start (part ++ rest)) (hstop : IsAt text stop rest) :
    stop = start + (utf8 part).length := by
  obtain ⟨before, htext, rfl⟩ := h
  obtain ⟨other, hother, rfl⟩ := hstop
  rw [htext, ← List.append_assoc] at hother
  simp [← List.append_cancel_right hother]

theorem isSafe_slice (h : IsAt text start (part ++ rest)) (hstop : IsAt text stop rest) :
    (Access.slice start stop).IsSafe text := by
  refine ⟨?_, h.isBoundary, hstop.isBoundary⟩
  rw [h.eq_add hstop]
  exact Nat.le_add_right _ _

theorem extract_toByteArray (h : IsAt text start (part ++ rest)) (hstop : IsAt text stop rest) :
    text.toByteArray.extract start stop = (utf8 part).toByteArray := by
  have hadd := h.eq_add hstop
  obtain ⟨before, htext, hstart⟩ := h
  have hbytes : text.toByteArray =
      (utf8 before).toByteArray ++ ((utf8 part).toByteArray ++ (utf8 rest).toByteArray) := by
    rw [← String.ofList_toList (s := text), htext, toByteArray_ofList]
    simp
  have hsize : start = (utf8 before).toByteArray.size := by rw [hstart, List.size_toByteArray]
  rw [hbytes, hadd, ← Nat.add_zero start, Nat.add_assoc, Nat.zero_add,
    ByteArray.extract_append_size_add' hsize, ByteArray.extract_append_eq_left]
  rw [List.size_toByteArray]

theorem toList_extract (h : IsAt text start (part ++ rest)) (hstop : IsAt text stop rest) :
    (text.extract ⟨⟨start⟩, h.isBoundary⟩ ⟨⟨stop⟩, hstop.isBoundary⟩).toList = part := by
  have heq : text.extract ⟨⟨start⟩, h.isBoundary⟩ ⟨⟨stop⟩, hstop.isBoundary⟩ = .ofList part := by
    rw [← String.toByteArray_inj, toByteArray_ofList]
    exact h.extract_toByteArray hstop
  rw [heq, String.toList_ofList]

end IsAt

end Positions

/-! ## What a reader answers -/

namespace ByteReader

variable {α β : Type} {text : String}

/-- From safe accesses on, nothing is refused to the reader, all its accesses are safe, and its
answer has the property. -/
def Meets (text : String) (reader : ByteReader α) (P : α → Prop) : Prop :=
  ∀ before, (∀ access ∈ before, access.IsSafe text) →
    ∃ x accesses, reader.run before = .ok (x, accesses) ∧
      (∀ access ∈ accesses, access.IsSafe text) ∧ P x

theorem meets_pure {P : α → Prop} {x : α} (h : P x) : Meets text (pure x) P :=
  fun before hbefore => ⟨x, before, rfl, hbefore, h⟩

theorem Meets.bind {reader : ByteReader α} {next : α → ByteReader β} {P : α → Prop} {Q : β → Prop}
    (h : Meets text reader P) (hnext : ∀ x, P x → Meets text (next x) Q) :
    Meets text (reader >>= next) Q := by
  intro before hbefore
  obtain ⟨x, accesses, hrun, haccesses, hx⟩ := h before hbefore
  obtain ⟨y, more, hmore, hsafe, hy⟩ := hnext x hx accesses haccesses
  refine ⟨y, more, ?_, hsafe, hy⟩
  simp [hrun, hmore]

section Accesses

variable {start stop : Nat} {part rest : List Char}

/-- The byte tells which ASCII character stands there, if one does. -/
theorem meets_byteAt? (h : IsAt text start rest) : Meets text (byteAt? text start) fun b? =>
    ∀ a : Char, a.toNat < 128 → (b? = some a.toUInt8 ↔ rest.head? = some a) := by
  intro before hbefore
  refine ⟨_, _, run_byteAt?, List.forall_mem_cons.2 ⟨h.isBoundary, hbefore⟩, ?_⟩
  intro a ha
  rw [← List.head?_drop, h.drop_utf8, head?_utf8_eq_iff ha]

/-- Where the byte is another one, so is the character. -/
theorem ne_of_byte {b? : Option UInt8} {a : Char}
    (h : b? = some a.toUInt8 ↔ rest.head? = some a) (hne : b? ≠ some a.toUInt8) :
    ∀ c ∈ rest.head?, c ≠ a := by
  rintro c hc rfl
  exact hne (h.2 hc)

theorem meets_bytes (h : IsAt text start rest) :
    Meets text (bytes text start text.utf8ByteSize) (· = utf8 rest) := by
  intro before hbefore
  have hle := h.le_utf8ByteSize
  have hsafe : (Access.slice start text.utf8ByteSize).IsSafe text :=
    ⟨hle, h.isBoundary, (isAt_utf8ByteSize text).isBoundary⟩
  refine ⟨_, _, run_bytes ⟨hle, Nat.le_refl _⟩, List.forall_mem_cons.2 ⟨hsafe, hbefore⟩, ?_⟩
  rw [List.take_of_length_le (Nat.le_of_eq (utf8ByteSize_eq text).symm), h.drop_utf8]

theorem meets_characters (h : IsAt text start (part ++ rest)) (hstop : IsAt text stop rest) :
    Meets text (characters text start stop) (· = part) := by
  intro before hbefore
  have hsafe := h.isSafe_slice hstop
  exact ⟨_, _, run_characters hsafe, List.forall_mem_cons.2 ⟨hsafe, hbefore⟩,
    h.toList_extract hstop⟩

end Accesses

end ByteReader

end Calculator
