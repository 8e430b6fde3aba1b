/-
  Readers of a text by positions in its UTF-8 bytes. A position may be one that the text does not
  have, or lie inside a character: to take bytes out of order or beyond the end is refused, and so
  is to take characters from or up to a position inside one. A reader keeps every access it makes,
  and ends at the first that is refused.
-/

namespace Calculator

/-- The bytes of characters in UTF-8. -/
def utf8 (cs : List Char) : List UInt8 := cs.flatMap String.utf8EncodeChar

/-- A position of a text that is not beyond its end and not inside a character. -/
def IsBoundary (text : String) (position : Nat) : Prop := String.Pos.Raw.IsValid text ⟨position⟩

instance (text : String) (position : Nat) : Decidable (IsBoundary text position) :=
  inferInstanceAs (Decidable (String.Pos.Raw.IsValid text ⟨position⟩))

/-- What is looked at in a text. -/
inductive Access where
  /-- The byte at a position, if one is there. -/
  | byte (position : Nat)
  /-- All from one position up to another, as bytes or as characters. -/
  | slice (start stop : Nat)
deriving DecidableEq

/-- An access that keeps within the text, and cuts no character in two. -/
def Access.IsSafe (text : String) : Access → Prop
  | byte position => IsBoundary text position
  | slice start stop => start ≤ stop ∧ IsBoundary text start ∧ IsBoundary text stop

/-- A reader has the accesses made so far, the last first, and fails with the one refused. -/
abbrev ByteReader (α : Type) : Type := StateT (List Access) (Except Access) α

namespace ByteReader

/-- The byte at a position; none at the end of the text or beyond. -/
def byteAt? (text : String) (position : Nat) : ByteReader (Option UInt8) := do
  modify (.byte position :: ·)
  pure (utf8 text.toList)[position]?

/-- The bytes of a slice, which may cut characters in two. -/
def bytes (text : String) (start stop : Nat) : ByteReader (List UInt8) := do
  modify (.slice start stop :: ·)
  if start ≤ stop ∧ stop ≤ text.utf8ByteSize then
    pure (((utf8 text.toList).take stop).drop start)
  else throw (.slice start stop)

/-- The characters of a slice. -/
def characters (text : String) (start stop : Nat) : ByteReader (List Char) := do
  modify (.slice start stop :: ·)
  if h : start ≤ stop ∧ IsBoundary text start ∧ IsBoundary text stop then
    pure (text.extract ⟨⟨start⟩, h.2.1⟩ ⟨⟨stop⟩, h.2.2⟩).toList
  else throw (.slice start stop)

/-! ## What an access answers -/

section Run

variable {text : String} {position start stop : Nat} {before : List Access}

@[simp] theorem run_byteAt? : (byteAt? text position).run before =
    .ok ((utf8 text.toList)[position]?, .byte position :: before) := rfl

@[simp] theorem run_bytes (h : start ≤ stop ∧ stop ≤ text.utf8ByteSize) :
    (bytes text start stop).run before =
      .ok (((utf8 text.toList).take stop).drop start, .slice start stop :: before) := by
  simp only [bytes, if_pos h]
  rfl

@[simp] theorem run_characters (h : (Access.slice start stop).IsSafe text) :
    (characters text start stop).run before =
      .ok ((text.extract ⟨⟨start⟩, h.2.1⟩ ⟨⟨stop⟩, h.2.2⟩).toList,
        .slice start stop :: before) := by
  have hsafe : start ≤ stop ∧ IsBoundary text start ∧ IsBoundary text stop := h
  simp only [characters, dif_pos hsafe]
  rfl

end Run

/-- The second byte of `é` may be taken, but no character starts there. -/
example : (bytes "é1" 1 3).run [] = .ok ([169, 49], [.slice 1 3]) ∧
    (characters "é1" 1 3).run [] = .error (.slice 1 3) := ⟨rfl, rfl⟩

end ByteReader

end Calculator
