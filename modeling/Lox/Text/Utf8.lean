namespace Lox.Text

/-- What is wrong with the bytes from some place on. -/
inductive Utf8Flaw where
  /-- The bytes begin no character. -/
  | invalid (length : Nat)
  /-- The bytes end within a character. -/
  | incomplete
deriving DecidableEq, Repr

/-- The first flaw of a text in bytes. -/
structure Utf8Fault where
  index : Nat
  flaw : Utf8Flaw
deriving DecidableEq, Repr

def Utf8Fault.message (f : Utf8Fault) : String :=
  match f.flaw with
  | .invalid length =>
    "invalid utf-8 sequence of " ++ toString length ++ " bytes from index " ++ toString f.index
  | .incomplete => "incomplete utf-8 byte sequence from index " ++ toString f.index

/-- How many bytes follow the first byte of a character, and the bits that it gives. -/
def leadByte? (b : Nat) : Option (Nat × Nat) :=
  if b < 0x80 then some (0, b)
  else if 0xC2 ≤ b ∧ b < 0xE0 then some (1, b % 32)
  else if 0xE0 ≤ b ∧ b < 0xF0 then some (2, b % 16)
  else if 0xF0 ≤ b ∧ b < 0xF5 then some (3, b % 8)
  else none

/-- The range of the second byte, which leaves out longer forms than needed, surrogates and what
lies beyond the last character. -/
def secondByteRange (lead : Nat) : Nat × Nat :=
  if lead = 0xE0 then (0xA0, 0xBF)
  else if lead = 0xED then (0x80, 0x9F)
  else if lead = 0xF0 then (0x90, 0xBF)
  else if lead = 0xF4 then (0x80, 0x8F)
  else (0x80, 0xBF)

/-- Reads the bytes of a character that are still missing after `taken` of them. -/
def followingBytes (range : Nat × Nat) : Nat → Nat → Nat → List UInt8 →
    Except Utf8Flaw (Nat × List UInt8)
  | 0, _, code, rest => .ok (code, rest)
  | _ + 1, _, _, [] => .error .incomplete
  | n + 1, taken, code, b :: rest =>
    if range.1 ≤ b.toNat ∧ b.toNat ≤ range.2 then
      followingBytes (0x80, 0xBF) n (taken + 1) (code * 64 + b.toNat % 64) rest
    else .error (.invalid taken)

/-- The code of the character that begins with a byte, and the bytes after it. -/
def character (b : UInt8) (rest : List UInt8) : Except Utf8Flaw (Nat × List UInt8) :=
  match leadByte? b.toNat with
  | none => .error (.invalid 1)
  | some (following, code) => followingBytes (secondByteRange b.toNat) following 1 code rest

theorem followingBytes_length {range : Nat × Nat} {n taken code code' : Nat}
    {bytes rest : List UInt8} (h : followingBytes range n taken code bytes = .ok (code', rest)) :
    rest.length ≤ bytes.length := by
  induction n generalizing range taken code bytes with
  | zero =>
    simp only [followingBytes, Except.ok.injEq, Prod.mk.injEq] at h
    exact h.2 ▸ Nat.le_refl _
  | succ n ih =>
    cases bytes with
    | nil => simp [followingBytes] at h
    | cons b bytes =>
      unfold followingBytes at h
      split at h
      · exact Nat.le_succ_of_le (ih h)
      · simp at h

theorem character_length {b : UInt8} {code : Nat} {bytes rest : List UInt8}
    (h : character b bytes = .ok (code, rest)) : rest.length ≤ bytes.length := by
  unfold character at h
  split at h
  · simp at h
  · exact followingBytes_length h

/-- The characters of the bytes from an index on. -/
def decodeFrom (index : Nat) : List UInt8 → Except Utf8Fault (List Char)
  | [] => .ok []
  | b :: bytes =>
    match h : character b bytes with
    | .error flaw => .error ⟨index, flaw⟩
    | .ok (code, rest) =>
      have := character_length h
      (decodeFrom (index + 1 + (bytes.length - rest.length)) rest).map (Char.ofNat code :: ·)
termination_by bytes => bytes.length

def decodeUtf8 (bytes : List UInt8) : Except Utf8Fault String :=
  (decodeFrom 0 bytes).map String.ofList

end Lox.Text
