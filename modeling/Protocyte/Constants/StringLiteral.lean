import Protocyte.Foundation.CxxLiteral

/-! The C++ text of a string or bytes constant. -/
namespace Protocyte.Constants

open Foundation

/-- What a byte adds to the ASCII chunk; a byte that adds nothing becomes a part of its own. -/
def asciiText (byte : UInt8) : Option (List Char) :=
  if byte = 0x5C then some ['\\', '\\']
  else if byte = 0x22 then some ['\\', '"']
  else if byte = 0x0A then some ['\\', 'n']
  else if byte = 0x0D then some ['\\', 'r']
  else if byte = 0x09 then some ['\\', 't']
  else if 32 ≤ byte ∧ byte < 127 then some [Char.ofNat byte.toNat]
  else none

/-- `f'"\\x{byte:02x}"'`. -/
def hexPart (byte : UInt8) : List Char :=
  ['"', '\\', 'x', Nat.digitChar (byte.toNat / 16), Nat.digitChar (byte.toNat % 16), '"']

structure LiteralParts where
  parts : List (List Char)
  asciiChunk : List (List Char)

namespace LiteralParts

def flushAscii (s : LiteralParts) : LiteralParts :=
  if s.asciiChunk = [] then s
  else { parts := s.parts ++ ['"' :: s.asciiChunk.flatten ++ ['"']], asciiChunk := [] }

def append (s : LiteralParts) (byte : UInt8) : LiteralParts :=
  match asciiText byte with
  | some text => { s with asciiChunk := s.asciiChunk ++ [text] }
  | none =>
    let s := s.flushAscii
    { s with parts := s.parts ++ [hexPart byte] }

end LiteralParts

/-- `_cpp_string_literal`. -/
def cppStringLiteral (value : List UInt8) : List Char :=
  let s := (value.foldl LiteralParts.append ⟨[], []⟩).flushAscii
  if s.parts = [] then ['"', '"'] else s.parts.flatten

open CxxLiteral

/-- A chunk text is read between the quotes, a part of its own outside of them. -/
def readsByte (byte : UInt8) : Bool :=
  match asciiText byte with
  | some text => run .inside text = some (.inside, [byte])
  | none => run .outside (hexPart byte) = some (.outside, [byte])

theorem readsByte_eq_true (byte : UInt8) : readsByte byte = true := by
  have hall : ∀ n < 256, readsByte (UInt8.ofNat n) = true := by decide +kernel
  have hbyte := hall byte.toNat byte.toNat_lt
  rwa [UInt8.ofNat_toNat] at hbyte

theorem run_asciiText {byte : UInt8} {text : List Char} (h : asciiText byte = some text) :
    run .inside text = some (.inside, [byte]) := by
  have hread := readsByte_eq_true byte
  unfold readsByte at hread
  rw [h] at hread
  exact of_decide_eq_true hread

theorem run_hexPart {byte : UInt8} (h : asciiText byte = none) :
    run .outside (hexPart byte) = some (.outside, [byte]) := by
  have hread := readsByte_eq_true byte
  unfold readsByte at hread
  rw [h] at hread
  exact of_decide_eq_true hread

namespace LiteralParts

/-- The text so far, with the quote that opens a chunk in progress. -/
def text (s : LiteralParts) : List Char :=
  s.parts.flatten ++ if s.asciiChunk = [] then [] else '"' :: s.asciiChunk.flatten

/-- Where the reader stands after that text. -/
def state (s : LiteralParts) : State := if s.asciiChunk = [] then .outside else .inside

def Denotes (s : LiteralParts) (value : List UInt8) : Prop :=
  run .outside s.text = some (s.state, value)

variable {s : LiteralParts} {value : List UInt8}

theorem Denotes.flushAscii (h : s.Denotes value) : s.flushAscii.Denotes value := by
  unfold LiteralParts.flushAscii
  split_ifs with hchunk
  · exact h
  · have hclose : run s.state ['"'] = some (.outside, []) := by
      rw [state, if_neg hchunk]
      rfl
    have hrun := run_append h hclose
    rw [List.append_nil] at hrun
    show run .outside _ = some (State.outside, value)
    rw [← hrun]
    congr 1
    simp [text, hchunk]

theorem asciiChunk_flushAscii (s : LiteralParts) : s.flushAscii.asciiChunk = [] := by
  unfold LiteralParts.flushAscii
  split_ifs with hchunk
  · exact hchunk
  · rfl

theorem Denotes.append (h : s.Denotes value) (byte : UInt8) :
    (s.append byte).Denotes (value ++ [byte]) := by
  unfold LiteralParts.append
  cases hbyte : asciiText byte with
  | some chunk =>
    have hread := run_asciiText hbyte
    have hinside : ({ s with asciiChunk := s.asciiChunk ++ [chunk] } : LiteralParts).state =
        .inside := by
      simp [state]
    dsimp only
    rw [Denotes, hinside]
    by_cases hchunk : s.asciiChunk = []
    · -- the chunk opens with this byte
      have hopen : run s.state ('"' :: chunk) = some (.inside, [byte]) := by
        rw [state, if_pos hchunk]
        have hquote : run .outside ['"'] = some (.inside, []) := rfl
        exact run_append hquote hread
      rw [← run_append h hopen]
      congr 1
      simp [text, hchunk]
    · have hstate : s.state = .inside := if_neg hchunk
      rw [Denotes, hstate] at h
      rw [← run_append h hread]
      congr 1
      simp [text, hchunk]
  | none =>
    have hflush := h.flushAscii
    have hempty := s.asciiChunk_flushAscii
    rw [Denotes, state, if_pos hempty] at hflush
    have hrun := run_append hflush (run_hexPart hbyte)
    have houtside : ({ s.flushAscii with parts := s.flushAscii.parts ++ [hexPart byte] } :
        LiteralParts).state = .outside := if_pos hempty
    dsimp only
    rw [Denotes, houtside, ← hrun]
    congr 1
    simp [text, hempty]

theorem Denotes.foldl (h : s.Denotes value) (bytes : List UInt8) :
    (bytes.foldl LiteralParts.append s).Denotes (value ++ bytes) := by
  induction bytes generalizing s value with
  | nil => simpa using h
  | cons byte bytes ih =>
    have hrest := ih (h.append byte)
    rw [List.append_assoc] at hrest
    exact hrest

end LiteralParts

/-- The literal denotes the bytes it was made for. -/
theorem cppStringLiteral_denotes (value : List UInt8) :
    denotes (cppStringLiteral value) = some value := by
  have hstart : (⟨[], []⟩ : LiteralParts).Denotes [] := rfl
  have hloop := (hstart.foldl value).flushAscii
  have hchunk := (value.foldl LiteralParts.append ⟨[], []⟩).asciiChunk_flushAscii
  rw [List.nil_append] at hloop
  cases value with
  | nil => rfl
  | cons byte bytes =>
    unfold cppStringLiteral
    dsimp only
    generalize ((byte :: bytes).foldl LiteralParts.append ⟨[], []⟩).flushAscii = s at hloop hchunk
    rw [LiteralParts.Denotes, LiteralParts.state, if_pos hchunk, LiteralParts.text,
      if_pos hchunk, List.append_nil] at hloop
    have htext : s.parts.flatten ≠ [] := by
      intro hnil
      rw [hnil] at hloop
      cases hloop
    have hparts : s.parts ≠ [] := by
      intro hnil
      exact htext (by rw [hnil]; rfl)
    rw [if_neg hparts, denotes, hloop]
    exact if_neg htext

end Protocyte.Constants
