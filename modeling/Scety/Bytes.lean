import Scety.Basic
import Scety.Lib.Trim

/-!
# Bytes and text

Byte strings, the UTF-8 bytes of a string and back, ASCII case folding, and Unicode whitespace as
`str::trim` understands it.
-/

namespace Scety

/-- A `&[u8]` or `Vec<u8>`. -/
abbrev Bytes := List UInt8

/-- `s.as_bytes()`. -/
def bytes (s : Str) : Bytes := s.flatMap String.utf8EncodeChar

/-- `std::str::from_utf8(v).ok()`. -/
def fromUtf8 (v : Bytes) : Option Str := v.toByteArray.utf8Decode?.map Array.toList

/-- `b.to_ascii_lowercase()`. -/
def asciiLower (b : UInt8) : UInt8 := if 65 ≤ b ∧ b ≤ 90 then b + 32 else b

/-- `a.eq_ignore_ascii_case(b)` on bytes. -/
def eqIgnoreAsciiCase (a b : Bytes) : Bool := a.map asciiLower = b.map asciiLower

/-- `char::is_whitespace`: the Unicode property `White_Space`. -/
def isWhitespace (c : Char) : Bool :=
  (0x9 ≤ c.val ∧ c.val ≤ 0xD) ∨ c.val = 0x20 ∨ c.val = 0x85 ∨ c.val = 0xA0 ∨ c.val = 0x1680 ∨
    (0x2000 ≤ c.val ∧ c.val ≤ 0x200A) ∨ c.val = 0x2028 ∨ c.val = 0x2029 ∨ c.val = 0x202F ∨
      c.val = 0x205F ∨ c.val = 0x3000

/-- `s.trim()`. -/
def trim (s : Str) : Str := Trim.trim isWhitespace s

/-! ### Lossy decoding -/

/-- The number of continuation bytes that a first byte of UTF-8 announces. -/
def utf8Continuations (b : UInt8) : Option ℕ :=
  if b < 0x80 then some 0
  else if 0xC2 ≤ b ∧ b ≤ 0xDF then some 1
  else if 0xE0 ≤ b ∧ b ≤ 0xEF then some 2
  else if 0xF0 ≤ b ∧ b ≤ 0xF4 then some 3
  else none

def isContinuation (c : UInt8) : Bool := 0x80 ≤ c ∧ c ≤ 0xBF

/-- The second bytes that may follow `b`: no overlong forms, surrogates or values above
`0x10FFFF`. -/
def isSecondByte (b c : UInt8) : Bool :=
  if b = 0xE0 then 0xA0 ≤ c ∧ c ≤ 0xBF
  else if b = 0xED then 0x80 ≤ c ∧ c ≤ 0x9F
  else if b = 0xF0 then 0x90 ≤ c ∧ c ≤ 0xBF
  else if b = 0xF4 then 0x80 ≤ c ∧ c ≤ 0x8F
  else isContinuation c

/-- The continuation bytes found after `b`, at most `n`. -/
def continuationsOf (b : UInt8) (n : ℕ) (rest : Bytes) : Bytes :=
  match rest.take n with
  | [] => []
  | c :: cs => if isSecondByte b c then c :: cs.takeWhile isContinuation else []

/-- The character with first byte `b` and continuation bytes `cs`. -/
def utf8Char (b : UInt8) (cs : Bytes) : Char :=
  Char.ofNat (cs.foldl (fun v c => v * 64 + c.toNat % 64)
    (b.toNat % if cs = [] then 128 else 2 ^ (6 - cs.length)))

/-- Every maximal part of an invalid sequence becomes one replacement character; `skip` bytes
belong to the character before. -/
def fromUtf8LossyFrom : (skip : ℕ) → Bytes → Str
  | _, [] => []
  | skip + 1, _ :: rest => fromUtf8LossyFrom skip rest
  | 0, b :: rest =>
    match utf8Continuations b with
    | none => Char.ofNat 0xFFFD :: fromUtf8LossyFrom 0 rest
    | some n =>
      let cs := continuationsOf b n rest
      (if cs.length = n then utf8Char b cs else Char.ofNat 0xFFFD) ::
        fromUtf8LossyFrom cs.length rest

/-- `String::from_utf8_lossy(v)`. -/
def fromUtf8Lossy (v : Bytes) : Str := fromUtf8LossyFrom 0 v

/-! ### ASCII -/

/-- The character of an ASCII byte. -/
def asciiChar (b : UInt8) : Char := Char.ofNat b.toNat

theorem fromUtf8_bytes (s : Str) : fromUtf8 (bytes s) = some s := by
  have h : (bytes s).toByteArray = s.utf8Encode := rfl
  unfold fromUtf8
  rw [h, List.utf8Decode?_utf8Encode]
  rfl

theorem asciiChar_val {b : UInt8} (h : b < 128) : (asciiChar b).val.toNat = b.toNat := by
  have hb : b.toNat < 128 := h
  unfold asciiChar
  rw [Char.ofNat, dif_pos (Or.inl (by omega))]
  simp [Char.ofNatAux]

theorem utf8EncodeChar_asciiChar {b : UInt8} (h : b < 128) :
    String.utf8EncodeChar (asciiChar b) = [b] := by
  have hb : b.toNat < 128 := h
  have hval := asciiChar_val h
  unfold String.utf8EncodeChar
  simp only [hval]
  rw [if_pos (by omega)]
  simp

theorem bytes_asciiChar {v : Bytes} (h : ∀ b ∈ v, b < 128) : bytes (v.map asciiChar) = v := by
  unfold bytes
  induction v with
  | nil => rfl
  | cons b v ih =>
    obtain ⟨hb, hv⟩ := List.forall_mem_cons.mp h
    rw [List.map_cons, List.flatMap_cons, utf8EncodeChar_asciiChar hb, ih hv]
    rfl

/-- The ASCII bytes of a character are the character. -/
theorem eq_asciiChar_of_mem {b : UInt8} (hb : b < 128) {c : Char}
    (h : b ∈ String.utf8EncodeChar c) : c = asciiChar b := by
  have hb' : b.toNat < 128 := hb
  have hlarge : ∀ n, 128 ≤ n → n < 256 → b ≠ UInt8.ofNat n := by
    rintro n hn hlt rfl
    rw [UInt8.toNat_ofNat_of_lt' hlt] at hb'
    omega
  unfold String.utf8EncodeChar at h
  dsimp only at h
  split_ifs at h with h1 h2 h3
  · obtain rfl := List.mem_singleton.mp h
    have hlt : c.val.toNat < UInt8.size := Nat.lt_of_le_of_lt h1 (by decide)
    apply Char.ext
    apply UInt32.toNat_inj.mp
    rw [asciiChar_val hb, UInt8.toNat_ofNat_of_lt' hlt]
  all_goals
    exfalso
    simp only [List.mem_cons, List.not_mem_nil, or_false] at h
  · rcases h with h | h <;> exact hlarge _ (by omega) (by omega) h
  · rcases h with h | h | h <;> exact hlarge _ (by omega) (by omega) h
  · rcases h with h | h | h | h <;> exact hlarge _ (by omega) (by omega) h

theorem mem_bytes_iff {b : UInt8} (hb : b < 128) {s : Str} : b ∈ bytes s ↔ asciiChar b ∈ s := by
  unfold bytes
  rw [List.mem_flatMap]
  refine ⟨?_, ?_⟩
  · rintro ⟨c, hc, h⟩
    rwa [← eq_asciiChar_of_mem hb h]
  · intro h
    refine ⟨_, h, ?_⟩
    rw [utf8EncodeChar_asciiChar hb]
    exact List.mem_singleton.mpr rfl

/-- ASCII bytes are decoded one by one. -/
theorem fromUtf8_ascii {v : Bytes} (h : ∀ b ∈ v, b < 128) :
    fromUtf8 v = some (v.map asciiChar) := by
  rw [← fromUtf8_bytes, bytes_asciiChar h]

theorem fromUtf8Lossy_ascii {v : Bytes} (h : ∀ b ∈ v, b < 128) :
    fromUtf8Lossy v = v.map asciiChar := by
  unfold fromUtf8Lossy
  induction v with
  | nil => rfl
  | cons b v ih =>
    obtain ⟨hb, hv⟩ := List.forall_mem_cons.mp h
    have hlt : b.toNat < 128 := hb
    have hcont : continuationsOf b 0 v = [] := by
      unfold continuationsOf
      rw [List.take_zero]
    have hchar : utf8Char b [] = asciiChar b := by
      unfold utf8Char asciiChar
      rw [if_pos rfl, List.foldl_nil, Nat.mod_eq_of_lt hlt]
    have hfirst : utf8Continuations b = some 0 := if_pos hb
    rw [fromUtf8LossyFrom, hfirst]
    dsimp only
    rw [hcont, List.length_nil, if_pos rfl, hchar, ih hv]
    rfl

/-- The only ASCII whitespace is at most the space. -/
theorem isWhitespace_asciiChar {b : UInt8} (h : b < 128) (h32 : 32 < b) :
    isWhitespace (asciiChar b) = false := by
  have hval := asciiChar_val h
  have hb : b.toNat < 128 := h
  have hb32 : 32 < b.toNat := h32
  unfold isWhitespace
  simp only [decide_eq_false_iff_not, UInt32.le_iff_toNat_le, ← UInt32.toNat_inj, hval]
  simp
  omega

end Scety
