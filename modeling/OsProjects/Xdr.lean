import OsProjects.CTypes

/-! # External data representation

The two types of XDR that a message of bytes is made of.

* An `unsigned int` is four bytes, the most significant first.
* A variable-length sequence of bytes is its length, the bytes, and zeros up to a multiple of four.
  The reader skips the bytes behind the sequence whatever they are.
* `getBytes_putBytes` — what has been written is read back, in front of anything. -/

namespace OsProjects.Xdr

/-- The four bytes of an `unsigned int`. -/
def putUInt (n : ℕ) : List Byte :=
  [UInt8.ofNat (n / 2 ^ 24), UInt8.ofNat (n / 2 ^ 16), UInt8.ofNat (n / 2 ^ 8), UInt8.ofNat n]

def getUInt : List Byte → Option (ℕ × List Byte)
  | a :: b :: c :: d :: rest =>
      some (a.toNat * 2 ^ 24 + b.toNat * 2 ^ 16 + c.toNat * 2 ^ 8 + d.toNat, rest)
  | _ => none

/-- The zeros behind `n` bytes. -/
def padding (n : ℕ) : ℕ := (4 - n % 4) % 4

/-- A sequence of bytes; `len` of them are written. -/
def putBytes (bytes : List Byte) (len : ℕ) : List Byte :=
  putUInt len ++ bytes.take len ++ List.replicate (padding len) 0

/-- The sequence in front, of at most `maxsize` bytes, and what is behind it. -/
def getBytes (maxsize : ℕ) (message : List Byte) : Option (List Byte × List Byte) :=
  (getUInt message).bind fun (len, rest) =>
    if maxsize < len ∨ rest.length < len + padding len then none
    else some (rest.take len, rest.drop (len + padding len))

theorem getUInt_putUInt (n : ℕ) (rest : List Byte) :
    getUInt (putUInt n ++ rest) = some (n % 2 ^ 32, rest) := by
  simp only [putUInt, getUInt, List.cons_append, List.nil_append, UInt8.toNat_ofNat']
  congr 2
  omega

@[simp] theorem length_putUInt (n : ℕ) : (putUInt n).length = 4 := rfl

/-- **Round trip.** -/
theorem getBytes_putBytes {maxsize len : ℕ} {bytes : List Byte} (rest : List Byte)
    (hlen : len ≤ bytes.length) (hlt : len < 2 ^ 32) (hmax : len ≤ maxsize) :
    getBytes maxsize (putBytes bytes len ++ rest) = some (bytes.take len, rest) := by
  have htake : (bytes.take len).length = len := List.length_take_of_le hlen
  unfold getBytes putBytes
  rw [List.append_assoc, List.append_assoc, getUInt_putUInt, Nat.mod_eq_of_lt hlt,
    Option.bind_some]
  dsimp only
  rw [if_neg]
  · rw [List.take_append_of_le_length htake.ge, List.take_of_length_le htake.le, ← List.append_assoc,
      List.drop_append_of_le_length, List.drop_of_length_le]
    · rfl
    · simp [htake]
    · simp [htake]
  · simp only [List.length_append, htake, List.length_replicate]
    omega

end OsProjects.Xdr
