import Mathlib.Algebra.Group.Nat.Defs
import Mathlib.Data.Nat.Notation
import Mathlib.Data.List.Basic

/-!
# Machine words and network byte order

`int` and `unsigned int` are 32 bits wide and share their representation: a
conversion between them changes how a word is compared or printed, never the
word. The wire carries words with the most significant byte first; memory holds
them with the least significant byte first.

## Main definitions

* `Multicast.Word` — a C `int` or `unsigned int`
* `Multicast.htonl`, `Multicast.ntohl` — a word as the bytes of the wire and back
* `Multicast.setLowByte` — a byte stored at the address of a word

## Main results

* `ntohl_htonl`, `htonl_ntohl` — a word sent in network order is read back
  unchanged, and so are four bytes
-/

set_option autoImplicit false

namespace Multicast

/-- A C `int` or `unsigned int`. -/
abbrev Word := BitVec 32

/-- The four bytes that storing `htonl (w)` leaves in memory. -/
def htonl (w : Word) : List UInt8 :=
  [UInt8.ofNat (w.toNat / 16777216), UInt8.ofNat (w.toNat / 65536),
    UInt8.ofNat (w.toNat / 256), UInt8.ofNat w.toNat]

/-- The number written by `bytes`, the most significant byte first. -/
def bigEndian (bytes : List UInt8) : ℕ := bytes.foldl (fun n b => n * 256 + b.toNat) 0

/-- The word that `ntohl` makes of four bytes of memory. -/
def ntohl (bytes : List UInt8) : Word := BitVec.ofNat 32 (bigEndian bytes)

/-- A byte copied to the address of a word replaces its least significant byte. -/
def setLowByte (w : Word) (b : UInt8) : Word := BitVec.ofNat 32 (w.toNat / 256 * 256 + b.toNat)

@[simp] theorem length_htonl (w : Word) : (htonl w).length = 4 := rfl

theorem bigEndian_htonl (w : Word) : bigEndian (htonl w) = w.toNat := by
  have hw := w.isLt
  simp only [bigEndian, htonl, List.foldl_cons, List.foldl_nil, UInt8.toNat_ofNat']
  omega

/-- A word sent in network order is read back unchanged. -/
@[simp] theorem ntohl_htonl (w : Word) : ntohl (htonl w) = w := by
  rw [ntohl, bigEndian_htonl, BitVec.ofNat_toNat, BitVec.setWidth_eq]

/-- Four bytes in network order are what sending the word they stand for writes. -/
theorem htonl_ntohl {bytes : List UInt8} (h : bytes.length = 4) : htonl (ntohl bytes) = bytes := by
  obtain ⟨a, b, c, d, rfl⟩ : ∃ a b c d, bytes = [a, b, c, d] := by
    match bytes, h with
    | [a, b, c, d], _ => exact ⟨a, b, c, d, rfl⟩
  have ha := a.toNat_lt
  have hb := b.toNat_lt
  have hc := c.toNat_lt
  have hd := d.toNat_lt
  have hword : (ntohl [a, b, c, d]).toNat =
      ((a.toNat * 256 + b.toNat) * 256 + c.toNat) * 256 + d.toNat := by
    simp only [ntohl, bigEndian, List.foldl_cons, List.foldl_nil, BitVec.toNat_ofNat]
    omega
  simp only [htonl, hword, List.cons.injEq, and_true, ← UInt8.toNat_inj, UInt8.toNat_ofNat']
  omega

theorem toNat_setLowByte (w : Word) (b : UInt8) :
    (setLowByte w b).toNat = w.toNat / 256 * 256 + b.toNat := by
  have hw := w.isLt
  have hb := b.toNat_lt
  rw [setLowByte, BitVec.toNat_ofNat]
  omega

@[simp] theorem toNat_setLowByte_div (w : Word) (b : UInt8) :
    (setLowByte w b).toNat / 256 = w.toNat / 256 := by
  have hb := b.toNat_lt
  rw [toNat_setLowByte]
  omega

@[simp] theorem setLowByte_setLowByte (w : Word) (b b' : UInt8) :
    setLowByte (setLowByte w b) b' = setLowByte w b' := by
  have hb := b.toNat_lt
  apply BitVec.eq_of_toNat_eq
  rw [toNat_setLowByte, toNat_setLowByte, toNat_setLowByte]
  omega

end Multicast
