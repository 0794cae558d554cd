import EltexSystems.Lib.Bytes
import EltexSystems.Lib.OnesComplement

/-!
# The checksums of `echo_raw/src/checksum.c`

`rawudpChecksum16` and `rawudpUdpChecksum` as the library computes them, in a 32-bit accumulator
whose carries are folded back at the end.  `words` and `onesSum` are the RFC's side: the bytes read
as big-endian 16-bit words, an odd last byte padded with zero, added with end-around carry.
-/

namespace EltexSystems

open Mem

/-- The summing loop: pairs while `len > 1`, then an odd last byte. -/
def sumLoop (sum : UInt32) : List UInt8 → UInt32
  | a :: b :: p => sumLoop (sum + (be16 a b).toUInt32) p
  | [a] => sum + (a.toUInt16 <<< 8).toUInt32
  | [] => sum

theorem toNat_shiftRight_16 (sum : UInt32) : (sum >>> 16).toNat = sum.toNat / 65536 := by
  simp [Nat.shiftRight_eq_div_pow]

theorem toNat_foldBody (sum : UInt32) :
    ((sum &&& (0xFFFF : UInt32)) + (sum >>> 16)).toNat
      = OnesComplement.foldOnce 65536 sum.toNat := by
  have hs := sum.toNat_lt
  have hand : sum.toNat &&& 65535 = sum.toNat % 65536 := Nat.and_two_pow_sub_one_eq_mod _ 16
  rw [UInt32.toNat_add, UInt32.toNat_and, toNat_shiftRight_16, UInt32.toNat_ofNat,
    Nat.mod_eq_of_lt (by omega : 65535 < 2 ^ 32), hand, OnesComplement.foldOnce]
  omega

/-- `while (sum >> 16) sum = (sum & 0xFFFFu) + (sum >> 16);` -/
def foldLoop (sum : UInt32) : UInt32 :=
  if sum >>> 16 = 0 then sum else foldLoop ((sum &&& (0xFFFF : UInt32)) + (sum >>> 16))
termination_by sum.toNat
decreasing_by
  rename_i hn
  have hne : sum.toNat / 65536 ≠ 0 := fun h =>
    hn (UInt32.toNat_inj.mp (by rw [toNat_shiftRight_16, h]; rfl))
  rw [toNat_foldBody]
  exact OnesComplement.foldOnce_lt (by omega) (by omega)

def rawudpChecksum16 (data : List UInt8) : UInt16 := ~~~(foldLoop (sumLoop 0 data)).toUInt16

/-- The bytes of `struct pseudo`: the addresses as they lie in memory, zero, the protocol and the
length in network order. -/
def pseudo (src dst : UInt32) (udpLen : ℕ) : List UInt8 :=
  le32 src ++ le32 dst ++ [0, 17] ++ le16 (htons (UInt16.ofNat udpLen))

/-- `rawudp_udp_checksum` of the segment `udp`, its header and data. -/
def rawudpUdpChecksum (src dst : UInt32) (udp : List UInt8) : UInt16 :=
  let c1 := rawudpChecksum16 (pseudo src dst udp.length)
  let sum := foldLoop (sumLoop (0 + (~~~c1).toUInt32) udp)
  let res := ~~~sum.toUInt16
  if res = 0 then 0xFFFF else res

/-- The bytes as big-endian words. -/
def words : List UInt8 → List ℕ
  | a :: b :: p => (256 * a.toNat + b.toNat) :: words p
  | [a] => [256 * a.toNat]
  | [] => []

/-- The one's complement sum of the bytes as 16-bit words. -/
def onesSum (p : List UInt8) : ℕ := OnesComplement.eacSum 65536 (words p)

/-- The plain sum of the bytes as 16-bit words. -/
def wordSum (p : List UInt8) : ℕ := (words p).sum

end EltexSystems
