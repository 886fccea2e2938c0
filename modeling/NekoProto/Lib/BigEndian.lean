import Mathlib.Algebra.Order.Ring.Nat
import Mathlib.Tactic.Ring
import Mathlib.Tactic.Common

/-!
# Big-endian numbers

A number as `n` bytes, most significant first. `toBytes n` keeps the number modulo `256 ^ n`, and
is inverted by `ofBytes` in both directions (`ofBytes_toBytes`, `toBytes_ofBytes`).
-/

namespace BigEndian

/-- The `n` low bytes of `v`, most significant first. -/
def toBytes : ℕ → ℕ → List UInt8
  | 0, _ => []
  | n + 1, v => UInt8.ofNat (v / 256 ^ n) :: toBytes n v

/-- The number whose bytes, after those of `acc`, are the given ones. -/
def ofBytesFrom (acc : ℕ) : List UInt8 → ℕ
  | [] => acc
  | b :: bs => ofBytesFrom (acc * 256 + b.toNat) bs

/-- The number with the given bytes. -/
def ofBytes (bs : List UInt8) : ℕ := ofBytesFrom 0 bs

@[simp] theorem length_toBytes (n v : ℕ) : (toBytes n v).length = n := by
  induction n with
  | zero => rfl
  | succ n ih => rw [toBytes, List.length_cons, ih]

theorem ofBytesFrom_eq (bs : List UInt8) : ∀ acc,
    ofBytesFrom acc bs = acc * 256 ^ bs.length + ofBytes bs := by
  induction bs with
  | nil => intro acc; simp [ofBytesFrom, ofBytes]
  | cons b bs ih =>
    intro acc
    rw [ofBytes, ofBytesFrom, ofBytesFrom, ih, ih (0 * 256 + b.toNat), List.length_cons]
    ring

theorem ofBytes_cons (b : UInt8) (bs : List UInt8) :
    ofBytes (b :: bs) = b.toNat * 256 ^ bs.length + ofBytes bs := by
  rw [ofBytes, ofBytesFrom, ofBytesFrom_eq]
  ring

theorem ofBytes_lt (bs : List UInt8) : ofBytes bs < 256 ^ bs.length := by
  induction bs with
  | nil => exact Nat.one_pos
  | cons b bs ih =>
    have hb : b.toNat + 1 ≤ 256 := b.toNat_lt
    calc ofBytes (b :: bs) = b.toNat * 256 ^ bs.length + ofBytes bs := ofBytes_cons b bs
      _ < b.toNat * 256 ^ bs.length + 256 ^ bs.length := by omega
      _ = (b.toNat + 1) * 256 ^ bs.length := by ring
      _ ≤ 256 * 256 ^ bs.length := Nat.mul_le_mul_right _ hb
      _ = 256 ^ (b :: bs).length := by rw [List.length_cons]; ring

/-- Reading back what was written gives the number modulo the width. -/
theorem ofBytes_toBytes (n v : ℕ) : ofBytes (toBytes n v) = v % 256 ^ n := by
  induction n with
  | zero => simp [toBytes, ofBytes, ofBytesFrom, Nat.mod_one]
  | succ n ih =>
    have hbyte : (UInt8.ofNat (v / 256 ^ n)).toNat = v / 256 ^ n % 256 := UInt8.toNat_ofNat'
    rw [toBytes, ofBytes_cons, ih, length_toBytes, hbyte, Nat.pow_succ, Nat.mod_mul]
    ring

theorem ofBytes_toBytes_of_lt {n v : ℕ} (h : v < 256 ^ n) : ofBytes (toBytes n v) = v := by
  rw [ofBytes_toBytes, Nat.mod_eq_of_lt h]

theorem ofBytes_injective : ∀ {as bs : List UInt8}, as.length = bs.length →
    ofBytes as = ofBytes bs → as = bs
  | [], [], _, _ => rfl
  | a :: as, b :: bs, hlen, h => by
    have hlen' : as.length = bs.length := by simpa using hlen
    rw [ofBytes_cons, ofBytes_cons, ← hlen'] at h
    have hlt : ofBytes bs < 256 ^ as.length := hlen' ▸ ofBytes_lt bs
    have hpos : 0 < 256 ^ as.length := Nat.pow_pos (by omega)
    have hhead : a.toNat = b.toNat := by
      have := congrArg (· / 256 ^ as.length) h
      simpa only [Nat.mul_comm, Nat.mul_add_div hpos, Nat.div_eq_of_lt (ofBytes_lt as),
        Nat.div_eq_of_lt hlt, Nat.add_zero] using this
    rw [UInt8.toNat_inj.mp hhead] at h ⊢
    rw [ofBytes_injective hlen' (Nat.add_left_cancel h)]

/-- Writing back what was read gives the bytes. -/
theorem toBytes_ofBytes (bs : List UInt8) : toBytes bs.length (ofBytes bs) = bs :=
  ofBytes_injective (length_toBytes _ _) (ofBytes_toBytes_of_lt (ofBytes_lt bs))

end BigEndian
