import Mathlib.Data.List.Basic
import Mathlib.Tactic

/-! Fixed-width machine words as little-endian byte lists, the way a `memcpy` of
the word stores them: a natural number below `256 ^ w` and its `w` bytes, and
the two's complement reading of a signed word. -/

namespace TorchIpc.Words

def leBytes : ℕ → ℕ → List UInt8
  | 0, _ => []
  | w + 1, n => UInt8.ofNat (n % 256) :: leBytes w (n / 256)

def leVal : List UInt8 → ℕ
  | [] => 0
  | b :: bs => b.toNat + 256 * leVal bs

@[simp] theorem length_leBytes (w n : ℕ) : (leBytes w n).length = w := by
  induction w generalizing n with
  | zero => rfl
  | succ w ih => simp [leBytes, ih]

theorem leVal_leBytes {w n : ℕ} (h : n < 256 ^ w) : leVal (leBytes w n) = n := by
  induction w generalizing n with
  | zero =>
    rw [pow_zero] at h
    simp only [leBytes, leVal]
    omega
  | succ w ih =>
    have hb : (UInt8.ofNat (n % 256)).toNat = n % 256 := by
      rw [UInt8.toNat_ofNat']
      omega
    have hq : n / 256 < 256 ^ w := by
      rw [Nat.div_lt_iff_lt_mul (by decide), ← pow_succ]
      exact h
    simp only [leBytes, leVal, hb, ih hq]
    omega

theorem leBytes_leVal (bs : List UInt8) : leBytes bs.length (leVal bs) = bs := by
  induction bs with
  | nil => rfl
  | cons b bs ih =>
    have hb := b.toNat_lt
    have hlow : (b.toNat + 256 * leVal bs) % 256 = b.toNat := by omega
    have hhigh : (b.toNat + 256 * leVal bs) / 256 = leVal bs := by omega
    rw [List.length_cons, leBytes, leVal, hlow, hhigh, ih, UInt8.ofNat_toNat]

theorem leVal_lt (bs : List UInt8) : leVal bs < 256 ^ bs.length := by
  induction bs with
  | nil => exact Nat.one_pos
  | cons b bs ih =>
    have hb := b.toNat_lt
    rw [leVal, List.length_cons, pow_succ]
    omega

def intBytes (i : ℤ) : List UInt8 := leBytes 4 (i % 2 ^ 32).toNat

def intVal (bs : List UInt8) : ℤ :=
  let n := leVal bs
  if n < 2 ^ 31 then n else n - 2 ^ 32

@[simp] theorem length_intBytes (i : ℤ) : (intBytes i).length = 4 := length_leBytes 4 _

theorem intVal_intBytes {i : ℤ} (h1 : -2 ^ 31 ≤ i) (h2 : i < 2 ^ 31) : intVal (intBytes i) = i := by
  have hlt : (i % 2 ^ 32).toNat < 256 ^ 4 := by
    have := Int.emod_lt_of_pos i (show (0 : ℤ) < 2 ^ 32 by decide)
    have := Int.emod_nonneg i (show (2 : ℤ) ^ 32 ≠ 0 by decide)
    omega
  rw [intVal, intBytes, leVal_leBytes hlt]
  split_ifs <;> omega

def wordBytes (n : UInt64) : List UInt8 := leBytes 8 n.toNat

def wordVal (bs : List UInt8) : UInt64 := UInt64.ofNat (leVal bs)

@[simp] theorem length_wordBytes (n : UInt64) : (wordBytes n).length = 8 := length_leBytes 8 _

@[simp] theorem wordVal_wordBytes (n : UInt64) : wordVal (wordBytes n) = n := by
  rw [wordVal, wordBytes, leVal_leBytes (by have := n.toNat_lt; omega), UInt64.ofNat_toNat]

end TorchIpc.Words
