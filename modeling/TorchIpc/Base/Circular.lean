import Mathlib.Data.List.Rotate

/-! Circular windows of a list. A window of length `n` starting at `p` reads
the cells `p, p + 1, …` of a fixed block and continues at cell `0` after the
last one. A copy into the block that does not touch a window leaves it alone,
and a copy placed right behind a window extends it. Nothing here depends on
what the cells hold. -/

namespace TorchIpc.Circular

variable {α : Type*}

/-- `n` cells from position `p` on, wrapping at the end of the block. -/
def window (buf : List α) (p n : ℕ) : List α := (buf.rotate p).take n

/-- Overwrite the cells from `pos` on by `src`. -/
def blit (dst : List α) (pos : ℕ) (src : List α) : List α :=
  dst.take pos ++ src ++ dst.drop (pos + src.length)

theorem add_mod_cases {cb p k : ℕ} (hp : p < cb) (hk : k ≤ cb) :
    p + k < cb ∧ (p + k) % cb = p + k ∨ cb ≤ p + k ∧ (p + k) % cb = p + k - cb := by
  by_cases h : p + k < cb
  · exact .inl ⟨h, Nat.mod_eq_of_lt h⟩
  · refine .inr ⟨by omega, ?_⟩
    rw [Nat.mod_eq_sub_mod (by omega), Nat.mod_eq_of_lt (by omega)]

@[simp] theorem length_window (buf : List α) (p n : ℕ) :
    (window buf p n).length = min n buf.length := by
  simp [window]

@[simp] theorem length_blit (dst src : List α) (pos : ℕ) (h : pos + src.length ≤ dst.length) :
    (blit dst pos src).length = dst.length := by
  simp only [blit, List.length_append, List.length_take, List.length_drop]
  omega

theorem window_getElem? {buf : List α} {p n k : ℕ} (hn : n ≤ buf.length) (hk : k < n) :
    (window buf p n)[k]? = buf[(p + k) % buf.length]? := by
  have hk' : k < (buf.rotate p).length := by rw [List.length_rotate]; omega
  have hm : (p + k) % buf.length < buf.length := Nat.mod_lt _ (by omega)
  rw [window, List.getElem?_take_of_lt hk, List.getElem?_eq_getElem hk', List.getElem_rotate,
    List.getElem?_eq_getElem hm]
  simp only [Nat.add_comm]

theorem blit_getElem? {dst src : List α} {pos : ℕ} (h : pos + src.length ≤ dst.length) (j : ℕ) :
    (blit dst pos src)[j]? = if pos ≤ j ∧ j < pos + src.length then src[j - pos]? else dst[j]? := by
  have ht : (dst.take pos).length = pos := by rw [List.length_take]; omega
  unfold blit
  rw [List.append_assoc]
  by_cases h1 : j < pos
  · rw [List.getElem?_append_left (by omega), List.getElem?_take_of_lt h1, if_neg (by omega)]
  · rw [List.getElem?_append_right (by omega), ht]
    by_cases h2 : j < pos + src.length
    · rw [List.getElem?_append_left (by omega), if_pos ⟨by omega, h2⟩]
    · rw [List.getElem?_append_right (by omega), List.getElem?_drop, if_neg (by omega)]
      congr 1
      omega

/-- Two windows of the same block agree when their cells do. -/
theorem window_ext {buf : List α} {p n : ℕ} {xs : List α} (hn : n ≤ buf.length)
    (hl : xs.length = n) (h : ∀ k < n, buf[(p + k) % buf.length]? = xs[k]?) :
    window buf p n = xs := by
  apply List.ext_getElem?
  intro k
  by_cases hk : k < n
  · rw [window_getElem? hn hk, h k hk]
  · rw [List.getElem?_eq_none (by simp; omega), List.getElem?_eq_none (by omega)]

/-- A shorter window with the same start is a prefix. -/
theorem take_window (buf : List α) (p : ℕ) {m n : ℕ} (h : m ≤ n) :
    (window buf p n).take m = window buf p m := by
  rw [window, List.take_take, Nat.min_eq_left h, window]

/-- Dropping from the front moves the start of a window. -/
theorem drop_window (buf : List α) (p : ℕ) {m n : ℕ} (h : m ≤ n) (hn : n ≤ buf.length) :
    (window buf p n).drop m = window buf ((p + m) % buf.length) (n - m) := by
  symm
  apply window_ext (by omega)
  · simp only [List.length_drop, length_window]
    omega
  · intro k hk
    rw [List.getElem?_drop, window_getElem? hn (by omega), Nat.mod_add_mod, Nat.add_assoc]

/-- A window that does not reach the end of the block is a plain slice. -/
theorem window_slice {buf : List α} {p n : ℕ} (h : p + n ≤ buf.length) :
    window buf p n = (buf.drop p).take n := by
  rw [window, List.rotate_eq_drop_append_take (by omega), List.take_append_of_le_length]
  rw [List.length_drop]
  omega

/-- A window that wraps is a slice up to the end followed by one from the start. -/
theorem window_wrap {buf : List α} {p n : ℕ} (hp : p ≤ buf.length) (h : buf.length ≤ p + n)
    (hn : n ≤ buf.length) :
    window buf p n = buf.drop p ++ buf.take (p + n - buf.length) := by
  have hl : (buf.drop p).length = buf.length - p := List.length_drop
  rw [window, List.rotate_eq_drop_append_take hp, List.take_append, hl,
    List.take_of_length_le (by omega), List.take_take]
  congr 2
  omega

/-- One copy right behind a window extends it, when the copy does not wrap. -/
theorem window_blit (buf xs : List α) {p n w : ℕ} (hp : p < buf.length)
    (hroom : n + xs.length ≤ buf.length) (hw : w = (p + n) % buf.length)
    (hfit : w + xs.length ≤ buf.length) :
    window (blit buf w xs) p (n + xs.length) = window buf p n ++ xs := by
  have hlen : (blit buf w xs).length = buf.length := length_blit _ _ _ hfit
  have hwin : (window buf p n).length = n := by rw [length_window]; omega
  apply window_ext (by omega)
  · rw [List.length_append, hwin]
  intro k hk
  rw [hlen, blit_getElem? hfit]
  -- where the window ends and where its `k`-th cell lies, each wrapped at most once
  have hwp := add_mod_cases hp (show n ≤ buf.length by omega)
  have hkp := add_mod_cases hp (show k ≤ buf.length by omega)
  by_cases hold : k < n
  · rw [List.getElem?_append_left (by omega), window_getElem? (by omega) hold,
      if_neg (by omega)]
  · rw [List.getElem?_append_right (by omega), hwin]
    by_cases hx : xs.length = 0
    · omega
    · rw [if_pos (by omega)]
      congr 1
      omega

end TorchIpc.Circular
