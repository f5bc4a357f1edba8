import Mathlib.Data.List.Flatten
import Mathlib.Algebra.BigOperators.Group.List.Basic
import Mathlib.Algebra.GroupWithZero.Nat
import TorchIpc.Base.Circular

/-! Strided views of a flat memory. A view is the list of its dimensions, each a
size and a stride; its cells are listed in row-major order of the indices. Where
every stride is the number of cells below it the view is a segment, and a view
splits at any dimension into the segments of the dimensions behind. Copying a
list of blocks from one memory to another gives every cell of the target that is
in some block the cell of the source it corresponds to, however the blocks
overlap. -/

namespace TorchIpc.Strided

open Circular

/-! ### Addresses -/

theorem length_flatMap_of_forall {α β : Type*} {f : α → List β} {m : ℕ} (xs : List α)
    (h : ∀ x ∈ xs, (f x).length = m) : (xs.flatMap f).length = xs.length * m := by
  induction xs with
  | nil => simp
  | cons x xs ih =>
    rw [List.flatMap_cons, List.length_append, h x List.mem_cons_self,
      ih fun y hy => h y (List.mem_cons_of_mem _ hy), List.length_cons, Nat.succ_mul, Nat.add_comm]

/-- The number of cells, counted with multiplicity. -/
def volume (dims : List (ℕ × ℕ)) : ℕ := (dims.map Prod.fst).prod

/-- The addresses of the cells, relative to the first one. -/
def addresses : List (ℕ × ℕ) → List ℕ
  | [] => [0]
  | (size, stride) :: dims =>
    (List.range size).flatMap fun i => (addresses dims).map (i * stride + ·)

@[simp] theorem volume_nil : volume [] = 1 := rfl

@[simp] theorem volume_cons (d : ℕ × ℕ) (dims : List (ℕ × ℕ)) :
    volume (d :: dims) = d.1 * volume dims := by
  rw [volume, List.map_cons, List.prod_cons, volume]

theorem volume_append (ds es : List (ℕ × ℕ)) : volume (ds ++ es) = volume ds * volume es := by
  rw [volume, List.map_append, List.prod_append, volume, volume]

theorem volume_pos {dims : List (ℕ × ℕ)} (h : ∀ d ∈ dims, 1 ≤ d.1) : 1 ≤ volume dims := by
  induction dims with
  | nil => exact le_rfl
  | cons d dims ih =>
    rw [volume_cons]
    exact Nat.mul_pos (h d List.mem_cons_self) (ih fun e he => h e (List.mem_cons_of_mem _ he))

theorem length_addresses (dims : List (ℕ × ℕ)) : (addresses dims).length = volume dims := by
  induction dims with
  | nil => rfl
  | cons d dims ih =>
    obtain ⟨size, stride⟩ := d
    simp [addresses, ih]

/-- The cells of a view are those of its last dimensions, from each of the cells of
the first ones on. -/
theorem addresses_append (ds es : List (ℕ × ℕ)) :
    addresses (ds ++ es) = (addresses ds).flatMap fun p => (addresses es).map (p + ·) := by
  induction ds with
  | nil => simp [addresses]
  | cons d ds ih =>
    obtain ⟨size, stride⟩ := d
    rw [List.cons_append, addresses, addresses, ih, List.flatMap_assoc]
    congr 1
    funext i
    rw [List.map_flatMap, List.flatMap_map]
    congr 1
    funext p
    rw [List.map_map]
    congr 1
    funext q
    exact (Nat.add_assoc _ _ _).symm

/-- Rows of the same length, one behind the other. -/
theorem range_mul (n m : ℕ) :
    (List.range n).flatMap (fun i => (List.range m).map (i * m + ·)) = List.range (n * m) := by
  induction n with
  | zero => simp
  | succ n ih =>
    rw [List.range_succ, List.flatMap_append, ih, List.flatMap_singleton, Nat.succ_mul,
      List.range_add]

/-- Every dimension of more than one index steps over the cells behind it. -/
def Dense : List (ℕ × ℕ) → Prop
  | [] => True
  | (size, stride) :: dims => (size ≠ 1 → stride = volume dims) ∧ Dense dims

instance decidableDense : ∀ dims, Decidable (Dense dims)
  | [] => isTrue trivial
  | (_, _) :: dims => @instDecidableAnd _ _ inferInstance (decidableDense dims)

theorem addresses_of_dense {dims : List (ℕ × ℕ)} (h : Dense dims) :
    addresses dims = List.range (volume dims) := by
  induction dims with
  | nil => rfl
  | cons d dims ih =>
    obtain ⟨size, stride⟩ := d
    rw [addresses, ih h.2, volume_cons]
    by_cases hsize : size = 1
    · subst hsize
      simp
    · rw [h.1 hsize, range_mul]

/-- Every dimension, also one of a single index, steps over the cells behind it. -/
def Packed : List (ℕ × ℕ) → Prop
  | [] => True
  | (_, stride) :: dims => stride = volume dims ∧ Packed dims

instance decidablePacked : ∀ dims, Decidable (Packed dims)
  | [] => isTrue trivial
  | (_, _) :: dims => @instDecidableAnd _ _ inferInstance (decidablePacked dims)

theorem Packed.drop {dims : List (ℕ × ℕ)} (h : Packed dims) (i : ℕ) : Packed (dims.drop i) := by
  induction dims generalizing i with
  | nil => rwa [List.drop_nil]
  | cons d dims ih =>
    cases i with
    | zero => exact h
    | succ i => exact ih h.2 i

theorem Packed.dense {dims : List (ℕ × ℕ)} (h : Packed dims) : Dense dims := by
  induction dims with
  | nil => trivial
  | cons d dims ih => exact ⟨fun _ => h.1, ih h.2⟩

def packedTail : List (ℕ × ℕ) → List (ℕ × ℕ)
  | [] => []
  | d :: dims => if Packed (d :: dims) then d :: dims else packedTail dims

theorem packedTail_of_packed {dims : List (ℕ × ℕ)} (h : Packed dims) : packedTail dims = dims := by
  cases dims with
  | nil => rfl
  | cons d dims => rw [packedTail, if_pos h]

theorem packed_packedTail (dims : List (ℕ × ℕ)) : Packed (packedTail dims) := by
  induction dims with
  | nil => trivial
  | cons d dims ih =>
    rw [packedTail]
    split_ifs with hpacked
    · exact hpacked
    · exact ih

/-- The tail ends where one more dimension would not be packed. -/
theorem packedTail_eq_drop {dims : List (ℕ × ℕ)} {i : ℕ} (h : ¬ Packed (dims.drop i))
    (h' : Packed (dims.drop (i + 1))) : packedTail dims = dims.drop (i + 1) := by
  induction dims generalizing i with
  | nil => simp [Packed] at h
  | cons d dims ih =>
    have hnot : ¬ Packed (d :: dims) := fun hpacked => h (hpacked.drop i)
    rw [packedTail, if_neg hnot]
    cases i with
    | zero => exact packedTail_of_packed h'
    | succ i => exact ih h h'

def reach (dims : List (ℕ × ℕ)) : ℕ := (dims.map fun d => (d.1 - 1) * d.2).sum

theorem reach_cons (d : ℕ × ℕ) (dims : List (ℕ × ℕ)) :
    reach (d :: dims) = (d.1 - 1) * d.2 + reach dims := by
  rw [reach, List.map_cons, List.sum_cons, reach]

theorem le_reach {dims : List (ℕ × ℕ)} {a : ℕ} (h : a ∈ addresses dims) : a ≤ reach dims := by
  induction dims generalizing a with
  | nil =>
    rw [addresses, List.mem_singleton] at h
    omega
  | cons d dims ih =>
    obtain ⟨size, stride⟩ := d
    rw [addresses, List.mem_flatMap] at h
    obtain ⟨i, hi, h⟩ := h
    rw [List.mem_map] at h
    obtain ⟨b, hb, rfl⟩ := h
    rw [List.mem_range] at hi
    rw [reach_cons]
    exact Nat.add_le_add (Nat.mul_le_mul_right stride (by omega)) (ih hb)

/-- The cells of a dense view lie in its segment. -/
theorem volume_le_reach {dims : List (ℕ × ℕ)} (h : Dense dims) : volume dims ≤ reach dims + 1 := by
  by_contra hlt
  have hmem : reach dims + 1 ∈ addresses dims := by
    rw [addresses_of_dense h, List.mem_range]
    omega
  have := le_reach hmem
  omega

/-! ### Copying blocks -/

section
variable {α : Type*}

def slice (xs : List α) (p n : ℕ) : List α := (xs.drop p).take n

theorem length_slice {xs : List α} {p n : ℕ} (h : p + n ≤ xs.length) :
    (slice xs p n).length = n := by
  rw [slice, List.length_take, List.length_drop]
  omega

theorem slice_getElem? (xs : List α) (p : ℕ) {n k : ℕ} (hk : k < n) :
    (slice xs p n)[k]? = xs[p + k]? := by
  rw [slice, List.getElem?_take_of_lt hk, List.getElem?_drop]

theorem slice_ext {xs ys : List α} {p q n : ℕ} (h : ∀ k < n, xs[p + k]? = ys[q + k]?) :
    slice xs p n = slice ys q n := by
  apply List.ext_getElem?
  intro k
  by_cases hk : k < n
  · rw [slice_getElem? _ _ hk, slice_getElem? _ _ hk, h k hk]
  · rw [slice, slice, List.getElem?_eq_none (by rw [List.length_take]; omega),
      List.getElem?_eq_none (by rw [List.length_take]; omega)]

theorem slice_add (xs : List α) (p n m : ℕ) :
    slice xs p (n + m) = slice xs p n ++ slice xs (p + n) m := by
  rw [slice, List.take_add, List.drop_drop, slice, slice]

/-- A block of `n` elements of width `w`, element by element. -/
theorem slice_mul (xs : List α) (w p n : ℕ) :
    slice xs (w * p) (w * n) = (List.range n).flatMap fun q => slice xs (w * (p + q)) w := by
  induction n with
  | zero => simp [slice]
  | succ n ih =>
    rw [Nat.mul_succ, slice_add, ih, List.range_succ, List.flatMap_append, List.flatMap_singleton,
      Nat.mul_add]

/-- Copy the blocks of `n` cells at the positions `ps`, which are relative to `s` in
the source and to `d` in the target. -/
def copyBlocks (n s d : ℕ) (src : List α) (ps : List ℕ) (dst : List α) : List α :=
  ps.foldl (fun dst p => blit dst (d + p) (slice src (s + p) n)) dst

variable {n s d : ℕ} {src : List α}

theorem copyBlocks_zero (s d : ℕ) (src : List α) (ps : List ℕ) (dst : List α) :
    copyBlocks 0 s d src ps dst = dst := by
  induction ps with
  | nil => rfl
  | cons p ps ih =>
    have hblit : blit dst (d + p) (slice src (s + p) 0) = dst := by simp [blit, slice]
    rw [copyBlocks, List.foldl_cons, hblit]
    exact ih

theorem copyBlocks_spec (ps : List ℕ) (dst : List α) (hs : ∀ p ∈ ps, s + p + n ≤ src.length)
    (hd : ∀ p ∈ ps, d + p + n ≤ dst.length) :
    (copyBlocks n s d src ps dst).length = dst.length ∧
    ∀ j, ((∃ p ∈ ps, d + p ≤ j ∧ j < d + p + n) →
        (copyBlocks n s d src ps dst)[j]? = src[s + (j - d)]?) ∧
      ((∀ p ∈ ps, ¬ (d + p ≤ j ∧ j < d + p + n)) →
        (copyBlocks n s d src ps dst)[j]? = dst[j]?) := by
  induction ps generalizing dst with
  | nil => exact ⟨rfl, fun j => ⟨fun ⟨_, h, _⟩ => by simp at h, fun _ => rfl⟩⟩
  | cons p ps ih =>
    have hlen := length_slice (hs p List.mem_cons_self)
    have hfit : d + p + (slice src (s + p) n).length ≤ dst.length := by
      rw [hlen]
      exact hd p List.mem_cons_self
    have hblit := length_blit dst (slice src (s + p) n) (d + p) hfit
    obtain ⟨hl, hj⟩ := ih (blit dst (d + p) (slice src (s + p) n))
      (fun q hq => hs q (List.mem_cons_of_mem _ hq))
      (fun q hq => by rw [hblit]; exact hd q (List.mem_cons_of_mem _ hq))
    refine ⟨hl.trans hblit, fun j => ?_⟩
    have hcell := blit_getElem? hfit j
    rw [hlen] at hcell
    -- a cell of this block keeps what it gets here unless a later block covers it too
    by_cases hlater : ∃ q ∈ ps, d + q ≤ j ∧ j < d + q + n
    · refine ⟨fun _ => (hj j).1 hlater, fun hout => ?_⟩
      obtain ⟨q, hq, hin⟩ := hlater
      exact absurd hin (hout q (List.mem_cons_of_mem _ hq))
    · have hkeep := (hj j).2 fun q hq hin => hlater ⟨q, hq, hin⟩
      refine ⟨fun ⟨q, hq, hin⟩ => ?_, fun hout => ?_⟩
      · obtain rfl : q = p :=
          (List.mem_cons.mp hq).resolve_right fun hq => hlater ⟨q, hq, hin⟩
        refine hkeep.trans (hcell.trans ?_)
        rw [if_pos hin, slice_getElem? _ _ (by omega)]
        congr 1
        omega
      · refine hkeep.trans (hcell.trans ?_)
        rw [if_neg (hout p List.mem_cons_self)]

/-- The same for blocks of `n` elements of width `w`: the elements of the blocks are
copied, and the others stay. -/
theorem copyBlocks_elements (w : ℕ) (src : List α) (ps : List ℕ) (dst : List α)
    (hs : ∀ p ∈ ps, w * (s + p + n) ≤ src.length) (hd : ∀ p ∈ ps, w * (d + p + n) ≤ dst.length) :
    (copyBlocks (w * n) (w * s) (w * d) src (ps.map (w * ·)) dst).length = dst.length ∧
    (∀ p ∈ ps, ∀ q < n,
      slice (copyBlocks (w * n) (w * s) (w * d) src (ps.map (w * ·)) dst) (w * (d + (p + q))) w =
        slice src (w * (s + (p + q))) w) ∧
    ∀ j, (∀ p ∈ ps, ∀ q < n, j ≠ d + (p + q)) →
      slice (copyBlocks (w * n) (w * s) (w * d) src (ps.map (w * ·)) dst) (w * j) w =
        slice dst (w * j) w := by
  obtain ⟨hlen, hcell⟩ := copyBlocks_spec (n := w * n) (s := w * s) (d := w * d) (ps.map (w * ·)) dst
    (fun p hp => by
      obtain ⟨q, hq, rfl⟩ := List.mem_map.mp hp
      rw [← Nat.mul_add, ← Nat.mul_add]
      exact hs q hq)
    (fun p hp => by
      obtain ⟨q, hq, rfl⟩ := List.mem_map.mp hp
      rw [← Nat.mul_add, ← Nat.mul_add]
      exact hd q hq)
  refine ⟨hlen, fun p hp q hq => slice_ext fun k hk => ?_, fun j hj => slice_ext fun k hk => ?_⟩
  · have hq' : w * (q + 1) ≤ w * n := Nat.mul_le_mul_left w hq
    simp only [Nat.mul_add, Nat.mul_one] at hq' ⊢
    rw [(hcell _).1 ⟨w * p, List.mem_map_of_mem hp, by omega, by omega⟩]
    congr 1
    omega
  · refine (hcell _).2 fun wp hwp hin => ?_
    obtain ⟨p, hp, rfl⟩ := List.mem_map.mp hwp
    simp only [← Nat.mul_add] at hin
    -- the element that holds this cell is one of the block
    have hle : d + p ≤ j := by
      by_contra hlt
      have := Nat.mul_le_mul_left w (show j + 1 ≤ d + p by omega)
      rw [Nat.mul_add, Nat.mul_one] at this
      omega
    have hlt : j < d + p + n := by
      by_contra hge
      have := Nat.mul_le_mul_left w (not_lt.mp hge)
      omega
    exact hj p hp (j - (d + p)) (by omega) (by omega)

end

end TorchIpc.Strided
