import TorchIpc.Base.Streams
import TorchIpc.Cliser.Tensor

/-! The transfers of a CUDA build without the fast path (`generic/cliser.c`). The elements of
a device go through a buffer of two halves: while one half is copied from or to the device,
the socket works on the other. Every run sends or stores the bytes that a transfer in one
piece sends or stores. -/

namespace TorchIpc.Cuda

open Streams Cliser

def CUDA_BLOCK_SIZE : ℕ := 512 * 1024

def cudaBlockCount (T : ElementType) : ℕ := CUDA_BLOCK_SIZE / T.elementSize

/-- A byte of the device's memory, or of the block that `init_copy_context` allocates. -/
inductive Cell where
  | device (address : ℕ)
  | host (offset : ℕ)
  deriving Repr, DecidableEq

abbrev Command : Type := Cmd Cell UInt8 Socket SockError

def device (ptr i : ℕ) : Cell := .device (ptr + i)

def buf (which : Bool) (i : ℕ) : Cell := .host ((if which then CUDA_BLOCK_SIZE else 0) + i)

def blockMoves (dst src : ℕ → Cell) (n : ℕ) : List (Cell × Cell) :=
  (List.range n).map fun i => (src i, dst i)

def memcpyAsync (dst src : ℕ → Cell) (n : ℕ) : Command := .copyAsync (blockMoves dst src n)

/-- The program goes on after a send that returns, and leaves with the error of one that fails. -/
def ofSend : Except SockError Unit × Socket → Except SockError Socket
  | (.ok _, sock) => .ok sock
  | (.error e, _) => .error e

def ofRecv : Except SockError (List UInt8) × Socket → Except SockError (List UInt8 × Socket)
  | (.ok bs, sock) => .ok (bs, sock)
  | (.error e, _) => .error e

def sendRaw (ptr : ℕ → Cell) (n : ℕ) : Command :=
  .get ((List.range n).map ptr) fun bs sock => ofSend (sockSendRaw bs sock)

def recvRaw (ptr : ℕ → Cell) (n : ℕ) : Command :=
  .put ((List.range n).map ptr) fun sock => (sockRecvRaw n sock).map ofRecv

section
variable (T : ElementType)

/-- `cb` of both loops, for what is left of `count`. -/
def nextBlock (count : ℕ) : ℕ := if cudaBlockCount T < count then cudaBlockCount T else count

def writeLast (which : Bool) (lastCb : ℕ) : List Command :=
  if 0 < lastCb then [.synchronize, sendRaw (buf !which) (lastCb * T.elementSize)] else []

/-- The loop of `write_contiguous`; every round takes an element. -/
def writeBlocks : ℕ → ℕ → ℕ → Bool → ℕ → List Command
  | 0, _, _, which, lastCb => writeLast T which lastCb
  | fuel + 1, count, ptr, which, lastCb =>
    if 0 < count then
      let cb := nextBlock T count
      (if 0 < lastCb then [.synchronize] else []) ++
        ([memcpyAsync (buf which) (device ptr) (cb * T.elementSize), .record] ++
          ((if 0 < lastCb then [sendRaw (buf !which) (lastCb * T.elementSize)] else []) ++
            writeBlocks fuel (count - cb) (ptr + cb * T.elementSize) (!which) cb))
    else writeLast T which lastCb

def writeContiguous (ptr count : ℕ) : List Command := writeBlocks T count count ptr false 0

def readLast (ptr : ℕ) (which : Bool) (lastCb : ℕ) : List Command :=
  if 0 < lastCb then
    [.synchronize, memcpyAsync (device ptr) (buf !which) (lastCb * T.elementSize), .finish]
  else []

def readBlocks : ℕ → ℕ → ℕ → Bool → ℕ → List Command
  | 0, _, ptr, which, lastCb => readLast T ptr which lastCb
  | fuel + 1, count, ptr, which, lastCb =>
    if 0 < count then
      let cb := nextBlock T count
      (if 0 < lastCb then
        [.synchronize, memcpyAsync (device ptr) (buf !which) (lastCb * T.elementSize), .record]
      else []) ++
        (recvRaw (buf which) (cb * T.elementSize) ::
          readBlocks fuel (count - cb) (if 0 < lastCb then ptr + lastCb * T.elementSize else ptr)
            (!which) cb)
    else readLast T ptr which lastCb

def readContiguous (ptr count : ℕ) : List Command :=
  (if 0 < count then [.record] else []) ++ readBlocks T count count ptr false 0

end

/-! ### Memory -/

def bytes (mem : Cell → UInt8) (ptr : ℕ → Cell) (n : ℕ) : List UInt8 :=
  (List.range n).map fun i => mem (ptr i)

section
variable {T : ElementType} {mem : Cell → UInt8} {ptr dst src : ℕ → Cell} {n : ℕ}

theorem length_bytes : (bytes mem ptr n).length = n := by
  rw [bytes, List.length_map, List.length_range]

theorem map_range_map (mem : Cell → UInt8) (ptr : ℕ → Cell) (n : ℕ) :
    ((List.range n).map ptr).map mem = bytes mem ptr n := List.map_map

theorem bytes_congr {mem' : Cell → UInt8} {ptr' : ℕ → Cell} (h : ∀ i < n, mem (ptr i) = mem' (ptr' i)) :
    bytes mem ptr n = bytes mem' ptr' n :=
  List.map_congr_left fun i hi => h i (List.mem_range.mp hi)

theorem bytes_device_add (p m n : ℕ) :
    bytes mem (device p) (m + n) = bytes mem (device p) m ++ bytes mem (device (p + m)) n := by
  simp only [bytes, List.range_add, List.map_append, List.map_map, device, Function.comp_def, Nat.add_assoc]

theorem device_injective (p : ℕ) : Function.Injective (device p) := fun i j h => by
  simpa [device] using h

theorem buf_injective (which : Bool) : Function.Injective (buf which) := fun i j h => by
  simpa [buf] using h

theorem device_ne_buf (p i j : ℕ) (which : Bool) : device p i ≠ buf which j := by simp [device, buf]

theorem buf_ne_buf {which : Bool} {i j : ℕ} (hi : i < CUDA_BLOCK_SIZE) (hj : j < CUDA_BLOCK_SIZE) :
    buf which i ≠ buf (!which) j := by
  intro h
  cases which
  · simp [buf] at h
    omega
  · simp [buf] at h
    omega

theorem block_le {cb : ℕ} (h : cb ≤ cudaBlockCount T) : cb * T.elementSize ≤ CUDA_BLOCK_SIZE :=
  (Nat.mul_le_mul_right _ h).trans (Nat.div_mul_le_self _ _)

theorem cudaBlockCount_pos (T : ElementType) : 0 < cudaBlockCount T := by
  cases T <;> norm_num [cudaBlockCount, CUDA_BLOCK_SIZE, ElementType.elementSize]

/-- A block has an element and fits into half of the buffer. -/
theorem nextBlock_spec (T : ElementType) {count : ℕ} (h : 0 < count) :
    0 < nextBlock T count ∧ nextBlock T count ≤ cudaBlockCount T ∧ nextBlock T count ≤ count := by
  have := cudaBlockCount_pos T
  rw [nextBlock]
  split_ifs
  · omega
  · omega

theorem nextBlock_split (T : ElementType) {count : ℕ} (h : 0 < count) : count * T.elementSize =
    nextBlock T count * T.elementSize + (count - nextBlock T count) * T.elementSize := by
  rw [← Nat.add_mul, Nat.add_sub_cancel' (nextBlock_spec T h).2.2]

theorem writeBlocks_zero (fuel ptr : ℕ) (which : Bool) (cb : ℕ) :
    writeBlocks T fuel 0 ptr which cb = writeLast T which cb := by
  cases fuel with
  | zero => rfl
  | succ fuel => rw [writeBlocks, if_neg (lt_irrefl 0)]

theorem readBlocks_zero (fuel ptr : ℕ) (which : Bool) (cb : ℕ) :
    readBlocks T fuel 0 ptr which cb = readLast T ptr which cb := by
  cases fuel with
  | zero => rfl
  | succ fuel => rw [readBlocks, if_neg (lt_irrefl 0)]

theorem exclusive_blockMoves (hdst : Function.Injective dst) (hapart : ∀ i j, src i ≠ dst j) :
    Exclusive ((blockMoves dst src n).map issued) where
  nodup := by
    rw [blockMoves, List.map_map, List.map_map]
    exact List.nodup_range.map hdst
  apart := by
    simp only [blockMoves, List.map_map, List.mem_map, forall_exists_index, and_imp]
    rintro m i - rfl m' j - rfl
    exact hapart i j

theorem bytes_copyCells (hdst : Function.Injective dst) (hapart : ∀ i j, src i ≠ dst j) :
    bytes (copyCells (blockMoves dst src n) mem) dst n = bytes mem src n := by
  have hmap := map_copyCells (exclusive_blockMoves (n := n) hdst hapart) mem
  simpa only [blockMoves, bytes, List.map_map, Function.comp_def] using hmap

theorem copyCells_blockMoves_other {c : Cell} (h : ∀ i < n, c ≠ dst i) :
    copyCells (blockMoves dst src n) mem c = mem c := by
  refine copyCells_other fun hmem => ?_
  simp only [blockMoves, List.map_map, List.mem_map, List.mem_range] at hmem
  obtain ⟨i, hi, rfl⟩ := hmem
  exact h i hi rfl

end

/-! ### Without a device -/

section
variable {T : ElementType}

@[simp]
theorem sequential_synchronize {σ ε : Type} {p : Prop} [Decidable p] {cs : List (Cmd Cell UInt8 σ ε)}
    (mem : Cell → UInt8) (s : σ) :
    sequential ((if p then [.synchronize] else []) ++ cs) mem s = sequential cs mem s := by
  split_ifs <;> rfl

theorem block_lt {cb : ℕ} (h : cb ≤ cudaBlockCount T) : cb * T.elementSize < 2 ^ 31 :=
  (block_le h).trans_lt (by norm_num [CUDA_BLOCK_SIZE])

theorem sequential_send (cs : List Command) (which : Bool) {cb : ℕ} (h : cb ≤ cudaBlockCount T)
    (mem : Cell → UInt8) (sock : Socket) :
    ∃ calls, sequential ((if 0 < cb then [sendRaw (buf which) (cb * T.elementSize)] else []) ++ cs) mem sock =
      sequential cs mem
        { sock with sent := sock.sent ++ bytes mem (buf which) (cb * T.elementSize), calls := calls } := by
  split_ifs with hpos
  · have hlen : (bytes mem (buf which) (cb * T.elementSize)).length < 2 ^ 31 := by
      rw [length_bytes]
      exact block_lt h
    obtain ⟨calls, hsend⟩ := sockSendRaw_eq hlen sock
    exact ⟨calls, sequential_get (by rw [map_range_map, hsend, ofSend])⟩
  · obtain rfl : cb = 0 := by omega
    refine ⟨sock.calls, ?_⟩
    rw [Nat.zero_mul]
    simp [bytes]

theorem sequential_writeLast (which : Bool) {cb : ℕ} (h : cb ≤ cudaBlockCount T) (mem : Cell → UInt8)
    (sock : Socket) :
    ∃ calls, sequential (writeLast T which cb) mem sock = some (.ok (mem,
      { sock with sent := sock.sent ++ bytes mem (buf !which) (cb * T.elementSize), calls := calls })) := by
  obtain ⟨calls, hsend⟩ := sequential_send [] (!which) h mem sock
  refine ⟨calls, Eq.trans ?_ hsend⟩
  rw [writeLast, List.append_nil]
  split_ifs
  · rw [sequential]
  · rw [sequential]

/-- What is left of a transfer: the last block, which is in the buffer, and the elements. -/
theorem sequential_writeBlocks {fuel count ptr cb : ℕ} {which : Bool} {mem : Cell → UInt8} {sock : Socket}
    (hfuel : count ≤ fuel) (h : cb ≤ cudaBlockCount T) :
    ∃ mem' calls, sequential (writeBlocks T fuel count ptr which cb) mem sock = some (.ok (mem',
        { sock with
          sent := sock.sent ++ (bytes mem (buf !which) (cb * T.elementSize) ++
            bytes mem (device ptr) (count * T.elementSize))
          calls := calls })) ∧
      ∀ a, mem' (.device a) = mem (.device a) := by
  induction count using Nat.strong_induction_on generalizing fuel ptr which cb mem sock with
  | h count ih =>
    rcases Nat.eq_zero_or_pos count with rfl | hpos
    · obtain ⟨calls, hlast⟩ := sequential_writeLast which h mem sock
      refine ⟨mem, calls, ?_, fun _ => rfl⟩
      rw [writeBlocks_zero, hlast, Nat.zero_mul]
      simp [bytes]
    · obtain ⟨fuel, rfl⟩ : ∃ k, fuel = k + 1 := ⟨fuel - 1, by omega⟩
      obtain ⟨hone, hblock, hcount⟩ := nextBlock_spec T hpos
      have hsplit := nextBlock_split T hpos
      rw [writeBlocks, if_pos hpos]
      set n := nextBlock T count with hn
      set mem₁ := copyCells (blockMoves (buf which) (device ptr) (n * T.elementSize)) mem with hmem
      obtain ⟨calls, hsend⟩ := sequential_send (writeBlocks T fuel (count - n)
        (ptr + n * T.elementSize) (!which) n) (!which) h mem₁ sock
      obtain ⟨mem', calls', hrest, hsame⟩ :=
        @ih (count - n) (by omega) fuel (ptr + n * T.elementSize) n (!which) mem₁
        { sock with sent := sock.sent ++ bytes mem₁ (buf !which) (cb * T.elementSize), calls := calls }
        (by omega) hblock
      have hdevice : ∀ a, mem₁ (.device a) = mem (.device a) := fun a =>
        copyCells_blockMoves_other fun i _ hc => device_ne_buf a 0 i which hc
      have hnew : bytes mem₁ (buf which) (n * T.elementSize) =
          bytes mem (device ptr) (n * T.elementSize) :=
        bytes_copyCells (buf_injective which) fun i j => device_ne_buf ptr i j which
      have hother : bytes mem₁ (buf !which) (cb * T.elementSize) =
          bytes mem (buf !which) (cb * T.elementSize) :=
        bytes_congr fun i hi => copyCells_blockMoves_other fun j hj hc =>
          buf_ne_buf (hj.trans_le (block_le hblock)) (hi.trans_le (block_le h)) hc.symm
      have hlater : bytes mem₁ (device (ptr + n * T.elementSize)) ((count - n) * T.elementSize) =
          bytes mem (device (ptr + n * T.elementSize)) ((count - n) * T.elementSize) :=
        bytes_congr fun i _ => hdevice _
      refine ⟨mem', calls', ?_, fun a => (hsame a).trans (hdevice a)⟩
      rw [sequential_synchronize]
      refine (hsend.trans hrest).trans ?_
      rw [Bool.not_not, hnew, hother, hlater, hsplit, bytes_device_add, List.append_assoc]

theorem sequential_recv (cs : List Command) {ptr : ℕ → Cell} {n : ℕ} (hn : n < 2 ^ 31) (mem : Cell → UInt8)
    {sock : Socket} (hin : n ≤ sock.incoming.length) :
    ∃ calls, sequential (recvRaw ptr n :: cs) mem sock =
      sequential cs (setCells ((List.range n).map ptr) (sock.incoming.take n) mem)
        { sock with incoming := sock.incoming.drop n, calls := calls } := by
  have hlen : (sock.incoming.take n).length = n := List.length_take_of_le hin
  obtain ⟨calls, hrecv⟩ := sockRecvRaw_append (List.take_append_drop n sock.incoming).symm (hlen.trans_lt hn)
  rw [hlen] at hrecv
  exact ⟨calls, sequential_put (by rw [hrecv, Option.map_some, ofRecv])⟩

theorem sequential_recv_none (cs : List Command) {ptr : ℕ → Cell} {n : ℕ} (mem : Cell → UInt8)
    {sock : Socket} (hin : sock.incoming.length < n) :
    sequential (recvRaw ptr n :: cs) mem sock = none := by
  have hrecv : (sockRecvRaw n sock).map ofRecv = none := by
    rw [sockRecvRaw, sockRecv_none hin]
    rfl
  rw [recvRaw, sequential, hrecv]

theorem sequential_readLast (ptr : ℕ) (which : Bool) (cb : ℕ) (mem : Cell → UInt8) (sock : Socket) :
    sequential (readLast T ptr which cb) mem sock = some (.ok
      (copyCells (blockMoves (device ptr) (buf !which) (cb * T.elementSize)) mem, sock)) := by
  rw [readLast]
  split_ifs with hpos
  · simp only [memcpyAsync, sequential]
  · obtain rfl : cb = 0 := by omega
    rw [sequential, Nat.zero_mul]
    rfl

/-- A round of the loop, but for the next block: the last one reaches the device. -/
theorem sequential_readOne (cs : List Command) (ptr : ℕ) (which : Bool) (cb : ℕ) (mem : Cell → UInt8) (sock : Socket) :
    sequential ((if 0 < cb then
        [.synchronize, memcpyAsync (device ptr) (buf !which) (cb * T.elementSize), .record] else []) ++ cs) mem sock =
      sequential cs (copyCells (blockMoves (device ptr) (buf !which) (cb * T.elementSize)) mem) sock := by
  split_ifs with hpos
  · simp only [memcpyAsync, List.cons_append, List.nil_append, sequential]
  · obtain rfl : cb = 0 := by omega
    rw [Nat.zero_mul]
    rfl

theorem bytes_setCells {ptr : ℕ → Cell} (hptr : Function.Injective ptr) {n : ℕ} {bs : List UInt8}
    (hlen : bs.length = n) (mem : Cell → UInt8) :
    bytes (setCells ((List.range n).map ptr) bs mem) ptr n = bs := by
  rw [← map_range_map]
  exact map_setCells (List.nodup_range.map hptr) (by rw [hlen, List.length_map, List.length_range])

theorem setCells_range_other {ptr : ℕ → Cell} {n : ℕ} {bs : List UInt8} {c : Cell} (h : ∀ i < n, c ≠ ptr i)
    (mem : Cell → UInt8) : setCells ((List.range n).map ptr) bs mem c = mem c := by
  refine setCells_other fun hmem => ?_
  obtain ⟨i, hi, rfl⟩ := List.mem_map.mp hmem
  exact h i (List.mem_range.mp hi) rfl

theorem lastBlock_spec (ptr : ℕ) (which : Bool) (n : ℕ) (mem : Cell → UInt8) :
    bytes (copyCells (blockMoves (device ptr) (buf which) n) mem) (device ptr) n =
      bytes mem (buf which) n ∧
      ∀ a, a < ptr ∨ ptr + n ≤ a →
        copyCells (blockMoves (device ptr) (buf which) n) mem (.device a) = mem (.device a) := by
  constructor
  · exact bytes_copyCells (device_injective ptr) fun i j => (device_ne_buf ptr j i which).symm
  · intro a ha
    refine copyCells_blockMoves_other fun i hi hc => ?_
    have heq : a = ptr + i := by simpa [device] using hc
    omega

/-- What is left of a transfer: the last block, which is in the buffer, and the elements that
have not been received. -/
theorem sequential_readBlocks {fuel count ptr cb : ℕ} {which : Bool} {mem : Cell → UInt8} {sock : Socket}
    (hfuel : count ≤ fuel) (hin : count * T.elementSize ≤ sock.incoming.length) :
    ∃ mem' calls, sequential (readBlocks T fuel count ptr which cb) mem sock = some (.ok (mem',
        { sock with incoming := sock.incoming.drop (count * T.elementSize), calls := calls })) ∧
      bytes mem' (device ptr) (cb * T.elementSize + count * T.elementSize) =
        bytes mem (buf !which) (cb * T.elementSize) ++ sock.incoming.take (count * T.elementSize) ∧
      ∀ a, a < ptr ∨ ptr + (cb * T.elementSize + count * T.elementSize) ≤ a →
        mem' (.device a) = mem (.device a) := by
  induction count using Nat.strong_induction_on generalizing fuel ptr which cb mem sock with
  | h count ih =>
    obtain ⟨hlast, houtside⟩ := lastBlock_spec ptr (!which) (cb * T.elementSize) mem
    rcases Nat.eq_zero_or_pos count with rfl | hpos
    · rw [Nat.zero_mul, Nat.add_zero, List.take_zero, List.append_nil, List.drop_zero, readBlocks_zero]
      exact ⟨_, sock.calls, sequential_readLast ptr which cb mem sock, hlast, houtside⟩
    · obtain ⟨fuel, rfl⟩ : ∃ k, fuel = k + 1 := ⟨fuel - 1, by omega⟩
      obtain ⟨hone, hblock, hcount⟩ := nextBlock_spec T hpos
      have hsplit := nextBlock_split T hpos
      rw [readBlocks, if_pos hpos]
      set n := nextBlock T count with hn
      have hptr : (if 0 < cb then ptr + cb * T.elementSize else ptr) =
          ptr + cb * T.elementSize := by
        split_ifs with hcb
        · rfl
        · obtain rfl : cb = 0 := by omega
          rw [Nat.zero_mul, Nat.add_zero]
      have htake : (sock.incoming.take (n * T.elementSize)).length = n * T.elementSize :=
        List.length_take_of_le (by omega)
      set mem₁ := copyCells (blockMoves (device ptr) (buf !which) (cb * T.elementSize)) mem with hmem₁
      set mem₂ := setCells ((List.range (n * T.elementSize)).map (buf which))
        (sock.incoming.take (n * T.elementSize)) mem₁ with hmem₂
      have hdevice : ∀ a, mem₂ (.device a) = mem₁ (.device a) := fun a =>
        setCells_range_other (fun i _ hc => device_ne_buf a 0 i which hc) mem₁
      have hnew : bytes mem₂ (buf which) (n * T.elementSize) =
          sock.incoming.take (n * T.elementSize) :=
        bytes_setCells (buf_injective which) htake mem₁
      obtain ⟨calls, hrecv⟩ := sequential_recv (readBlocks T fuel (count - n) (ptr + cb * T.elementSize)
        (!which) n) (block_lt hblock) mem₁ (show n * T.elementSize ≤ sock.incoming.length by omega)
      obtain ⟨mem', calls', hrest, hbytes, hsame⟩ :=
        @ih (count - n) (by omega) fuel (ptr + cb * T.elementSize) n
        (!which) mem₂ { sock with incoming := sock.incoming.drop (n * T.elementSize), calls := calls } (by omega)
        (by rw [List.length_drop]; omega)
      rw [← hsplit] at hbytes hsame
      rw [Bool.not_not, hnew, ← List.take_add, ← hsplit] at hbytes
      rw [List.drop_drop, ← hsplit] at hrest
      refine ⟨mem', calls', ?_, ?_, ?_⟩
      · rw [hptr, sequential_readOne]
        exact hrecv.trans hrest
      · rw [bytes_device_add, hbytes]
        refine congrArg (· ++ sock.incoming.take (count * T.elementSize)) (Eq.trans (bytes_congr fun i hi => ?_) hlast)
        exact (hsame (ptr + i) (.inl (by omega))).trans (hdevice _)
      · intro a ha
        rw [hsame a (by omega), hdevice]
        exact houtside a (by omega)

theorem sequential_readBlocks_none {fuel count ptr cb : ℕ} {which : Bool} {mem : Cell → UInt8}
    {sock : Socket} (hfuel : count ≤ fuel) (hin : sock.incoming.length < count * T.elementSize) :
    sequential (readBlocks T fuel count ptr which cb) mem sock = none := by
  induction fuel generalizing count ptr which cb mem sock with
  | zero =>
    obtain rfl : count = 0 := by omega
    omega
  | succ fuel ih =>
    have hpos : 0 < count := Nat.pos_of_ne_zero fun h => by
      rw [h, Nat.zero_mul] at hin
      omega
    obtain ⟨hone, hblock, hcount⟩ := nextBlock_spec T hpos
    have hsplit := nextBlock_split T hpos
    rw [readBlocks, if_pos hpos]
    refine (sequential_readOne _ ptr which cb mem sock).trans ?_
    rcases lt_or_ge sock.incoming.length (nextBlock T count * T.elementSize) with hless | hmore
    · exact sequential_recv_none _ _ hless
    · obtain ⟨calls, hrecv⟩ := @sequential_recv _ (buf which) _ (block_lt hblock) _ _ hmore
      refine hrecv.trans (ih (by omega) ?_)
      rw [List.length_drop]
      omega

end

/-! ### Races -/

section
variable {T : ElementType} {ms : List (Move Cell)}

/-- The copies in flight have the event behind them, and before the first block there are
none. -/
structure Awaited (cb : ℕ) (ms : List (Move Cell)) : Prop where
  recorded : ∀ m ∈ ms, m.recorded = true
  first : cb = 0 → ms = []

theorem Awaited.nil (cb : ℕ) : Awaited cb [] := ⟨nofun, fun _ => rfl⟩

theorem Awaited.block {cb : ℕ} (h : 0 < cb) (dst src : ℕ → Cell) (n : ℕ) :
    Awaited cb (((blockMoves dst src n).map issued).map fun m => { m with recorded := true }) where
  recorded m hm := by
    obtain ⟨m', -, rfl⟩ := List.mem_map.mp hm
    rfl
  first h0 := by omega

theorem mem_block {dst src : ℕ → Cell} {n : ℕ} {m : Move Cell}
    (h : m ∈ ((blockMoves dst src n).map issued).map fun m => { m with recorded := true }) :
    ∃ i < n, m.src = src i ∧ m.dst = dst i := by
  simp only [blockMoves, List.map_map, List.mem_map, List.mem_range, Function.comp_def] at h
  obtain ⟨i, hi, rfl⟩ := h
  exact ⟨i, hi, rfl, rfl⟩

/-- Behind the event, no copy is in flight any more. -/
theorem Awaited.synchronize {cb : ℕ} (h : Awaited cb ms) {cs : List Command} (hcs : Orderly [] cs) :
    Orderly ms (.synchronize :: cs) := by
  have hempty : flight ms (.synchronize : Command) = [] :=
    List.filter_eq_nil_iff.mpr fun m hm => by simp [h.recorded m hm]
  exact .cons trivial (by rwa [hempty])

theorem orderly_memcpyAsync {dst src : ℕ → Cell} {n : ℕ} (hdst : Function.Injective dst)
    (hapart : ∀ i j, src i ≠ dst j) {cs : List Command}
    (hcs : Orderly ((blockMoves dst src n).map issued) cs) :
    Orderly [] (memcpyAsync dst src n :: cs) :=
  .cons (exclusive_blockMoves hdst hapart) hcs

theorem orderly_writeLast {cb : ℕ} (h : Awaited cb ms) (which : Bool) :
    Orderly ms (writeLast T which cb) := by
  rw [writeLast]
  split_ifs with hpos
  · exact h.synchronize (.cons (fun _ _ => nofun) .nil)
  · rw [h.first (by omega)]
    exact .nil

/-- The socket sends from one half of the buffer while the other is filled. -/
theorem orderly_writeBlocks {cb : ℕ} (h : Awaited cb ms) (hcb : cb ≤ cudaBlockCount T)
    (fuel count ptr : ℕ) (which : Bool) : Orderly ms (writeBlocks T fuel count ptr which cb) := by
  induction fuel generalizing count ptr which cb ms with
  | zero => exact orderly_writeLast h which
  | succ fuel ih =>
    rw [writeBlocks]
    by_cases hpos : 0 < count
    · obtain ⟨hone, hblock, -⟩ := nextBlock_spec T hpos
      rw [if_pos hpos]
      have hrest := ih (Awaited.block hone (buf which) (device ptr) (nextBlock T count * T.elementSize)) hblock
        (count - nextBlock T count) (ptr + nextBlock T count * T.elementSize) (!which)
      have hcopy := @orderly_memcpyAsync _ (device ptr) (nextBlock T count * T.elementSize) (buf_injective which)
        fun i j => device_ne_buf ptr i j which
      by_cases hlast : 0 < cb
      · rw [if_pos hlast, if_pos hlast]
        refine h.synchronize (hcopy (.cons trivial (.cons ?_ hrest)))
        intro l hl m hm
        obtain ⟨j, hj, rfl⟩ := List.mem_map.mp hl
        obtain ⟨i, hi, -, hdst⟩ := mem_block hm
        rw [hdst]
        exact buf_ne_buf (hi.trans_le (block_le hblock)) ((List.mem_range.mp hj).trans_le (block_le hcb))
      · rw [if_neg hlast, if_neg hlast, h.first (by omega)]
        exact hcopy (.cons trivial hrest)
    · rw [if_neg hpos]
      exact orderly_writeLast h which

theorem orderly_readLast {cb : ℕ} (h : Awaited cb ms) (ptr : ℕ) (which : Bool) :
    Orderly ms (readLast T ptr which cb) := by
  rw [readLast]
  split_ifs with hpos
  · exact h.synchronize (orderly_memcpyAsync (device_injective ptr) (fun i j => (device_ne_buf ptr j i _).symm)
      (.cons trivial .nil))
  · rw [h.first (by omega)]
    exact .nil

/-- The socket fills one half of the buffer while the other goes to the device. -/
theorem orderly_readBlocks {cb : ℕ} (h : Awaited cb ms) (hcb : cb ≤ cudaBlockCount T)
    (fuel count ptr : ℕ) (which : Bool) : Orderly ms (readBlocks T fuel count ptr which cb) := by
  induction fuel generalizing count ptr which cb ms with
  | zero => exact orderly_readLast h ptr which
  | succ fuel ih =>
    rw [readBlocks]
    by_cases hpos : 0 < count
    · obtain ⟨hone, hblock, -⟩ := nextBlock_spec T hpos
      rw [if_pos hpos]
      by_cases hlast : 0 < cb
      · rw [if_pos hlast, if_pos hlast]
        refine h.synchronize (orderly_memcpyAsync (device_injective ptr)
          (fun i j => (device_ne_buf ptr j i _).symm) (.cons trivial (.cons ?_
            (ih (Awaited.block hone _ _ _) hblock _ _ _))))
        intro l hl m hm
        obtain ⟨j, hj, rfl⟩ := List.mem_map.mp hl
        obtain ⟨i, hi, hsrc, hdst⟩ := mem_block hm
        rw [hsrc, hdst]
        exact ⟨device_ne_buf ptr i j which, (buf_ne_buf ((List.mem_range.mp hj).trans_le (block_le hblock))
          (hi.trans_le (block_le hcb))).symm⟩
      · rw [if_neg hlast, if_neg hlast, h.first (by omega)]
        exact .cons (fun _ _ => nofun) (ih (.nil _) hblock _ _ _)
    · rw [if_neg hpos]
      exact orderly_readLast h ptr which

theorem orderly_writeContiguous (ptr count : ℕ) : Orderly [] (writeContiguous T ptr count) :=
  orderly_writeBlocks (.nil 0) (Nat.zero_le _) _ _ _ _

theorem orderly_readContiguous (ptr count : ℕ) : Orderly [] (readContiguous T ptr count) := by
  have hblocks := orderly_readBlocks (T := T) (.nil 0) (Nat.zero_le _) count count ptr false
  rw [readContiguous]
  split_ifs
  · exact .cons trivial hblocks
  · exact hblocks

end

/-! ### Transfers -/

/-- A program returns, whenever its copies are made, with none left in flight. -/
def Returns (cs : List Command) (mem : Cell → UInt8) (sock : Socket) (P : (Cell → UInt8) → Socket → Prop) : Prop :=
  (∃ r, Executes cs ⟨mem, []⟩ sock r) ∧
    ∀ r, Executes cs ⟨mem, []⟩ sock r → ∃ mem' sock', r = .ok (⟨mem', []⟩, sock') ∧ P mem' sock'

/-- No command overwrites a cell that a copy in flight reads or writes, and none reads a cell
that such a copy writes. -/
def NeverRaces (cs : List Command) : Prop :=
  ∀ before c after, cs = before ++ c :: after → ∀ mem sock d sock',
    Executes before ⟨mem, []⟩ sock (.ok (d, sock')) → Permitted d.inFlight c

theorem Returns.of_sequential {cs : List Command} (h : Orderly [] cs) {mem mem' : Cell → UInt8}
    {sock sock' : Socket} (hseq : sequential cs mem sock = some (.ok (mem', sock')))
    {P : (Cell → UInt8) → Socket → Prop} (hP : P mem' sock') : Returns cs mem sock P := by
  refine ⟨exists_executes hseq, fun r hrun => ?_⟩
  obtain ⟨r', hseq', rfl⟩ := hrun.eq_sequential h
  rw [hseq] at hseq'
  cases hseq'
  exact ⟨mem', sock', rfl, hP⟩

theorem neverRaces_of_orderly {cs : List Command} (h : Orderly [] cs) : NeverRaces cs := by
  rintro before c after rfl mem sock d sock' hrun
  exact h.raceFree.permitted hrun

theorem Returns.mono {cs : List Command} {mem : Cell → UInt8} {sock : Socket} {P Q : (Cell → UInt8) → Socket → Prop}
    (h : Returns cs mem sock P) (hPQ : ∀ mem' sock', P mem' sock' → Q mem' sock') :
    Returns cs mem sock Q := by
  refine ⟨h.1, fun r hrun => ?_⟩
  obtain ⟨mem', sock', hr, hP⟩ := h.2 r hrun
  exact ⟨mem', sock', hr, hPQ _ _ hP⟩

/-- Whenever the copies are made, `write_contiguous` sends the bytes of its elements in order,
as one call of `sock_send_raw` does; `read_contiguous` returns exactly when one call of
`sock_recv_raw` does, with the received bytes on the device and everything else as it was;
and no half of the buffer is touched while it is copied. -/
theorem pipelined_transfers (T : ElementType) (ptr count : ℕ) (mem : Cell → UInt8) (sock : Socket) :
    Returns (writeContiguous T ptr count) mem sock (fun mem' sock' =>
        sock'.sent = sock.sent ++ bytes mem (device ptr) (count * T.elementSize) ∧
        sock'.sent = (sockSendRaw (bytes mem (device ptr) (count * T.elementSize)) sock).2.sent ∧
        sock'.incoming = sock.incoming ∧ ∀ a, mem' (.device a) = mem (.device a)) ∧
      (∀ bs s, sockRecv (count * T.elementSize) sock = some (bs, s) →
        Returns (readContiguous T ptr count) mem sock fun mem' sock' =>
          bytes mem' (device ptr) (count * T.elementSize) = bs ∧
          sock'.incoming = s.incoming ∧ sock'.sent = sock.sent ∧
          ∀ a, a < ptr ∨ ptr + count * T.elementSize ≤ a → mem' (.device a) = mem (.device a)) ∧
      (sockRecv (count * T.elementSize) sock = none →
        ¬ ∃ r, Executes (readContiguous T ptr count) ⟨mem, []⟩ sock r) ∧
      NeverRaces (writeContiguous T ptr count) ∧ NeverRaces (readContiguous T ptr count) := by
  have hread : ∀ mem sock, sequential (readContiguous T ptr count) mem sock =
      sequential (readBlocks T count count ptr false 0) mem sock := fun mem sock => by
    rw [readContiguous]
    split_ifs
    · rfl
    · rfl
  refine ⟨?_, fun bs s hrecv => ?_, fun hrecv => ?_, neverRaces_of_orderly (orderly_writeContiguous ptr count),
    neverRaces_of_orderly (orderly_readContiguous ptr count)⟩
  · obtain ⟨mem', calls, hseq, hsame⟩ :=
      @sequential_writeBlocks T count count ptr 0 false mem sock le_rfl
      (Nat.zero_le _)
    obtain ⟨calls', hsend⟩ := sockSend_eq (bytes mem (device ptr) (count * T.elementSize)) sock
    rw [Nat.zero_mul] at hseq
    refine .of_sequential (orderly_writeContiguous ptr count) hseq ⟨rfl, ?_, rfl, hsame⟩
    rw [sockSendRaw, hsend]
    rfl
  · have hin : count * T.elementSize ≤ sock.incoming.length := by
      by_contra hless
      rw [sockRecv_none (not_le.mp hless)] at hrecv
      cases hrecv
    obtain ⟨calls, hall⟩ := sockRecv_eq hin
    rw [hall] at hrecv
    cases hrecv
    obtain ⟨mem', calls', hseq, hbytes, hsame⟩ :=
      @sequential_readBlocks T count count ptr 0 false mem sock le_rfl hin
    rw [Nat.zero_mul, Nat.zero_add] at hbytes hsame
    exact .of_sequential (orderly_readContiguous ptr count) ((hread mem sock).trans hseq) ⟨hbytes, rfl, rfl, hsame⟩
  · rintro ⟨r, hrun⟩
    have hless : sock.incoming.length < count * T.elementSize := by
      by_contra hin
      obtain ⟨calls, hall⟩ := sockRecv_eq (not_lt.mp hin)
      rw [hall] at hrecv
      cases hrecv
    obtain ⟨r', hseq, -⟩ := hrun.eq_sequential (orderly_readContiguous ptr count)
    rw [hread, sequential_readBlocks_none le_rfl hless] at hseq
    cases hseq

/-- Two elements. -/
theorem pipelined_transfers_two :
    Returns (writeContiguous .float 0 2) (fun | .device a => UInt8.ofNat a | .host _ => 0) ⟨[], [], fun _ => 0, 0⟩
        (fun _ sock' => sock'.sent = [0, 1, 2, 3, 4, 5, 6, 7]) ∧
      Returns (readContiguous .float 0 2) (fun _ => 0) ⟨[], [7, 6, 5, 4, 3, 2, 1, 0, 9], fun _ => 0, 0⟩
        fun mem' sock' => bytes mem' (device 0) 8 = [7, 6, 5, 4, 3, 2, 1, 0] ∧
          sock'.incoming = [9] :=
  ⟨(pipelined_transfers .float 0 2 _ _).1.mono fun _ _ h => h.1,
    ((pipelined_transfers .float 0 2 _ _).2.1 _ _ rfl).mono fun _ _ h => ⟨h.1, h.2.1⟩⟩

end TorchIpc.Cuda
