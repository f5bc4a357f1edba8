import TorchIpc.Tree.Shape
import TorchIpc.Tree.Establish
import TorchIpc.Cliser.Send

/-! The size of the table of connections that `initialServer` broadcasts. As a message it
has a row for each node, and the address of a parent once for each of its children; the
send buffer of a connection does not grow, so the table goes out only while all of this
fits. -/

namespace TorchIpc.Tree

open Words Cliser

/-! ### The table as a Lua value -/

def NODE_INDEX : List UInt8 := [110, 111, 100, 101, 73, 110, 100, 101, 120]

def HOST : List UInt8 := [104, 111, 115, 116]

def PORT : List UInt8 := [112, 111, 114, 116]

def CONNECT : List UInt8 := [99, 111, 110, 110, 101, 99, 116]

def LISTEN : List UInt8 := [108, 105, 115, 116, 101, 110]

/-- A port: the number that `ipc.server` returns, or a string. -/
inductive Port where
  | number (n : ℕ)
  | string (bytes : List UInt8)

structure HostPort where
  host : List UInt8
  port : Port

section
variable {P : Type} (lua : Lua P)

def num (n : ℕ) : Value P := .ofInteger lua.versionNum (UInt64.ofNat n)

def Port.value : Port → Value P
  | .number n => num lua n
  | .string bytes => .string bytes

/-- A table with these keys, in some order, each with a value that its predicate admits. -/
def IsTable (fields : List (Value P × (Value P → Prop))) (v : Value P) : Prop :=
  ∃ es rows, v = .table es .none ∧ es.Perm rows ∧
    List.Forall₂ (fun f (row : Value P × Value P) => row.1 = f.1 ∧ f.2 row.2) fields rows

def addressFields (a : Address HostPort) : List (Value P × (Value P → Prop)) :=
  [(.string NODE_INDEX, (· = num lua a.nodeIndex)), (.string HOST, (· = .string a.addr.host)),
    (.string PORT, (· = a.addr.port.value lua))]

def entryFields (e : Entry HostPort) : List (Value P × (Value P → Prop)) :=
  e.connect.toList.map (fun a => (.string CONNECT, IsTable (addressFields lua a))) ++
    e.listen.toList.map fun k => (.string LISTEN, (· = num lua k))

/-- The table of connections, of which the nodes `1..n` may have an entry. -/
def IsTree (n : ℕ) (tree : ℕ → Option (Entry HostPort)) : Value P → Prop :=
  IsTable ((List.range' 1 n).filterMap fun i =>
    (tree i).map fun e => (num lua i, IsTable (entryFields lua e)))

/-! ### Sizes -/

/-- `rb_save` accepts the value, and writes so many bytes. -/
def Saves (v : Value P) (size : ℕ) : Prop :=
  (script lua true false v).fin = .ok ∧ (encode lua true false v).length = size

/-- So many bytes go to a row of a table. -/
def RowSize (f : Value P × (Value P → Prop)) (n : ℕ) : Prop :=
  ∃ k m, n = k + m ∧ Saves lua f.1 k ∧ ∀ w, f.2 w → Saves lua w m

def Port.size : Port → ℕ
  | .number _ => 9
  | .string bytes => 9 + bytes.length

def addressSize (a : HostPort) : ℕ := 72 + a.host.length + a.port.size

def entrySize (e : Entry HostPort) : ℕ :=
  10 + ((e.connect.map fun a => 16 + addressSize a.addr).getD 0 + (e.listen.map fun _ => 24).getD 0)

variable {lua}

theorem saves_num (n : ℕ) : Saves lua (num lua n) 9 := by
  unfold num Value.ofInteger
  split_ifs
  · simp [Saves, encode, script, integerScript]
  · simp [Saves, encode, script, numberScript]

theorem saves_string (bytes : List UInt8) : Saves lua (.string bytes) (9 + bytes.length) := by
  simp [Saves, encode, script]
  omega

theorem Port.saves (p : Port) : Saves lua (p.value lua) p.size := by
  cases p with
  | number n => exact saves_num n
  | string bytes => exact saves_string bytes

theorem saves_entries {es : List (Value P × Value P)} {sizes : List ℕ}
    (h : List.Forall₂ (fun e n => ∃ k m, n = k + m ∧ Saves lua e.1 k ∧ Saves lua e.2 m) es sizes) :
    (entriesScript lua true false es).fin = .ok ∧
      (entriesScript lua true false es).bytes.length = sizes.sum := by
  induction h with
  | nil => exact ⟨rfl, rfl⟩
  | @cons e n es sizes hone _ ih =>
    obtain ⟨k, m, rfl, ⟨hkey, hk⟩, hvalue, hm⟩ := hone
    obtain ⟨hrest, hlen⟩ := ih
    rw [entriesScript]
    refine ⟨entryScript_fin_ok.mpr ⟨hkey, hvalue, hrest⟩, ?_⟩
    rw [encode] at hk hm
    rw [entryScript_bytes hkey hvalue, List.length_append, List.length_append, hk, hm, hlen, List.sum_cons]

theorem saves_rows {fields : List (Value P × (Value P → Prop))} {rows : List (Value P × Value P)}
    {sizes : List ℕ} (hrows : List.Forall₂ (fun f row => row.1 = f.1 ∧ f.2 row.2) fields rows)
    (h : List.Forall₂ (RowSize lua) fields sizes) :
    List.Forall₂ (fun e n => ∃ k m, n = k + m ∧ Saves lua e.1 k ∧ Saves lua e.2 m) rows sizes := by
  induction hrows generalizing sizes with
  | nil =>
    cases h
    exact .nil
  | cons hrow _ ih =>
    cases h with
    | cons hsize hsizes =>
      obtain ⟨k, m, hn, hkey, hvalue⟩ := hsize
      exact .cons ⟨k, m, hn, hrow.1 ▸ hkey, hvalue _ hrow.2⟩ (ih hsizes)

/-- A table has ten bytes and those of its rows, in whatever order. -/
theorem saves_table {fields : List (Value P × (Value P → Prop))} {sizes : List ℕ}
    (h : List.Forall₂ (RowSize lua) fields sizes)
    {v : Value P} (hv : IsTable fields v) : Saves lua v (10 + sizes.sum) := by
  obtain ⟨es, rows, rfl, hperm, hrows⟩ := hv
  obtain ⟨sizes', hes, hsizes⟩ := List.perm_comp_forall₂ hperm (saves_rows hrows h)
  obtain ⟨hfin, hlen⟩ := saves_entries hes
  rw [hsizes.sum_eq] at hlen
  refine ⟨by rw [script]; exact tableScript_fin_ok.mpr hfin, ?_⟩
  rw [encode, script, tableScript_bytes hfin]
  simp only [TypeName.str, List.length_cons, List.length_append, length_leBytes, List.length_nil, hlen]
  omega

theorem saves_address {a : Address HostPort} {v : Value P} (hv : IsTable (addressFields lua a) v) :
    Saves lua v (addressSize a.addr) := by
  have hrows : List.Forall₂ (RowSize lua) (addressFields lua a)
      [18 + 9, 13 + (9 + a.addr.host.length), 13 + a.addr.port.size] :=
    .cons ⟨18, 9, rfl, saves_string NODE_INDEX, by rintro w rfl; exact saves_num _⟩
      (.cons ⟨13, 9 + a.addr.host.length, rfl, saves_string HOST, by rintro w rfl; exact saves_string _⟩
        (.cons ⟨13, a.addr.port.size, rfl, saves_string PORT, by rintro w rfl; exact a.addr.port.saves⟩ .nil))
  have hsaves := saves_table hrows hv
  have hsize : 10 + [18 + 9, 13 + (9 + a.addr.host.length), 13 + a.addr.port.size].sum =
      addressSize a.addr := by
    simp only [List.sum_cons, List.sum_nil, addressSize]
    omega
  rwa [hsize] at hsaves

theorem saves_entry {e : Entry HostPort} {v : Value P} (hv : IsTable (entryFields lua e) v) :
    Saves lua v (entrySize e) := by
  have hconnect : ∀ a : Address HostPort,
      RowSize lua (.string CONNECT, IsTable (addressFields lua a)) (16 + addressSize a.addr) :=
    fun a => ⟨16, addressSize a.addr, rfl, saves_string CONNECT, fun _ => saves_address⟩
  have hlisten : ∀ n : ℕ, RowSize lua (.string LISTEN, (· = num lua n)) 24 :=
    fun n => ⟨15, 9, rfl, saves_string LISTEN, by rintro w rfl; exact saves_num n⟩
  obtain ⟨connect, listen⟩ := e
  cases connect with
  | none =>
    cases listen with
    | none => exact saves_table .nil hv
    | some n => exact saves_table (.cons (hlisten n) .nil) hv
  | some a =>
    cases listen with
    | none => exact saves_table (.cons (hconnect a) .nil) hv
    | some n => exact saves_table (.cons (hconnect a) (.cons (hlisten n) .nil)) hv

/-- Each node with an entry has nine bytes for its index and those of the entry. -/
theorem saves_tree {n : ℕ} {tree : ℕ → Option (Entry HostPort)} {v : Value P} (hv : IsTree lua n tree v) :
    Saves lua v (10 + ((List.range' 1 n).filterMap fun i => (tree i).map fun e => 9 + entrySize e).sum) := by
  have hrows : ∀ is : List ℕ, List.Forall₂ (RowSize lua)
      (is.filterMap fun i => (tree i).map fun e => (num lua i, IsTable (entryFields lua e)))
      (is.filterMap fun i => (tree i).map fun e => 9 + entrySize e) := by
    intro is
    induction is with
    | nil => exact .nil
    | cons i is ih =>
      cases hi : tree i with
      | none => simpa [hi] using ih
      | some e =>
        simp only [List.filterMap_cons, hi, Option.map_some]
        exact .cons ⟨9, entrySize e, rfl, saves_num i, fun _ => saves_entry⟩ ih
  exact saves_table (hrows _) hv

end

/-! ### The entries -/

section
variable {A : Type} (addresses : ℕ → Option (Address A)) (links : List Link)

theorem linkFunc_listen (tree : ℕ → Option (Entry A)) (l : Link) (i : ℕ) :
    (linkFunc addresses tree l i).bind Entry.listen =
      if l.toNode = i then some (listenOf (tree i) + 1) else (tree i).bind Entry.listen := by
  by_cases hto : i = l.toNode
  · subst hto
    by_cases heq : l.toNode = l.fromNode
    · cases hi : tree l.fromNode <;> simp [linkFunc, listenOf, heq, hi]
    · cases hi : tree l.toNode <;> simp [linkFunc, listenOf, heq, hi]
  · by_cases hfrom : i = l.fromNode
    · subst hfrom
      cases hi : tree l.fromNode <;> simp [linkFunc, hto, hi, Ne.symm hto]
    · simp [linkFunc, hto, hfrom, Ne.symm hto]

/-- An entry counts the nodes to wait for, if there are any. -/
theorem treeOf_listen (i : ℕ) : (treeOf addresses links i).bind Entry.listen =
    if listen links i = 0 then none else some (listen links i) := by
  induction links using List.reverseRecOn with
  | nil => rfl
  | append_singleton links l ih =>
    have hcount : listen (links ++ [l]) i = listen links i + if l.toNode = i then 1 else 0 := by
      rw [listen, listen, List.countP_append]
      simp [List.countP_singleton]
    rw [treeOf_concat, linkFunc_listen, listenOf_treeOf, ih, hcount]
    by_cases hto : l.toNode = i
    · simp [hto]
    · simp [hto]

/-- The nodes of the calls have entries, and no others. -/
theorem treeOf_isSome (i : ℕ) : (treeOf addresses links i).isSome = true ↔
    ∃ l ∈ links, l.fromNode = i ∨ l.toNode = i := by
  induction links using List.reverseRecOn with
  | nil => simp [treeOf]
  | append_singleton links l ih =>
    have hstep : (linkFunc addresses (treeOf addresses links) l i).isSome = true ↔
        (treeOf addresses links i).isSome = true ∨ l.fromNode = i ∨ l.toNode = i := by
      by_cases hto : i = l.toNode
      · simp [linkFunc, hto]
      · by_cases hfrom : i = l.fromNode
        · subst hfrom
          simp [linkFunc, hto]
        · simp [linkFunc, hto, hfrom, Ne.symm hto, Ne.symm hfrom]
    rw [treeOf_concat, hstep, ih]
    simp only [List.mem_append, List.mem_singleton, or_and_right, exists_or, exists_eq_left]

theorem connectOf_treeOf_root {i : ℕ} (h : ∀ l ∈ links, l.fromNode ≠ i) :
    connectOf (treeOf addresses links i) = none := by
  induction links using List.reverseRecOn with
  | nil => rfl
  | append_singleton links l ih =>
    rw [treeOf_concat, connectOf_linkFunc, if_neg (h l (by simp))]
    exact ih fun l' hl' => h l' (List.mem_append_left _ hl')

end

/-! ### The table in base two -/

theorem sum_odd (m : ℕ) :
    ((List.range' 1 m).map fun i => if i % 2 = 1 then 24 else 0).sum = 24 * ((m + 1) / 2) := by
  induction m with
  | zero => rfl
  | succ m ih =>
    rw [List.range'_concat, List.map_append, List.sum_append, ih]
    simp only [List.map_cons, List.map_nil, List.sum_cons, List.sum_nil]
    split_ifs with h
    · omega
    · omega

section
variable {n depth : ℕ} {addr : ℕ → HostPort}

/-- The parent of a node has an odd number, and a node behind it. -/
theorem clearLowest_bounds {x : ℕ} (h : 0 < x) : clearLowest x % 2 = 0 ∧ clearLowest x < x := by
  obtain ⟨t, q, rfl⟩ := exists_lowest h
  have hpos : 0 < 2 ^ t := by positivity
  rw [clearLowest_eq]
  exact ⟨by rw [pow_succ', Nat.mul_assoc, Nat.mul_mod_right], by omega⟩

theorem listen_pairs (hfit : n ≤ 2 ^ (depth + 1)) {i : ℕ} (hi : 1 ≤ i) :
    listen (rcsvAllPairs 2 n 0 depth) i = 0 ↔ ¬ (i % 2 = 1 ∧ i < n) := by
  rw [← not_iff_not, not_not, ← ne_eq, ← Nat.pos_iff_ne_zero, listen, List.countP_pos_iff]
  constructor
  · rintro ⟨l, hl, hto⟩
    have hmem := (pairs_perm hfit).mem_iff.mp hl
    obtain ⟨j, hj, rfl⟩ := List.mem_map.mp hmem
    have hrange := List.mem_range'_1.mp hj
    have hbounds := clearLowest_bounds (x := j - 1) (by omega)
    have hto' : clearLowest (j - 1) + 1 = i := of_decide_eq_true hto
    omega
  · rintro ⟨hodd, hlt⟩
    refine ⟨linkOf (i + 1), (pairs_perm hfit).mem_iff.mpr (List.mem_map_of_mem ?_), ?_⟩
    · exact List.mem_range'_1.mpr (by omega)
    · have hform : i = 2 ^ (0 + 1) * (i / 2) + 2 ^ 0 := by omega
      have hlink := linkOf_eq 0 (i / 2)
      rw [← hform] at hlink
      rw [hlink]
      simp only [decide_eq_true_eq]
      omega

theorem up_pairs (hfit : n ≤ 2 ^ (depth + 1)) {c p : ℕ} :
    Up (rcsvAllPairs 2 n 0 depth) c p ↔ 2 ≤ c ∧ c ≤ n ∧ p = clearLowest (c - 1) + 1 := by
  constructor
  · rintro ⟨l, hl, rfl, rfl⟩
    have hmem := (pairs_perm hfit).mem_iff.mp hl
    obtain ⟨j, hj, rfl⟩ := List.mem_map.mp hmem
    have hrange := List.mem_range'_1.mp hj
    exact ⟨hrange.1, by simp only [linkOf]; omega, rfl⟩
  · rintro ⟨hc, hcn, rfl⟩
    refine ⟨linkOf c, (pairs_perm hfit).mem_iff.mpr (List.mem_map_of_mem ?_), rfl, rfl⟩
    exact List.mem_range'_1.mpr (by omega)

variable (addr) in
/-- The table of connections among `n` nodes, of which node `i` listens at `addr i`. -/
def plannedTree (n depth : ℕ) : ℕ → Option (Entry HostPort) :=
  treeOf (knownAddresses fun c : Node n => addr c) (rcsvAllPairs 2 n 0 depth)

theorem plannedTree_size (hfit : n ≤ 2 ^ (depth + 1)) (hn : 2 ≤ n) {i : ℕ} (hi : 1 ≤ i) (hin : i ≤ n) :
    ((plannedTree addr n depth i).map fun e => 9 + entrySize e) =
      some (19 + (if i = 1 then 0 else 16 + addressSize (addr (clearLowest (i - 1) + 1))) +
        if i % 2 = 1 ∧ i < n then 24 else 0) := by
  have hsome : (plannedTree addr n depth i).isSome = true := by
    rw [plannedTree, treeOf_isSome]
    by_cases h1 : i = 1
    · have hup : Up (rcsvAllPairs 2 n 0 depth) 2 1 := (up_pairs hfit).mpr ⟨le_rfl, hn, rfl⟩
      obtain ⟨l, hl, -, hto⟩ := hup
      exact ⟨l, hl, .inr (hto.trans h1.symm)⟩
    · obtain ⟨l, hl, hfrom, -⟩ := (up_pairs hfit).mpr ⟨by omega, hin, rfl⟩
      exact ⟨l, hl, .inl hfrom⟩
  have hconnect : connectOf (plannedTree addr n depth i) = if i = 1 then none else
      some ⟨clearLowest (i - 1) + 1, addr (clearLowest (i - 1) + 1)⟩ := by
    split_ifs with h1
    · refine connectOf_treeOf_root _ _ fun l hl hfrom => ?_
      have := ((up_pairs hfit).mp ⟨l, hl, hfrom, rfl⟩).1
      omega
    · have hbounds := clearLowest_bounds (x := i - 1) (by omega)
      have hmem : clearLowest (i - 1) + 1 ∈ Finset.Icc 1 n := Finset.mem_Icc.mpr (by omega)
      rw [plannedTree, connectOf_treeOf _ _ ((up_pairs hfit).mpr ⟨by omega, hin, rfl⟩) fun b hb =>
        ((up_pairs hfit).mp hb).2.2, knownAddresses, dif_pos hmem]
  obtain ⟨e, he⟩ := Option.isSome_iff_exists.mp hsome
  have hlisten : (plannedTree addr n depth i).bind Entry.listen = _ :=
    treeOf_listen _ (rcsvAllPairs 2 n 0 depth) i
  rw [he] at hconnect hlisten ⊢
  have hup : (e.connect.map fun a => 16 + addressSize a.addr).getD 0 =
      if i = 1 then 0 else 16 + addressSize (addr (clearLowest (i - 1) + 1)) := by
    rw [show e.connect = _ from hconnect]
    split_ifs
    · rfl
    · rfl
  have hdown : (e.listen.map fun _ => 24).getD 0 = if i % 2 = 1 ∧ i < n then 24 else 0 := by
    rw [show e.listen = _ from hlisten]
    by_cases hchild : i % 2 = 1 ∧ i < n
    · rw [if_neg ((not_congr (listen_pairs hfit hi)).mpr (not_not.mpr hchild)), if_pos hchild]
      rfl
    · rw [if_pos ((listen_pairs hfit hi).mpr hchild), if_neg hchild]
      rfl
  rw [Option.map_some, entrySize, hup, hdown]
  exact congrArg some (by omega)

variable (addr) in
/-- What the table takes up as a message: a row for each node, a number of children for
every other one, and the address of a parent for each node but the first. -/
def tableSize (n : ℕ) : ℕ :=
  10 + 19 * n + 24 * (n / 2) +
    ((List.range' 2 (n - 1)).map fun j => 16 + addressSize (addr (clearLowest (j - 1) + 1))).sum

theorem plannedTree_sum (hfit : n ≤ 2 ^ (depth + 1)) (hn : 2 ≤ n) :
    10 + ((List.range' 1 n).filterMap fun i => (plannedTree addr n depth i).map fun e => 9 + entrySize e).sum =
      tableSize addr n := by
  obtain ⟨m, rfl⟩ : ∃ m, n = m + 1 := ⟨n - 1, by omega⟩
  have hrows : (List.range' 1 (m + 1)).filterMap
      (fun i => (plannedTree addr (m + 1) depth i).map fun e => 9 + entrySize e) =
        (List.range' 1 (m + 1)).map fun i =>
          19 + (if i = 1 then 0 else 16 + addressSize (addr (clearLowest (i - 1) + 1))) +
            if i % 2 = 1 ∧ i < m + 1 then 24 else 0 := by
    rw [← List.filterMap_eq_map]
    refine List.filterMap_congr fun i hi => ?_
    have hrange := List.mem_range'_1.mp hi
    rw [plannedTree_size hfit hn hrange.1 (by omega)]
    rfl
  have hparents : ((List.range' 1 (m + 1)).map fun i =>
      if i = 1 then 0 else 16 + addressSize (addr (clearLowest (i - 1) + 1))).sum =
      ((List.range' 2 m).map fun j => 16 + addressSize (addr (clearLowest (j - 1) + 1))).sum := by
    rw [List.range'_succ, List.map_cons, List.sum_cons, if_pos rfl, Nat.zero_add]
    refine congrArg List.sum (List.map_congr_left fun i hi => if_neg ?_)
    have := List.mem_range'_1.mp hi
    omega
  have hchildren : ((List.range' 1 (m + 1)).map fun i => if i % 2 = 1 ∧ i < m + 1 then 24 else 0).sum =
      24 * ((m + 1) / 2) := by
    rw [List.range'_concat, List.map_append, List.sum_append, ← sum_odd m]
    have hlast : ((([1 + 1 * m] : List ℕ).map fun i => if i % 2 = 1 ∧ i < m + 1 then 24 else 0)).sum = 0 := by
      simp
    rw [hlast, Nat.add_zero]
    refine congrArg List.sum (List.map_congr_left fun i hi => ?_)
    have hrange := List.mem_range'_1.mp hi
    simp only [show i < m + 1 by omega, and_true]
  have hnodes : ((List.range' 1 (m + 1)).map fun _ => 19).sum = 19 * (m + 1) := by
    rw [List.map_const', List.sum_replicate, List.length_range', smul_eq_mul, Nat.mul_comm]
  rw [hrows, List.sum_map_add, List.sum_map_add, hnodes, hparents, hchildren, tableSize, Nat.add_sub_cancel]
  omega

theorem saves_planned {P : Type} {lua : Lua P} (hfit : n ≤ 2 ^ (depth + 1)) (hn : 2 ≤ n) {v : Value P}
    (hv : IsTree lua n (plannedTree addr n depth) v) : Saves lua v (tableSize addr n) := by
  rw [← plannedTree_sum hfit hn]
  exact saves_tree hv

/-- A connection without an unsent rest sends a value exactly if it fits. -/
theorem send_of_saves {P : Type} {lua : Lua P} {v : Value P} {size : ℕ} (hv : Saves lua v size)
    {c : Cliser.Client} (hc : Holding c []) {top : ℕ} (htop : 2 ≤ top) :
    ∃ c', (sockSendMsg lua v top c).result = some (decide (size ≤ SEND_RECV_SIZE), c') ∧
      c'.sock.sent = c.sock.sent ++ if size ≤ SEND_RECV_SIZE then frame (encode lua true false v) else [] := by
  obtain ⟨hok, rfl⟩ := hv
  have hspec := sockSendMsg_spec lua hc v htop
  generalize (sockSendMsg lua v top c).result = o at hspec
  cases hspec with
  | sent _ hle _ hsent =>
    rw [List.length_nil, Nat.zero_add] at hle
    exact ⟨_, by rw [decide_eq_true hle], by rw [if_pos hle, hsent, List.nil_append]⟩
  | refused hno _ hsock =>
    rw [List.length_nil, Nat.zero_add] at hno
    have hgt : ¬ (encode lua true false v).length ≤ SEND_RECV_SIZE := fun hle => hno ⟨hok, hle⟩
    exact ⟨_, by rw [decide_eq_false hgt], by rw [if_neg hgt, hsock, List.append_nil]⟩

/-- The table has exactly this many bytes, and a send of the broadcast returns exactly if
they fit into the buffer. -/
theorem tree_table_sent_iff {P : Type} (lua : Lua P) {numNodes d : ℕ} (hn : 2 ≤ numNodes) (hd : 1 ≤ d)
    (hfit : numNodes ≤ 2 ^ d) (addr : ℕ → HostPort) {v : Value P}
    (hv : IsTree lua numNodes (plannedTree addr numNodes (d - 1)) v) :
    (encode lua true false v).length = tableSize addr numNodes ∧
      ∀ (c : Cliser.Client) (top : ℕ), Holding c [] → 2 ≤ top →
        ∃ c', (sockSendMsg lua v top c).result = some (decide (tableSize addr numNodes ≤ SEND_RECV_SIZE), c') ∧
          c'.sock.sent = c.sock.sent ++
            if tableSize addr numNodes ≤ SEND_RECV_SIZE then frame (encode lua true false v) else [] := by
  obtain ⟨depth, rfl⟩ : ∃ depth, d = depth + 1 := ⟨d - 1, by omega⟩
  have hsaves := saves_planned hfit hn hv
  exact ⟨hsaves.2, fun c top hc htop => send_of_saves hsaves hc htop⟩

end

/-! ### A table -/

section
variable {P : Type} (lua : Lua P)

def addressRows (a : Address HostPort) : List (Value P × Value P) :=
  [(.string NODE_INDEX, num lua a.nodeIndex), (.string HOST, .string a.addr.host),
    (.string PORT, a.addr.port.value lua)]

def entryRows (e : Entry HostPort) : List (Value P × Value P) :=
  e.connect.toList.map (fun a => (.string CONNECT, .table (addressRows lua a) .none)) ++
    e.listen.toList.map fun k => (.string LISTEN, num lua k)

/-- The table of connections, with its rows in ascending order. -/
def treeValue (n : ℕ) (tree : ℕ → Option (Entry HostPort)) : Value P :=
  .table ((List.range' 1 n).filterMap fun i =>
    (tree i).map fun e => (num lua i, .table (entryRows lua e) .none)) .none

variable {lua}

theorem isTable_of_rows {fields : List (Value P × (Value P → Prop))} {rows : List (Value P × Value P)}
    (h : List.Forall₂ (fun f row => row.1 = f.1 ∧ f.2 row.2) fields rows) :
    IsTable fields (.table rows .none) :=
  ⟨rows, rows, rfl, List.Perm.refl _, h⟩

theorem isTable_addressRows (a : Address HostPort) :
    IsTable (addressFields lua a) (.table (addressRows lua a) .none) :=
  isTable_of_rows (.cons ⟨rfl, rfl⟩ (.cons ⟨rfl, rfl⟩ (.cons ⟨rfl, rfl⟩ .nil)))

theorem isTable_entryRows (e : Entry HostPort) :
    IsTable (entryFields lua e) (.table (entryRows lua e) .none) := by
  obtain ⟨connect, listen⟩ := e
  refine isTable_of_rows ?_
  cases connect with
  | none =>
    cases listen with
    | none => exact .nil
    | some k => exact .cons ⟨rfl, rfl⟩ .nil
  | some a =>
    cases listen with
    | none => exact .cons ⟨rfl, isTable_addressRows a⟩ .nil
    | some k => exact .cons ⟨rfl, isTable_addressRows a⟩ (.cons ⟨rfl, rfl⟩ .nil)

theorem isTree_treeValue (n : ℕ) (tree : ℕ → Option (Entry HostPort)) :
    IsTree lua n tree (treeValue lua n tree) := by
  refine isTable_of_rows ?_
  generalize List.range' 1 n = is
  induction is with
  | nil => exact .nil
  | cons i is ih =>
    cases hi : tree i with
    | none => simpa [hi] using ih
    | some e =>
      simp only [List.filterMap_cons, hi, Option.map_some]
      exact .cons ⟨rfl, isTable_entryRows e⟩ ih

variable (lua) in
/-- The send buffer of a connection has room for the table. -/
def hasRoom (n : ℕ) (tree : ℕ → Option (Entry HostPort)) : Bool :=
  decide ((encode lua true false (treeValue lua n tree)).length ≤ SEND_RECV_SIZE)

theorem hasRoom_eq (n : ℕ) (tree : ℕ → Option (Entry HostPort)) : hasRoom lua n tree =
    decide (10 + ((List.range' 1 n).filterMap fun i => (tree i).map fun e => 9 + entrySize e).sum ≤
      SEND_RECV_SIZE) := by
  rw [hasRoom, (saves_tree (isTree_treeValue n tree)).2]

/-- Whether a connection without an unsent rest sends the table, saved in any order. -/
theorem send_tree {n : ℕ} {tree : ℕ → Option (Entry HostPort)} {v : Value P} (hv : IsTree lua n tree v)
    {c : Cliser.Client} (hc : Holding c []) {top : ℕ} (htop : 2 ≤ top) :
    ∃ c', (sockSendMsg lua v top c).result = some (hasRoom lua n tree, c') := by
  obtain ⟨c', hresult, -⟩ := send_of_saves (saves_tree hv) hc htop
  exact ⟨c', by rw [hresult, hasRoom_eq]⟩

end

def localAddress : HostPort := ⟨[49, 50, 55, 46, 48, 46, 48, 46, 49], .number 8080⟩

def freshSocket : Socket := ⟨[], [], fun _ => 0, 0⟩

theorem tableSize_const (a : HostPort) (n : ℕ) :
    tableSize (fun _ => a) n = 10 + 19 * n + 24 * (n / 2) + (n - 1) * (16 + addressSize a) := by
  rw [tableSize, List.map_const', List.sum_replicate, List.length_range', smul_eq_mul]

/-- Three nodes on one machine. -/
theorem tree_table_sent_iff_three : ∃ c',
    (sockSendMsg sampleLua (treeValue sampleLua 3 (plannedTree (fun _ => localAddress) 3 (2 - 1))) 2
      (Client.create freshSocket)).result = some (true, c') ∧ c'.sock.sent.length = 311 := by
  have hmain := @tree_table_sent_iff UInt8 sampleLua 3 2 (by norm_num) (by norm_num) (by norm_num)
    (fun _ => localAddress) _ (isTree_treeValue 3 _)
  have hsize : tableSize (fun _ => localAddress) 3 = 303 := by decide
  obtain ⟨c', hresult, hsent⟩ := hmain.2 _ 2 (Holding.create freshSocket) le_rfl
  refine ⟨c', by rw [hresult, hsize]; rfl, ?_⟩
  rw [hsent, hsize, if_pos (by decide), frame, List.length_append, List.length_append, length_leBytes,
    hmain.1, hsize]
  rfl

/-- The addresses of 128 nodes on one machine are too many. -/
theorem large_tree_refused :
    let v := treeValue sampleLua 128 (plannedTree (fun _ => localAddress) 128 (7 - 1))
    SEND_RECV_SIZE < (encode sampleLua true false v).length ∧
      ∃ c', (sockSendMsg sampleLua v 2 (Client.create freshSocket)).result = some (false, c') ∧
        c'.sock.sent = [] := by
  intro v
  have hsaves : Saves sampleLua v (tableSize (fun _ => localAddress) 128) :=
    saves_planned (by norm_num) (by norm_num) (isTree_treeValue 128 _)
  have hsize : SEND_RECV_SIZE < tableSize (fun _ => localAddress) 128 := by
    rw [tableSize_const]
    decide
  obtain ⟨c', hresult, hsent⟩ := send_of_saves hsaves (Holding.create freshSocket) le_rfl
  rw [decide_eq_false (by omega)] at hresult
  rw [if_neg (by omega)] at hsent
  exact ⟨hsaves.2 ▸ hsize, c', hresult, hsent⟩

end TorchIpc.Tree
