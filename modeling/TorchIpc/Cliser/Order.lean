import TorchIpc.Base.Sorting
import TorchIpc.Cliser.Clients

/-! The order in which a server goes through its clients (`cliser_server_clients` and
`cliser_server_broadcast`). The comparators subtract the ids, which is exact as long as
no difference leaves the range of an `int`. Elsewhere they are no order, or the wrong
one. -/

namespace TorchIpc

open Linked Runs Sorting

namespace Server

def idOf (s : Server) (c : UInt64) : Int32 := ((s.info c).map ClientInfo.id).getD 0

/-- `compare_clients`; the difference wraps. -/
def compareClients (s : Server) (a b : UInt64) : ℤ := (s.idOf a - s.idOf b).toInt

def compareClientsInverted (s : Server) (a b : UInt64) : ℤ := (s.idOf b - s.idOf a).toInt

end Server

section
variable {σ E : Type}

/-- The loop over the array of clients, which an error leaves: the clients it has come to,
and how it ends. -/
def visitLoop (f : UInt64 → σ → Except E σ) : List UInt64 → σ → List UInt64 × Except E σ
  | [], st => ([], .ok st)
  | c :: cs, st =>
    match f c st with
    | .error e => ([c], .error e)
    | .ok st =>
      let (calls, r) := visitLoop f cs st
      (c :: calls, r)

variable (qsort : (UInt64 → UInt64 → ℤ) → List UInt64 → List UInt64)

/-- The end of `cliser_server_clients`, when enough clients are connected: `f` is the
callback, on any state of the program. A call with a number waits, and has no tag and no
`invert_order`. -/
def serverClients (tag : Option (List UInt8)) (invert : Int32) (f : UInt64 → σ → Except E σ)
    (s : Server) (st : σ) (fuel : ℕ) : Option (List UInt64 × Except E σ) := do
  let clients ← copyLoop tag s fuel s.clients
  if invert ≠ 0 then return visitLoop f (qsort s.compareClientsInverted clients) st
  else return visitLoop f (qsort s.compareClients clients) st

/-- `cliser_server_broadcast`, where `f` sends. -/
def serverBroadcast (tag : Option (List UInt8)) (f : UInt64 → σ → Except E σ) (s : Server) (st : σ)
    (fuel : ℕ) : Option (List UInt64 × Except E σ) := do
  let clients ← copyLoop tag s fuel s.clients
  return visitLoop f (qsort s.compareClients clients) st

end

/-- The clients that match a tag, each once, in an order of their ids. -/
structure InOrder (s : Server) (tag : Option (List UInt8)) (le : ℤ → ℤ → Prop) (order : List UInt64) : Prop where
  once : order.Nodup
  mem_iff : ∀ c, c ∈ order ↔ ∃ i, s.info c = some i ∧ i.tagged tag = true
  sorted : order.Pairwise fun a b => le (s.idOf a).toInt (s.idOf b).toInt

/-- A loop goes through these clients in this order, up to the first error. -/
def Goes (order : List UInt64)
    (loop : ∀ {σ E : Type}, (UInt64 → σ → Except E σ) → σ → ℕ → Option (List UInt64 × Except E σ)) :
    Prop :=
  ∀ (σ E : Type) (f : UInt64 → σ → Except E σ) (st : σ), ∃ calls r,
    Yields (loop f st) (some (calls, r)) ∧
    calls <+: order ∧ ∀ st', r = .ok st' → calls = order

/-- A loop goes through the clients that match the tag, in the order of their ids. -/
def GoesInOrder (s : Server) (tag : Option (List UInt8)) (le : ℤ → ℤ → Prop)
    (loop : ∀ {σ E : Type}, (UInt64 → σ → Except E σ) → σ → ℕ → Option (List UInt64 × Except E σ)) :
    Prop :=
  ∃ order, InOrder s tag le order ∧ Goes order loop

/-- No two clients that match the tag have ids of which the difference leaves the range of
an `int`. -/
def Near (s : Server) (tag : Option (List UInt8)) : Prop :=
  ∀ a b i j, s.info a = some i → s.info b = some j → i.tagged tag = true → j.tagged tag = true →
    i.id.toInt - j.id.toInt < 2 ^ 31

/-! ### The array -/

section
variable {s : Server} {l : List UInt64} {tag : Option (List UInt8)}

def matching (s : Server) (tag : Option (List UInt8)) (l : List UInt64) : List UInt64 :=
  l.filter fun c => (s.info c).any (ClientInfo.tagged tag)

theorem copyLoop_eq {before first : Option UInt64} (h : Segment s.next s.prev before first l none)
    (hinfo : ∀ c ∈ l, ∃ i, s.info c = some i) {fuel : ℕ} (hf : l.length < fuel) :
    copyLoop tag s fuel first = some (matching s tag l) := by
  induction l generalizing before first fuel with
  | nil =>
    obtain rfl : first = none := h
    obtain ⟨n, rfl⟩ : ∃ n, fuel = n + 1 := ⟨fuel - 1, by omega⟩
    rfl
  | cons c l ih =>
    obtain ⟨rfl, -, hrest⟩ := h
    obtain ⟨n, rfl⟩ : ∃ n, fuel = n + 1 := ⟨fuel - 1, by omega⟩
    obtain ⟨i, hi⟩ := hinfo c List.mem_cons_self
    have hlen : l.length < n := by
      rw [List.length_cons] at hf
      omega
    have hloop := ih hrest (fun d hd => hinfo d (List.mem_cons_of_mem _ hd)) hlen
    have hmatching : matching s tag (c :: l) =
        if i.tagged tag then c :: matching s tag l else matching s tag l := by
      simp only [matching, List.filter_cons, hi, Option.any_some]
    rw [copyLoop, hi, Option.bind_eq_bind, Option.bind_some, hloop, hmatching]
    rfl

theorem mem_matching (h : s.Lists l) (c : UInt64) :
    c ∈ matching s tag l ↔ ∃ i, s.info c = some i ∧ i.tagged tag = true := by
  rw [matching, List.mem_filter, h.mem_iff]
  constructor
  · rintro ⟨⟨i, hi⟩, hany⟩
    rw [hi] at hany
    exact ⟨i, hi, hany⟩
  · rintro ⟨i, hi, htag⟩
    exact ⟨⟨i, hi⟩, by rw [hi]; exact htag⟩

theorem inOrder_iff (h : s.Lists l) {le : ℤ → ℤ → Prop} {order : List UInt64} :
    InOrder s tag le order ↔ order.Perm (matching s tag l) ∧
      order.Pairwise fun a b => le (s.idOf a).toInt (s.idOf b).toInt := by
  have hnodup : (matching s tag l).Nodup := h.linked.nodup.filter _
  constructor
  · rintro ⟨honce, hmem, hsorted⟩
    exact ⟨(List.perm_ext_iff_of_nodup honce hnodup).mpr fun c =>
      (hmem c).trans (mem_matching h c).symm, hsorted⟩
  · rintro ⟨hperm, hsorted⟩
    exact ⟨hperm.nodup_iff.mpr hnodup, fun c => hperm.mem_iff.trans (mem_matching h c), hsorted⟩

/-! ### The loop -/

theorem visitLoop_prefix {σ E : Type} (f : UInt64 → σ → Except E σ) (cs : List UInt64) (st : σ) :
    (visitLoop f cs st).1 <+: cs ∧
      ∀ st', (visitLoop f cs st).2 = .ok st' → (visitLoop f cs st).1 = cs := by
  induction cs generalizing st with
  | nil => exact ⟨List.prefix_rfl, fun _ _ => rfl⟩
  | cons c cs ih =>
    rw [visitLoop]
    cases hf : f c st with
    | error e => exact ⟨⟨cs, rfl⟩, nofun⟩
    | ok st₁ =>
      obtain ⟨hpre, hall⟩ := ih st₁
      exact ⟨(List.prefix_cons_inj c).mpr hpre, fun st' h => congrArg (c :: ·) (hall st' h)⟩

theorem visitLoop_ok (cs : List UInt64) :
    visitLoop (fun _ _ => .ok ()) cs () = (cs, (.ok () : Except Unit Unit)) := by
  induction cs with
  | nil => rfl
  | cons c cs ih => simp only [visitLoop, ih]

/-- A loop over an array goes in the order of the array, and in no other. -/
theorem goes_iff {order array : List UInt64}
    {loop : ∀ {σ E : Type}, (UInt64 → σ → Except E σ) → σ → ℕ → Option (List UInt64 × Except E σ)}
    {n : ℕ} (hloop : ∀ {σ E : Type} (f : UInt64 → σ → Except E σ) (st : σ), ∀ fuel ≥ n,
      loop f st fuel = some (visitLoop f array st)) : Goes order loop ↔ order = array := by
  constructor
  · intro h
    obtain ⟨calls, r, hy, -, hall⟩ := h Unit Unit (fun _ _ => .ok ()) ()
    have heq := Option.some.inj (hy.unique ⟨n, hloop (fun _ _ => .ok ()) ()⟩)
    rw [visitLoop_ok] at heq
    obtain ⟨rfl, rfl⟩ := Prod.mk.inj heq
    exact (hall () rfl).symm
  · rintro rfl σ E f st
    obtain ⟨hpre, hall⟩ := visitLoop_prefix f order st
    exact ⟨_, _, ⟨n, hloop f st⟩, hpre, hall⟩

variable {qsort : (UInt64 → UInt64 → ℤ) → List UInt64 → List UInt64}

theorem serverClients_order (h : s.Lists l) (invert : Int32) {order : List UInt64} :
    Goes order (fun f => serverClients qsort tag invert f s) ↔ order = qsort
      (if invert ≠ 0 then s.compareClientsInverted else s.compareClients) (matching s tag l) := by
  have hcopy : ∀ fuel ≥ l.length + 1, copyLoop tag s fuel s.clients = some (matching s tag l) :=
    fun fuel hf => copyLoop_eq h.linked.segment (fun c hc => h.info_eq hc) hf
  refine @goes_iff _ _ _ (l.length + 1) fun f st fuel hf => ?_
  rw [serverClients, hcopy fuel hf]
  split_ifs
  · rfl
  · rfl

theorem serverBroadcast_order (h : s.Lists l) {order : List UInt64} :
    Goes order (fun f => serverBroadcast qsort tag f s) ↔
      order = qsort s.compareClients (matching s tag l) := by
  refine @goes_iff _ _ _ (l.length + 1) fun f st fuel hf => ?_
  rw [serverBroadcast, copyLoop_eq h.linked.segment (fun c hc => h.info_eq hc) hf]
  rfl

/-! ### Ids -/

theorem idOf_eq {c : UInt64} {i : ClientInfo} (hi : s.info c = some i) : s.idOf c = i.id := by
  rw [Server.idOf, hi]
  rfl

theorem near_iff (h : s.Lists l) : Near s tag ↔ ∀ a ∈ matching s tag l, ∀ b ∈ matching s tag l,
    (s.idOf a).toInt - (s.idOf b).toInt < 2 ^ 31 := by
  constructor
  · intro hnear a ha b hb
    obtain ⟨i, hi, hti⟩ := (mem_matching h a).mp ha
    obtain ⟨j, hj, htj⟩ := (mem_matching h b).mp hb
    rw [idOf_eq hi, idOf_eq hj]
    exact hnear a b i j hi hj hti htj
  · intro hall a b i j hi hj hti htj
    rw [← idOf_eq hi, ← idOf_eq hj]
    exact hall a ((mem_matching h a).mpr ⟨i, hi, hti⟩) b ((mem_matching h b).mpr ⟨j, hj, htj⟩)

theorem idOf_sub_lt (a b : UInt64) : (s.idOf a).toInt - (s.idOf b).toInt < 2 ^ 32 := by
  have hhigh := (s.idOf a).toInt_lt
  have hlow := (s.idOf b).le_toInt
  omega

theorem ascending_iff (h : s.Lists l) :
    (∀ qsort, Sorts qsort → InOrder s tag (· ≤ ·) (qsort s.compareClients (matching s tag l))) ↔
      Near s tag := by
  simp only [inOrder_iff h, near_iff h]
  apply sorts_by_difference_iff
  · exact fun a _ b _ => idOf_sub_lt a b
  · exact fun a _ b _ => Int32.toInt_sub _ _

/-- In descending order the keys are the ids with their signs turned round. -/
theorem descending_iff (h : s.Lists l) :
    (∀ qsort, Sorts qsort →
      InOrder s tag (· ≥ ·) (qsort s.compareClientsInverted (matching s tag l))) ↔ Near s tag := by
  have hkeys := @sorts_by_difference_iff _ s.compareClientsInverted (matching s tag l)
    (fun c => -(s.idOf c).toInt)
    (fun a _ b _ => by have := @idOf_sub_lt s b a; omega)
    (fun a _ b _ => by
      rw [Server.compareClientsInverted, Int32.toInt_sub]
      congr 1
      omega)
  have hge : ∀ a b, (s.idOf a).toInt ≥ (s.idOf b).toInt ↔ -(s.idOf a).toInt ≤ -(s.idOf b).toInt :=
    fun a b => by omega
  simp only [inOrder_iff h, near_iff h, hge]
  refine hkeys.trans ⟨fun hnear a ha b hb => ?_, fun hnear a ha b hb => ?_⟩
  · have hlt := hnear b hb a ha
    omega
  · have hlt := hnear b hb a ha
    omega

/-- Whatever sorts, the three loops go through the clients that match the tag in the order
of their ids if and only if no two of these ids are too far apart. -/
theorem client_order_iff (h : s.Lists l) (tag : Option (List UInt8)) :
    ((∀ qsort, Sorts qsort → GoesInOrder s tag (· ≤ ·) fun f => serverClients qsort tag 0 f s) ↔ Near s tag) ∧
      (∀ invert ≠ 0, (∀ qsort, Sorts qsort →
        GoesInOrder s tag (· ≥ ·) fun f => serverClients qsort tag invert f s) ↔ Near s tag) ∧
      ((∀ qsort, Sorts qsort → GoesInOrder s tag (· ≤ ·) fun f => serverBroadcast qsort tag f s) ↔
        Near s tag) := by
  have hexists : ∀ {le : ℤ → ℤ → Prop} {array : List UInt64},
      (∃ order, InOrder s tag le order ∧ order = array) ↔ InOrder s tag le array :=
    fun {_ _} => ⟨fun ⟨_, h, heq⟩ => heq ▸ h, fun h => ⟨_, h, rfl⟩⟩
  refine ⟨?_, fun invert hinvert => ?_, ?_⟩
  · simp only [GoesInOrder, serverClients_order h, ne_eq, not_true_eq_false, if_false, hexists]
    exact ascending_iff h
  · simp only [GoesInOrder, serverClients_order h, if_pos hinvert, hexists]
    exact descending_iff h
  · simp only [GoesInOrder, serverBroadcast_order h, hexists]
    exact ascending_iff h

end

/-! ### Two clients -/

/-- A server whose two clients have these ids. -/
def twoClients (m n : Int32) : Server where
  sock := 3
  info c := if c = 1 then some ⟨4, none, m⟩ else if c = 2 then some ⟨5, none, n⟩ else none
  next c := if c = 1 then some 2 else none
  prev c := if c = 2 then some 1 else none
  clients := some 1
  numClients := 2

theorem twoClients_info {m n : Int32} {c : UInt64} {i : ClientInfo} (h : (twoClients m n).info c = some i) :
    (c = 1 ∧ i = ⟨4, none, m⟩) ∨ c = 2 ∧ i = ⟨5, none, n⟩ := by
  simp only [twoClients] at h
  split_ifs at h with h₁ h₂
  · exact Or.inl ⟨h₁, (Option.some.inj h).symm⟩
  · exact Or.inr ⟨h₂, (Option.some.inj h).symm⟩

theorem twoClients_lists (m n : Int32) : (twoClients m n).Lists [1, 2] where
  linked := ⟨by decide, rfl, rfl, rfl, rfl, rfl⟩
  mem_iff c := by
    constructor
    · intro hc
      rcases List.mem_pair.mp hc with rfl | rfl
      · exact ⟨_, rfl⟩
      · exact ⟨_, rfl⟩
    · rintro ⟨i, hi⟩
      rcases twoClients_info hi with ⟨rfl, -⟩ | ⟨rfl, -⟩
      · simp
      · simp
  socks :=
    { bound := fun c i hi => by
        rcases twoClients_info hi with ⟨-, rfl⟩ | ⟨-, rfl⟩
        · norm_num
        · norm_num
      distinct := fun c d i j hi hj heq => by
        rcases twoClients_info hi with ⟨rfl, rfl⟩ | ⟨rfl, rfl⟩ <;>
          rcases twoClients_info hj with ⟨rfl, rfl⟩ | ⟨rfl, rfl⟩ <;> simp_all }
  count := rfl

/-- Ids like those that the tree gives out. -/
theorem client_order_two : ∃ tag, Near (twoClients 2 1) tag ∧
    ∀ qsort, Sorts qsort → GoesInOrder (twoClients 2 1) tag (· ≤ ·) fun f =>
      serverClients qsort tag 0 f (twoClients 2 1) := by
  have hnear : Near (twoClients 2 1) none := by
    intro a b i j hi hj _ _
    rcases twoClients_info hi with ⟨-, rfl⟩ | ⟨-, rfl⟩ <;> rcases twoClients_info hj with ⟨-, rfl⟩ | ⟨-, rfl⟩ <;> decide
  exact ⟨none, hnear, ((client_order_iff (twoClients_lists 2 1) none).1).mpr hnear⟩

/-- The greatest id and -2: whatever sorts, the greatest comes first. -/
theorem distant_ids_disordered :
    (twoClients 2147483647 (-2)).Lists [1, 2] ∧ ∀ qsort, Sorts qsort →
      ¬ GoesInOrder (twoClients 2147483647 (-2)) none (· ≤ ·) fun f =>
        serverClients qsort none 0 f (twoClients 2147483647 (-2)) := by
  have hlists := twoClients_lists 2147483647 (-2)
  refine ⟨hlists, fun qsort hsorts ⟨order, hin, hgoes⟩ => ?_⟩
  rw [serverClients_order hlists, if_neg (not_not.mpr rfl)] at hgoes
  obtain ⟨hperm, hkeys⟩ := (inOrder_iff hlists).mp hin
  have hc : Consistent (twoClients 2147483647 (-2)).compareClients
      (matching (twoClients 2147483647 (-2)) none [1, 2]) := by
    rw [show matching (twoClients 2147483647 (-2)) none [1, 2] = [1, 2] from rfl]
    constructor
    · intro a ha b hb
      rcases List.mem_pair.mp ha with rfl | rfl <;> rcases List.mem_pair.mp hb with rfl | rfl <;> decide
    · intro a ha b hb c hc
      rcases List.mem_pair.mp ha with rfl | rfl <;> rcases List.mem_pair.mp hb with rfl | rfl <;>
        rcases List.mem_pair.mp hc with rfl | rfl <;> decide
  have hordered := (hsorts _ _ hc).2
  rw [← hgoes] at hordered
  have h₁ : (1 : UInt64) ∈ order := hperm.mem_iff.mpr (by decide)
  have h₂ : (2 : UInt64) ∈ order := hperm.mem_iff.mpr (by decide)
  rcases rel_of_pairwise (hordered.and hkeys) h₁ h₂ (by decide) with ⟨-, h⟩ | ⟨h, -⟩
  · exact absurd h (by decide)
  · exact absurd h (by decide)

end TorchIpc
