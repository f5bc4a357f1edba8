import TorchIpc.Tree.InPlace
import Mathlib.Algebra.BigOperators.Group.Finset.Basic

/-! Nodes that make different numbers of `allReduce` calls. A node that has no
more values calls once more with a zero function, and stays in that call, round
after round, until every node has come to the same point. -/

namespace TorchIpc.Tree

open Network

/-! ### The rounds -/

section
variable {L ι : Type} [DecidableEq ι] [Fintype ι] (R : Rooted ι) (reduce : L → L → L) (e : L)
  (vals : ι → List L)

omit [DecidableEq ι] in
/-- The nodes that still have a value in round `r`. -/
def contributors (r : ℕ) : Finset ι := Finset.univ.filter fun i => r < (vals i).length

omit [DecidableEq ι] in
/-- The greatest number of values; counted from zero, the first round in which no
node has one. -/
def lastRound : ℕ := Finset.univ.sup fun i => (vals i).length

omit [DecidableEq ι] [Fintype ι] in
/-- What a node brings into round `r`: its value, or the identity and one done
node. -/
def share (r : ℕ) (i : ι) : List L × ℕ :=
  if r < (vals i).length then ([(vals i).getD r e], 0) else ([e], 1)

theorem share_eq (r : ℕ) (i : ι) : share e vals r i =
    ([if i ∈ contributors vals r then (vals i).getD r e else e],
      if i ∈ contributors vals r then 0 else 1) := by
  simp only [share, contributors, Finset.mem_filter, Finset.mem_univ, true_and]
  split_ifs <;> rfl

omit [DecidableEq ι] in
/-- The reduction of the values of round `r`. -/
def reduction [Std.Associative reduce] [Std.Commutative reduce] (r : ℕ) : L :=
  (contributors vals r).fold reduce e fun i => (vals i).getD r e

/-- The root has the reduction over the contributors: the others bring in the
identity. -/
theorem shares_root_fst [ha : Std.Associative reduce] [hc : Std.Commutative reduce]
    (hid : ∀ x, reduce e x = x) (r : ℕ) :
    (shares R reduce (share e vals r) R.root).1 = [reduction reduce e vals r] := by
  let _ : CommMonoid L :=
    { mul := reduce
      one := e
      mul_assoc := ha.assoc
      mul_comm := hc.comm
      one_mul := hid
      mul_one := fun x => (hc.comm x e).trans (hid x) }
  let x : ι → L := fun i => if i ∈ contributors vals r then (vals i).getD r e else e
  have hleaf : (fun i => (share e vals r i).1) = fun i => [x i] := by
    funext i
    rw [share_eq]
  have hsingle : R.up (List.zipWith reduce) (fun i => [x i]) R.root = [R.up reduce x R.root] :=
    (R.map_subtree (f := fun a : L => [a]) (fun _ _ => rfl) x _ R.root).symm
  have hprod : R.up reduce x R.root = ∏ i, x i :=
    R.map_up_root (h := fun a : L => Additive.ofMul a) (fun _ _ => rfl) x
  rw [shares_fst, hleaf, hsingle, hprod, reduction]
  congr 1
  refine Eq.trans ?_ (Finset.prod_eq_fold (contributors vals r) fun i => (vals i).getD r e)
  exact (Finset.prod_ite_mem Finset.univ (contributors vals r) fun i => (vals i).getD r e).trans
    (by rw [Finset.univ_inter])

theorem shares_root_snd (r : ℕ) :
    (shares R reduce (share e vals r) R.root).2 + (contributors vals r).card = Fintype.card ι := by
  have hcard : (contributors vals r).card = ∑ i, if i ∈ contributors vals r then 1 else 0 := by
    simp
  have hone : ∀ i, (share e vals r i).2 + (if i ∈ contributors vals r then 1 else 0) = 1 := by
    intro i
    rw [share_eq]
    split_ifs <;> rfl
  rw [shares_snd_root, hcard, ← Finset.sum_add_distrib, Finset.sum_congr rfl fun i _ => hone i,
    Finset.sum_const, Finset.card_univ, smul_eq_mul, mul_one]

omit [DecidableEq ι] in
theorem contributors_pos {r : ℕ} (h : r < lastRound vals) : 0 < (contributors vals r).card := by
  obtain ⟨i, -, hi⟩ := (Finset.lt_sup_iff).mp h
  exact Finset.card_pos.mpr ⟨i, by simpa [contributors] using hi⟩

omit [DecidableEq ι] in
theorem length_le_lastRound (i : ι) : (vals i).length ≤ lastRound vals :=
  Finset.le_sup (f := fun i => (vals i).length) (Finset.mem_univ i)

omit [DecidableEq ι] in
theorem contributors_lastRound : contributors vals (lastRound vals) = ∅ := by
  rw [contributors, Finset.filter_eq_empty_iff]
  intro i _ hi
  exact absurd hi (Nat.not_lt.mpr (length_le_lastRound vals i))

end

/-! ### The table of a call -/

section
variable {N S L : Type} [LinearOrder N] [LinearOrder S] [One N]

def single (x : L) : Template N S L where
  value := .table [(.num 1, .leaf x)]
  keyed := keyed_wrap (v := .leaf x) trivial
  inOrder := by simp [InOrder, InOrderEntries]

variable {e : L}

theorem holds_wrap (x : L) : (single e : Template N S L).Holds (wrap (some (.leaf x))) [x] :=
  ⟨keyed_wrap trivial, sorted_wrap_leaf x, rfl⟩

theorem first_of_holds {v : Nested N S L} {x : L} (h : (single e : Template N S L).Holds v [x]) :
    first v = some (.leaf x) :=
  first_of_sorted h.sorted_eq

end

namespace InPlace

/-! ### The program of a node -/

section
variable {A V F N S ι : Type} [LinearOrder N] [LinearOrder S] [One N]

/-- What a node finds in the results of a call when it returns. -/
structure Seen (A V : Type) where
  value : Option (Content A V)
  contributed : ℤ
  rounds : ℕ

def see (o : Outcome N S (Leaf A)) : Routine ι A V (Seen A V) := do
  let mem ← get
  return ⟨match o.value with | some (.leaf l) => some (mem.content l) | _ => none, o.contributed, o.rounds⟩

/-- One call for each value, then the closing call. Before a call the node makes its next value. -/
def steps (torch : Torch V F) (q : Qsort ι) (conn : Conn ι) (numNodes fuel : ℕ) (reduce : Reduce A V)
    (zero : Zero A V) : List (Memory V → Leaf A × Memory V) → Option (Nested N S (Leaf A)) →
    Routine ι A V (List (Seen A V) × Seen A V)
  | [], lastValue => do
    let o ← allReduce torch q conn numNodes fuel reduce (some zero) lastValue none
    return ([], ← see o)
  | make :: makes, lastValue => do
    let x ← modifyGet make
    let o ← allReduce torch q conn numNodes fuel reduce none lastValue (some (.leaf x))
    let seen ← see o
    let r ← steps torch q conn numNodes fuel reduce zero makes o.lastValue
    return (seen :: r.1, r.2)

/-! ### What is assumed of it -/

abbrev Sized (A : Type) (torch : Torch V F) (φ : Option F) : Type :=
  {x : Content A V // torch.formOf x = φ}

/-- The function on contents of the form, taken as one on all contents. -/
def Sized.lift [DecidableEq F] {torch : Torch V F} {φ : Option F}
    (g : Sized A torch φ → Sized A torch φ → Sized A torch φ) (x y : Content A V) : Content A V :=
  if h : torch.formOf x = φ ∧ torch.formOf y = φ then (g ⟨x, h.1⟩ ⟨y, h.2⟩).1 else x

variable (torch : Torch V F)

/-- The node makes a value that holds `x`, in a tensor that is not `tempValue`. -/
def Makes (mem₀ : Memory V) (make : Memory V → Leaf A × Memory V) (x : Content A V) : Prop :=
  ∀ mem, Later torch mem₀ mem → Later torch mem (make mem).2 ∧
    Distinct (make mem).2 [(make mem).1] ∧
    (make mem).2.content (make mem).1 = x

/-- The zero function leaves `e` in the leaf it is given or in a new tensor. -/
def Zeroes (zero : Zero A V) (φ : Option F) (e : Content A V) : Prop :=
  ∀ mem l i, torch.formOf (mem.content l) = φ → (∀ r, l.ref = some r → r < mem.next) →
    Changed torch True l none e mem ((zero l i mem).1.getD l, (zero l i mem).2)

/-- The one leaf of the table holds `x`. -/
def Rests (mem₀ : Memory V) (x : Content A V) (r : Nested N S (Leaf A) × Memory V) : Prop :=
  Later torch mem₀ r.2 ∧ ∃ l, (single (.tensor 0)).Holds r.1 [l] ∧ Distinct r.2 [l] ∧
    r.2.content l = x

variable {torch} {mem₀ mem : Memory V} {x y : Content A V} {v : Nested N S (Leaf A)}

theorem Rests.carries (h : Rests torch mem₀ x (v, mem)) :
    ∃ l, Carries torch True mem [l] [x] (single (.tensor 0)) (v, mem) := by
  obtain ⟨hlater, l, hv, hdist, rfl⟩ := h
  exact ⟨l, [l], hv, hdist.kept hlater.sound⟩

theorem Carries.rests {mem' : Memory V} {l : Leaf A} (hlater : Later torch mem₀ mem)
    (h : Carries torch True mem [l] [y] (single (.tensor 0)) (v, mem')) :
    Rests torch mem₀ y (v, mem') := by
  obtain ⟨ls, hv, hkept⟩ := h
  obtain ⟨k, rfl⟩ := List.length_eq_one_iff.mp hkept.stays.length_eq
  exact ⟨hlater.trans hkept.toLater, k, hv, hkept.toDistinct, by simpa using hkept.contents⟩

theorem Rests.first (h : Rests torch mem₀ x (v, mem)) :
    ∃ l, first v = some (.leaf l) ∧ mem.content l = x := by
  obtain ⟨-, l, hv, -, hx⟩ := h
  exact ⟨l, first_of_holds hv, hx⟩

omit [LinearOrder N] [LinearOrder S] [One N] in
theorem run_see {o : Outcome N S (Leaf A)} {l : Leaf A} (h : o.value = some (.leaf l)) :
    (see o : Routine ι A V (Seen A V)).run mem =
      pure (⟨some (mem.content l), o.contributed, o.rounds⟩, mem) := by
  simp only [see, h]
  rfl

theorem zeroAll_rests {zero : Zero A V} {φ : Option F} {e : Content A V} (hzero : Zeroes torch zero φ e)
    (hx : torch.formOf x = φ) (h : Rests torch mem₀ x (v, mem)) :
    ∃ v' mem', (zeroAll zero v : Routine ι A V _).run mem = pure (v', mem') ∧
      Rests torch mem₀ e (v', mem') := by
  obtain ⟨hlater, l, hv, hdist, rfl⟩ := h
  have hchanged := hzero mem l 1 hx fun r hr => (hdist.known r (mem_refs List.mem_cons_self hr)).1
  have hstart : Kept torch True mem [l] mem ([] ++ l :: []) ([] ++ mem.content l :: []) :=
    hdist.kept hlater.sound
  have hkept := hstart.set rfl (by simp) hchanged
  refine ⟨(single (.tensor 0)).fill [(zero l 1 mem).1.getD l], (zero l 1 mem).2, ?_, ?_⟩
  · rw [zeroAll, hv.walkTable]
    simp [visitLeaf]
    rfl
  · exact Carries.rests hlater ⟨_, Template.holds_fill rfl, hkept⟩

end

/-! ### The turns of all rounds -/

section
variable {A V F ι : Type} [DecidableEq ι] [Fintype ι] [DecidableEq F] {torch : Torch V F} {φ : Option F}
  (R : Rooted ι) (g : Sized A torch φ → Sized A torch φ → Sized A torch φ) (e : Sized A torch φ)
  (vals : ι → List (Sized A torch φ))

/-- What the subtree of each node amounts to in round `r`. -/
def roundShares (r : ℕ) (i : ι) : List (Content A V) × ℕ :=
  shares R (Sized.lift g) (fun i => ((share e vals r i).1.map Subtype.val, (share e vals r i).2)) i

def turnsFrom (r : ℕ) (i j : ι) : List (Turn (Msg (Content A V))) :=
  (List.range' r (lastRound vals + 1 - r)).flatMap fun r =>
    roundTurns R (roundShares R g e vals r) i j

theorem turnsFrom_eq {r : ℕ} (hr : r ≤ lastRound vals) (i : ι) : turnsFrom R g e vals r i = fun j =>
    roundTurns R (roundShares R g e vals r) i j ++ turnsFrom R g e vals (r + 1) i j := by
  funext j
  rw [turnsFrom, turnsFrom, show lastRound vals + 1 - r = (lastRound vals + 1 - (r + 1)) + 1 by omega,
    List.range'_succ, List.flatMap_cons]

theorem turnsFrom_lastRound (i : ι) :
    turnsFrom R g e vals (lastRound vals) i = roundTurns R (roundShares R g e vals (lastRound vals)) i := by
  funext j
  simp [turnsFrom]

theorem flip_turnsFrom (r : ℕ) (i j : ι) :
    turnsFrom R g e vals r j i = (turnsFrom R g e vals r i j).map .flip := by
  rw [turnsFrom, turnsFrom, List.map_flatMap]
  simp only [flip_roundTurns R i j]

theorem turnsFrom_along {r : ℕ} {i j : ι} (h : turnsFrom R g e vals r i j ≠ []) :
    R.parent i = some j ∨ R.parent j = some i := by
  by_contra hno
  apply h
  rw [turnsFrom, List.flatMap_eq_nil_iff]
  intro r _
  by_contra hne
  exact hno (roundTurns_along R hne)

omit [DecidableEq ι] in
/-- The shares are those of the contents of the form. -/
theorem roundShares_eq (r : ℕ) (i : ι) : roundShares R g e vals r i =
    ((shares R g (share e vals r) i).1.map Subtype.val, (shares R g (share e vals r) i).2) := by
  have hlift : ∀ xs ys : List (Sized A torch φ),
      (List.zipWith g xs ys).map Subtype.val = List.zipWith (Sized.lift g) (xs.map Subtype.val)
      (ys.map Subtype.val) := by
    intro xs ys
    rw [List.map_zipWith, List.zipWith_map]
    congr 1
    funext x y
    rw [Sized.lift, dif_pos ⟨x.2, y.2⟩]
  exact (R.map_subtree (f := fun a : List (Sized A torch φ) × ℕ => (a.1.map Subtype.val, a.2))
    (fun a b => Prod.ext (hlift a.1 b.1) rfl) _ _ i).symm

theorem roundShares_forms (r : ℕ) (i : ι) : (roundShares R g e vals r i).1.map torch.formOf =
    [φ] := by
  have hlen : (shares R g (share e vals r) i).1.length = 1 :=
    length_shares g (fun j => by rw [share_eq]; rfl) i
  obtain ⟨x, hx⟩ := List.length_eq_one_iff.mp hlen
  rw [roundShares_eq, hx]
  exact congrArg (· :: []) x.2

end

/-! ### The calls of one node -/

section
variable {A V F N S ι : Type} [LinearOrder N] [LinearOrder S] [One N] [DecidableEq ι] [Fintype ι]
  [DecidableEq F] {torch : Torch V F} {φ : Option F} {R : Rooted ι}
  {g : Sized A torch φ → Sized A torch φ → Sized A torch φ} [Std.Associative g] [Std.Commutative g]
  {e : Sized A torch φ} {vals : ι → List (Sized A torch φ)} {q : Qsort ι} {conn : Conn ι} {i : ι}
  {reduce : Reduce A V} {zero : Zero A V} {mem₀ mem : Memory V}

theorem talks_step (hup : Reduces torch True reduce (Sized.lift g) [φ]) (hid : ∀ x, g e x = x)
    (hconn : ConnOf R q conn i) {r d : ℕ} {x : Sized A torch φ} (hshare : share e vals r i = ([x], d))
    {v : Nested N S (Leaf A)} (h : Rests torch mem₀ x.1 (v, mem)) :
    Talks (fun p => Rests torch mem₀ (reduction g e vals r).1 (p.1.1, p.2) ∧
        p.1.2 + (contributors vals r).card = Fintype.card ι)
      ((round torch q conn reduce v d : Routine ι A V (Nested N S (Leaf A) × ℕ)).run mem)
      (roundTurns R (roundShares R g e vals r) i) := by
  obtain ⟨l, hcarries⟩ := h.carries
  have hown : roundShares R g e vals r i = (R.children i).foldl
      (fun acc c => combine (Sized.lift g) acc (roundShares R g e vals r c)) ([x.1], d) := by
    have hstart : ([x.1], d) = ((share e vals r i).1.map Subtype.val, (share e vals r i).2) := by
      rw [hshare]
      rfl
    rw [hstart]
    exact R.up_eq (combine (Sized.lift g))
      (fun i => ((share e vals r i).1.map Subtype.val, (share e vals r i).2)) i
  apply (talks_round hup hconn hown (fun j => roundShares_forms R g e vals r j) (congrArg (· :: []) x.2) hcarries).mono
  rintro ⟨⟨v', numDone⟩, mem'⟩ ⟨hcarries', rfl⟩
  rw [roundShares_eq, shares_root_fst R g e vals hid] at hcarries'
  refine ⟨Carries.rests h.1 hcarries', ?_⟩
  rw [roundShares_eq]
  exact shares_root_snd R g e vals r

omit [DecidableEq ι] [Fintype ι] [DecidableEq F] in
/-- A round of the closing call begins with the identity at the node. -/
theorem run_closing (hzero : Zeroes torch zero φ e.1) {numNodes fuel : ℕ} {isLast l : Bool}
    {lastValue : Option (Nested N S (Leaf A))} {value v : Nested N S (Leaf A)}
    (hres : restore isLast lastValue value = (pure (v, l) : Routine ι A V _)) {x : Sized A torch φ}
    (h : Rests torch mem₀ x.1 (v, mem)) : ∃ v' mem', Rests torch mem₀ e.1 (v', mem') ∧
      (allReduceInner torch q conn numNodes reduce (some zero) (fuel + 1) isLast lastValue value).run mem =
        (round torch q conn reduce v' 1).run mem' >>= fun r => StateT.run
          (if r.1.2 < numNodes then do
            let o ← allReduceInner torch q conn numNodes reduce (some zero) fuel l
              (if l then some r.1.1 else lastValue) r.1.1
            return { o with rounds := o.rounds + 1 }
          else return ⟨some r.1.1, numNodes - r.1.2, if l then some r.1.1 else lastValue, 1⟩) r.2 := by
  obtain ⟨v', mem', hrun, hv'⟩ := zeroAll_rests hzero x.2 h
  refine ⟨v', mem', hv', ?_⟩
  rw [allReduceInner, prepare, hres, pure_bind, bind_assoc, StateT.run_bind, hrun, pure_bind]
  simp only [pure_bind, Option.isSome_some, if_true, true_and, StateT.run_bind]

/-- The closing call: round after round from `r` to the last. -/
theorem talks_closing (hup : Reduces torch True reduce (Sized.lift g) [φ]) (hid : ∀ x, g e x = x)
    (hconn : ConnOf R q conn i) (hzero : Zeroes torch zero φ e.1) {m r fuel : ℕ} {isLast : Bool}
    {lastValue : Option (Nested N S (Leaf A))} {value : Nested N S (Leaf A)} (hm : r + m = lastRound vals)
    (hr : (vals i).length ≤ r) (hfuel : m < fuel)
    (hrest : ∃ v l, restore isLast lastValue value = (pure (v, l) : Routine ι A V _) ∧
      ∃ x : Sized A torch φ, Rests torch mem₀ x.1 (v, mem)) :
    Talks (fun p => (∃ v, p.1.value = some v ∧ Rests torch mem₀ e.1 (v, p.2)) ∧ p.1.contributed = 0 ∧
        p.1.rounds = m + 1)
      ((allReduceInner torch q conn (Fintype.card ι) reduce (some zero) fuel isLast lastValue value).run mem)
      (turnsFrom R g e vals r i) := by
  induction m generalizing r fuel isLast lastValue value mem with
  | zero =>
    obtain ⟨fuel, rfl⟩ : ∃ f, fuel = f + 1 := ⟨fuel - 1, by omega⟩
    obtain ⟨v, l, hres, x, hv⟩ := hrest
    obtain rfl : r = lastRound vals := by omega
    obtain ⟨v₁, mem₁, hv₁, hrun⟩ := run_closing hzero hres hv
    rw [hrun, turnsFrom_lastRound]
    apply (talks_step hup hid hconn (if_neg (by omega)) hv₁).returns
    rintro ⟨⟨v₂, numDone⟩, mem₂⟩ ⟨hv₂, hcount⟩
    rw [contributors_lastRound, Finset.card_empty, add_zero] at hcount
    rw [reduction, contributors_lastRound, Finset.fold_empty] at hv₂
    rw [if_neg (by rw [hcount]; exact lt_irrefl _)]
    refine ⟨_, rfl, ⟨v₂, rfl, hv₂⟩, ?_, rfl⟩
    change (Fintype.card ι : ℤ) - (numDone : ℤ) = 0
    rw [show numDone = Fintype.card ι from hcount, sub_self]
  | succ m ih =>
    obtain ⟨fuel, rfl⟩ : ∃ f, fuel = f + 1 := ⟨fuel - 1, by omega⟩
    obtain ⟨v, l, hres, x, hv⟩ := hrest
    obtain ⟨v₁, mem₁, hv₁, hrun⟩ := run_closing hzero hres hv
    rw [hrun, turnsFrom_eq R g e vals (by omega)]
    apply (talks_step hup hid hconn (if_neg (by omega)) hv₁).bind
    rintro ⟨⟨v₂, numDone⟩, mem₂⟩ ⟨hv₂, hcount⟩
    have hlt : numDone < Fintype.card ι := by
      change numDone + (contributors vals r).card = Fintype.card ι at hcount
      have := contributors_pos vals (show r < lastRound vals by omega)
      omega
    rw [if_pos hlt, StateT.run_bind]
    -- the value is not `nil` from now on, so it is the one that is zeroed again
    obtain ⟨k, hk, -⟩ := hv₂.first
    apply (ih (by omega) (by omega) (by omega) ⟨v₂, l, by simp only [restore, hk], reduction g e vals r, hv₂⟩).returns
    rintro ⟨o, mem₃⟩ ⟨hvalue, hcontr, hrounds⟩
    exact ⟨_, rfl, hvalue, hcontr, congrArg (· + 1) hrounds⟩

theorem talks_steps (hup : Reduces torch True reduce (Sized.lift g) [φ]) (hid : ∀ x, g e x = x)
    (hconn : ConnOf R q conn i) (hzero : Zeroes torch zero φ e.1) {fuel : ℕ} (hfuel : lastRound vals < fuel)
    {makes : List (Memory V → Leaf A × Memory V)} (lastValue : Option (Nested N S (Leaf A))) {r : ℕ}
    (hmakes : List.Forall₂ (Makes torch mem₀) makes (((vals i).drop r).map Subtype.val)) (hr : r ≤ (vals i).length)
    (hlast : 0 < r → ∃ v, lastValue = some v ∧ ∃ x : Sized A torch φ, Rests torch mem₀ x.1 (v, mem))
    (hpos : 0 < (vals i).length) (hmem : Later torch mem₀ mem) :
    Talks (fun p => p.1.1 = (List.range' r ((vals i).length - r)).map (fun r =>
          ⟨some (reduction g e vals r).1, ((contributors vals r).card : ℤ), 1⟩) ∧
        p.1.2 = ⟨some e.1, 0, lastRound vals - (vals i).length + 1⟩)
      ((steps torch q conn (Fintype.card ι) fuel reduce zero makes lastValue).run mem)
      (turnsFrom R g e vals r i) := by
  have hle := length_le_lastRound vals i
  induction makes generalizing r lastValue mem with
  | nil =>
    have hdrop := List.forall₂_nil_left_iff.mp hmakes
    rw [List.map_eq_nil_iff, List.drop_eq_nil_iff] at hdrop
    obtain rfl : r = (vals i).length := le_antisymm hr hdrop
    obtain ⟨v, rfl, x, hv⟩ := hlast hpos
    simp only [steps, allReduce, bind_assoc, pure_bind, StateT.run_bind]
    apply (talks_closing hup hid hconn hzero (m := lastRound vals - (vals i).length) (by omega) le_rfl (by omega)
      ⟨v, true, rfl, x, hv⟩).returns
    rintro ⟨o, mem'⟩ ⟨⟨v', hvalue, hv'⟩, hcontr, hrounds⟩
    obtain ⟨l, hl, hcont⟩ := hv'.first
    have hfirst : (if isTable (none : Option (Nested N S (Leaf A))) then o.value else o.value.bind first) =
        some (.leaf l) := by
      rw [hvalue]
      exact hl
    refine ⟨_, by rw [run_see hfirst, pure_bind]; rfl, ?_, ?_⟩
    · simp
    · rw [hcont, hcontr, hrounds]
  | cons make makes ih =>
    obtain ⟨x, xs, hmake, hrest, hxs⟩ := List.forall₂_cons_left_iff.mp hmakes
    have hlt : r < (vals i).length := by
      by_contra hge
      rw [List.drop_eq_nil_of_le (by omega)] at hxs
      cases hxs
    rw [List.drop_eq_getElem_cons hlt, List.map_cons, List.cons.injEq] at hxs
    obtain ⟨hx, rfl⟩ := hxs
    obtain ⟨hlater, hdist, hcont⟩ := hmake mem hmem
    have hshare : share e vals r i = ([(vals i)[r]], 0) := by
      rw [share, if_pos hlt, List.getD_eq_getElem?_getD, List.getElem?_eq_getElem hlt, Option.getD_some]
    have hmade : Rests torch mem₀ (vals i)[r].1
        ((wrap (some (.leaf (make mem).1)) : Nested N S (Leaf A)), (make mem).2) :=
      ⟨hmem.trans hlater, _, holds_wrap _, hdist, hcont.trans hx.symm⟩
    obtain ⟨fuel, rfl⟩ : ∃ f, fuel = f + 1 := ⟨fuel - 1, by omega⟩
    simp only [steps, allReduce_eq, bind_assoc, pure_bind, StateT.run_bind, StateT.run_modifyGet]
    rw [turnsFrom_eq R g e vals (by omega)]
    apply (talks_step hup hid hconn hshare hmade).bind
    rintro ⟨⟨v, numDone⟩, mem'⟩ ⟨hv, hcount⟩
    obtain ⟨l, hl, hcont'⟩ := hv.first
    have hfirst : (if isTable (some (.leaf (make mem).1 : Nested N S (Leaf A))) then some v else first v) =
        some (.leaf l) := hl
    rw [run_see hfirst, pure_bind]
    simp only [StateT.run_pure]
    have hrest' : List.Forall₂ (Makes torch mem₀) makes (((vals i).drop (r + 1)).map Subtype.val) :=
      hrest
    apply (ih _ hrest' hlt (fun _ => ⟨v, rfl, _, hv⟩) hv.1).returns
    rintro ⟨⟨seen, last⟩, mem''⟩ ⟨hseen, hclosing⟩
    refine ⟨_, rfl, ?_, hclosing⟩
    change _ :: seen = _
    rw [show (vals i).length - r = ((vals i).length - (r + 1)) + 1 by omega, List.range'_succ, List.map_cons]
    have hnum : (Fintype.card ι : ℤ) - (numDone : ℤ) = ((contributors vals r).card : ℤ) := by
      rw [← hcount]
      push_cast
      ring
    rw [hcont', hnum]
    exact congrArg _ hseen

end

/-! ### All nodes -/

section
variable {A V F N S ι : Type} [Fintype ι] {torch : Torch V F} {φ : Option F}

/-- What a node that makes its calls and the closing one is to see: in round `r` the reduction
over the contributors and their number, at the end the identity and zero, and one round more
than any node has values. -/
structure InStep (g : Sized A torch φ → Sized A torch φ → Sized A torch φ) [Std.Associative g]
    [Std.Commutative g] (e : Sized A torch φ) (vals : ι → List (Sized A torch φ)) (i : ι)
    (r : List (Seen A V) × Seen A V) : Prop where
  calls : r.1 = (List.range (vals i).length).map fun r =>
    ⟨some (reduction g e vals r).1, ((contributors vals r).card : ℤ), 1⟩
  closing : r.2.value = some e.1 ∧ r.2.contributed = 0
  total : r.1.length + r.2.rounds = lastRound vals + 1

variable [LinearOrder N] [LinearOrder S] [One N] [DecidableEq F]

theorem Updates.lift {fresh : Prop} {reduce : Reduce A V} {f : Content A V → Content A V → Content A V}
    {g : Sized A torch φ → Sized A torch φ → Sized A torch φ} (h : Updates torch fresh reduce f φ)
    (hg : ∀ x y, (g x y).1 = f x.1 y.1) : Updates torch fresh reduce (Sized.lift g) φ := by
  have hlift : ∀ x y, torch.formOf x = φ → torch.formOf y = φ → Sized.lift g x y = f x y := by
    intro x y hx hy
    rw [Sized.lift, dif_pos ⟨hx, hy⟩, hg]
  constructor
  · intro x y hx hy
    rw [hlift x y hx hy]
    exact h.form x y hx hy
  · intro mem l k hl hk
    rw [hlift _ _ hl hk]
    exact h.apart mem l k hl hk

end

/-! ### Vectors again -/

def newTensor {A V : Type} (v : V) (mem : Memory V) : Leaf A × Memory V :=
  (.tensor (mem.alloc v).1, (mem.alloc v).2)

theorem makes_newTensor {A V F : Type} {torch : Torch V F} {mem₀ : Memory V} (v : V) :
    Makes torch mem₀ (newTensor v) (.tensor v : Content A V) := by
  intro mem hmem
  refine ⟨⟨?_, Nat.le_succ _, fun _ _ ht => ht⟩, ⟨by simp [refs, newTensor, Leaf.ref], ?_⟩, ?_⟩
  · intro t ht
    obtain ⟨hlt, hcompact⟩ := hmem.sound t ht
    refine ⟨Nat.lt_succ_of_lt hlt, ?_⟩
    change torch.compact (torch.form (Function.update mem.cell mem.next v t))
    rwa [Function.update_of_ne hlt.ne]
  · intro r hr
    obtain rfl : r = mem.next := by simpa [refs, newTensor, Leaf.ref, Memory.alloc] using hr
    exact ⟨Nat.lt_succ_self _, fun ht => absurd (hmem.sound _ ht).1 (lt_irrefl _)⟩
  · simp [newTensor, Memory.content, Memory.alloc]

def fillZero : Zero ℕ (List ℕ)
  | .plain _, _, mem => (some (.plain 0), mem)
  | .tensor r, _, mem => (some (.tensor r), mem.store r ((mem.cell r).map fun _ => 0))

theorem zeroes_fillZero (n : ℕ) :
    Zeroes vectors fillZero (some n) (.tensor (List.replicate n 0)) := by
  intro mem l i hl hr
  cases l with
  | plain a => simp [Memory.content, Torch.formOf] at hl
  | tensor r =>
    have hlen : (mem.cell r).length = n := by simpa [Memory.content, Torch.formOf, vectors] using hl
    have hzero : (mem.cell r).map (fun _ => 0) = List.replicate n 0 := by rw [List.map_const', hlen]
    simpa only [fillZero, Option.getD_some, hzero] using changed_store r _

def addSized (x y : Sized ℕ vectors (some 2)) : Sized ℕ vectors (some 2) :=
  ⟨addContents x.1 y.1, form_addContents x.1 y.1 x.2 y.2⟩

theorem exists_sized (x : Sized ℕ vectors (some 2)) : ∃ a b, x.1 = .tensor [a, b] := by
  obtain ⟨x, hx⟩ := x
  cases x with
  | plain a => simp [Torch.formOf] at hx
  | tensor v =>
    obtain ⟨a, b, rfl⟩ := List.length_eq_two.mp (by simpa [Torch.formOf, vectors] using hx)
    exact ⟨a, b, rfl⟩

instance : Std.Associative addSized where
  assoc x y z := by
    obtain ⟨a, b, hx⟩ := exists_sized x
    obtain ⟨c, d, hy⟩ := exists_sized y
    obtain ⟨p, q, hz⟩ := exists_sized z
    apply Subtype.ext
    simp [addSized, addContents, hx, hy, hz, add_assoc]

instance : Std.Commutative addSized where
  comm x y := by
    obtain ⟨a, b, hx⟩ := exists_sized x
    obtain ⟨c, d, hy⟩ := exists_sized y
    apply Subtype.ext
    simp [addSized, addContents, hx, hy, add_comm]

theorem zero_addSized (x : Sized ℕ vectors (some 2)) : addSized ⟨.tensor [0, 0], rfl⟩ x = x := by
  obtain ⟨a, b, hx⟩ := exists_sized x
  apply Subtype.ext
  simp [addSized, addContents, hx]

/-- One node has a value and the other has three. -/
def pairVectors (i : Node 2) : List (List ℕ) :=
  if i.1 = 1 then [[5, 1]] else [[6, 2], [7, 3], [8, 4]]

/-- The larger of two vectors with one element. -/
def largerSized (x y : Sized ℕ vectors (some 1)) : Sized ℕ vectors (some 1) :=
  if x.1.size < y.1.size then y else x

def oneElement (a : ℕ) : Sized ℕ vectors (some 1) := ⟨.tensor [a], rfl⟩

theorem exists_oneElement (x : Sized ℕ vectors (some 1)) : ∃ a, x = oneElement a := by
  obtain ⟨x, hx⟩ := x
  cases x with
  | plain a => simp [Torch.formOf] at hx
  | tensor v =>
    obtain ⟨a, rfl⟩ := List.length_eq_one_iff.mp (by simpa [Torch.formOf, vectors] using hx)
    exact ⟨a, rfl⟩

theorem largerSized_eq (a b : ℕ) :
    largerSized (oneElement a) (oneElement b) = oneElement (max a b) := by
  rw [largerSized]
  split_ifs with h
  · rw [max_eq_right (show a < b from h).le]
  · rw [max_eq_left (show b ≤ a from not_lt.mp h)]

instance : Std.Associative largerSized where
  assoc x y z := by
    obtain ⟨a, rfl⟩ := exists_oneElement x
    obtain ⟨b, rfl⟩ := exists_oneElement y
    obtain ⟨c, rfl⟩ := exists_oneElement z
    simp only [largerSized_eq, max_assoc]

instance : Std.Commutative largerSized where
  comm x y := by
    obtain ⟨a, rfl⟩ := exists_oneElement x
    obtain ⟨b, rfl⟩ := exists_oneElement y
    simp only [largerSized_eq, max_comm]

def starValues (i : Node 3) : List (Sized ℕ vectors (some 1)) := [oneElement (starNumber i)]

/-- One call of each node of the star and the closing one. -/
def starSteps (i : Node 3) :
    Routine (Node 3) ℕ (List ℕ) (List (Seen ℕ (List ℕ)) × Seen ℕ (List ℕ)) :=
  steps vectors (Qsort.insertion (Node 3)) (Established.star.conn i) 3 2 larger fillZero
    [newTensor [starNumber i]] (none : Option (Nested ℕ ℕ (Leaf ℕ)))

def bothRounds (i j : Node 3) : List (Turn (Msg (Content ℕ (List ℕ)))) :=
  firstRound i j ++ starTurns (fun _ => [.leaf (.tensor [0]), .count 1]) [.leaf (.tensor [0]), .count 3] i j

theorem talks_starSteps (i : Node 3) :
    Talks (fun r : (List (Seen ℕ (List ℕ)) × Seen ℕ (List ℕ)) × Memory (List ℕ) =>
        r.1.1.map Seen.value = [some (.tensor [5])]) ((starSteps i).run ⟨fun _ => [], 0, none⟩)
          (bothRounds i) := by
  revert i
  decide +kernel

theorem reduction_starValues : (reduction largerSized (oneElement 0) starValues 0).1 =
    .tensor [9] := by
  decide

end InPlace

end TorchIpc.Tree
