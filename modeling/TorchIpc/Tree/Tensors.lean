import TorchIpc.Tree.Unbuffered

/-! `allReduce` on values whose leaves may be tensors. Such a leaf is a reference:
`client:recv(tensor)` overwrites the tensor it is given, `getTempValue` offers the same tensor
again and again, and the reduce function may change the tensors it is called with or return
another one. Different tensors share no storage. -/

namespace TorchIpc.Tree.InPlace

open Network

/-! ### Tensors -/

/-- A leaf as its node holds it: a value that is no tensor, or a reference to a tensor. -/
inductive Leaf (A : Type) where
  | plain (a : A)
  | tensor (r : ℕ)
  deriving Repr, DecidableEq

inductive Content (A V : Type) where
  | plain (a : A)
  | tensor (v : V)
  deriving Repr, DecidableEq

/-- The tensors of a node, the reference that the next one gets, and `tempValue`. -/
structure Memory (V : Type) where
  cell : ℕ → V
  next : ℕ
  temp : Option ℕ

/-- The tensor library. The form of a tensor is its type, its sizes and its strides, and compact are
the forms of new tensors. `read` is `tensor_read` with what the peer sends of its tensor. -/
structure Torch (V F : Type) where
  form : V → F
  compact : F → Prop
  clone : V → V
  sameType : V → V → Bool
  typeAs : V → V → V
  resizeAs : V → V → V
  read : V → V → Option V
  form_clone : ∀ a, compact (form a) → form (clone a) = form a
  sameType_typeAs : ∀ a b, sameType (typeAs a b) b
  compact_typeAs : ∀ a b, compact (form a) → compact (form (typeAs a b))
  form_resizeAs : ∀ a b, sameType a b → compact (form a) → compact (form b) →
      form (resizeAs a b) = form b
  read_eq : ∀ a b, form a = form b → read a b = some b

section
variable {A V F : Type}

def Leaf.ref : Leaf A → Option ℕ
  | .plain _ => none
  | .tensor r => some r

namespace Memory

def content (mem : Memory V) : Leaf A → Content A V
  | .plain a => .plain a
  | .tensor r => .tensor (mem.cell r)

def store (mem : Memory V) (r : ℕ) (v : V) : Memory V :=
  { mem with cell := Function.update mem.cell r v }

@[simp] theorem store_cell (mem : Memory V) (r : ℕ) (v : V) : (mem.store r v).cell r = v := by
  simp [store]

theorem store_cell_of_ne (mem : Memory V) {r s : ℕ} (h : s ≠ r) (v : V) :
    (mem.store r v).cell s = mem.cell s :=
  Function.update_of_ne h _ _

def alloc (mem : Memory V) (v : V) : ℕ × Memory V :=
  (mem.next, ⟨Function.update mem.cell mem.next v, mem.next + 1, mem.temp⟩)

theorem content_congr {mem mem' : Memory V} {l : Leaf A} (h : ∀ r, l.ref = some r → mem'.cell r = mem.cell r) :
    mem'.content l = mem.content l := by
  cases l with
  | plain a => rfl
  | tensor r => simp [content, h r rfl]

end Memory

def getTempValue (torch : Torch V F) (value : Leaf A) (mem : Memory V) : Option ℕ × Memory V :=
  match value with
  | .plain _ => (none, mem)
  | .tensor r =>
    match mem.temp with
    | some t =>
      -- `typeAs` is the tensor itself if it has the type already, else a new one
      if torch.sameType (mem.cell t) (mem.cell r) then
        (some t, mem.store t (torch.resizeAs (mem.cell t) (mem.cell r)))
      else
        let (t', mem) := mem.alloc (torch.resizeAs (torch.typeAs (mem.cell t) (mem.cell r)) (mem.cell r))
        (some t', { mem with temp := some t' })
    | none =>
      let (t', mem) := mem.alloc (torch.clone (mem.cell r))
      (some t', { mem with temp := some t' })

end

/-! ### The program -/

/-- A program of one node that works on its tensors. -/
abbrev Routine (ι A V : Type) : Type → Type := StateT (Memory V) (Prog ι (Content A V))

/-- A reduce function: it may change tensors, and returns a leaf or `nil`. -/
abbrev Reduce (A V : Type) := Leaf A → Leaf A → Memory V → Option (Leaf A) × Memory V

abbrev Zero (A V : Type) := Leaf A → ℕ → Memory V → Option (Leaf A) × Memory V

section
variable {A V F N S ι : Type} [LinearOrder N] [LinearOrder S] [One N] (torch : Torch V F)

/-- `client:recv(target)`: a tensor is read into the memory of `target`. -/
def recvInto (peer : ι) (target : Option ℕ) : Routine ι A V (Leaf A) := do
  match target, ← (Proc.get peer : Prog ι (Content A V) _) with
  | none, .leaf (.plain a) => return .plain a
  | some r, .leaf (.tensor v) =>
    let mem ← get
    match torch.read (mem.cell r) v with
    | some w =>
      set (mem.store r w)
      return .tensor r
    | none => throw .header
  -- the bytes of a tensor are read as a message, or the reverse
  | _, _ => throw .phase

def reduceLeaf (reduce : Reduce A V) (client : ι) (x : Leaf A) : Routine ι A V (Option (Leaf A)) :=
  do
  let target ← modifyGet (getTempValue torch x)
  let y ← recvInto torch client target
  modifyGet (reduce x y)

/-- The first loop: fold in the values of the clients and add their counts. -/
def reduceUp (reduce : Reduce A V) (clients : List ι) (value : Nested N S (Leaf A)) (numDone : ℕ) :
    Routine ι A V (Nested N S (Leaf A) × ℕ) :=
  clients.foldlM (fun acc client => do
    let value ← walkTable (reduceLeaf torch reduce client) acc.1
    let n ← (recvCount client : Prog ι (Content A V) ℕ)
    return (value, acc.2 + n)) (value, numDone)

def sendLeaf (peer : ι) (x : Leaf A) : Routine ι A V (Option (Leaf A)) := do
  let mem ← get
  (Proc.put peer (.leaf (mem.content x)) : Prog ι (Content A V) Unit)
  return none

def sendTo (peer : ι) (value : Nested N S (Leaf A)) (numDone : ℕ) :
    Routine ι A V (Nested N S (Leaf A)) := do
  let value ← walkTable (sendLeaf peer) value
  (Proc.put peer (.count numDone) : Prog ι (Content A V) Unit)
  return value

/-- The last loop: hand the value to the clients. -/
def sendDown (clients : List ι) (value : Nested N S (Leaf A)) (numDone : ℕ) :
    Routine ι A V (Nested N S (Leaf A)) :=
  clients.foldlM (fun value client => sendTo client value numDone) value

/-- Up to the parent and back, where there is one. -/
def exchange (client : Option ι) (value : Nested N S (Leaf A)) (numDone : ℕ) :
    Routine ι A V (Nested N S (Leaf A) × ℕ) :=
  match client with
  | none => return (value, numDone)
  | some peer => do
    let value ← sendTo peer value numDone
    let value ← walkTable (fun x => do return some (← recvInto torch peer x.ref)) value
    let numDone ← (recvCount peer : Prog ι (Content A V) ℕ)
    return (value, numDone)

/-- One pass of `allReduceInner` over the tree. -/
def round (q : Qsort ι) (conn : Conn ι) (reduce : Reduce A V) (value : Nested N S (Leaf A)) (numDone : ℕ) :
    Routine ι A V (Nested N S (Leaf A) × ℕ) := do
  let r ← reduceUp torch reduce (conn.clients q false) value numDone
  let r ← exchange torch conn.client r.1 r.2
  let value ← sendDown (conn.clients q true) r.1 r.2
  return (value, r.2)

/-- The value that is not `nil`, or else `lastValue`, and whether it is the table `lastValue`
refers to. -/
def restore (isLast : Bool) (lastValue : Option (Nested N S (Leaf A))) (value : Nested N S (Leaf A)) :
    Routine ι A V (Nested N S (Leaf A) × Bool) :=
  match first value, lastValue with
  | some _, _ => return (value, isLast)
  | none, some last => return (last, true)
  | none, none => throw .index

/-- `zero(valuei, i)` for the leaves in turn. -/
def zeroAll (zero : Zero A V) (value : Nested N S (Leaf A)) : Routine ι A V (Nested N S (Leaf A)) :=
  (walkTable (m := StateT ℕ (Routine ι A V)) (fun x => do
    modify (· + 1)
    let i ← get
    (modifyGet (zero x i) : Routine ι A V (Option (Leaf A)))) value).run' 0

/-- The uneven ending: zero the restored value, or save the one given. -/
def prepare (zero : Option (Zero A V)) (isLast : Bool) (lastValue : Option (Nested N S (Leaf A)))
    (value : Nested N S (Leaf A)) : Routine ι A V (Nested N S (Leaf A) × Bool) :=
  match zero with
  | none => return (value, true)
  | some zero => do
    let r ← restore isLast lastValue value
    let value ← zeroAll zero r.1
    return (value, r.2)

/-- `allReduceInner`; `isLast` says that `value` is the table `lastValue` refers to. -/
def allReduceInner (q : Qsort ι) (conn : Conn ι) (numNodes : ℕ) (reduce : Reduce A V) (zero : Option (Zero A V)) :
    ℕ → Bool → Option (Nested N S (Leaf A)) → Nested N S (Leaf A) →
      Routine ι A V (Outcome N S (Leaf A))
  | 0, _, _, _ => throw .fuel
  | fuel + 1, isLast, lastValue, value => do
    let r ← prepare zero isLast lastValue value
    let isLast := r.2
    let r ← round torch q conn reduce r.1 (if zero.isSome then 1 else 0)
    let lastValue := if isLast then some r.1 else lastValue
    if zero.isSome ∧ r.2 < numNodes then
      let o ← allReduceInner q conn numNodes reduce zero fuel isLast lastValue r.1
      return { o with rounds := o.rounds + 1 }
    else
      return ⟨some r.1, numNodes - r.2, lastValue, 1⟩

def allReduce (q : Qsort ι) (conn : Conn ι) (numNodes fuel : ℕ) (reduce : Reduce A V) (zero : Option (Zero A V))
    (lastValue value : Option (Nested N S (Leaf A))) : Routine ι A V (Outcome N S (Leaf A)) := do
  let o ← allReduceInner torch q conn numNodes reduce zero fuel false lastValue (wrap value)
  return { o with value := if isTable value then o.value else o.value.bind first }

end

/-! ### What a call may change -/

section
variable {A V F : Type}

def refs (ls : List (Leaf A)) : List ℕ := ls.filterMap Leaf.ref

theorem mem_refs {ls : List (Leaf A)} {l : Leaf A} {r : ℕ} (hl : l ∈ ls) (hr : l.ref = some r) :
    r ∈ refs ls :=
  List.mem_filterMap.mpr ⟨l, hl, hr⟩

theorem refs_append (as bs : List (Leaf A)) : refs (as ++ bs) = refs as ++ refs bs :=
  List.filterMap_append

theorem refs_cons (l : Leaf A) (ls : List (Leaf A)) : refs (l :: ls) = l.ref.toList ++ refs ls := by
  rw [refs, List.filterMap_cons]
  cases l.ref <;> rfl

/-- The form of a leaf that is a tensor. -/
def Torch.formOf (torch : Torch V F) : Content A V → Option F
  | .plain _ => none
  | .tensor v => some (torch.form v)

variable (torch : Torch V F)

/-- `tempValue` is a tensor that the node knows, of a compact form. -/
def Sound (mem : Memory V) : Prop :=
  ∀ t, mem.temp = some t → t < mem.next ∧ torch.compact (torch.form (mem.cell t))

/-- Later there may be new tensors, one of them `tempValue`. -/
structure Later (mem₀ mem : Memory V) : Prop where
  sound : Sound torch mem
  next_le : mem₀.next ≤ mem.next
  temp : ∀ t < mem₀.next, mem.temp = some t → mem₀.temp = some t

/-- The leaves are different tensors that the node knows, and none of them is `tempValue`. -/
structure Distinct (mem : Memory V) (ls : List (Leaf A)) : Prop where
  nodup : (refs ls).Nodup
  known : ∀ r ∈ refs ls, r < mem.next ∧ mem.temp ≠ some r

/-- A function that is called with `l`, and perhaps with the tensor `second`, has come to `r`: the
leaf it leaves holds `x` and is `l` or, with `fresh`, a new tensor, and no other tensors than these
have changed. -/
structure Changed (fresh : Prop) (l : Leaf A) (second : Option ℕ) (x : Content A V) (mem : Memory V)
    (r : Leaf A × Memory V) : Prop where
  ref : r.1.ref = l.ref ∨ fresh ∧ ∃ s, r.1.ref = some s ∧ mem.next ≤ s ∧ s < r.2.next
  content : r.2.content r.1 = x
  next_le : mem.next ≤ r.2.next
  temp : r.2.temp = mem.temp
  compact : ∀ s, second = some s → torch.compact (torch.form (r.2.cell s))
  frame : ∀ s < mem.next, l.ref ≠ some s → second ≠ some s → r.2.cell s = mem.cell s

/-- With leaves of the form `φ` that are different tensors, the reduce function leaves `f` of their
contents, also of this form, in its first argument or, with `fresh`, in a new tensor. -/
structure Updates (fresh : Prop) (reduce : Reduce A V) (f : Content A V → Content A V → Content A V)
    (φ : Option F) : Prop where
  form : ∀ x y, torch.formOf x = φ → torch.formOf y = φ → torch.formOf (f x y) = φ
  apart : ∀ mem l k, torch.formOf (mem.content l) = φ → torch.formOf (mem.content k) = φ →
    (∀ r, l.ref = some r → r < mem.next ∧ k.ref ≠ some r) → (∀ r, k.ref = some r → r < mem.next) →
    Changed torch fresh l k.ref (f (mem.content l) (mem.content k)) mem
      ((reduce l k mem).1.getD l, (reduce l k mem).2)

/-- A leaf is the one it was or, with `fresh`, a tensor that was not there. -/
def Stays (fresh : Prop) (mem₀ : Memory V) (l l₀ : Leaf A) : Prop :=
  l.ref = l₀.ref ∨ fresh ∧ ∃ r, l.ref = some r ∧ mem₀.next ≤ r

/-- From the memory `mem₀` with the leaves `ls₀` to the memory `mem` with the leaves `ls`, which
hold `xs`: of the tensors that were there only those of the leaves and `tempValue` have changed.
-/
structure Kept (fresh : Prop) (mem₀ : Memory V) (ls₀ : List (Leaf A)) (mem : Memory V) (ls : List (Leaf A))
    (xs : List (Content A V)) : Prop extends Later torch mem₀ mem, Distinct mem ls where
  stays : List.Forall₂ (Stays fresh mem₀) ls ls₀
  contents : ls.map mem.content = xs
  frame : ∀ r < mem₀.next, r ∉ refs ls₀ → mem₀.temp ≠ some r → mem.cell r = mem₀.cell r

variable {torch} {fresh : Prop} {mem₀ mem mem' : Memory V} {ls₀ ls as bs : List (Leaf A)} {l l' : Leaf A}
  {xs us vs : List (Content A V)} {x x' y : Content A V}

theorem Sound.later (h : Sound torch mem) : Later torch mem mem := ⟨h, le_rfl, fun _ _ ht => ht⟩

theorem Later.trans (h : Later torch mem₀ mem) (h' : Later torch mem mem') :
    Later torch mem₀ mem' where
  sound := h'.sound
  next_le := h.next_le.trans h'.next_le
  temp t ht h2 := h.temp t ht (h'.temp t (ht.trans_le h.next_le) h2)

theorem Distinct.kept (h : Distinct mem₀ ls₀) (hs : Sound torch mem₀) :
    Kept torch fresh mem₀ ls₀ mem₀ ls₀ (ls₀.map mem₀.content) where
  toLater := hs.later
  toDistinct := h
  stays := List.forall₂_same.mpr fun _ _ => .inl rfl
  contents := rfl
  frame _ _ _ _ := rfl

/-! ### One leaf of several -/

theorem Distinct.set (h : Distinct mem (as ++ l :: bs)) (hnext : mem.next ≤ mem'.next) (htemp : mem'.temp = mem.temp)
    (hl : l'.ref = l.ref ∨ ∃ s, l'.ref = some s ∧ mem.next ≤ s ∧ s < mem'.next ∧ mem.temp ≠ some s) :
    Distinct mem' (as ++ l' :: bs) := by
  have hnd := h.nodup
  have hkn := h.known
  simp only [refs_append, refs_cons] at hnd hkn
  rcases hl with hl | ⟨s, hs, hge, hlt, hne⟩
  · constructor
    · simpa only [refs_append, refs_cons, hl] using hnd
    · simp only [refs_append, refs_cons, hl]
      intro r hr
      exact ⟨(hkn r hr).1.trans_le hnext, htemp ▸ (hkn r hr).2⟩
  · -- the new tensor is none of the others
    have hold : ∀ r ∈ refs as ++ refs bs, r < mem.next ∧ mem.temp ≠ some r := by
      intro r hr
      apply hkn r
      simp only [List.mem_append] at hr ⊢
      tauto
    constructor
    · rw [refs_append, refs_cons, hs, Option.toList_some, List.singleton_append, List.nodup_middle]
      rw [List.nodup_cons]
      refine ⟨fun hmem => absurd (hold s hmem).1 (by omega), ?_⟩
      exact hnd.sublist ((List.Sublist.refl _).append (List.sublist_append_right _ _))
    · simp only [refs_append, refs_cons, hs, Option.toList_some]
      intro r hr
      by_cases hrs : r = s
      · subst hrs
        exact ⟨hlt, htemp ▸ hne⟩
      · have hr' := hold r (by
          simp only [List.mem_append, List.mem_singleton] at hr ⊢
          tauto)
        exact ⟨hr'.1.trans_le hnext, htemp ▸ hr'.2⟩

theorem forall₂_set {α β : Type} {rel : α → β → Prop} {as bs : List α} {cs : List β} {a a' : α}
    (h : List.Forall₂ rel (as ++ a :: bs) cs) (ha : ∀ c, rel a c → rel a' c) :
    List.Forall₂ rel (as ++ a' :: bs) cs := by
  induction as generalizing cs with
  | nil =>
    cases h with
    | cons hac hrest => exact .cons (ha _ hac) hrest
  | cons b as ih =>
    cases h with
    | cons hbc hrest => exact .cons hbc (ih hrest)

theorem exists_of_forall₂ {α β : Type} {rel : α → β → Prop} {as : List α} {cs : List β} {a : α}
    (h : List.Forall₂ rel as cs) (ha : a ∈ as) : ∃ c ∈ cs, rel a c := by
  induction h with
  | nil => simp at ha
  | cons hbc _ ih =>
    rcases List.mem_cons.mp ha with rfl | ha
    · exact ⟨_, List.mem_cons_self, hbc⟩
    · obtain ⟨c, hc, hac⟩ := ih ha
      exact ⟨c, List.mem_cons_of_mem _ hc, hac⟩

theorem Kept.content_eq (h : Kept torch fresh mem₀ ls₀ mem (as ++ l :: bs) (us ++ x :: vs))
    (hlen : as.length = us.length) : mem.content l = x := by
  have hcont := h.contents
  rw [List.map_append, List.map_cons] at hcont
  exact (List.cons.inj (List.append_inj hcont (by simpa using hlen)).2).1

/-- A leaf that was there is one of those at the start. -/
theorem Kept.mem_start (h : Kept torch fresh mem₀ ls₀ mem ls xs) (hl : l ∈ ls) {r : ℕ} (hr : l.ref = some r)
    (hlt : r < mem₀.next) : r ∈ refs ls₀ := by
  obtain ⟨l₀, hl₀, hstay⟩ := exists_of_forall₂ h.stays hl
  rcases hstay with heq | ⟨-, s, hs, hge⟩
  · exact mem_refs hl₀ (heq ▸ hr)
  · rw [hr, Option.some.injEq] at hs
    omega

theorem Kept.set (h : Kept torch fresh mem₀ ls₀ mem (as ++ l :: bs) (us ++ x :: vs)) (hlen : as.length = us.length)
    {second : Option ℕ} (hsecond : ∀ s, second = some s → mem.temp = some s)
    (hr : Changed torch fresh l second x' mem (l', mem')) :
    Kept torch fresh mem₀ ls₀ mem' (as ++ l' :: bs) (us ++ x' :: vs) := by
  have hl : l ∈ as ++ l :: bs := by simp
  have hdist : Distinct mem' (as ++ l' :: bs) := by
    apply h.toDistinct.set hr.next_le hr.temp
    rcases hr.ref with heq | ⟨-, s, hs, hge, hlt⟩
    · exact .inl heq
    · exact .inr ⟨s, hs, hge, hlt, fun ht => absurd (h.sound s ht).1 (by omega)⟩
  -- the other leaves are other tensors
  have hother : ∀ k ∈ as ++ bs, mem'.content k = mem.content k := by
    intro k hk
    apply Memory.content_congr
    intro r hkr
    have hmem : r ∈ refs (as ++ l :: bs) := by
      apply mem_refs (l := k) _ hkr
      simp only [List.mem_append, List.mem_cons] at hk ⊢
      tauto
    obtain ⟨hlt, hne⟩ := h.known r hmem
    apply hr.frame r hlt
    · intro hlr
      have hnd := h.nodup
      rw [refs_append, refs_cons, hlr, Option.toList_some, List.singleton_append, List.nodup_middle,
        List.nodup_cons, ← refs_append] at hnd
      exact hnd.1 (mem_refs hk hkr)
    · exact fun hs => hne (hsecond r hs)
  have hcont := h.contents
  rw [List.map_append, List.map_cons] at hcont
  obtain ⟨has, hbs⟩ := List.append_inj hcont (by simpa using hlen)
  rw [List.cons.injEq] at hbs
  refine ⟨⟨?_, h.next_le.trans hr.next_le, ?_⟩, hdist, ?_, ?_, ?_⟩
  · intro t ht
    rw [hr.temp] at ht
    obtain ⟨hlt, hcompact⟩ := h.sound t ht
    refine ⟨hlt.trans_le hr.next_le, ?_⟩
    by_cases hst : second = some t
    · exact hr.compact t hst
    · have hlt' : l.ref ≠ some t := fun hlt' => (h.known t (mem_refs hl hlt')).2 ht
      exact (hr.frame t hlt hlt' hst).symm ▸ hcompact
  · intro t ht htemp
    exact h.temp t ht (hr.temp ▸ htemp)
  · apply forall₂_set h.stays
    intro l₀ hstay
    rcases hr.ref with heq | ⟨hfresh, s, hs, hge, -⟩
    · rwa [Stays, heq]
    · exact .inr ⟨hfresh, s, hs, h.next_le.trans hge⟩
  · rw [List.map_append, List.map_cons, ← has, ← hbs.2]
    congr 1
    · exact List.map_congr_left fun k hk => hother k (by simp [hk])
    · congr 1
      · exact hr.content
      · exact List.map_congr_left fun k hk => hother k (by simp [hk])
  · intro r hlt hnot hne
    rw [← h.frame r hlt hnot hne]
    apply hr.frame r (hlt.trans_le h.next_le)
    · exact fun hlr => hnot (h.mem_start hl hlr hlt)
    · exact fun hs => hne (h.temp r hlt (hsecond r hs))

/-- Only `tempValue` changes, or there is a new one. -/
theorem Kept.setTemp (h : Kept torch fresh mem₀ ls₀ mem ls xs) (hnext : mem.next ≤ mem'.next)
    {t : ℕ} (htemp : mem'.temp = some t) (ht : mem.temp = some t ∨ t = mem.next ∧ t < mem'.next)
    (hcompact : torch.compact (torch.form (mem'.cell t)))
    (hcell : ∀ r < mem.next, r ≠ t → mem'.cell r = mem.cell r) :
    Kept torch fresh mem₀ ls₀ mem' ls xs := by
  have hother : ∀ r ∈ refs ls, r ≠ t := by
    rintro r hr rfl
    obtain ⟨hlt, hne⟩ := h.known r hr
    rcases ht with ht | ⟨rfl, -⟩
    · exact hne ht
    · omega
  have hlt : t < mem'.next := by
    rcases ht with ht | ⟨-, hlt⟩
    · exact (h.sound t ht).1.trans_le hnext
    · exact hlt
  have hold : ∀ s < mem₀.next, s = t → mem₀.temp = some s := by
    rintro s hs rfl
    rcases ht with ht | ⟨rfl, -⟩
    · exact h.temp s hs ht
    · have := h.next_le
      omega
  refine ⟨⟨?_, h.next_le.trans hnext, ?_⟩, ⟨h.nodup, ?_⟩, h.stays, ?_, ?_⟩
  · intro t' ht'
    rw [htemp, Option.some.injEq] at ht'
    subst ht'
    exact ⟨hlt, hcompact⟩
  · intro s hs hst
    rw [htemp, Option.some.injEq] at hst
    exact hold s hs hst.symm
  · intro r hr
    refine ⟨(h.known r hr).1.trans_le hnext, ?_⟩
    rw [htemp, ne_eq, Option.some.injEq]
    exact fun heq => hother r hr heq.symm
  · rw [← h.contents]
    apply List.map_congr_left
    intro k hk
    apply Memory.content_congr
    intro r hr
    have hmem := mem_refs hk hr
    exact hcell r (h.known r hmem).1 (hother r hmem)
  · intro r hr hnot hne
    rw [← h.frame r hr hnot hne]
    exact hcell r (hr.trans_le h.next_le) fun heq => hne (hold r hr heq)

end

end TorchIpc.Tree.InPlace
