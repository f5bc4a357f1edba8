import TorchIpc.Base.Linked
import TorchIpc.Serialize.Save

/-! The registry of `workqueue.c`: the workqueues in memory, and the doubly linked list
of those that have a name. Every function here runs under `workqueue_mutex`. An access
to a workqueue that is not in memory is undefined. Proved here, of each function: what
it does to the counts, and that the list stays the list of all workqueues with a name. -/

namespace TorchIpc

open Linked

/-- The fields of `workqueue_t` that the registry uses. -/
structure WorkqueueCell where
  next : Option UInt64
  prev : Option UInt64
  refcount : ℤ
  name : Option (List UInt8)

/-- The workqueues by address, and `workqueue_head`. -/
structure Registry where
  mem : UInt64 → Option WorkqueueCell
  head : Option UInt64

namespace Registry

def empty : Registry := ⟨fun _ => none, none⟩

def modify (r : Registry) (w : UInt64) (f : WorkqueueCell → WorkqueueCell) : Option Registry :=
  (r.mem w).map fun cell => { r with mem := Function.update r.mem w (some (f cell)) }

def setPrev (r : Registry) (v p : Option UInt64) : Option Registry :=
  match v with
  | some v => r.modify v fun cell => { cell with prev := p }
  | none => some r

def setNext (r : Registry) (v n : Option UInt64) : Option Registry :=
  match v with
  | some v => r.modify v fun cell => { cell with next := n }
  | none => some r

end Registry

def workqueueInsert (w : UInt64) (r : Registry) : Option Registry := do
  let cell ← r.mem w
  if cell.name = none then return r
  match r.head with
  | some h =>
    let r ← r.modify h fun cell => { cell with prev := some w }
    let r ← r.modify w fun cell => { cell with next := r.head }
    return { r with head := some w }
  | none => return { r with head := some w }

def workqueueRemove (w : UInt64) (r : Registry) : Option Registry := do
  let cell ← r.mem w
  if cell.name = none then return r
  let r := if r.head = some w then { r with head := cell.next } else r
  let r ← r.setPrev cell.next cell.prev
  r.setNext cell.prev cell.next

def findLoop (r : Registry) (name : List UInt8) : ℕ → Option UInt64 → Option (Option UInt64)
  | 0, _ => none
  | _ + 1, none => some none
  | fuel + 1, some w => do
    let cell ← r.mem w
    let n ← cell.name
    if n = name then some (some w) else findLoop r name fuel cell.next

def atomicIncrementRef (w : UInt64) (r : Registry) : Option Registry :=
  r.modify w fun cell => { cell with refcount := cell.refcount + 1 }

def workqueueFind (name : Option (List UInt8)) (fuel : ℕ) (r : Registry) :
    Option (Option UInt64 × Registry) :=
  match name with
  | none => some (none, r)
  | some name => do
    match ← findLoop r name fuel r.head with
    | none => return (none, r)
    | some w => return (some w, ← atomicIncrementRef w r)

/-- `workqueue_open`, where `calloc` answers `fresh`. It answers the workqueue and
whether it was created. -/
def workqueueOpen (name : Option (List UInt8)) (fresh : UInt64) (fuel : ℕ) (r : Registry) :
    Option (UInt64 × Bool × Registry) := do
  let name := name.map cstr
  match ← workqueueFind name fuel r with
  | (some w, r) => return (w, false, r)
  | (none, r) =>
    let cell : WorkqueueCell := ⟨none, none, 1, name⟩
    let r ← workqueueInsert fresh { r with mem := Function.update r.mem fresh (some cell) }
    return (fresh, true, r)

/-- `workqueue_close`. It answers whether the workqueue was destroyed. -/
def workqueueClose (w : UInt64) (r : Registry) : Option (Bool × Registry) := do
  let r ← r.modify w fun cell => { cell with refcount := cell.refcount - 1 }
  let cell ← r.mem w
  if cell.refcount = 0 then
    let r ← workqueueRemove w r
    return (true, { r with mem := Function.update r.mem w none })
  else return (false, r)

def workqueueRetain (w : UInt64) (r : Registry) : Option Registry := do
  let cell ← r.mem w
  if cell.name = none then atomicIncrementRef w r else return r

/-! ### The list -/

namespace Registry

def next (r : Registry) (w : UInt64) : Option UInt64 := (r.mem w).bind (·.next)

def prev (r : Registry) (w : UInt64) : Option UInt64 := (r.mem w).bind (·.prev)

def info (r : Registry) (w : UInt64) : Option (ℤ × Option (List UInt8)) :=
  (r.mem w).map fun cell => (cell.refcount, cell.name)

/-- There is a workqueue with this name at this address. -/
def Named (r : Registry) (w : UInt64) (name : List UInt8) : Prop :=
  ∃ n, r.info w = some (n, some name)

/-- `l` is the list of all workqueues with a name, and no two of them have the same. -/
structure Lists (r : Registry) (l : List UInt64) : Prop where
  linked : DList r.next r.prev r.head l
  mem_iff : ∀ w, w ∈ l ↔ ∃ name, r.Named w name
  names : ∀ v w name, r.Named v name → r.Named w name → v = w

theorem empty_lists : empty.Lists [] where
  linked := ⟨.nil, rfl⟩
  mem_iff w := by simp [empty, Named, info]
  names v w name h := by simp [empty, Named, info] at h

variable {r : Registry} {w : UInt64}

theorem exists_cell {x : ℤ × Option (List UInt8)} (h : r.info w = some x) :
    ∃ cell, r.mem w = some cell ∧ x = (cell.refcount, cell.name) := by
  obtain ⟨cell, hcell, rfl⟩ := Option.map_eq_some_iff.mp h
  exact ⟨cell, hcell, rfl⟩

theorem modify_eq {cell : WorkqueueCell} (h : r.mem w = some cell) (f : WorkqueueCell → WorkqueueCell) :
    r.modify w f = some { r with mem := Function.update r.mem w (some (f cell)) } := by
  rw [modify, h]
  rfl

/-- What a new cell does to the links and to the counts. -/
theorem next_update (r : Registry) (w : UInt64) (c : WorkqueueCell) :
    Registry.next { r with mem := Function.update r.mem w (some c) } =
      Function.update r.next w c.next := by
  funext v
  rcases eq_or_ne v w with rfl | hne
  · simp [next]
  · simp [next, hne]

theorem prev_update (r : Registry) (w : UInt64) (c : WorkqueueCell) :
    Registry.prev { r with mem := Function.update r.mem w (some c) } =
      Function.update r.prev w c.prev := by
  funext v
  rcases eq_or_ne v w with rfl | hne
  · simp [prev]
  · simp [prev, hne]

theorem info_update (r : Registry) (w : UInt64) (c : WorkqueueCell) :
    info { r with mem := Function.update r.mem w (some c) } =
      Function.update r.info w (some (c.refcount, c.name)) := by
  funext v
  rcases eq_or_ne v w with rfl | hne
  · simp [info]
  · simp [info, hne]

/-- The same workqueues, with these links. -/
structure Relinked (r : Registry) (next prev : UInt64 → Option UInt64) (head : Option UInt64)
    (r' : Registry) : Prop where
  next_eq : r'.next = next
  prev_eq : r'.prev = prev
  head_eq : r'.head = head
  info_eq : r'.info = r.info

theorem modify_prev {x : ℤ × Option (List UInt8)} (h : r.info w = some x) (p : Option UInt64) :
    ∃ r', r.modify w (fun cell => { cell with prev := p }) = some r' ∧
      r.Relinked r.next (Function.update r.prev w p) r.head r' := by
  obtain ⟨cell, hcell, rfl⟩ := exists_cell h
  refine ⟨_, modify_eq hcell _, ?_, ?_, rfl, ?_⟩
  · rw [next_update]
    exact Function.update_eq_self_iff.mpr (by rw [next, hcell]; rfl)
  · rw [prev_update]
  · rw [info_update]
    exact Function.update_eq_self_iff.mpr h.symm

theorem modify_next {x : ℤ × Option (List UInt8)} (h : r.info w = some x) (n : Option UInt64) :
    ∃ r', r.modify w (fun cell => { cell with next := n }) = some r' ∧
      r.Relinked (Function.update r.next w n) r.prev r.head r' := by
  obtain ⟨cell, hcell, rfl⟩ := exists_cell h
  refine ⟨_, modify_eq hcell _, ?_, ?_, rfl, ?_⟩
  · rw [next_update]
  · rw [prev_update]
    exact Function.update_eq_self_iff.mpr (by rw [prev, hcell]; rfl)
  · rw [info_update]
    exact Function.update_eq_self_iff.mpr h.symm

theorem modify_refcount {n : ℤ} {name : Option (List UInt8)} (h : r.info w = some (n, name))
    (g : ℤ → ℤ) :
    ∃ r', r.modify w (fun cell => { cell with refcount := g cell.refcount }) = some r' ∧
      r'.next = r.next ∧ r'.prev = r.prev ∧ r'.head = r.head ∧
      r'.info = Function.update r.info w (some (g n, name)) := by
  obtain ⟨cell, hcell, hx⟩ := exists_cell h
  cases hx
  refine ⟨_, modify_eq hcell _, ?_, ?_, rfl, ?_⟩
  · rw [next_update]
    exact Function.update_eq_self_iff.mpr (by rw [next, hcell]; rfl)
  · rw [prev_update]
    exact Function.update_eq_self_iff.mpr (by rw [prev, hcell]; rfl)
  · rw [info_update]

theorem Named.info_ne {r : Registry} {w : UInt64} {name : List UInt8} (h : r.Named w name) :
    r.info w ≠ none := by
  obtain ⟨n, hn⟩ := h
  rw [hn]
  exact Option.some_ne_none _

theorem named_update {r' : Registry} {x : Option (ℤ × Option (List UInt8))}
    (h : r'.info = Function.update r.info w x) {v : UInt64} {name : List UInt8} :
    r'.Named v name ↔ v = w ∧ x.map Prod.snd = some (some name) ∨ v ≠ w ∧ r.Named v name := by
  rw [Named, h]
  rcases eq_or_ne v w with rfl | hne
  · simp only [Function.update_self, true_and, ne_eq, not_true_eq_false, false_and, or_false,
      Option.map_eq_some_iff, Prod.exists, exists_eq_right]
  · simp only [Function.update_of_ne hne, hne, false_and, ne_eq, not_false_eq_true, true_and, false_or]
    rfl

theorem Lists.of_named {r' : Registry} {l : List UInt64} (h : r.Lists l) (hnext : r'.next = r.next)
    (hprev : r'.prev = r.prev) (hhead : r'.head = r.head)
    (hnamed : ∀ v name, r'.Named v name ↔ r.Named v name) : r'.Lists l where
  linked := by
    rw [hnext, hprev, hhead]
    exact h.linked
  mem_iff v := (h.mem_iff v).trans (exists_congr fun name => (hnamed v name).symm)
  names v u name hv hu := h.names v u name ((hnamed v name).mp hv) ((hnamed u name).mp hu)

/-! ### The functions -/

theorem workqueueInsert_anonymous {n : ℤ} (h : r.info w = some (n, none)) :
    workqueueInsert w r = some r := by
  obtain ⟨cell, hcell, hx⟩ := exists_cell h
  have hname : cell.name = none := (congrArg Prod.snd hx).symm
  simp [workqueueInsert, hcell, hname]

theorem workqueueInsert_named {l : List UInt64} (hl : DList r.next r.prev r.head l)
    (halloc : ∀ v ∈ l, ∃ x, r.info v = some x) {n : ℤ} {name : List UInt8}
    (h : r.info w = some (n, some name)) :
    ∃ r', workqueueInsert w r = some r' ∧
      r.Relinked (pushNext r.next r.head w) (pushPrev r.prev r.head w) (some w) r' := by
  obtain ⟨cell, hcell, hx⟩ := exists_cell h
  have hname : cell.name = some name := (congrArg Prod.snd hx).symm
  have hne : ¬ cell.name = none := by rw [hname]; nofun
  cases hhead : r.head with
  | none => exact ⟨{ r with head := some w }, by simp [workqueueInsert, hcell, hname, hhead], rfl, rfl, rfl, rfl⟩
  | some v =>
    obtain ⟨x, hx⟩ := halloc v (hl.head_mem hhead)
    obtain ⟨r₁, hr₁, h₁⟩ := modify_prev hx (some w)
    rw [← h₁.info_eq] at h
    obtain ⟨r₂, hr₂, h₂⟩ := modify_next h r₁.head
    refine ⟨{ r₂ with head := some w }, ?_, ?_, ?_, rfl, h₂.info_eq.trans h₁.info_eq⟩
    · simp only [workqueueInsert, hcell, hhead, hr₁, hr₂, Option.bind_eq_bind, Option.bind_some, if_neg hne]
      rfl
    · exact h₂.next_eq.trans (by rw [h₁.next_eq, h₁.head_eq, hhead]; rfl)
    · exact h₂.prev_eq.trans h₁.prev_eq

theorem workqueueRemove_anonymous {n : ℤ} (h : r.info w = some (n, none)) :
    workqueueRemove w r = some r := by
  obtain ⟨cell, hcell, hx⟩ := exists_cell h
  have hname : cell.name = none := (congrArg Prod.snd hx).symm
  simp [workqueueRemove, hcell, hname]

theorem workqueueRemove_named {xs ys : List UInt64} (hl : DList r.next r.prev r.head (xs ++ w :: ys))
    (halloc : ∀ v ∈ xs ++ w :: ys, ∃ x, r.info v = some x) {n : ℤ} {name : List UInt8}
    (h : r.info w = some (n, some name)) :
    ∃ r', workqueueRemove w r = some r' ∧
      r.Relinked (unlinkNext r.next r.prev w) (unlinkPrev r.next r.prev w) (unlinkHead r.next r.head w)
        r' := by
  obtain ⟨cell, hcell, hx⟩ := exists_cell h
  have hname : cell.name = some name := (congrArg Prod.snd hx).symm
  have hne : ¬ cell.name = none := by rw [hname]; nofun
  have hnext : r.next w = cell.next := by rw [next, hcell]; rfl
  have hprev : r.prev w = cell.prev := by rw [prev, hcell]; rfl
  obtain ⟨hys, hxs⟩ := hl.neighbours
  -- the head, then the node behind, then the node in front
  obtain ⟨r₀, hr₀, h₀⟩ : ∃ r₀, (if r.head = some w then { r with head := cell.next } else r) = r₀ ∧
      r.Relinked r.next r.prev (unlinkHead r.next r.head w) r₀ := by
    refine ⟨_, rfl, ?_⟩
    rw [unlinkHead, hnext]
    split_ifs
    · exact ⟨rfl, rfl, rfl, rfl⟩
    · exact ⟨rfl, rfl, rfl, rfl⟩
  obtain ⟨r₁, hr₁, h₁⟩ : ∃ r₁, r₀.setPrev cell.next cell.prev = some r₁ ∧
      r.Relinked r.next (unlinkPrev r.next r.prev w) (unlinkHead r.next r.head w) r₁ := by
    rw [unlinkPrev, hnext, hprev]
    cases hn : cell.next with
    | none => exact ⟨r₀, rfl, h₀⟩
    | some b =>
      obtain ⟨x, hb⟩ := halloc b (List.mem_append_right _ (List.mem_cons_of_mem _ (hys b (hnext.trans hn))))
      rw [← h₀.info_eq] at hb
      obtain ⟨r₁, hr₁, h₁⟩ := modify_prev hb cell.prev
      exact ⟨r₁, hr₁, h₁.next_eq.trans h₀.next_eq, by rw [h₁.prev_eq, h₀.prev_eq],
        h₁.head_eq.trans h₀.head_eq, h₁.info_eq.trans h₀.info_eq⟩
  obtain ⟨r₂, hr₂, h₂⟩ : ∃ r₂, r₁.setNext cell.prev cell.next = some r₂ ∧
      r.Relinked (unlinkNext r.next r.prev w) (unlinkPrev r.next r.prev w) (unlinkHead r.next r.head w)
        r₂ := by
    rw [unlinkNext, hnext, hprev]
    cases hp : cell.prev with
    | none => exact ⟨r₁, rfl, h₁⟩
    | some b =>
      obtain ⟨x, hb⟩ := halloc b (List.mem_append_left _ (hxs b (hprev.trans hp)))
      rw [← h₁.info_eq] at hb
      obtain ⟨r₂, hr₂, h₂⟩ := modify_next hb cell.next
      exact ⟨r₂, hr₂, by rw [h₂.next_eq, h₁.next_eq], h₂.prev_eq.trans h₁.prev_eq,
        h₂.head_eq.trans h₁.head_eq, h₂.info_eq.trans h₁.info_eq⟩
  refine ⟨r₂, ?_, h₂⟩
  simp only [workqueueRemove, hcell, Option.bind_eq_bind, Option.bind_some, if_neg hne, hr₀, hr₁, hr₂]

theorem findLoop_search {name : List UInt8} {fuel : ℕ} {first result : Option UInt64}
    (h : findLoop r name fuel first = some result) :
    search r.next (fun w => decide ((r.info w).map Prod.snd = some (some name))) fuel first =
      some result := by
  induction fuel generalizing first with
  | zero => cases h
  | succ fuel ih =>
    cases first with
    | none => exact h
    | some w =>
      rw [findLoop] at h
      obtain ⟨cell, hcell, h⟩ := Option.bind_eq_some_iff.mp h
      obtain ⟨n, hn, h⟩ := Option.bind_eq_some_iff.mp h
      have hinfo : (r.info w).map Prod.snd = some (some n) := by rw [info, hcell, ← hn]; rfl
      have hnext : r.next w = cell.next := by rw [next, hcell]; rfl
      rw [search, hinfo]
      simp only [Option.some_inj, decide_eq_true_eq]
      split_ifs at h ⊢
      · exact h
      · rw [hnext]
        exact ih h

/-- The search answers the workqueue with the name, if there is one. -/
theorem Lists.find {l : List UInt64} (hl : r.Lists l) {name : List UInt8} {fuel : ℕ}
    {result : Option UInt64} (h : findLoop r name fuel r.head = some result) :
    match result with
    | some w => r.Named w name
    | none => ∀ w, ¬ r.Named w name := by
  have hfind := hl.linked.segment.search _ (findLoop_search h)
  cases result with
  | some w =>
    have hw := List.find?_some hfind.symm
    obtain ⟨⟨n, name'⟩, hinfo, hname⟩ := Option.map_eq_some_iff.mp (of_decide_eq_true hw)
    cases hname
    exact ⟨n, hinfo⟩
  | none =>
    rintro w ⟨n, hinfo⟩
    have hnone := List.find?_eq_none.mp hfind.symm w ((hl.mem_iff w).mpr ⟨name, n, hinfo⟩)
    rw [hinfo] at hnone
    exact hnone (decide_eq_true rfl)

/-- A new workqueue, under a name that none has. -/
theorem Lists.create {l : List UInt64} (hl : r.Lists l) (hfresh : r.mem w = none)
    (name : Option (List UInt8)) (hnew : ∀ s, name = some s → ∀ v, ¬ r.Named v s) :
    ∃ r' l', workqueueInsert w { r with mem := Function.update r.mem w (some ⟨none, none, 1, name⟩) } =
        some r' ∧ r'.info = Function.update r.info w (some (1, name)) ∧ r'.Lists l' := by
  have hinfo := info_update r w ⟨none, none, 1, name⟩
  have hnext : Registry.next { r with mem := Function.update r.mem w (some ⟨none, none, 1, name⟩) } =
      r.next := by
    rw [next_update]
    exact Function.update_eq_self_iff.mpr (by rw [next, hfresh]; rfl)
  have hprev : Registry.prev { r with mem := Function.update r.mem w (some ⟨none, none, 1, name⟩) } =
      r.prev := by
    rw [prev_update]
    exact Function.update_eq_self_iff.mpr (by rw [prev, hfresh]; rfl)
  have hself : info { r with mem := Function.update r.mem w (some ⟨none, none, 1, name⟩) } w =
      some (1, name) := by rw [hinfo, Function.update_self]
  have hunnamed : ∀ s, ¬ r.Named w s := fun s hs => hs.info_ne (by rw [info, hfresh]; rfl)
  have hwl : w ∉ l := fun hmem => by
    obtain ⟨s, hs⟩ := (hl.mem_iff w).mp hmem
    exact hunnamed s hs
  cases name with
  | none =>
    refine ⟨_, l, workqueueInsert_anonymous hself, hinfo, hl.of_named hnext hprev rfl fun v s => ?_⟩
    rw [named_update hinfo]
    rcases eq_or_ne v w with rfl | hne
    · simp [hunnamed]
    · simp [hne]
  | some s =>
    have halloc : ∀ v ∈ l, ∃ x,
        info { r with mem := Function.update r.mem w (some ⟨none, none, 1, some s⟩) } v =
          some x := by
      intro v hv
      obtain ⟨t, n, ht⟩ := (hl.mem_iff v).mp hv
      have hne : v ≠ w := fun hvw => hwl (hvw ▸ hv)
      exact ⟨(n, some t), by rw [hinfo, Function.update_of_ne hne, ht]⟩
    obtain ⟨r', hr', h'⟩ := workqueueInsert_named (by rw [hnext, hprev]; exact hl.linked) halloc hself
    have hinfo' := h'.info_eq.trans hinfo
    refine ⟨r', w :: l, hr', hinfo', ?_, fun v => ?_, fun u v t hu hv => ?_⟩
    · rw [h'.next_eq, h'.prev_eq, h'.head_eq, hnext, hprev]
      exact hl.linked.push hwl (by rw [next, hfresh]; rfl) (by rw [prev, hfresh]; rfl)
    · simp only [named_update hinfo', List.mem_cons, hl.mem_iff]
      rcases eq_or_ne v w with rfl | hne
      · simp
      · simp [hne]
    · rw [named_update hinfo'] at hu hv
      rcases hu with ⟨hu, hs⟩ | ⟨hu, hn⟩ <;> rcases hv with ⟨hv, hs'⟩ | ⟨hv, hn'⟩
      · exact hu.trans hv.symm
      · cases hs
        exact absurd hn' (hnew s rfl v)
      · cases hs'
        exact absurd hn (hnew s rfl u)
      · exact hl.names u v t hn hn'

theorem Lists.count {l : List UInt64} (hl : r.Lists l) {n : ℤ} {name : Option (List UInt8)}
    (h : r.info w = some (n, name)) (g : ℤ → ℤ) :
    ∃ r', r.modify w (fun cell => { cell with refcount := g cell.refcount }) = some r' ∧
      r'.info = Function.update r.info w (some (g n, name)) ∧ r'.Lists l := by
  obtain ⟨r', hr', hnext, hprev, hhead, hinfo⟩ := modify_refcount h g
  refine ⟨r', hr', hinfo, hl.of_named hnext hprev hhead fun v s => ?_⟩
  rw [named_update hinfo]
  rcases eq_or_ne v w with rfl | hne
  · simp [Named, h]
  · simp [hne]

theorem Lists.workqueueFind_cases {l : List UInt64} (hl : r.Lists l) {name : Option (List UInt8)}
    {fuel : ℕ} {found : Option UInt64} {r' : Registry} (h : workqueueFind name fuel r = some (found, r')) :
    (found = none ∧ r' = r ∧ ∀ s, name = some s → ∀ v, ¬ r.Named v s) ∨
      ∃ v n s, found = some v ∧ r.info v = some (n, some s) ∧ name = some s ∧
        r'.info = Function.update r.info v (some (n + 1, some s)) ∧ r'.Lists l := by
  cases name with
  | none =>
    cases h
    exact Or.inl ⟨rfl, rfl, nofun⟩
  | some s =>
    obtain ⟨result, hresult, h⟩ := Option.bind_eq_some_iff.mp h
    have hfind := hl.find hresult
    cases result with
    | none =>
      cases h
      refine Or.inl ⟨rfl, rfl, fun t ht v => ?_⟩
      cases ht
      exact hfind v
    | some v =>
      obtain ⟨n, hn⟩ := hfind
      obtain ⟨r₁, hr₁, hinfo, hl'⟩ := hl.count hn (· + 1)
      obtain ⟨r₂, hr₂, h⟩ := Option.bind_eq_some_iff.mp h
      obtain rfl : r₁ = r₂ := Option.some.inj (hr₁.symm.trans hr₂)
      cases h
      exact Or.inr ⟨v, n, s, rfl, hn, rfl, hinfo, hl'⟩

/-- `workqueue_open` makes a handle to the workqueue with the name, or to a new one. -/
theorem Lists.opens {l : List UInt64} (hl : r.Lists l) {name : Option (List UInt8)} {fresh : UInt64}
    (hfresh : r.mem fresh = none) {fuel : ℕ} {creator : Bool} {r' : Registry}
    (h : workqueueOpen name fresh fuel r = some (w, creator, r')) :
    (∃ l', r'.Lists l') ∧
      ((w = fresh ∧ ∃ name, r'.info = Function.update r.info w (some (1, name))) ∨
        ∃ n s, r.info w = some (n, some s) ∧
          r'.info = Function.update r.info w (some (n + 1, some s))) := by
  obtain ⟨⟨found, r₁⟩, hfind, hopen⟩ := Option.bind_eq_some_iff.mp h
  rcases hl.workqueueFind_cases hfind with ⟨rfl, rfl, hnew⟩ | ⟨v, n, s, rfl, hn, -, hinfo, hl'⟩
  · obtain ⟨r₂, l', hr₂, hinfo, hl'⟩ := hl.create hfresh (name.map cstr) hnew
    obtain ⟨r₃, hr₃, hopen⟩ := Option.bind_eq_some_iff.mp hopen
    obtain rfl : r₂ = r₃ := Option.some.inj (hr₂.symm.trans hr₃)
    cases hopen
    exact ⟨⟨l', hl'⟩, Or.inl ⟨rfl, _, hinfo⟩⟩
  · cases hopen
    exact ⟨⟨l, hl'⟩, Or.inr ⟨n, s, hn, hinfo⟩⟩

/-- `workqueue_retain` counts for a workqueue without a name only. -/
theorem Lists.retain {l : List UInt64} (hl : r.Lists l) {n : ℤ} {name : Option (List UInt8)}
    (h : r.info w = some (n, name)) :
    ∃ r', workqueueRetain w r = some r' ∧
      r'.info = Function.update r.info w (some (if name = none then n + 1 else n, name)) ∧
        r'.Lists l := by
  obtain ⟨cell, hcell, hx⟩ := exists_cell h
  have hname : name = cell.name := congrArg Prod.snd hx
  by_cases hnone : name = none
  · obtain ⟨r', hr', hinfo, hl'⟩ := hl.count h (· + 1)
    refine ⟨r', ?_, by rw [if_pos hnone]; exact hinfo, hl'⟩
    rw [workqueueRetain, hcell]
    exact (if_pos (hname ▸ hnone)).trans hr'
  · refine ⟨r, ?_, by rw [if_neg hnone]; exact (Function.update_eq_self_iff.mpr h.symm).symm, hl⟩
    rw [workqueueRetain, hcell]
    exact if_neg (hname ▸ hnone)

/-- The memory of a workqueue that is in no list is given back. -/
theorem erase_linked {l : List UInt64} (h : DList r.next r.prev r.head l) (hw : w ∉ l) :
    DList (Registry.next { r with mem := Function.update r.mem w none })
      (Registry.prev { r with mem := Function.update r.mem w none }) r.head l := by
  have hne : ∀ v ∈ l, v ≠ w := fun v hv hvw => hw (hvw ▸ hv)
  refine ⟨h.nodup, h.segment.congr (fun v hv => ?_) fun v hv => ?_⟩
  · simp [next, hne v hv]
  · simp [prev, hne v hv]

/-- `workqueue_close` gives a reference back; the last one destroys the workqueue. -/
theorem Lists.close {l : List UInt64} (hl : r.Lists l) {n : ℤ} {name : Option (List UInt8)}
    (h : r.info w = some (n, name)) :
    ∃ r' l', workqueueClose w r = some (decide (n = 1), r') ∧
      r'.info = Function.update r.info w (if n = 1 then none else some (n - 1, name)) ∧
        r'.Lists l' := by
  obtain ⟨r₁, hr₁, hinfo, hl₁⟩ := hl.count h (· - 1)
  have hw : r₁.info w = some (n - 1, name) := by rw [hinfo, Function.update_self]
  obtain ⟨cell, hcell, hx⟩ := exists_cell hw
  have hcount : n - 1 = cell.refcount := congrArg Prod.fst hx
  have hclose : workqueueClose w r = if cell.refcount = 0 then
      (workqueueRemove w r₁).bind fun r =>
        some (true, { r with mem := Function.update r.mem w none })
      else some (false, r₁) := by
    rw [workqueueClose, hr₁]
    simp only [Option.bind_eq_bind, Option.bind_some, hcell]
    rfl
  by_cases hlast : n = 1
  · have hzero : cell.refcount = 0 := by omega
    -- the list without the workqueue, before its memory is given back
    obtain ⟨r₂, l₂, hr₂, hinfo₂, hlinked, hmem⟩ : ∃ r₂ l₂, workqueueRemove w r₁ = some r₂ ∧
        r₂.info = r₁.info ∧ DList r₂.next r₂.prev r₂.head l₂ ∧ ∀ v, v ∈ l₂ ↔ v ∈ l ∧ v ≠ w := by
      cases name with
      | none =>
        refine ⟨r₁, l, workqueueRemove_anonymous hw, rfl, hl₁.linked, fun v => ?_⟩
        refine ⟨fun hv => ⟨hv, fun hvw => ?_⟩, And.left⟩
        obtain ⟨s, m, hm⟩ := (hl₁.mem_iff v).mp hv
        rw [hvw, hw] at hm
        cases hm
      | some s =>
        obtain ⟨xs, ys, rfl⟩ := List.append_of_mem ((hl₁.mem_iff w).mpr ⟨s, _, hw⟩)
        have halloc : ∀ v ∈ xs ++ w :: ys, ∃ x, r₁.info v = some x := fun v hv => by
          obtain ⟨t, m, hm⟩ := (hl₁.mem_iff v).mp hv
          exact ⟨_, hm⟩
        obtain ⟨r₂, hr₂, h₂⟩ := workqueueRemove_named hl₁.linked halloc hw
        refine ⟨r₂, xs ++ ys, hr₂, h₂.info_eq, ?_, fun v => ?_⟩
        · rw [h₂.next_eq, h₂.prev_eq, h₂.head_eq]
          exact hl₁.linked.unlink
        · have hnodup := List.nodup_middle.mp hl₁.linked.nodup
          have hwn := (List.nodup_cons.mp hnodup).1
          simp only [List.mem_append, List.mem_cons] at hwn ⊢
          constructor
          · intro hv
            exact ⟨hv.imp_right Or.inr, fun hvw => hwn (hvw ▸ hv)⟩
          · rintro ⟨hv | rfl | hv, hvw⟩
            · exact Or.inl hv
            · exact absurd rfl hvw
            · exact Or.inr hv
    have hfinal : info { r₂ with mem := Function.update r₂.mem w none } =
        Function.update r.info w none := by
      funext v
      rcases eq_or_ne v w with rfl | hne
      · simp [info]
      · rw [Function.update_of_ne hne]
        have hv := congrFun (hinfo₂.trans hinfo) v
        rw [Function.update_of_ne hne] at hv
        rw [← hv]
        simp [info, hne]
    refine ⟨{ r₂ with mem := Function.update r₂.mem w none }, l₂, ?_, ?_, ?_, fun v => ?_,
      fun u v s hu hv => ?_⟩
    · rw [hclose, if_pos hzero, hr₂, decide_eq_true hlast]
      rfl
    · rw [if_pos hlast]
      exact hfinal
    · exact erase_linked hlinked fun hwl => ((hmem w).mp hwl).2 rfl
    · simp only [named_update hfinal, hmem, hl.mem_iff]
      simp [and_comm]
    · rw [named_update hfinal] at hu hv
      exact hl.names u v s (hu.resolve_left (by simp)).2 (hv.resolve_left (by simp)).2
  · refine ⟨r₁, l, ?_, ?_, hl₁⟩
    · rw [hclose, if_neg (by omega), decide_eq_false hlast]
    · rw [if_neg hlast]
      exact hinfo

end Registry

end TorchIpc
