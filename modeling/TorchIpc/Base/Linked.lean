import Mathlib.Data.List.Nodup
import Mathlib.Logic.Function.Basic

/-! Intrusive doubly linked lists: every node holds the addresses of the next and the
previous one, and somebody holds the address of the first. A segment runs from one
address to another; a list is a segment with nothing in front and nothing behind. The
three operations are to put a node in front, to take one out, and to look for the first
that has a property. -/

namespace TorchIpc.Linked

section
variable {A : Type*}

/-- The nodes `l`, of which `first` is the address of the first one; `before` comes in
front of them, and after them `after`. -/
def Segment (next prev : A → Option A) : (before first : Option A) → List A → (after : Option A) →
    Prop
  | _, first, [], after => first = after
  | before, first, a :: l, after =>
    first = some a ∧ prev a = before ∧ Segment next prev (some a) (next a) l after

/-- A doubly linked list with this first node. -/
structure DList (next prev : A → Option A) (head : Option A) (l : List A) : Prop where
  nodup : l.Nodup
  segment : Segment next prev none head l none

variable {next prev next' prev' : A → Option A} {before first after : Option A} {l xs ys : List A}
  {a : A}

theorem Segment.congr (h : Segment next prev before first l after) (hnext : ∀ a ∈ l, next' a = next a)
    (hprev : ∀ a ∈ l, prev' a = prev a) : Segment next' prev' before first l after := by
  induction l generalizing before first with
  | nil => exact h
  | cons a l ih =>
    obtain ⟨hfirst, hbefore, hrest⟩ := h
    refine ⟨hfirst, (hprev a List.mem_cons_self).trans hbefore, ?_⟩
    rw [hnext a List.mem_cons_self]
    exact ih hrest (fun b hb => hnext b (List.mem_cons_of_mem _ hb))
      fun b hb => hprev b (List.mem_cons_of_mem _ hb)

/-- The last of the nodes, or what is in front of them. -/
def lastOr (before : Option A) : List A → Option A
  | [] => before
  | a :: l => lastOr (some a) l

theorem segment_append :
    Segment next prev before first (xs ++ ys) after ↔
      ∃ mid, Segment next prev before first xs mid ∧
        Segment next prev (lastOr before xs) mid ys after := by
  induction xs generalizing before first with
  | nil =>
    constructor
    · intro h
      exact ⟨first, rfl, h⟩
    · rintro ⟨mid, rfl, h⟩
      exact h
  | cons a xs ih =>
    simp only [List.cons_append, Segment, ih, lastOr]
    constructor
    · rintro ⟨hfirst, hbefore, mid, hxs, hys⟩
      exact ⟨mid, ⟨hfirst, hbefore, hxs⟩, hys⟩
    · rintro ⟨mid, ⟨hfirst, hbefore, hxs⟩, hys⟩
      exact ⟨hfirst, hbefore, mid, hxs, hys⟩

theorem lastOr_concat (before : Option A) (xs : List A) (a : A) :
    lastOr before (xs ++ [a]) = some a := by
  induction xs generalizing before with
  | nil => rfl
  | cons b xs ih => exact ih (some b)

theorem Segment.exists_first (h : Segment next prev before first l after) (hne : l ≠ []) :
    ∃ a ∈ l, first = some a := by
  cases l with
  | nil => exact absurd rfl hne
  | cons a l => exact ⟨a, List.mem_cons_self, h.1⟩

theorem DList.head_mem {head : Option A} (h : DList next prev head l) (ha : head = some a) :
    a ∈ l := by
  have hne : l ≠ [] := by
    rintro rfl
    have hnone : head = none := h.segment
    rw [hnone] at ha
    cases ha
  obtain ⟨b, hb, hhead⟩ := h.segment.exists_first hne
  rw [hhead] at ha
  exact Option.some.inj ha ▸ hb

theorem DList.neighbours {head : Option A} (h : DList next prev head (xs ++ a :: ys)) :
    (∀ n, next a = some n → n ∈ ys) ∧ ∀ p, prev a = some p → p ∈ xs := by
  obtain ⟨mid, hxs, rfl, hprev, hys⟩ := segment_append.mp h.segment
  constructor
  · intro n hn
    cases ys with
    | nil =>
      have hnone : next a = none := hys
      rw [hnone] at hn
      cases hn
    | cons y ys =>
      rw [hys.1] at hn
      cases hn
      exact List.mem_cons_self
  · intro p hp
    rw [hprev] at hp
    rcases List.eq_nil_or_concat' xs with rfl | ⟨zs, c, rfl⟩
    · cases hp
    · rw [lastOr_concat] at hp
      rw [← Option.some.inj hp]
      exact List.mem_append_right _ (List.mem_singleton_self c)

variable [DecidableEq A]

/-! ### Putting a node in front -/

def pushNext (next : A → Option A) (head : Option A) (a : A) : A → Option A :=
  match head with
  | some _ => Function.update next a head
  | none => next

def pushPrev (prev : A → Option A) (head : Option A) (a : A) : A → Option A :=
  match head with
  | some h => Function.update prev h (some a)
  | none => prev

theorem DList.push {head : Option A} (h : DList next prev head l) (ha : a ∉ l) (hnext : next a = none)
    (hprev : prev a = none) :
    DList (pushNext next head a) (pushPrev prev head a) (some a) (a :: l) := by
  refine ⟨List.nodup_cons.mpr ⟨ha, h.nodup⟩, rfl, ?_⟩
  cases l with
  | nil =>
    obtain rfl : head = none := h.segment
    exact ⟨hprev, hnext⟩
  | cons b l =>
    obtain ⟨rfl, hb, hrest⟩ := h.segment
    have hab : a ≠ b := fun hab => ha (hab ▸ List.mem_cons_self)
    have hal : a ∉ l := fun hal => ha (List.mem_cons_of_mem _ hal)
    have hbl := (List.nodup_cons.mp h.nodup).1
    have hne : ∀ c ∈ l, c ≠ b := fun c hc hcb => hbl (hcb ▸ hc)
    refine ⟨by rw [pushPrev, Function.update_of_ne hab, hprev], by rw [pushNext, Function.update_self],
      by rw [pushPrev, Function.update_self], ?_⟩
    rw [pushNext, Function.update_of_ne (Ne.symm hab)]
    refine hrest.congr (fun c hc => ?_) fun c hc => ?_
    · have hca : c ≠ a := fun hca => hal (hca ▸ hc)
      exact Function.update_of_ne hca _ _
    · exact Function.update_of_ne (hne c hc) _ _

/-! ### Taking a node out -/

def unlinkHead (next : A → Option A) (head : Option A) (a : A) : Option A :=
  if head = some a then next a else head

def unlinkNext (next prev : A → Option A) (a : A) : A → Option A :=
  match prev a with
  | some p => Function.update next p (next a)
  | none => next

def unlinkPrev (next prev : A → Option A) (a : A) : A → Option A :=
  match next a with
  | some n => Function.update prev n (prev a)
  | none => prev

/-- The nodes in front of it now lead to the one behind it. -/
theorem Segment.retarget {head : Option A} (h : Segment next prev none head xs (some a))
    (hnodup : xs.Nodup) (ha : a ∉ xs) (hprev : prev a = lastOr none xs)
    (hkeep : ∀ b ∈ xs, prev' b = prev b) :
    Segment (unlinkNext next prev a) prev' none (unlinkHead next head a) xs (next a) := by
  rcases List.eq_nil_or_concat' xs with rfl | ⟨zs, c, rfl⟩
  · obtain rfl : head = some a := h
    rw [unlinkHead, if_pos rfl]
    rfl
  · rw [lastOr_concat] at hprev
    rw [List.nodup_append] at hnodup
    have hcz : ∀ b ∈ zs, b ≠ c := fun b hb => hnodup.2.2 b hb c (List.mem_singleton_self c)
    have hhead : head ≠ some a := by
      obtain ⟨b, hb, rfl⟩ := h.exists_first (List.append_ne_nil_of_right_ne_nil zs (List.cons_ne_nil c []))
      exact fun hba => ha (Option.some.inj hba ▸ hb)
    rw [unlinkHead, if_neg hhead, unlinkNext, hprev]
    obtain ⟨mid, hzs, hmid, hc, hlast⟩ := segment_append.mp h
    refine segment_append.mpr ⟨mid, ?_, hmid, ?_, ?_⟩
    · refine hzs.congr (fun b hb => Function.update_of_ne (hcz b hb) _ _) fun b hb => ?_
      exact hkeep b (List.mem_append_left _ hb)
    · rw [hkeep c (List.mem_append_right _ (List.mem_singleton_self c)), hc]
    · exact Function.update_self ..

/-- The node behind it now leads back to the one in front. -/
theorem Segment.rebase (h : Segment next prev (some a) (next a) ys none) (hnodup : ys.Nodup)
    (hkeep : ∀ b ∈ ys, next' b = next b) :
    Segment next' (unlinkPrev next prev a) (prev a) (next a) ys none := by
  cases ys with
  | nil => exact h
  | cons b ys =>
    obtain ⟨hfirst, hb, hrest⟩ := h
    have hne : ∀ c ∈ ys, c ≠ b := fun c hc hcb => (List.nodup_cons.mp hnodup).1 (hcb ▸ hc)
    rw [unlinkPrev, hfirst]
    refine ⟨rfl, Function.update_self .., ?_⟩
    rw [hkeep b List.mem_cons_self]
    exact hrest.congr (fun c hc => hkeep c (List.mem_cons_of_mem _ hc)) fun c hc =>
      Function.update_of_ne (hne c hc) _ _

theorem DList.unlink {head : Option A} (h : DList next prev head (xs ++ a :: ys)) :
    DList (unlinkNext next prev a) (unlinkPrev next prev a) (unlinkHead next head a) (xs ++ ys) := by
  obtain ⟨mid, hxs, rfl, hprev, hys⟩ := segment_append.mp h.segment
  obtain ⟨hnx, hnay, hdisj⟩ := List.nodup_append.mp h.nodup
  obtain ⟨hay, hny⟩ := List.nodup_cons.mp hnay
  have hax : a ∉ xs := fun hmem => hdisj a hmem a List.mem_cons_self rfl
  have hxy : ∀ b ∈ xs, b ∉ ys := fun b hb hby => hdisj b hb b (List.mem_cons_of_mem _ hby) rfl
  refine ⟨(h.nodup.sublist ((List.Sublist.refl xs).append (List.sublist_cons_self a ys))), ?_⟩
  refine segment_append.mpr ⟨next a, hxs.retarget hnx hax hprev fun b hb => ?_, ?_⟩
  · rw [unlinkPrev]
    cases hn : next a with
    | none => rfl
    | some n =>
      have hne : b ≠ n := fun hbn => hxy b hb (hbn ▸ h.neighbours.1 n hn)
      exact Function.update_of_ne hne _ _
  · rw [← hprev]
    refine hys.rebase hny fun b hb => ?_
    rw [unlinkNext]
    cases hp : prev a with
    | none => rfl
    | some p =>
      have hne : b ≠ p := fun hbp => hxy p (h.neighbours.2 p hp) (hbp ▸ hb)
      exact Function.update_of_ne hne _ _

end

/-! ### Looking for a node -/

section
variable {A : Type*} {next prev : A → Option A} {before first : Option A} {l : List A}

def search (next : A → Option A) (p : A → Bool) : ℕ → Option A → Option (Option A)
  | 0, _ => none
  | _ + 1, none => some none
  | fuel + 1, some a => if p a then some (some a) else search next p fuel (next a)

theorem Segment.search (h : Segment next prev before first l none) (p : A → Bool) {fuel : ℕ}
    {result : Option A} (hs : Linked.search next p fuel first = some result) :
    result = l.find? p := by
  induction l generalizing before first fuel with
  | nil =>
    obtain rfl : first = none := h
    cases fuel with
    | zero => cases hs
    | succ fuel =>
      cases hs
      rfl
  | cons a l ih =>
    obtain ⟨rfl, -, hrest⟩ := h
    cases fuel with
    | zero => cases hs
    | succ fuel =>
      rw [Linked.search] at hs
      rw [List.find?_cons]
      split_ifs at hs with hp
      · cases hs
        rw [hp]
      · rw [Bool.not_eq_true] at hp
        rw [hp]
        exact ih hrest hs

end

end TorchIpc.Linked
