import Mathlib.Algebra.BigOperators.Group.Finset.Basic
import Mathlib.Algebra.Order.BigOperators.Group.Finset
import Mathlib.Data.Fintype.BigOperators
import Mathlib.Tactic.Abel
import TorchIpc.Base.Monitor

/-! Threads that run programs over several monitors. What a thread does next is read off its
local state: a call on one of the objects, a wait for other threads to end, or nothing. The
rules here say of every run that it is no longer than a measure which the calls lower allows,
but for the wake-ups without a reason, and where the threads are when no step is left. -/

namespace TorchIpc.Crews

open Runs Monitor

inductive Act (T O K : Type*) where
  | call (o : O) (k : K)
  | join (waitsFor : T → Bool)
  | ended

/-- A program on the local states `L`, with what a reply makes of a local state, and the end
of a wait for other threads. -/
structure Program (T O K A L : Type*) where
  next : L → Act T O K
  reply : L → A → L
  joined : L → L

structure Crew (T O C K L : Type*) where
  shared : O → Shared T C K
  place : T → L

inductive Event (O A : Type*) where
  | returned (o : O) (a : A)
  | waits
  | woken
  | joined

def Event.advances {O A : Type*} : Event O A → ℕ
  | .returned _ _ => 1
  | .waits => 0
  | .woken => 0
  | .joined => 1

def Event.isWoken {O A : Type*} : Event O A → Bool
  | .woken => true
  | _ => false

section
variable {T O C K A L : Type*}

def start (c₀ : O → C) (l₀ : T → L) : Crew T O C K L := ⟨fun o => Monitor.start (c₀ o), l₀⟩

section
variable [DecidableEq T] [DecidableEq O]

/-- A pass of the call that a thread is at, a wake-up without a reason, or the end of a wait
for other threads. -/
inductive Step (p : Program T O K A L) (pass : O → K → C → Outcome C A → Prop) :
    Crew T O C K L → Event O A → Crew T O C K L → Prop where
  | returns {s t o k a c w b} : p.next (s.place t) = .call o k →
      (s.shared o).thread t = .idle ∨ (s.shared o).thread t = .notified k →
      pass o k (s.shared o).obj (.returns a c w) →
        Wakes w (Function.update (s.shared o).thread t .idle) b →
      Step p pass s (.returned o a)
        ⟨Function.update s.shared o ⟨c, b⟩, Function.update s.place t (p.reply (s.place t) a)⟩
  | waits {s t o k c} : p.next (s.place t) = .call o k →
      (s.shared o).thread t = .idle ∨ (s.shared o).thread t = .notified k →
      pass o k (s.shared o).obj (.waits c) →
      Step p pass s .waits
        ⟨Function.update s.shared o ⟨c, Function.update (s.shared o).thread t (.waiting k)⟩, s.place⟩
  | spurious {s t o k} : (s.shared o).thread t = .waiting k →
      Step p pass s .woken
        ⟨Function.update s.shared o ⟨(s.shared o).obj, Function.update (s.shared o).thread t (.notified k)⟩, s.place⟩
  | join {s t ts} : p.next (s.place t) = .join ts →
      (∀ t', ts t' = true → p.next (s.place t') = .ended) →
      Step p pass s .joined ⟨s.shared, Function.update s.place t (p.joined (s.place t))⟩

variable {p : Program T O K A L} {pass : O → K → C → Outcome C A → Prop} {c₀ : O → C} {l₀ : T → L}
  {s s' : Crew T O C K L} {e : Event O A} {es : List (Event O A)}

/-! ### One object -/

/-- One object makes a step of the monitor, and the others are left alone. -/
theorem shared_update {o' : O} {x : Shared T C K} (h : ∃ a, Monitor.Step (pass o') (s.shared o') a x) (o : O) :
    Function.update s.shared o' x o = s.shared o ∨
      ∃ a, Monitor.Step (pass o) (s.shared o) a (Function.update s.shared o' x o) := by
  by_cases ho : o = o'
  · subst ho
    rw [Function.update_self]
    exact Or.inr h
  · exact Or.inl (Function.update_of_ne ho _ _)

/-- A step is one of the monitor, or leaves the object alone. -/
theorem Step.shared (h : Step p pass s e s') (o : O) :
    s'.shared o = s.shared o ∨ ∃ a, Monitor.Step (pass o) (s.shared o) a (s'.shared o) := by
  cases h with
  | @returns t o' k a c w b hnext hthread hpass hwakes =>
    exact shared_update ⟨some a, .returns hthread hpass hwakes⟩ o
  | @waits t o' k c hnext hthread hpass => exact shared_update ⟨none, .waits hthread hpass⟩ o
  | @spurious t o' k hthread => exact shared_update ⟨none, .spurious hthread⟩ o
  | join _ _ => exact Or.inl rfl

/-- What holds of the runs of a monitor holds of each object. -/
theorem run_shared (hrun : Run (Step p pass) (start c₀ l₀) es s) (o : O) :
    ∃ as, Run (Monitor.Step (pass o)) (Monitor.start (c₀ o)) as (s.shared o) := by
  induction hrun with
  | nil => exact ⟨[], .nil⟩
  | snoc _ hstep ih =>
    obtain ⟨as, has⟩ := ih
    rcases hstep.shared o with hsame | ⟨a, ha⟩
    · rw [hsame]
      exact ⟨as, has⟩
    · exact ⟨as ++ [a], has.snoc ha⟩

/-! ### Simpler objects -/

inductive SameOutcome {C' : Type*} (R : C → C' → Prop) : Outcome C A → Outcome C' A → Prop where
  | returns {a c c' w} : R c c' → SameOutcome R (.returns a c w) (.returns a c' w)
  | waits {c c'} : R c c' → SameOutcome R (.waits c) (.waits c')

/-- The threads of both are at the same places, in the same calls. -/
structure Shows {C' : Type*} (R : C → C' → Prop) (s : Crew T O C K L) (x : Crew T O C' K L) :
    Prop where
  place : x.place = s.place
  thread : ∀ o, (x.shared o).thread = (s.shared o).thread
  obj : ∀ o, R (s.shared o).obj (x.shared o).obj

omit [DecidableEq T] in
/-- One object and the threads at it have changed. -/
theorem Shows.update {C' : Type*} {R : C → C' → Prop} {x : Crew T O C' K L} (h : Shows R s x)
    (o : O) {c : C} {c' : C'} (hR : R c c') (b : T → Activity K) (l : T → L) :
    Shows R ⟨Function.update s.shared o ⟨c, b⟩, l⟩ ⟨Function.update x.shared o ⟨c', b⟩, l⟩ := by
  refine ⟨rfl, fun o' => ?_, fun o' => ?_⟩
  · by_cases ho : o' = o
    · subst ho
      simp only [Function.update_self]
    · simp only [Function.update_of_ne ho]
      exact h.thread o'
  · by_cases ho : o' = o
    · subst ho
      simp only [Function.update_self]
      exact hR
    · simp only [Function.update_of_ne ho]
      exact h.obj o'

/-- A step whose passes the simpler objects can make too. -/
theorem Shows.step {C' : Type*} {R : C → C' → Prop} {pass' : O → K → C' → Outcome C' A → Prop}
    {x : Crew T O C' K L} (h : Shows R s x) (hstep : Step p pass s e s')
    (hpass : ∀ t o k out, p.next (x.place t) = .call o k → pass o k (s.shared o).obj out →
      ∃ out', pass' o k (x.shared o).obj out' ∧ SameOutcome R out out') :
    ∃ x', Step p pass' x e x' ∧ Shows R s' x' := by
  cases hstep with
  | @returns t o k a c w b hnext hthread hp hwakes =>
    rw [← h.place] at hnext ⊢
    rw [← h.thread] at hthread hwakes
    obtain ⟨out', hp', hsame⟩ := hpass t o k _ hnext hp
    cases hsame with
    | returns hR => exact ⟨_, .returns hnext hthread hp' hwakes, h.update o hR b _⟩
  | @waits t o k c hnext hthread hp =>
    rw [← h.place] at hnext ⊢
    rw [← h.thread] at hthread ⊢
    obtain ⟨out', hp', hsame⟩ := hpass t o k _ hnext hp
    cases hsame with
    | waits hR => exact ⟨_, .waits hnext hthread hp', h.update o hR _ _⟩
  | @spurious t o k hthread =>
    rw [← h.place]
    rw [← h.thread] at hthread ⊢
    exact ⟨_, .spurious hthread, h.update o (h.obj o) _ _⟩
  | @join t ts hnext hended =>
    rw [← h.place] at hnext hended ⊢
    exact ⟨_, .join hnext hended, rfl, h.thread, h.obj⟩

/-- A run is one on the simpler objects, if these can make its passes wherever they can be. -/
theorem run_shows {C' : Type*} {R : C → C' → Prop} {pass' : O → K → C' → Outcome C' A → Prop}
    {c₀' : O → C'} {I : Crew T O C' K L → Prop} (hrun : Run (Step p pass) (start c₀ l₀) es s)
    (hstart : ∀ o, R (c₀ o) (c₀' o)) (hI : ∀ es x, Run (Step p pass') (start c₀' l₀) es x → I x)
    (hpass : ∀ (x : Crew T O C' K L) t o k c out, I x → p.next (x.place t) = .call o k → R c (x.shared o).obj →
      pass o k c out → ∃ out', pass' o k (x.shared o).obj out' ∧ SameOutcome R out out') :
    ∃ x, Run (Step p pass') (start c₀' l₀) es x ∧ Shows R s x := by
  induction hrun with
  | nil => exact ⟨_, .nil, rfl, fun _ => rfl, hstart⟩
  | snoc _ hstep ih =>
    obtain ⟨x, hx, hshows⟩ := ih
    obtain ⟨x', hstep', hshows'⟩ := hshows.step hstep fun t o k out hnext hp =>
      hpass x t o k _ out (hI _ _ hx) hnext (hshows.obj o) hp
    exact ⟨x', hx.snoc hstep', hshows'⟩

/-! ### Where the threads are -/

/-- A thread that waits, or has been notified, is at the call that it waits in. -/
def Busy (p : Program T O K A L) (s : Crew T O C K L) : Prop :=
  ∀ t o k, (s.shared o).thread t = .waiting k ∨ (s.shared o).thread t = .notified k →
    p.next (s.place t) = .call o k

omit [DecidableEq T] in
/-- After a wake-up a thread is in a call that it was in before. -/
theorem Wakes.busy {w : Wake} {a b : T → Activity K} (h : Wakes w a b) {t : T} {k : K}
    (ht : b t = .waiting k ∨ b t = .notified k) : a t = .waiting k ∨ a t = .notified k := by
  rcases ht with ht | ht
  · exact Or.inl (h.of_waiting ht).2
  · cases w with
    | none =>
      rw [show b = a from h] at ht
      exact Or.inr ht
    | one =>
      rcases h.1 t with hsame | ⟨k', hold, hnew⟩
      · exact Or.inr (hsame ▸ ht)
      · rw [hnew] at ht
        cases ht
        exact Or.inl hold
    | all =>
      have hall := h t
      rw [ht] at hall
      cases ha : a t with
      | idle => simp [ha] at hall
      | waiting k' =>
        simp only [ha] at hall
        cases hall
        exact Or.inl rfl
      | notified k' =>
        simp only [ha] at hall
        exact Or.inr hall.symm

/-- Who is in a call after one thread has changed is that thread, or was in it before. -/
theorem busy_update {a : T → Activity K} {t t' : T} {x : Activity K} {k : K}
    (h : Function.update a t' x t = .waiting k ∨ Function.update a t' x t = .notified k) :
    (t = t' ∧ (x = .waiting k ∨ x = .notified k)) ∨
    (t ≠ t' ∧ (a t = .waiting k ∨ a t = .notified k)) := by
  by_cases ht : t = t'
  · subst ht
    rw [Function.update_self] at h
    exact Or.inl ⟨rfl, h⟩
  · rw [Function.update_of_ne ht] at h
    exact Or.inr ⟨ht, h⟩

theorem busy_returned {w : Wake} {a b : T → Activity K} {t t' : T} {k : K} (h : Wakes w (Function.update a t' .idle) b)
    (ht : b t = .waiting k ∨ b t = .notified k) : t ≠ t' ∧
    (a t = .waiting k ∨ a t = .notified k) := by
  rcases busy_update (Wakes.busy h ht) with ⟨-, hidle⟩ | hbefore
  · rcases hidle with hidle | hidle <;> cases hidle
  · exact hbefore

/-- Only those calls wait, or have been notified, of which a pass can wait. -/
theorem run_waiting {pass : K → C → Outcome C A → Prop} {c₀ : C} {as : List (Option A)}
    {s : Shared T C K} {Q : K → Prop} (hrun : Run (Monitor.Step pass) (Monitor.start c₀) as s)
    (hwaits : ∀ k c c', pass k c (.waits c') → Q k) {t : T} {k : K}
    (h : s.thread t = .waiting k ∨ s.thread t = .notified k) : Q k := by
  induction hrun with
  | nil => rcases h with h | h <;> cases h
  | snoc _ hstep ih =>
    cases hstep with
    | returns _ _ hwakes => exact ih (busy_returned hwakes h).2
    | waits _ hpass =>
      rcases busy_update h with ⟨-, hsame | hsame⟩ | ⟨-, hbefore⟩
      · cases hsame
        exact hwaits _ _ _ hpass
      · cases hsame
      · exact ih hbefore
    | spurious hwaiting =>
      rcases busy_update h with ⟨rfl, hsame | hsame⟩ | ⟨-, hbefore⟩
      · cases hsame
      · cases hsame
        exact ih (Or.inl hwaiting)
      · exact ih hbefore

/-- A thread waits, or is notified, in the call that it is at. -/
theorem Busy.set (h : Busy p s) {t : T} {o : O} {k : K} (hcall : p.next (s.place t) = .call o k)
    {c : C} {x : Activity K} (hx : x = .waiting k ∨ x = .notified k) :
    Busy p ⟨Function.update s.shared o ⟨c, Function.update (s.shared o).thread t x⟩, s.place⟩ := by
  intro t' o' k' hbusy
  change p.next (s.place t') = _
  by_cases ho : o' = o
  · subst ho
    simp only [Function.update_self] at hbusy
    rcases busy_update hbusy with ⟨rfl, hsame⟩ | ⟨-, hbefore⟩
    · have hk : k' = k := by
        rcases hx with rfl | rfl <;> rcases hsame with hsame | hsame <;> cases hsame <;> rfl
      rw [hk]
      exact hcall
    · exact h t' o' k' hbefore
  · simp only [Function.update_of_ne ho] at hbusy
    exact h t' o' k' hbusy

/-- The threads at an object are busy there, or have been idle; the others are where they were. -/
theorem Busy.step (h : Busy p s) (hstep : Step p pass s e s') : Busy p s' := by
  cases hstep with
  | @returns t o k a c w b hnext hthread hpass hwakes =>
    intro t' o' k' hbusy
    have hold : t' ≠ t ∧ ((s.shared o').thread t' = .waiting k' ∨ (s.shared o').thread t' = .notified k') := by
      by_cases ho : o' = o
      · subst ho
        simp only [Function.update_self] at hbusy
        exact busy_returned hwakes hbusy
      · simp only [Function.update_of_ne ho] at hbusy
        refine ⟨?_, hbusy⟩
        rintro rfl
        have hcall := h t' o' k' hbusy
        rw [hnext] at hcall
        cases hcall
        exact ho rfl
    change p.next (Function.update s.place t _ t') = _
    rw [Function.update_of_ne hold.1]
    exact h t' o' k' hold.2
  | waits hnext _ _ => exact h.set hnext (Or.inl rfl)
  | @spurious t o k hthread => exact h.set (h t o k (Or.inl hthread)) (Or.inr rfl)
  | @join t ts hnext hended =>
    intro t' o' k' hbusy
    have hcall := h t' o' k' hbusy
    have ht : t' ≠ t := by
      rintro rfl
      rw [hnext] at hcall
      cases hcall
    change p.next (Function.update s.place t _ t') = _
    rw [Function.update_of_ne ht]
    exact hcall

theorem run_busy (hrun : Run (Step p pass) (start c₀ l₀) es s) : Busy p s := by
  refine hrun.invariant (I := fun _ s => Busy p s) ?_ fun _ _ _ _ h hstep => h.step hstep
  rintro t o k (h | h) <;> cases h

/-! ### Nothing left to do -/

/-- There is no step but a wake-up without a reason. -/
def Stuck (p : Program T O K A L) (pass : O → K → C → Outcome C A → Prop) (s : Crew T O C K L) :
    Prop :=
  ∀ e s', Step p pass s e s' → e.isWoken = true

omit [DecidableEq T] in
theorem exists_wakes (w : Wake) (a : T → Activity K) : ∃ b, Wakes w a b := by
  classical
  cases w with
  | none => exact ⟨a, rfl⟩
  | one =>
    by_cases hwaiting : ∃ t k, a t = .waiting k
    · obtain ⟨t, k, ht⟩ := hwaiting
      refine ⟨Function.update a t (.notified k), fun t' => ?_, fun _ => ⟨t, k, ht, Function.update_self _ _ _⟩⟩
      by_cases hsame : t' = t
      · subst hsame
        exact Or.inr ⟨k, ht, Function.update_self _ _ _⟩
      · exact Or.inl (Function.update_of_ne hsame _ _)
    · exact ⟨a, fun _ => Or.inl rfl, fun h => absurd h hwaiting⟩
  | all => exact ⟨_, fun _ => rfl⟩

/-- Where every call can make a pass, a thread without a step has ended, waits on a condition
variable, or waits for a thread that has not ended. -/
theorem Stuck.place (h : Stuck p pass s) (hbusy : Busy p s)
    (hable : ∀ t o k, p.next (s.place t) = .call o k → ∃ out, pass o k (s.shared o).obj out)
    (t : T) :
    p.next (s.place t) = .ended ∨
      (∃ o k, p.next (s.place t) = .call o k ∧ (s.shared o).thread t = .waiting k) ∨
      ∃ ts t', p.next (s.place t) = .join ts ∧ ts t' = true ∧ p.next (s.place t') ≠ .ended := by
  cases hnext : p.next (s.place t) with
  | ended => exact Or.inl rfl
  | join ts =>
    refine Or.inr (Or.inr ?_)
    by_contra hnone
    push Not at hnone
    have hwoken := h _ _ (.join hnext fun t' ht' => hnone ts t' rfl ht')
    cases hwoken
  | call o k =>
    refine Or.inr (Or.inl ⟨o, k, rfl, ?_⟩)
    by_contra hawake
    have hready : (s.shared o).thread t = .idle ∨ (s.shared o).thread t = .notified k := by
      cases hthread : (s.shared o).thread t with
      | idle => exact Or.inl rfl
      | waiting k' =>
        have hcall := hbusy t o k' (Or.inl hthread)
        rw [hnext] at hcall
        cases hcall
        exact absurd hthread hawake
      | notified k' =>
        have hcall := hbusy t o k' (Or.inr hthread)
        rw [hnext] at hcall
        cases hcall
        exact Or.inr rfl
    obtain ⟨out, hout⟩ := hable t o k hnext
    cases out with
    | returns a c w =>
      obtain ⟨b, hb⟩ := exists_wakes w (Function.update (s.shared o).thread t .idle)
      have hwoken := h _ _ (.returns hnext hready hout hb)
      cases hwoken
    | waits c =>
      have hwoken := h _ _ (.waits hnext hready hout)
      cases hwoken

end

/-! ### How long a run is -/

theorem sum_update {X M : Type*} [DecidableEq T] [Fintype T] [AddCommMonoid M] (g : X → M) (f : T → X) (t : T) (x : X) :
    ∑ i, g (Function.update f t x i) + g (f t) = ∑ i, g (f i) + g x := by
  rw [← Finset.add_sum_erase Finset.univ _ (Finset.mem_univ t),
    ← Finset.add_sum_erase Finset.univ (fun i => g (f i)) (Finset.mem_univ t)]
  have hrest : ∀ i ∈ Finset.univ.erase t, g (Function.update f t x i) = g (f i) := by
    intro i hi
    rw [Function.update_of_ne (Finset.ne_of_mem_erase hi)]
  rw [Finset.sum_congr rfl hrest, Function.update_self]
  abel

/-- What the threads and the objects have together is kept if the thread that moves and the
objects keep it. -/
theorem sum_update_eq {X M : Type*} [DecidableEq T] [Fintype T] [AddCancelCommMonoid M] (g : X → M)
    (f : T → X) (t : T) (x : X) {m m' total : M} (hmove : g x + m' = g (f t) + m) (h : ∑ i, g (f i) + m = total) :
    ∑ i, g (Function.update f t x i) + m' = total := by
  have hsum := sum_update g f t x
  apply add_right_cancel (b := g (f t))
  calc ∑ i, g (Function.update f t x i) + m' + g (f t)
      = ∑ i, g (Function.update f t x i) + g (f t) + m' := by abel
    _ = ∑ i, g (f i) + (g x + m') := by rw [hsum]; abel
    _ = ∑ i, g (f i) + m + g (f t) := by rw [hmove]; abel
    _ = total + g (f t) := by rw [h]

def awakeAt : Activity K → ℕ
  | .idle => 1
  | .waiting _ => 0
  | .notified _ => 1

theorem awakeAt_le (x : Activity K) : awakeAt x ≤ 1 := by
  cases x <;> simp [awakeAt]

variable [Fintype T] [Fintype O]

/-- The threads that do not sleep, counted at every object. -/
def Crew.awake (s : Crew T O C K L) : ℕ := ∑ o, ∑ t, awakeAt ((s.shared o).thread t)

theorem start_awake (c₀ : O → C) (l₀ : T → L) :
    (start c₀ l₀ : Crew T O C K L).awake = Fintype.card O * Fintype.card T := by
  simp [Crew.awake, start, Monitor.start, awakeAt]

variable [DecidableEq T] [DecidableEq O] {p : Program T O K A L} {pass : O → K → C → Outcome C A → Prop}
  {s s' s₀ : Crew T O C K L} {e : Event O A} {es : List (Event O A)}

/-- A call that returns wakes every thread at most; a call that waits is one more that sleeps. -/
theorem Step.awake (h : Step p pass s e s') :
    s'.awake ≤ s.awake + Fintype.card T * e.advances + (if e.isWoken then 1 else 0) ∧
      (e.advances = 0 → e.isWoken = false → s'.awake + 1 = s.awake) := by
  cases h with
  | @returns t o k a c w b hnext hthread hpass hwakes =>
    have hrow := sum_update (fun x : Shared T C K => ∑ t, awakeAt (x.thread t)) s.shared o ⟨c, b⟩
    have hle : ∑ t, awakeAt (b t) ≤ Fintype.card T := by
      have := Finset.sum_le_card_nsmul Finset.univ (fun t => awakeAt (b t)) 1 fun t _ =>
        awakeAt_le (b t)
      simpa using this
    simp only [Crew.awake, Event.advances, Event.isWoken] at hrow ⊢
    constructor
    · simp only [mul_one, Bool.false_eq_true, if_false]
      omega
    · exact nofun
  | @waits t o k c hnext hthread hpass =>
    have hrow := sum_update (fun x : Shared T C K => ∑ t, awakeAt (x.thread t)) s.shared o
      ⟨c, Function.update (s.shared o).thread t (.waiting k)⟩
    have hcell := sum_update awakeAt (s.shared o).thread t (.waiting k)
    have hone : awakeAt ((s.shared o).thread t) = 1 := by
      rcases hthread with h | h <;> rw [h] <;> rfl
    have hzero : awakeAt (.waiting k) = 0 := rfl
    simp only [Crew.awake, Event.advances, Event.isWoken] at hrow ⊢
    constructor
    · simp only [mul_zero, Bool.false_eq_true, if_false]
      omega
    · intro _ _
      omega
  | @spurious t o k hthread =>
    have hrow := sum_update (fun x : Shared T C K => ∑ t, awakeAt (x.thread t)) s.shared o
      ⟨(s.shared o).obj, Function.update (s.shared o).thread t (.notified k)⟩
    have hcell := sum_update awakeAt (s.shared o).thread t (.notified k)
    have hzero : awakeAt ((s.shared o).thread t) = 0 := by
      rw [hthread]
      rfl
    have hone : awakeAt (.notified k) = 1 := rfl
    simp only [Crew.awake, Event.advances, Event.isWoken] at hrow ⊢
    constructor
    · simp only [mul_zero, if_true]
      omega
    · exact nofun
  | join _ _ =>
    constructor
    · simp only [Crew.awake]
      omega
    · exact nofun

/-- A measure that every return and every join lowers, and no wait raises, bounds the length of
a run. -/
theorem run_length (work : Crew T O C K L → ℕ) (hrun : Run (Step p pass) s₀ es s)
    (hwork : ∀ {es s e s'}, Run (Step p pass) s₀ es s → Step p pass s e s' → work s' + e.advances ≤ work s) :
    es.length + (Fintype.card T + 1) * work s + s.awake ≤
      (Fintype.card T + 1) * work s₀ + s₀.awake + 2 * es.countP Event.isWoken := by
  induction hrun with
  | nil => simp
  | @snoc es e s s' hpre hstep ih =>
    obtain ⟨hle, hwait⟩ := hstep.awake
    have hless := Nat.mul_le_mul_left (Fintype.card T + 1) (hwork hpre hstep)
    rw [List.length_append, List.countP_append, List.length_singleton, List.countP_singleton]
    rw [Nat.mul_add] at hless
    cases e with
    | returned o a =>
      simp only [Event.advances, Event.isWoken, mul_one, Bool.false_eq_true, if_false] at hle hless ⊢
      omega
    | waits =>
      have hone := hwait rfl rfl
      simp only [Event.advances, Event.isWoken, mul_zero, Bool.false_eq_true, if_false] at hle hless ⊢
      omega
    | woken =>
      simp only [Event.advances, Event.isWoken, mul_zero, if_true] at hle hless ⊢
      omega
    | joined =>
      simp only [Event.advances, Event.isWoken, mul_one, Bool.false_eq_true, if_false] at hle hless ⊢
      omega

omit [Fintype T] [Fintype O] in
/-- Runs that cannot go on for ever without wake-ups come to a state without a step. -/
theorem exists_stuck {bound : ℕ}
    (hbound : ∀ es s, Run (Step p pass) s₀ es s → es.length ≤ bound + 2 * es.countP Event.isWoken) :
    ∃ es s, Run (Step p pass) s₀ es s ∧ es.countP Event.isWoken = 0 ∧ Stuck p pass s := by
  by_contra hnone
  push Not at hnone
  have hlong : ∀ n, ∃ es s, Run (Step p pass) s₀ es s ∧ es.countP Event.isWoken = 0 ∧
      es.length = n := by
    intro n
    induction n with
    | zero => exact ⟨[], s₀, .nil, rfl, rfl⟩
    | succ n ih =>
      obtain ⟨es, s, hrun, hzero, hlength⟩ := ih
      have hgoes := hnone es s hrun hzero
      rw [Stuck] at hgoes
      push Not at hgoes
      obtain ⟨e, s', hstep, hreal⟩ := hgoes
      refine ⟨es ++ [e], s', hrun.snoc hstep, ?_, by rw [List.length_append, hlength, List.length_singleton]⟩
      rw [List.countP_append, hzero, List.countP_singleton, if_neg hreal]
  obtain ⟨es, s, hrun, hzero, hlength⟩ := hlong (bound + 1)
  have hle := hbound es s hrun
  omega

end

end TorchIpc.Crews
