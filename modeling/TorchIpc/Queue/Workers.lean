import Mathlib.Algebra.Order.Group.Multiset
import Mathlib.Tactic.DeriveFintype
import TorchIpc.Queue.Ready

/-! Channels as a workqueue, as the tests of `channel.c` use them. Generators write items into
one channel; workers read them until it is drained, and write each into another one. The main
thread waits for the generators, closes the first channel, waits for the workers, closes the
second one and reads it until it is drained. Every order of their steps ends there, with every
item in the list of the main thread as often as it was written. -/

namespace TorchIpc.ChannelsAsWorkQueue

open Runs Monitor Crews

inductive Pipe where
  | toWorkqueue
  | fromWorkers
  deriving DecidableEq

instance : Fintype Pipe where
  elems := {.toWorkqueue, .fromWorkers}
  complete pipe := by cases pipe <;> simp

inductive Role (ι κ : Type) where
  | generator (i : ι)
  | worker (j : κ)
  | main
  deriving DecidableEq, Fintype

/-- Where a thread is: a generator has items left; a worker reads or has read; the main thread
is in one of its calls. A failed assertion ends a thread, as the last call does. -/
inductive Place (P : Type) where
  | generating (items : List (Value P))
  | reading
  | returning (item : Value P)
  | done
  | joiningGenerators
  | closing
  | joiningWorkers
  | closingResults
  | draining (returnedItems : List (Value P))
  | checked (returnedItems : List (Value P))
  | raised

section
variable {P ι κ : Type}

def Role.isGenerator : Role ι κ → Bool
  | .generator _ => true
  | _ => false

def Role.isWorker : Role ι κ → Bool
  | .worker _ => true
  | _ => false

/-- What a thread does next; a reader has the stack below its results. -/
def next (stack : List (Value P)) : Place P → Act (Role ι κ) Pipe (Call P)
  | .generating [] => .ended
  | .generating (x :: _) => .call .toWorkqueue (.write [x])
  | .reading => .call .toWorkqueue (.read false stack)
  | .returning item => .call .fromWorkers (.write [item])
  | .done => .ended
  | .joiningGenerators => .join Role.isGenerator
  | .closing => .call .toWorkqueue .close
  | .joiningWorkers => .join Role.isWorker
  | .closingResults => .call .fromWorkers .close
  | .draining _ => .call .fromWorkers (.read true stack)
  | .checked _ => .ended
  | .raised => .ended

def reply : Place P → Reply P → Place P
  | .generating (_ :: items), .wrote _ => .generating items
  | .reading, .took _ item => .returning item
  | .reading, .nothing status => if status = some .DRAINED then .done else .returning .nil
  | .returning _, .wrote _ => .reading
  | .returning _, .refused _ => .done
  | .closing, .closed => .joiningWorkers
  | .closingResults, .closed => .draining []
  | .draining items, .took _ item => .draining (items ++ [item])
  | .draining items, .nothing status =>
      if status = some .DRAINED then .checked items else .draining items
  | _, _ => .raised

def joined : Place P → Place P
  | .joiningGenerators => .closing
  | .joiningWorkers => .closingResults
  | place => place

def program (stack : List (Value P)) : Program (Role ι κ) Pipe (Call P) (Reply P) (Place P) where
  next := next stack
  reply := reply
  joined := joined

def Place.ended : Place P → Bool
  | .generating items => items.isEmpty
  | .done => true
  | .checked _ => true
  | .raised => true
  | _ => false

theorem next_ended (stack : List (Value P)) (place : Place P) :
    next stack place = (.ended : Act (Role ι κ) _ _) ↔ place.ended = true := by
  cases place with
  | generating items => cases items <;> simp [next, Place.ended]
  | _ => simp [next, Place.ended]

def begin (items : ι → List (Value P)) : Role ι κ → Place P
  | .generator i => .generating (items i)
  | .worker _ => .reading
  | .main => .joiningGenerators

/-! ### What a step can do -/

/-- The places of the threads, and the channels as lists. -/
structure Floor (ι κ P : Type) where
  place : Role ι κ → Place P
  line : Pipe → Line P

def floor (x : Crew (Role ι κ) Pipe (Line P) (Call P) (Place P)) : Floor ι κ P :=
  ⟨x.place, fun o => (x.shared o).obj⟩

variable [DecidableEq ι] [DecidableEq κ]

/-- A thread goes to another place, and one channel may change. -/
inductive Move : Floor ι κ P → Floor ι κ P → Prop where
  | generate {f t x items} : f.place t = .generating (x :: items) →
      (f.line .toWorkqueue).closed = false →
      Move f ⟨Function.update f.place t (.generating items),
        Function.update f.line .toWorkqueue { f.line .toWorkqueue with items := (f.line .toWorkqueue).items ++ [x] }⟩
  | generateRefused {f t x items} : f.place t = .generating (x :: items) →
      (f.line .toWorkqueue).closed = true →
      Move f ⟨Function.update f.place t .raised, f.line⟩
  | take {f t v rest} : f.place t = .reading → (f.line .toWorkqueue).items = v :: rest →
      Move f ⟨Function.update f.place t (.returning v.received),
        Function.update f.line .toWorkqueue { f.line .toWorkqueue with items := rest }⟩
  | leave {f t} : f.place t = .reading → (f.line .toWorkqueue).items = [] →
      (f.line .toWorkqueue).closed = true →
      Move f ⟨Function.update f.place t .done, f.line⟩
  | give {f t v} : f.place t = .returning v → (f.line .fromWorkers).closed = false →
      Move f ⟨Function.update f.place t .reading,
        Function.update f.line .fromWorkers { f.line .fromWorkers with items := (f.line .fromWorkers).items ++ [v] }⟩
  | giveRefused {f t v} : f.place t = .returning v → (f.line .fromWorkers).closed = true →
      Move f ⟨Function.update f.place t .done, f.line⟩
  | generated {f t} : f.place t = .joiningGenerators →
      (∀ i, (f.place (.generator i)).ended = true) →
      Move f ⟨Function.update f.place t .closing, f.line⟩
  | close {f t} : f.place t = .closing →
      Move f ⟨Function.update f.place t .joiningWorkers,
        Function.update f.line .toWorkqueue { f.line .toWorkqueue with closed := true }⟩
  | worked {f t} : f.place t = .joiningWorkers → (∀ j, (f.place (.worker j)).ended = true) →
      Move f ⟨Function.update f.place t .closingResults, f.line⟩
  | closeResults {f t} : f.place t = .closingResults →
      Move f ⟨Function.update f.place t (.draining []),
        Function.update f.line .fromWorkers { f.line .fromWorkers with closed := true }⟩
  | drain {f t items v rest} : f.place t = .draining items →
      (f.line .fromWorkers).items = v :: rest →
      Move f ⟨Function.update f.place t (.draining (items ++ [v.received])),
        Function.update f.line .fromWorkers { f.line .fromWorkers with items := rest }⟩
  | drained {f t items} : f.place t = .draining items → (f.line .fromWorkers).items = [] →
      (f.line .fromWorkers).closed = true →
      Move f ⟨Function.update f.place t (.checked items), f.line⟩
  | empty {f t items} : f.place t = .draining items → (f.line .fromWorkers).items = [] →
      (f.line .fromWorkers).closed = false →
      Move f ⟨Function.update f.place t (.draining items), f.line⟩

omit [DecidableEq ι] [DecidableEq κ] in
theorem floor_update (x : Crew (Role ι κ) Pipe (Line P) (Call P) (Place P)) (o : Pipe) (l : Line P)
    (b : Role ι κ → Activity (Call P)) (place : Role ι κ → Place P) :
    floor ⟨Function.update x.shared o ⟨l, b⟩, place⟩ = ⟨place, Function.update (floor x).line o l⟩ := by
  rw [floor, Floor.mk.injEq]
  refine ⟨rfl, ?_⟩
  funext o'
  by_cases ho : o' = o
  · subst ho
    simp only [Function.update_self]
  · simp only [Function.update_of_ne ho]
    rfl

/-- A step of the crew moves one thread, or is one of waiting and waking up. -/
theorem floor_step {stack : List (Value P)} {x x' : Crew (Role ι κ) Pipe (Line P) (Call P) (Place P)}
    {e : Event Pipe (Reply P)} (h : Step (program stack) (fun _ => LinePass) x e x') :
    e.advances = 0 ∧ floor x' = floor x ∨ e.advances = 1 ∧ Move (floor x) (floor x') := by
  have hsame : ∀ o, Function.update (floor x).line o (x.shared o).obj = (floor x).line := fun o =>
    Function.update_eq_self o _
  cases h with
  | @returns t o k a l w b hnext hthread hp hwakes =>
    right
    refine ⟨rfl, ?_⟩
    rw [floor_update]
    change next stack (x.place t) = _ at hnext
    change Move _ ⟨Function.update x.place t (reply (x.place t) a), _⟩
    cases hplace : x.place t with
    | generating items =>
      rw [hplace] at hnext
      cases items with
      | nil => cases hnext
      | cons item items =>
        cases hnext
        cases hp with
        | wrote hopen => exact .generate hplace hopen
        | refused hclosed =>
          rw [hsame]
          exact .generateRefused hplace hclosed
    | reading =>
      rw [hplace] at hnext
      cases hnext
      cases hp with
      | took hitems => exact .take hplace hitems
      | drained hitems hclosed =>
        rw [hsame]
        exact .leave hplace hitems hclosed
    | returning item =>
      rw [hplace] at hnext
      cases hnext
      cases hp with
      | wrote hopen => exact .give hplace hopen
      | refused hclosed =>
        rw [hsame]
        exact .giveRefused hplace hclosed
    | closing =>
      rw [hplace] at hnext
      cases hnext
      cases hp
      exact .close hplace
    | closingResults =>
      rw [hplace] at hnext
      cases hnext
      cases hp
      exact .closeResults hplace
    | draining items =>
      rw [hplace] at hnext
      cases hnext
      cases hp with
      | took hitems => exact .drain hplace hitems
      | drained hitems hclosed =>
        rw [hsame]
        exact .drained hplace hitems hclosed
      | empty hitems hopen =>
        rw [hsame]
        exact .empty hplace hitems hopen
    | _ =>
      rw [hplace] at hnext
      cases hnext
  | @waits t o k l hnext hthread hp =>
    left
    refine ⟨rfl, ?_⟩
    rw [floor_update]
    cases hp
    rw [hsame]
    rfl
  | @spurious t o k hthread =>
    left
    refine ⟨rfl, ?_⟩
    rw [floor_update, hsame]
    rfl
  | @join t ts hnext hended =>
    right
    refine ⟨rfl, ?_⟩
    change next stack (x.place t) = _ at hnext
    change Move _ ⟨Function.update x.place t (joined (x.place t)), _⟩
    have hall : ∀ t', ts t' = true → (x.place t').ended = true := fun t' ht' =>
      (next_ended stack _).mp (hended t' ht')
    cases hplace : x.place t with
    | joiningGenerators =>
      rw [hplace] at hnext
      cases hnext
      exact .generated hplace fun i => hall (.generator i) rfl
    | joiningWorkers =>
      rw [hplace] at hnext
      cases hnext
      exact .worked hplace fun j => hall (.worker j) rfl
    | generating items =>
      rw [hplace] at hnext
      cases items <;> cases hnext
    | _ =>
      rw [hplace] at hnext
      cases hnext

/-! ### What every run keeps -/

def Fits : Role ι κ → Place P → Prop
  | .generator _, .generating _ => True
  | .worker _, .reading => True
  | .worker _, .returning _ => True
  | .worker _, .done => True
  | .main, .joiningGenerators => True
  | .main, .closing => True
  | .main, .joiningWorkers => True
  | .main, .closingResults => True
  | .main, .draining _ => True
  | .main, .checked _ => True
  | _, _ => False

def Place.stage : Place P → ℕ
  | .closing => 1
  | .joiningWorkers => 2
  | .closingResults => 3
  | .draining _ => 4
  | .checked _ => 5
  | _ => 0

def Place.sends : Place P → List (Value P)
  | .generating items => items
  | .returning item => [item]
  | _ => []

/-- The items that a thread has, as the main thread reads them. -/
def Place.load : Place P → Multiset (Value P)
  | .draining items => items
  | .checked items => items
  | place => Multiset.map Value.received place.sends

/-- The items in both channels, as the main thread reads them. -/
def Floor.inside (f : Floor ι κ P) : Multiset (Value P) :=
  Multiset.map Value.received ((f.line .toWorkqueue).items + (f.line .fromWorkers).items : Multiset (Value P))

/-- Every item is in one place, and can be sent on from there. -/
structure Stocked [Fintype ι] [Fintype κ] (lua : Lua P) (total : Multiset (Value P)) (f : Floor ι κ P) : Prop where
  kept : ∑ t, (f.place t).load + f.inside = total
  sends : ∀ t, ∀ v ∈ (f.place t).sends, Sendable lua v
  asked : ∀ v ∈ (f.line .toWorkqueue).items, Sendable lua v

/-- The main thread is only as far as the others are. -/
structure Staged (f : Floor ι κ P) : Prop where
  fits : ∀ t, Fits t (f.place t)
  generated : 1 ≤ (f.place .main).stage → ∀ i, (f.place (.generator i)).ended = true
  toClosed : (f.line .toWorkqueue).closed = true ↔ 2 ≤ (f.place .main).stage
  left : ∀ j, f.place (.worker j) = .done → (f.line .toWorkqueue).closed = true ∧
    (f.line .toWorkqueue).items = []
  worked : 3 ≤ (f.place .main).stage → ∀ j, f.place (.worker j) = .done
  fromClosed : (f.line .fromWorkers).closed = true ↔ 4 ≤ (f.place .main).stage
  checked : (f.place .main).stage = 5 → (f.line .fromWorkers).items = []

section
variable {f f' : Floor ι κ P}

omit [DecidableEq ι] [DecidableEq κ] in
theorem Staged.role_generating (h : Staged f) {t : Role ι κ} {items : List (Value P)}
    (ht : f.place t = .generating items) : ∃ i, t = .generator i := by
  have hfits := h.fits t
  rw [ht] at hfits
  cases t with
  | generator i => exact ⟨i, rfl⟩
  | worker j => exact hfits.elim
  | main => exact hfits.elim

omit [DecidableEq ι] [DecidableEq κ] in
theorem Staged.role_working (h : Staged f) {t : Role ι κ}
    (ht : f.place t = .reading ∨ ∃ v, f.place t = .returning v) : ∃ j, t = .worker j := by
  have hfits := h.fits t
  cases t with
  | generator i => rcases ht with ht | ⟨v, ht⟩ <;> rw [ht] at hfits <;> exact hfits.elim
  | worker j => exact ⟨j, rfl⟩
  | main => rcases ht with ht | ⟨v, ht⟩ <;> rw [ht] at hfits <;> exact hfits.elim

omit [DecidableEq ι] [DecidableEq κ] in
theorem Staged.role_main (h : Staged f) {t : Role ι κ} (ht : Fits (.main : Role ι κ) (f.place t)) :
    t = .main := by
  have hfits := h.fits t
  cases t with
  | generator i =>
    cases hplace : f.place (.generator i) <;> rw [hplace] at ht hfits <;>
      first | exact hfits.elim | exact ht.elim
  | worker j =>
    cases hplace : f.place (.worker j) <;> rw [hplace] at ht hfits <;>
      first | exact hfits.elim | exact ht.elim
  | main => rfl

omit [DecidableEq ι] [DecidableEq κ] in
/-- While a generator has items left the main thread waits for it. -/
theorem Staged.generating_stage (h : Staged f) {t : Role ι κ} {x : Value P} {items : List (Value P)}
    (ht : f.place t = .generating (x :: items)) : (f.place .main).stage = 0 := by
  obtain ⟨i, rfl⟩ := h.role_generating ht
  by_contra hlate
  have hended := h.generated (by omega) i
  rw [ht] at hended
  cases hended

omit [DecidableEq ι] [DecidableEq κ] in
/-- While a worker reads or writes, the main thread waits for it, or is not there yet. -/
theorem Staged.working_stage (h : Staged f) {t : Role ι κ}
    (ht : f.place t = .reading ∨ ∃ v, f.place t = .returning v) : (f.place .main).stage ≤ 2 := by
  obtain ⟨j, rfl⟩ := h.role_working ht
  by_contra hlate
  have hdone := h.worked (by omega) j
  rcases ht with ht | ⟨v, ht⟩ <;> rw [ht] at hdone <;> cases hdone

omit [DecidableEq ι] [DecidableEq κ] in
theorem Staged.generating_open (h : Staged f) {t : Role ι κ} {x : Value P} {items : List (Value P)}
    (ht : f.place t = .generating (x :: items)) : ¬ (f.line .toWorkqueue).closed = true := by
  have hstage := h.generating_stage ht
  rw [h.toClosed]
  omega

omit [DecidableEq ι] [DecidableEq κ] in
theorem Staged.returning_open (h : Staged f) {t : Role ι κ} {v : Value P} (ht : f.place t = .returning v) :
    ¬ (f.line .fromWorkers).closed = true := by
  have hstage := h.working_stage (Or.inr ⟨v, ht⟩)
  rw [h.fromClosed]
  omega

/-- A generator moves while the main thread waits for it. -/
theorem Staged.generator (h : Staged f) {i : ι} {p : Place P} {line : Pipe → Line P}
    (hstage : (f.place .main).stage = 0) (hp : Fits (.generator i : Role ι κ) p)
    (hclosed : ∀ o, (line o).closed = (f.line o).closed) :
    Staged ⟨Function.update f.place (.generator i) p, line⟩ := by
  have hmain : Function.update f.place (.generator i) p .main = f.place .main := by simp
  refine ⟨(Function.forall_update_iff f.place _).mpr ⟨hp, fun t _ => h.fits t⟩, ?_, ?_, ?_, ?_, ?_, ?_⟩
  · simp only [hmain]
    omega
  · simp only [hmain, hclosed]
    exact h.toClosed
  · intro j hj
    simp only [Function.update_of_ne, ne_eq, reduceCtorEq, not_false_eq_true] at hj
    have hlate := h.toClosed.mp (h.left j hj).1
    omega
  · simp only [hmain]
    omega
  · simp only [hmain, hclosed]
    exact h.fromClosed
  · simp only [hmain]
    omega

/-- A worker moves while the main thread waits for it, or for the generators. -/
theorem Staged.worker (h : Staged f) {j : κ} {p : Place P} {line : Pipe → Line P} (hstage : (f.place .main).stage ≤ 2)
    (hp : Fits (.worker j : Role ι κ) p) (hclosed : ∀ o, (line o).closed = (f.line o).closed)
    (hitems : (f.line .toWorkqueue).items = [] → (line .toWorkqueue).items = [])
    (hdone : p = .done → (line .toWorkqueue).closed = true ∧ (line .toWorkqueue).items = []) :
    Staged ⟨Function.update f.place (.worker j) p, line⟩ := by
  have hmain : Function.update f.place (.worker j) p .main = f.place .main := by simp
  refine ⟨(Function.forall_update_iff f.place _).mpr ⟨hp, fun t _ => h.fits t⟩, ?_, ?_, ?_, ?_, ?_, ?_⟩
  · simp only [hmain, Function.update_of_ne, ne_eq, reduceCtorEq, not_false_eq_true]
    exact h.generated
  · simp only [hmain, hclosed]
    exact h.toClosed
  · intro j' hj'
    by_cases hsame : j' = j
    · subst hsame
      simp only [Function.update_self] at hj'
      exact hdone hj'
    · have hne : Role.worker j' ≠ (.worker j : Role ι κ) := fun heq => hsame (Role.worker.inj heq)
      simp only [Function.update_of_ne hne] at hj'
      obtain ⟨hshut, hnone⟩ := h.left j' hj'
      exact ⟨(hclosed _).trans hshut, hitems hnone⟩
  · simp only [hmain]
    omega
  · simp only [hmain, hclosed]
    exact h.fromClosed
  · simp only [hmain]
    omega

theorem Staged.main (h : Staged f) {p : Place P} {line : Pipe → Line P} (hp : Fits (.main : Role ι κ) p)
    (hgenerated : 1 ≤ p.stage → ∀ i, (f.place (.generator i)).ended = true)
    (hto : (line .toWorkqueue).closed = true ↔ 2 ≤ p.stage)
    (hitems : (line .toWorkqueue).items = (f.line .toWorkqueue).items)
    (hworked : 3 ≤ p.stage → ∀ j, f.place (.worker j) = .done)
    (hfrom : (line .fromWorkers).closed = true ↔ 4 ≤ p.stage)
    (hchecked : p.stage = 5 → (line .fromWorkers).items = []) (hstage : (f.place .main).stage ≤ p.stage) :
    Staged ⟨Function.update f.place .main p, line⟩ := by
  refine ⟨(Function.forall_update_iff f.place _).mpr ⟨hp, fun t _ => h.fits t⟩, ?_, ?_, ?_, ?_, ?_, ?_⟩
  · simp only [Function.update_self, Function.update_of_ne, ne_eq, reduceCtorEq, not_false_eq_true]
    exact hgenerated
  · simp only [Function.update_self]
    exact hto
  · intro j hj
    simp only [Function.update_of_ne, ne_eq, reduceCtorEq, not_false_eq_true] at hj
    obtain ⟨hshut, hnone⟩ := h.left j hj
    have hlate := h.toClosed.mp hshut
    exact ⟨hto.mpr (by omega), hitems.trans hnone⟩
  · simp only [Function.update_self, Function.update_of_ne, ne_eq, reduceCtorEq, not_false_eq_true]
    exact hworked
  · simp only [Function.update_self]
    exact hfrom
  · simp only [Function.update_self]
    exact hchecked

theorem closed_update (line : Pipe → Line P) (o : Pipe) (items : List (Value P)) (o' : Pipe) :
    (Function.update line o { line o with items := items } o').closed = (line o').closed := by
  by_cases ho : o' = o
  · subst ho
    rw [Function.update_self]
  · rw [Function.update_of_ne ho]

theorem Staged.draining (h : Staged f) {items : List (Value P)} (ht : f.place .main = .draining items) {p : Place P}
    {line : Pipe → Line P} (hp : Fits (.main : Role ι κ) p) (hclosed : ∀ o, (line o).closed = (f.line o).closed)
    (hitems : (line .toWorkqueue).items = (f.line .toWorkqueue).items)
    (hstage : p.stage = 4 ∨ p.stage = 5 ∧ (line .fromWorkers).items = []) :
    Staged ⟨Function.update f.place .main p, line⟩ := by
  have hgenerated := h.generated
  have hto := h.toClosed
  have hworked := h.worked
  have hfrom := h.fromClosed
  rw [ht] at hgenerated hto hworked hfrom
  have hlate : 4 ≤ p.stage := by omega
  apply h.main hp
  · exact fun _ => hgenerated (by simp [Place.stage])
  · rw [hclosed, hto]
    exact iff_of_true (by simp [Place.stage]) (by omega)
  · exact hitems
  · exact fun _ => hworked (by simp [Place.stage])
  · rw [hclosed, hfrom]
    exact iff_of_true (by simp [Place.stage]) hlate
  · intro hlast
    exact (hstage.resolve_left (by omega)).2
  · rw [ht]
    exact hlate

theorem Staged.step (h : Staged f) (hmove : Move f f') : Staged f' := by
  cases hmove with
  | @generate t x items ht hopen =>
    obtain ⟨i, rfl⟩ := h.role_generating ht
    exact h.generator (h.generating_stage ht) trivial (closed_update _ _ _)
  | generateRefused ht hclosed => exact absurd hclosed (h.generating_open ht)
  | @take t v rest ht hitems =>
    obtain ⟨j, rfl⟩ := h.role_working (Or.inl ht)
    refine h.worker (h.working_stage (Or.inl ht)) trivial (closed_update _ _ _) ?_ nofun
    rw [hitems]
    exact nofun
  | @leave t ht hitems hclosed =>
    obtain ⟨j, rfl⟩ := h.role_working (Or.inl ht)
    exact h.worker (h.working_stage (Or.inl ht)) trivial (fun _ => rfl) id fun _ =>
      ⟨hclosed, hitems⟩
  | @give t v ht hopen =>
    have hworking : f.place t = .reading ∨ ∃ v, f.place t = .returning v := Or.inr ⟨v, ht⟩
    obtain ⟨j, rfl⟩ := h.role_working hworking
    exact h.worker (h.working_stage hworking) trivial (closed_update _ _ _) id nofun
  | giveRefused ht hclosed => exact absurd hclosed (h.returning_open ht)
  | @generated t ht hended =>
    obtain rfl := h.role_main (t := t) (by rw [ht]; trivial)
    have hto := h.toClosed
    have hfrom := h.fromClosed
    rw [ht] at hto hfrom
    apply h.main (p := .closing) trivial
    · exact fun _ => hended
    · simpa [Place.stage] using hto
    · rfl
    · simp [Place.stage]
    · simpa [Place.stage] using hfrom
    · simp [Place.stage]
    · simp [ht, Place.stage]
  | @close t ht =>
    obtain rfl := h.role_main (t := t) (by rw [ht]; trivial)
    have hgenerated := h.generated
    have hfrom := h.fromClosed
    rw [ht] at hgenerated hfrom
    apply h.main (p := .joiningWorkers) trivial
    · exact fun _ => hgenerated le_rfl
    · simp [Place.stage]
    · simp
    · simp [Place.stage]
    · simpa [Place.stage] using hfrom
    · simp [Place.stage]
    · simp [ht, Place.stage]
  | @worked t ht hended =>
    obtain rfl := h.role_main (t := t) (by rw [ht]; trivial)
    have hgenerated := h.generated
    have hto := h.toClosed
    have hfrom := h.fromClosed
    rw [ht] at hgenerated hto hfrom
    apply h.main (p := .closingResults) trivial
    · exact fun _ => hgenerated (by simp [Place.stage])
    · simpa [Place.stage] using hto
    · rfl
    · intro _ j
      have hfits := h.fits (.worker j)
      have hdone := hended j
      cases hplace : f.place (.worker j) <;> rw [hplace] at hfits hdone <;>
        first | rfl | exact hfits.elim | cases hdone
    · simpa [Place.stage] using hfrom
    · simp [Place.stage]
    · simp [ht, Place.stage]
  | @closeResults t ht =>
    obtain rfl := h.role_main (t := t) (by rw [ht]; trivial)
    have hgenerated := h.generated
    have hto := h.toClosed
    have hworked := h.worked
    rw [ht] at hgenerated hto hworked
    apply h.main (p := .draining []) trivial
    · exact fun _ => hgenerated (by simp [Place.stage])
    · simpa [Place.stage] using hto
    · rfl
    · exact fun _ => hworked le_rfl
    · simp [Place.stage]
    · simp [Place.stage]
    · simp [ht, Place.stage]
  | @drain t items v rest ht hitems =>
    obtain rfl := h.role_main (t := t) (by rw [ht]; trivial)
    exact h.draining ht trivial (closed_update _ _ _) rfl (Or.inl rfl)
  | @drained t items ht hitems hclosed =>
    obtain rfl := h.role_main (t := t) (by rw [ht]; trivial)
    exact h.draining ht trivial (fun _ => rfl) rfl (Or.inr ⟨rfl, hitems⟩)
  | @empty t items ht hitems hopen =>
    obtain rfl := h.role_main (t := t) (by rw [ht]; trivial)
    exact h.draining ht trivial (fun _ => rfl) rfl (Or.inl rfl)

end

section
variable [Fintype ι] [Fintype κ] {lua : Lua P} {total : Multiset (Value P)} {f f' : Floor ι κ P}

/-- The thread that moves has other items, and so have the channels. -/
theorem Stocked.update (h : Stocked lua total f) {t : Role ι κ} {p : Place P} {line : Pipe → Line P}
    (hmove : p.load + Floor.inside ⟨f.place, line⟩ = (f.place t).load + f.inside)
    (hsends : ∀ v ∈ p.sends, Sendable lua v) (hasked : ∀ v ∈ (line .toWorkqueue).items, Sendable lua v) :
    Stocked lua total ⟨Function.update f.place t p, line⟩ where
  kept := sum_update_eq Place.load f.place t p hmove h.kept
  sends := (Function.forall_update_iff f.place fun _ p => ∀ v ∈ Place.sends p, Sendable lua v).mpr
    ⟨hsends, fun t _ => h.sends t⟩
  asked := hasked

omit [DecidableEq ι] [DecidableEq κ] [Fintype ι] [Fintype κ] in
theorem inside_toWorkqueue (place : Role ι κ → Place P) (f : Floor ι κ P) (l : Line P) :
    Floor.inside (⟨place, Function.update f.line .toWorkqueue l⟩ : Floor ι κ P) =
      Multiset.map Value.received l.items + Multiset.map Value.received (f.line .fromWorkers).items := by
  rw [Floor.inside, Multiset.map_add]
  simp only [Function.update_self, Function.update_of_ne, ne_eq, reduceCtorEq, not_false_eq_true]

omit [DecidableEq ι] [DecidableEq κ] [Fintype ι] [Fintype κ] in
theorem inside_fromWorkers (place : Role ι κ → Place P) (f : Floor ι κ P) (l : Line P) :
    Floor.inside (⟨place, Function.update f.line .fromWorkers l⟩ : Floor ι κ P) =
      Multiset.map Value.received (f.line .toWorkqueue).items + Multiset.map Value.received l.items := by
  rw [Floor.inside, Multiset.map_add]
  simp only [Function.update_self, Function.update_of_ne, ne_eq, reduceCtorEq, not_false_eq_true]

omit [DecidableEq ι] [DecidableEq κ] [Fintype ι] [Fintype κ] in
theorem received_cons (v : Value P) (vs : List (Value P)) :
    Multiset.map Value.received ((v :: vs : List (Value P)) : Multiset (Value P)) =
      {v.received} + Multiset.map Value.received (vs : Multiset (Value P)) := by
  rw [← Multiset.cons_coe, Multiset.map_cons, Multiset.singleton_add]

theorem received_append (us vs : List (Value P)) :
    Multiset.map Value.received ((us ++ vs : List (Value P)) : Multiset (Value P)) =
      Multiset.map Value.received (us : Multiset (Value P)) + Multiset.map Value.received
        (vs : Multiset (Value P)) := by
  rw [← Multiset.coe_add, Multiset.map_add]

theorem Stocked.step (h : Stocked lua total f) (hstaged : Staged f) (hmove : Move f f') :
    Stocked lua total f' := by
  have hinside : f.inside = Multiset.map Value.received (f.line .toWorkqueue).items +
      Multiset.map Value.received (f.line .fromWorkers).items := Multiset.map_add _ _ _
  have hnil : Multiset.map Value.received (([] : List (Value P)) : Multiset (Value P)) = 0 := rfl
  cases hmove with
  | @generate t x items ht hopen =>
    have hsends := h.sends t
    rw [ht] at hsends
    apply h.update
    · rw [inside_toWorkqueue, ht, hinside, received_append]
      simp only [Place.load, Place.sends, received_cons, hnil]
      abel
    · exact fun v hv => hsends v (List.mem_cons_of_mem _ hv)
    · rw [Function.update_self]
      intro v hv
      rcases List.mem_append.mp hv with hv | hv
      · exact h.asked v hv
      · exact hsends v (List.mem_singleton.mp hv ▸ List.mem_cons_self)
  | generateRefused ht hclosed => exact absurd hclosed (hstaged.generating_open ht)
  | @take t v rest ht hitems =>
    have hasked := h.asked
    rw [hitems] at hasked
    apply h.update
    · rw [inside_toWorkqueue, ht, hinside, hitems]
      simp only [Place.load, Place.sends, received_cons, hnil, Value.received_received]
      abel
    · intro v' hv'
      rw [List.mem_singleton.mp hv']
      exact (hasked v List.mem_cons_self).received
    · rw [Function.update_self]
      exact fun v' hv' => hasked v' (List.mem_cons_of_mem _ hv')
  | @leave t ht hitems hclosed =>
    apply h.update
    · rw [ht]
      rfl
    · exact nofun
    · exact h.asked
  | @give t v ht hopen =>
    apply h.update
    · rw [inside_fromWorkers, ht, hinside, received_append]
      simp only [Place.load, Place.sends, received_cons, hnil]
      abel
    · exact nofun
    · exact h.asked
  | giveRefused ht hclosed => exact absurd hclosed (hstaged.returning_open ht)
  | @generated t ht hended =>
    apply h.update
    · rw [ht]
      rfl
    · exact nofun
    · exact h.asked
  | @close t ht =>
    apply h.update
    · rw [inside_toWorkqueue, ht, hinside]
      rfl
    · exact nofun
    · rw [Function.update_self]
      exact h.asked
  | @worked t ht hended =>
    apply h.update
    · rw [ht]
      rfl
    · exact nofun
    · exact h.asked
  | @closeResults t ht =>
    apply h.update
    · rw [inside_fromWorkers, ht, hinside]
      rfl
    · exact nofun
    · exact h.asked
  | @drain t items v rest ht hitems =>
    apply h.update
    · rw [inside_fromWorkers, ht, hinside, hitems]
      simp only [Place.load, received_cons, ← Multiset.coe_add, Multiset.coe_singleton]
      abel
    · exact nofun
    · exact h.asked
  | @drained t items ht hitems hclosed =>
    apply h.update
    · rw [ht]
      rfl
    · exact nofun
    · exact h.asked
  | @empty t items ht hitems hopen =>
    apply h.update
    · rw [ht]
    · exact nofun
    · exact h.asked

/-! ### How long it takes -/

/-- The calls that a thread has before it, and that others have because of its items. -/
def Place.weight : Place P → ℕ
  | .generating items => 4 * items.length
  | .reading => 1
  | .returning _ => 3
  | .joiningGenerators => 5
  | .closing => 4
  | .joiningWorkers => 3
  | .closingResults => 2
  | .draining _ => 1
  | _ => 0

def Floor.work (f : Floor ι κ P) : ℕ :=
  ∑ t, (f.place t).weight + (3 * (f.line .toWorkqueue).items.length + (f.line .fromWorkers).items.length)

theorem Staged.work (h : Staged f) (hmove : Move f f') : f'.work + 1 ≤ f.work := by
  cases hmove with
  | @generate t x items ht hopen =>
    have hsum := sum_update Place.weight f.place t (.generating items)
    simp [Floor.work, ht, Place.weight] at hsum ⊢
    omega
  | generateRefused ht hclosed => exact absurd hclosed (h.generating_open ht)
  | @take t v rest ht hitems =>
    have hsum := sum_update Place.weight f.place t (.returning v.received)
    simp [Floor.work, ht, hitems, Place.weight] at hsum ⊢
    omega
  | @leave t ht hitems hclosed =>
    have hsum := sum_update Place.weight f.place t .done
    simp [Floor.work, ht, Place.weight] at hsum ⊢
    omega
  | @give t v ht hopen =>
    have hsum := sum_update Place.weight f.place t .reading
    simp [Floor.work, ht, Place.weight] at hsum ⊢
    omega
  | giveRefused ht hclosed => exact absurd hclosed (h.returning_open ht)
  | @generated t ht hended =>
    have hsum := sum_update Place.weight f.place t .closing
    simp [Floor.work, ht, Place.weight] at hsum ⊢
    omega
  | @close t ht =>
    have hsum := sum_update Place.weight f.place t .joiningWorkers
    simp [Floor.work, ht, Place.weight] at hsum ⊢
    omega
  | @worked t ht hended =>
    have hsum := sum_update Place.weight f.place t .closingResults
    simp [Floor.work, ht, Place.weight] at hsum ⊢
    omega
  | @closeResults t ht =>
    have hsum := sum_update Place.weight f.place t (.draining [])
    simp [Floor.work, ht, Place.weight] at hsum ⊢
    omega
  | @drain t items v rest ht hitems =>
    have hsum := sum_update Place.weight f.place t (.draining (items ++ [v.received]))
    simp [Floor.work, ht, hitems, Place.weight] at hsum ⊢
    omega
  | @drained t items ht hitems hclosed =>
    have hsum := sum_update Place.weight f.place t (.checked items)
    simp [Floor.work, ht, Place.weight] at hsum ⊢
    omega
  | @empty t items ht hitems hopen =>
    obtain rfl := h.role_main (t := t) (by rw [ht]; trivial)
    have hclosed := h.fromClosed.mpr (by simp [ht, Place.stage])
    rw [hopen] at hclosed
    cases hclosed

/-! ### Every run -/

omit [DecidableEq ι] [DecidableEq κ] [Fintype ι] [Fintype κ] in
/-- A thread writes one item at a time, which it has. -/
theorem next_write {stack : List (Value P)} {place : Place P} {o : Pipe} {vs : List (Value P)}
    (h : next stack place = (.call o (.write vs) : Act (Role ι κ) _ _)) : ∃ v, vs = [v] ∧
    v ∈ place.sends := by
  cases place with
  | generating items =>
    cases items with
    | nil => cases h
    | cons x items =>
      cases h
      exact ⟨x, rfl, List.mem_cons_self⟩
  | returning item =>
    cases h
    exact ⟨item, rfl, List.mem_singleton_self _⟩
  | _ => cases h

omit [DecidableEq ι] [DecidableEq κ] in
/-- A thread with an item to write, and the items in a channel, are not more than there are. -/
theorem Stocked.fits (h : Stocked lua total f) {t : Role ι κ} {v : Value P} (ht : v ∈ (f.place t).sends) (o : Pipe) :
    (f.line o).items.length + 1 ≤ Multiset.card total := by
  have hone : 1 ≤ Multiset.card (f.place t).load := by
    cases hplace : f.place t <;> rw [hplace] at ht <;>
      first | exact absurd ht (List.not_mem_nil) | simp only [Place.load, Multiset.card_map, Multiset.coe_card]
    · exact List.length_pos_of_mem ht
    · exact List.length_pos_of_mem ht
  have hinside : (f.line o).items.length ≤ Multiset.card f.inside := by
    rw [Floor.inside, Multiset.card_map, Multiset.card_add, Multiset.coe_card, Multiset.coe_card]
    cases o
    · exact Nat.le_add_right _ _
    · exact Nat.le_add_left _ _
  have hload : (f.place t).load ≤ ∑ t, (f.place t).load :=
    Finset.single_le_sum (f := fun t => (f.place t).load) (fun _ _ => zero_le) (Finset.mem_univ t)
  have htotal := congrArg Multiset.card h.kept
  have hle := Multiset.card_le_card hload
  rw [Multiset.card_add] at htotal
  omega

omit [DecidableEq ι] [DecidableEq κ] in
theorem sum_role {M : Type*} [AddCommMonoid M] (g : Role ι κ → M) :
    ∑ t, g t = ∑ i, g (.generator i) + ∑ j, g (.worker j) + g .main := by
  let e : (ι ⊕ κ) ⊕ Unit ≃ Role ι κ :=
    { toFun := Sum.elim (Sum.elim .generator .worker) fun _ => .main
      invFun := Role.rec (fun i => .inl (.inl i)) (fun j => .inl (.inr j)) (.inr ())
      left_inv := by rintro ((i | j) | u) <;> rfl
      right_inv := by rintro (i | j | _) <;> rfl }
  have hmain : ∑ u : Unit, g (e (.inr u)) = g .main := Fintype.sum_unique _
  rw [← e.sum_comp g, Fintype.sum_sum_type, Fintype.sum_sum_type, hmain]
  rfl

def allItems (items : ι → List (Value P)) : Multiset (Value P) :=
  ∑ i, Multiset.map Value.received (items i : Multiset (Value P))

def startLine (items : ι → List (Value P)) : Crew (Role ι κ) Pipe (Line P) (Call P) (Place P) :=
  Crews.start (fun _ => ⟨[], false⟩) (begin items)

omit [DecidableEq ι] [DecidableEq κ] in
theorem start_stocked {items : ι → List (Value P)} (hitems : ∀ i, ∀ v ∈ items i, Sendable lua v) :
    Stocked lua (allItems items) (floor (startLine items : Crew (Role ι κ) _ _ _ _)) := by
  refine ⟨?_, ?_, nofun⟩
  · rw [sum_role]
    change allItems items + ∑ _j : κ, 0 + 0 + 0 = allItems items
    rw [Finset.sum_const_zero, add_zero, add_zero, add_zero]
  · rintro (i | j | _) v hv
    · exact hitems i v hv
    · cases hv
    · cases hv

omit [DecidableEq ι] [DecidableEq κ] [Fintype ι] [Fintype κ] in
theorem start_staged (items : ι → List (Value P)) :
    Staged (floor (startLine items : Crew (Role ι κ) _ _ _ _)) where
  fits t := by cases t <;> trivial
  generated h := by cases h
  toClosed := ⟨nofun, nofun⟩
  left _ := nofun
  worked h := by cases h
  fromClosed := ⟨nofun, nofun⟩
  checked := nofun

theorem run_floor {stack : List (Value P)} {items : ι → List (Value P)} (hitems : ∀ i, ∀ v ∈ items i, Sendable lua v)
    {es : List (Event Pipe (Reply P))} {x : Crew (Role ι κ) Pipe (Line P) (Call P) (Place P)}
    (hrun : Run (Step (program stack) fun _ => LinePass) (startLine items) es x) :
    Stocked lua (allItems items) (floor x) ∧ Staged (floor x) := by
  refine hrun.invariant (I := fun _ x => Stocked lua (allItems items) (floor x) ∧ Staged (floor x))
    ⟨start_stocked hitems, start_staged items⟩ fun es x e x' h hstep => ?_
  rcases floor_step hstep with ⟨-, hsame⟩ | ⟨-, hmove⟩
  · rw [hsame]
    exact h
  · exact ⟨h.1.step h.2 hmove, h.2.step hmove⟩

/-- The most steps there are without wake-ups. -/
def mostSteps (items : ι → List (Value P)) (κ : Type) [Fintype κ] : ℕ :=
  (Fintype.card (Role ι κ) + 1) * (∑ i, 4 * (items i).length + Fintype.card κ + 5) + 2 * Fintype.card (Role ι κ)

omit [DecidableEq ι] [DecidableEq κ] in
theorem start_work (items : ι → List (Value P)) :
    (floor (startLine items : Crew (Role ι κ) _ _ _ _)).work = ∑ i,
    4 * (items i).length + Fintype.card κ + 5 := by
  rw [Floor.work, sum_role]
  change ∑ i, 4 * (items i).length + ∑ _j : κ, 1 + 5 + 0 = _
  rw [Finset.sum_const, Finset.card_univ, smul_eq_mul, mul_one]

theorem line_length {stack : List (Value P)} {items : ι → List (Value P)}
    (hitems : ∀ i, ∀ v ∈ items i, Sendable lua v)
    {es : List (Event Pipe (Reply P))} {x : Crew (Role ι κ) Pipe (Line P) (Call P) (Place P)}
    (hrun : Run (Step (program stack) fun _ => LinePass) (startLine items) es x) :
    es.length ≤ mostSteps items κ + 2 * es.countP Event.isWoken := by
  have hlength := run_length (fun x => (floor x).work) hrun fun {es x e x'} hpre hstep => by
    rcases floor_step hstep with ⟨hzero, hsame⟩ | ⟨hone, hmove⟩
    · rw [hzero, hsame]
      exact le_rfl
    · rw [hone]
      exact (run_floor hitems hpre).2.work hmove
  rw [start_work, startLine, start_awake] at hlength
  have hcard : Fintype.card Pipe = 2 := rfl
  rw [hcard] at hlength
  rw [mostSteps]
  omega

/-! ### The end -/

/-- Every thread has ended, waits at a channel that is open, or waits for one that has not ended. -/
def Halted (stack : List (Value P)) (f : Floor ι κ P) : Prop :=
  ∀ t, (f.place t).ended = true ∨
    (∃ o stack', next stack (f.place t) = (.call o (.read false stack') : Act (Role ι κ) _ _) ∧
      (f.line o).closed = false) ∨
    ∃ ts t', next stack (f.place t) = .join ts ∧ ts t' = true ∧ (f.place t').ended = false

omit [DecidableEq ι] [DecidableEq κ] [Fintype ι] [Fintype κ] in
theorem Staged.generators_end (h : Staged f) {stack : List (Value P)} (hhalted : Halted stack f)
    (i : ι) : (f.place (.generator i)).ended = true := by
  have hfits := h.fits (.generator i)
  have hwaits := hhalted (.generator i)
  cases hplace : f.place (.generator i) with
  | generating items =>
    rw [hplace] at hwaits
    cases items with
    | nil => rfl
    | cons x items =>
      rcases hwaits with hended | ⟨o, stack', hnext, -⟩ | ⟨ts, t', hnext, -⟩
      · exact hended
      · cases hnext
      · cases hnext
  | _ =>
    rw [hplace] at hfits
    exact hfits.elim

omit [DecidableEq ι] [DecidableEq κ] [Fintype ι] [Fintype κ] in
theorem Staged.workers_end (h : Staged f) {stack : List (Value P)} (hhalted : Halted stack f)
    (hstage : 2 ≤ (f.place .main).stage) (j : κ) : (f.place (.worker j)).ended = true := by
  have hclosed := h.toClosed.mpr hstage
  have hfits := h.fits (.worker j)
  have hwaits := hhalted (.worker j)
  cases hplace : f.place (.worker j) with
  | reading =>
    rw [hplace] at hwaits
    rcases hwaits with hended | ⟨o, stack', hnext, hopen⟩ | ⟨ts, t', hnext, -⟩
    · exact hended
    · cases hnext
      rw [hclosed] at hopen
      cases hopen
    · cases hnext
  | returning item =>
    rw [hplace] at hwaits
    rcases hwaits with hended | ⟨o, stack', hnext, -⟩ | ⟨ts, t', hnext, -⟩
    · exact hended
    · cases hnext
    · cases hnext
  | done => rfl
  | _ =>
    rw [hplace] at hfits
    exact hfits.elim

omit [DecidableEq ι] [DecidableEq κ] [Fintype ι] [Fintype κ] in
/-- Where every thread has halted, the main thread has read all. -/
theorem Staged.finished (h : Staged f) {stack : List (Value P)} (hhalted : Halted stack f) :
    ∃ returnedItems, f.place .main = .checked returnedItems := by
  have hmain := hhalted .main
  have hfits := h.fits .main
  cases hplace : f.place .main with
  | checked items => exact ⟨items, rfl⟩
  | joiningGenerators =>
    rw [hplace] at hmain
    rcases hmain with hended | ⟨o, stack', hnext, -⟩ | ⟨ts, t', hnext, ht', hrest⟩
    · cases hended
    · cases hnext
    · cases hnext
      cases t' with
      | generator i =>
        rw [h.generators_end hhalted i] at hrest
        cases hrest
      | worker j => cases ht'
      | main => cases ht'
  | joiningWorkers =>
    have hstage : 2 ≤ (f.place .main).stage := by
      rw [hplace]
      exact le_rfl
    rw [hplace] at hmain
    rcases hmain with hnone | ⟨o, stack', hnext, -⟩ | ⟨ts, t', hnext, ht', hrest⟩
    · cases hnone
    · cases hnext
    · cases hnext
      cases t' with
      | generator i => cases ht'
      | worker j =>
        rw [h.workers_end hhalted hstage j] at hrest
        cases hrest
      | main => cases ht'
  | _ =>
    rw [hplace] at hmain hfits
    first
    | exact hfits.elim
    | rcases hmain with hended | ⟨o, stack', hnext, -⟩ | ⟨ts, t', hnext, -⟩
      · cases hended
      · cases hnext
      · cases hnext

/-- Every item has come to the main thread, and the channels are drained. -/
structure Finished (items : ι → List (Value P)) (s : Crew (Role ι κ) Pipe Channel (Call P) (Place P)) : Prop where
  returned : ∃ returnedItems, s.place .main = .checked returnedItems ∧
    (returnedItems : Multiset (Value P)) = allItems items
  workers : ∀ j, s.place (.worker j) = .done
  drained : ∀ o, (s.shared o).obj.drained = true ∧ (s.shared o).obj.numItems = 0

omit [DecidableEq ι] [DecidableEq κ] in
/-- Nothing is left anywhere but with the main thread. -/
theorem Stocked.finished [Nonempty κ] {items : ι → List (Value P)} {s : Crew (Role ι κ) Pipe Channel (Call P) (Place P)}
    {x : Crew (Role ι κ) Pipe (Line P) (Call P) (Place P)} (h : Stocked lua (allItems items) (floor x))
    (hstaged : Staged (floor x)) (hshows : Shows (Channel.Is lua) s x) {returnedItems : List (Value P)}
    (hmain : (floor x).place .main = .checked returnedItems) : Finished items s := by
  have hstage : ((floor x).place .main).stage = 5 := by
    rw [hmain]
    rfl
  have hgenerated := hstaged.generated (by omega)
  have hworked := hstaged.worked (by omega)
  obtain ⟨j⟩ := ‹Nonempty κ›
  obtain ⟨hto, hasked⟩ := hstaged.left j (hworked j)
  have hfrom := hstaged.fromClosed.mpr (by omega)
  have hanswered := hstaged.checked hstage
  have hplace : (floor x).place = s.place := hshows.place
  refine ⟨⟨returnedItems, hplace ▸ hmain, ?_⟩, fun j => hplace ▸ hworked j, fun o => ?_⟩
  · have hkept := h.kept
    have hgenerators : ∀ i, ((floor x).place (.generator i)).load = 0 := by
      intro i
      have hfits := hstaged.fits (.generator i)
      have hended := hgenerated i
      cases hgenerator : (floor x).place (.generator i) with
      | generating items =>
        rw [hgenerator] at hended
        rw [List.isEmpty_iff.mp hended]
        rfl
      | _ =>
        rw [hgenerator] at hfits
        exact hfits.elim
    have hworkers : ∀ j, ((floor x).place (.worker j)).load = 0 := by
      intro j
      rw [hworked j]
      rfl
    rw [sum_role, Finset.sum_eq_zero fun i _ => hgenerators i, Finset.sum_eq_zero fun j _ => hworkers j, hmain,
      Floor.inside, hasked, hanswered] at hkept
    simpa [Place.load] using hkept
  · have hnone : ((floor x).line o).items = [] ∧ ((floor x).line o).closed = true := by
      cases o
      · exact ⟨hasked, hto⟩
      · exact ⟨hanswered, hfrom⟩
    obtain ⟨hready, hclosed⟩ := hshows.obj o
    change (s.shared o).obj.Ready lua ((floor x).line o).items at hready
    rw [hnone.1] at hready
    exact ⟨hready.drained (hclosed.trans hnone.2), hready.holds.stored.numItems_eq_zero.mpr rfl⟩

/-- Whatever the order of the steps, no assertion fails, there is a bound on their number but for
wake-ups without a reason, and where no other step is left everything is done. -/
theorem channels_as_workqueue [Nonempty κ] (hl : lua.Rebuilds) {items : ι → List (Value P)}
    (hitems : ∀ i, ∀ v ∈ items i, Sendable lua v) (hfit : ∑ i, (items i).length < 2 ^ 32) {stack : List (Value P)}
    {es : List (Event Pipe (Reply P))} {s : Crew (Role ι κ) Pipe Channel (Call P) (Place P)}
    (hrun : Run (Step (program stack) fun _ => channelPass lua) (start (fun _ => channelCreate) (begin items)) es s) :
    (∀ t, s.place t ≠ .raised) ∧ es.length ≤ mostSteps items κ + 2 * es.countP Event.isWoken ∧
      (Stuck (program stack) (fun _ => channelPass lua) s → Finished items s) := by
  have hcard : Multiset.card (allItems items) < 2 ^ 32 := by
    simpa [allItems] using hfit
  -- the channels are the lists, as the counter has room for every item
  obtain ⟨x, hx, hshows⟩ : ∃ x,
      Run (Step (program stack) fun _ => LinePass) (startLine items) es x ∧
        Shows (Channel.Is lua) s x := by
    refine run_shows (I := fun x => Stocked lua (allItems items) (floor x)) hrun (fun _ => channelCreate_is lua)
      (fun es x hx => (run_floor hitems hx).1) fun x t o k ch out hstocked hnext his hp => ?_
    refine channelPass_line hl his (fun vs hk => ?_) hp
    subst hk
    obtain ⟨v, rfl, hv⟩ := next_write hnext
    exact (hstocked.fits hv o).trans_lt hcard
  obtain ⟨hstocked, hstaged⟩ := run_floor hitems hx
  have hplace : (floor x).place = s.place := hshows.place
  refine ⟨fun t ht => ?_, line_length hitems hx, fun hstuck => ?_⟩
  · have hfits := hstaged.fits t
    rw [hplace, ht] at hfits
    cases t <;> exact hfits.elim
  have hable : ∀ (t : Role ι κ) (o : Pipe) (k : Call P),
      (program stack).next (s.place t) = (.call o k : Act (Role ι κ) _ _) →
      ∃ out, channelPass lua k (s.shared o).obj out := by
    intro t o k hnext
    refine (hshows.obj o).exists_pass hl fun vs hk v hv => ?_
    subst hk
    obtain ⟨v', rfl, hv'⟩ := next_write hnext
    rw [List.mem_singleton.mp hv]
    rw [← hplace] at hv'
    exact hstocked.sends t v' hv'
  -- only a read waits, and only at a channel that is open
  have hhalted : Halted stack (floor x) := by
    intro t
    rw [hplace]
    rcases hstuck.place (run_busy hrun) hable t with hended | ⟨o, k, hnext, hwaiting⟩ | ⟨ts, t', hnext, ht', hrest⟩
    · exact Or.inl ((next_ended stack _).mp hended)
    · obtain ⟨as, has⟩ := run_shared hx o
      rw [← hshows.thread] at hwaiting
      obtain ⟨stack', rfl⟩ := line_waiting has (Or.inl hwaiting)
      refine Or.inr (Or.inl ⟨o, stack', hnext, ?_⟩)
      by_contra hshut
      exact line_no_waiter has (eq_true_of_ne_false hshut) t _ hwaiting
    · refine Or.inr (Or.inr ⟨ts, t', hnext, ht', ?_⟩)
      by_contra hended
      exact hrest ((next_ended stack _).mpr (eq_true_of_ne_false hended))
  obtain ⟨returnedItems, hmain⟩ := hstaged.finished hhalted
  exact hstocked.finished hstaged hshows hmain

end

end

def twoItems (i : Fin 2) : List (Value UInt8) :=
  if i = 0 then [.string [104, 105]] else [.table [(.string [110], .boolean true)] .none]

theorem twoItems_sendable (i : Fin 2) : ∀ v ∈ twoItems i, Sendable sampleLua v := by
  intro v hv
  rw [twoItems] at hv
  split_ifs at hv with hi
  · rw [List.mem_singleton.mp hv]
    exact ⟨by simp [Value.Wf, Value.parts, Value.WfNode], serialisable_of_keyless rfl rfl⟩
  · rw [List.mem_singleton.mp hv]
    refine ⟨?_, serialisable_of_keyless rfl rfl⟩
    simp [Value.Wf, Value.parts, entriesParts, Value.WfNode, Lua.Knows, Value.badKey, Value.normKey, Value.isNil]

/-- Two generators with one item each, and one worker, come to the end. -/
theorem channels_as_workqueue_two : ∃ es s, Run (Step (program []) fun _ => channelPass sampleLua)
    (start (fun _ => channelCreate) (begin twoItems)) es
      (s : Crew (Role (Fin 2) (Fin 1)) Pipe Channel (Call UInt8) (Place UInt8)) ∧
      Finished twoItems s := by
  have hends : ∀ es (s : Crew (Role (Fin 2) (Fin 1)) Pipe Channel (Call UInt8) (Place UInt8)),
      Run (Step (program [])
        fun _ => channelPass sampleLua) (start (fun _ => channelCreate) (begin twoItems)) es s → _ :=
    fun es s hrun => channels_as_workqueue sampleLua_rebuilds twoItems_sendable (by decide) hrun
  obtain ⟨es, s, hrun, -, hstuck⟩ := exists_stuck fun es s hrun => (hends es s hrun).2.1
  exact ⟨es, s, hrun, (hends es s hrun).2.2 hstuck⟩

end TorchIpc.ChannelsAsWorkQueue
