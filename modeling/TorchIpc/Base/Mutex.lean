import TorchIpc.Base.Runs

/-! An object behind a mutex. A thread takes the mutex for a call, goes through the call in
several steps, and gives the mutex back with a reply. The rule: if the object meets its
specification whenever the mutex is free, and between the steps of a call what the call has
made of it so far, then every run is a sequence of calls, in the order of the locks. -/

namespace TorchIpc.Mutex

open Runs

/-- The object, and the thread that has the mutex, with the rest of its call. -/
structure Guarded (T C Q : Type*) where
  obj : C
  owner : Option (T × Q)

section
variable {T C K Q A : Type*}

/-- A step of any thread, with the reply of the call that it ends. -/
inductive Step (enter : K → Q → Prop) (work : Q → C → Q → C → Prop) (leave : Q → C → A → C → Prop) :
    Guarded T C Q → Option A → Guarded T C Q → Prop where
  | lock {c k q} (t : T) : enter k q → Step enter work leave ⟨c, none⟩ none ⟨c, some (t, q)⟩
  | work {c t q q' c'} : work q c q' c' →
      Step enter work leave ⟨c, some (t, q)⟩ none ⟨c', some (t, q')⟩
  | unlock {c t q a c'} : leave q c a c' →
      Step enter work leave ⟨c, some (t, q)⟩ (some a) ⟨c', none⟩

def replies (es : List (Option A)) : List A := es.filterMap id

@[simp] theorem replies_none (es : List (Option A)) : replies (es ++ [none]) = replies es := by
  simp [replies]

@[simp] theorem replies_some (es : List (Option A)) (a : A) :
    replies (es ++ [some a]) = replies es ++ [a] := by
  simp [replies]

/-- The specification `I` holds while the mutex is free, and `J` during a call. -/
def Meets (I : List A → C → Prop) (J : List A → Q → C → Prop) (as : List A) (s : Guarded T C Q) :
    Prop :=
  match s.owner with
  | none => I as s.obj
  | some (_, q) => J as q s.obj

variable {enter : K → Q → Prop} {work : Q → C → Q → C → Prop} {leave : Q → C → A → C → Prop}
  {I : List A → C → Prop} {J : List A → Q → C → Prop}

/-- What the steps of one call keep, every run of all threads keeps; and every reply is
right (`R`) after the replies before it. -/
theorem run_meets {R : List A → A → Prop} (henter : ∀ as k q c, I as c → enter k q → J as q c)
    (hwork : ∀ as q c q' c', J as q c → work q c q' c' → J as q' c')
    (hleave : ∀ as q c a c', J as q c → leave q c a c' → R as a ∧ I (as ++ [a]) c') {c₀ : C}
    (h0 : I [] c₀) {es : List (Option A)} {s : Guarded T C Q} (hrun : Run (Step enter work leave) ⟨c₀, none⟩ es s) :
    Meets I J (replies es) s ∧ ∀ before a after, replies es = before ++ a :: after →
      R before a := by
  refine hrun.invariant (I := fun es (s : Guarded T C Q) => Meets I J (replies es) s ∧
    ∀ before a after, replies es = before ++ a :: after → R before a)
    ⟨h0, fun before a after h => by simp [replies] at h⟩ ?_
  rintro es s e s' ⟨hmeets, hright⟩ hstep
  cases hstep with
  | lock t hen =>
    rw [replies_none]
    exact ⟨henter _ _ _ _ hmeets hen, hright⟩
  | work hw =>
    rw [replies_none]
    exact ⟨hwork _ _ _ _ _ hmeets hw, hright⟩
  | unlock hl =>
    rw [replies_some]
    obtain ⟨hr, hI⟩ := hleave _ _ _ _ _ hmeets hl
    refine ⟨hI, fun before a after h => ?_⟩
    rcases List.eq_nil_or_concat after with rfl | ⟨after, b, rfl⟩
    · obtain ⟨hpre, ha⟩ := List.append_inj' h rfl
      cases ha
      exact hpre ▸ hr
    · rw [List.concat_eq_append, ← List.cons_append, ← List.append_assoc] at h
      exact hright before a after (List.append_inj' h rfl).1

end

end TorchIpc.Mutex
