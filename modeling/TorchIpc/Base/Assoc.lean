import Mathlib.Data.List.Basic

/-! Tables as lists of entries, with a test for the equality of keys that is an equivalence
only on some of them. To store an absent value removes the entry. -/

namespace TorchIpc.Assoc

section
variable {K V : Type*} (same : K → K → Bool) (absent : V → Bool)

def update (k : K) (v : V) : List (K × V) → List (K × V)
  | [] => if absent v then [] else [(k, v)]
  | (k', v') :: es =>
    if same k' k then if absent v then es else (k', v) :: es
    else (k', v') :: update k v es

def lookup (default : V) (k : K) : List (K × V) → V
  | [] => default
  | (k', v') :: es => if same k' k then v' else lookup default k es

/-- The test is an equivalence on these keys. -/
structure Equivalence (IsKey : K → Prop) : Prop where
  refl : ∀ a, IsKey a → same a a = true
  symm : ∀ a b, same a b = true → same b a = true
  trans : ∀ a b c, same a b = true → same b c = true → same a c = true

/-- Every key occurs once, and with a value that is not absent. -/
structure Tidy (IsKey : K → Prop) (es : List (K × V)) : Prop where
  key : ∀ e ∈ es, IsKey e.1
  present : ∀ e ∈ es, absent e.2 = false
  distinct : (es.map Prod.fst).Pairwise fun a b => same a b = false

variable {same absent} {IsKey : K → Prop} {es : List (K × V)} {default : V}

theorem Equivalence.congr_left (h : Equivalence same IsKey) {a b : K} (hab : same a b = true)
    (c : K) :
    same a c = same b c :=
  Bool.eq_iff_iff.mpr ⟨h.trans b a c (h.symm a b hab), h.trans a b c hab⟩

theorem Tidy.nil : Tidy same absent IsKey ([] : List (K × V)) := ⟨nofun, nofun, .nil⟩

theorem Tidy.tail {e : K × V} (h : Tidy same absent IsKey (e :: es)) : Tidy same absent IsKey es :=
  ⟨fun e he => h.key e (List.mem_cons_of_mem _ he), fun e he => h.present e (List.mem_cons_of_mem _ he),
    (List.pairwise_cons.mp h.distinct).2⟩

theorem lookup_of_new {k : K} (h : ∀ e ∈ es, same e.1 k = false) :
    lookup same default k es = default := by
  induction es with
  | nil => rfl
  | cons e es ih =>
    obtain ⟨he, hes⟩ := List.forall_mem_cons.mp h
    rw [lookup, he, if_neg Bool.false_ne_true, ih hes]

theorem lookup_mem_or (k : K) (es : List (K × V)) :
    lookup same default k es = default ∨ ∃ e ∈ es, lookup same default k es = e.2 := by
  induction es with
  | nil => exact Or.inl rfl
  | cons e es ih =>
    rw [lookup]
    split_ifs
    · exact Or.inr ⟨e, List.mem_cons_self, rfl⟩
    · exact ih.imp id fun ⟨e', he', heq⟩ => ⟨e', List.mem_cons_of_mem _ he', heq⟩

/-- The keys with a value are those in the entries. -/
theorem absent_lookup_iff (h : Tidy same absent IsKey es) (hdefault : absent default = true)
    (k : K) :
    absent (lookup same default k es) = false ↔ ∃ k' ∈ es.map Prod.fst, same k' k = true := by
  induction es with
  | nil => simp [lookup, hdefault]
  | cons e es ih =>
    rw [lookup, List.map_cons]
    by_cases he : same e.1 k = true
    · rw [if_pos he]
      exact ⟨fun _ => ⟨e.1, List.mem_cons_self, he⟩, fun _ => h.present e List.mem_cons_self⟩
    · rw [if_neg he, ih h.tail]
      simp [he]

theorem lookup_update (heq : Equivalence same IsKey) (h : Tidy same absent IsKey es) (k k' : K)
    {v : V} (hv : absent v = true → v = default) :
    lookup same default k' (update same absent k v es) = if same k k' then v else lookup same default k' es := by
  induction es with
  | nil =>
    rw [update]
    by_cases habs : absent v = true
    · rw [if_pos habs, hv habs, lookup, ite_self]
    · rw [if_neg habs, lookup]
      rfl
  | cons e es ih =>
    rw [update]
    by_cases he : same e.1 k = true
    · rw [if_pos he]
      by_cases habs : absent v = true
      · rw [if_pos habs]
        split_ifs with hk
        · have hnew : ∀ e' ∈ es, same e'.1 k' = false := by
            intro e' he'
            have hek' : same e.1 k' = true := heq.trans _ _ _ he hk
            have hdistinct := (List.pairwise_cons.mp h.distinct).1 e'.1 (List.mem_map_of_mem he')
            rw [Bool.eq_false_iff]
            exact fun hsame => Bool.eq_false_iff.mp hdistinct (heq.trans _ _ _ hek' (heq.symm _ _ hsame))
          rw [lookup_of_new hnew, hv habs]
        · rw [lookup, heq.congr_left he k', if_neg hk]
      · rw [if_neg habs, lookup, lookup, heq.congr_left he k']
        split_ifs <;> rfl
    · rw [if_neg he, lookup, lookup, ih h.tail]
      by_cases hk : same k k' = true
      · have hek' : ¬ same e.1 k' = true :=
          fun hsame => he (heq.trans _ _ _ hsame (heq.symm _ _ hk))
        rw [if_neg hek', if_pos hk, if_pos hk]
      · rw [if_neg hk, if_neg hk]

theorem mem_update {k : K} {v : V} {e : K × V} (he : e ∈ update same absent k v es) :
    e ∈ es ∨ absent v = false ∧ e.2 = v ∧ (e.1 = k ∨ e.1 ∈ es.map Prod.fst) := by
  induction es with
  | nil =>
    rw [update] at he
    split_ifs at he with habs
    · cases he
    · obtain rfl := List.mem_singleton.mp he
      exact Or.inr ⟨Bool.eq_false_iff.mpr habs, rfl, Or.inl rfl⟩
  | cons e' es ih =>
    rw [update] at he
    split_ifs at he with hsame habs
    · exact Or.inl (List.mem_cons_of_mem _ he)
    · rcases List.mem_cons.mp he with rfl | he
      · exact Or.inr ⟨Bool.eq_false_iff.mpr habs, rfl, Or.inr List.mem_cons_self⟩
      · exact Or.inl (List.mem_cons_of_mem _ he)
    · rcases List.mem_cons.mp he with rfl | he
      · exact Or.inl List.mem_cons_self
      · rcases ih he with hold | ⟨hv, heq, hkey⟩
        · exact Or.inl (List.mem_cons_of_mem _ hold)
        · exact Or.inr ⟨hv, heq, hkey.imp id (List.mem_cons_of_mem _)⟩

theorem Tidy.update (h : Tidy same absent IsKey es) {k : K} (hk : IsKey k) (v : V) :
    Tidy same absent IsKey (update same absent k v es) := by
  refine ⟨fun e he => ?_, fun e he => ?_, ?_⟩
  · rcases mem_update he with he | ⟨-, -, rfl | hmem⟩
    · exact h.key e he
    · exact hk
    · obtain ⟨e', he', hkey⟩ := List.mem_map.mp hmem
      exact hkey ▸ h.key e' he'
  · rcases mem_update he with he | ⟨hv, rfl, -⟩
    · exact h.present e he
    · exact hv
  · induction es with
    | nil =>
      rw [Assoc.update]
      split_ifs
      · exact .nil
      · exact List.pairwise_singleton _ _
    | cons e es ih =>
      obtain ⟨hfirst, hrest⟩ := List.pairwise_cons.mp h.distinct
      rw [Assoc.update]
      split_ifs with hsame habs
      · exact hrest
      · exact List.pairwise_cons.mpr ⟨hfirst, hrest⟩
      · refine List.pairwise_cons.mpr ⟨fun b hb => ?_, ih h.tail⟩
        obtain ⟨e', he', rfl⟩ := List.mem_map.mp hb
        rcases mem_update he' with hold | ⟨-, -, hkey | hmem⟩
        · exact hfirst e'.1 (List.mem_map_of_mem hold)
        · rw [hkey]
          exact Bool.eq_false_iff.mpr hsame
        · exact hfirst e'.1 hmem

end

end TorchIpc.Assoc
