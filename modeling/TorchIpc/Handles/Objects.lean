import TorchIpc.Serialize.Closures
import TorchIpc.Serialize.Growth

/-! The objects that travel inside a value: the loader makes a handle for each of
them, and saving has retained each of them at least once. -/

namespace TorchIpc

open Words

section
variable {P : Type} {lua : Lua P}

/-! ### Loading -/

/-- The upvalues of a fresh function hold no objects. -/
def Fresh (ups : List (Option (Value P))) : Prop := ∀ u ∈ ups, u = none ∨ u = some .nil

theorem freshUpvals_fresh (versionNum n : ℕ) :
    Fresh (freshUpvals versionNum n : List (Option (Value P))) := by
  have hrep : Fresh (List.replicate n (some .nil) : List (Option (Value P))) := fun u hu =>
    Or.inr (List.eq_of_mem_replicate hu)
  have hset : Fresh ((List.replicate n (some .nil)).set 0 none : List (Option (Value P))) :=
    fun u hu =>
    (List.mem_or_eq_of_mem_set hu).elim (hrep u) Or.inl
  rw [freshUpvals]
  split_ifs
  · exact hset
  · exact hset
  · exact hrep

theorem setEnv_fresh {env : ℤ} {ups : List (Option (Value P))} (h : Fresh ups) :
    Fresh (setEnv env ups) := by
  rw [setEnv]
  split_ifs
  · exact fun u hu => (List.mem_or_eq_of_mem_set hu).elim (h u) Or.inl
  · exact h

theorem upvalsUserdata_fresh {name : String} {names : List String} {f : Option (Value P)}
    {us : List (Option (Value P))} (hf : f = none ∨ f = some .nil) :
    upvalsUserdata lua (name :: names) (f :: us) = upvalsUserdata lua names us := by
  rcases hf with rfl | rfl
  · rw [upvalsUserdata]
  · rw [upvalsUserdata, userdataOf, ite_self, List.nil_append]

mutual

/-- The loader makes one handle for each occurrence of an object. -/
theorem userdataOf_loaded (v : Value P) (hwf : v.DeepWf lua) :
    userdataOf lua (v.loaded lua) = userdataOf lua v := by
  cases v with
  | table es typename =>
    rw [Value.DeepWf] at hwf
    rw [Value.loaded, userdataOf, userdataOf]
    exact entriesUserdata_loaded es hwf.2
  | function p ups =>
    rw [Value.DeepWf] at hwf
    rw [Value.loaded, userdataOf, userdataOf]
    exact upvalsUserdata_loaded (lua.upvalueNames p) _ ups (setEnv_fresh (freshUpvals_fresh _ _))
      (by rw [setEnv_length, freshUpvals_length]) hwf.1 hwf.2.2
  | _ => rw [Value.loaded]

theorem entriesUserdata_loaded (es : List (Value P × Value P)) (hwf : entriesDeepWf lua es) :
    entriesUserdata lua (loadedEntries lua es) = entriesUserdata lua es := by
  match es with
  | [] => rw [loadedEntries]
  | (k, v) :: es =>
    rw [entriesDeepWf] at hwf
    rw [loadedEntries, entriesUserdata, entriesUserdata, userdataOf_loaded k hwf.1,
      userdataOf_loaded v hwf.2.1, entriesUserdata_loaded es hwf.2.2]

theorem upvalsUserdata_loaded (names : List String) (fresh ups : List (Option (Value P)))
    (hfresh : Fresh fresh) (hlen : fresh.length = names.length) (hups : ups.length = names.length)
    (hwf : upvalsDeepWf lua ups) :
    upvalsUserdata lua names (loadedUpvals lua names fresh ups) = upvalsUserdata lua names ups := by
  match names, fresh, ups with
  | [], [], [] => rw [loadedUpvals]
  | name :: names, f :: fresh, none :: us =>
    rw [upvalsDeepWf] at hwf
    rw [loadedUpvals, upvalsUserdata_fresh (hfresh f List.mem_cons_self), upvalsUserdata]
    exact upvalsUserdata_loaded names fresh us (fun u hu => hfresh u (List.mem_cons_of_mem _ hu))
      (Nat.succ.inj hlen) (Nat.succ.inj hups) hwf
  | name :: names, f :: fresh, some v :: us =>
    rw [upvalsDeepWf] at hwf
    have ih := upvalsUserdata_loaded names fresh us (fun u hu => hfresh u (List.mem_cons_of_mem _ hu))
      (Nat.succ.inj hlen) (Nat.succ.inj hups) hwf.2
    rw [loadedUpvals]
    split_ifs with hskip
    · rw [upvalsUserdata_fresh (hfresh f List.mem_cons_self), upvalsUserdata, ih]
      rcases hskip with hname | hnil
      · rw [if_pos hname, List.nil_append]
      · obtain rfl : v = .nil := by cases v <;> simp_all [Value.isNil]
        rw [userdataOf, ite_self, List.nil_append]
    · rw [upvalsUserdata, upvalsUserdata, ih, userdataOf_loaded v hwf.1]

end

theorem rbLoad_stored (hl : lua.Rebuilds) {upval : Bool} {v : Value P} (hwf : v.DeepWf lua)
    (hok : (script lua false upval v).fin = .ok) {rb : Ringbuffer} {rest : List UInt8}
    (h : Holds rb (encode lua false upval v ++ rest)) (stack : List (Value P)) :
    ∃ rb', Holds rb' rest ∧
      Runs.Yields (fun fuel => rbLoad lua fuel rb stack) (.ret 1 rb' (v.loaded lua :: stack)) := by
  obtain ⟨n, hn⟩ := loads_deep hl false v hwf hok (by rintro ⟨⟩)
  obtain ⟨rb', h', hload⟩ := hn rb rest stack h
  exact ⟨rb', h', n, hload⟩

/-! ### Saving -/

/-- A save that succeeds is a write of one argument into a queue. -/
theorem writeLoop_of_growthLoop (upval : Bool) (inc : ℕ) (v : Value P) (index fuel height : ℕ)
    (q : Queue) {fx : Effects} {top : ℕ}
    (h : growthLoop lua (fun _ top => some top) upval inc v index fuel height q.toEffects =
      .ret 0 fx top) :
    writeLoop lua upval inc (fuel + 1) [v] index height q =
      .done { q with rb := fx.rb, retained := fx.retained, numItems := q.numItems + 1 } := by
  induction fuel generalizing height q with
  | zero => cases h
  | succ fuel ih =>
    rw [growthLoop] at h
    rw [writeLoop]
    cases hsave : rbSave lua false upval v index { q.toEffects with rb := ringbufferPushWritePos q.rb }
      height with
    | ret code fx₁ top₁ =>
      simp only [hsave] at h ⊢
      by_cases hmem : code = -Errno.ENOMEM.toInt
      · simp only [if_pos hmem] at h ⊢
        cases hgrow : ringbufferGrowBy (ringbufferPopWritePos fx₁.rb) inc with
        | none => simp only [hgrow] at h; cases h
        | some rb =>
          simp only [hgrow] at h ⊢
          exact ih top₁ { q with rb := rb, retained := fx₁.retained } h
      · simp only [if_neg hmem] at h ⊢
        cases h
        rfl
    | raise e fx₁ => simp only [hsave] at h; cases h
    | undefined => simp only [hsave] at h; cases h
    | diverges => simp only [hsave] at h; cases h

theorem growthLoop_of_marshalWrite {upval : Bool} {inc : ℕ} {v : Value P} {index top fuel : ℕ}
    {fx fx' : Effects} {top' : ℕ}
    (h : Marshal.marshalWrite lua upval inc v index top fx fuel = .ret 0 fx' top') :
    growthLoop lua (fun _ top => some top) upval inc v index fuel top fx = .ret 0 fx' top' := by
  rw [Marshal.marshalWrite] at h
  cases ho : growthLoop lua (fun _ top => some top) upval inc v index fuel top fx with
  | ret code fx₁ top₁ =>
    simp only [ho] at h
    obtain ⟨rfl, hfx, rfl⟩ := GrowthOutcome.ret.inj h
    rw [if_pos rfl] at hfx
    rw [hfx]
  | _ => simp only [ho] at h; cases h

theorem marshalWrite_stored {upval : Bool} {inc : ℕ} {v : Value P} {index top fuel : ℕ}
    {fx fx' : Effects} {top' : ℕ} (hrb : fx.rb.Sound) (hi : index ≤ top)
    (h : Marshal.marshalWrite lua upval inc v index top fx fuel = .ret 0 fx' top') :
    fx'.rb.Sound ∧ fx'.rb.content = fx.rb.content ++ encode lua false upval v ∧
      (script lua false upval v).fin = .ok := by
  have hspec := writeLoop_spec lua upval inc (fuel + 1) [v] index top
    { fx with numItems := 0, locks := 0 } hrb (by rw [List.length_singleton]; omega)
  rw [writeLoop_of_growthLoop upval inc v index fuel top { fx with numItems := 0, locks := 0 }
    (growthLoop_of_marshalWrite h)] at hspec
  cases hspec with
  | done hw =>
    refine ⟨hw.sound, ?_, hw.all_ok v List.mem_cons_self⟩
    simpa using hw.content_eq

theorem marshalWrite_retained {upval : Bool} {inc : ℕ} {v : Value P} {index top fuel : ℕ}
    {fx fx' : Effects} {top' : ℕ} (hv : fx.rb.Valid) (hi : index ≤ top)
    (h : Marshal.marshalWrite lua upval inc v index top fx fuel = .ret 0 fx' top') (ptr : UInt64) :
    (userdataOf lua v).count ptr ≤ fx'.retained.count ptr := by
  have hresult : (growthLoop lua (fun _ top => some top) upval inc v index fuel top fx).result =
      some (true, fx'.retained) := by
    rw [growthLoop_of_marshalWrite h]
    rfl
  obtain ⟨K, _, hok, hretained⟩ :=
    growthLoop_result (fun a b hab => ⟨b, rfl, hab⟩) hv hi hresult
  rw [hretained, retainedBy_last, retainsIn_stored (hok.mp rfl), List.count_append, List.count_append]
  omega

end

end TorchIpc
