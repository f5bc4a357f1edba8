import TorchIpc.Serialize.Accepted
import TorchIpc.Serialize.Truncated

/-! The height of the stack after `rb_load`. One value more is the most that a load leaves, and of
what lies below it nothing is touched where that is userdata. A saved value of which some part
finds no slot does not leave that one more. -/

namespace TorchIpc

open Words Format

section
variable {P : Type}

/-- What comes back, if the call returns. -/
def LoadOutcome.All (φ : ℤ → Ringbuffer → List (Value P) → Prop) : LoadOutcome P → Prop
  | .ret code rb stack => φ code rb stack
  | _ => True

variable {lua : Lua P} {φ ψ : ℤ → Ringbuffer → List (Value P) → Prop} {room : Option ℕ}

theorem LoadOutcome.All.mono {o : LoadOutcome P} (h : o.All φ)
    (hle : ∀ code rb stack, φ code rb stack → ψ code rb stack) :
    o.All ψ := by
  cases o with
  | ret code rb stack => exact hle code rb stack h
  | _ => trivial

theorem LoadOutcome.All.andThen {o : LoadOutcome P} (h : o.All φ) {k : ℤ → Ringbuffer → List (Value P) → LoadOutcome P}
    (hk : ∀ code rb stack, φ code rb stack → (k code rb stack).All ψ) : (o.andThen k).All ψ := by
  cases o with
  | ret code rb stack => exact hk code rb stack h
  | _ => trivial

theorem LoadOutcome.All.and {o : LoadOutcome P} (h : o.All φ) (h' : o.All ψ) :
    o.All fun code rb stack => φ code rb stack ∧ ψ code rb stack := by
  cases o with
  | ret code rb stack => exact ⟨h, h'⟩
  | _ => trivial

theorem all_of_not_returns {o : LoadOutcome P} (h : ¬ o.Returns) : o.All φ := by
  cases o with
  | ret => exact absurd trivial h
  | _ => trivial

theorem LoadOutcome.all_true (o : LoadOutcome P) : o.All fun _ _ _ => True := by
  cases o <;> trivial

theorem rbRead_all {n : ℕ} {rb : Ringbuffer} {stack : List (Value P)} {k : List UInt8 → Ringbuffer → LoadOutcome P}
    (hend : ∀ rb', rb'.cb = rb.cb → φ (-Errno.ENOMEM.toInt) rb' stack)
    (hk : ∀ out rb', rb'.cb = rb.cb → (k out rb').All φ) : (rbRead n rb stack k).All φ := by
  simp only [rbRead]
  split_ifs
  · exact hend _ (Ringbuffer.read_cb n)
  · exact hk _ _ (Ringbuffer.read_cb n)

theorem rbReadBlock_all {n extra : ℕ} {rb : Ringbuffer} {stack : List (Value P)}
    {k : List UInt8 → Ringbuffer → LoadOutcome P} (hend : ∀ rb', rb'.cb = rb.cb → φ (-Errno.ENOMEM.toInt) rb' stack)
    (hk : ∀ out rb', rb'.cb = rb.cb → (k out rb').All φ) :
    (rbReadBlock lua n extra rb stack k).All φ := by
  simp only [rbReadBlock]
  split_ifs
  · exact hk _ _ (Ringbuffer.read_cb n)
  · exact hend _ (Ringbuffer.read_cb n)
  · trivial

theorem luaSettable_all {versionNum : ℕ} {rb : Ringbuffer} {stack : List (Value P)}
    {next : List (Value P) → LoadOutcome P} (hnext : ∀ stack', stack'.length + 2 = stack.length → (next stack').All φ) :
    (luaSettable versionNum rb stack next).All φ := by
  unfold luaSettable
  split
  · split_ifs
    · trivial
    · exact hnext _ rfl
  all_goals trivial

theorem setTypename_all {typename : TypeName} {stack : List (Value P)} {next : List (Value P) → LoadOutcome P}
    (hnext : ∀ stack', stack'.length = stack.length → (next stack').All φ) :
    (setTypename typename stack next).All φ := by
  unfold setTypename
  split
  · exact hnext _ rfl
  · trivial

/-! ### The code -/

/-- What the loop over a table returns is a negative code, or one value more. -/
theorem loadTableIn_code (fuel startsize : ℕ) (rb : Ringbuffer) (stack : List (Value P)) :
    (loadTableIn lua room fuel startsize rb stack).All fun code _ stack' =>
      code < 0 ∨ code = 1 ∧ stack'.length = startsize + 1 := by
  induction fuel generalizing rb stack with
  | zero => trivial
  | succ fuel ih =>
    rw [loadTableIn]
    refine (LoadOutcome.all_true _).andThen fun code rb stack _ => ?_
    split_ifs
    · have hend : ∀ rb' : Ringbuffer, rb'.cb = rb.cb →
        (-Errno.ENOMEM.toInt < 0 ∨ -Errno.ENOMEM.toInt = 1 ∧
          stack.length = startsize + 1) := fun _ _ => Or.inl (by decide)
      refine rbRead_all hend fun strLen rb' hrb => rbReadBlock_all (hrb ▸ hend) fun str rb _ => ?_
      have hcheck : ∀ stack : List (Value P),
          (if stack.length ≠ startsize + 1 then .raise rb else .ret 1 rb stack :
            LoadOutcome P).All fun code _ stack' =>
              code < 0 ∨ code = 1 ∧ stack'.length = startsize + 1 := by
        intro stack
        split_ifs with hlen
        · trivial
        · exact Or.inr ⟨rfl, not_not.mp hlen⟩
      split_ifs
      · exact setTypename_all fun stack' _ => hcheck stack'
      · exact hcheck stack
    · exact (LoadOutcome.all_true _).andThen fun _ rb stack _ => luaSettable_all fun stack' _ =>
        ih rb stack'

/-- The function comes back in place of itself and the table, if anything does. -/
theorem loadUpvals_cases (lua : Lua P) (startsize : ℕ) (env : ℤ) (rb : Ringbuffer) (stack : List (Value P)) :
    ¬ (loadUpvals lua startsize env rb stack).Returns ∨ ∃ es typename p ups ups' below,
      stack = .table es typename :: .function p ups :: below ∧
        loadUpvals lua startsize env rb stack = .ret 1 rb (.function p ups' :: below) := by
  by_cases hpair : ∃ es typename p ups below, stack = .table es typename :: .function p ups :: below
  · obtain ⟨es, typename, p, ups, below, rfl⟩ := hpair
    rw [loadUpvals]
    by_cases henv : (ups.length : ℤ) < env
    · rw [if_pos henv]
      exact Or.inl id
    rw [if_neg henv]
    simp only
    cases setUpvals lua (lua.next es) (if 0 < env then ups.set (env - 1).toNat none else ups) with
    | none => exact Or.inl id
    | some ups' =>
      simp only
      split_ifs
      · exact Or.inl id
      · exact Or.inr ⟨es, typename, p, ups, ups', below, rfl, rfl⟩
  · left
    unfold loadUpvals
    split
    · exact absurd ⟨_, _, _, _, _, rfl⟩ hpair
    · exact id

theorem loadFunction_code {load : Ringbuffer → List (Value P) → LoadOutcome P} (fuel : ℕ) (rb : Ringbuffer)
    (stack : List (Value P)) : (loadFunction lua load fuel rb stack).All fun code _ _ =>
      code ≠ 0 := by
  have hclosure : ∀ rb stack', (loadClosure lua load stack.length rb stack').All fun code _ _ =>
    code ≠ 0 := by
    intro rb stack'
    refine rbRead_all (fun _ _ => by decide) fun upval rb _ => ?_
    split_ifs
    · refine rbRead_all (fun _ _ => by decide) fun env rb _ =>
        (LoadOutcome.all_true _).andThen fun _ rb stack' _ => ?_
      rcases loadUpvals_cases lua stack.length (intVal env) rb stack' with hnot | ⟨_, _, _, _, _, _, -, heq⟩
      · exact all_of_not_returns hnot
      · rw [heq]
        exact one_ne_zero
    · exact one_ne_zero
  unfold loadFunction
  split
  · trivial
  · trivial
  · exact show -Errno.EINVAL.toInt ≠ 0 by decide
  · simp only
    split_ifs
    · exact hclosure _ _
    · exact rbRead_all (fun _ _ => by decide) fun _ _ _ => hclosure _ _

theorem loadUserdata_code (negative : Bool) (rb : Ringbuffer) (stack : List (Value P)) :
    (loadUserdata lua negative rb stack).All fun code _ _ => code ≠ 0 := by
  refine rbRead_all (fun _ _ => by decide) fun _ rb _ =>
    rbReadBlock_all (fun _ _ => by decide) fun _ rb _ =>
    rbRead_all (fun _ _ => by decide) fun _ rb _ => ?_
  simp only [luaTPushudata]
  split_ifs
  · exact one_ne_zero
  · exact one_ne_zero
  · trivial
  · exact one_ne_zero

/-- The code zero is that of the end of a table, which is no value. -/
theorem rbLoadRcsvIn_code (fuel : ℕ) (isKey : Bool) (rb : Ringbuffer) (stack : List (Value P)) :
    (rbLoadRcsvIn lua room fuel isKey rb stack).All fun code _ stack' =>
      code = 0 → stack' = stack := by
  have hne : ∀ {o : LoadOutcome P}, (o.All fun code _ _ => code ≠ 0) →
      o.All fun code _ stack' => code = 0 → stack' = stack :=
        fun h => h.mono fun _ _ _ hcode hzero => absurd hzero hcode
  have hend : ∀ {rb : Ringbuffer} (rb' : Ringbuffer), rb'.cb = rb.cb → -Errno.ENOMEM.toInt = 0 →
    stack = stack := fun _ _ _ => rfl
  cases fuel with
  | zero => trivial
  | succ fuel =>
    rw [rbLoadRcsvIn]
    split
    · exact fun _ => rfl
    refine rbRead_all hend fun type rb _ => ?_
    split
    · split_ifs
      · exact fun _ => rfl
      · exact fun hzero => absurd hzero one_ne_zero
    · exact rbRead_all hend fun _ _ _ hzero => absurd hzero one_ne_zero
    · exact rbRead_all hend fun _ _ _ hzero => absurd hzero one_ne_zero
    · exact rbRead_all hend fun _ _ _ hzero => absurd hzero one_ne_zero
    · exact rbRead_all hend fun _ _ _ => rbReadBlock_all hend fun _ _ _ hzero =>
        absurd hzero one_ne_zero
    · refine hne ((loadTableIn_code fuel _ rb _).mono fun code _ stack' hcode => ?_)
      omega
    · exact hne (loadFunction_code fuel rb stack)
    · exact hne (loadUserdata_code false rb stack)
    · exact hne (loadUserdata_code true rb stack)
    · exact fun _ => rfl

/-! ### The height -/

/-- Userdata, which `lua_settable` cannot store into. -/
def Inert (base : List (Value P)) : Prop := ∀ v ∈ base, ∃ typename ptr, v = .userdata typename ptr

/-- A buffer of this capacity, and a stack with at most so many values on top of `base`. -/
def Above (cb : ℕ) (base : List (Value P)) (n : ℕ) (_ : ℤ) (rb : Ringbuffer) (stack : List (Value P)) : Prop :=
  rb.cb = cb ∧ ∃ xs, stack = xs ++ base ∧ xs.length ≤ n

variable {base : List (Value P)} {cb : ℕ}

theorem Inert.not_table (hbase : Inert base) {es : List (Value P × Value P)} {typename : TypeName} :
    .table es typename ∉ base := by
  intro hmem
  obtain ⟨_, _, heq⟩ := hbase _ hmem
  cases heq

theorem Inert.not_function (hbase : Inert base) {p : P} {ups : List (Option (Value P))} :
    .function p ups ∉ base := by
  intro hmem
  obtain ⟨_, _, heq⟩ := hbase _ hmem
  cases heq

theorem luaSettable_above (hbase : Inert base) {versionNum n : ℕ} {rb : Ringbuffer} {xs : List (Value P)}
    {next : List (Value P) → LoadOutcome P}
    (hnext : ∀ ys, ys.length + 2 = xs.length → (next (ys ++ base)).All (Above cb base n)) :
    (luaSettable versionNum rb (xs ++ base) next).All (Above cb base n) := by
  generalize hstack : xs ++ base = stack
  unfold luaSettable
  split
  · rename_i v k es stack'
    split_ifs
    · trivial
    match xs with
    | x :: y :: t :: ys =>
      simp only [List.cons_append, List.cons.injEq] at hstack
      obtain ⟨-, -, rfl, rfl⟩ := hstack
      exact hnext (.table _ .none :: ys) rfl
    -- the table is none of those in the base
    | [x, y] =>
      simp only [List.cons_append, List.nil_append, List.cons.injEq] at hstack
      exact absurd (hstack.2.2 ▸ List.mem_cons_self) hbase.not_table
    | [x] =>
      simp only [List.cons_append, List.nil_append, List.cons.injEq] at hstack
      exact absurd (hstack.2 ▸ List.mem_cons_of_mem _ List.mem_cons_self) hbase.not_table
    | [] =>
      have hcons : base = v :: k :: .table es .none :: stack' := hstack
      exact absurd (hcons ▸ List.mem_cons_of_mem _ (List.mem_cons_of_mem _ List.mem_cons_self)) hbase.not_table
  all_goals trivial

theorem loadTypename_above (hbase : Inert base) (startsize : ℕ) {rb : Ringbuffer} (hcb : rb.cb = cb)
    (xs : List (Value P)) : (loadTypename lua startsize rb (xs ++ base)).All (Above cb base xs.length) := by
  refine rbRead_all (fun rb' hrb => ⟨hrb.trans hcb, xs, rfl, le_rfl⟩) fun strLen rb₁ h₁ =>
    rbReadBlock_all (fun rb' hrb => ⟨hrb.trans (h₁.trans hcb), xs, rfl, le_rfl⟩) fun str rb₂ h₂ =>
      ?_
  have hcheck : ∀ ys : List (Value P), ys.length = xs.length →
      (if (ys ++ base).length ≠ startsize + 1 then .raise rb₂
        else .ret 1 rb₂ (ys ++ base) : LoadOutcome P).All (Above cb base xs.length) := by
    intro ys hys
    split_ifs
    · trivial
    · exact ⟨h₂.trans (h₁.trans hcb), ys, rfl, hys.le⟩
  split_ifs
  · cases xs with
    | nil =>
      cases base with
      | nil => trivial
      | cons b base =>
        obtain ⟨_, _, rfl⟩ := hbase b List.mem_cons_self
        trivial
    | cons x xs =>
      cases x with
      | table es typename => exact hcheck (.table es _ :: xs) rfl
      | _ => trivial
  · exact hcheck xs rfl

theorem loadUpvals_above (hbase : Inert base) (startsize : ℕ) (env : ℤ) {rb : Ringbuffer} (hcb : rb.cb = cb)
    {xs : List (Value P)} {n : ℕ} (hle : xs.length ≤ n + 1) :
    (loadUpvals lua startsize env rb (xs ++ base)).All (Above cb base n) := by
  rcases loadUpvals_cases lua startsize env rb (xs ++ base) with hnot | ⟨es, typename, p, ups, ups', below, hstack, heq⟩
  · exact all_of_not_returns hnot
  rw [heq]
  match xs with
  | t :: f :: ys =>
    simp only [List.cons_append, List.cons.injEq] at hstack
    obtain ⟨-, -, rfl⟩ := hstack
    refine ⟨hcb, .function p ups' :: ys, rfl, ?_⟩
    rw [List.length_cons, List.length_cons] at hle
    rw [List.length_cons]
    omega
  | [t] =>
    simp only [List.cons_append, List.nil_append, List.cons.injEq] at hstack
    exact absurd (hstack.2 ▸ List.mem_cons_self) hbase.not_function
  | [] =>
    have hcons : base = .table es typename :: .function p ups :: below := hstack
    exact absurd (hcons ▸ List.mem_cons_self) hbase.not_table

theorem rbLuaReader_cb (rb : Ringbuffer) : (rbLuaReader rb).2.cb = rb.cb := by
  simp only [rbLuaReader]
  split_ifs
  all_goals simp only [Ringbuffer.read_cb]

/-- The buffer that `lua_load` leaves. -/
def Loaded.Keeps (cb : ℕ) : Loaded P → Prop
  | .proto _ rb _ => rb.cb = cb
  | .error _ rb => rb.cb = cb
  | _ => True

theorem luaLoad_cb (fuel : ℕ) (read : List UInt8) {rb : Ringbuffer} (hcb : rb.cb = cb) :
    (luaLoad lua fuel read rb).Keeps cb := by
  induction fuel generalizing read rb with
  | zero => trivial
  | succ fuel ih =>
    rw [luaLoad]
    have hreader := (rbLuaReader_cb rb).trans hcb
    split
    · rename_i heq
      rw [heq] at hreader
      split
      · exact ih _ hreader
      · rw [loadedProto]
        rename_i p _
        have hmore := rbLuaReader_cb (rbLuaReader rb).2
        rw [heq] at hmore
        split_ifs
        · split
          · rename_i hend
            rw [hend] at hmore
            exact hmore.trans hreader
          · trivial
          · rename_i hend
            rw [hend] at hmore
            exact hmore.trans hreader
        · exact hreader
      · exact hreader
    · rename_i heq
      rw [heq] at hreader
      split <;> exact hreader
    · rename_i heq
      rw [heq] at hreader
      split <;> exact hreader
    · trivial

theorem loadFunction_above (hbase : Inert base) {load : Ringbuffer → List (Value P) → LoadOutcome P}
    (fuel : ℕ) {rb : Ringbuffer} (hcb : rb.cb = cb) (xs : List (Value P))
    (hload : ∀ rb ys, rb.cb = cb → (load rb (ys ++ base)).All (Above cb base (ys.length + 1))) :
    (loadFunction lua load fuel rb (xs ++ base)).All (Above cb base (xs.length + 1)) := by
  have hclosure : ∀ p rb, rb.cb = cb → (loadClosure lua load (xs ++ base).length rb
      (.function p (freshUpvals lua.versionNum (lua.upvalueNames p).length) :: (xs ++ base))).All
        (Above cb base (xs.length + 1)) := by
    intro p rb hrb
    refine rbRead_all (fun rb' h => ⟨h.trans hrb, _ :: xs, rfl, le_rfl⟩) fun upval rb₁ h₁ => ?_
    split_ifs
    · refine rbRead_all (fun rb' h => ⟨h.trans (h₁.trans hrb), _ :: xs, rfl, le_rfl⟩) fun env rb₂ h₂ =>
        (hload rb₂ (_ :: xs) (h₂.trans (h₁.trans hrb))).andThen ?_
      rintro _ rb _ ⟨h₃, ys, rfl, hys⟩
      exact loadUpvals_above hbase _ _ h₃ hys
    · exact ⟨h₁.trans hrb, _ :: xs, rfl, le_rfl⟩
  have hkeeps := @luaLoad_cb P lua cb fuel [] rb hcb
  unfold loadFunction
  split
  · trivial
  · trivial
  · rename_i heq
    rw [heq] at hkeeps
    exact ⟨hkeeps, _ :: xs, rfl, le_rfl⟩
  · rename_i heq
    rw [heq] at hkeeps
    simp only
    split_ifs
    · exact hclosure _ _ hkeeps
    · exact rbRead_all (fun rb' h => ⟨h.trans hkeeps, _ :: xs, rfl, le_rfl⟩) fun _ _ h =>
        hclosure _ _ (h.trans hkeeps)

theorem loadUserdata_above (negative : Bool) {rb : Ringbuffer} (hcb : rb.cb = cb) (xs : List (Value P)) :
    (loadUserdata lua negative rb (xs ++ base)).All (Above cb base (xs.length + 1)) := by
  have hsame : ∀ rb' : Ringbuffer, rb'.cb = cb →
      Above cb base (xs.length + 1) (-Errno.ENOMEM.toInt) rb' (xs ++ base) :=
    fun rb' h => ⟨h, xs, rfl, Nat.le_succ _⟩
  refine rbRead_all (fun _ h => hsame _ (h.trans hcb)) fun strLen rb₁ h₁ => rbReadBlock_all
    (fun _ h => hsame _ (h.trans (h₁.trans hcb))) fun str rb₂ h₂ => rbRead_all
    (fun _ h => hsame _ (h.trans (h₂.trans (h₁.trans hcb)))) fun ptr rb₃ h₃ => ?_
  have hcb₃ : rb₃.cb = cb := h₃.trans (h₂.trans (h₁.trans hcb))
  simp only [luaTPushudata]
  split_ifs
  · exact ⟨hcb₃, _ :: xs, rfl, le_rfl⟩
  · exact ⟨hcb₃, _ :: xs, rfl, le_rfl⟩
  · trivial
  · exact ⟨hcb₃, _ :: xs, rfl, le_rfl⟩

/-- A value more is the most that is left above `base`; the loop over a table leaves none more. -/
theorem loads_above (hbase : Inert base) (room : Option ℕ) (fuel : ℕ) :
    (∀ isKey rb xs, rb.cb = cb →
    (rbLoadRcsvIn lua room fuel isKey rb (xs ++ base)).All (Above cb base (xs.length + 1))) ∧
      ∀ startsize rb xs, rb.cb = cb →
        (loadTableIn lua room fuel startsize rb (xs ++ base)).All (Above cb base xs.length) := by
  induction fuel with
  | zero => exact ⟨fun _ _ _ _ => trivial, fun _ _ _ _ => trivial⟩
  | succ fuel ih =>
    obtain ⟨hvalue, hloop⟩ := ih
    constructor
    · intro isKey rb xs hcb
      have hsame : ∀ code (rb' : Ringbuffer), rb'.cb = cb →
          Above cb base (xs.length + 1) code rb' (xs ++ base) :=
        fun _ rb' h => ⟨h, xs, rfl, Nat.le_succ _⟩
      have hpushed : ∀ code (rb' : Ringbuffer) v, rb'.cb = cb →
          Above cb base (xs.length + 1) code rb' (v :: (xs ++ base)) :=
        fun _ rb' v h => ⟨h, v :: xs, rfl, le_rfl⟩
      rw [rbLoadRcsvIn]
      split
      · exact hsame (-Errno.ENOMEM.toInt) rb hcb
      refine rbRead_all (fun _ h => hsame _ _ (h.trans hcb)) fun type rb₁ h₁ => ?_
      replace h₁ := h₁.trans hcb
      split
      · split_ifs
        · exact hsame 0 _ h₁
        · exact hpushed 1 _ _ h₁
      · exact rbRead_all (fun _ h => hsame _ _ (h.trans h₁)) fun _ _ h => hpushed 1 _ _ (h.trans h₁)
      · exact rbRead_all (fun _ h => hsame _ _ (h.trans h₁)) fun _ _ h => hpushed 1 _ _ (h.trans h₁)
      · exact rbRead_all (fun _ h => hsame _ _ (h.trans h₁)) fun _ _ h => hpushed 1 _ _ (h.trans h₁)
      · exact rbRead_all (fun _ h => hsame _ _ (h.trans h₁)) fun _ _ h => rbReadBlock_all
          (fun _ h' => hsame _ _ (h'.trans (h.trans h₁))) fun _ _ h' =>
            hpushed 1 _ _ (h'.trans (h.trans h₁))
      · exact hloop _ rb₁ (.table [] .none :: xs) h₁
      · exact loadFunction_above hbase fuel h₁ xs fun rb ys h => hvalue false rb ys h
      · exact loadUserdata_above false h₁ xs
      · exact loadUserdata_above true h₁ xs
      · exact hsame (-Errno.EINVAL.toInt) _ h₁
    · intro startsize rb xs hcb
      rw [loadTableIn]
      refine ((hvalue true rb xs hcb).and (rbLoadRcsvIn_code fuel true rb (xs ++ base))).andThen ?_
      rintro code rb stack ⟨⟨hcb, ys, rfl, hys⟩, hzero⟩
      split_ifs with hcode
      · rw [hzero hcode]
        exact loadTypename_above hbase startsize hcb xs
      · refine (hvalue false rb ys hcb).andThen ?_
        rintro _ rb _ ⟨hcb, zs, rfl, hzs⟩
        refine luaSettable_above hbase fun us hus =>
          (hloop startsize rb us hcb).mono fun _ _ _ habove => ?_
        obtain ⟨hcb, ws, rfl, hws⟩ := habove
        exact ⟨hcb, ws, rfl, by omega⟩

theorem loads_height (room : Option ℕ) (fuel : ℕ) :
    (∀ isKey rb stack, (rbLoadRcsvIn lua room fuel isKey rb stack).All
    fun _ _ stack' => stack'.length ≤ stack.length + 1) ∧
      ∀ startsize rb stack,
        (loadTableIn lua room fuel startsize rb stack).All fun _ _ stack' =>
          stack'.length ≤ stack.length := by
  have hnil : Inert ([] : List (Value P)) := nofun
  have habove : ∀ {n cb : ℕ} {code rb} {stack : List (Value P)}, Above cb [] n code rb stack →
      stack.length ≤ n := by
    rintro n cb code rb _ ⟨-, xs, rfl, hxs⟩
    rwa [List.append_nil]
  constructor
  · intro isKey rb stack
    have h := (@loads_above P lua [] rb.cb hnil room fuel).1 isKey rb stack rfl
    rw [List.append_nil] at h
    exact h.mono fun _ _ _ => habove
  · intro startsize rb stack
    have h := (@loads_above P lua [] rb.cb hnil room fuel).2 startsize rb stack rfl
    rw [List.append_nil] at h
    exact h.mono fun _ _ _ => habove

theorem rbLoadIn_cb {fuel : ℕ} {rb rb' : Ringbuffer} {stack stack' : List (Value P)} {code : ℤ}
    (h : rbLoadIn lua fuel rb stack = .ret code rb' stack') : rb'.cb = rb.cb := by
  have habove := (@loads_above P lua [] rb.cb nofun (some lua.stackRoom) fuel).1 false rb stack rfl
  rw [List.append_nil, ← rbLoadIn, h] at habove
  exact habove.1

/-! ### Without a slot -/

variable (lua) in
/-- Where a slot is missing for these bytes, a load that returns has a negative code and leaves
no value. -/
def CrampedIn (slots : ℕ) (bs : List UInt8) : Prop :=
  ∃ n, ∀ rb rest stack, Holds rb (bs ++ rest) → lua.stackRoom < stack.length + slots →
    ∀ fuel ≥ n, ∀ isKey, (rbLoadRcsvIn lua (some lua.stackRoom) fuel isKey rb stack).All fun code _ stack' =>
      code < 0 ∧ stack'.length ≤ stack.length

variable (lua) in
/-- The loop over a table then leaves not even the table. -/
def EntriesCrampedIn (slots : ℕ) (bs : List UInt8) : Prop :=
  ∃ n, ∀ rb rest (es : List (Value P × Value P)) stack, Holds rb (bs ++ (LUA_TNIL :: rest)) →
    lua.stackRoom < stack.length + 1 + slots → ∀ fuel ≥ n, ∀ startsize,
      (loadTableIn lua (some lua.stackRoom) fuel startsize rb (.table es .none :: stack)).All fun _ _ stack' =>
        stack'.length ≤ stack.length

theorem full_cramped {stack : List (Value P)} (hfull : lua.stackRoom ≤ stack.length) (fuel : ℕ)
    (isKey : Bool) (rb : Ringbuffer) :
    (rbLoadRcsvIn lua (some lua.stackRoom) fuel isKey rb stack).All fun code _ stack' =>
      code < 0 ∧ stack'.length ≤ stack.length := by
  cases fuel with
  | zero => trivial
  | succ fuel =>
    rw [rbLoadRcsvIn_full hfull]
    exact ⟨by decide, le_rfl⟩

theorem crampedIn_leaf (bs : List UInt8) : CrampedIn lua 1 bs :=
  ⟨0, fun rb _ _ _ hno fuel _ isKey => full_cramped (by omega) fuel isKey rb⟩

/-- The rest of a round that has lost a value, and of the loop. -/
theorem round_height {n : ℕ} (fuel startsize : ℕ) (rb : Ringbuffer) {stack : List (Value P)}
    (hlow : stack.length ≤ n + 1) :
    ((rbLoadRcsvIn lua room fuel false rb stack).andThen fun _ rb stack =>
      luaSettable lua.versionNum rb stack fun stack =>
        loadTableIn lua room fuel startsize rb stack).All
        fun _ _ stack' => stack'.length ≤ n := by
  refine ((loads_height room fuel).1 false rb stack).andThen fun _ rb stack hvalue => ?_
  refine luaSettable_all fun stack' hset =>
    ((loads_height room fuel).2 startsize rb stack').mono fun _ _ _ hloop => ?_
  omega

theorem entriesCrampedIn_nil : EntriesCrampedIn lua 1 [] := by
  refine ⟨0, fun rb rest es stack _ hno fuel _ startsize => ?_⟩
  cases fuel with
  | zero => trivial
  | succ fuel =>
    rw [loadTableIn]
    refine (full_cramped (by rw [List.length_cons]; omega) fuel true rb).andThen fun code rb stack' hkey => ?_
    rw [if_neg hkey.1.ne]
    exact round_height fuel startsize rb hkey.2

theorem EntriesCrampedIn.cons {slots : ℕ} {bk bv bs : List UInt8} {k v : Value P} (h : EntriesCrampedIn lua slots bs)
    (hk : LoadsIn lua true bk k) (hv : LoadsIn lua false bv v) (hbad : k.badKey = false)
    (hk' : CrampedIn lua (k.slots lua) bk) (hv' : CrampedIn lua (v.slots lua) bv) :
    EntriesCrampedIn lua (max (max (k.slots lua) (1 + v.slots lua)) slots) (bk ++ bv ++ bs) := by
  obtain ⟨n, hn⟩ := h
  obtain ⟨n₁, hround⟩ := loadTableIn_round hk hv hbad
  obtain ⟨n₂, hkey⟩ := hk
  obtain ⟨n₃, hkey'⟩ := hk'
  obtain ⟨n₄, hvalue'⟩ := hv'
  refine ⟨max (max n n₁) (max (max n₂ n₃) n₄) + 1, fun rb rest es stack h hno fuel hf startsize => ?_⟩
  obtain ⟨fuel, rfl⟩ : ∃ m, fuel = m + 1 := ⟨fuel - 1, by omega⟩
  rw [List.append_assoc (bk ++ bv)] at h
  by_cases hkroom : lua.stackRoom < (.table es .none :: stack).length + k.slots lua
  · rw [loadTableIn]
    rw [List.append_assoc] at h
    refine (hkey' rb _ _ h hkroom fuel (by omega) true).andThen fun code rb stack' hlow => ?_
    rw [if_neg hlow.1.ne]
    exact round_height fuel startsize rb hlow.2
  by_cases hvroom : lua.stackRoom < (k :: .table es .none :: stack).length + v.slots lua
  · rw [loadTableIn]
    rw [List.append_assoc] at h
    obtain ⟨rb₁, h₁, hload⟩ := hkey rb _ (.table es .none :: stack) h (not_lt.mp hkroom)
    rw [hload fuel (by omega), LoadOutcome.andThen, if_neg one_ne_zero]
    refine (hvalue' rb₁ _ _ h₁ hvroom fuel (by omega) false).andThen fun code rb stack' hlow => ?_
    refine luaSettable_all fun stack'' hset =>
      ((loads_height _ fuel).2 startsize rb stack'').mono fun _ _ _ hloop => ?_
    simp only [List.length_cons] at hlow
    omega
  · rw [List.length_cons] at hkroom hvroom
    rw [List.length_cons] at hvroom
    obtain ⟨rb₁, h₁, hstep⟩ := hround rb _ es stack h (by omega)
    rw [hstep fuel (by omega)]
    exact hn rb₁ rest _ stack h₁ (by omega) fuel (by omega) startsize

theorem EntriesCrampedIn.crampedIn {slots : ℕ} {bs rest : List UInt8} (h : EntriesCrampedIn lua slots bs) :
    CrampedIn lua (1 + slots) (LUA_TTABLE :: (bs ++ (LUA_TNIL :: rest))) := by
  obtain ⟨n, hn⟩ := h
  refine ⟨n + 1, fun rb rest' stack h hno fuel hf isKey => ?_⟩
  by_cases hfull : lua.stackRoom ≤ stack.length
  · exact full_cramped hfull fuel isKey rb
  obtain ⟨fuel, rfl⟩ : ∃ m, fuel = m + 1 := ⟨fuel - 1, by omega⟩
  obtain ⟨rb₁, h₁, hread⟩ := Holds.rbRead_byte (P := P) h
  rw [rbLoadRcsvIn, if_neg (slot_free (not_le.mp hfull)), hread]
  have hrest : Holds rb₁ (bs ++ (LUA_TNIL :: (rest ++ rest'))) := by simpa using h₁
  refine ((hn rb₁ _ [] stack hrest (by omega) fuel (by omega) stack.length).and
    (loadTableIn_code fuel stack.length rb₁ _)).mono fun code _ stack' hlow => ?_
  omega

theorem crampedIn_emptyTable (lua : Lua P) : CrampedIn lua 2 emptyTableBytes :=
  entriesCrampedIn_nil.crampedIn

theorem crampedIn_function (hl : lua.Rebuilds) {p : P} (hp : noUpvalues lua p)
    {ups : List (Option (Value P))} (hups : ups.length = (lua.upvalueNames p).length)
    (hok : (script lua false false (.function p ups)).fin = .ok) :
    CrampedIn lua ((Value.function p ups).slots lua) (script lua false false (.function p ups)).bytes := by
  rw [Value.slots]
  split_ifs with henv
  swap
  · exact crampedIn_leaf _
  rw [script, upvalsScript_of_noUpvalues hp hups] at hok ⊢
  obtain ⟨-, hbytes⟩ := functionScript_bytes hok
  obtain ⟨n, hn⟩ := loadFunction_dump hl p
  obtain ⟨m, hm⟩ := crampedIn_emptyTable lua
  have hflags : (false || envOnly lua false p) = true := henv
  rw [hbytes, upvalsTail_bytes rfl, if_pos hflags, tableScript_empty.2]
  refine ⟨max n m + 1, fun rb rest stack h hno fuel hf isKey => ?_⟩
  by_cases hfull : lua.stackRoom ≤ stack.length
  · exact full_cramped hfull fuel isKey rb
  obtain ⟨fuel, rfl⟩ : ∃ m, fuel = m + 1 := ⟨fuel - 1, by omega⟩
  rw [List.cons_append] at h
  obtain ⟨rb₀, h₀, hread⟩ := Holds.rbRead_byte (P := P) h
  simp only [List.append_assoc] at h₀
  obtain ⟨rb₁, h₁, hload⟩ := hn rb₀ _ stack h₀
  obtain ⟨rb₂, h₂, hflag⟩ := Holds.rbRead (P := P) h₁ (length_intBytes _).symm
  obtain ⟨rb₃, h₃, hidx⟩ := Holds.rbRead (P := P) h₂ (length_intBytes _).symm
  have hone : intVal (intBytes (upvalFlag lua false p)) = 1 := by
    have hflagOne : upvalFlag lua false p = 1 := if_pos hflags
    rw [hflagOne]
    exact intVal_intBytes (by decide) (by decide)
  rw [rbLoadRcsvIn, if_neg (slot_free (not_le.mp hfull)), hread]
  simp only [List.headD_cons]
  -- the table of the upvalues does not come onto the stack
  apply all_of_not_returns
  rw [hload fuel (by omega), loadClosure, hflag, if_pos hone, hidx]
  have hlow := hm rb₃ rest (.function p (freshUpvals lua.versionNum (lua.upvalueNames p).length) :: stack) h₃
    (by rw [List.length_cons]; omega) fuel (by omega) false
  generalize rbLoadRcsvIn lua (some lua.stackRoom) fuel false rb₃ (.function p _ :: stack) =
    o at hlow
  cases o with
  | ret code rb stack' => exact loadUpvals_low hlow.2 _ _
  | _ => exact id

mutual

theorem script_crampedIn (hl : lua.Rebuilds) (v : Value P) (hwf : ∀ w ∈ v.parts, w.WfNode lua)
    (hok : (script lua false false v).fin = .ok) :
    CrampedIn lua (v.slots lua) (script lua false false v).bytes := by
  cases v with
  | table es typename =>
    obtain ⟨hnode, hes⟩ := forall_parts_table.mp hwf
    rw [script, tableScript_fin_ok] at hok
    rw [script, tableScript_bytes hok, Value.slots]
    exact (entriesScript_crampedIn hl es hes hnode.2.1 hok).crampedIn
  | function p ups =>
    exact crampedIn_function hl (noUpvalues_of_ok false _ hok _ (Value.self_mem_parts _))
      (hwf _ (Value.self_mem_parts _)) hok
  | _ => exact crampedIn_leaf _

theorem entriesScript_crampedIn (hl : lua.Rebuilds) (es : List (Value P × Value P))
    (hwf : ∀ w ∈ entriesParts es, w.WfNode lua)
    (hes : ∀ e ∈ es, e.1.badKey = false ∧ e.1.normKey lua.versionNum = e.1 ∧ e.2.isNil = false)
    (hok : (entriesScript lua false false es).fin = .ok) :
    EntriesCrampedIn lua (entriesSlots lua es) (entriesScript lua false false es).bytes := by
  match es with
  | [] => exact entriesCrampedIn_nil
  | (k, v) :: es =>
    obtain ⟨hwk, hwv, hwes⟩ := forall_parts_cons.mp hwf
    rw [entriesScript, entryScript_fin_ok] at hok
    obtain ⟨hk, hv, hrest⟩ := hok
    obtain ⟨hbad, -, -⟩ := hes (k, v) List.mem_cons_self
    rw [entriesScript, entryScript_bytes hk hv, entriesSlots]
    have hrestCramped := entriesScript_crampedIn hl es hwes (fun e he => hes e (List.mem_cons_of_mem _ he)) hrest
    have hk' := script_crampedIn hl k hwk hk
    have hv' := script_crampedIn hl v hwv hv
    rw [← k.slots_received] at hk'
    rw [← v.slots_received] at hv'
    have hcons := hrestCramped.cons (loadsIn_script hl true k hwk hk fun _ => hbad)
      (loadsIn_script hl false v hwv hv nofun) ((received_badKey k).trans hbad) hk' hv'
    rwa [k.slots_received, v.slots_received] at hcons

end

end

end TorchIpc
