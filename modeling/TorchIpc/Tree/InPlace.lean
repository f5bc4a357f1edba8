import TorchIpc.Tree.Tensors

/-! What `allReduce` makes of values with tensors. The children's values are read into one and the
same tensor, so the reduction over the tree is right for a reduce function that leaves its result in
its first argument or in a new tensor, and wrong for one that returns its second argument. -/

namespace TorchIpc.Tree.InPlace

open Network

/-! ### One leaf -/

section
variable {A V F ι : Type} [DecidableEq ι] {torch : Torch V F} {fresh : Prop} {peer : ι} {reduce : Reduce A V}
  {f : Content A V → Content A V → Content A V} {φ : Option F} {mem₀ mem : Memory V}
  {ls₀ as bs : List (Leaf A)} {l : Leaf A} {xs us vs : List (Content A V)} {x y : Content A V}

omit [DecidableEq ι] in
/-- The tensor offered for a message has the form of the leaf. -/
theorem getTempValue_tensor (hs : Sound torch mem) {r : ℕ} (hr : torch.compact (torch.form (mem.cell r))) :
    ∃ t mem', getTempValue torch (.tensor r : Leaf A) mem = (some t, mem') ∧ mem'.temp = some t ∧
      (mem.temp = some t ∨ t = mem.next ∧ t < mem'.next) ∧ mem.next ≤ mem'.next ∧
      (∀ s < mem.next, s ≠ t → mem'.cell s = mem.cell s) ∧
      torch.form (mem'.cell t) = torch.form (mem.cell r) := by
  have hnew : ∀ v, torch.form v = torch.form (mem.cell r) →
      ∃ t mem', (some (mem.alloc v).1, { (mem.alloc v).2 with temp := some (mem.alloc v).1 }) =
        (some t, mem') ∧
        mem'.temp = some t ∧ (mem.temp = some t ∨ t = mem.next ∧ t < mem'.next) ∧
          mem.next ≤ mem'.next ∧
        (∀ s < mem.next, s ≠ t → mem'.cell s = mem.cell s) ∧
        torch.form (mem'.cell t) = torch.form (mem.cell r) := by
    intro v hv
    refine ⟨_, _, rfl, rfl, .inr ⟨rfl, Nat.lt_succ_self _⟩, Nat.le_succ _, ?_, ?_⟩
    · intro s _ hne
      exact Function.update_of_ne hne _ _
    · simpa [Memory.alloc] using hv
  rw [getTempValue]
  cases ht : mem.temp with
  | none =>
    have hclone := hnew _ (torch.form_clone _ hr)
    rwa [ht] at hclone
  | some t =>
    obtain ⟨-, hcompact⟩ := hs t ht
    simp only
    split_ifs with hsame
    · refine ⟨t, _, rfl, ht, .inl rfl, le_rfl, ?_, ?_⟩
      · intro s _ hne
        exact mem.store_cell_of_ne hne _
      · rw [Memory.store_cell, torch.form_resizeAs _ _ hsame hcompact hr]
    · have htype := hnew _ (torch.form_resizeAs _ _ (torch.sameType_typeAs (mem.cell t) (mem.cell r))
        (torch.compact_typeAs _ _ hcompact) hr)
      rwa [ht] at htype

theorem talks_recvInto_plain (b : A) : Talks (· = (.plain b, mem))
    ((recvInto torch peer none : Routine ι A V (Leaf A)).run mem) (towards peer [.hear (.leaf (.plain b))]) := by
  simp only [recvInto, StateT.run_bind, StateT.run_monadLift, monadLift_self, bind_assoc, pure_bind]
  apply (talks_get (Q := (· = Msg.leaf (Content.plain b))) rfl).returns
  rintro _ rfl
  exact ⟨_, rfl, rfl⟩

theorem talks_recvInto_tensor {r : ℕ} {v : V} (h : torch.form (mem.cell r) = torch.form v) :
    Talks (· = (.tensor r, mem.store r v)) ((recvInto torch peer (some r) : Routine ι A V (Leaf A)).run mem)
      (towards peer [.hear (.leaf (.tensor v))]) := by
  simp only [recvInto, StateT.run_bind, StateT.run_monadLift, monadLift_self, bind_assoc, pure_bind]
  apply (talks_get (Q := (· = Msg.leaf (Content.tensor v))) rfl).returns
  rintro _ rfl
  refine ⟨_, ?_, rfl⟩
  simp [torch.read_eq _ _ h]

omit [DecidableEq ι] in
theorem changed_store (r : ℕ) (v : V) :
    Changed torch fresh (.tensor r : Leaf A) none (.tensor v) mem (.tensor r, mem.store r v) where
  ref := .inl rfl
  content := by simp [Memory.content]
  next_le := le_rfl
  temp := rfl
  compact _ hs := by simp at hs
  frame s _ hs _ := mem.store_cell_of_ne (by simpa [Leaf.ref, eq_comm] using hs) v

/-- One leaf of the value is combined with what a client sends for it. -/
theorem talks_reduceLeaf (hup : Updates torch fresh reduce f φ) (hφ : ∀ c, φ = some c → torch.compact c)
    (h : Kept torch fresh mem₀ ls₀ mem (as ++ l :: bs) (us ++ x :: vs)) (hlen : as.length = us.length)
    (hx : torch.formOf x = φ) (hy : torch.formOf y = φ) :
    Talks (fun r => Kept torch fresh mem₀ ls₀ r.2 (as ++ r.1 :: bs) (us ++ f x y :: vs))
      ((visitLeaf (reduceLeaf torch reduce peer) l : Routine ι A V (Leaf A)).run mem)
      (towards peer [.hear (.leaf y)]) := by
  have hrun : (visitLeaf (reduceLeaf torch reduce peer) l : Routine ι A V (Leaf A)).run mem =
      ((recvInto torch peer (getTempValue torch l mem).1 : Routine ι A V (Leaf A)).run
        (getTempValue torch l mem).2 >>= fun p =>
          pure ((reduce l p.1 p.2).1.getD l, (reduce l p.1 p.2).2)) := by
    simp only [visitLeaf, reduceLeaf, StateT.run_bind, bind_assoc]
    rfl
  rw [hrun]
  obtain rfl := h.content_eq hlen
  cases l with
  | plain a =>
    cases y with
    | tensor v => exact absurd (hx.trans hy.symm) (by simp [Memory.content, Torch.formOf])
    | plain b =>
      apply (talks_recvInto_plain b).returns
      rintro _ rfl
      exact ⟨_, rfl, h.set hlen (by simp [Leaf.ref]) (hup.apart mem (.plain a) (.plain b) hx hy (by simp [Leaf.ref])
        (by simp [Leaf.ref]))⟩
  | tensor r =>
    cases y with
    | plain b => exact absurd (hx.trans hy.symm) (by simp [Memory.content, Torch.formOf])
    | tensor v =>
      have hcompact : torch.compact (torch.form (mem.cell r)) := hφ _ hx.symm
      obtain ⟨t, mem₁, hget, htemp₁, ht, hnext₁, hcell₁, hform₁⟩ :=
        getTempValue_tensor (A := A) h.sound hcompact
      rw [hget]
      have h₁ := h.setTemp hnext₁ htemp₁ ht (hform₁ ▸ hcompact) hcell₁
      have hv : torch.form (mem₁.cell t) = torch.form v := by
        rw [hform₁]
        simpa [Memory.content, Torch.formOf] using hx.trans hy.symm
      have h₂ : Kept torch fresh mem₀ ls₀ (mem₁.store t v) (as ++ .tensor r :: bs)
          (us ++ mem.content (.tensor r) :: vs) := by
        refine h₁.setTemp (t := t) ?_ htemp₁ (.inl htemp₁) ?_ ?_
        · exact le_rfl
        · rw [Memory.store_cell, ← hv, hform₁]
          exact hcompact
        · exact fun s _ hne => mem₁.store_cell_of_ne hne v
      apply (talks_recvInto_tensor hv).returns
      rintro _ rfl
      refine ⟨_, rfl, ?_⟩
      -- the leaf is another tensor than the one that has been read into
      have hr := h₂.known r (mem_refs (l := .tensor r) (by simp) rfl)
      have hrt : r ≠ t := fun heq => hr.2 (heq ▸ htemp₁)
      have hcont : (mem₁.store t v).content (.tensor t : Leaf A) = .tensor v := by
        simp [Memory.content]
      have happly := hup.apart (mem₁.store t v) (.tensor r) (.tensor t) (by rw [h₂.content_eq hlen, hx])
        (by rw [hcont, hy]) (fun s hs => ?_) fun s hs => ?_
      · rw [h₂.content_eq hlen, hcont] at happly
        exact h₂.set hlen (fun s hs => htemp₁.trans hs) happly
      · obtain rfl : r = s := by simpa [Leaf.ref] using hs
        exact ⟨hr.1, by simpa [Leaf.ref, eq_comm] using hrt⟩
      · obtain rfl : t = s := by simpa [Leaf.ref] using hs
        exact (h₂.sound t htemp₁).1

/-- One leaf of the value is overwritten by what the parent sends for it. -/
theorem talks_overwrite (h : Kept torch fresh mem₀ ls₀ mem (as ++ l :: bs) (us ++ x :: vs))
    (hlen : as.length = us.length) (hform : torch.formOf x = torch.formOf y) :
    Talks (fun r => Kept torch fresh mem₀ ls₀ r.2 (as ++ r.1 :: bs) (us ++ y :: vs))
      ((visitLeaf (fun x => do return some (← recvInto torch peer x.ref)) l : Routine ι A V (Leaf A)).run mem)
      (towards peer [.hear (.leaf y)]) := by
  have hrun : (visitLeaf (fun x => do return some (← recvInto torch peer x.ref)) l : Routine ι A V (Leaf A)).run mem =
      (recvInto torch peer l.ref : Routine ι A V (Leaf A)).run mem := by
    simp [visitLeaf]
  rw [hrun]
  obtain rfl := h.content_eq hlen
  cases l with
  | plain a =>
    cases y with
    | tensor v => simp [Memory.content, Torch.formOf] at hform
    | plain b =>
      apply (talks_recvInto_plain b).mono
      rintro _ rfl
      have hchanged : Changed torch fresh (.plain a : Leaf A) none (.plain b : Content A V) mem
          (.plain b, mem) :=
        ⟨.inl rfl, rfl, le_rfl, rfl, by simp, fun _ _ _ _ => rfl⟩
      exact h.set hlen (by simp) hchanged
  | tensor r =>
    cases y with
    | plain b => simp [Memory.content, Torch.formOf] at hform
    | tensor v =>
      apply (talks_recvInto_tensor (by simpa [Memory.content, Torch.formOf] using hform)).mono
      rintro _ rfl
      exact h.set hlen (by simp) (changed_store r v)

theorem talks_sendLeaf (h : Kept torch fresh mem₀ ls₀ mem (as ++ l :: bs) (us ++ x :: vs))
    (hlen : as.length = us.length) :
    Talks (fun r => Kept torch fresh mem₀ ls₀ r.2 (as ++ r.1 :: bs) (us ++ x :: vs))
      ((visitLeaf (sendLeaf peer) l : Routine ι A V (Leaf A)).run mem) (towards peer [.say (.leaf x)]) := by
  obtain rfl := h.content_eq hlen
  exact ⟨[], by simp [towards], by simp [update_towards, towards_nil], h⟩

end

/-! ### Walks -/

section
variable {A V F N S ι : Type} [DecidableEq ι] [LinearOrder N] [LinearOrder S] {torch : Torch V F}
  {fresh : Prop} {peer : ι} {mem₀ mem : Memory V} {ls₀ bs : List (Leaf A)} {xs ys vs : List (Content A V)}
  {T : Template N S (Leaf A)} {value : Nested N S (Leaf A)}

section
variable (rel : Content A V → Content A V → Prop) {g : Content A V → Content A V → Content A V}
  (turn : Content A V → Turn (Msg (Content A V)))

/-- A walk does to every leaf what it does to one. -/
theorem talks_leaves {visit : Leaf A → Routine ι A V (Leaf A)}
    (hvisit : ∀ mem as l bs us x y vs, as.length = us.length → rel x y →
      Kept torch fresh mem₀ ls₀ mem (as ++ l :: bs) (us ++ x :: vs) →
      Talks (fun r => Kept torch fresh mem₀ ls₀ r.2 (as ++ r.1 :: bs) (us ++ g x y :: vs)) ((visit l).run mem)
        (towards peer [turn y]))
    (as : List (Leaf A)) (us : List (Content A V)) (hlen : as.length = us.length)
    (hrel : List.Forall₂ rel vs ys) (h : Kept torch fresh mem₀ ls₀ mem (as ++ bs) (us ++ vs)) :
    Talks (fun r => Kept torch fresh mem₀ ls₀ r.2 (as ++ r.1) (us ++ List.zipWith g vs ys))
      ((bs.mapM visit).run mem) (towards peer (ys.map turn)) := by
  induction bs generalizing as us vs ys mem with
  | nil =>
    have hvs : vs = [] := by
      have := congrArg List.length h.contents
      simp [hlen] at this
      exact this
    subst hvs
    obtain rfl := List.forall₂_nil_left_iff.mp hrel
    rw [List.map_nil, towards_nil]
    exact talks_pure h
  | cons l bs ih =>
    have hlens := congrArg List.length h.contents
    simp only [List.map_append, List.length_append, List.length_map, List.length_cons, hlen] at hlens
    obtain ⟨x, vs, rfl⟩ := List.exists_cons_of_length_eq_add_one (show vs.length = bs.length + 1 by omega)
    obtain ⟨y, ys, hxy, hrest, rfl⟩ := List.forall₂_cons_left_iff.mp hrel
    rw [List.mapM_cons, StateT.run_bind, List.map_cons, ← towards_cons]
    apply (hvisit mem as l bs us x y vs hlen hxy h).bind
    rintro ⟨l', mem'⟩ h'
    rw [StateT.run_bind]
    have hgo := ih (as ++ [l']) (us ++ [g x y]) (by simp [hlen]) hrest (by simpa using h')
    apply hgo.returns
    rintro ⟨rs, mem''⟩ h''
    exact ⟨_, rfl, by simpa using h''⟩

variable (torch fresh T mem₀ ls₀ xs) in
/-- The leaves of the value hold `xs`. -/
def Carries (r : Nested N S (Leaf A) × Memory V) : Prop :=
  ∃ ls, T.Holds r.1 ls ∧ Kept torch fresh mem₀ ls₀ r.2 ls xs

theorem talks_walk {f : Leaf A → Routine ι A V (Option (Leaf A))}
    (hvisit : ∀ mem as l bs us x y vs, as.length = us.length → rel x y →
      Kept torch fresh mem₀ ls₀ mem (as ++ l :: bs) (us ++ x :: vs) →
      Talks (fun r => Kept torch fresh mem₀ ls₀ r.2 (as ++ r.1 :: bs) (us ++ g x y :: vs))
        ((visitLeaf f l).run mem) (towards peer [turn y]))
    (hrel : List.Forall₂ rel xs ys) (h : Carries torch fresh mem₀ ls₀ xs T (value, mem)) :
    Talks (Carries torch fresh mem₀ ls₀ (List.zipWith g xs ys) T) ((walkTable f value).run mem)
      (towards peer (ys.map turn)) := by
  obtain ⟨ls, hv, hkept⟩ := h
  rw [hv.walkTable, StateT.run_bind]
  have hall := talks_leaves rel turn hvisit [] [] rfl hrel (by simpa using hkept)
  apply hall.returns
  rintro ⟨ls', mem'⟩ h'
  simp only [List.nil_append] at h'
  have hlen : ls'.length = ls.length := h'.stays.length_eq.trans hkept.stays.length_eq.symm
  exact ⟨_, rfl, ls', Template.holds_fill (hlen.trans hv.length_eq), h'⟩

end

variable {reduce : Reduce A V} {f : Content A V → Content A V → Content A V} {forms : List (Option F)} {d : ℕ}

omit [DecidableEq ι] in
theorem alike_of_forms (hx : xs.map torch.formOf = forms) (hy : ys.map torch.formOf = forms) :
    List.Forall₂ (fun x y => torch.formOf x = torch.formOf y ∧ torch.formOf x ∈ forms) xs ys := by
  have hall : List.Forall₂ (fun x y => torch.formOf x = torch.formOf y) xs ys := by
    rw [← List.forall₂_map_right_iff, ← List.forall₂_map_left_iff, List.forall₂_eq_eq_eq]
    exact hx.trans hy.symm
  rw [List.forall₂_iff_zip] at hall ⊢
  refine ⟨hall.1, fun hmem => ⟨hall.2 hmem, ?_⟩⟩
  rw [← hx]
  exact List.mem_map_of_mem (List.of_mem_zip hmem).1

theorem talks_sendWalk (h : Carries torch fresh mem₀ ls₀ xs T (value, mem)) :
    Talks (Carries torch fresh mem₀ ls₀ xs T) ((walkTable (sendLeaf peer) value : Routine ι A V _).run mem)
      (towards peer ((xs.map Msg.leaf).map .say)) := by
  have hsend := talks_walk Eq (g := fun x _ => x) (fun x => .say (.leaf x)) (f := sendLeaf peer)
    (fun mem as l bs us x y vs hlen hxy hkept => by
      subst hxy
      exact talks_sendLeaf hkept hlen)
    (List.forall₂_eq_eq_eq ▸ rfl : List.Forall₂ Eq xs xs) h
  rw [zipWith_fst rfl] at hsend
  rwa [List.map_map]

theorem talks_sendTo (h : Carries torch fresh mem₀ ls₀ xs T (value, mem)) :
    Talks (Carries torch fresh mem₀ ls₀ xs T) ((sendTo peer value d : Routine ι A V _).run mem)
      (towards peer ((payload (xs, d)).map .say)) := by
  rw [sendTo, map_payload, ← towards_append, StateT.run_bind]
  apply (talks_sendWalk h).bind
  rintro ⟨value', mem'⟩ h'
  simp only [StateT.run_bind, StateT.run_monadLift, monadLift_self, bind_assoc, pure_bind]
  apply (talks_put trivial).returns (Q := fun _ => True)
  exact fun _ _ => ⟨_, rfl, h'⟩

variable (torch fresh reduce f forms) in
/-- What the calls need of a reduce function for leaves of these forms. -/
structure Reduces : Prop where
  compact : ∀ φ ∈ forms, ∀ c, φ = some c → torch.compact c
  updates : ∀ φ ∈ forms, Updates torch fresh reduce f φ

theorem talks_reduceWalk (hup : Reduces torch fresh reduce f forms) (hx : xs.map torch.formOf = forms)
    (hy : ys.map torch.formOf = forms) (h : Carries torch fresh mem₀ ls₀ xs T (value, mem)) :
    Talks (Carries torch fresh mem₀ ls₀ (List.zipWith f xs ys) T)
      ((walkTable (reduceLeaf torch reduce peer) value : Routine ι A V _).run mem)
      (towards peer ((ys.map Msg.leaf).map .hear)) := by
  have hwalk := talks_walk (fun x y => torch.formOf x = torch.formOf y ∧ torch.formOf x ∈ forms)
    (fun y => .hear (.leaf y)) (f := reduceLeaf torch reduce peer)
    (fun mem as l bs us x y vs hlen hxy hkept =>
      talks_reduceLeaf (hup.updates _ hxy.2) (hup.compact _ hxy.2) hkept hlen rfl hxy.1.symm)
    (alike_of_forms hx hy) h
  rwa [List.map_map]

theorem talks_overwriteWalk (hx : xs.map torch.formOf = forms) (hy : ys.map torch.formOf = forms)
    (h : Carries torch fresh mem₀ ls₀ xs T (value, mem)) :
    Talks (Carries torch fresh mem₀ ls₀ ys T)
      ((walkTable (fun x => do return some (← recvInto torch peer x.ref)) value : Routine ι A V _).run mem)
      (towards peer ((ys.map Msg.leaf).map .hear)) := by
  have hwalk := talks_walk (fun x y => torch.formOf x = torch.formOf y ∧ torch.formOf x ∈ forms)
    (g := fun _ y => y) (fun y => .hear (.leaf y)) (f := fun x => do return some (← recvInto torch peer x.ref))
    (fun mem as l bs us x y vs hlen hxy hkept => talks_overwrite hkept hlen hxy.1) (alike_of_forms hx hy) h
  have hlen : xs.length = ys.length := by
    simpa using congrArg List.length (hx.trans hy.symm)
  rw [zipWith_snd hlen] at hwalk
  rwa [List.map_map]

/-! ### One round -/

omit [DecidableEq ι] [LinearOrder N] [LinearOrder S] in
theorem forms_zipWith (hup : Reduces torch fresh reduce f forms) (hx : xs.map torch.formOf = forms)
    (hy : ys.map torch.formOf = forms) : (List.zipWith f xs ys).map torch.formOf = forms := by
  have hmap : (List.zipWith f xs ys).map torch.formOf = xs.map torch.formOf := by
    have hall := alike_of_forms hx hy
    clear hx hy
    induction hall with
    | nil => rfl
    | cons hxy _ ih =>
      rw [List.zipWith_cons_cons, List.map_cons, List.map_cons, ih,
        (hup.updates _ hxy.2).form _ _ rfl hxy.1.symm]
  exact hmap.trans hx

variable {cs : List ι}

theorem talks_reduceUp (hup : Reduces torch fresh reduce f forms) (ups : ι → List (Content A V) × ℕ)
    (hups : ∀ c ∈ cs, (ups c).1.map torch.formOf = forms) (hxs : xs.map torch.formOf = forms)
    (h : Carries torch fresh mem₀ ls₀ xs T (value, mem)) :
    Talks (fun r => Carries torch fresh mem₀ ls₀ (cs.foldl (fun acc c => combine f acc (ups c)) (xs, d)).1 T
          (r.1.1, r.2) ∧ r.1.2 = (cs.foldl (fun acc c => combine f acc (ups c)) (xs, d)).2)
      ((reduceUp torch reduce cs value d : Routine ι A V (Nested N S (Leaf A) × ℕ)).run mem)
      fun j => cs.flatMap fun c => towards c ((payload (ups c)).map .hear) j := by
  rw [reduceUp, foldlM_run]
  refine Talks.mono (talks_foldlM (I := fun (r : (Nested N S (Leaf A) × ℕ) × Memory V)
      (a : List (Content A V) × ℕ) =>
        Carries torch fresh mem₀ ls₀ a.1 T (r.1.1, r.2) ∧ r.1.2 = a.2 ∧
        a.1.map torch.formOf = forms)
    (a := (xs, d)) (r := fun acc c => combine f acc (ups c)) (fun c => (payload (ups c)).map .hear)
    ?_ ⟨h, rfl, hxs⟩) fun r hr => ⟨hr.1, hr.2.1⟩
  rintro ⟨⟨v, n⟩, mem'⟩ a c hc ⟨hv, hn, ha⟩
  rw [map_payload, ← towards_append, StateT.run_bind]
  apply (talks_reduceWalk hup ha (hups c hc) hv).bind
  rintro ⟨v', mem''⟩ hv'
  simp only [StateT.run_bind, StateT.run_monadLift, monadLift_self, bind_assoc, pure_bind]
  apply (talks_recvCount (ups c).2).returns
  rintro _ rfl
  exact ⟨_, rfl, hv', congrArg (· + (ups c).2) hn, forms_zipWith hup ha (hups c hc)⟩

theorem talks_sendDown (h : Carries torch fresh mem₀ ls₀ xs T (value, mem)) :
    Talks (Carries torch fresh mem₀ ls₀ xs T) ((sendDown cs value d : Routine ι A V _).run mem)
      fun j => cs.flatMap fun c => towards c ((payload (xs, d)).map .say) j := by
  rw [sendDown, foldlM_run]
  exact talks_foldlM (I := fun (r : Nested N S (Leaf A) × Memory V) _ => Carries torch fresh mem₀ ls₀ xs T r) (a := ())
    (r := fun _ _ => ()) (fun _ => (payload (xs, d)).map .say) (fun _ _ _ _ hv => talks_sendTo hv) h

variable {R : Rooted ι} {q : Qsort ι} {conn : Conn ι} {i : ι} {ups : ι → List (Content A V) × ℕ}

theorem talks_exchange (hups : ∀ j, (ups j).1.map torch.formOf = forms)
    (h : Carries torch fresh mem₀ ls₀ (ups i).1 T (value, mem)) :
    Talks (fun r => Carries torch fresh mem₀ ls₀ (ups R.root).1 T (r.1.1, r.2) ∧ r.1.2 = (ups R.root).2)
      ((exchange torch (R.parent i) value (ups i).2 : Routine ι A V (Nested N S (Leaf A) × ℕ)).run mem)
      fun j => if R.parent i = some j then (payload (ups i)).map .say ++ (payload (ups R.root)).map .hear
        else [] := by
  cases hp : R.parent i with
  | none =>
    obtain rfl := (R.parent_eq_none i).mp hp
    exact talks_pure ⟨h, rfl⟩
  | some p =>
    rw [exchange, exchangeTurns_eq, StateT.run_bind]
    apply (talks_sendTo h).bind
    rintro ⟨v₁, mem₁⟩ h₁
    rw [StateT.run_bind]
    apply (talks_overwriteWalk (hups i) (hups R.root) h₁).bind
    rintro ⟨v₂, mem₂⟩ h₂
    simp only [StateT.run_bind, StateT.run_monadLift, monadLift_self, bind_assoc, pure_bind]
    apply (talks_recvCount (ups R.root).2).returns
    rintro _ rfl
    exact ⟨_, rfl, h₂, rfl⟩

/-- A node takes the turns of a round, and its leaves hold in the end what the root has. -/
theorem talks_round (hup : Reduces torch fresh reduce f forms) (hconn : ConnOf R q conn i)
    (hown : ups i = (R.children i).foldl (fun acc c => combine f acc (ups c)) (xs, d))
    (hups : ∀ j, (ups j).1.map torch.formOf = forms) (hxs : xs.map torch.formOf = forms)
    (h : Carries torch fresh mem₀ ls₀ xs T (value, mem)) :
    Talks (fun r => Carries torch fresh mem₀ ls₀ (ups R.root).1 T (r.1.1, r.2) ∧ r.1.2 = (ups R.root).2)
      ((round torch q conn reduce value d : Routine ι A V (Nested N S (Leaf A) × ℕ)).run mem)
      (roundTurns R ups i) := by
  rw [round, hconn.clients, hconn.client, roundTurns_eq hconn, StateT.run_bind]
  apply (talks_reduceUp hup ups (fun c _ => hups c) hxs h).bind
  rintro ⟨⟨v₁, _⟩, mem₁⟩ ⟨h₁, rfl⟩
  rw [← hown] at h₁ ⊢
  rw [StateT.run_bind]
  apply (talks_exchange hups h₁).bind
  rintro ⟨⟨v₂, _⟩, mem₂⟩ ⟨h₂, rfl⟩
  rw [StateT.run_bind]
  apply (talks_sendDown h₂).returns
  exact fun r h₃ => ⟨_, rfl, h₃, rfl⟩

end

/-! ### All nodes -/

section
variable {A V F N S : Type} [LinearOrder N] [LinearOrder S]

/-- What the leaves of a value hold, in the order of the keys. -/
def contents (mem : Memory V) (value : Nested N S (Leaf A)) : List (Content A V) :=
  (leaves (sorted value)).map mem.content

/-- The values of the nodes have the same keys, and at each place leaves of one form; the tensors of
each node are different ones. -/
structure Alike {ι : Type} (torch : Torch V F) (value : ι → Nested N S (Leaf A)) (mem : ι → Memory V)
    (forms : List (Option F)) : Prop where
  keyed : ∀ i, Keyed (value i)
  shape : ∀ i j, shape (value i) = shape (value j)
  sound : ∀ i, Sound torch (mem i)
  distinct : ∀ i, Distinct (mem i) (leaves (sorted (value i)))
  forms : ∀ i, (contents (mem i) (value i)).map torch.formOf = forms

/-- What a node has after the call: a value with the same keys and the contents `final`, in the
tensors it called with or, with `fresh`, in new ones; apart from these only `tempValue` has
changed. -/
structure Reduced (fresh : Prop) (value : Nested N S (Leaf A)) (mem : Memory V) (n : ℕ)
    (final : List (Content A V)) (r : Outcome N S (Leaf A) × Memory V) : Prop where
  returned : ∃ v, r.1.value = some v ∧ Tree.shape v = Tree.shape value ∧ contents r.2 v = final ∧
    List.Forall₂ (Stays fresh mem) (leaves (sorted v)) (leaves (sorted value))
  contributed : r.1.contributed = n
  frame : ∀ t < mem.next, t ∉ refs (leaves (sorted value)) → mem.temp ≠ some t →
      r.2.cell t = mem.cell t

/-- The function is associative and commutative on contents of this form. -/
structure CommutesOn (torch : Torch V F) (f : Content A V → Content A V → Content A V) (φ : Option F) : Prop where
  assoc : ∀ x y z, torch.formOf x = φ → torch.formOf y = φ → torch.formOf z = φ →
      f (f x y) z = f x (f y z)
  comm : ∀ x y, torch.formOf x = φ → torch.formOf y = φ → f x y = f y x

variable {torch : Torch V F} {fresh : Prop} {reduce : Reduce A V} {f : Content A V → Content A V → Content A V}
  {forms : List (Option F)} {n : ℕ} {links : List Link} {value : Node n → Nested N S (Leaf A)}
  {mem : Node n → Memory V}

omit [LinearOrder N] [LinearOrder S] in
theorem zipWith_comm_of_forms {xs ys : List (Content A V)} (hf : ∀ φ ∈ forms, CommutesOn torch f φ)
    (hx : xs.map torch.formOf = forms) (hy : ys.map torch.formOf = forms) :
    List.zipWith f xs ys = List.zipWith f ys xs := by
  have hall := alike_of_forms hx hy
  clear hx hy
  induction hall with
  | nil => rfl
  | cons hxy _ ih => rw [List.zipWith_cons_cons, List.zipWith_cons_cons, ih, (hf _ hxy.2).comm _ _ rfl hxy.1.symm]

omit [LinearOrder N] [LinearOrder S] in
theorem zipWith_assoc_of_forms {xs ys zs : List (Content A V)} (hf : ∀ φ ∈ forms, CommutesOn torch f φ)
    (hx : xs.map torch.formOf = forms) (hy : ys.map torch.formOf = forms) (hz : zs.map torch.formOf = forms) :
    List.zipWith f (List.zipWith f xs ys) zs = List.zipWith f xs (List.zipWith f ys zs) := by
  induction forms generalizing xs ys zs with
  | nil =>
    rw [List.map_eq_nil_iff] at hx hy hz
    rw [hx, hy, hz]
    rfl
  | cons φ forms ih =>
    obtain ⟨x, xs, rfl, hxφ, hxs⟩ := List.map_eq_cons_iff.mp hx
    obtain ⟨y, ys, rfl, hyφ, hys⟩ := List.map_eq_cons_iff.mp hy
    obtain ⟨z, zs, rfl, hzφ, hzs⟩ := List.map_eq_cons_iff.mp hz
    simp only [List.zipWith_cons_cons]
    rw [(hf φ List.mem_cons_self).assoc x y z hxφ hyφ hzφ,
      ih (fun ψ hψ => hf ψ (List.mem_cons_of_mem φ hψ)) hxs hys hzs]

variable [One N]

theorem allReduce_eq {ι : Type} {q : Qsort ι} {conn : Conn ι} (numNodes fuel : ℕ)
    (lastValue : Option (Nested N S (Leaf A))) (v : Nested N S (Leaf A)) :
    allReduce torch q conn numNodes (fuel + 1) reduce none lastValue (some v) =
      round torch q conn reduce (wrap (some v)) 0 >>= fun r =>
        pure ⟨if isTable (some v) then some r.1 else first r.1, numNodes - r.2, some r.1, 1⟩ := by
  simp only [allReduce, allReduceInner, prepare, pure_bind, bind_assoc, Option.isSome_none,
    Bool.false_eq_true, false_and, if_false, if_true]
  rfl

/-- What a node returns once its leaves hold `final`. -/
theorem reduced_of_carries {v₀ : Nested N S (Leaf A)} {i : Node n} {final : List (Content A V)}
    (hin : Alike torch value mem forms) (hv₀ : Keyed v₀) (hshape : shape (value i) = shape v₀)
    {v : Nested N S (Leaf A)} {mem' : Memory V} {lastValue : Option (Nested N S (Leaf A))} {rounds : ℕ}
    (h : Carries torch fresh (mem i) (leaves (sorted (value i))) final
      (Template.of (wrap (some v₀)) (keyed_wrap hv₀)) (v, mem')) :
    Reduced fresh (value i) (mem i) n final
      (⟨if isTable (some (value i)) then some v else first v, (n : ℤ) - (0 : ℕ), lastValue, rounds⟩, mem') := by
  obtain ⟨ls, hv, hkept⟩ := h
  have hstart := Template.holds_of_shape (T := Template.of (wrap (some v₀)) (keyed_wrap hv₀))
    (keyed_wrap (hin.keyed i)) (shape_wrap hshape).2
  have hsorted := unwrap_holds hv₀ hv
  rw [← (shape_wrap hshape).1] at hsorted
  obtain ⟨u, hu, husorted⟩ := Option.map_eq_some_iff.mp hsorted
  have hlen : ls.length = (leaves (sorted v₀)).length := by
    rw [hv.length_eq, Template.width, Template.of, leaves_wrap]
  refine ⟨⟨u, hu, ?_, ?_, ?_⟩, by simp, hkept.frame⟩
  · rw [Tree.shape, husorted, blank_refill]
    exact hshape.symm
  · rw [contents, husorted, leaves_refill _ _ hlen, hkept.contents]
  · rw [husorted, leaves_refill _ _ hlen]
    exact hkept.stays

/-- In every interleaving, over any connections, every node ends with the reduction over the
tree. -/
theorem completes_up (hn : 1 ≤ n) (htree : SpanningTree n links) (E : Established n links)
    (q : Qsort (Node n)) (hup : Reduces torch fresh reduce f forms) (hin : Alike torch value mem forms)
    (lastValue : Node n → Option (Nested N S (Leaf A))) (fuel : ℕ)
    {ready : Net (Node n) (Msg (Content A V)) Failure (Outcome N S (Leaf A) × Memory V) → Node n → Node n → Prop}
    (hready : Obliging ready) : CompletesOver ready
      (fun i => (allReduce torch q (E.conn i) n (fuel + 1) reduce none (lastValue i) (some (value i))).run (mem i))
      fun i r => Reduced fresh (value i) (mem i) n ((E.rooted htree hn q).up (List.zipWith f)
        (fun i => contents (mem i) (value i)) (E.rooted htree hn q).root) r := by
  set R := E.rooted htree hn q
  let own : Node n → List (Content A V) × ℕ := fun i => (contents (mem i) (value i), 0)
  let ups := shares R f own
  have hups : ∀ j, (ups j).1.map torch.formOf = forms := by
    intro j
    apply R.subtree_induction (motive := fun a : List (Content A V) × ℕ => a.1.map torch.formOf = forms) hin.forms
    intro a b ha hb
    exact forms_zipWith hup ha hb
  apply completesOver_of_talks R (roundTurns R ups) _ (fun i j => flip_roundTurns R i j)
    (fun i j h => roundTurns_along R h) hready
  intro i
  have hholds := Template.holds_of_shape
    (T := Template.of (wrap (some (value R.root))) (keyed_wrap (hin.keyed R.root)))
    (keyed_wrap (hin.keyed i)) (shape_wrap (hin.shape i R.root)).2
  rw [leaves_wrap] at hholds
  have hround := talks_round hup (E.connOf htree hn q i) (R.up_eq (combine f) own i) hups (hin.forms i)
    ⟨_, hholds, (hin.distinct i).kept (hin.sound i)⟩
  rw [allReduce_eq, StateT.run_bind]
  apply hround.returns
  rintro ⟨⟨v, _⟩, mem'⟩ ⟨hcarries, rfl⟩
  have hzero : (ups R.root).2 = 0 := (shares_snd_root f own).trans (by simp [own])
  refine ⟨_, rfl, ?_⟩
  change Reduced fresh (value i) (mem i) n _ (⟨_, (n : ℤ) - ((ups R.root).2 : ℕ), _, _⟩, _)
  rw [hzero, ← shares_fst f own]
  exact reduced_of_carries hin (hin.keyed R.root) (hin.shape i R.root) hcarries

end

/-! ### Vectors at two nodes -/

def vectors : Torch (List ℕ) ℕ where
  form := List.length
  compact _ := True
  clone v := v
  sameType _ _ := true
  typeAs v _ := v
  resizeAs v w := (v ++ w).take w.length
  read v w := if v.length = w.length then some w else none
  form_clone _ _ := rfl
  sameType_typeAs _ _ := rfl
  compact_typeAs _ _ _ := trivial
  form_resizeAs v w _ _ _ := by simp
  read_eq _ _ h := if_pos h

def addContents : Content ℕ (List ℕ) → Content ℕ (List ℕ) → Content ℕ (List ℕ)
  | .plain a, .plain b => .plain (a + b)
  | .tensor v, .tensor w => .tensor (List.zipWith (· + ·) v w)
  | x, _ => x

/-- `function(a, b) return a + b end`: the sum of tensors is a new one. -/
def add : Reduce ℕ (List ℕ)
  | .plain a, .plain b, mem => (some (.plain (a + b)), mem)
  | .tensor r, .tensor t, mem =>
    let (s, mem) := mem.alloc (List.zipWith (· + ·) (mem.cell r) (mem.cell t))
    (some (.tensor s), mem)
  | _, _, mem => (none, mem)

/-- `function(a, b) return a:add(b) end`, which also adds numbers. -/
def addInPlace : Reduce ℕ (List ℕ)
  | .plain a, .plain b, mem => (some (.plain (a + b)), mem)
  | .tensor r, .tensor t, mem =>
      (some (.tensor r), mem.store r (List.zipWith (· + ·) (mem.cell r) (mem.cell t)))
  | _, _, mem => (none, mem)

theorem form_addContents {φ : Option ℕ} (x y : Content ℕ (List ℕ)) (hx : vectors.formOf x = φ)
    (hy : vectors.formOf y = φ) : vectors.formOf (addContents x y) = φ := by
  subst hx
  cases x <;> cases y <;> simp_all [Torch.formOf, addContents, vectors]

theorem updates_add (φ : Option ℕ) : Updates vectors True add addContents φ where
  form := form_addContents
  apart mem l k hl hk hlr hkr := by
    subst hl
    cases l with
    | plain a =>
      cases k with
      | plain b => exact ⟨.inl rfl, rfl, le_rfl, rfl, fun _ _ => trivial, fun _ _ _ _ => rfl⟩
      | tensor t => simp [Memory.content, Torch.formOf] at hk
    | tensor r =>
      cases k with
      | plain b => simp [Memory.content, Torch.formOf] at hk
      | tensor t =>
        refine ⟨.inr ⟨trivial, _, rfl, le_rfl, Nat.lt_succ_self _⟩, ?_, Nat.le_succ _, rfl, fun _ _ => trivial, ?_⟩
        · simp [add, addContents, Memory.content, Memory.alloc]
        · intro s hs _ _
          exact Function.update_of_ne hs.ne _ _

theorem updates_addInPlace (φ : Option ℕ) : Updates vectors False addInPlace addContents φ where
  form := form_addContents
  apart mem l k hl hk hlr hkr := by
    subst hl
    cases l with
    | plain a =>
      cases k with
      | plain b => exact ⟨.inl rfl, rfl, le_rfl, rfl, fun _ _ => trivial, fun _ _ _ _ => rfl⟩
      | tensor t => simp [Memory.content, Torch.formOf] at hk
    | tensor r =>
      cases k with
      | plain b => simp [Memory.content, Torch.formOf] at hk
      | tensor t =>
        refine ⟨.inl rfl, ?_, le_rfl, rfl, fun _ _ => trivial, fun s _ hs _ => ?_⟩
        · simp [addInPlace, addContents, Memory.content]
        · exact mem.store_cell_of_ne (by simpa [Leaf.ref, eq_comm] using hs) _

def pairValue : Nested ℕ ℕ (Leaf ℕ) :=
  .table [(.num 1, .leaf (.tensor 0)), (.num 2, .leaf (.plain 5))]

def pairMemory (i : Node 2) : Memory (List ℕ) := ⟨fun _ => [i.1, 10 * i.1], 1, none⟩

theorem leaves_pairValue : leaves (sorted pairValue) = [.tensor 0, .plain 5] := by decide

theorem alike_pair : Alike vectors (fun _ => pairValue) pairMemory [some 2, none] where
  keyed _ := by simp [pairValue, Keyed, KeyedEntries, oneKind, Key.isNum]
  shape _ _ := rfl
  sound _ t ht := by simp [pairMemory] at ht
  distinct i := by
    rw [leaves_pairValue]
    exact ⟨by decide, by simp [refs, Leaf.ref, pairMemory]⟩
  forms i := rfl

def Content.size : Content ℕ (List ℕ) → ℕ
  | .plain a => a
  | .tensor v => v.headD 0

def largerContent (x y : Content ℕ (List ℕ)) : Content ℕ (List ℕ) :=
  if x.size < y.size then y else x

/-- `function(a, b) if a[1] < b[1] then return b else return a end end`. -/
def larger : Reduce ℕ (List ℕ) := fun l k mem =>
  (some (if (mem.content l).size < (mem.content k).size then k else l), mem)

/-- Node `1` has `[1]`, and its children have `[9]` and `[5]`. -/
def starNumber (i : Node 3) : ℕ := if i.1 = 1 then 1 else if i.1 = 2 then 9 else 5

def starMemory (i : Node 3) : Memory (List ℕ) := ⟨fun _ => [starNumber i], 1, none⟩

/-- The children send `up`, and node `1` answers with `down`. -/
def starTurns (up : Node 3 → List (Msg (Content ℕ (List ℕ)))) (down : List (Msg (Content ℕ (List ℕ)))) (i j : Node 3) :
    List (Turn (Msg (Content ℕ (List ℕ)))) :=
  if i.1 = j.1 then []
  else if i.1 = 1 then (up j).map .hear ++ down.map .say
  else if j.1 = 1 then (up i).map .say ++ down.map .hear
  else []

def firstRound : Node 3 → Node 3 → List (Turn (Msg (Content ℕ (List ℕ)))) :=
  starTurns (fun c => [.leaf (.tensor [starNumber c]), .count 0]) [.leaf (.tensor [5]), .count 0]

theorem talks_star (i : Node 3) :
    Talks (fun r : Outcome ℕ ℕ (Leaf ℕ) × Memory (List ℕ) => r.1.value.map (contents r.2) = some [.tensor [5]])
      ((allReduce vectors (Qsort.insertion (Node 3)) (Established.star.conn i) 3 1 larger none none
        (some (.leaf (.tensor 0)))).run (starMemory i)) (firstRound i) := by
  revert i
  decide +kernel

theorem larger_pure (l k : Leaf ℕ) (mem : Memory (List ℕ)) : (larger l k mem).2 = mem ∧
    (larger l k mem).1.map mem.content = some (largerContent (mem.content l) (mem.content k)) := by
  refine ⟨rfl, ?_⟩
  simp only [larger, largerContent, Option.map_some]
  split_ifs <;> rfl

end TorchIpc.Tree.InPlace
