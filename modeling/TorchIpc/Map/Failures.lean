import TorchIpc.Map.Fates

/-! A map with threads that fail. `join` takes for the message the first value that was left
from the last failed thread on, which is the message only if that thread had read all of its
arguments and none of its results is in front. -/

namespace TorchIpc.Map

open Runs

section
variable {P : Type} (lua : Lua P) (numberText : Value P → List UInt8)

def isOk : End → Bool
  | .ok => true
  | _ => false

def Fate.refused (t : Fate P) : Option (Value P) :=
  t.values.find? fun v => !isOk (script lua false false v).fin

/-- A userdata that could not be retained has been written all the same. -/
def writtenAnyway : Value P → List (Value P)
  | .userdata .none _ => []
  | .userdata typename ptr => [.userdata typename ptr]
  | _ => []

def Fate.left (t : Fate P) : List (Value P) :=
  (t.unread ++ t.values.takeWhile fun v => isOk (script lua false false v).fin).map Value.received ++
    (t.refused lua).toList.flatMap writtenAnyway

def Fate.Failed (t : Fate P) : Prop := t.code ≠ 0 ∨ t.refused lua ≠ none

def Fate.cut (t : Fate P) : List (Value P) :=
  match t.refused lua with
  | some (.table es typename) => [.table es typename]
  | _ => []

def Fate.CutOff (t : Fate P) : Prop := ∃ es typename, t.refused lua = some (.table es typename)

/-- What is loaded from the buffer, as far as it goes. -/
def Fate.loaded (t : Fate P) : List (Value P) := t.left lua ++ t.cut lua

/-- What is loaded from the buffers of all threads. -/
def allLoaded (fates : ℕ → Fate P) (n : ℕ) : List (Value P) :=
  (List.range n).flatMap fun i => (fates i).loaded lua

/-- The message of a failed thread: the error, or the text for the code of the refusal. -/
def Fate.message (strerror : Errno → List UInt8) (t : Fate P) : Option (List UInt8) :=
  if t.code ≠ 0 then t.values.head?.bind (luaTostring numberText)
  else
    match t.refused lua with
    | some v =>
      match (script lua false false v).fin with
      | .code e _ => some (strerror e)
      | _ => none
    | none => none

/-- The text has the message of a failed thread in it. -/
def NamesFailure (strerror : Errno → List UInt8) (fates : ℕ → Fate P) (n : ℕ) (text : List UInt8) :
    Prop :=
  ∃ i < n, (fates i).Failed lua ∧ ∃ m, (fates i).message lua numberText strerror = some m ∧
    m <:+: text

/-- `join` raises an error with such a text. -/
def Surfaces (strerror : Errno → List UInt8) (fates : ℕ → Fate P) (n : ℕ) (threads : List MapThread)
    (stack : List (Value P)) : Prop :=
  ∃ text, Yields (mapJoin lua numberText threads stack) (.error (some text) []) ∧
    NamesFailure lua numberText strerror fates n text

/-- The first value that the threads from `j` on have left. -/
def firstLeft (fates : ℕ → Fate P) (j n : ℕ) : Option (Value P) :=
  ((List.range' j (n - j)).flatMap fun i => (fates i).left lua).head?

/-- That value is a text with the message of a failed thread in it. -/
def FirstNames (strerror : Errno → List UInt8) (fates : ℕ → Fate P) (j n : ℕ) : Prop :=
  ∃ v text, firstLeft lua fates j n = some v ∧ luaTostring numberText v = some text ∧
    NamesFailure lua numberText strerror fates n text

end

section
variable {P : Type} {lua : Lua P} {numberText : Value P → List UInt8}

theorem isOk_iff {e : End} : isOk e = true ↔ e = .ok := by
  cases e <;> simp [isOk]

/-! ### What a thread leaves -/

/-- The buffer ends in the middle of this table, behind these values. -/
def Broken (lua : Lua P) (rb : Ringbuffer) (vs : List (Value P)) (v : Value P) : Prop :=
  ∃ bs cs, Holds rb (bs ++ cs) ∧ LoadsAll lua bs vs ∧ cs ≠ [] ∧ StuckIn lua (v.slots lua) cs

theorem refused_cases (hl : lua.Rebuilds) {v : Value P} (hwf : v.Wf lua) {e : Errno} {place : Place}
    (hfin : (script lua false false v).fin = .code e place) (hplace : place ≠ .key) :
    (∃ es typename, v = .table es typename ∧ encode lua false false v ≠ [] ∧
      StuckIn lua (v.slots lua) (encode lua false false v)) ∨
      (∀ es typename, v ≠ .table es typename) ∧
      LoadsAll lua (encode lua false false v) (writtenAnyway v) := by
  cases v with
  | table es typename =>
    have hne : encode lua false false (.table es typename) ≠ [] := by
      rw [encode, script, tableScript, seq_bytes rfl]
      exact List.cons_ne_nil _ _
    cases script_truncatedIn hl _ hwf hfin hplace with
    | nothing hbs => exact absurd hbs hne
    | table hstuck => exact Or.inl ⟨es, typename, rfl, hne, hstuck⟩
  | userdata typename ptr =>
    refine Or.inr ⟨by rintro _ _ ⟨⟩, ?_⟩
    obtain ⟨hk, hptr⟩ : lua.Knows typename ∧ typename.MayHold ptr := hwf _ (Value.self_mem_parts _)
    by_cases hne : typename = .none
    · subst hne
      exact .nil
    obtain ⟨tag, -, hbytes⟩ := userdataScript_bytes lua hne ptr
    have hbs : encode lua false false (.userdata typename ptr) ≠ [] := by
      rw [encode, script, hbytes]
      exact List.cons_ne_nil _ _
    have hloads := LoadsAll.cons hbs (loadsIn_userdataBytes false hk hne hptr) .nil
    have hwritten : writtenAnyway (.userdata typename ptr : Value P) =
        [.userdata typename ptr] := by
      cases typename with
      | none => exact absurd rfl hne
      | torch name => rfl
      | metatable name => rfl
    rwa [List.append_nil, ← hwritten] at hloads
  | function p ups =>
    have hups : ups.length = (lua.upvalueNames p).length := hwf _ (Value.self_mem_parts _)
    exact absurd hfin (functionScript_not_code hups e place)
  | lightuserdata => exact Or.inr ⟨by rintro _ _ ⟨⟩, .nil⟩
  | thread => exact Or.inr ⟨by rintro _ _ ⟨⟩, .nil⟩
  | _ => cases hfin

theorem find?_takeWhile_append {α : Type} {p : α → Bool} {us : List α} {v : α} (ws : List α)
    (hus : ∀ u ∈ us, p u = true) (hv : p v = false) :
    ((us ++ v :: ws).find? fun a => !p a) = some v ∧ (us ++ v :: ws).takeWhile p = us := by
  induction us with
  | nil => simp [hv]
  | cons u us ih =>
    obtain ⟨hu, hus⟩ := List.forall_mem_cons.mp hus
    simpa [hu] using ih hus

/-- The buffer and the field `ret` of a thread that has stopped. -/
theorem fate_ends (hl : lua.Rebuilds) {t : Fate P} (hwf : ∀ v ∈ t.values, v.Wf lua) {w : Worker P}
    {fuel : ℕ} {fx fx' : Effects} {ret : ℤ} {calls calls' : List (Value P × List (Value P))}
    (hrb : Carries lua fx.rb t.unread)
    (hend : endThread lua w fuel t.code t.values fx calls = .finished ret fx' calls') :
    (ret ≠ 0 ↔ t.Failed lua) ∧ (¬ t.CutOff lua → Left lua fx'.rb (t.left lua)) ∧
      (t.CutOff lua → ∃ v, t.cut lua = [v] ∧ Broken lua fx'.rb (t.left lua) v) := by
  have hunread : LoadsAll lua fx.rb.content (t.unread.map Value.received) := by
    rw [hrb.content_eq]
    exact loadsAll_encode hl hrb.wf hrb.ok
  have hspec : ValuesSaved lua t.values (w.base.length + t.values.length) fx
      (saveValues lua fuel t.values (w.base.length + 1) (w.base.length + t.values.length) fx) :=
    saveValues_spec hrb.valid (by omega)
  rw [endThread] at hend
  generalize saveValues lua fuel t.values (w.base.length + 1) (w.base.length + t.values.length) fx =
    o at hend hspec
  cases hspec with
  | @stored fx₁ hall hv hcontent =>
    simp only [if_true] at hend
    cases hend
    have hok : ∀ v ∈ t.values, isOk (script lua false false v).fin = true :=
      fun v hv => isOk_iff.mpr (hall v hv)
    have hnone : t.refused lua = none := List.find?_eq_none.mpr fun v hv => by simp [hok v hv]
    have hcut : ¬ t.CutOff lua := by
      rintro ⟨es, typename, hsome⟩
      rw [hnone] at hsome
      cases hsome
    refine ⟨by rw [Fate.Failed, hnone]; simp, fun _ => ⟨Or.inl hv, ?_⟩, fun h => absurd h hcut⟩
    rw [Fate.left, hnone, List.takeWhile_eq_self_iff.mpr hok, hcontent, List.map_append, Option.toList_none,
      List.flatMap_nil, List.append_nil]
    exact hunread.append (loadsAll_encode hl hwf hall)
  | @refused us v ws e place fx₁ top' hvs hall hfin hplace hsound hcontent =>
    have hne : ¬ -e.toInt = 0 := by cases e <;> decide
    simp only [if_neg hne] at hend
    cases hend
    have hok : ∀ u ∈ us, isOk (script lua false false u).fin = true :=
      fun u hu => isOk_iff.mpr (hall u hu)
    have hbad : isOk (script lua false false v).fin = false := by rw [hfin]; rfl
    have hfound := find?_takeWhile_append ws (p := fun u => isOk (script lua false false u).fin) hok hbad
    rw [← hvs] at hfound
    obtain ⟨hsome, htake⟩ : t.refused lua = some v ∧ _ := hfound
    have hwfs : ∀ u ∈ us ++ v :: ws, u.Wf lua := hvs ▸ hwf
    have hbefore : LoadsAll lua (fx.rb.content ++ us.flatMap (encode lua false false))
        ((t.unread ++ us).map Value.received) := by
      rw [List.map_append]
      exact hunread.append (loadsAll_encode hl (fun u hu => hwfs u (List.mem_append_left _ hu)) hall)
    refine ⟨by rw [Fate.Failed, hsome]; simp [hne], fun hcut => ⟨hsound, ?_⟩, ?_⟩
    · rcases refused_cases hl (hwfs v (List.mem_append_right _ List.mem_cons_self)) hfin hplace with
        ⟨es, typename, rfl, -, -⟩ | ⟨-, hwritten⟩
      · exact absurd ⟨es, typename, hsome⟩ hcut
      · rw [Fate.left, htake, hsome, hcontent, Option.toList_some, List.flatMap_singleton]
        exact hbefore.append hwritten
    · rintro ⟨es, typename, htable⟩
      obtain rfl : v = .table es typename := Option.some.inj (hsome.symm.trans htable)
      rcases refused_cases hl (hwfs _ (List.mem_append_right _ List.mem_cons_self)) hfin hplace with
        ⟨_, _, -, hnonempty, hstuck⟩ | ⟨hno, -⟩
      · have hv : fx'.rb.Valid := hsound.valid (by
          rw [hcontent]
          exact List.append_ne_nil_of_right_ne_nil _ hnonempty)
        have hleft : t.left lua = (t.unread ++ us).map Value.received := by
          rw [Fate.left, htake, hsome]
          exact List.append_nil _
        refine ⟨_, by rw [Fate.cut, hsome], _, _, ⟨hv, hcontent⟩, hleft ▸ hbefore, hnonempty, hstuck⟩
      · exact absurd rfl (hno es typename)
  | @ended o hne =>
    cases o with
    | ret code fx₁ top' => exact absurd rfl (hne code fx₁ top')
    | _ => cases hend

/-! ### What `join` makes of it -/

theorem Broken.drain {rb : Ringbuffer} {vs : List (Value P)} {v : Value P} (h : Broken lua rb vs v)
    (checked : Bool) (count : ℕ) {stack : List (Value P)} (hfit : FitsOn lua stack.length (vs ++ [v])) :
    ∃ n, ∀ fuel ≥ n, ∀ count' rb' stack', drainLoop lua checked fuel count rb stack ≠
      .loaded count' rb' stack' := by
  obtain ⟨bs, cs, hrb, hloads, hne, m, hstuck⟩ := h
  obtain ⟨hvs, hv, -⟩ := fitsOn_append.mp hfit
  obtain ⟨rb₁, n, h₁, -, hn⟩ := hloads.drain checked cs hrb count hvs
  refine ⟨max n m + 1 + vs.length, fun fuel hf count' rb' stack' => ?_⟩
  obtain ⟨fuel, rfl⟩ : ∃ k, fuel = k + 1 + vs.length := ⟨fuel - 1 - vs.length, by omega⟩
  have hheight : (vs.reverse ++ stack).length = stack.length + vs.length := by
    rw [List.length_append, List.length_reverse, Nat.add_comm]
  have hload := hstuck rb₁ h₁ fuel (by omega) false (vs.reverse ++ stack) (by rwa [hheight])
  rw [hn (fuel + 1) (by omega), drainLoop, if_neg (peek_ne_zero h₁ hne), rbLoadIn]
  generalize rbLoadRcsvIn lua (some lua.stackRoom) fuel false rb₁ (vs.reverse ++ stack) = o at hload
  cases o with
  | ret => exact absurd trivial hload
  | _ => rintro ⟨⟩

theorem joinEnd_some (numberText : Value P → List UInt8) (errRc : ℕ) (vs stack : List (Value P)) :
    joinEnd numberText (errRc + vs.length) (some errRc) (vs.reverse ++ stack) =
      match vs.head? with
      | some v => .error (luaTostring numberText v) []
      | none => .badIndex [] := by
  cases vs with
  | nil => exact if_pos le_rfl
  | cons v vs =>
    have hindex : errRc + (v :: vs).length - errRc - 1 = vs.reverse.length := by
      rw [List.length_cons, List.length_reverse]
      omega
    have hfirst : ((v :: vs).reverse ++ stack)[errRc + (v :: vs).length - errRc - 1]? = some v := by
      rw [hindex, List.reverse_cons, List.append_assoc, List.getElem?_append_right le_rfl, Nat.sub_self]
      rfl
    have hlt : ¬ errRc + (v :: vs).length ≤ errRc := by
      rw [List.length_cons]
      omega
    rw [joinEnd, if_neg hlt, hfirst]
    rfl

/-- With the last failed thread in front of threads that did not fail, `join` takes the
first value that is left. -/
theorem join_text (numberText : Value P → List UInt8) {before after : List MapThread} {t : MapThread}
    {uss vss : List (List (Value P))} {us : List (Value P)} (hbefore : List.Forall₂ (HasLeft lua) before uss)
    (ht : HasLeft lua t us) (hafter : List.Forall₂ (HasLeft lua) after vss) (hret : t.ret ≠ 0)
    (hzero : ∀ t ∈ after, t.ret = 0) {stack : List (Value P)}
    (hfit : FitsOn lua stack.length (uss.flatten ++ (us ++ vss.flatten))) :
    Yields (mapJoin lua numberText (before ++ t :: after) stack)
      (match (us ++ vss.flatten).head? with
      | some v => .error (luaTostring numberText v) []
      | none => .badIndex []) := by
  obtain ⟨hfitBefore, hfit⟩ := fitsOn_append.mp hfit
  obtain ⟨hfitThread, hfitAfter⟩ := fitsOn_append.mp hfit
  have hheight : (uss.flatten.reverse ++ stack).length = stack.length + uss.flatten.length := by
    rw [List.length_append, List.length_reverse, Nat.add_comm]
  have hheight' : (us.reverse ++ (uss.flatten.reverse ++ stack)).length =
      stack.length + uss.flatten.length + us.length := by
    rw [List.length_append, List.length_reverse, hheight, Nat.add_comm]
  obtain ⟨before₁, errRc₁, n, hn, -⟩ :=
    joinLoop_left numberText hbefore (t :: after) [] 0 none hfitBefore
  obtain ⟨hjoined, rb, hlive, hleft⟩ := ht
  obtain ⟨rb', k, hk⟩ := Left.drain hleft false uss.flatten.length (hheight.symm ▸ hfitThread)
  obtain ⟨before₂, errRc₂, m, hm, herr⟩ :=
    joinLoop_left numberText hafter [] (before₁ ++ [⟨t.ret, .destroyed, true⟩])
    (uss.flatten.length + us.length) (some uss.flatten.length) (hheight'.symm ▸ hfitAfter)
  refine ⟨max n (max k m), fun fuel hf => ?_⟩
  have hdrain : drainLoop lua false fuel uss.flatten.length rb (uss.flatten.reverse ++ stack) =
      .loaded (uss.flatten.length + us.length) rb' (us.reverse ++ (uss.flatten.reverse ++ stack)) :=
        hk fuel (by omega)
  rw [mapJoin, hn fuel (by omega), Nat.zero_add]
  simp only [joinLoop, hlive, hjoined, Bool.false_eq_true, if_false, hdrain, if_pos hret]
  have hlast := hm fuel (by omega)
  rw [List.append_nil] at hlast
  rw [hlast, joinLoop, herr hzero, Nat.add_assoc, ← List.length_append, ← List.append_assoc, ← List.reverse_append]
  exact joinEnd_some numberText _ _ _

/-! ### Whole maps -/

/-- A thread that has stopped according to its fate. -/
structure MapThread.Met (lua : Lua P) (t : MapThread) (a : Fate P) : Prop where
  joined : t.joined = false
  failed : t.ret ≠ 0 ↔ a.Failed lua
  buffer : ∃ rb, t.rb = .live rb ∧ (¬ a.CutOff lua → Left lua rb (a.left lua)) ∧
    (a.CutOff lua → ∃ v, a.cut lua = [v] ∧ Broken lua rb (a.left lua) v)

theorem MapThread.Met.hasLeft {t : MapThread} {a : Fate P} (h : t.Met lua a) (hcut : ¬ a.CutOff lua) :
    HasLeft lua t (a.left lua) := by
  obtain ⟨rb, hlive, hleft, -⟩ := h.buffer
  exact ⟨h.joined, rb, hlive, hleft hcut⟩

theorem forall₂_hasLeft {fates : ℕ → Fate P} {ts : List MapThread} (k : ℕ)
    (h : ∀ (i : ℕ) t, ts[i]? = some t → t.Met lua (fates (k + i)) ∧ ¬ (fates (k + i)).CutOff lua) :
    List.Forall₂ (HasLeft lua) ts ((List.range' k ts.length).map fun i => (fates i).left lua) := by
  induction ts generalizing k with
  | nil => exact .nil
  | cons t ts ih =>
    rw [List.length_cons, List.range'_succ, List.map_cons]
    have hfirst := h 0 t rfl
    refine .cons (hfirst.1.hasLeft hfirst.2) (ih (k + 1) fun i u hu => ?_)
    have hnext := h (i + 1) u hu
    rwa [← Nat.add_assoc, Nat.add_right_comm] at hnext

variable {fates : ℕ → Fate P} {threads : List MapThread} {j : ℕ}

theorem Fate.loaded_eq {t : Fate P} (hcut : ¬ t.CutOff lua) : t.loaded lua = t.left lua := by
  have hnone : t.cut lua = [] := by
    rw [Fate.cut]
    split
    · exact absurd ⟨_, _, ‹_›⟩ hcut
    · rfl
  rw [Fate.loaded, hnone, List.append_nil]

/-- What the threads have left, one after the other. -/
theorem flatten_left (lua : Lua P) (fates : ℕ → Fate P) (k n : ℕ)
    (hcut : ∀ i, k ≤ i → i < k + n → ¬ (fates i).CutOff lua) :
    ((List.range' k n).map fun i => (fates i).left lua).flatten = (List.range' k n).flatMap fun i =>
      (fates i).loaded lua := by
  rw [← List.flatMap_def]
  refine List.flatMap_congr fun i hi => ?_
  obtain ⟨hk, hlt⟩ := List.mem_range'_1.mp hi
  exact (Fate.loaded_eq (hcut i hk hlt)).symm

theorem allLoaded_split (lua : Lua P) (fates : ℕ → Fate P) {j n : ℕ} (hj : j < n) :
    allLoaded lua fates n = ((List.range' 0 j).flatMap fun i => (fates i).loaded lua) ++ ((fates j).loaded lua ++
      (List.range' (j + 1) (n - (j + 1))).flatMap fun i => (fates i).loaded lua) := by
  obtain ⟨k, rfl⟩ : ∃ k, n = j + (1 + k) := ⟨n - j - 1, by omega⟩
  have hk : j + (1 + k) - (j + 1) = k := by omega
  rw [allLoaded, List.range_eq_range', ← List.range'_append_1, List.flatMap_append, ← List.range'_append_1,
    List.flatMap_append, hk, Nat.zero_add, List.range'_one, List.flatMap_singleton]

/-- If no table is cut off, `join` raises the first value that is left from the last failed
thread on. -/
theorem join_firstLeft (numberText : Value P → List UInt8)
    (hmet : ∀ (i : ℕ) t, threads[i]? = some t → t.Met lua (fates i))
    (hcut : ∀ i < threads.length, ¬ (fates i).CutOff lua) (hj : j < threads.length) (hfailed : (fates j).Failed lua)
    (hlast : ∀ i, j < i → i < threads.length → ¬ (fates i).Failed lua) {stack : List (Value P)}
    (hfit : FitsOn lua stack.length (allLoaded lua fates threads.length)) :
    Yields (mapJoin lua numberText threads stack)
      (match firstLeft lua fates j threads.length with
      | some v => .error (luaTostring numberText v) []
      | none => .badIndex []) := by
  have hlt : ∀ {i : ℕ} {t}, threads[i]? = some t → i < threads.length := fun hi =>
    (List.getElem?_eq_some_iff.mp hi).1
  have hmetj : threads[j].Met lua (fates j) := hmet j _ (List.getElem?_eq_getElem hj)
  have hbefore := @forall₂_hasLeft P lua fates (threads.take j) 0 fun i t hi => by
    rw [List.getElem?_take] at hi
    split_ifs at hi
    rw [Nat.zero_add]
    exact ⟨hmet i t hi, hcut i (hlt hi)⟩
  have hafter := @forall₂_hasLeft P lua fates (threads.drop (j + 1)) (j + 1) fun i t hi => by
    rw [List.getElem?_drop] at hi
    exact ⟨hmet _ t hi, hcut _ (hlt hi)⟩
  have hzero : ∀ t ∈ threads.drop (j + 1), t.ret = 0 := by
    intro t ht
    obtain ⟨i, hi⟩ := List.mem_iff_getElem?.mp ht
    rw [List.getElem?_drop] at hi
    by_contra hret
    exact hlast _ (by omega) (hlt hi) ((hmet _ t hi).failed.mp hret)
  have htake : (threads.take j).length = j := List.length_take_of_le hj.le
  have hdrop : (threads.drop (j + 1)).length = threads.length - (j + 1) := List.length_drop
  rw [allLoaded_split lua fates hj, Fate.loaded_eq (hcut j hj)] at hfit
  rw [htake] at hbefore
  rw [hdrop] at hafter
  rw [← flatten_left lua fates 0 j fun i _ hi => hcut i (by omega), ← flatten_left lua fates (j + 1) _ fun i _ hi =>
    hcut i (by omega)] at hfit
  have hjoin := join_text numberText hbefore (hmetj.hasLeft (hcut j hj)) hafter (hmetj.failed.mpr hfailed) hzero hfit
  rw [List.cons_getElem_drop_succ, List.take_append_drop] at hjoin
  have hcount : threads.length - j = threads.length - (j + 1) + 1 := by omega
  rw [firstLeft, hcount, List.range'_succ, List.flatMap_cons, List.flatMap_def]
  exact hjoin

/-- If there is no slot for a value, `join` does not return. -/
theorem join_full (numberText : Value P → List UInt8)
    (hmet : ∀ (i : ℕ) t, threads[i]? = some t → t.Met lua (fates i))
    (hcut : ∀ i < threads.length, ¬ (fates i).CutOff lua) {stack us : List (Value P)} {v : Value P}
    {ws : List (Value P)} (hall : allLoaded lua fates threads.length = us ++ v :: ws)
    (hfit : FitsOn lua stack.length us) (hfull : lua.stackRoom ≤ stack.length + us.length) :
    Yields (mapJoin lua numberText threads stack) .timeout := by
  have hleft := @forall₂_hasLeft P lua fates threads 0 fun i t hi => by
    rw [Nat.zero_add]
    exact ⟨hmet i t hi, hcut i (List.getElem?_eq_some_iff.mp hi).1⟩
  rw [allLoaded, List.range_eq_range', ← flatten_left lua fates 0 _ fun i _ hi => hcut i (by omega)] at hall
  exact joinLoop_full numberText hleft [] 0 none hall hfit hfull

/-- If a table is cut off, `join` raises no such error. -/
theorem join_cutOff (numberText : Value P → List UInt8)
    (hmet : ∀ (i : ℕ) t, threads[i]? = some t → t.Met lua (fates i))
    (hcut : ∃ i < threads.length, (fates i).CutOff lua) {stack : List (Value P)}
    (hfit : FitsOn lua stack.length (allLoaded lua fates threads.length)) (text : Option (List UInt8)) :
    ¬ Yields (mapJoin lua numberText threads stack) (.error text []) := by
  classical
  obtain ⟨hi, hcuti⟩ := Nat.find_spec hcut
  have hfirst : ∀ k < Nat.find hcut, ¬ (fates k).CutOff lua := fun k hk hcutk =>
    Nat.find_min hcut hk ⟨hk.trans hi, hcutk⟩
  generalize Nat.find hcut = i at hi hcuti hfirst
  have hmeti : threads[i].Met lua (fates i) := hmet i _ (List.getElem?_eq_getElem hi)
  have hbefore := @forall₂_hasLeft P lua fates (threads.take i) 0 fun k t hk => by
    rw [List.getElem?_take] at hk
    split_ifs at hk with hki
    rw [Nat.zero_add]
    exact ⟨hmet k t hk, hfirst k hki⟩
  rw [List.length_take_of_le hi.le] at hbefore
  obtain ⟨rb, hlive, -, hbroken⟩ := hmeti.buffer
  obtain ⟨v, hv, hbroken⟩ := hbroken hcuti
  rw [allLoaded_split lua fates hi, ← flatten_left lua fates 0 i fun k _ hk => hfirst k (by omega),
    Fate.loaded, hv] at hfit
  obtain ⟨hfitBefore, hfit⟩ := fitsOn_append.mp hfit
  obtain ⟨before', errRc', n, hn, -⟩ :=
    joinLoop_left numberText hbefore (threads[i] :: threads.drop (i + 1)) [] 0
    none hfitBefore
  rw [List.cons_getElem_drop_succ, List.take_append_drop] at hn
  generalize (List.map (fun i => (fates i).left lua) (List.range' 0 i)).flatten = vs at hn hfit
  have hheight : (vs.reverse ++ stack).length = stack.length + vs.length := by
    rw [List.length_append, List.length_reverse, Nat.add_comm]
  obtain ⟨m, hm⟩ := hbroken.drain false (0 + vs.length) (hheight.symm ▸ (fitsOn_append.mp hfit).1)
  rintro ⟨k, hk⟩
  have hjoin := hk (max k (max n m)) (by omega)
  have hdrain := hm (max k (max n m)) (by omega)
  rw [mapJoin, hn _ (by omega), List.drop_eq_getElem_cons hi] at hjoin
  simp only [joinLoop, hlive, hmeti.joined, Bool.false_eq_true, if_false] at hjoin
  generalize drainLoop lua false (max k (max n m)) (0 + vs.length) rb (vs.reverse ++ stack) =
    o at hjoin hdrain
  cases o with
  | loaded count rb' stack' => exact hdrain count rb' stack' rfl
  | _ => cases hjoin

theorem firstLeft_eq (lua : Lua P) (fates : ℕ → Fate P) {n : ℕ} (hj : j < n) :
    firstLeft lua fates j n =
      ((fates j).left lua ++ (List.range' (j + 1) (n - (j + 1))).flatMap fun i => (fates i).left lua).head? := by
  have hcount : n - j = n - (j + 1) + 1 := by omega
  rw [firstLeft, hcount, List.range'_succ, List.flatMap_cons]

/-- The error of the function is the first value. -/
theorem firstNames_of_function (numberText : Value P → List UInt8) (strerror : Errno → List UInt8)
    {n : ℕ} (hj : j < n) {msg : List UInt8} (hfate : fates j = ⟨[], LUA_ERRRUN, [.string msg]⟩) :
    FirstNames lua numberText strerror fates j n := by
  have hleft : (fates j).left lua = [.string msg] := by
    rw [hfate]
    rfl
  refine ⟨.string msg, cstr msg, ?_, rfl, j, hj, ?_, cstr msg, ?_, List.infix_rfl⟩
  · rw [firstLeft_eq lua fates hj, hleft]
    rfl
  · rw [hfate]
    exact Or.inl (show LUA_ERRRUN ≠ 0 by decide)
  · rw [hfate]
    rfl

/-- An argument that is no text is the first value. -/
theorem not_firstNames_of_unread {strerror : Errno → List UInt8} {n : ℕ} (hj : j < n) {g e : Value P}
    {vs : List (Value P)} (hfate : fates j = ⟨g :: vs, LUA_ERRRUN, [e]⟩)
    (hg : luaTostring numberText g.received = none) :
    ¬ FirstNames lua numberText strerror fates j n := by
  rintro ⟨v, text, hfirst, htext, -⟩
  rw [firstLeft_eq lua fates hj, hfate, Fate.left, List.cons_append, List.map_cons] at hfirst
  cases hfirst
  rw [hg] at htext
  cases htext

section
variable {init : Option (Value P)} {f : Value P} {args : List (Value P)} {w : ℕ → Worker P} {n : ℕ}
  {s : MapState P}

theorem MapInv.met (hl : lua.Rebuilds) (h : MapInv lua numberText init f args w n s)
    (hvalues : ∀ i, ∀ v ∈ (mapFates lua init f args w i).values, v.Wf lua)
    (hthreads : s.slots.map Slot.thread = threads.map some) :
    threads.length = n ∧ ∀ (i : ℕ) t, threads[i]? = some t →
      t.Met lua (mapFates lua init f args w i) := by
  have hlen : threads.length = n := by
    have hmap := congrArg List.length hthreads
    rwa [List.length_map, List.length_map, h.length, eq_comm] at hmap
  refine ⟨hlen, fun i t hi => ?_⟩
  have hslot := congrArg (fun l => l[i]?) hthreads
  simp only [List.getElem?_map, hi, Option.map_some] at hslot
  obtain ⟨slot, hget, hthread⟩ := Option.map_eq_some_iff.mp hslot
  cases slot with
  | running fx => cases hthread
  | ended ret fx calls =>
    cases hthread
    obtain ⟨fx₀, hfx₀, hy⟩ := h.ended i ret fx calls hget
    have hreads := ((threadBody_ends_iff hl hfx₀).mp ⟨_, _, _, hy⟩).1
    obtain ⟨m, hm⟩ := hy
    obtain ⟨rb, calls₁, k, hrb, -, hbody⟩ := threadBody_fate hl hfx₀ hreads
    have hend := (hbody (max m k) (by omega)).symm.trans (hm (max m k) (by omega))
    have hunread : Carries lua ({ fx₀ with rb := rb } : Effects).rb (mapFates lua init f args w i).unread := hrb
    obtain ⟨hfailed, hleft, hcut⟩ := fate_ends hl (hvalues i) hunread hend
    exact ⟨rfl, hfailed, fx.rb, rfl, hleft, hcut⟩

/-- Every thread works on the buffer that it was given, until it ends; and what aborts the
process is one of them. -/
structure Progress (body : ℕ → Effects → ℕ → ThreadOutcome P) (fxs : List Effects) (s : MapState P) : Prop where
  thread : ∀ (i : ℕ) fx, fxs[i]? = some fx → s.slots[i]? = some (.running fx) ∨ ∃ ret fx' calls,
    s.slots[i]? = some (.ended ret fx' calls) ∧ Yields (body i fx) (.finished ret fx' calls)
  given : ∀ (i : ℕ) fx, s.slots[i]? = some (.running fx) → fxs[i]? = some fx
  aborted : s.aborted = true → ∃ (i : ℕ) (fx : Effects), fxs[i]? = some fx ∧
      Yields (body i fx) .panicked

theorem Progress.step {body : ℕ → Effects → ℕ → ThreadOutcome P} {fxs : List Effects} {s s' : MapState P}
    (h : Progress body fxs s) {e : MapEvent P} (hstep : MapStep lua numberText body s e s') :
    Progress body fxs s' := by
  cases hstep with
  | aborts _ hslot hy => exact ⟨h.thread, h.given, fun _ => ⟨_, _, h.given _ _ hslot, hy⟩⟩
  | join => exact ⟨h.thread, h.given, h.aborted⟩
  | @ends i fx ret fx' calls _ hslot hy =>
    have hlt := (List.getElem?_eq_some_iff.mp hslot).1
    refine ⟨fun j fx₁ hj => ?_, fun j fx₁ hj => ?_, h.aborted⟩
    · by_cases hij : i = j
      · subst hij
        obtain rfl : fx = fx₁ := Option.some.inj ((h.given i fx hslot).symm.trans hj)
        exact Or.inr ⟨ret, fx', calls, List.getElem?_set_self hlt, hy⟩
      · simp only [List.getElem?_set_ne hij]
        exact h.thread j fx₁ hj
    · by_cases hij : i = j
      · subst hij
        rw [List.getElem?_set_self hlt] at hj
        cases hj
      · rw [List.getElem?_set_ne hij] at hj
        exact h.given j fx₁ hj

theorem progress_of_run {body : ℕ → Effects → ℕ → ThreadOutcome P} {fxs : List Effects} {es : List (MapEvent P)}
    {s : MapState P} (hrun : Run (MapStep lua numberText body) (.start fxs) es s) :
    Progress body fxs s := by
  have hstart : Progress body fxs (MapState.start fxs) := by
    refine ⟨fun i fx hi => Or.inl ?_, fun i fx hi => ?_, nofun⟩
    · rw [MapState.start, List.getElem?_map, hi]
      rfl
    · rw [MapState.start, List.getElem?_map] at hi
      obtain ⟨fx₀, hfx₀, heq⟩ := Option.map_eq_some_iff.mp hi
      cases heq
      exact hfx₀
  exact hrun.invariant (I := fun _ s => Progress body fxs s) hstart fun _ _ _ _ h hstep =>
    h.step hstep

/-- As long as a thread has not ended, `join` does not return. -/
theorem MapInv.not_joined (h : MapInv lua numberText init f args w n s) {i : ℕ} {fx : Effects}
    (hi : s.slots[i]? = some (.running fx)) : s.joined = none := by
  cases hjoined : s.joined with
  | none => rfl
  | some call =>
    obtain ⟨threads, hthreads, -⟩ := h.joined call.1 call.2 hjoined
    have hslot := congrArg (fun l => l[i]?) hthreads
    simp only [List.getElem?_map, hi, Option.map_some] at hslot
    cases hthread : threads[i]? with
    | none => rw [hthread] at hslot; cases hslot
    | some t => rw [hthread] at hslot; cases hslot

/-- A map with threads that fail. As long as one of the threads has not stopped, `join` does not
return; one that cannot, because it does not read its arguments or because what it saves raises
an error, never does. If all threads can, none aborts the process, and each of them ends. When
all have, and there are slots for what they left, `join` raises an error with the message of a
failed thread in it just if no thread left off in the middle of a table, and the first value
that is left from the last failed thread on has such a message for its text. So it is when the
last failed thread had a string for the error of its function, and so it is not when there is an
unread argument in its buffer that is no text. Without a slot for a value `join` does not
return. -/
theorem map_failures (hl : lua.Rebuilds) (numberText : Value P → List UInt8) (strerror : Errno → List UInt8)
    {numThreads : UInt32} {fxs : List Effects} (hargs : ∀ v ∈ init.toList ++ f :: args, v.Wf lua)
    (hopen : Yields (mapOpen lua init numThreads f args) (some (.threads fxs)))
    (hvalues : ∀ i, ∀ v ∈ (mapFates lua init f args w i).values, v.Wf lua) {es : List (MapEvent P)}
    (hrun : Run (MapStep lua numberText fun i => threadBody lua init (w i)) (.start fxs) es s) :
    (∀ (i : ℕ) fx, s.slots[i]? = some (.running fx) → s.joined = none) ∧
    (∀ (i : ℕ) fx, fxs[i]? = some fx → ¬ Stops lua init f args (w i) i fx →
      s.slots[i]? = some (.running fx) ∧ s.joined = none) ∧
    ((∀ (i : ℕ) fx, fxs[i]? = some fx → Stops lua init f args (w i) i fx) → s.aborted = false ∧
      ∀ (i : ℕ) fx, s.slots[i]? = some (.running fx) →
        ∃ ret fx' calls, Yields (threadBody lua init (w i) fx) (.finished ret fx' calls)) ∧
    ∀ threads, s.slots.map Slot.thread = threads.map some → ∀ j < numThreads.toNat,
      (mapFates lua init f args w j).Failed lua →
      (∀ i, j < i → i < numThreads.toNat → ¬ (mapFates lua init f args w i).Failed lua) →
      (∀ stack : List (Value P), FitsOn lua stack.length (allLoaded lua (mapFates lua init f args w) numThreads.toNat) →
        (Surfaces lua numberText strerror (mapFates lua init f args w) numThreads.toNat threads stack ↔
          (∀ i < numThreads.toNat, ¬ (mapFates lua init f args w i).CutOff lua) ∧
          FirstNames lua numberText strerror (mapFates lua init f args w) j numThreads.toNat)) ∧
      (∀ (stack : List (Value P)) us v ws, (∀ i < numThreads.toNat, ¬ (mapFates lua init f args w i).CutOff lua) →
        allLoaded lua (mapFates lua init f args w) numThreads.toNat = us ++ v :: ws →
          FitsOn lua stack.length us →
        lua.stackRoom ≤ stack.length + us.length →
          Yields (mapJoin lua numberText threads stack) .timeout) ∧
      (∀ msg, mapFates lua init f args w j = ⟨[], LUA_ERRRUN, [.string msg]⟩ →
        FirstNames lua numberText strerror (mapFates lua init f args w) j numThreads.toNat) ∧
      ∀ g vs e, mapFates lua init f args w j = ⟨g :: vs, LUA_ERRRUN, [e]⟩ →
        luaTostring numberText g.received = none →
        ¬ FirstNames lua numberText strerror (mapFates lua init f args w) j numThreads.toNat := by
  have hinv : MapInv lua numberText init f args w numThreads.toNat s :=
    mapInv_of_run hargs hopen hrun
  have hprogress := progress_of_run hrun
  obtain ⟨-, hcarries⟩ := mapOpen_carries hargs hopen
  refine ⟨fun i fx hi => hinv.not_joined hi, fun i fx hi hno => ?_, fun hstops => ⟨?_, fun i fx hi => ?_⟩,
    fun threads hthreads j hj hfailed hlast => ?_⟩
  · have hrunning : s.slots[i]? = some (.running fx) := by
      refine (hprogress.thread i fx hi).resolve_right ?_
      rintro ⟨ret, fx', calls, -, hy⟩
      exact hno ((threadBody_ends_iff hl (hcarries i fx hi)).mp ⟨ret, fx', calls, hy⟩)
    exact ⟨hrunning, hinv.not_joined hrunning⟩
  · by_contra habort
    obtain ⟨i, fx, hi, hpanic⟩ := hprogress.aborted (Bool.not_eq_false _ ▸ habort)
    obtain ⟨ret, fx', calls, hy⟩ := threadBody_stops hl (hcarries i fx hi) (hstops i fx hi)
    cases hy.unique hpanic
  · have hgiven := hprogress.given i fx hi
    exact threadBody_stops hl (hcarries i fx hgiven) (hstops i fx hgiven)
  obtain ⟨hlen, hmet⟩ := hinv.met hl hvalues hthreads
  rw [← hlen] at hj hlast ⊢
  refine ⟨fun stack hfit => ⟨?_, ?_⟩, fun stack us v ws hcut hall hfit hfull => ?_,
    fun msg hfate => ?_, fun g vs e hfate hg => ?_⟩
  · rintro ⟨text, hy, hnames⟩
    have hcut : ∀ i < threads.length, ¬ (mapFates lua init f args w i).CutOff lua := by
      intro i hi hcuti
      exact join_cutOff numberText hmet ⟨i, hi, hcuti⟩ hfit (some text) hy
    refine ⟨hcut, ?_⟩
    have hsame := hy.unique (join_firstLeft numberText hmet hcut hj hfailed hlast hfit)
    cases hfirst : firstLeft lua (mapFates lua init f args w) j threads.length with
    | none => rw [hfirst] at hsame; cases hsame
    | some v =>
      rw [hfirst] at hsame
      injection hsame with htext
      exact ⟨v, text, hfirst, htext.symm, hnames⟩
  · rintro ⟨hcut, v, text, hfirst, htext, hnames⟩
    have hjoin := join_firstLeft numberText hmet hcut hj hfailed hlast hfit
    rw [hfirst] at hjoin
    simp only [htext] at hjoin
    exact ⟨text, hjoin, hnames⟩
  · exact join_full numberText hmet hcut hall hfit hfull
  · exact firstNames_of_function numberText strerror hj hfate
  · exact not_firstNames_of_unread hj hfate hg

end

end

/-- A worker whose calls all raise the error `boom`. -/
def raisingWorker : Worker UInt8 where
  base := []
  libraries := .ok ()
  loadstring _ := .nil
  pcall _ _ _ := .error (.string [98, 111, 111, 109])

theorem raising_values (init : Option (Value UInt8)) :
    ∀ i, ∀ v ∈ (mapFates sampleLua init plainFunction [] (fun _ => raisingWorker) i).values,
      v = .string [98, 111, 111, 109] := by
  intro i v hv
  rw [mapFates, fate] at hv
  simp only [raisingWorker, callFate] at hv
  split at hv <;> exact List.mem_singleton.mp hv

theorem fitsOn_init {init : Option (Value UInt8)} (hinit : ∀ v ∈ init.toList, v = plainFunction) :
    FitsOn sampleLua 0 init.toList := by
  cases init with
  | none => trivial
  | some v =>
    obtain rfl := hinit v (List.mem_singleton_self v)
    refine ⟨?_, trivial⟩
    change 0 + 3 ≤ 8000
    decide

theorem raising_run (init : Option (Value UInt8)) (hinit : ∀ v ∈ init.toList, v = plainFunction) :
    ∃ fxs : List Effects, Yields (mapOpen sampleLua init 1 plainFunction []) (some (.threads fxs)) ∧
      ∃ es s, ∃ threads : List MapThread,
        Run (MapStep sampleLua (fun _ => []) fun _ => threadBody sampleLua init raisingWorker)
        (.start fxs) es s ∧ s.slots.map Slot.thread = threads.map some := by
  have hall : ∀ v ∈ init.toList ++ [plainFunction], v = plainFunction := by
    intro v hv
    rcases List.mem_append.mp hv with hv | hv
    · exact hinit v hv
    · exact List.mem_singleton.mp hv
  obtain ⟨fxs, n, hn⟩ := createLoop_stores (fun v hv => hall v hv ▸ plainFunction_serialisable) 1 0
    []
  have hopen : Yields (mapOpen sampleLua init 1 plainFunction []) (some (.threads fxs)) := by
    refine ⟨n, fun fuel hf => ?_⟩
    rw [← hn fuel hf]
    cases init with
    | none => rfl
    | some v =>
      obtain rfl := hinit v (by simp)
      rfl
  obtain ⟨hlen, hcarries⟩ := mapOpen_carries (fun v hv => hall v hv ▸ plainFunction_wf) hopen
  obtain ⟨fx, rfl⟩ : ∃ fx, fxs = [fx] := List.length_eq_one_iff.mp hlen
  have hreads : Reads sampleLua init plainFunction [] raisingWorker 0 := by
    refine fun _ => ⟨fitsOn_init hinit, fun _ => ⟨?_, ?_, trivial⟩⟩
    · change 0 + 3 ≤ 8000
      decide
    · rw [mapid_slots]
      change 0 + 1 + 1 ≤ 8000
      decide
  obtain ⟨rb, calls, m, hrb, -, hbody⟩ :=
    threadBody_fate (w := raisingWorker) sampleLua_rebuilds (hcarries 0 fx rfl) hreads
  have hv : ({ fx with rb := rb } : Effects).rb.Valid := hrb.valid
  have hstored : ∀ v ∈ (mapFates sampleLua init plainFunction [] (fun _ => raisingWorker) 0).values,
      Serialisable sampleLua false v := by
    intro v hmem
    rw [raising_values init 0 v hmem]
    exact ⟨rfl, by simp [script, puts]⟩
  obtain ⟨fx', k, hk⟩ := endThread_stores raisingWorker
    (mapFates sampleLua init plainFunction [] (fun _ => raisingWorker) 0).code hstored hv calls
  have hend : Yields (threadBody sampleLua init raisingWorker fx)
      (.finished (mapFates sampleLua init plainFunction [] (fun _ => raisingWorker) 0).code fx' calls) :=
    ⟨max m k, fun fuel hf => (hbody fuel (by omega)).trans (hk fuel (by omega))⟩
  exact ⟨[fx], hopen, _, _, [⟨_, .live fx'.rb, false⟩], Run.nil.snoc (.ends (i := 0) rfl rfl hend), rfl⟩

/-- An error of the only thread's function comes out. -/
theorem map_failures_function : ∃ threads : List MapThread,
    Surfaces sampleLua (fun _ => []) (fun _ => []) (mapFates sampleLua none plainFunction [] fun _ => raisingWorker) 1
      threads [.nil] := by
  obtain ⟨fxs, hopen, es, s, threads, hrun, hthreads⟩ := raising_run none nofun
  have hargs : ∀ v ∈ (none : Option (Value UInt8)).toList ++ plainFunction :: [], v.Wf sampleLua :=
    fun v hv =>
    List.mem_singleton.mp hv ▸ plainFunction_wf
  have hvalues : ∀ i, ∀ v ∈ (mapFates sampleLua none plainFunction [] (fun _ => raisingWorker) i).values,
      v.Wf sampleLua := by
    intro i v hv
    rw [raising_values none i v hv]
    simp [Value.Wf, Value.parts, Value.WfNode]
  have hmain := (map_failures sampleLua_rebuilds (fun _ => []) (fun _ => []) hargs hopen hvalues
    hrun).2.2.2 threads hthreads
    0 (by decide) (Or.inl (show LUA_ERRRUN ≠ 0 by decide)) (fun i h0 h1 => absurd h0 (by
      have h1' : i < 1 := h1
      omega))
  have hcut : ∀ i < 1, ¬ (mapFates sampleLua none plainFunction [] (fun _ => raisingWorker) i).CutOff sampleLua := by
    rintro i - ⟨es, typename, hcut⟩
    cases hcut
  have hfit : FitsOn sampleLua [(.nil : Value UInt8)].length
      (allLoaded sampleLua (mapFates sampleLua none plainFunction [] fun _ => raisingWorker) 1) := by
    change FitsOn sampleLua 1 [.string [98, 111, 111, 109]]
    exact ⟨by decide, trivial⟩
  exact ⟨threads, (hmain.1 [.nil] hfit).mpr ⟨hcut, hmain.2.2.1 [98, 111, 111, 109] rfl⟩⟩

/-- An error of the initialiser does not: the message is lost. -/
theorem initialiser_error_lost : ∃ fxs : List Effects,
    Yields (mapOpen sampleLua (some plainFunction) 1 plainFunction []) (some (.threads fxs)) ∧
    ∃ es s, ∃ threads : List MapThread,
      Run (MapStep sampleLua (fun _ => []) fun _ => threadBody sampleLua (some plainFunction) raisingWorker)
        (.start fxs) es s ∧ s.slots.map Slot.thread = threads.map some ∧
      (mapFates sampleLua (some plainFunction) plainFunction [] (fun _ => raisingWorker) 0).Failed sampleLua ∧
      (mapFates sampleLua (some plainFunction) plainFunction [] (fun _ => raisingWorker) 0).message sampleLua
        (fun _ => []) (fun _ => []) = some [98, 111, 111, 109] ∧
      ∀ stack : List (Value UInt8), stack.length = 1 →
        Yields (mapJoin sampleLua (fun _ => []) threads stack) (.error none []) := by
  have hone : ∀ v ∈ (some plainFunction).toList, v = plainFunction :=
    fun v hv => List.mem_singleton.mp hv
  obtain ⟨fxs, hopen, es, s, threads, hrun, hthreads⟩ := raising_run (some plainFunction) hone
  have hargs : ∀ v ∈ (some plainFunction).toList ++ plainFunction :: [], v.Wf sampleLua := by
    intro v hv
    rcases List.mem_pair.mp hv with rfl | rfl <;> exact plainFunction_wf
  have hvalues : ∀ i, ∀ v ∈
      (mapFates sampleLua (some plainFunction) plainFunction [] (fun _ => raisingWorker) i).values,
        v.Wf sampleLua := by
    intro i v hv
    rw [raising_values _ i v hv]
    simp [Value.Wf, Value.parts, Value.WfNode]
  have hinv : MapInv sampleLua (fun _ => []) (some plainFunction) plainFunction [] (fun _ => raisingWorker) 1 s :=
    mapInv_of_run hargs hopen hrun
  obtain ⟨hlen, hmet⟩ := hinv.met sampleLua_rebuilds hvalues hthreads
  refine ⟨fxs, hopen, es, s, threads, hrun, hthreads, Or.inl (show LUA_ERRRUN ≠ 0 by decide), rfl,
    fun stack hstack => ?_⟩
  have hfit : FitsOn sampleLua stack.length
      (allLoaded sampleLua (mapFates sampleLua (some plainFunction) plainFunction
      [] fun _ => raisingWorker) threads.length) := by
    rw [hstack, hlen]
    change FitsOn sampleLua 1 [plainFunction.received, (mapid sampleLua 0).received, .string [98, 111, 111, 109]]
    refine ⟨?_, ?_, by decide, trivial⟩
    · change 1 + 3 ≤ 8000
      decide
    · rw [Value.slots_received, mapid_slots]
      change 1 + 1 + 1 ≤ 8000
      decide
  have hjoin := join_firstLeft (fun _ => []) hmet (j := 0) (by
    rintro i - ⟨es, typename, hcut⟩
    cases hcut) (by omega) (Or.inl (show LUA_ERRRUN ≠ 0 by decide)) (by omega) hfit
  rw [hlen] at hjoin
  exact hjoin

end TorchIpc.Map
