import TorchIpc.Base.Mutex
import TorchIpc.Serialize.Reading
import TorchIpc.Serialize.Received
import TorchIpc.Sharedtable.Table

/-! A shared table is one map. Threads take the mutex, move keys and values between their
own state and the shared one, and give the mutex back. Proved of every run of successful
calls: a read returns the value last written for its key, the length is the number of keys
that have a value, and whenever the mutex is free the buffer is empty and the stack of the
shared state has the table only. -/

namespace TorchIpc.Sharedtable

open Runs Mutex

section
variable {P : Type} {lua : Lua P}

/-! ### Keys -/

/-- The keys that are compared by their value. -/
def IsKey (lua : Lua P) : Value P → Prop
  | .boolean _ => True
  | .number bits => isNaN bits = false
  | .integer _ => 503 ≤ lua.versionNum
  | .string bytes => bytes.length < 2 ^ 64
  | _ => False

theorem isNaN_of_zero {a : UInt64} (h : a.toNat % 2 ^ 63 = 0) : isNaN a = false := by
  have hmantissa : a.toNat % 2 ^ 52 = 0 := by omega
  simp only [isNaN, hmantissa, ne_eq, not_true_eq_false, decide_false, Bool.and_false]

theorem numberEq_symm {a b : UInt64} (h : numberEq a b = true) : numberEq b a = true := by
  simp only [numberEq, Bool.and_eq_true, Bool.not_eq_true', Bool.or_eq_true, beq_iff_eq, decide_eq_true_eq] at h ⊢
  obtain ⟨hnan, rfl | ⟨ha, hb⟩⟩ := h
  · exact ⟨hnan, Or.inl rfl⟩
  · exact ⟨isNaN_of_zero hb, Or.inr ⟨hb, ha⟩⟩

theorem numberEq_trans {a b c : UInt64} (hab : numberEq a b = true) (hbc : numberEq b c = true) :
    numberEq a c = true := by
  simp only [numberEq, Bool.and_eq_true, Bool.not_eq_true', Bool.or_eq_true, beq_iff_eq, decide_eq_true_eq] at hab hbc ⊢
  obtain ⟨hnan, rfl | ⟨ha, hb⟩⟩ := hab
  · exact hbc
  · obtain ⟨-, rfl | ⟨-, hc⟩⟩ := hbc
    · exact ⟨hnan, Or.inr ⟨ha, hb⟩⟩
    · exact ⟨hnan, Or.inr ⟨ha, hc⟩⟩

theorem sameKey_equivalence (lua : Lua P) : Assoc.Equivalence Value.sameKey (IsKey lua) := by
  refine ⟨fun a ha => ?_, fun a b h => ?_, fun a b c hab hbc => ?_⟩
  · cases a with
    | number bits =>
      have hnan : isNaN bits = false := ha
      simp [Value.sameKey, numberEq, hnan]
    | boolean b => simp [Value.sameKey]
    | integer n => simp [Value.sameKey]
    | string bytes => simp [Value.sameKey]
    | _ => exact ha.elim
  · cases a <;> cases b <;> simp only [Value.sameKey, beq_iff_eq, Bool.false_eq_true] at h ⊢
    · exact h.symm
    · exact numberEq_symm h
    · exact h.symm
    · exact h.symm
  · cases a <;> cases b <;> simp only [Value.sameKey, beq_iff_eq, Bool.false_eq_true] at hab <;>
      cases c <;> simp only [Value.sameKey, beq_iff_eq, Bool.false_eq_true] at hbc ⊢
    · exact hab.trans hbc
    · exact numberEq_trans hab hbc
    · exact hab.trans hbc
    · exact hab.trans hbc

theorem setEntry_eq_update (k v : Value P) (es : List (Value P × Value P)) :
    setEntry k v es = Assoc.update Value.sameKey Value.isNil k v es := by
  induction es with
  | nil => rfl
  | cons e es ih => rw [setEntry, Assoc.update, ih]

theorem IsKey.received {k : Value P} (h : IsKey lua k) : k.received = k := by
  cases k <;> first | rfl | exact h.elim

theorem IsKey.wf {k : Value P} (h : IsKey lua k) : k.Wf lua := by
  have hnode : k.WfNode lua := by cases k <;> first | exact h | trivial
  cases k <;> first | exact h.elim | exact fun w hw => List.mem_singleton.mp hw ▸ hnode

theorem IsKey.not_bad {k : Value P} (h : IsKey lua k) : k.badKey = false := by
  cases k <;> first | exact h.elim | exact h | rfl

theorem IsKey.serialisable {k : Value P} (h : IsKey lua k) : Serialisable lua false k := by
  cases k <;> first | exact h.elim | exact ⟨rfl, by simp [script, numberScript, integerScript, puts]⟩

theorem IsKey.norm {k : Value P} (h : IsKey lua k) : IsKey lua (k.normKey lua.versionNum) := by
  cases k with
  | number bits =>
    rw [Value.normKey]
    split_ifs with hversion
    · split
      · exact hversion
      · exact h
    · exact h
  | _ => exact h

theorem normKey_normKey (n : ℕ) (k : Value P) : (k.normKey n).normKey n = k.normKey n := by
  cases k with
  | number bits =>
    by_cases hversion : 503 ≤ n
    · cases hint : numberToInteger bits with
      | none => simp only [Value.normKey, if_pos hversion, hint]
      | some m => simp only [Value.normKey, if_pos hversion, hint]
    · simp only [Value.normKey, if_neg hversion]
  | _ => rfl

/-! ### Moving one value -/

theorem moveValue_stored {v : Value P} {inc : ℕ} {src dst src' dst' : List (Value P)}
    {index fuel : ℕ} {fx fx' : Effects} (hv : fx.rb.Valid) (hi : index ≤ src.length)
    (hget : src[src.length - index]? = some v) (h : moveValue lua inc src index dst fx fuel = .moved src' dst' fx') :
    (script lua false false v).fin = .ok ∧ ∃ (fx₁ : Effects) (top : ℕ) (code : ℤ), fx₁.rb.Sound ∧
      fx₁.rb.content = fx.rb.content ++ encode lua false false v ∧
        src' = List.replicate (top - src.length) v ++ src ∧
      (index = src.length → top = src.length) ∧
      rbLoad lua fuel fx₁.rb dst = .ret code fx'.rb dst' := by
  simp only [moveValue, hget] at h
  have hsaved : Saved lua false v fx (rbSaveWithGrowth lua inc v index src.length fx fuel) :=
    growthLoop_saved settles_id fuel (Or.inl hv) hi
  have htop : ∀ {fx₁ top₁}, index = src.length →
      rbSaveWithGrowth lua inc v index src.length fx fuel = .ret 0 fx₁ top₁ →
        top₁ = src.length := by
    intro fx₁ top₁ hindex h₁
    refine growthLoop_top hi (fun n hn => ?_) fuel h₁
    rw [if_pos hindex, or_self] at hn
    rw [hn]
    rfl
  generalize rbSaveWithGrowth lua inc v index src.length fx fuel = o at h hsaved htop
  cases hsaved with
  | @stored fx₁ top₁ hfin hsound hcontent =>
    simp only [if_true] at h
    generalize hload : rbLoad lua fuel fx₁.rb dst = o at h
    cases o with
    | ret code rb dst₁ =>
      cases h
      exact ⟨hfin, fx₁, top₁, code, hsound, hcontent, rfl, fun hindex => htop hindex rfl, hload⟩
    | _ => cases h
  | @refused e place fx₁ top₁ hfin hplace hsound hcontent =>
    have hne : ¬ -e.toInt = 0 := by cases e <;> decide
    simp only [if_neg hne] at h
    cases h
  | _ => cases h

def Clean (fx : Effects) : Prop := Holds fx.rb []

/-- A value that has been moved through the empty buffer is complete on the other side, and
the buffer is empty again. -/
theorem moveValue_moved (hl : lua.Rebuilds) {v : Value P} (hwf : v.Wf lua) :
    ∃ N, ∀ (inc : ℕ) (src : List (Value P)) (index : ℕ) (dst : List (Value P)) (fx : Effects),
      Clean fx →
      index ≤ src.length → src[src.length - index]? = some v → ∀ fuel ≥ N, ∀ src' dst' fx',
      moveValue lua inc src index dst fx fuel = .moved src' dst' fx' →
        dst' = v.received :: dst ∧ Clean fx' ∧ ∃ m, src' = List.replicate m v ++ src ∧
          (index = src.length → m = 0) := by
  by_cases hok : (script lua false false v).fin = .ok
  · obtain ⟨N, hN⟩ := loads_script hl false v hwf (noUpvalues_of_ok false v hok) hok (by rintro ⟨⟩)
    refine ⟨N, fun inc src index dst fx hclean hi hget fuel hf src' dst' fx' hmoved => ?_⟩
    obtain ⟨-, fx₁, top₁, code, hsound, hcontent, hsrc, htop, hload⟩ :=
      moveValue_stored hclean.valid hi hget hmoved
    rw [hclean.content_eq, List.nil_append] at hcontent
    have hv₁ : fx₁.rb.Valid := hsound.valid (hcontent ▸ encode_ne_nil hok)
    obtain ⟨rb', h', hloads⟩ := hN fx₁.rb [] dst ⟨hv₁, by rw [hcontent, List.append_nil]; rfl⟩
    have hloaded : rbLoad lua fuel fx₁.rb dst = .ret 1 rb' (v.received :: dst) := hloads fuel hf
    rw [hloaded] at hload
    injection hload with _ hrb hdst
    have hclean' : Clean fx' := by
      rw [Clean, ← hrb]
      exact h'
    refine ⟨hdst.symm, hclean', _, hsrc, fun hindex => ?_⟩
    rw [htop hindex, Nat.sub_self]
  · exact ⟨0, fun inc src index dst fx hclean hi hget fuel hf src' dst' fx' hmoved =>
      absurd (moveValue_stored hclean.valid hi hget hmoved).1 hok⟩

theorem Clean.room_eq {fx : Effects} (h : Clean fx) : fx.rb.room = fx.rb.cb := by
  have hlen := h.valid.length_add_room
  rwa [h.content_eq, List.length_nil, Nat.zero_add] at hlen

/-- A value that is storable is moved. The buffer has grown by as many increments as it
took attempts. -/
theorem moveValue_moves (hl : lua.Rebuilds) {v : Value P} (hwf : v.Wf lua) {inc : ℕ} {src : List (Value P)} {index : ℕ}
    (dst : List (Value P)) {fx : Effects} {K : ℕ} (hK : (script lua false false v).LastAttempt fx.rb.room inc K)
    (hstored : (script lua false false v).StoredIn (roomAt fx.rb.room inc K)) (hclean : Clean fx)
    (hi : index ≤ src.length) (hget : src[src.length - index]? = some v) :
    ∃ src' fx', fx'.rb.cb = roomAt fx.rb.room inc K ∧
      Yields (moveValue lua inc src index dst fx) (.moved src' (v.received :: dst) fx') := by
  obtain ⟨N, hN⟩ := loads_script hl false v hwf (noUpvalues_of_ok false v hstored.2) hstored.2
    (by rintro ⟨⟩)
  obtain ⟨fx₁, top₁, hv₁, hroom, n, hn⟩ :=
    growthLoop_stores_at settles_id hclean.valid hi hK hstored
  have hsaved : Saved lua false v fx (growthLoop lua (fun _ top => some top) false inc v index n src.length fx) :=
    growthLoop_saved settles_id n (Or.inl hclean.valid) hi
  have hret : growthLoop lua (fun _ top => some top) false inc v index n src.length fx =
    .ret 0 fx₁ top₁ := hn n le_rfl
  rw [hret] at hsaved
  have hcontent : fx₁.rb.content = encode lua false false v := by
    generalize hcode : (0 : ℤ) = code at hsaved
    cases hsaved with
    | stored _ _ hcontent => rw [hcontent, hclean.content_eq, List.nil_append]
    | @refused e place => cases e <;> cases hcode
  obtain ⟨rb', h', hload⟩ := hN fx₁.rb [] dst ⟨hv₁, by rw [hcontent, List.append_nil]; rfl⟩
  have hloaded : ∀ fuel ≥ N, rbLoad lua fuel fx₁.rb dst = .ret 1 rb' (v.received :: dst) := hload
  have hcb : rb'.cb = roomAt fx.rb.room inc K := by
    have hkept := (rbLoad_readable lua ⟨hv₁.length_buf, hv₁.rp_lt, hv₁.rcb_le⟩ N dst rb'
      (Or.inr ⟨_, _, hloaded N le_rfl⟩)).2.1
    have hlen := hv₁.length_add_room
    have hfits : (encode lua false false v).length ≤ roomAt fx.rb.room inc K :=
      overflow_eq_none.mp hstored.1
    rw [hcontent, hroom] at hlen
    omega
  refine ⟨List.replicate (top₁ - src.length) v ++ src, { fx₁ with rb := rb' }, hcb, max n N, fun fuel hf => ?_⟩
  have hsave : rbSaveWithGrowth lua inc v index src.length fx fuel = .ret 0 fx₁ top₁ :=
    hn fuel (by omega)
  simp only [moveValue, hget, hsave, if_true, hloaded fuel (by omega)]

theorem bind_ok {ε α β : Type} {x : Except ε α} {f : α → Except ε β} {b : β} (h : (x >>= f) = .ok b) :
    ∃ a, x = .ok a ∧ f a = .ok b := by
  cases x with
  | error e => cases h
  | ok a => exact ⟨a, rfl, h⟩

theorem take_moved (hl : lua.Rebuilds) {v : Value P} (hwf : v.Wf lua) :
    ∃ N, ∀ (s : SharedTable P) (L : List (Value P)) (index pop : ℕ), Clean s.fx → index ≤ L.length →
      L[L.length - index]? = some v → ∀ fuel ≥ N, ∀ L' s',
        s.take lua L index pop fuel = .ok (L', s') →
        Clean s'.fx ∧ s'.sizeIncrement = s.sizeIncrement ∧ s'.stack = v.received :: s.stack ∧
        ∃ m, L' = List.replicate m v ++ L := by
  obtain ⟨N, hN⟩ := moveValue_moved hl hwf
  refine ⟨N, fun s L index pop hclean hi hget fuel hf L' s' h => ?_⟩
  rw [SharedTable.take] at h
  generalize hmove : moveValue lua s.sizeIncrement L index s.stack s.fx fuel = o at h
  cases o with
  | moved src dst fx =>
    cases h
    obtain ⟨hdst, hclean', m, hsrc, -⟩ := hN _ _ _ _ _ hclean hi hget fuel hf _ _ _ hmove
    exact ⟨hclean', rfl, hdst, m, hsrc⟩
  | _ => cases h

theorem give_moved (hl : lua.Rebuilds) {v : Value P} (hwf : v.Wf lua) :
    ∃ N, ∀ (s : SharedTable P) (L : List (Value P)) (index pop : ℕ), Clean s.fx →
      index = s.stack.length →
      s.stack[s.stack.length - index]? = some v → ∀ fuel ≥ N, ∀ L' s',
        s.give lua L index pop fuel = .ok (L', s') →
        Clean s'.fx ∧ s'.sizeIncrement = s.sizeIncrement ∧ s'.stack = s.stack ∧
          L' = v.received :: L := by
  obtain ⟨N, hN⟩ := moveValue_moved hl hwf
  refine ⟨N, fun s L index pop hclean hi hget fuel hf L' s' h => ?_⟩
  rw [SharedTable.give] at h
  generalize hmove : moveValue lua s.sizeIncrement s.stack index L s.fx fuel = o at h
  cases o with
  | moved src dst fx =>
    cases h
    obtain ⟨hdst, hclean', m, hsrc, hm⟩ := hN _ _ _ _ _ hclean hi.le hget fuel hf _ _ _ hmove
    rw [hm hi] at hsrc
    exact ⟨hclean', rfl, hsrc, hdst⟩
  | _ => cases h

/-! ### The specification -/

inductive TableCall (P : Type) where
  | read (k : Value P)
  | write (k v : Value P)
  | len

/-- What a call has done: the key and what was returned for it; what was written; or what
was returned for the length. -/
inductive TableReply (P : Type) where
  | read (k : Value P) (results : List (Value P))
  | wrote (k v : Value P)
  | len (results : List (Value P))

def lastWritten (n : ℕ) (k : Value P) (as : List (TableReply P)) : Value P :=
  as.foldl (fun v a =>
    match a with
    | .wrote k' v' => if (k'.normKey n).sameKey (k.normKey n) then v' else v
    | _ => v) .nil

/-- Each key that has a value is here once. -/
structure Present (lua : Lua P) (as : List (TableReply P)) (ks : List (Value P)) : Prop where
  distinct : ks.Pairwise fun a b =>
      (a.normKey lua.versionNum).sameKey (b.normKey lua.versionNum) = false
  present : ∀ k, IsKey lua k → ((lastWritten lua.versionNum k as).isNil = false ↔
    ∃ k' ∈ ks, (k'.normKey lua.versionNum).sameKey (k.normKey lua.versionNum) = true)

def Answers (lua : Lua P) (as : List (TableReply P)) : TableReply P → Prop
  | .read k results => results = [(lastWritten lua.versionNum k as).received]
  | .wrote _ _ => True
  | .len results => ∃ ks, Present lua as ks ∧
      results = [.ofInteger lua.versionNum (UInt64.ofNat ks.length)]

/-! ### Threads -/

/-- Where a call is, with the stack of its thread: it has yet to look up its key; the value
is on the shared stack; it has yet to move its key, or its value; or it counts. -/
inductive Progress (P : Type) where
  | reading (k : Value P) (L : List (Value P))
  | found (k : Value P) (L : List (Value P))
  | writing (k v : Value P) (L : List (Value P))
  | keyed (k v : Value P) (L : List (Value P))
  | counting

/-- Calls with these keys, on a stack with the shared table (`self`) and the arguments. -/
inductive Enter (lua : Lua P) : TableCall P → Progress P → Prop where
  | read {k self} : IsKey lua k → Enter lua (.read k) (.reading k [k, self])
  | write {k v self} : IsKey lua k → v.Wf lua → Enter lua (.write k v) (.writing k v [v, k, self])
  | len : Enter lua .len .counting

inductive Work (lua : Lua P) : Progress P → SharedTable P → Progress P → SharedTable P → Prop where
  | read {k L s L' s'} : Yields (readKey lua s L) (.ok (L', s')) →
      Work lua (.reading k L) s (.found k L') s'
  | write {k v L s L' s'} : Yields (writeKey lua s L) (.ok (L', s')) →
      Work lua (.writing k v L) s (.keyed k v L') s'

inductive Leave (lua : Lua P) : Progress P → SharedTable P → TableReply P → SharedTable P →
    Prop where
  | read {k L s results s'} : Yields (readValue lua s L) (.ok (results, s')) →
      Leave lua (.found k L) s (.read k results) s'
  | write {k v L s results s'} : Yields (writeValue lua s L) (.ok (results, s')) →
      Leave lua (.keyed k v L) s (.wrote k v) s'
  | len {s results s'} : countEntries lua s = .ok (results, s') →
      Leave lua .counting s (.len results) s'

abbrev TableStep {T : Type} (lua : Lua P) :
    Guarded T (SharedTable P) (Progress P) → Option (TableReply P) →
      Guarded T (SharedTable P) (Progress P) → Prop :=
  Step (Enter lua) (Work lua) (Leave lua)

/-- The entries are what was written. -/
structure Entries (lua : Lua P) (as : List (TableReply P)) (es : List (Value P × Value P)) :
    Prop where
  tidy : Assoc.Tidy Value.sameKey Value.isNil (IsKey lua) es
  norm : ∀ e ∈ es, e.1.normKey lua.versionNum = e.1
  wrote : ∀ k v, .wrote k v ∈ as → v.Wf lua
  lookup : ∀ k, IsKey lua k → Assoc.lookup Value.sameKey .nil (k.normKey lua.versionNum) es =
    (lastWritten lua.versionNum k as).received

/-- Above the table are these values, and nothing is in the buffer. -/
def Above (lua : Lua P) (inc : ℕ) (as : List (TableReply P)) (vs : List (Value P)) (s : SharedTable P) : Prop :=
  Clean s.fx ∧ s.sizeIncrement = inc ∧ ∃ es, s.stack = vs ++ [.table es .none] ∧ Entries lua as es

def Maps (lua : Lua P) (inc : ℕ) (as : List (TableReply P)) (s : SharedTable P) : Prop :=
  Above lua inc as [] s

def During (lua : Lua P) (inc : ℕ) (as : List (TableReply P)) : Progress P → SharedTable P → Prop
  | .reading k L, s => Maps lua inc as s ∧ IsKey lua k ∧ ∃ self, L = [k, self]
  | .found k _, s => (lastWritten lua.versionNum k as).received.Wf lua ∧
      Above lua inc as [(lastWritten lua.versionNum k as).received] s
  | .writing k v L, s => Maps lua inc as s ∧ IsKey lua k ∧ v.Wf lua ∧ ∃ self, L = [v, k, self]
  | .keyed k v L, s => Above lua inc as [k] s ∧ IsKey lua k ∧ v.Wf lua ∧ 3 ≤ L.length ∧
      L[L.length - 3]? = some v
  | .counting, s => Maps lua inc as s

@[simp] theorem lastWritten_wrote (n : ℕ) (k k' v : Value P) (as : List (TableReply P)) :
    lastWritten n k (as ++ [.wrote k' v]) =
      if (k'.normKey n).sameKey (k.normKey n) then v else lastWritten n k as := by
  rw [lastWritten, List.foldl_append]
  rfl

@[simp] theorem lastWritten_read (n : ℕ) (k k' : Value P) (results : List (Value P)) (as : List (TableReply P)) :
    lastWritten n k (as ++ [.read k' results]) = lastWritten n k as := by
  rw [lastWritten, List.foldl_append]
  rfl

@[simp] theorem lastWritten_len (n : ℕ) (k : Value P) (results : List (Value P)) (as : List (TableReply P)) :
    lastWritten n k (as ++ [.len results]) = lastWritten n k as := by
  rw [lastWritten, List.foldl_append]
  rfl

theorem Entries.read {as : List (TableReply P)} {es : List (Value P × Value P)} (h : Entries lua as es) (k : Value P)
    (results : List (Value P)) : Entries lua (as ++ [.read k results]) es :=
  ⟨h.tidy, h.norm, by simpa using h.wrote, fun k' hk' => by rw [lastWritten_read, h.lookup k' hk']⟩

theorem Entries.len {as : List (TableReply P)} {es : List (Value P × Value P)} (h : Entries lua as es)
    (results : List (Value P)) : Entries lua (as ++ [.len results]) es :=
  ⟨h.tidy, h.norm, by simpa using h.wrote, fun k' hk' => by rw [lastWritten_len, h.lookup k' hk']⟩

theorem Entries.write {as : List (TableReply P)} {es : List (Value P × Value P)} (h : Entries lua as es)
    {k v : Value P} (hk : IsKey lua k) (hv : v.Wf lua) :
    Entries lua (as ++ [.wrote k v]) (setEntry (k.normKey lua.versionNum) v.received es) := by
  rw [setEntry_eq_update]
  refine ⟨h.tidy.update hk.norm _, fun e he => ?_, fun k' v' hmem => ?_, fun k' hk' => ?_⟩
  · rcases Assoc.mem_update he with he | ⟨-, -, hkey | hkey⟩
    · exact h.norm e he
    · rw [hkey, normKey_normKey]
    · obtain ⟨e', he', heq⟩ := List.mem_map.mp hkey
      rw [← heq]
      exact h.norm e' he'
  · rcases List.mem_append.mp hmem with hold | hnew
    · exact h.wrote k' v' hold
    · cases List.mem_singleton.mp hnew
      exact hv
  · have hnil : v.received.isNil = true → v.received = .nil := by
      cases v.received <;> first | exact fun _ => rfl | exact nofun
    rw [Assoc.lookup_update (sameKey_equivalence lua) h.tidy _ _ hnil, lastWritten_wrote, h.lookup k' hk']
    split_ifs <;> rfl

theorem lastWritten_cases (n : ℕ) (k : Value P) (as : List (TableReply P)) :
    lastWritten n k as = .nil ∨ ∃ k', .wrote k' (lastWritten n k as) ∈ as := by
  induction as using List.reverseRecOn with
  | nil => exact Or.inl rfl
  | append_singleton as a ih =>
    have hold : lastWritten n k (as ++ [a]) = lastWritten n k as →
        lastWritten n k (as ++ [a]) = .nil ∨
          ∃ k', .wrote k' (lastWritten n k (as ++ [a])) ∈ as ++ [a] := by
      intro heq
      rw [heq]
      exact ih.imp id fun ⟨k', hk'⟩ => ⟨k', List.mem_append_left _ hk'⟩
    cases a with
    | read k' results => exact hold (lastWritten_read n k k' results as)
    | len results => exact hold (lastWritten_len n k results as)
    | wrote k' v =>
      by_cases hsame : (k'.normKey n).sameKey (k.normKey n) = true
      · rw [lastWritten_wrote, if_pos hsame]
        exact Or.inr ⟨k', List.mem_append_right _ (List.mem_singleton_self _)⟩
      · exact hold (by rw [lastWritten_wrote, if_neg hsame])

theorem wf_nil : (.nil : Value P).Wf lua := fun _ hw => List.mem_singleton.mp hw ▸ trivial

theorem Entries.value_wf {as : List (TableReply P)} {es : List (Value P × Value P)} (h : Entries lua as es)
    (k : Value P) : (lastWritten lua.versionNum k as).received.Wf lua := by
  rcases lastWritten_cases lua.versionNum k as with hnil | ⟨k', hk'⟩
  · rw [hnil]
    exact wf_nil
  · exact (h.wrote k' _ hk').received

theorem Entries.value_serialisable {as : List (TableReply P)} {es : List (Value P × Value P)}
    (h : Entries lua as es) (hs : ∀ k v, .wrote k v ∈ as → Serialisable lua false v) (k : Value P) :
    Serialisable lua false (lastWritten lua.versionNum k as).received := by
  rcases lastWritten_cases lua.versionNum k as with hnil | ⟨k', hk'⟩
  · rw [hnil]
    exact ⟨rfl, by simp [Value.received, script, puts]⟩
  · exact (hs k' _ hk').received (h.wrote k' _ hk')

/-- The keys of the entries are the keys that have a value. -/
theorem Entries.keys_present {as : List (TableReply P)} {es : List (Value P × Value P)} (h : Entries lua as es) :
    Present lua as (es.map Prod.fst) := by
  have hnorm : ∀ k ∈ es.map Prod.fst, k.normKey lua.versionNum = k := by
    intro k hk
    obtain ⟨e, he, rfl⟩ := List.mem_map.mp hk
    exact h.norm e he
  refine ⟨h.tidy.distinct.imp_of_mem fun ha hb hab => ?_, fun k hk => ?_⟩
  · rwa [hnorm _ ha, hnorm _ hb]
  · rw [← received_isNil, ← h.lookup k hk, Assoc.absent_lookup_iff h.tidy rfl]
    constructor
    · rintro ⟨k', hk', hsame⟩
      exact ⟨k', hk', by rwa [hnorm k' hk']⟩
    · rintro ⟨k', hk', hsame⟩
      rw [hnorm k' hk'] at hsame
      exact ⟨k', hk', hsame⟩

/-! ### The steps of one call -/

theorem luaSettableAt_table {k v : Value P} (hk : IsKey lua k) (es : List (Value P × Value P)) :
    luaSettableAt lua [v, k, .table es .none] =
      .stack [.table (setEntry (k.normKey lua.versionNum) v es) .none] := by
  simp only [luaSettableAt, List.getLast?_cons_cons, List.getLast?_singleton, hk.not_bad, Bool.false_eq_true, if_false,
    setBottom]

theorem enter_during {inc : ℕ} {as : List (TableReply P)} {call : TableCall P} {q : Progress P}
    {s : SharedTable P} (h : Maps lua inc as s) (henter : Enter lua call q) :
    During lua inc as q s := by
  cases henter with
  | read hk => exact ⟨h, hk, _, rfl⟩
  | write hk hv => exact ⟨h, hk, hv, _, rfl⟩
  | len => exact h

/-- The key has come to the shared state, and the value is looked up. -/
theorem readKey_found (hl : lua.Rebuilds) {inc : ℕ} {as : List (TableReply P)} {k self : Value P}
    {s s' : SharedTable P} {L' : List (Value P)} (h : Maps lua inc as s) (hk : IsKey lua k)
    (hy : Yields (readKey lua s [k, self]) (.ok (L', s'))) :
    During lua inc as (.found k L') s' := by
  obtain ⟨hclean, hinc, es, hstack, hentries⟩ := h
  obtain ⟨N, hN⟩ := take_moved hl hk.wf
  obtain ⟨n, hn⟩ := hy
  have hkey := hn (max n N) (by omega)
  rw [readKey] at hkey
  obtain ⟨⟨L₁, s₁⟩, htake, hrest⟩ := bind_ok hkey
  obtain ⟨s₂, happly, hret⟩ := bind_ok hrest
  cases hret
  obtain ⟨hclean₁, hinc₁, hstack₁, -⟩ := hN s _ 2 0 hclean le_rfl rfl (max n N) (by omega) _ _ htake
  have hget : luaGettable lua s₁.stack = .stack ((lastWritten lua.versionNum k as).received :: [.table es .none]) := by
    rw [hstack₁, hstack, hk.received, ← hentries.lookup k hk]
    rfl
  rw [SharedTable.apply, hget] at happly
  cases happly
  exact ⟨hentries.value_wf k, hclean₁, hinc₁.trans hinc, es, rfl, hentries⟩

theorem writeKey_keyed (hl : lua.Rebuilds) {inc : ℕ} {as : List (TableReply P)} {k v self : Value P}
    {s s' : SharedTable P} {L' : List (Value P)} (h : Maps lua inc as s) (hk : IsKey lua k) (hv : v.Wf lua)
    (hy : Yields (writeKey lua s [v, k, self]) (.ok (L', s'))) :
    During lua inc as (.keyed k v L') s' := by
  obtain ⟨hclean, hinc, es, hstack, hentries⟩ := h
  obtain ⟨N, hN⟩ := take_moved hl hk.wf
  obtain ⟨n, hn⟩ := hy
  have htake := hn (max n N) (by omega)
  obtain ⟨hclean', hinc', hstack', m, rfl⟩ :=
    hN s [v, k, self] 2 0 hclean (show 2 ≤ 3 by decide) rfl (max n N) (by omega) L' s' htake
  refine ⟨⟨hclean', hinc'.trans hinc, es, ?_, hentries⟩, hk, hv, by simp, ?_⟩
  · rw [hstack', hstack, hk.received]
    rfl
  · have hindex : (List.replicate m k ++ [v, k, self]).length - 3 =
        (List.replicate m k).length := by
      rw [List.length_append]
      rfl
    rw [hindex, List.getElem?_append_right le_rfl, Nat.sub_self]
    rfl

theorem work_during (hl : lua.Rebuilds) {inc : ℕ} {as : List (TableReply P)} {q q' : Progress P}
    {s s' : SharedTable P} (h : During lua inc as q s) (hwork : Work lua q s q' s') :
    During lua inc as q' s' := by
  cases hwork with
  | read hy =>
    obtain ⟨hmaps, hk, self, rfl⟩ := h
    exact readKey_found hl hmaps hk hy
  | write hy =>
    obtain ⟨hmaps, hk, hv, self, rfl⟩ := h
    exact writeKey_keyed hl hmaps hk hv hy

theorem readValue_maps (hl : lua.Rebuilds) {inc : ℕ} {as : List (TableReply P)} {k : Value P}
    {s s' : SharedTable P} {L results : List (Value P)} (h : During lua inc as (.found k L) s)
    (hy : Yields (readValue lua s L) (.ok (results, s'))) :
    results = [(lastWritten lua.versionNum k as).received] ∧
      Maps lua inc (as ++ [.read k results]) s' := by
  obtain ⟨hwf, hclean, hinc, es, hstack, hentries⟩ := h
  obtain ⟨N, hN⟩ := give_moved hl hwf
  obtain ⟨n, hn⟩ := hy
  have hvalue := hn (max n N) (by omega)
  rw [readValue] at hvalue
  obtain ⟨⟨L₁, s₁⟩, hgive, hret⟩ := bind_ok hvalue
  obtain ⟨rfl, rfl⟩ := Prod.mk.inj (Except.ok.inj hret)
  obtain ⟨hclean₁, hinc₁, hstack₁, hL⟩ :=
    hN s L 2 1 hclean (by rw [hstack]; rfl) (by rw [hstack]; rfl) (max n N) (by omega)
    L₁ s₁ hgive
  refine ⟨by rw [hL, Value.received_received]; rfl, hclean₁, hinc₁.trans hinc, es, ?_, hentries.read _ _⟩
  rw [hstack₁, hstack]
  rfl

theorem writeValue_maps (hl : lua.Rebuilds) {inc : ℕ} {as : List (TableReply P)} {k v : Value P}
    {s s' : SharedTable P} {L results : List (Value P)} (h : During lua inc as (.keyed k v L) s)
    (hy : Yields (writeValue lua s L) (.ok (results, s'))) :
    Maps lua inc (as ++ [.wrote k v]) s' := by
  obtain ⟨⟨hclean, hinc, es, hstack, hentries⟩, hk, hv, hlen, hget⟩ := h
  obtain ⟨N, hN⟩ := take_moved hl hv
  obtain ⟨n, hn⟩ := hy
  have hvalue := hn (max n N) (by omega)
  rw [writeValue] at hvalue
  obtain ⟨⟨L₁, s₁⟩, htake, hrest⟩ := bind_ok hvalue
  obtain ⟨s₂, happly, hret⟩ := bind_ok hrest
  cases hret
  obtain ⟨hclean₁, hinc₁, hstack₁, -⟩ :=
    hN s L 3 1 hclean hlen hget (max n N) (by omega) L₁ s₁ htake
  rw [SharedTable.apply, hstack₁, hstack, List.singleton_append, luaSettableAt_table hk] at happly
  cases happly
  exact ⟨hclean₁, hinc₁.trans hinc, _, rfl, hentries.write hk hv⟩

theorem leave_maps (hl : lua.Rebuilds) {inc : ℕ} {as : List (TableReply P)} {q : Progress P}
    {a : TableReply P} {s s' : SharedTable P} (h : During lua inc as q s) (hleave : Leave lua q s a s') :
    Answers lua as a ∧ Maps lua inc (as ++ [a]) s' := by
  cases hleave with
  | read hy => exact readValue_maps hl h hy
  | write hy => exact ⟨trivial, writeValue_maps hl h hy⟩
  | len hcount =>
    obtain ⟨hclean, hinc, es, hstack, hentries⟩ := h
    rw [countEntries, hstack] at hcount
    cases hcount
    refine ⟨⟨_, hentries.keys_present, ?_⟩, hclean, hinc, es, hstack, hentries.len _⟩
    rw [List.length_map]

/-! ### No call gets stuck -/

theorem take_moves (hl : lua.Rebuilds) {v : Value P} (hwf : v.Wf lua) {s : SharedTable P}
    (hs : (script lua false false v).Storable s.fx.rb.room s.sizeIncrement) (hclean : Clean s.fx)
    {L : List (Value P)} {index : ℕ} (pop : ℕ) (hi : index ≤ L.length) (hget : L[L.length - index]? = some v) :
    ∃ L' s', Yields (s.take lua L index pop) (.ok (L', s')) := by
  obtain ⟨K, hK, hstored⟩ := hs
  obtain ⟨src, fx, -, n, hn⟩ := moveValue_moves hl hwf s.stack hK hstored hclean hi hget
  refine ⟨src, ⟨fx, v.received :: s.stack, s.sizeIncrement⟩, n, fun fuel hf => ?_⟩
  rw [SharedTable.take, hn fuel hf]

theorem give_moves (hl : lua.Rebuilds) {v : Value P} (hwf : v.Wf lua) {s : SharedTable P}
    (hs : (script lua false false v).Storable s.fx.rb.room s.sizeIncrement) (hclean : Clean s.fx)
    (L : List (Value P)) {index : ℕ} (pop : ℕ) (hi : index ≤ s.stack.length)
    (hget : s.stack[s.stack.length - index]? = some v) :
    ∃ L' s', Yields (s.give lua L index pop) (.ok (L', s')) := by
  obtain ⟨K, hK, hstored⟩ := hs
  obtain ⟨src, fx, -, n, hn⟩ := moveValue_moves hl hwf L hK hstored hclean hi hget
  refine ⟨v.received :: L, ⟨fx, src, s.sizeIncrement⟩, n, fun fuel hf => ?_⟩
  rw [SharedTable.give, hn fuel hf]

/-- The key and then the value are moved and stored. -/
theorem settable_moves (hl : lua.Rebuilds) {inc : ℕ} (hinc : 1 ≤ inc) (hlt : inc < 2 ^ 63)
    {as : List (TableReply P)} {k v : Value P} {s : SharedTable P} (h : Above lua inc as [k] s)
    (hk : IsKey lua k) (hv : v.Wf lua) (hs : Serialisable lua false v) {L : List (Value P)}
    {index : ℕ} (pop : ℕ) (hi : index ≤ L.length) (hget : L[L.length - index]? = some v) :
    ∃ L' s₁ s₂, Yields (s.take lua L index pop) (.ok (L', s₁)) ∧
      s₁.apply (luaSettableAt lua) = .ok s₂ := by
  obtain ⟨hclean, hsize, es, hstack, hentries⟩ := h
  obtain ⟨L', s₁, n, hn⟩ :=
    take_moves hl hv (hs.storable (hsize ▸ hinc) (hsize ▸ hlt) _) hclean pop hi hget
  obtain ⟨N, hN⟩ := take_moved hl hv
  obtain ⟨-, -, hstack₁, -⟩ :=
    hN s L index pop hclean hi hget (max n N) (by omega) L' s₁ (hn _ (by omega))
  refine ⟨L', s₁, { s₁ with stack := [.table (setEntry (k.normKey lua.versionNum) v.received es) .none] }, ⟨n, hn⟩, ?_⟩
  rw [SharedTable.apply, hstack₁, hstack, List.singleton_append, luaSettableAt_table hk]

/-- The values that a call still has to write. -/
def Progress.written : Progress P → List (Value P)
  | .writing _ v _ => [v]
  | .keyed _ v _ => [v]
  | _ => []

theorem during_next (hl : lua.Rebuilds) {inc : ℕ} (hinc : 1 ≤ inc) (hlt : inc < 2 ^ 63)
    {as : List (TableReply P)} {q : Progress P} {s : SharedTable P} (h : During lua inc as q s)
    (hwrote : ∀ k v, .wrote k v ∈ as → Serialisable lua false v) (hq : ∀ v ∈ q.written, Serialisable lua false v) :
    (∃ q' s', Work lua q s q' s') ∨ ∃ a s', Leave lua q s a s' := by
  cases q with
  | reading k L =>
    obtain ⟨⟨hclean, hsize, es, hstack, hentries⟩, hk, self, rfl⟩ := h
    obtain ⟨L', s₁, n, hn⟩ :=
      take_moves hl hk.wf (hk.serialisable.storable (hsize ▸ hinc) (hsize ▸ hlt) _) hclean 0
      (show 2 ≤ [k, self].length from le_rfl) rfl
    obtain ⟨N, hN⟩ := take_moved hl hk.wf
    obtain ⟨-, -, hstack₁, -⟩ :=
      hN s _ 2 0 hclean le_rfl rfl (max n N) (by omega) L' s₁ (hn _ (by omega))
    have hget : ∃ stack, luaGettable lua s₁.stack = .stack stack := by
      rw [hstack₁, hstack]
      exact ⟨_, rfl⟩
    obtain ⟨stack, hget⟩ := hget
    refine Or.inl ⟨.found k L', { s₁ with stack := stack }, .read ⟨n, fun fuel hf => ?_⟩⟩
    simp only [readKey, hn fuel hf, bind, Except.bind, SharedTable.apply, hget]
    rfl
  | found k L =>
    obtain ⟨hwf, hclean, hsize, es, hstack, hentries⟩ := h
    obtain ⟨L', s₁, n, hn⟩ :=
      give_moves hl hwf ((hentries.value_serialisable hwrote k).storable (hsize ▸ hinc)
      (hsize ▸ hlt) _) hclean L 1
      (show 2 ≤ s.stack.length by rw [hstack]; rfl) (by rw [hstack]; rfl)
    refine Or.inr ⟨.read k (L'.take 1), { s₁ with stack := s₁.stack.drop 1 }, .read ⟨n, fun fuel hf => ?_⟩⟩
    simp only [readValue, hn fuel hf, bind, Except.bind]
    rfl
  | writing k v L =>
    obtain ⟨⟨hclean, hsize, es, hstack, hentries⟩, hk, hv, self, rfl⟩ := h
    have hle : 2 ≤ [v, k, self].length := show 2 ≤ 3 by decide
    obtain ⟨L', s', hy⟩ := take_moves hl hk.wf
      (hk.serialisable.storable (hsize ▸ hinc) (hsize ▸ hlt) _) hclean 0 hle rfl
    exact Or.inl ⟨.keyed k v L', s', .write hy⟩
  | keyed k v L =>
    obtain ⟨habove, hk, hv, hlen, hget⟩ := h
    obtain ⟨L', s₁, s₂, ⟨n, hn⟩, happly⟩ :=
      settable_moves hl hinc hlt habove hk hv (hq v (List.mem_singleton_self v)) 1
      hlen hget
    have hy : Yields (writeValue lua s L) (.ok ([], s₂)) := by
      refine ⟨n, fun fuel hf => ?_⟩
      simp only [writeValue, hn fuel hf, bind, Except.bind, happly]
      rfl
    exact Or.inr ⟨.wrote k v, s₂, .write hy⟩
  | counting =>
    obtain ⟨hclean, hsize, es, hstack, hentries⟩ := h
    have hcount : countEntries lua s = .ok ([.ofInteger lua.versionNum (UInt64.ofNat es.length)], s) := by
      rw [countEntries, hstack]
      rfl
    exact Or.inr ⟨_, s, .len hcount⟩

/-! ### Creation -/

def initial (es : List (Value P × Value P)) : List (TableReply P) := es.map fun e => .wrote e.1 e.2

theorem create_maps (lua : Lua P) {size : ℕ} (hsize : 1 ≤ size) (inc : ℕ) :
    Maps lua inc [] ⟨⟨ringbufferCreate size, []⟩, [.table [] .none], inc⟩ :=
  ⟨⟨Ringbuffer.create_valid hsize, Ringbuffer.create_content size⟩, rfl, [], rfl, .nil, nofun, nofun, fun _ _ => rfl⟩

theorem copyEntry_args (k v : Value P) (L : List (Value P)) (m : ℕ) :
    (v :: k :: L)[(v :: k :: L).length - ((v :: k :: L).length - 1)]? = some k ∧
      (List.replicate m k ++ v :: k :: L)[(List.replicate m k ++ v :: k :: L).length - (v :: k :: L).length]? =
        some v := by
  constructor
  · have hindex : (v :: k :: L).length - ((v :: k :: L).length - 1) = 1 := by
      rw [List.length_cons]
      omega
    rw [hindex]
    rfl
  · have hindex : (List.replicate m k ++ v :: k :: L).length - (v :: k :: L).length =
        (List.replicate m k).length := by
      rw [List.length_append]
      omega
    rw [hindex, List.getElem?_append_right le_rfl, Nat.sub_self]
    rfl

theorem copyEntry_maps (hl : lua.Rebuilds) {k v : Value P} (hk : IsKey lua k) (hv : v.Wf lua) :
    ∃ N, ∀ inc as (s : SharedTable P) L, Maps lua inc as s → ∀ fuel ≥ N, ∀ L' s',
      copyEntryToTable lua s (v :: k :: L) fuel = .ok (L', s') →
        Maps lua inc (as ++ [.wrote k v]) s' := by
  obtain ⟨N, hN⟩ := take_moved hl hk.wf
  obtain ⟨M, hM⟩ := take_moved hl hv
  refine ⟨max N M, fun inc as s L hmaps fuel hf L' s' hcopy => ?_⟩
  obtain ⟨hclean, hsize, es, hstack, hentries⟩ := hmaps
  rw [copyEntryToTable] at hcopy
  obtain ⟨⟨L₁, s₁⟩, hkey, hrest⟩ := bind_ok hcopy
  obtain ⟨⟨L₂, s₂⟩, hvalue, hrest⟩ := bind_ok hrest
  obtain ⟨s₃, happly, hret⟩ := bind_ok hrest
  cases hret
  obtain ⟨hclean₁, hsize₁, hstack₁, m, rfl⟩ :=
    hN s _ _ 0 hclean (Nat.sub_le _ _) (copyEntry_args k v L 0).1 fuel
    (by omega) _ _ hkey
  have hle : (v :: k :: L).length ≤ (List.replicate m k ++ v :: k :: L).length := by
    rw [List.length_append]
    omega
  obtain ⟨hclean₂, hsize₂, hstack₂, -⟩ :=
    hM s₁ _ _ 0 hclean₁ hle (copyEntry_args k v L m).2 fuel (by omega) _ _ hvalue
  rw [SharedTable.apply, hstack₂, hstack₁, hstack, hk.received, List.nil_append, luaSettableAt_table hk] at happly
  cases happly
  exact ⟨hclean₂, (hsize₂.trans hsize₁).trans hsize, _, rfl, hentries.write hk hv⟩

theorem initTable_maps (hl : lua.Rebuilds) (L : List (Value P)) {es : List (Value P × Value P)}
    (hes : ∀ e ∈ es, IsKey lua e.1 ∧ e.2.Wf lua) :
    ∃ N, ∀ inc as (s : SharedTable P), Maps lua inc as s → ∀ fuel ≥ N, ∀ s',
      initTable lua L fuel es s = .ok s' → Maps lua inc (as ++ initial es) s' := by
  induction es with
  | nil =>
    refine ⟨0, fun inc as s h fuel _ s' hinit => ?_⟩
    cases hinit
    rwa [initial, List.map_nil, List.append_nil]
  | cons e es ih =>
    obtain ⟨he, hes⟩ := List.forall_mem_cons.mp hes
    obtain ⟨N, hN⟩ := copyEntry_maps hl he.1 he.2
    obtain ⟨M, hM⟩ := ih hes
    refine ⟨max N M, fun inc as s h fuel hf s' hinit => ?_⟩
    obtain ⟨⟨L₁, s₁⟩, hcopy, hrest⟩ := bind_ok hinit
    have hmaps := hM inc _ s₁ (hN inc as s L h fuel (by omega) L₁ s₁ hcopy) fuel (by omega) s' hrest
    rwa [List.append_assoc, List.singleton_append] at hmaps

/-- A table of values that can be stored is copied. -/
theorem initTable_stores (hl : lua.Rebuilds) {inc : ℕ} (hinc : 1 ≤ inc) (hlt : inc < 2 ^ 63)
    (L : List (Value P)) {es : List (Value P × Value P)} (hes : ∀ e ∈ es, IsKey lua e.1 ∧ e.2.Wf lua)
    (hs : ∀ e ∈ es, Serialisable lua false e.2) {as : List (TableReply P)} {s : SharedTable P}
    (h : Maps lua inc as s) : ∃ s', Yields (fun fuel => initTable lua L fuel es s) (.ok s') := by
  induction es generalizing as s with
  | nil => exact ⟨s, 0, fun _ _ => rfl⟩
  | cons e es ih =>
    obtain ⟨k, v⟩ := e
    obtain ⟨⟨hk, hv⟩, hrest⟩ := List.forall_mem_cons.mp hes
    obtain ⟨hse, hsrest⟩ := List.forall_mem_cons.mp hs
    obtain ⟨hclean, hsize, entries, hstack, hentries⟩ := h
    have hkey := (copyEntry_args k v L 0).1
    obtain ⟨L₁, s₁, n, hn⟩ :=
      take_moves hl hk.wf (hk.serialisable.storable (hsize ▸ hinc) (hsize ▸ hlt) _) hclean 0
      (Nat.sub_le _ _) hkey
    obtain ⟨N, hN⟩ := take_moved hl hk.wf
    obtain ⟨hclean₁, hsize₁, hstack₁, m, rfl⟩ :=
      hN s _ _ 0 hclean (Nat.sub_le _ _) hkey (max n N) (by omega) _ _
      (hn _ (by omega))
    rw [hk.received, hstack] at hstack₁
    have habove : Above lua inc as [k] s₁ :=
      ⟨hclean₁, hsize₁.trans hsize, entries, hstack₁, hentries⟩
    have hle : (v :: k :: L).length ≤ (List.replicate m k ++ v :: k :: L).length := by
      rw [List.length_append]
      omega
    obtain ⟨L₂, s₂, s₃, ⟨n', hn'⟩, happly⟩ :=
      settable_moves hl hinc hlt habove hk hv hse 0 hle (copyEntry_args k v L m).2
    have hcopy : ∀ fuel ≥ max n n', copyEntryToTable lua s (v :: k :: L) fuel = .ok (L₂, s₃) := by
      intro fuel hf
      have hfirst := hn fuel (by omega)
      have hsecond := hn' fuel (by omega)
      simp only [copyEntryToTable, hfirst, bind, Except.bind, hsecond, happly]
      rfl
    obtain ⟨M, hM⟩ := copyEntry_maps hl hk hv
    have hmaps := hM inc as s L ⟨hclean, hsize, entries, hstack, hentries⟩ (max M (max n n'))
      (by omega) L₂ s₃ (hcopy _ (by omega))
    obtain ⟨s', k', hk'⟩ := ih hrest hsrest hmaps
    refine ⟨s', max k' (max n n'), fun fuel hf => ?_⟩
    have hlater := hk' fuel (by omega)
    simp only at hlater
    simp only [initTable, hcopy fuel (by omega), bind, Except.bind]
    exact hlater

end

def oneEntry : List (Value UInt8 × Value UInt8) := [(.boolean true, .string [7])]

end TorchIpc.Sharedtable
