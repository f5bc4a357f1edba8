import Mathlib.Data.List.Basic
import Mathlib.Tactic

/-! A stack of which only so many slots may be used. A push needs a free slot; whoever needs
more asks for them, and keeps them. Work that gives back what it takes needs some number of
free slots and no fewer; work that asks for a slot in each of its visits needs others only
where it pushes twice. -/

namespace TorchIpc.Slots

inductive Op where
  | push
  | pop (n : ℕ)
  | ensure (n : ℕ)
  deriving Repr, DecidableEq

/-- The slots in use, and those that may be used. -/
structure Level where
  height : ℕ
  capacity : ℕ
  deriving Repr, DecidableEq

def Op.run : Op → Level → Level
  | .push, l => ⟨l.height + 1, l.capacity⟩
  | .pop n, l => ⟨l.height - n, l.capacity⟩
  | .ensure n, l => ⟨l.height, max l.capacity (l.height + n)⟩

def run (ops : List Op) (l : Level) : Level := ops.foldl (fun l o => o.run l) l

def Within : List Op → Level → Prop
  | [], _ => True
  | o :: ops, l => (o = .push → l.height < l.capacity) ∧ Within ops (o.run l)

instance : ∀ ops l, Decidable (Within ops l)
  | [], _ => inferInstanceAs (Decidable True)
  | o :: ops, l =>
    have : Decidable (Within ops (o.run l)) := instDecidableWithin ops (o.run l)
    inferInstanceAs (Decidable ((o = .push → l.height < l.capacity) ∧ Within ops (o.run l)))

@[simp] theorem run_nil (l : Level) : run [] l = l := rfl

@[simp] theorem run_cons (o : Op) (ops : List Op) (l : Level) :
    run (o :: ops) l = run ops (o.run l) := rfl

theorem run_append (xs ys : List Op) (l : Level) : run (xs ++ ys) l = run ys (run xs l) :=
  List.foldl_append

@[simp] theorem within_nil (l : Level) : Within [] l := trivial

@[simp] theorem within_push (ops : List Op) (h c : ℕ) : Within (.push :: ops) ⟨h, c⟩ ↔ h < c ∧
    Within ops ⟨h + 1, c⟩ :=
  and_congr_left fun _ => forall_prop_of_true rfl

@[simp] theorem within_pop (n : ℕ) (ops : List Op) (h c : ℕ) : Within (.pop n :: ops) ⟨h, c⟩ ↔
    Within ops ⟨h - n, c⟩ :=
  and_iff_right nofun

@[simp] theorem within_ensure (n : ℕ) (ops : List Op) (h c : ℕ) :
    Within (.ensure n :: ops) ⟨h, c⟩ ↔ Within ops ⟨h, max c (h + n)⟩ := and_iff_right nofun

theorem within_append (xs ys : List Op) (l : Level) : Within (xs ++ ys) l ↔ Within xs l ∧
    Within ys (run xs l) := by
  induction xs generalizing l with
  | nil => exact (and_iff_right trivial).symm
  | cons o xs ih => rw [List.cons_append, Within, Within, ih, run_cons, and_assoc]

/-! ### Work that asks for nothing -/

/-- Above the uppermost `d` slots, which the work may use, it needs `n` more, and gives back what
it takes. -/
structure Takes (d : ℕ) (ops : List Op) (n : ℕ) : Prop where
  run_eq : ∀ h c, run ops ⟨h + d, c⟩ = ⟨h + d, c⟩
  within_iff : ∀ h c, h + d ≤ c → (Within ops ⟨h + d, c⟩ ↔ h + d + n ≤ c)

theorem Takes.nil (d : ℕ) : Takes d [] 0 := ⟨fun _ _ => rfl, fun _ _ hle => iff_of_true trivial hle⟩

theorem Takes.mono {d n : ℕ} {ops : List Op} (h : Takes d ops n) (e : ℕ) : Takes (e + d) ops n := by
  constructor
  · intro k c
    rw [← Nat.add_assoc]
    exact h.run_eq (k + e) c
  · intro k c hle
    rw [← Nat.add_assoc] at hle ⊢
    exact h.within_iff (k + e) c hle

theorem Takes.append {d m n : ℕ} {xs ys : List Op} (hx : Takes d xs m) (hy : Takes d ys n) :
    Takes d (xs ++ ys) (max m n) := by
  constructor
  · intro h c
    rw [run_append, hx.run_eq, hy.run_eq]
  · intro h c hle
    rw [within_append, hx.run_eq, hx.within_iff h c hle, hy.within_iff h c hle]
    omega

theorem Takes.wrap {d n : ℕ} {xs : List Op} (hx : Takes (d + 1) xs n) :
    Takes d (.push :: (xs ++ [.pop 1])) (n + 1) := by
  constructor
  · intro h c
    rw [run_cons, run_append]
    exact congrArg (run [.pop 1]) (hx.run_eq h c)
  · intro h c hle
    have hpop : ∀ l, Within [.pop 1] l := fun l => ⟨nofun, trivial⟩
    rw [within_push, within_append, and_iff_left (hpop _)]
    by_cases hlt : h + d < c
    · have hinner := hx.within_iff h c hlt
      rw [← Nat.add_assoc] at hinner
      rw [hinner]
      omega
    · omega

theorem takes_once (d : ℕ) : Takes d [.push, .pop 1] 1 := (Takes.nil (d + 1)).wrap

/-- The uppermost slot is replaced by two, and one of these is left. -/
theorem Takes.next {n : ℕ} {xs : List Op} (hx : Takes 0 xs n) :
    Takes 1 (.pop 1 :: .push :: .push :: (xs ++ [.pop 1])) (n + 1) := by
  constructor
  · intro h c
    rw [run_cons, run_cons, run_cons, run_append]
    exact congrArg (run [.pop 1]) (hx.run_eq (h + 2) c)
  · intro h c hle
    have hpop : ∀ l, Within [.pop 1] l := fun l => ⟨nofun, trivial⟩
    rw [within_pop, within_push, within_push, within_append, and_iff_left (hpop _), Nat.add_sub_cancel]
    by_cases hlt : h + 1 < c
    · rw [hx.within_iff (h + 2) c hlt]
      omega
    · omega

/-! ### Work that asks for a slot in each visit -/

/-- A slot is asked for at this height, and one more may be pushed without. -/
structure Visit where
  depth : ℕ
  twice : Bool
  deriving Repr, DecidableEq

def above (n : ℕ) (vs : List Visit) : List Visit := vs.map fun v => ⟨n + v.depth, v.twice⟩

theorem above_zero (vs : List Visit) : above 0 vs = vs := by simp [above]

theorem mem_above {v : Visit} {vs : List Visit} (hv : v ∈ vs) (n : ℕ) :
    ⟨n + v.depth, v.twice⟩ ∈ above n vs :=
  List.mem_map_of_mem hv

/-- The slots that may be used after the visits. -/
def reach (vs : List Visit) (h c : ℕ) : ℕ := vs.foldl (fun c v => max c (h + v.depth + 1)) c

/-- The second pushes of the visits find free slots. -/
def Fits : List Visit → ℕ → ℕ → Prop
  | [], _, _ => True
  | v :: vs, h, c => (v.twice = true → h + v.depth + 2 ≤ c) ∧ Fits vs h (max c (h + v.depth + 1))

theorem reach_append (vs ws : List Visit) (h c : ℕ) :
    reach (vs ++ ws) h c = reach ws h (reach vs h c) := List.foldl_append

theorem reach_above (n : ℕ) (vs : List Visit) (h c : ℕ) :
    reach (above n vs) h c = reach vs (h + n) c := by
  simp only [reach, above, List.foldl_map, Nat.add_assoc]

theorem le_reach (vs : List Visit) (h c : ℕ) : c ≤ reach vs h c := by
  induction vs generalizing c with
  | nil => exact le_rfl
  | cons v vs ih => exact (le_max_left _ _).trans (ih _)

theorem lt_reach {vs : List Visit} {v : Visit} (hv : v ∈ vs) (h c : ℕ) : h + v.depth <
    reach vs h c := by
  induction vs generalizing c with
  | nil => cases hv
  | cons w vs ih =>
    rcases List.mem_cons.mp hv with rfl | hv
    · exact (le_max_right c _).trans (le_reach vs h _)
    · exact ih hv _

theorem fits_append (vs ws : List Visit) (h c : ℕ) : Fits (vs ++ ws) h c ↔ Fits vs h c ∧
    Fits ws h (reach vs h c) := by
  induction vs generalizing c with
  | nil => exact (and_iff_right trivial).symm
  | cons v vs ih =>
    rw [List.cons_append, Fits, Fits, ih, and_assoc]
    rfl

theorem fits_above (n : ℕ) (vs : List Visit) (h c : ℕ) : Fits (above n vs) h c ↔
    Fits vs (h + n) c := by
  induction vs generalizing c with
  | nil => exact Iff.rfl
  | cons v vs ih =>
    change (_ ∧ Fits (above n vs) h _) ↔ _
    rw [ih, Fits]
    simp only [Nat.add_assoc]

/-- A second push fits if there was room for it, or something before it has asked for a slot
further up. -/
theorem fits_iff {vs : List Visit} {h c : ℕ} : Fits vs h c ↔ ∀ before v after,
    vs = before ++ v :: after → v.twice = true →
    h + v.depth + 2 ≤ c ∨ ∃ w ∈ before, v.depth < w.depth := by
  induction vs generalizing c with
  | nil => exact iff_of_true trivial fun before v after heq => absurd heq.symm (by simp)
  | cons w vs ih =>
    rw [Fits, ih]
    constructor
    · rintro ⟨hw, hvs⟩ before v after heq htwice
      cases before with
      | nil =>
        cases heq
        exact Or.inl (hw htwice)
      | cons w' before =>
        cases heq
        rcases hvs before v after rfl htwice with hroom | ⟨w', hw', hlt⟩
        · rcases le_max_iff.mp hroom with hroom | hroom
          · exact Or.inl hroom
          · exact Or.inr ⟨w, List.mem_cons_self, by omega⟩
        · exact Or.inr ⟨w', List.mem_cons_of_mem _ hw', hlt⟩
    · intro hall
      constructor
      · intro htwice
        rcases hall [] w vs rfl htwice with hroom | ⟨w', hw', -⟩
        · exact hroom
        · cases hw'
      · intro before v after heq htwice
        rcases hall (w :: before) v after (by rw [heq, List.cons_append]) htwice with hroom | ⟨w', hw', hlt⟩
        · exact Or.inl (le_max_of_le_left hroom)
        · rcases List.mem_cons.mp hw' with rfl | hw'
          · exact Or.inl (le_max_of_le_right (by omega))
          · exact Or.inr ⟨w', hw', hlt⟩

/-- The work makes these visits, and leaves `e` slots more in use than it has found. They are
slots that it has asked for. -/
structure Visits (ops : List Op) (e : ℕ) (vs : List Visit) : Prop where
  run_eq : ∀ h c, run ops ⟨h, c⟩ = ⟨h + e, reach vs h c⟩
  within_iff : ∀ h c, h ≤ c → (Within ops ⟨h, c⟩ ↔ Fits vs h c)
  held : e = 0 ∨ ∃ v ∈ vs, e ≤ v.depth + 1

theorem Visits.le_reach {ops : List Op} {e : ℕ} {vs : List Visit} (hv : Visits ops e vs) {h c : ℕ}
    (hle : h ≤ c) :
    h + e ≤ reach vs h c := by
  rcases hv.held with rfl | ⟨v, hmem, hdepth⟩
  · exact hle.trans (Slots.le_reach vs h c)
  · have hlt := lt_reach hmem h c
    omega

theorem Visits.nil : Visits [] 0 [] :=
  ⟨fun _ _ => rfl, fun _ _ _ => iff_of_true trivial trivial, Or.inl rfl⟩

theorem visits_ensure : Visits [.ensure 1] 0 [⟨0, false⟩] :=
  ⟨fun _ _ => rfl, fun _ _ _ => iff_of_true ⟨nofun, trivial⟩ ⟨nofun, trivial⟩, Or.inl rfl⟩

theorem visits_push : Visits [.ensure 1, .push] 1 [⟨0, false⟩] := by
  refine ⟨fun h c => rfl, fun h c hle => ?_, Or.inr ⟨_, List.mem_cons_self, le_rfl⟩⟩
  rw [within_ensure, within_push]
  exact iff_of_true ⟨by omega, trivial⟩ ⟨nofun, trivial⟩

theorem visits_twice : Visits [.ensure 1, .push, .push, .pop 1] 1 [⟨0, true⟩] := by
  refine ⟨fun h c => rfl, fun h c hle => ?_, Or.inr ⟨_, List.mem_cons_self, le_rfl⟩⟩
  rw [within_ensure, within_push, within_push]
  constructor
  · rintro ⟨-, hlt, -⟩
    exact ⟨fun _ => by change h + 0 + 2 ≤ c; omega, trivial⟩
  · rintro ⟨hroom, -⟩
    have hroom' : h + 0 + 2 ≤ c := hroom rfl
    exact ⟨by omega, by omega, nofun, trivial⟩

theorem Visits.append {xs ys : List Op} {d e : ℕ} {vs ws : List Visit} (hx : Visits xs d vs)
    (hy : Visits ys e ws) :
    Visits (xs ++ ys) (d + e) (vs ++ above d ws) := by
  refine ⟨fun h c => ?_, fun h c hle => ?_, ?_⟩
  · rw [run_append, hx.run_eq, hy.run_eq, reach_append, reach_above, Nat.add_assoc]
  · rw [within_append, hx.run_eq, hx.within_iff h c hle, hy.within_iff _ _ (hx.le_reach hle), fits_append, fits_above]
  · rcases hy.held with rfl | ⟨w, hw, hdepth⟩
    · rcases hx.held with rfl | ⟨v, hv, hdepth⟩
      · exact Or.inl rfl
      · exact Or.inr ⟨v, List.mem_append_left _ hv, hdepth⟩
    · refine Or.inr ⟨⟨d + w.depth, w.twice⟩, List.mem_append_right _ (List.mem_map_of_mem hw), ?_⟩
      change d + e ≤ d + w.depth + 1
      omega

theorem Visits.chain {xs ys : List Op} {vs ws : List Visit} (hx : Visits xs 0 vs) (hy : Visits ys 0 ws) :
    Visits (xs ++ ys) 0 (vs ++ ws) := by
  have h := hx.append hy
  rwa [above_zero] at h

theorem Visits.drop {xs : List Op} {e n : ℕ} {vs : List Visit} (hx : Visits xs (e + n) vs) :
    Visits (xs ++ [.pop n]) e vs := by
  refine ⟨fun h c => ?_, fun h c hle => ?_, ?_⟩
  · rw [run_append, hx.run_eq, ← Nat.add_assoc]
    change Level.mk (h + e + n - n) _ = _
    rw [Nat.add_sub_cancel]
  · rw [within_append, hx.within_iff h c hle]
    exact and_iff_left ⟨nofun, trivial⟩
  · rcases hx.held with hzero | ⟨v, hv, hdepth⟩
    · exact Or.inl (by omega)
    · exact Or.inr ⟨v, hv, by omega⟩

/-- Work that asks for nothing, where something further up has been visited. -/
theorem Visits.takes {xs ys : List Op} {d e n : ℕ} {vs : List Visit} (hx : Visits xs (e + d) vs)
    (hy : Takes d ys n) (hcovered : ∃ v ∈ vs, e + d + n ≤ v.depth + 1) :
    Visits (xs ++ ys) (e + d) vs := by
  refine ⟨fun h c => ?_, fun h c hle => ?_, hx.held⟩
  · rw [run_append, hx.run_eq, ← Nat.add_assoc, hy.run_eq]
  · obtain ⟨v, hv, hdepth⟩ := hcovered
    have hlt := lt_reach hv h c
    have hroom := hx.le_reach hle
    rw [← Nat.add_assoc] at hroom
    rw [within_append, hx.run_eq, hx.within_iff h c hle, ← Nat.add_assoc, hy.within_iff _ _ hroom]
    exact and_iff_left (by omega)

end TorchIpc.Slots
