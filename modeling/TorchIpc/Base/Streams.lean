import Mathlib.Data.List.Basic
import Mathlib.Logic.Function.Basic
import Mathlib.Logic.Relation

/-! Copies that a device makes on its own. A program issues copies and goes on; each cell is
copied at some moment before the program has waited for an event recorded behind the copy.
A program that keeps off the cells of the copies in flight does what it would do if every
copy were made on the spot. -/

namespace TorchIpc.Streams

/-- The copy of one cell, and whether the event has been recorded behind it. -/
structure Move (L : Type*) where
  src : L
  dst : L
  recorded : Bool

/-- The memory, and the copies that have not been made yet. -/
structure Device (L V : Type*) where
  mem : L → V
  inFlight : List (Move L)

/-- The commands of a program with a state `σ` of its own. A `get` reads cells and may fail; a
`put` fails, or has values to store, or waits for them. -/
inductive Cmd (L V σ ε : Type*) where
  | copyAsync (cells : List (L × L))
  | record
  | synchronize
  /-- Wait for everything. -/
  | finish
  | get (cells : List L) (f : List V → σ → Except ε σ)
  | put (cells : List L) (f : σ → Option (Except ε (List V × σ)))

section
variable {L V σ ε : Type*} [DecidableEq L]

def issued (c : L × L) : Move L := ⟨c.1, c.2, false⟩

inductive Effect : Device L V → Device L V → Prop where
  | mk {mem before m after} :
      Effect ⟨mem, before ++ m :: after⟩ ⟨Function.update mem m.dst (mem m.src), before ++ after⟩

inductive Reads : Device L V → List L → List V → Device L V → Prop where
  | nil {d} : Reads d [] [] d
  | effect {d d' d'' ls vs} : Effect d d' → Reads d' ls vs d'' → Reads d ls vs d''
  | cons {d d' l ls vs} : Reads d ls vs d' → Reads d (l :: ls) (d.mem l :: vs) d'

inductive Writes : Device L V → List L → List V → Device L V → Prop where
  | nil {d ls vs} : ls = [] ∨ vs = [] → Writes d ls vs d
  | effect {d d' d'' ls vs} : Effect d d' → Writes d' ls vs d'' → Writes d ls vs d''
  | cons {d d' l ls v vs} : Writes ⟨Function.update d.mem l v, d.inFlight⟩ ls vs d' →
      Writes d (l :: ls) (v :: vs) d'

/-- The runs of a program that end, with copies made at any moment. -/
inductive Executes : List (Cmd L V σ ε) → Device L V → σ → Except ε (Device L V × σ) → Prop where
  | done {d s} : Executes [] d s (.ok (d, s))
  | effect {cs d d' s r} : Effect d d' → Executes cs d' s r → Executes cs d s r
  | copyAsync {cells cs mem ms s r} : Executes cs ⟨mem, ms ++ cells.map issued⟩ s r →
      Executes (.copyAsync cells :: cs) ⟨mem, ms⟩ s r
  | record {cs mem ms s r} : Executes cs ⟨mem, ms.map fun m => { m with recorded := true }⟩ s r →
      Executes (.record :: cs) ⟨mem, ms⟩ s r
  | synchronize {cs d s r} : (∀ m ∈ d.inFlight, m.recorded = false) → Executes cs d s r →
      Executes (.synchronize :: cs) d s r
  | finish {cs d s r} : d.inFlight = [] → Executes cs d s r → Executes (.finish :: cs) d s r
  | get {cells f cs d d' s s' vs r} : Reads d cells vs d' → f vs s = .ok s' → Executes cs d' s' r →
      Executes (.get cells f :: cs) d s r
  | getError {cells f cs d d' s vs e} : Reads d cells vs d' → f vs s = .error e →
      Executes (.get cells f :: cs) d s (.error e)
  | put {cells f cs d d' s s' vs r} : f s = some (.ok (vs, s')) → Writes d cells vs d' →
      Executes cs d' s' r → Executes (.put cells f :: cs) d s r
  | putError {cells f cs d s e} : f s = some (.error e) →
      Executes (.put cells f :: cs) d s (.error e)

/-! ### The program without a device -/

def copyCells (cells : List (L × L)) (mem : L → V) : L → V :=
  cells.foldl (fun mem c => Function.update mem c.2 (mem c.1)) mem

def setCells : List L → List V → (L → V) → L → V
  | l :: ls, v :: vs, mem => setCells ls vs (Function.update mem l v)
  | _, _, mem => mem

/-- The program with every copy made on the spot; no result where it waits for ever. -/
def sequential : List (Cmd L V σ ε) → (L → V) → σ → Option (Except ε ((L → V) × σ))
  | [], mem, s => some (.ok (mem, s))
  | .copyAsync cells :: cs, mem, s => sequential cs (copyCells cells mem) s
  | .record :: cs, mem, s => sequential cs mem s
  | .synchronize :: cs, mem, s => sequential cs mem s
  | .finish :: cs, mem, s => sequential cs mem s
  | .get cells f :: cs, mem, s =>
    match f (cells.map mem) s with
    | .ok s' => sequential cs mem s'
    | .error e => some (.error e)
  | .put cells f :: cs, mem, s =>
    match f s with
    | some (.ok (vs, s')) => sequential cs (setCells cells vs mem) s'
    | some (.error e) => some (.error e)
    | none => none

theorem sequential_get {cells : List L} {f : List V → σ → Except ε σ} {cs : List (Cmd L V σ ε)}
    {mem : L → V} {s s' : σ} (h : f (cells.map mem) s = .ok s') :
    sequential (.get cells f :: cs) mem s = sequential cs mem s' := by
  rw [sequential, h]

theorem sequential_put {cells : List L} {f : σ → Option (Except ε (List V × σ))} {cs : List (Cmd L V σ ε)}
    {mem : L → V} {s s' : σ} {vs : List V} (h : f s = some (.ok (vs, s'))) :
    sequential (.put cells f :: cs) mem s = sequential cs (setCells cells vs mem) s' := by
  rw [sequential, h]

/-! ### Keeping off the copies in flight -/

/-- No two of the copies write the same cell, and none reads what another writes. -/
structure Exclusive (ms : List (Move L)) : Prop where
  nodup : (ms.map Move.dst).Nodup
  apart : ∀ m ∈ ms, ∀ m' ∈ ms, m.src ≠ m'.dst

/-- The command may be run beside these copies: it reads no cell that they write, and writes
none that they read or write. -/
def Permitted (ms : List (Move L)) : Cmd L V σ ε → Prop
  | .copyAsync cells => Exclusive (ms ++ cells.map issued)
  | .record => True
  | .synchronize => True
  | .finish => True
  | .get cells _ => ∀ l ∈ cells, ∀ m ∈ ms, m.dst ≠ l
  | .put cells _ => ∀ l ∈ cells, ∀ m ∈ ms, m.dst ≠ l ∧ m.src ≠ l

/-- The copies that may be in flight after a command. -/
def flight (ms : List (Move L)) : Cmd L V σ ε → List (Move L)
  | .copyAsync cells => ms ++ cells.map issued
  | .record => ms.map fun m => { m with recorded := true }
  | .synchronize => ms.filter fun m => !m.recorded
  | .finish => []
  | .get _ _ => ms
  | .put _ _ => ms

/-- Every command keeps off all copies that may be in flight. -/
def RaceFree (ms : List (Move L)) : List (Cmd L V σ ε) → Prop
  | [] => True
  | c :: cs => Permitted ms c ∧ RaceFree (flight ms c) cs

/-- A program that keeps off the copies in flight, and has waited for all of them in the end. -/
structure Orderly (ms : List (Move L)) (cs : List (Cmd L V σ ε)) : Prop where
  raceFree : RaceFree ms cs
  finished : cs.foldl flight ms = []

/-- The memory is what it will be once the copies have been made. -/
structure Settles (d : Device L V) (mem : L → V) : Prop where
  dst : ∀ m ∈ d.inFlight, mem m.dst = d.mem m.src
  other : ∀ l, (∀ m ∈ d.inFlight, m.dst ≠ l) → mem l = d.mem l

/-! ### Copies and settled memory -/

variable {ms ms' : List (Move L)} {mem : L → V} {d d' : Device L V} {cells : List (L × L)} {ls : List L}
  {vs : List V}

omit [DecidableEq L] in
theorem Exclusive.nil : Exclusive ([] : List (Move L)) := ⟨List.nodup_nil, nofun⟩

omit [DecidableEq L] in
theorem Exclusive.sublist (h : Exclusive ms) (hsub : ms'.Sublist ms) : Exclusive ms' where
  nodup := h.nodup.sublist (hsub.map Move.dst)
  apart m hm m' hm' := h.apart m (hsub.subset hm) m' (hsub.subset hm')

omit [DecidableEq L] in
theorem Exclusive.record (h : Exclusive ms) :
    Exclusive (ms.map fun m => { m with recorded := true }) where
  nodup := by simpa [Function.comp_def] using h.nodup
  apart := by simpa using h.apart

theorem copyCells_other {l : L} (h : l ∉ cells.map Prod.snd) : copyCells cells mem l = mem l := by
  induction cells generalizing mem with
  | nil => rfl
  | cons c cells ih =>
    rw [List.map_cons, List.mem_cons, not_or] at h
    exact (ih h.2).trans (Function.update_of_ne h.1 _ _)

theorem copyCells_dst (hnodup : (cells.map Prod.snd).Nodup)
    (hapart : ∀ c ∈ cells, ∀ c' ∈ cells, c.1 ≠ c'.2) :
    ∀ c ∈ cells, copyCells cells mem c.2 = mem c.1 := by
  induction cells generalizing mem with
  | nil => simp
  | cons c cells ih =>
    rw [List.map_cons, List.nodup_cons] at hnodup
    rintro c' hc'
    rcases List.mem_cons.mp hc' with rfl | hc'
    · exact (copyCells_other hnodup.1).trans (Function.update_self _ _ _)
    · have hrest := @ih (Function.update mem c.2 (mem c.1)) hnodup.2
        (fun a ha b hb => hapart a (List.mem_cons_of_mem _ ha) b (List.mem_cons_of_mem _ hb)) c' hc'
      have hne := hapart c' (List.mem_cons_of_mem _ hc') c List.mem_cons_self
      exact hrest.trans (Function.update_of_ne hne _ _)

theorem map_copyCells (hex : Exclusive (cells.map issued)) (mem : L → V) :
    (cells.map Prod.snd).map (copyCells cells mem) = (cells.map Prod.fst).map mem := by
  have hnodup := hex.nodup
  rw [List.map_map] at hnodup
  rw [List.map_map, List.map_map]
  exact List.map_congr_left (copyCells_dst hnodup fun a ha b hb =>
    hex.apart _ (List.mem_map_of_mem ha) _ (List.mem_map_of_mem hb))

theorem setCells_other {l : L} (h : l ∉ ls) : setCells ls vs mem l = mem l := by
  induction ls generalizing vs mem with
  | nil => rfl
  | cons l' ls ih =>
    rw [List.mem_cons, not_or] at h
    cases vs with
    | nil => rfl
    | cons v vs => exact (ih h.2).trans (Function.update_of_ne h.1 _ _)

theorem map_setCells (hnodup : ls.Nodup) (hlen : vs.length = ls.length) :
    ls.map (setCells ls vs mem) = vs := by
  induction ls generalizing vs mem with
  | nil => exact (List.eq_nil_of_length_eq_zero hlen).symm
  | cons l ls ih =>
    rw [List.nodup_cons] at hnodup
    cases vs with
    | nil => cases hlen
    | cons v vs =>
      rw [setCells, List.map_cons, setCells_other hnodup.1, Function.update_self,
        ih hnodup.2 (Nat.succ.inj hlen)]

omit [DecidableEq L] in
theorem Settles.of_nil : Settles (⟨mem, []⟩ : Device L V) mem := ⟨nofun, fun _ _ => rfl⟩

omit [DecidableEq L] in
theorem Settles.eq (h : Settles d mem) (hnil : d.inFlight = []) : d.mem = mem := by
  funext l
  exact (h.other l (by simp [hnil])).symm

theorem Effect.sublist (h : Effect d d') : d'.inFlight.Sublist d.inFlight := by
  cases h
  exact (List.Sublist.refl _).append (List.sublist_cons_self _ _)

theorem Settles.effect (h : Settles d mem) (hex : Exclusive d.inFlight) (heff : Effect d d') :
    Settles d' mem := by
  cases heff with
  | @mk mem₀ before m after =>
    have hm : m ∈ before ++ m :: after := by simp
    have hrest : ∀ m' ∈ before ++ after, m' ∈ before ++ m :: after := fun m' hm' => by
      rcases List.mem_append.mp hm' with h' | h'
      · simp [h']
      · simp [h']
    constructor
    · intro m' hm'
      have hne := hex.apart m' (hrest m' hm') m hm
      exact (h.dst m' (hrest m' hm')).trans (Function.update_of_ne hne _ _).symm
    · intro l hl
      by_cases hlm : l = m.dst
      · subst hlm
        change mem m.dst = Function.update mem₀ m.dst (mem₀ m.src) m.dst
        rw [Function.update_self]
        exact h.dst m hm
      · have hall : ∀ m' ∈ before ++ m :: after, m'.dst ≠ l := by
          intro m' hm'
          rcases List.mem_append.mp hm' with h' | h'
          · exact hl m' (List.mem_append_left _ h')
          · rcases List.mem_cons.mp h' with rfl | h'
            · exact Ne.symm hlm
            · exact hl m' (List.mem_append_right _ h')
        exact (h.other l hall).trans (Function.update_of_ne hlm _ _).symm

theorem Settles.copyAsync {mem₀ : L → V} (h : Settles ⟨mem₀, ms⟩ mem)
    (hex : Exclusive (ms ++ cells.map issued)) :
    Settles ⟨mem₀, ms ++ cells.map issued⟩ (copyCells cells mem) := by
  have hnodup := hex.nodup
  rw [List.map_append, List.map_map, List.nodup_append] at hnodup
  obtain ⟨-, hnew, hdisjoint⟩ := hnodup
  have hissued : ∀ c ∈ cells, issued c ∈ ms ++ cells.map issued := fun c hc =>
    List.mem_append_right _ (List.mem_map_of_mem hc)
  constructor
  · intro m hm
    rcases List.mem_append.mp hm with hold | hm
    · have hother : m.dst ∉ cells.map Prod.snd := fun hmem =>
        hdisjoint _ (List.mem_map_of_mem hold) _ hmem rfl
      exact (copyCells_other hother).trans (h.dst m hold)
    · obtain ⟨c, hc, rfl⟩ := List.mem_map.mp hm
      have hcopy := @copyCells_dst L V _ mem cells hnew
        (fun a ha b hb => hex.apart _ (hissued a ha) _ (hissued b hb)) c hc
      refine hcopy.trans (h.other _ fun m hm he => ?_)
      exact hex.apart _ (hissued c hc) m (List.mem_append_left _ hm) he.symm
  · intro l hl
    have hother : l ∉ cells.map Prod.snd := fun hmem => by
      obtain ⟨c, hc, rfl⟩ := List.mem_map.mp hmem
      exact hl _ (hissued c hc) rfl
    exact (copyCells_other hother).trans (h.other l fun m hm => hl m (List.mem_append_left _ hm))

theorem Settles.reads (hreads : Reads d ls vs d') (h : Settles d mem) (hex : Exclusive d.inFlight)
    (hoff : ∀ l ∈ ls, ∀ m ∈ d.inFlight, m.dst ≠ l) :
    vs = ls.map mem ∧ Settles d' mem ∧ d'.inFlight.Sublist d.inFlight := by
  induction hreads with
  | nil => exact ⟨rfl, h, List.Sublist.refl _⟩
  | effect heff _ ih =>
    have hsub := heff.sublist
    obtain ⟨hvs, hsettles, hsub'⟩ := ih (h.effect hex heff) (hex.sublist hsub)
      fun l hl m hm => hoff l hl m (hsub.subset hm)
    exact ⟨hvs, hsettles, hsub'.trans hsub⟩
  | cons _ ih =>
    obtain ⟨hvs, hrest⟩ := ih h hex fun l hl => hoff l (List.mem_cons_of_mem _ hl)
    exact ⟨by rw [List.map_cons, hvs, h.other _ (hoff _ List.mem_cons_self)], hrest⟩

theorem Settles.write {mem₀ : L → V} (h : Settles ⟨mem₀, ms⟩ mem) {l : L}
    (hoff : ∀ m ∈ ms, m.dst ≠ l ∧ m.src ≠ l) (v : V) :
    Settles ⟨Function.update mem₀ l v, ms⟩ (Function.update mem l v) where
  dst m hm := by
    simp only [Function.update_of_ne (hoff m hm).1, Function.update_of_ne (hoff m hm).2]
    exact h.dst m hm
  other l' hl' := by
    by_cases heq : l' = l
    · subst heq
      simp only [Function.update_self]
    · simp only [Function.update_of_ne heq]
      exact h.other l' hl'

theorem Settles.writes (hwrites : Writes d ls vs d') (h : Settles d mem) (hex : Exclusive d.inFlight)
    (hoff : ∀ l ∈ ls, ∀ m ∈ d.inFlight, m.dst ≠ l ∧ m.src ≠ l) :
    Settles d' (setCells ls vs mem) ∧ d'.inFlight.Sublist d.inFlight := by
  induction hwrites generalizing mem with
  | @nil d ls vs hnil =>
    have hset : setCells ls vs mem = mem := by
      cases ls with
      | nil => rfl
      | cons l ls =>
        obtain rfl := hnil.resolve_left (List.cons_ne_nil _ _)
        rfl
    rw [hset]
    exact ⟨h, List.Sublist.refl _⟩
  | effect heff _ ih =>
    have hsub := heff.sublist
    obtain ⟨hsettles, hsub'⟩ := ih (h.effect hex heff) (hex.sublist hsub)
      fun l hl m hm => hoff l hl m (hsub.subset hm)
    exact ⟨hsettles, hsub'.trans hsub⟩
  | cons _ ih =>
    exact ih (h.write (hoff _ List.mem_cons_self) _) hex fun l hl =>
      hoff l (List.mem_cons_of_mem _ hl)

/-! ### Runs -/

variable {c : Cmd L V σ ε} {cs before after : List (Cmd L V σ ε)} {st st' : σ}

/-- A run ends like the program without a device, apart from copies that may be in flight. -/
inductive Agrees (ms : List (Move L)) : Except ε (Device L V × σ) → Except ε ((L → V) × σ) →
    Prop where
  | ok {d : Device L V} {mem s} : Settles d mem → d.inFlight.Sublist ms →
      Agrees ms (.ok (d, s)) (.ok (mem, s))
  | error {e} : Agrees ms (.error e) (.error e)

omit [DecidableEq L] in
theorem Permitted.sublist (h : Permitted ms c) (hsub : ms'.Sublist ms) : Permitted ms' c := by
  cases c with
  | copyAsync cells => exact Exclusive.sublist h (hsub.append (List.Sublist.refl _))
  | get cells f => exact fun l hl m hm => h l hl m (hsub.subset hm)
  | put cells f => exact fun l hl m hm => h l hl m (hsub.subset hm)
  | record => trivial
  | synchronize => trivial
  | finish => trivial

omit [DecidableEq L] in
theorem Exclusive.flight (h : Exclusive ms) (hc : Permitted ms c) : Exclusive (flight ms c) := by
  cases c with
  | copyAsync cells => exact hc
  | record => exact h.record
  | synchronize => exact h.sublist List.filter_sublist
  | finish => exact .nil
  | get cells f => exact h
  | put cells f => exact h

omit [DecidableEq L] in
theorem raceFree_append : RaceFree ms (before ++ after) ↔
    RaceFree ms before ∧ RaceFree (before.foldl flight ms) after := by
  induction before generalizing ms with
  | nil => simp [RaceFree]
  | cons c before ih => simp only [List.cons_append, RaceFree, ih, List.foldl_cons, and_assoc]

omit [DecidableEq L] in
theorem Orderly.nil : Orderly [] ([] : List (Cmd L V σ ε)) := ⟨trivial, rfl⟩

omit [DecidableEq L] in
theorem Orderly.cons (hc : Permitted ms c) (h : Orderly (Streams.flight ms c) cs) :
    Orderly ms (c :: cs) :=
  ⟨⟨hc, h.raceFree⟩, h.finished⟩

/-- Whenever the copies are made, a program that keeps off them ends as if they had been made
on the spot. -/
theorem Executes.agrees {r : Except ε (Device L V × σ)} (hrun : Executes cs d st r) (hex : Exclusive ms)
    (hfree : RaceFree ms cs) (hsub : d.inFlight.Sublist ms) (h : Settles d mem) :
    ∃ r', sequential cs mem st = some r' ∧ Agrees (cs.foldl flight ms) r r' := by
  induction hrun generalizing ms mem with
  | done => exact ⟨_, rfl, .ok h hsub⟩
  | effect heff _ ih =>
    exact ih hex hfree (heff.sublist.trans hsub) (h.effect (hex.sublist hsub) heff)
  | @copyAsync cells _ _ _ _ _ _ ih =>
    have hall := hsub.append (List.Sublist.refl (cells.map issued))
    exact ih (hex.flight hfree.1) hfree.2 hall (h.copyAsync (Exclusive.sublist hfree.1 hall))
  | record _ ih =>
    refine ih (hex.flight hfree.1) hfree.2 (hsub.map _) ⟨?_, ?_⟩
    · simpa using h.dst
    · simpa using h.other
  | synchronize hwait _ ih =>
    refine ih (hex.flight hfree.1) hfree.2 ?_ h
    have hkept := hsub.filter fun m => !m.recorded
    rwa [List.filter_eq_self.mpr fun m hm => by rw [hwait m hm]; rfl] at hkept
  | finish hwait _ ih =>
    refine ih (hex.flight hfree.1) hfree.2 ?_ h
    rw [hwait]
    exact List.nil_sublist _
  | get hreads hf _ ih =>
    obtain ⟨rfl, hsettles, hsub'⟩ :=
      Settles.reads hreads h (hex.sublist hsub) (Permitted.sublist hfree.1 hsub)
    rw [sequential, hf]
    exact ih hex hfree.2 (hsub'.trans hsub) hsettles
  | getError hreads hf =>
    obtain ⟨rfl, -⟩ := Settles.reads hreads h (hex.sublist hsub) (Permitted.sublist hfree.1 hsub)
    exact ⟨_, by rw [sequential, hf], .error⟩
  | put hf hwrites _ ih =>
    obtain ⟨hsettles, hsub'⟩ :=
      Settles.writes hwrites h (hex.sublist hsub) (Permitted.sublist hfree.1 hsub)
    rw [sequential, hf]
    exact ih hex hfree.2 (hsub'.trans hsub) hsettles
  | putError hf => exact ⟨_, by rw [sequential, hf], .error⟩

theorem executes_copyCells {r : Except ε (Device L V × σ)} (h : Executes cs ⟨copyCells cells mem, []⟩ st r) :
    Executes cs ⟨mem, cells.map issued⟩ st r := by
  induction cells generalizing mem with
  | nil => exact h
  | cons c cells ih => exact .effect (@Effect.mk L V _ mem [] (issued c) (cells.map issued)) (ih h)

theorem reads_all (d : Device L V) (ls : List L) : Reads d ls (ls.map d.mem) d := by
  induction ls with
  | nil => exact .nil
  | cons l ls ih => exact .cons ih

theorem writes_all (ms : List (Move L)) (ls : List L) (vs : List V) (mem : L → V) :
    Writes ⟨mem, ms⟩ ls vs ⟨setCells ls vs mem, ms⟩ := by
  induction ls generalizing vs mem with
  | nil => exact .nil (.inl rfl)
  | cons l ls ih =>
    cases vs with
    | nil => exact .nil (.inr rfl)
    | cons v vs => exact .cons (ih vs (Function.update mem l v))

/-- There is a run wherever the program ends without a device. -/
theorem exists_executes {r : Except ε ((L → V) × σ)} (h : sequential cs mem st = some r) :
    ∃ r', Executes cs ⟨mem, []⟩ st r' := by
  induction cs generalizing mem st with
  | nil => exact ⟨_, .done⟩
  | cons c cs ih =>
    cases c with
    | copyAsync cells =>
      obtain ⟨r', hrun⟩ := ih h
      exact ⟨r', .copyAsync (executes_copyCells hrun)⟩
    | record =>
      obtain ⟨r', hrun⟩ := ih h
      exact ⟨r', .record hrun⟩
    | synchronize =>
      obtain ⟨r', hrun⟩ := ih h
      exact ⟨r', .synchronize nofun hrun⟩
    | finish =>
      obtain ⟨r', hrun⟩ := ih h
      exact ⟨r', .finish rfl hrun⟩
    | get cells f =>
      rw [sequential] at h
      cases hf : f (cells.map mem) st with
      | error e => exact ⟨_, .getError (reads_all _ _) hf⟩
      | ok s =>
        rw [hf] at h
        obtain ⟨r', hrun⟩ := ih h
        exact ⟨r', .get (reads_all _ _) hf hrun⟩
    | put cells f =>
      rw [sequential] at h
      match hf : f st with
      | none =>
        rw [hf] at h
        cases h
      | some (.error e) => exact ⟨_, .putError hf⟩
      | some (.ok (vs, s)) =>
        rw [hf] at h
        obtain ⟨r', hrun⟩ := ih h
        exact ⟨r', .put hf (writes_all _ _ _ _) hrun⟩

/-- A program that waits for all copies in the end has the result of the program without a
device. -/
theorem Executes.eq_sequential {r : Except ε (Device L V × σ)} (hrun : Executes cs ⟨mem, []⟩ st r)
    (h : Orderly [] cs) :
    ∃ r', sequential cs mem st = some r' ∧ r = r'.map fun p => (⟨p.1, []⟩, p.2) := by
  obtain ⟨r', hseq, hagrees⟩ := hrun.agrees .nil h.raceFree (List.Sublist.refl _) .of_nil
  refine ⟨r', hseq, ?_⟩
  rw [h.finished] at hagrees
  cases hagrees with
  | @ok d mem s hsettles hsub =>
    have hnil := List.sublist_nil.mp hsub
    obtain rfl := hsettles.eq hnil
    obtain ⟨mem, inFlight⟩ := d
    obtain rfl : inFlight = [] := hnil
    rfl
  | error => rfl

/-- In every run, each command keeps off the copies that are in flight then. -/
theorem RaceFree.permitted (hfree : RaceFree [] (before ++ c :: after))
    (hrun : Executes before ⟨mem, []⟩ st (.ok (d, st'))) : Permitted d.inFlight c := by
  obtain ⟨hbefore, hc, -⟩ := raceFree_append.mp hfree
  obtain ⟨r', -, hagrees⟩ := hrun.agrees .nil hbefore (List.Sublist.refl _) .of_nil
  cases hagrees with
  | ok _ hsub => exact hc.sublist hsub

end

end TorchIpc.Streams
