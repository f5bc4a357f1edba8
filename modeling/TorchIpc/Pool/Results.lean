import TorchIpc.Pool.Orphans

/-! The results of a pool belong to their tasks. Lists go through tables on the way, which
lose what is behind a nil, and a result is told from a missing one by its truth. Where
nothing depends on that, the first result of a task is what the task returned, or the error
that it raised. -/

namespace TorchIpc.BackgroundTaskPool

open Runs

section
variable {P : Type}

/-! ### What has happened -/

def filedId : PoolEvent P → Option ℕ
  | .filed a => some a.id
  | _ => none

def ranId : PoolEvent P → Option ℕ
  | .ran t _ => some t.id
  | _ => none

/-- Nothing gets lost in the table, or is taken for no error. -/
def Ending.Plain : Ending P → Prop
  | .returned vs => ∀ v ∈ vs, v.isNil = false
  | .raised e => truthy e = true

/-- The argument list has no nil, and the task ends without a nil among its results, or with
an error value that counts as true. -/
def Exact : PoolEvent P → Prop
  | .added t => ∀ v ∈ t.args, v.isNil = false
  | .ran _ ending => ending.Plain
  | _ => True

def ExactStep (lua : Lua P) (closeOnLastTask : Bool) (s : Pool P) (e : PoolEvent P) (s' : Pool P) :
    Prop :=
  Exact e ∧ CoveredStep lua closeOnLastTask s e s'

/-- The answer is that of a worker which has run the task that was added. -/
def Ran (es : List (PoolEvent P)) (a : Answer P) : Prop :=
  ∃ t, .added t ∈ es ∧ t.id = a.id ∧ .ran t.received a.ending ∈ es ∧ a.ending.Plain

/-- The task was added, and nobody has asked for its result since. -/
def Untaken (es : List (PoolEvent P)) (id : ℕ) : Prop :=
  ∃ before t after, es = before ++ .added t :: after ∧ t.id = id ∧ ∀ r, .got id r ∉ after

/-- The result is filed under its id. -/
def Shows (s : Pool P) (a : Answer P) : Prop :=
  match a.ending with
  | .returned vs => s.successes a.id = some vs
  | .raised e => s.successes a.id = none ∧ s.failures a.id = some e

theorem Ran.snoc {es : List (PoolEvent P)} {a : Answer P} (h : Ran es a) (e : PoolEvent P) :
    Ran (es ++ [e]) a := by
  obtain ⟨t, hadded, hid, hran, hplain⟩ := h
  exact ⟨t, List.mem_append_left _ hadded, hid, List.mem_append_left _ hran, hplain⟩

/-- It was untaken before, unless it has just been added. -/
theorem Untaken.of_snoc {es : List (PoolEvent P)} {e : PoolEvent P} {id : ℕ} (h : Untaken (es ++ [e]) id) :
    (∃ t, e = .added t ∧ t.id = id) ∨ Untaken es id ∧ ∀ r, e ≠ .got id r := by
  obtain ⟨before, t, after, heq, hid, hgot⟩ := h
  rcases List.eq_nil_or_concat after with rfl | ⟨after, e', rfl⟩
  · obtain ⟨-, hlast⟩ := List.append_inj' heq rfl
    exact Or.inl ⟨t, List.singleton_inj.mp hlast, hid⟩
  · rw [List.concat_eq_append, ← List.cons_append, ← List.append_assoc] at heq
    obtain ⟨hinit, hlast⟩ := List.append_inj' heq rfl
    obtain rfl := List.singleton_inj.mp hlast
    refine Or.inr ⟨⟨before, t, after, hinit, hid, fun r hr => hgot r ?_⟩, fun r hr => hgot r ?_⟩
    · rw [List.concat_eq_append]
      exact List.mem_append_left _ hr
    · rw [List.concat_eq_append, hr]
      exact List.mem_append_right _ (List.mem_singleton_self _)

/-- Each task that was added is in one place, with what was added. -/
structure Traced (es : List (PoolEvent P)) (s : Pool P) : Prop where
  ids : (s.asked.map Task.id ++ s.running.map Task.id ++ s.answers.map Answer.id ++ es.filterMap filedId).Perm
    (List.range' 1 s.numTasks)
  filed : (es.filterMap filedId).length = s.numResults
  ran : (es.filterMap ranId).Perm (s.answers.map Answer.id ++ es.filterMap filedId)
  added : ∀ t, .added t ∈ es → 1 ≤ t.id ∧ t.id ≤ s.numTasks
  added_inj : ∀ t t', .added t ∈ es → .added t' ∈ es → t.id = t'.id → t = t'
  asked : ∀ t ∈ s.asked, .added t ∈ es ∧ ∀ v ∈ t.args, v.isNil = false
  running : ∀ t ∈ s.running, ∃ t₀, .added t₀ ∈ es ∧ t = t₀.received ∧ ∀ v ∈ t₀.args, v.isNil = false
  answers : ∀ a ∈ s.answers, Ran es a
  absent : ∀ id, id ∉ es.filterMap filedId → s.successes id = none ∧ s.failures id = none
  present : ∀ id ∈ es.filterMap filedId, Untaken es id → ∃ a, a.id = id ∧ Ran es a ∧
      Shows s a.received

theorem start_traced (poolSize : ℕ) : Traced [] (start poolSize : Pool P) := by
  refine ⟨?_, rfl, .nil, nofun, nofun, nofun, ?_, nofun, fun _ _ => ⟨rfl, rfl⟩, nofun⟩
  · rw [start_running]
    exact .nil
  · rw [start_running]
    exact nofun

theorem added_of_snoc {es : List (PoolEvent P)} {e : PoolEvent P} (he : ∀ t, e ≠ .added t) (t : Task P)
    (h : .added t ∈ es ++ [e]) : .added t ∈ es := by
  rcases List.mem_append.mp h with h | h
  · exact h
  · exact absurd (List.mem_singleton.mp h).symm (he t)

/-- Neither the tasks nor their results are concerned. -/
theorem Traced.silent {es : List (PoolEvent P)} {s s' : Pool P} (h : Traced es s) {e : PoolEvent P}
    (hfiled : filedId e = none) (hran : ranId e = none) (hadded : ∀ t, e ≠ .added t) (hasked : s'.asked = s.asked)
    (hrunning : s'.running = s.running) (hanswers : s'.answers = s.answers) (hnumTasks : s'.numTasks = s.numTasks)
    (hnumResults : s'.numResults = s.numResults) (hsuccesses : s'.successes = s.successes)
    (hfailures : s'.failures = s.failures) : Traced (es ++ [e]) s' := by
  have hfiledIds : (es ++ [e]).filterMap filedId = es.filterMap filedId := by
    rw [List.filterMap_append, List.filterMap_cons_none hfiled, List.filterMap_nil, List.append_nil]
  have hranIds : (es ++ [e]).filterMap ranId = es.filterMap ranId := by
    rw [List.filterMap_append, List.filterMap_cons_none hran, List.filterMap_nil, List.append_nil]
  have hold := @added_of_snoc P es e hadded
  refine ⟨?_, ?_, ?_, fun t ht => ?_, fun t t' ht ht' => h.added_inj t t' (hold t ht) (hold t' ht'), fun t ht => ?_,
    fun t ht => ?_, fun a ha => ?_, fun id hid => ?_, fun id hid huntaken => ?_⟩
  · rw [hasked, hrunning, hanswers, hnumTasks, hfiledIds]
    exact h.ids
  · rw [hfiledIds, hnumResults]
    exact h.filed
  · rw [hranIds, hanswers, hfiledIds]
    exact h.ran
  · rw [hnumTasks]
    exact h.added t (hold t ht)
  · rw [hasked] at ht
    exact ⟨List.mem_append_left _ (h.asked t ht).1, (h.asked t ht).2⟩
  · rw [hrunning] at ht
    obtain ⟨t₀, ht₀, heq, hargs⟩ := h.running t ht
    exact ⟨t₀, List.mem_append_left _ ht₀, heq, hargs⟩
  · rw [hanswers] at ha
    exact (h.answers a ha).snoc e
  · rw [hfiledIds] at hid
    rw [hsuccesses, hfailures]
    exact h.absent id hid
  · rw [hfiledIds] at hid
    rcases huntaken.of_snoc with ⟨t, ht, -⟩ | ⟨huntaken, -⟩
    · exact absurd ht (hadded t)
    · obtain ⟨a, ha, hrana, hshows⟩ := h.present id hid huntaken
      refine ⟨a, ha, hrana.snoc e, ?_⟩
      rw [Shows] at hshows ⊢
      rwa [hsuccesses, hfailures]

theorem received_plain {vs : List (Value P)} (h : ∀ v ∈ vs, v.isNil = false) :
    ∀ v ∈ vs.map Value.received, v.isNil = false := by
  intro v hv
  obtain ⟨u, hu, rfl⟩ := List.mem_map.mp hv
  rw [received_isNil]
  exact h u hu

theorem truthy_received (v : Value P) : truthy v.received = truthy v := by
  cases v <;> simp only [Value.received, truthy]

theorem file_shows {s : Pool P} {a : Answer P} (hplain : a.ending.Plain) (habsent : s.successes a.id = none) :
    Shows (s.file a.received) a.received := by
  obtain ⟨id, ending⟩ := a
  cases ending with
  | returned vs => exact Function.update_self _ _ _
  | raised e =>
    have htrue : truthy e.received = true := (truthy_received e).trans hplain
    rw [Shows, Pool.file]
    simp only [Answer.received, Ending.received, htrue, if_true]
    exact ⟨habsent, Function.update_self _ _ _⟩

theorem file_other (s : Pool P) {a : Answer P} {id : ℕ} (hid : id ≠ a.id) :
    (s.file a).successes id = s.successes id ∧ (s.file a).failures id = s.failures id := by
  rw [Pool.file]
  cases a.ending with
  | returned vs => exact ⟨Function.update_of_ne hid _ _, rfl⟩
  | raised e =>
    simp only
    split_ifs
    · exact ⟨rfl, Function.update_of_ne hid _ _⟩
    · exact ⟨Function.update_of_ne hid _ _, rfl⟩

/-- A task is in one place only, so that its result is filed once. -/
theorem Traced.not_filed {es : List (PoolEvent P)} {s : Pool P} (h : Traced es s) {a : Answer P}
    (ha : a ∈ s.answers) :
    a.id ∉ es.filterMap filedId := by
  have hnodup := h.ids.nodup_iff.mpr List.nodup_range'
  intro hfiled
  exact (List.nodup_append.mp hnodup).2.2 a.id (List.mem_append_right _ (List.mem_map_of_mem ha)) a.id hfiled rfl

variable {lua : Lua P} {closeOnLastTask : Bool}

theorem Traced.add {es : List (PoolEvent P)} {s : Pool P} (h : Traced es s) {t : Task P} (hid : t.id = s.numTasks + 1)
    (hargs : ∀ v ∈ t.args, v.isNil = false) : Traced (es ++ [.added t])
      { s with owner := .idle, numTasks := s.numTasks + 1, questions := s.questions ++ [some t] } := by
  have hasked : Pool.asked { s with
      owner := .idle, numTasks := s.numTasks + 1, questions :=
        s.questions ++ [some t] } = s.asked ++ [t] := by
    rw [Pool.asked, List.filterMap_append]
    rfl
  have hfiledIds : (es ++ [PoolEvent.added t]).filterMap filedId = es.filterMap filedId := by
    rw [List.filterMap_append]
    exact List.append_nil _
  have hranIds : (es ++ [PoolEvent.added t]).filterMap ranId = es.filterMap ranId := by
    rw [List.filterMap_append]
    exact List.append_nil _
  have hcases : ∀ t', .added t' ∈ es ++ [.added t] → .added t' ∈ es ∨ t' = t := by
    intro t' ht'
    rcases List.mem_append.mp ht' with ht' | ht'
    · exact Or.inl ht'
    · cases List.mem_singleton.mp ht'
      exact Or.inr rfl
  refine ⟨?_, by rw [hfiledIds]; exact h.filed, by rw [hranIds, hfiledIds]; exact h.ran, fun t' ht' => ?_,
    fun t₁ t₂ h₁ h₂ heq => ?_, fun t' ht' => ?_, fun t' ht' => ?_, fun a ha =>
      (h.answers a ha).snoc _,
    fun id hid => h.absent id (hfiledIds ▸ hid), fun id hid huntaken => ?_⟩
  · rw [hasked, hfiledIds]
    change List.Perm _ (List.range' 1 (s.numTasks + 1))
    rw [List.range'_concat, List.perm_iff_count]
    intro x
    have hcount := List.perm_iff_count.mp h.ids x
    simp only [List.map_append, List.map_cons, List.map_nil, List.count_append, hid, Nat.one_mul,
      Nat.add_comm 1] at hcount ⊢
    change _ + List.count x (s.running.map Task.id) + _ + _ = _
    omega
  · change 1 ≤ t'.id ∧ t'.id ≤ s.numTasks + 1
    rcases hcases t' ht' with hold | rfl
    · have hle := h.added t' hold
      omega
    · omega
  · rcases hcases t₁ h₁ with hold₁ | rfl
    · rcases hcases t₂ h₂ with hold₂ | rfl
      · exact h.added_inj t₁ t₂ hold₁ hold₂ heq
      · have hle := h.added t₁ hold₁
        omega
    · rcases hcases t₂ h₂ with hold₂ | rfl
      · have hle := h.added t₂ hold₂
        omega
      · rfl
  · rw [hasked] at ht'
    rcases List.mem_append.mp ht' with hold | hnew
    · exact ⟨List.mem_append_left _ (h.asked t' hold).1, (h.asked t' hold).2⟩
    · rw [List.mem_singleton.mp hnew]
      exact ⟨List.mem_append_right _ (List.mem_singleton_self _), hargs⟩
  · obtain ⟨t₀, ht₀, heq, hplain⟩ := h.running t' ht'
    exact ⟨t₀, List.mem_append_left _ ht₀, heq, hplain⟩
  · rw [hfiledIds] at hid
    rcases huntaken.of_snoc with ⟨t', heq, hid'⟩ | ⟨huntaken, -⟩
    -- nothing is filed under the id of a new task
    · cases heq
      have hmem : id ∈ List.range' 1 s.numTasks := h.ids.mem_iff.mp (List.mem_append_right _ hid)
      rw [List.mem_range'_1] at hmem
      omega
    · obtain ⟨a, ha, hrana, hshows⟩ := h.present id hid huntaken
      exact ⟨a, ha, hrana.snoc _, hshows⟩

theorem Traced.file {es : List (PoolEvent P)} {s : Pool P} (h : Traced es s) {a : Answer P} {rest : List (Answer P)}
    (hanswers : s.answers = a :: rest) :
    Traced (es ++ [.filed a]) (Pool.file { s with answers := rest } a.received) := by
  have hmem : a ∈ s.answers := by
    rw [hanswers]
    exact List.mem_cons_self
  have hnew := h.not_filed hmem
  have hran := h.answers a hmem
  have hfiledIds : (es ++ [PoolEvent.filed a]).filterMap filedId =
      es.filterMap filedId ++ [a.id] := by
    rw [List.filterMap_append]
    rfl
  have hranIds : (es ++ [PoolEvent.filed a]).filterMap ranId = es.filterMap ranId := by
    rw [List.filterMap_append]
    exact List.append_nil _
  have hold := @added_of_snoc P es (.filed a) fun _ => nofun
  obtain ⟨successes, failures, hfile⟩ := file_frame { s with answers := rest } a.received
  have hshows := file_shows (s := { s with answers := rest }) hran.choose_spec.2.2.2 (h.absent a.id hnew).1
  have hother : ∀ id ≠ a.id, successes id = s.successes id ∧ failures id = s.failures id := by
    intro id hid
    have hkept := file_other { s with answers := rest } (a := a.received) hid
    rwa [hfile] at hkept
  rw [hfile] at hshows ⊢
  refine ⟨?_, ?_, ?_, fun t ht => h.added t (hold t ht), fun t t' ht ht' => h.added_inj t t' (hold t ht) (hold t' ht'),
    fun t ht => ⟨List.mem_append_left _ (h.asked t ht).1, (h.asked t ht).2⟩, fun t ht =>
      ?_, fun b hb => ?_,
    fun id hid => ?_, fun id hid huntaken => ?_⟩
  · rw [hfiledIds, List.perm_iff_count]
    intro x
    have hcount := List.perm_iff_count.mp h.ids x
    rw [hanswers] at hcount
    simp only [List.map_cons, List.count_append, List.count_cons, List.count_nil] at hcount ⊢
    change List.count x (s.asked.map Task.id) + List.count x (s.running.map Task.id) + List.count x
      (rest.map Answer.id) + _ = _
    omega
  · change _ = s.numResults + 1
    rw [hfiledIds, List.length_append, h.filed, List.length_singleton]
  · rw [hranIds, hfiledIds, List.perm_iff_count]
    intro x
    have hcount := List.perm_iff_count.mp h.ran x
    rw [hanswers] at hcount
    simp only [List.map_cons, List.count_append, List.count_cons, List.count_nil] at hcount ⊢
    omega
  · obtain ⟨t₀, ht₀, heq, hplain⟩ := h.running t ht
    exact ⟨t₀, List.mem_append_left _ ht₀, heq, hplain⟩
  · exact (h.answers b (by rw [hanswers]; exact List.mem_cons_of_mem _ hb)).snoc _
  · rw [hfiledIds, List.mem_append, List.mem_singleton, not_or] at hid
    obtain ⟨hs, hf⟩ := hother id hid.2
    change successes id = none ∧ failures id = none
    rw [hs, hf]
    exact h.absent id hid.1
  · rw [hfiledIds] at hid
    rcases huntaken.of_snoc with ⟨t, ht, -⟩ | ⟨huntaken, -⟩
    · cases ht
    rcases List.mem_append.mp hid with hid | hid
    · obtain ⟨b, hb, hranb, hshowsb⟩ := h.present id hid huntaken
      have hne : b.id ≠ a.id := by
        rw [hb]
        rintro rfl
        exact hnew hid
      obtain ⟨hs, hf⟩ := hother b.id hne
      refine ⟨b, hb, hranb.snoc _, ?_⟩
      rw [Shows] at hshowsb ⊢
      change match b.received.ending with
        | .returned vs => successes b.id = some vs
        | .raised e => successes b.id = none ∧ failures b.id = some e
      rwa [hs, hf]
    · exact ⟨a, (List.mem_singleton.mp hid).symm, hran.snoc _, hshows⟩

theorem Traced.take {es : List (PoolEvent P)} {s : Pool P} (h : Traced es s)
    {before after : List (Worker P)} {t : Task P} {rest : List (Option (Task P))}
    (hworkers : s.workers = before ++ .waiting :: after)
    (hquestions : s.questions = some t :: rest) : Traced (es ++ [.took])
      { s with workers := before ++ .running t.received :: after, questions := rest } := by
  have hasked : s.asked = t :: rest.filterMap id := by
    rw [Pool.asked, hquestions]
    rfl
  have hwaiting := running_split hworkers
  obtain ⟨hadded, hargs⟩ := h.asked t (by rw [hasked]; exact List.mem_cons_self)
  have hidle : Traced (es ++ [PoolEvent.took]) s :=
    h.silent rfl rfl (fun _ => by rintro ⟨⟩) rfl rfl rfl rfl rfl rfl rfl
  refine ⟨?_, hidle.filed, hidle.ran, hidle.added, hidle.added_inj, fun t' ht' => ?_, fun t' ht' => ?_, hidle.answers,
    hidle.absent, hidle.present⟩
  · rw [running_split rfl, List.perm_iff_count]
    intro x
    have hcount := List.perm_iff_count.mp hidle.ids x
    rw [hasked, hwaiting] at hcount
    simp only [Worker.task?, Option.toList_none, Option.toList_some, List.map_append, List.map_cons, List.map_nil,
      List.count_append, List.count_cons, List.count_nil] at hcount ⊢
    change List.count x ((rest.filterMap id).map Task.id) + (_ + (0 + if t.id == x then 1 else 0) + _) +
      List.count x (s.answers.map Answer.id) + _ = List.count x (List.range' 1 s.numTasks)
    omega
  · refine hidle.asked t' ?_
    rw [hasked]
    exact List.mem_cons_of_mem _ ht'
  · rw [running_split rfl, List.mem_append, List.mem_append] at ht'
    rcases ht' with (ht' | ht') | ht'
    · exact hidle.running t' (by rw [hwaiting]; exact List.mem_append_left _ (List.mem_append_left _ ht'))
    · exact ⟨t, List.mem_append_left _ hadded, List.mem_singleton.mp ht', hargs⟩
    · exact hidle.running t' (by rw [hwaiting]; exact List.mem_append_right _ ht')

/-- A worker has run its task, with all the arguments, and answers. -/
theorem Traced.answer {es : List (PoolEvent P)} {s : Pool P} (h : Traced es s)
    {before after : List (Worker P)} {t : Task P} {args : List (Value P)} {ending : Ending P}
    (hworkers : s.workers = before ++ .running t :: after) (hunpacks : Unpacks t.args args)
    (hplain : ending.Plain) : Traced (es ++ [.ran ⟨t.id, t.func, args⟩ ending])
      { s with workers := before ++ .waiting :: after, answers := s.answers ++ [⟨t.id, ending⟩] } := by
  have hrunning := running_split hworkers
  obtain ⟨t₀, hadded, rfl, hargs⟩ := h.running t
    (by rw [hrunning]; exact List.mem_append_left _ (List.mem_append_right _ (List.mem_singleton_self _)))
  obtain rfl := (unpacks_iff (received_plain hargs)).mp hunpacks
  change Traced (es ++ [.ran t₀.received ending]) _
  have hfiledIds : (es ++ [PoolEvent.ran t₀.received ending]).filterMap filedId =
      es.filterMap filedId := by
    rw [List.filterMap_append]
    exact List.append_nil _
  have hranIds : (es ++ [PoolEvent.ran t₀.received ending]).filterMap ranId =
      es.filterMap ranId ++ [t₀.id] := by
    rw [List.filterMap_append]
    rfl
  have hold := @added_of_snoc P es (.ran t₀.received ending) fun _ => nofun
  refine ⟨?_, ?_, ?_, fun t ht => h.added t (hold t ht), fun t t' ht ht' => h.added_inj t t' (hold t ht) (hold t' ht'),
    fun t ht => ⟨List.mem_append_left _ (h.asked t ht).1, (h.asked t ht).2⟩, fun t ht =>
      ?_, fun a ha => ?_,
    fun id hid => ?_, fun id hid huntaken => ?_⟩
  · rw [running_split rfl, hfiledIds, List.perm_iff_count]
    intro x
    have hcount := List.perm_iff_count.mp h.ids x
    rw [hrunning] at hcount
    simp only [Worker.task?, Option.toList_none, Option.toList_some, List.map_append, List.map_cons, List.map_nil,
      List.count_append, List.count_cons, List.count_nil] at hcount ⊢
    change List.count x (s.asked.map Task.id) + _ + _ + _ = List.count x (List.range' 1 s.numTasks)
    omega
  · rw [hfiledIds]
    exact h.filed
  · rw [hranIds, hfiledIds, List.perm_iff_count]
    intro x
    have hcount := List.perm_iff_count.mp h.ran x
    simp only [Task.received, List.map_append, List.map_cons, List.map_nil, List.count_append] at hcount ⊢
    omega
  · rw [running_split rfl, List.mem_append, List.mem_append] at ht
    have hmem : t ∈ s.running := by
      rw [hrunning]
      rcases ht with (ht | ht) | ht
      · exact List.mem_append_left _ (List.mem_append_left _ ht)
      · cases ht
      · exact List.mem_append_right _ ht
    obtain ⟨t₁, ht₁, heq, hplain₁⟩ := h.running t hmem
    exact ⟨t₁, List.mem_append_left _ ht₁, heq, hplain₁⟩
  · rcases List.mem_append.mp ha with ha | ha
    · exact (h.answers a ha).snoc _
    · rw [List.mem_singleton.mp ha]
      exact ⟨t₀, List.mem_append_left _ hadded, rfl, List.mem_append_right _ (List.mem_singleton_self _), hplain⟩
  · rw [hfiledIds] at hid
    exact h.absent id hid
  · rw [hfiledIds] at hid
    rcases huntaken.of_snoc with ⟨t, ht, -⟩ | ⟨huntaken, -⟩
    · cases ht
    · obtain ⟨a, ha, hrana, hshows⟩ := h.present id hid huntaken
      exact ⟨a, ha, hrana.snoc _, hshows⟩

/-- The owner takes a result; those of the other tasks stay. -/
theorem Traced.got {es : List (PoolEvent P)} {s s' : Pool P} (h : Traced es s) {id : ℕ} {result : Ending P}
    (htakes : s.Takes id result s') : Traced (es ++ [.got id result]) s' := by
  have hkept : Traced (es ++ [PoolEvent.got id result]) s :=
    h.silent rfl rfl (fun _ => nofun) rfl rfl rfl rfl rfl rfl rfl
  have hnot : ¬ Untaken (es ++ [PoolEvent.got id result]) id := by
    intro huntaken
    rcases huntaken.of_snoc with ⟨t, ht, -⟩ | ⟨-, hne⟩
    · cases ht
    · exact hne result rfl
  have hother : ∀ id' ≠ id, s'.successes id' = s.successes id' ∧
      s'.failures id' = s.failures id' := by
    intro id' hne
    cases htakes with
    | success => exact ⟨Function.update_of_ne hne _ _, rfl⟩
    | failure => exact ⟨rfl, Function.update_of_ne hne _ _⟩
    | nothing => exact ⟨rfl, rfl⟩
  have hnone : ∀ id', s.successes id' = none ∧ s.failures id' = none → s'.successes id' = none ∧
      s'.failures id' = none := by
    intro id' hid'
    by_cases hne : id' = id
    · subst hne
      cases htakes with
      | success => exact ⟨Function.update_self _ _ _, hid'.2⟩
      | failure => exact ⟨hid'.1, Function.update_self _ _ _⟩
      | nothing => exact hid'
    · obtain ⟨hs, hf⟩ := hother id' hne
      rw [hs, hf]
      exact hid'
  obtain ⟨successes, failures, rfl⟩ := takes_frame htakes
  refine ⟨hkept.ids, hkept.filed, hkept.ran, hkept.added, hkept.added_inj, hkept.asked, hkept.running, hkept.answers,
    fun id' hid' => hnone id' (hkept.absent id' hid'), fun id' hid' huntaken => ?_⟩
  obtain ⟨a, ha, hrana, hshows⟩ := hkept.present id' hid' huntaken
  have hne : a.id ≠ id := by
    rintro rfl
    exact hnot (ha ▸ huntaken)
  obtain ⟨hs, hf⟩ := hother a.id hne
  refine ⟨a, ha, hrana, ?_⟩
  rw [Shows] at hshows ⊢
  change match a.received.ending with
    | .returned vs => successes a.id = some vs
    | .raised e => successes a.id = none ∧ failures a.id = some e
  change successes a.id = _ at hs
  change failures a.id = _ at hf
  rwa [hs, hf]

theorem Traced.step {es : List (PoolEvent P)} {s s' : Pool P} {e : PoolEvent P} (h : Traced es s)
    (hstep : ExactStep lua closeOnLastTask s e s') : Traced (es ++ [e]) s' := by
  obtain ⟨hexact, hcovered, hstep⟩ := hstep
  cases hstep with
  | call _ _ => exact h.silent rfl rfl (fun _ => by rintro ⟨⟩) rfl rfl rfl rfl rfl rfl rfl
  | file _ _ _ hanswers => exact h.file hanswers
  | isDone _ _ => exact h.silent rfl rfl (fun _ => by rintro ⟨⟩) rfl rfl rfl rfl rfl rfl rfl
  | add _ _ _ => exact h.add rfl hexact
  | refuse _ _ hrefuses => exact absurd hcovered.2.2 hrefuses.1
  | close _ _ _ _ _ =>
    refine h.silent rfl rfl (fun _ => by rintro ⟨⟩) ?_ rfl rfl rfl rfl rfl rfl
    rw [Pool.asked, List.filterMap_append, List.filterMap_replicate_of_none rfl, List.append_nil]
    rfl
  | getResult _ _ _ htakes =>
    have hgot := h.got htakes
    exact ⟨hgot.ids, hgot.filed, hgot.ran, hgot.added, hgot.added_inj, hgot.asked, hgot.running,
      hgot.answers, hgot.absent, hgot.present⟩
  | joined _ _ htakes =>
    have hgot := h.got htakes
    exact ⟨hgot.ids, hgot.filed, hgot.ran, hgot.added, hgot.added_inj, hgot.asked, hgot.running,
      hgot.answers, hgot.absent, hgot.present⟩
  | take hworkers _ hquestions => exact h.take hworkers hquestions
  | leave hworkers _ hquestions =>
    refine h.silent rfl rfl (fun _ => by rintro ⟨⟩) ?_ ?_ rfl rfl rfl rfl rfl
    · rw [Pool.asked, Pool.asked, hquestions]
      rfl
    · rw [running_split rfl, running_split hworkers]
      rfl
  | answer hworkers hunpacks _ _ => exact h.answer hworkers hunpacks hexact
  | crash _ _ _ hrefuses => exact absurd hcovered hrefuses.1

/-! ### What `getResult` returns -/

theorem got_cases {s s' : Pool P} {id : ℕ} {result : Ending P}
    (h : PoolStep lua closeOnLastTask s (.got id result) s') : (∃ s₁, s.Takes id result s₁) ∧
    ∃ waited : Option ℕ, id = waited.getD s.numResults ∧
      (s.owner = .reading (.getResult waited) ∧ s.Leaves (.getResult waited) ∨ s.owner = .joining waited) := by
  generalize he : PoolEvent.got id result = e at h
  cases h with
  | @getResult s₁ waited _ howner hleaves _ htakes =>
    cases he
    exact ⟨⟨s₁, htakes⟩, waited, rfl, Or.inl ⟨howner, hleaves⟩⟩
  | @joined s₁ waited _ howner _ htakes =>
    cases he
    exact ⟨⟨s₁, htakes⟩, waited, rfl, Or.inr howner⟩
  | _ => cases he

/-- When all results are in, that of every task is filed. -/
theorem Traced.all_filed {es : List (PoolEvent P)} {s : Pool P} (h : Traced es s) (hcount : Accounts s)
    (hall : s.numTasks ≤ s.numResults) {id : ℕ} (hid : 1 ≤ id ∧ id ≤ s.numTasks) :
    id ∈ es.filterMap filedId := by
  have hsum := hcount.count
  have hasked : s.asked = [] := List.length_eq_zero_iff.mp (by omega)
  have hrunning : s.running = [] := List.length_eq_zero_iff.mp (by omega)
  have hanswers : s.answers = [] := List.length_eq_zero_iff.mp (by omega)
  have hids := h.ids
  rw [hasked, hrunning, hanswers] at hids
  refine hids.mem_iff.mpr ?_
  rw [List.mem_range'_1]
  omega

/-- `getResult` comes back when the result is filed. -/
theorem Traced.got_filed {es : List (PoolEvent P)} {s s' : Pool P} (h : Traced es s) (hcount : Accounts s) {t : Task P}
    (ht : .added t ∈ es) {result : Ending P} (hstep : PoolStep lua closeOnLastTask s (.got t.id result) s') :
    t.id ∈ es.filterMap filedId := by
  obtain ⟨-, waited, hid, hwhere⟩ := got_cases hstep
  rcases hwhere with ⟨-, hleaves⟩ | hjoining
  · rcases hleaves with hreads | ⟨hblock, -⟩
    · by_cases hall : s.numTasks ≤ s.numResults
      · exact h.all_filed hcount hall (h.added t ht)
      · cases waited with
        | none => exact absurd ⟨not_le.mp hall, rfl⟩ hreads
        | some id =>
          by_contra hnot
          obtain ⟨hs, hf⟩ := h.absent _ hnot
          refine hreads ⟨not_le.mp hall, ?_⟩
          have hid : t.id = id := hid
          rw [hid] at hs hf
          simp only [PoolCall.id, Pool.hasResult, hs, hf, Option.isSome_none, Bool.or_false]
    · cases hblock
  · exact h.all_filed hcount (hcount.shut (Or.inr ⟨waited, hjoining⟩)).1.le (h.added t ht)

theorem shown_taken {s s' : Pool P} {a : Answer P} {result : Ending P} (hplain : a.ending.Plain)
    (hshows : Shows s a.received) (htakes : s.Takes a.id result s') :
    a.ending.received.Shown result := by
  obtain ⟨id, ending⟩ := a
  cases ending with
  | returned vs =>
    have hs : s.successes id = some (vs.map Value.received) := hshows
    cases htakes with
    | success hs' hunpacks =>
      obtain rfl := Option.some.inj (hs.symm.trans hs')
      rw [(unpacks_iff (received_plain hplain)).mp hunpacks]
      exact .returned
    | failure hs' _ _ => cases hs.symm.trans hs'
    | nothing hs' _ => cases hs.symm.trans hs'
  | raised e =>
    obtain ⟨hs, hf⟩ : s.successes id = none ∧ s.failures id = some e.received := hshows
    cases htakes with
    | success hs' _ => cases hs.symm.trans hs'
    | failure _ hf' hraises =>
      obtain rfl := Option.some.inj (hf.symm.trans hf')
      exact .raised hraises
    | nothing _ hf' => cases hf.symm.trans hf'

theorem exists_unpacks (vs : List (Value P)) : ∃ ws, Unpacks vs ws := by
  have hex : ∃ n, ∀ v : Value P, vs[n]? = some v → v.isNil = true :=
    ⟨vs.length, fun v hv => by rw [List.getElem?_eq_none le_rfl] at hv; cases hv⟩
  classical
  refine ⟨_, Nat.find hex, ⟨?_, Nat.find_spec hex⟩, rfl⟩
  rcases Nat.eq_zero_or_pos (Nat.find hex) with hzero | hpos
  · exact Or.inl hzero
  · have hlast := Nat.find_min hex (Nat.sub_one_lt_of_lt hpos)
    push Not at hlast
    obtain ⟨v, hv, hnil⟩ := hlast
    exact Or.inr ⟨v, hv, Bool.eq_false_iff.mpr hnil⟩

theorem exists_takes (s : Pool P) (id : ℕ) : ∃ result s', s.Takes id result s' := by
  cases hs : s.successes id with
  | some vs =>
    obtain ⟨ws, hws⟩ := exists_unpacks vs
    exact ⟨_, _, .success hs hws⟩
  | none =>
    cases hf : s.failures id with
    | some e =>
      obtain ⟨e', hraises⟩ := exists_raises e
      exact ⟨_, _, .failure hs hf hraises⟩
    | none => exact ⟨_, _, .nothing hs hf⟩

def Pool.Asks (s : Pool P) : Prop :=
  ∃ id, s.owner = .reading (.getResult id) ∨ s.owner = .joining id

/-- A worker that runs nothing and has not left reads a question. -/
theorem waiting_of_live {s : Pool P} (hrunning : s.running = []) {w : Worker P} (hw : w ∈ s.workers)
    (hlive : w.isLive = true) : w = .waiting := by
  cases w with
  | waiting => rfl
  | running t =>
    have hnone := List.filterMap_eq_nil_iff.mp hrunning _ hw
    cases hnone
  | exited => cases hlive
  | crashed => cases hlive

/-- A call of `getResult` waits for nothing but the tasks that are run. -/
theorem Accounts.progress {s : Pool P} (h : Accounts s) (hasks : s.Asks) (hrunning : s.running = []) :
    ∃ e s', ExactStep lua closeOnLastTask s e s' := by
  obtain ⟨waited, howner | hjoining⟩ := hasks
  · by_cases hreads : s.ReadsOn waited
    · obtain ⟨hlt, -⟩ := id hreads
      cases hanswers : s.answers with
      | cons a rest => exact ⟨.filed a, _, trivial, trivial, .file howner hreads h.free.2 hanswers⟩
      | nil =>
        have hcount := h.count
        rw [hrunning, hanswers, List.length_nil] at hcount
        have hopen : ¬ s.Shut := fun hshut => absurd (h.shut hshut).1 (by omega)
        obtain ⟨hsome, hlive⟩ := h.opened hopen
        obtain ⟨w, hw⟩ : ∃ w, w ∈ s.workers :=
          List.exists_mem_of_ne_nil _ fun hnone => by
            have hzero := h.unmanned hnone
            omega
        obtain rfl := waiting_of_live hrunning hw (hlive w hw)
        obtain ⟨before, after, hworkers⟩ := List.append_of_mem hw
        cases hquestions : s.questions with
        | nil =>
          rw [Pool.asked, hquestions] at hcount
          change s.numTasks = s.numResults + 0 + 0 + 0 at hcount
          omega
        | cons q rest =>
          cases q with
          | none => exact absurd rfl (hsome none (by rw [hquestions]; exact List.mem_cons_self))
          | some t => exact ⟨.took, _, trivial, trivial, .take hworkers h.free.1 hquestions⟩
    · have hleaves : s.Leaves (.getResult waited) := Or.inl hreads
      by_cases hclose : closeOnLastTask = true ∧ s.numResults = s.numTasks ∧ s.closed = false
      · exact ⟨.closing, _, trivial, trivial, .close howner hleaves hclose.1 hclose.2.1 hclose.2.2⟩
      · obtain ⟨result, s', htakes⟩ := exists_takes s (waited.getD s.numResults)
        exact ⟨.got _ result, _, trivial, trivial, .getResult howner hleaves hclose htakes⟩
  · have hshut : s.Shut := Or.inr ⟨waited, hjoining⟩
    obtain ⟨hasked, -, -⟩ := h.shut_idle hshut
    by_cases hexited : ∀ w ∈ s.workers, w = .exited
    · obtain ⟨result, s', htakes⟩ := exists_takes s (waited.getD s.numResults)
      exact ⟨.got _ result, _, trivial, trivial, .joined hjoining hexited htakes⟩
    · push Not at hexited
      obtain ⟨w, hw, hstays⟩ := hexited
      have hlive : w.isLive = true := by
        cases w with
        | exited => exact absurd rfl hstays
        | crashed => exact absurd rfl (h.sound _ hw)
        | _ => rfl
      obtain rfl := waiting_of_live hrunning hw hlive
      obtain ⟨before, after, hworkers⟩ := List.append_of_mem hw
      have hleft := (h.shut hshut).2
      have hstill : s.workers.countP Worker.isExited < s.workers.length := by
        refine lt_of_le_of_ne List.countP_le_length fun hall => ?_
        have hexit := List.countP_eq_length.mp hall _ hw
        cases hexit
      cases hquestions : s.questions with
      | nil =>
        rw [hquestions, List.length_nil] at hleft
        omega
      | cons q rest =>
        obtain rfl : q = none := asked_eq_nil hasked q (by rw [hquestions]; exact List.mem_cons_self)
        exact ⟨.left, _, trivial, trivial, .leave hworkers h.free.1 hquestions⟩

/-- The first result that is got for a task is that of its own run, which nothing else can
be the run of. -/
def ResultsMatch (es : List (PoolEvent P)) : Prop :=
  (es.filterMap ranId).Nodup ∧ ∀ before t after result rest,
  es = before ++ .added t :: after ++ .got t.id result :: rest →
    (∀ r, .got t.id r ∉ after) →
    ∃ ending, .ran t.received ending ∈ before ++ .added t :: after ∧ ending.received.Shown result

theorem Traced.result {es : List (PoolEvent P)} {s s' : Pool P} (h : Traced es s) (hcount : Accounts s) {t : Task P}
    (ht : .added t ∈ es) (huntaken : Untaken es t.id) {result : Ending P}
    (hstep : PoolStep lua closeOnLastTask s (.got t.id result) s') :
    ∃ ending, .ran t.received ending ∈ es ∧ ending.received.Shown result := by
  obtain ⟨⟨s₁, htakes⟩, -⟩ := got_cases hstep
  obtain ⟨a, hid, ⟨t', ht', hid', hran, hplain⟩, hshows⟩ :=
    h.present t.id (h.got_filed hcount ht hstep) huntaken
  obtain rfl := h.added_inj t' t ht' ht (hid'.trans hid)
  rw [← hid] at htakes
  exact ⟨a.ending, hran, shown_taken hplain hshows htakes⟩

/-- In every run whose steps meet the condition, the results match the tasks, and a call of
`getResult` is not stuck while no task is run. -/
theorem pool_results {poolSize : ℕ} {es : List (PoolEvent P)} {s : Pool P}
    (hrun : Run (ExactStep lua closeOnLastTask) (start poolSize) es s) :
    ResultsMatch es ∧ (s.Asks → s.running = [] → ∃ e s', ExactStep lua closeOnLastTask s e s') := by
  have hinv : ∀ {es s}, Run (ExactStep lua closeOnLastTask) (start poolSize) es s → Traced es s ∧
      Accounts s :=
    fun hrun => hrun.invariant (I := fun es s => Traced es s ∧ Accounts s)
      ⟨start_traced poolSize, start_accounts poolSize⟩
      fun _ _ _ _ h hstep => ⟨h.1.step hstep, h.2.step hstep.2⟩
  obtain ⟨htraced, hcount⟩ := hinv hrun
  refine ⟨⟨?_, fun before t after result rest heq hnot => ?_⟩, hcount.progress⟩
  · have hnodup := htraced.ids.nodup_iff.mpr List.nodup_range'
    refine htraced.ran.nodup_iff.mpr (List.nodup_append.mpr ?_)
    obtain ⟨hplaces, hfiled, hdisjoint⟩ := List.nodup_append.mp hnodup
    exact ⟨(List.nodup_append.mp hplaces).2.1, hfiled, fun a ha b hb => hdisjoint a (List.mem_append_right _ ha) b hb⟩
  · subst heq
    obtain ⟨s₁, s₂, hbefore, hstep, -⟩ := hrun.split
    obtain ⟨htraced₁, hcount₁⟩ := hinv hbefore
    have hadded : PoolEvent.added t ∈ before ++ .added t :: after :=
      List.mem_append_right _ List.mem_cons_self
    exact htraced₁.result hcount₁ hadded ⟨before, t, after, rfl, rfl, hnot⟩ hstep.2.2

end

theorem returned_serialisable :
    Serialisable sampleLua false (Answer.table sampleLua.versionNum ⟨sampleTask.id, .returned []⟩) :=
  serialisable_of_keyless rfl rfl

def sampleEvents (ending result : Ending UInt8) : List (PoolEvent UInt8) :=
  [.called (.addTask sampleTask.func []), .added sampleTask, .took, .ran sampleTask.received ending,
    .called (.getResult (some 1)), .filed ⟨1, ending⟩, .got 1 result]

/-- One worker runs one task, and the owner asks for its result. -/
theorem sample_run {step : Pool UInt8 → PoolEvent UInt8 → Pool UInt8 → Prop} {ending result : Ending UInt8}
    (hof : ∀ s, ∀ e ∈ sampleEvents ending result, ∀ s', s.closed = false → s.workers ≠ [] →
      PoolStep sampleLua false s e s' → step s e s')
    (hfin : (script sampleLua false false (Answer.table sampleLua.versionNum ⟨1, ending⟩)).fin = .ok) {s : Pool UInt8}
    (htakes : (Pool.file { start 1 with owner := .reading (.getResult (some 1)), numTasks := 1 }
      (Answer.received ⟨1, ending⟩)).Takes 1 result s) :
    Run step (start 1) (sampleEvents ending result) { s with owner := .idle } := by
  obtain ⟨hcall, hadd⟩ := add_sampleTask false (s := start 1) rfl rfl rfl
  have htake : PoolStep sampleLua false { start 1 with numTasks := 1, questions := [some sampleTask] } .took
      { start 1 with numTasks := 1, workers := [.running sampleTask.received] } :=
    @PoolStep.take _ _ _ _ [] [] _ _ rfl rfl rfl
  have hanswer : PoolStep sampleLua false { start 1 with numTasks := 1, workers := [.running sampleTask.received] }
      (.ran sampleTask.received ending) { start 1 with numTasks := 1, answers := [⟨1, ending⟩] } :=
    @PoolStep.answer _ _ _ _ [] [] sampleTask.received [] ending rfl
      ((unpacks_iff (fun v hv => by cases hv)).mpr rfl) rfl hfin
  have hask : PoolStep sampleLua false { start 1 with numTasks := 1, answers := [⟨1, ending⟩] }
      (.called (.getResult (some 1)))
      { start 1 with owner := .reading (.getResult (some 1)), numTasks := 1, answers := [⟨1, ending⟩] } :=
    .call rfl fun _ _ => nofun
  have hfile : PoolStep sampleLua false
      { start 1 with owner := .reading (.getResult (some 1)), numTasks := 1, answers := [⟨1, ending⟩] }
      (.filed ⟨1, ending⟩) (Pool.file { start 1 with owner := .reading (.getResult (some 1)), numTasks := 1 }
        (Answer.received ⟨1, ending⟩)) :=
    .file rfl ⟨one_pos, rfl⟩ rfl rfl
  obtain ⟨successes, failures, hfiled⟩ := file_frame
    { start 1 with owner := .reading (.getResult (some 1)), numTasks := 1 } (Answer.received ⟨1, ending⟩)
  rw [hfiled] at htakes hfile
  obtain ⟨successes', failures', rfl⟩ := takes_frame htakes
  have hgot := @PoolStep.getResult _ sampleLua false _ _ (some 1) result rfl
    (Or.inl fun hreads => lt_irrefl _ hreads.1) (fun hclose => Bool.false_ne_true hclose.1) htakes
  have hworkers : ∀ w : Worker UInt8, [w] ≠ [] := fun _ => List.cons_ne_nil _ _
  have hof : ∀ {s e s'}, e ∈ sampleEvents ending result → s.closed = false → s.workers ≠ [] →
      PoolStep sampleLua false s e s' → step s e s' := fun he hc hw hs => hof _ _ he _ hc hw hs
  exact ((((((Run.nil.snoc (hof (by simp [sampleEvents]) rfl (hworkers _) hcall)).snoc
    (hof (by simp [sampleEvents]) rfl (hworkers _) hadd)).snoc
    (hof (by simp [sampleEvents]) rfl (hworkers _) htake)).snoc
    (hof (by simp [sampleEvents]) rfl (hworkers _) hanswer)).snoc
    (hof (by simp [sampleEvents]) rfl (hworkers _) hask)).snoc
    (hof (by simp [sampleEvents]) rfl (hworkers _) hfile)).snoc
    (hof (by simp [sampleEvents]) rfl (hworkers _) hgot)

theorem sample_exact : ∃ s,
    Run (ExactStep sampleLua false) (start 1) (sampleEvents (.returned []) (.returned [])) s := by
  refine ⟨_, sample_run (fun s e he s' hclosed hworkers hstep => ⟨?_, ?_, hstep⟩) returned_serialisable.1
    (.success rfl ((unpacks_iff (fun v hv => by cases hv)).mpr rfl))⟩
  · simp only [sampleEvents, List.mem_cons, List.not_mem_nil, or_false] at he
    rcases he with rfl | rfl | rfl | rfl | rfl | rfl | rfl <;> simp [Exact, Ending.Plain, sampleTask]
  · simp only [sampleEvents, List.mem_cons, List.not_mem_nil, or_false] at he
    rcases he with rfl | rfl | rfl | rfl | rfl | rfl | rfl <;> try trivial
    · exact ⟨hclosed, hworkers, sampleTask_serialisable⟩
    · exact returned_serialisable

/-- A task that returns nothing, and whose result is got. -/
theorem pool_results_one : ResultsMatch (sampleEvents (.returned []) (.returned [])) := by
  obtain ⟨s, hrun⟩ := sample_exact
  exact (pool_results hrun).1

/-- The task raises nil, and its result is that it has returned nothing. -/
theorem raised_nil_lost :
    (∃ s, Run (PoolStep sampleLua false) (start 1) (sampleEvents (.raised .nil) (.returned [])) s) ∧
    ¬ ResultsMatch (sampleEvents (.raised .nil) (.returned [])) := by
  refine ⟨⟨_, sample_run (fun _ _ _ _ _ _ hstep => hstep) rfl (.nothing rfl rfl)⟩, fun hmatch => ?_⟩
  obtain ⟨ending, hran, hresult⟩ := hmatch.2 [.called (.addTask sampleTask.func [])] sampleTask
    [.took, .ran sampleTask.received (.raised .nil), .called (.getResult (some 1)), .filed ⟨1, .raised .nil⟩] _ [] rfl
    (by simp)
  cases ending with
  | returned vs => simp at hran
  | raised e => cases hresult

end TorchIpc.BackgroundTaskPool
