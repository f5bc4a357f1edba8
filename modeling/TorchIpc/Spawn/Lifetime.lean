import TorchIpc.Spawn.Descriptors

/-! A spawn object from `spawn_open` on: any requests in any order, each with its system
calls, of which any may fail; a request that does not return is the last. Each step keeps
what the object says about its descriptors, unless it uses a field that is 0 or a `close`
leaves the field and the descriptor apart. -/

namespace TorchIpc.Spawn

open Calls Runs

/-! ### Requests -/

/-- The condition on a request to an object, with the calls that it leads to. -/
def RequestFit (s : SpawnT) : Request → List Event → Prop
  | .stdin str, _ => str ≠ some [] → s.fd 0 1 ≠ 0
  | .stdout arg, _ => arg ≠ .other → s.fd 1 0 ≠ 0
  | .wait signame, calls =>
    s.fd 1 0 ≠ 0 ∨ (s.fd 0 1 = 0 → signame ≠ none) ∧ ∀ e ∈ calls, Stops s e.1 e.2
  | .gc, calls => s.fd 1 0 ≠ 0 ∨ ∀ e ∈ calls, Stops s e.1 e.2

/-- What an object leaves behind: a closed one has closed everything exactly once. -/
def Settled (h : List Event) : Option SpawnT → Prop
  | none => ∀ d ∈ obtained h, (closed h).count d = 1
  | some s => Keeps h s

section
variable {h : List Event} {s : SpawnT} {r : Request} {calls : List Event}

/-- The spec of a method, for a kernel that gives the answers of these calls. -/
theorem body_safe (fuel : ℕ) (hk : Keeps h s) (hfit : RequestFit s r calls)
    (hclose : ∀ e ∈ calls, CloseFit e.1 e.2) :
    ∃ fit : (c : Sys) → c.Answer → Prop, (∀ e ∈ calls, fit e.1 e.2) ∧
      Proc.wp (kernel.restrict fit) InOrder True (serve.body r fuel) (fun res s' h' => Keeps h' s' ∧
        (serve.destroys r = true → res.isOk = true → ∀ i j, s'.fd i j = 0)) s h := by
  have hstopped : ∀ {x : SpawnM Result}, (∀ e ∈ calls, Stops s e.1 e.2) →
      StoppedSafe x (fun res s' h' => Keeps h' s' ∧ ∃ e, res = .error e) s h →
      ∃ fit : (c : Sys) → c.Answer → Prop, (∀ e ∈ calls, fit e.1 e.2) ∧
        Proc.wp (kernel.restrict fit) InOrder True x (fun res s' h' => Keeps h' s' ∧
          (serve.destroys r = true → res.isOk = true → ∀ i j, s'.fd i j = 0)) s h := by
    intro x hstops hx
    refine ⟨_, fun e he => ⟨hclose e he, hstops e he⟩, Proc.wp_mono hx ?_⟩
    rintro res s' h' ⟨hk', e, rfl⟩
    exact ⟨hk', fun _ hres => by simp [Except.isOk, Except.toBool] at hres⟩
  cases r with
  | stdin str =>
    refine ⟨CloseFit, hclose, Proc.wp_mono (spawnStdin_safe str fuel hk hfit) ?_⟩
    exact fun res s' h' hk' => ⟨hk', fun hd => by simp [serve.destroys] at hd⟩
  | stdout arg =>
    refine ⟨CloseFit, hclose, Proc.wp_mono (spawnStdout_safe arg fuel hk hfit) ?_⟩
    exact fun res s' h' hk' => ⟨hk', fun hd => by simp [serve.destroys] at hd⟩
  | wait signame =>
    rcases hfit with hne | ⟨hname, hstops⟩
    · refine ⟨CloseFit, hclose, Proc.wp_mono (spawnWait_safe signame fuel hk hne) ?_⟩
      exact fun res s' h' hk' => ⟨hk'.1, fun _ => hk'.2⟩
    · exact hstopped hstops (spawnWait_stopped signame fuel hk hname)
  | gc =>
    rcases hfit with hne | hstops
    · refine ⟨CloseFit, hclose, Proc.wp_mono (spawnGc_safe fuel hk hne) ?_⟩
      exact fun res s' h' hk' => ⟨hk'.1, fun _ => hk'.2⟩
    · exact hstopped hstops (spawnGc_stopped fuel hk)

theorem serve_safe (fuel : ℕ) (hk : Keeps h s) (hfit : RequestFit s r calls)
    (hclose : ∀ e ∈ calls, CloseFit e.1 e.2) :
    ∃ fit : (c : Sys) → c.Answer → Prop, (∀ e ∈ calls, fit e.1 e.2) ∧
      wp (kernel.restrict fit) InOrder True (serve r fuel (some s)) (fun out h' =>
        Settled h' out.2 ∧ (serve.destroys r = true → out.1.isOk = true → out.2 = none)) h := by
  obtain ⟨fit, hcalls, hbody⟩ := body_safe fuel hk hfit hclose
  refine ⟨fit, hcalls, ?_⟩
  rw [serve_some, wp_bind]
  refine wp_mono hbody ?_
  rintro ⟨res, s'⟩ h' ⟨hk', hzero⟩
  dsimp only at hk' hzero ⊢
  rw [wp_done]
  split_ifs with hend
  · exact ⟨hk'.closed_once (hzero hend.1 hend.2), fun _ _ => rfl⟩
  · exact ⟨hk', fun hd hres => absurd ⟨hd, hres⟩ hend⟩

/-- A closed object makes no call, and its `wait` fails. -/
theorem serve_none (r : Request) (fuel : ℕ) : ∃ res, serve r fuel none = .done (res, none) ∧
    ∀ signame, r = .wait signame → ∀ v, res ≠ .ok v := by
  cases r with
  | stdin | stdout | wait => exact ⟨_, rfl, fun _ _ v hv => by simp at hv⟩
  | gc => exact ⟨_, rfl, fun _ hr => by simp at hr⟩

end

/-! ### Runs -/

/-- The condition on a step: on the answers to `close`, and on the object before it. -/
def StepFit (x : Calls.Session (Option SpawnT) (List Event)) (e : Call) : Prop :=
  (∀ c ∈ e.calls, CloseFit c.1 c.2) ∧ ∀ s, x.object = some s → RequestFit s e.request e.calls

def WaitSucceeded (e : Call) : Prop :=
  (∃ signame, e.request = .wait signame) ∧ ∃ v, e.result = some (.ok v)

/-- The invariant of the runs. -/
structure Fine (es : List Call) (x : Calls.Session (Option SpawnT) (List Event)) : Prop where
  own : Own x.world
  settled : x.pending = false ∨ x.object = none → Settled x.world x.object
  gone : (∃ e ∈ es, WaitSucceeded e) → x.object = none

theorem makes_own {fit : (c : Sys) → c.Answer → Prop} {α : Type} {p p' : Prog Sys Sys.Answer α}
    {Q : α → List Event → Prop} {h h' calls : List Event} (hmakes : Makes kernel p h calls p' h')
    (hcalls : ∀ e ∈ calls, fit e.1 e.2) (hp : wp (kernel.restrict fit) InOrder True p Q h)
    (hown : Own h) : Own h' :=
  (hmakes.restrict hcalls).keeps hp (fun _ _ _ hw hok _ => hw.snoc hok) hown

theorem Fine.step {es : List Call} {x x' : Calls.Session (Option SpawnT) (List Event)} {e : Call}
    (hx : Fine es x) (hserves : Serves kernel serve x e x') (hfit : StepFit x e) :
    Fine (es ++ [e]) x' := by
  have hgone : ∀ {o : Option SpawnT}, (WaitSucceeded e → o = none) → (x.object = none → o = none) →
      (∃ e' ∈ es ++ [e], WaitSucceeded e') → o = none := by
    rintro o hlast hbefore ⟨e', he', hsucc⟩
    rcases List.mem_append.mp he' with he' | he'
    · exact hbefore (hx.gone ⟨e', he', hsucc⟩)
    · exact hlast (List.mem_singleton.mp he' ▸ hsucc)
  cases hserves with
  | @returned r fuel o h calls res o' h' hmakes =>
    cases o with
    | none =>
      obtain ⟨res', heq, herr⟩ := serve_none r fuel
      rw [heq] at hmakes
      cases hmakes
      refine ⟨hx.own, fun _ => hx.settled (.inr rfl), hgone (fun _ => rfl) id⟩
    | some s =>
      obtain ⟨fit, hcalls, hsafe⟩ := serve_safe fuel (hx.settled (.inl rfl)) (hfit.2 s rfl) hfit.1
      obtain ⟨hsettled, hnone⟩ := (hmakes.restrict hcalls).returns hsafe
      refine ⟨makes_own hmakes hcalls hsafe hx.own, fun _ => hsettled, hgone ?_ (by simp)⟩
      rintro ⟨⟨signame, rfl⟩, v, hv⟩
      obtain rfl := Option.some.inj hv
      exact hnone rfl rfl
  | @pending r fuel o h calls p h' hmakes =>
    have hlast : ∀ {o : Option SpawnT}, WaitSucceeded ⟨r, calls, none⟩ → o = none :=
      fun hsucc => by simp [WaitSucceeded] at hsucc
    cases o with
    | none =>
      obtain ⟨res', heq, herr⟩ := serve_none r fuel
      rw [heq] at hmakes
      cases hmakes
      exact ⟨hx.own, fun _ => hx.settled (.inr rfl), hgone hlast id⟩
    | some s =>
      obtain ⟨fit, hcalls, hsafe⟩ := serve_safe fuel (hx.settled (.inl rfl)) (hfit.2 s rfl) hfit.1
      exact ⟨makes_own hmakes hcalls hsafe hx.own, by simp, hgone hlast (by simp)⟩

/-! ### An opened object -/

section
variable {s : SpawnT} {h : List Event}

theorem Own.append_neutral {es : List Event} (hown : Own h)
    (hes : ∀ e ∈ es, Sys.target e.1 = none) : Own (h ++ es) := by
  induction es generalizing h with
  | nil => rwa [List.append_nil]
  | cons e es ih =>
    rw [List.forall_mem_cons] at hes
    rw [List.append_cons]
    refine ih (hown.snoc fun d hd => ?_) hes.2
    rw [hes.1] at hd
    simp at hd

/-- The four descriptors of the pipes are distinct. -/
theorem pipes_nodup {r₀ w₀ r₁ w₁ : ℕ} (hmay : PipesMay Grants r₀ w₀ r₁ w₁) :
    [r₀, w₀, r₁, w₁].Nodup := by
  obtain ⟨⟨hfirst, -⟩, hsecond, hfresh⟩ := hmay
  have hheld : ∀ d ∈ [r₀, w₀], Held ([⟨.fileActionsInit, true⟩] ++ pipeEvents 0 r₀ w₀) d :=
    fun d hd => ⟨hd, List.not_mem_nil⟩
  have hapart : ∀ d ∈ [r₀, w₀], ∀ d' ∈ [r₁, w₁], d ≠ d' := by
    rintro d hd d' hd' rfl
    exact hfresh d hd' (hheld d hd)
  exact List.nodup_append.mpr ⟨hfirst, hsecond, hapart⟩

theorem Opened.own (hopen : Opened Grants s h) : Own h := by
  obtain ⟨file, argv, envp, pid, r₀, w₀, r₁, w₁, hmay, rfl, rfl⟩ := hopen
  have hnodup := pipes_nodup hmay
  have hsetup : Own (setup r₀ w₀ r₁ w₁ ++
      [⟨.spawnp file (pipeActions 0 r₀ w₀ ++ pipeActions 1 r₁ w₁) argv envp, some pid⟩]) := by
    rw [← List.nil_append (setup r₀ w₀ r₁ w₁), List.append_assoc]
    apply own_nil.append_neutral
    simp [setup, pipeEvents, pipeActions, Sys.target]
  have hfirst : Held (setup r₀ w₀ r₁ w₁ ++
      [⟨.spawnp file (pipeActions 0 r₀ w₀ ++ pipeActions 1 r₁ w₁) argv envp, some pid⟩]) r₀ := by
    show r₀ ∈ [r₀, w₀, r₁, w₁] ∧ r₀ ∉ []
    simp
  have hsecond : Held (setup r₀ w₀ r₁ w₁ ++
      [⟨.spawnp file (pipeActions 0 r₀ w₀ ++ pipeActions 1 r₁ w₁) argv envp, some pid⟩] ++
      [⟨.close r₀ true, Closing.closed⟩]) w₁ := by
    show w₁ ∈ [r₀, w₀, r₁, w₁] ∧ w₁ ∉ [r₀]
    simp at hnodup ⊢
    omega
  have hboth := (hsetup.snoc (e := ⟨.close r₀ true, Closing.closed⟩) (inOrder_of_held hfirst rfl)).snoc
    (e := ⟨.close w₁ true, Closing.closed⟩) (inOrder_of_held hsecond rfl)
  simpa only [openHistory, List.append_assoc, List.cons_append, List.nil_append] using hboth

theorem Opened.keeps (hopen : Opened Grants s h) (hkept : s.fd 0 1 ≠ 0 ∧ s.fd 1 0 ≠ 0) :
    Keeps h s := by
  obtain ⟨file, argv, envp, pid, r₀, w₀, r₁, w₁, hmay, rfl, rfl⟩ := hopen
  have hnodup := pipes_nodup hmay
  have hobtained : obtained (openHistory file argv envp pid r₀ w₀ r₁ w₁) = [r₀, w₀, r₁, w₁] := rfl
  have hclosed : closed (openHistory file argv envp pid r₀ w₀ r₁ w₁) = [r₀, w₁] := rfl
  replace hkept : w₀ ≠ 0 ∧ r₁ ≠ 0 := hkept
  simp only [List.nodup_cons, List.mem_cons, List.not_mem_nil, or_false, not_or, not_false_eq_true,
    List.nodup_nil, and_true] at hnodup
  constructor
  · rw [hclosed]
    simp
    omega
  · intro d
    rw [Held, hobtained, hclosed]
    simp [Fin.exists_fin_two, openObject, SpawnT.withPipe]
    omega
  · simp [Fin.forall_fin_two, openObject, SpawnT.withPipe]
    omega

end

/-- A spawn object in any run whose steps are fit touches only its own descriptors, and
after a `wait` that succeeds all of them have been closed exactly once. -/
theorem run_own {s : SpawnT} {h : List Event} {es : List Call}
    {x : Calls.Session (Option SpawnT) (List Event)} {options : Option Options}
    (hopen : Makes kernel ((spawnOpen options).run.run {}) [] h (.done (.ok (), s)) h)
    (hkept : s.fd 0 1 ≠ 0 ∧ s.fd 1 0 ≠ 0)
    (hrun : Run (fun x e x' => Serves kernel serve x e x' ∧ StepFit x e) ⟨some s, h, false⟩ es x) :
    Own x.world ∧ ((∃ e ∈ es, WaitSucceeded e) → ∀ d ∈ obtained x.world, (closed x.world).count d = 1) := by
  have hopened := opened_of_returns hopen
  have hfine : Fine es x := by
    refine hrun.invariant ⟨hopened.own, fun _ => hopened.keeps hkept, by simp⟩ ?_
    intro es x e x' hx hstep
    exact hx.step hstep.1 hstep.2
  refine ⟨hfine.own, fun hsucc => ?_⟩
  have hnone := hfine.gone hsucc
  have hsettled := hfine.settled (.inr hnone)
  rwa [hnone] at hsettled

theorem grants_free (h : List Event) (c : Sys) (a : c.Answer) (hc : c ≠ .pipe) : Grants h c a := by
  have hnil : Event.obtained ⟨c, a⟩ = [] := by
    cases c with
    | pipe => exact absurd rfl hc
    | _ => rfl
  rw [Grants, hnil]
  exact ⟨List.nodup_nil, by simp⟩

theorem pipes_3456 : PipesMay Grants 3 4 5 6 := by
  refine ⟨⟨by decide, ?_⟩, by decide, ?_⟩
  · simp [Held, obtained, Event.obtained]
  · simp [Held, obtained, Event.obtained, pipeEvents, pipeActions]

def catHistory : List Event := openHistory "cat" [some "cat"] none 7 3 4 5 6

theorem cat_opens : Makes kernel ((spawnOpen (some ⟨.string "cat", .nil, none⟩)).run.run {}) []
    catHistory (.done (.ok (), openObject 7 3 4 5 6)) catHistory :=
  openChild_makes grants_free pipes_3456 "cat" [some "cat"] none 7

/-- Here everything is read and the child has exited. -/
theorem run_own_wait :
    let calls : List Event :=
      [⟨.close 4 true, Closing.closed⟩, ⟨.read 5 0 1024 1024, some [104, 105]⟩,
      ⟨.read 5 0 1024 1024, some []⟩, ⟨.waitpid 7, some (.exited 0)⟩,
      ⟨.close 5 false, Closing.closed⟩]
    let waited : Call := ⟨.wait none, calls, some (.ok (.number 0))⟩
    Own (catHistory ++ calls) ∧ ((∃ e ∈ [waited], WaitSucceeded e) →
      ∀ d ∈ obtained (catHistory ++ calls), (closed (catHistory ++ calls)).count d = 1) := by
  intro calls waited
  have hserves : Serves kernel serve ⟨some (openObject 7 3 4 5 6), catHistory, false⟩ waited
      ⟨none, catHistory ++ calls, false⟩ := by
    refine .returned (show Makes kernel (serve (.wait none) 2 (some (openObject 7 3 4 5 6))) _ _ _ _ from ?_)
    refine .call (grants_free _ _ _ (by simp)) (.call (grants_free _ _ _ (by simp)) ?_)
    refine .call (grants_free _ _ _ (by simp)) (.call (grants_free _ _ _ (by simp)) ?_)
    exact .call (grants_free _ _ _ (by simp)) .nil
  have hfit : StepFit ⟨some (openObject 7 3 4 5 6), catHistory, false⟩ waited := by
    refine ⟨by simp [waited, calls, CloseFit], ?_⟩
    rintro s ⟨⟩
    exact .inl (by decide)
  exact run_own cat_opens (by decide) (Run.nil.snoc (And.intro hserves hfit))

/-- After `stdin()` the field holds 0, and a second `stdin()` closes that. -/
theorem exists_run_closes_zero : ¬ ∀ (s : SpawnT) (h : List Event) (es : List Call)
    (x : Calls.Session (Option SpawnT) (List Event)) (options : Option Options),
    Makes kernel ((spawnOpen options).run.run {}) [] h (.done (.ok (), s)) h →
    Run (Serves kernel serve) ⟨some s, h, false⟩ es x →
    Own x.world ∧
      ((∃ e ∈ es, WaitSucceeded e) → ∀ d ∈ obtained x.world, (closed x.world).count d = 1) := by
  intro hall
  have hfirst : Serves kernel serve ⟨some (openObject 7 3 4 5 6), catHistory, false⟩
      ⟨.stdin none, [⟨.close 4 true, Closing.closed⟩], some (.ok .nothing)⟩
      ⟨some ((openObject 7 3 4 5 6).setFd 0 1 0), catHistory ++ [⟨.close 4 true, Closing.closed⟩],
        false⟩ := by
    refine .returned (show Makes kernel (serve (.stdin none) 0 (some (openObject 7 3 4 5 6))) _ _ _ _ from ?_)
    exact .call (grants_free _ _ _ (by simp)) .nil
  have hsecond : Serves kernel serve
      ⟨some ((openObject 7 3 4 5 6).setFd 0 1 0), catHistory ++ [⟨.close 4 true, Closing.closed⟩],
        false⟩
      ⟨.stdin none, [⟨.close 0 true, Closing.closed⟩], some (.ok .nothing)⟩
      ⟨some (((openObject 7 3 4 5 6).setFd 0 1 0).setFd 0 1 0),
        catHistory ++ [⟨.close 4 true, Closing.closed⟩] ++ [⟨.close 0 true, Closing.closed⟩],
        false⟩ := by
    refine .returned
      (show Makes kernel (serve (.stdin none) 0 (some ((openObject 7 3 4 5 6).setFd 0 1 0))) _ _ _ _ from ?_)
    exact .call (grants_free _ _ _ (by simp)) .nil
  obtain ⟨hown, -⟩ := hall _ _ _ _ _ cat_opens ((Run.nil.snoc hfirst).snoc hsecond)
  obtain ⟨hmem, -⟩ := hown _ ⟨.close 0 true, Closing.closed⟩ [] rfl 0 rfl
  exact absurd hmem (show 0 ∉ [3, 4, 5, 6] by decide)

end TorchIpc.Spawn
