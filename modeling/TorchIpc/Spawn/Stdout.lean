import TorchIpc.Spawn.Object
import Mathlib.Data.List.TakeWhile
import Mathlib.Tactic.SplitIfs

/-! What `stdout` returns. The world is what the child has still to say; at each `read` the
kernel hands over as many of the next bytes as it likes, at least one while there are any.
Every call takes its bytes from the front of the stream, so the results of any sequence of
calls, with the newlines put back, are the stream up to where the calls have come. -/

namespace TorchIpc.Spawn

open Calls Runs

/-- A pipe with these bytes left in it, which its writer closes at the end. -/
def pipeKernel : Kernel (List UInt8) Sys Sys.Answer where
  may rest c a := match c, a with
    | .read _ _ len _, some bs => bs.length ≤ len ∧ bs <+: rest ∧ (bs = [] → len = 0 ∨ rest = [])
    | .read .., none => False
    | _, _ => True
  after rest c a := match c, a with
    | .read .., some bs => rest.drop bs.length
    | _, _ => rest

/-- A `read` asks for something, and stores before the last byte of the buffer. -/
def ReadFits : Sys → Prop
  | .read _ off len size => 0 < len ∧ off + len < size
  | _ => True

def bytesRead (calls : List ((c : Sys) × c.Answer)) : List UInt8 :=
  calls.flatMap fun
    | ⟨.read .., some bs⟩ => bs
    | _ => []

@[simp] theorem pipeKernel_after_read (rest : List UInt8) (fd off len size : ℕ) (bs : List UInt8) :
    pipeKernel.after rest (.read fd off len size) (some bs) = rest.drop bs.length := rfl

/-- What is read comes off the front of the stream. -/
theorem makes_bytesRead {α : Type} {p p' : Prog Sys Sys.Answer α} {rest rest' : List UInt8}
    {calls : List ((c : Sys) × c.Answer)} (hmakes : Makes pipeKernel p rest calls p' rest') :
    rest = bytesRead calls ++ rest' := by
  induction hmakes with
  | nil => rfl
  | @call c next a rest calls p' rest' hmay _ ih =>
    cases c with
    | read fd off len size =>
      cases a with
      | none => exact hmay.elim
      | some bs =>
        obtain ⟨-, ⟨rest₁, rfl⟩, -⟩ := hmay
        rw [pipeKernel_after_read, List.drop_left] at ih
        rw [ih]
        exact (List.append_assoc bs _ rest').symm
    | _ => exact ih

/-! ### One call -/

/-- Up to and including the first newline, or to the end. -/
def lineOf (rest : List UInt8) : List UInt8 :=
  rest.takeWhile (· ≠ 10) ++ (rest.dropWhile (· ≠ 10)).take 1

/-- The result and the rest after a line is taken off. -/
def TakesLine (rest : List UInt8) (result : Result) (rest' : List UInt8) : Prop :=
  (∃ line, 10 ∉ line ∧ rest = line ++ 10 :: rest' ∧ result = .string line) ∨
    10 ∉ rest ∧ rest' = [] ∧ result = pushBuff rest

section
variable {stop : Prop} {s : SpawnT} {fd fuel : ℕ} {rest buff : List UInt8} {maxCb : ℕ}

theorem grow_spare {cb : ℕ} (h : cb + 1 ≤ maxCb) : cb + 1 < grow cb maxCb := by
  rw [grow]
  split_ifs <;> omega

theorem readLine_takes (hfuel : rest.length < fuel ∨ stop) (hbuff : 10 ∉ buff)
    (hmax : buff.length + 1 < maxCb) :
    Proc.wp pipeKernel (fun _ => ReadFits) stop (readLine fd fuel buff maxCb)
      (fun r s' rest' => s' = s ∧ ∃ result, r = .ok result ∧ TakesLine (buff ++ rest) result rest')
      s rest := by
  induction fuel generalizing rest buff maxCb with
  | zero => exact hfuel.resolve_left (Nat.not_lt_zero _)
  | succ fuel ih =>
    rw [readLine, Proc.wp_bind, sys, Proc.wp_ask]
    refine ⟨⟨Nat.one_pos, hmax⟩, ?_⟩
    rintro (_ | _ | ⟨b, bs⟩) hmay
    · exact hmay.elim
    · obtain rfl : rest = [] := by simpa using hmay.2.2
      rw [List.append_nil]
      exact ⟨rfl, _, rfl, .inr ⟨hbuff, rfl, rfl⟩⟩
    · obtain ⟨hlen, ⟨rest', rfl⟩, -⟩ := hmay
      obtain rfl : bs = [] := by simpa using hlen
      dsimp only
      split_ifs with hb
      · subst hb
        exact ⟨rfl, _, rfl, .inl ⟨buff, hbuff, rfl, rfl⟩⟩
      · have hbuff' : 10 ∉ buff ++ [b] := by simp [hbuff, Ne.symm hb]
        have hfuel' : rest'.length < fuel ∨ stop := hfuel.imp_left fun h => by simpa using h
        have hgrow : (buff ++ [b]).length + 1 < grow (buff.length + 1) maxCb := by
          simpa using grow_spare hmax
        have hrest := ih hfuel' hbuff' hgrow
        rw [List.append_assoc] at hrest
        exact hrest

theorem readAll_takes (hfuel : rest.length < fuel ∨ stop) (hmax : buff.length + 1 < maxCb) :
    Proc.wp pipeKernel (fun _ => ReadFits) stop (readAll fd fuel buff maxCb)
      (fun r s' rest' => s' = s ∧ rest' = [] ∧ r = .ok (pushBuff (buff ++ rest))) s rest := by
  induction fuel generalizing rest buff maxCb with
  | zero => exact hfuel.resolve_left (Nat.not_lt_zero _)
  | succ fuel ih =>
    rw [readAll, Proc.wp_bind, sys, Proc.wp_ask]
    refine ⟨⟨by omega, by omega⟩, ?_⟩
    rintro (_ | _ | ⟨b, bs⟩) hmay
    · exact hmay.elim
    · have hrest : rest = [] := (hmay.2.2 rfl).resolve_left (by omega)
      subst hrest
      rw [List.append_nil]
      exact ⟨rfl, rfl, rfl⟩
    · obtain ⟨hlen, ⟨rest', rfl⟩, -⟩ := hmay
      have hfuel' : rest'.length < fuel ∨ stop := hfuel.imp_left fun h => by
        simp only [List.length_append, List.length_cons] at h
        omega
      have hgrow : (buff ++ b :: bs).length + 1 < grow (buff.length + (b :: bs).length) maxCb := by
        rw [List.length_append]
        exact grow_spare (by omega)
      have hrest := ih hfuel' hgrow
      rw [List.append_assoc] at hrest
      rw [pipeKernel_after_read, List.drop_left]
      exact hrest

theorem readSome_takes (n : ByteCount) (hn : 0 < n.val) :
    Proc.wp pipeKernel (fun _ => ReadFits) stop (readSome fd n)
      (fun r s' rest' => s' = s ∧ ∃ bs, rest = bs ++ rest' ∧ (bs = [] → rest = []) ∧
        r = .ok (pushBuff bs)) s rest := by
  rw [readSome, Proc.wp_bind, sys, Proc.wp_ask]
  rw [Nat.mod_eq_of_lt n.val_lt]
  refine ⟨⟨hn, by omega⟩, ?_⟩
  rintro (_ | bs) hmay
  · exact hmay.elim
  · obtain ⟨-, ⟨rest', rfl⟩, hnil⟩ := hmay
    refine ⟨rfl, bs, ?_, fun hbs => (hnil hbs).resolve_left (by omega), rfl⟩
    rw [pipeKernel_after_read, List.drop_left]

end

/-! ### One request -/

def StdoutArg.isLine : StdoutArg → Bool
  | none => true
  | string s => s.toList.take 2 = ['*', 'l']
  | _ => false

def StdoutArg.isAll : StdoutArg → Bool
  | string s => s.toList.take 2 ≠ ['*', 'l']
  | _ => false

/-- What the argument may be: at least one byte is asked for. -/
def StdoutArg.Reads : StdoutArg → Prop
  | number n => 0 < n.val
  | other => False
  | _ => True

/-- The result and the rest of one request. -/
def Takes (arg : StdoutArg) (rest : List UInt8) (result : Result) (rest' : List UInt8) : Prop :=
  (arg.isLine = true → TakesLine rest result rest') ∧
    (arg.isLine = false → ∃ bs, rest = bs ++ rest' ∧ (bs = [] → rest = []) ∧ result = pushBuff bs) ∧
    (arg.isAll = true → rest' = [])

theorem spawnStdout_takes {stop : Prop} {arg : StdoutArg} (harg : arg.Reads) {fuel : ℕ}
    {rest : List UInt8} (hfuel : rest.length < fuel ∨ stop) {s : SpawnT} :
    Proc.wp pipeKernel (fun _ => ReadFits) stop (spawnStdout arg fuel)
      (fun r s' rest' => s' = s ∧ ∃ result, r = .ok result ∧ Takes arg rest result rest') s rest := by
  have hline : arg.isLine = true → arg.isAll = false → Proc.wp pipeKernel (fun _ => ReadFits) stop
      (readLine (s.fd 1 0) fuel [] 1024)
      (fun r s' rest' => s' = s ∧ ∃ result, r = .ok result ∧ Takes arg rest result rest') s rest := by
    intro hline hall
    refine Proc.wp_mono (readLine_takes hfuel List.not_mem_nil (by simp)) ?_
    rintro r s' rest' ⟨rfl, result, rfl, htakes⟩
    exact ⟨rfl, result, rfl, fun _ => htakes, by simp [hline], by simp [hall]⟩
  rw [spawnStdout, Proc.wp_get_bind]
  cases arg with
  | none => exact hline rfl rfl
  | number n =>
    refine Proc.wp_mono (readSome_takes n harg) ?_
    rintro r s' rest' ⟨rfl, bs, hbs, hnil, rfl⟩
    exact ⟨rfl, _, rfl, by simp [StdoutArg.isLine], fun _ => ⟨bs, hbs, hnil, rfl⟩,
      by simp [StdoutArg.isAll]⟩
  | string str =>
    dsimp only
    split_ifs with hstr
    · exact hline (by simp [StdoutArg.isLine, hstr]) (by simp [StdoutArg.isAll, hstr])
    · refine Proc.wp_mono (readAll_takes hfuel (by simp)) ?_
      rintro r s' rest' ⟨rfl, rfl, rfl⟩
      exact ⟨rfl, _, rfl, by simp [StdoutArg.isLine, hstr], fun _ => ⟨rest, by simp, id, rfl⟩,
        fun _ => rfl⟩
  | other => exact harg.elim

/-! ### What the results say -/

@[simp] theorem pushBuff_nil : pushBuff [] = .nothing := rfl

theorem pushBuff_of_ne_nil {bs : List UInt8} (h : bs ≠ []) : pushBuff bs = .string bs :=
  if_pos (List.length_pos_iff.mpr h)

theorem pushBuff_eq_nothing {bs : List UInt8} : pushBuff bs = .nothing ↔ bs = [] := by
  cases bs <;> simp [pushBuff]

/-- The returned string, with the newline put back after a line that was ended by one. -/
def restored (e : Call) : List UInt8 :=
  match e.request, e.result with
  | .stdout arg, some (.ok (.string bs)) =>
    if arg.isLine ∧ (bytesRead e.calls).getLast? = some 10 then bs ++ [10] else bs
  | _, _ => []

section
variable {arg : StdoutArg} {rest rest' consumed : List UInt8} {result : Result}

theorem takes_nothing (h : Takes arg rest result rest') : result = .nothing ↔ rest = [] := by
  obtain ⟨hline, hbytes, -⟩ := h
  cases hcase : arg.isLine with
  | false =>
    obtain ⟨bs, rfl, hnil, rfl⟩ := hbytes hcase
    rw [pushBuff_eq_nothing]
    exact ⟨hnil, fun h => (List.append_eq_nil_iff.mp h).1⟩
  | true =>
    rcases hline hcase with ⟨line, -, rfl, rfl⟩ | ⟨-, -, rfl⟩
    · simp
    · exact pushBuff_eq_nothing

theorem lineOf_ended {line : List UInt8} (h : 10 ∉ line) (rest' : List UInt8) :
    lineOf (line ++ 10 :: rest') = line ++ [10] := by
  have hall : ∀ b ∈ line, decide (b ≠ 10) = true :=
    fun b hb => decide_eq_true fun hten => h (hten ▸ hb)
  rw [lineOf, List.takeWhile_append_of_pos hall, List.dropWhile_append_of_pos hall]
  simp

theorem lineOf_last (h : 10 ∉ rest) : lineOf rest = rest := by
  have hall : ∀ b ∈ rest, decide (b ≠ 10) = true :=
    fun b hb => decide_eq_true fun hten => h (hten ▸ hb)
  rw [lineOf, List.takeWhile_eq_self_iff.mpr hall, List.dropWhile_eq_nil_iff.mpr hall]
  simp

theorem takes_line (h : TakesLine rest result rest') (hrest : rest = consumed ++ rest') :
    consumed = lineOf rest := by
  rcases h with ⟨line, hline, rfl, -⟩ | ⟨hline, rfl, -⟩
  · rw [lineOf_ended hline]
    exact (List.append_cancel_right (by simpa using hrest)).symm
  · rw [lineOf_last hline, hrest, List.append_nil]

/-- The restored string is what the request has read. -/
theorem restored_eq {calls : List ((c : Sys) × c.Answer)} (h : Takes arg rest result rest')
    (hrest : rest = bytesRead calls ++ rest') :
    restored ⟨.stdout arg, calls, some (.ok result)⟩ = bytesRead calls := by
  obtain ⟨hline, hbytes, -⟩ := h
  cases hcase : arg.isLine with
  | false =>
    obtain ⟨bs, hbs, -, rfl⟩ := hbytes hcase
    obtain rfl : bs = bytesRead calls := List.append_cancel_right (hbs.symm.trans hrest)
    by_cases hnil : bytesRead calls = []
    · simp [restored, hnil]
    · simp [restored, pushBuff_of_ne_nil hnil, hcase]
  | true =>
    rcases hline hcase with ⟨line, -, hsplit, rfl⟩ | ⟨hlast, rfl, rfl⟩
    · have hread : bytesRead calls ++ rest' = (line ++ [10]) ++ rest' := by
        rw [← hrest, hsplit]
        simp
      simp [restored, hcase, List.append_cancel_right hread]
    · rw [List.append_nil] at hrest
      subst hrest
      by_cases hnil : bytesRead calls = []
      · simp [restored, hnil]
      · have hended : ¬ (bytesRead calls).getLast? = some 10 :=
          fun h => hlast (List.mem_of_getLast? h)
        simp [restored, pushBuff_of_ne_nil hnil, hended]

end

/-! ### Runs -/

/-- What the claim of one request is, by the bytes that were left before it. -/
def Answered (e : Call) (rest : List UInt8) : Prop :=
  ∃ arg result, e.request = .stdout arg ∧ e.result = some (.ok result) ∧
    (result = .nothing ↔ rest = []) ∧ (arg.isLine = true → restored e = lineOf rest) ∧
    (arg.isAll = true → restored e = rest)

section
variable {s : SpawnT} {stream : List UInt8} {es : List Call} {x x' : Calls.Session (Option SpawnT) (List UInt8)}

/-- The requests are to `stdout`, with an argument that reads. -/
def ReadsStdout (e : Call) : Prop := ∃ arg, e.request = .stdout arg ∧ arg.Reads

theorem serve_takes {stop : Prop} {arg : StdoutArg} (harg : arg.Reads) {fuel : ℕ}
    {rest : List UInt8} (hfuel : rest.length < fuel ∨ stop) (s : SpawnT) :
    wp pipeKernel (fun _ => ReadFits) stop (serve (.stdout arg) fuel (some s))
      (fun out rest' => out.2 = some s ∧ ∃ result, out.1 = .ok result ∧ Takes arg rest result rest')
      rest := by
  rw [serve_some, wp_bind]
  refine wp_mono (spawnStdout_takes harg hfuel) ?_
  rintro ⟨r, s'⟩ rest' ⟨hs, hr⟩
  exact ⟨congrArg some hs, hr⟩

/-- The invariant of the runs. -/
structure Partitions (s : SpawnT) (stream : List UInt8) (es : List Call)
    (x : Calls.Session (Option SpawnT) (List UInt8)) : Prop where
  object : x.object = some s
  reads : ∀ e ∈ es, ∀ c ∈ e.calls, ReadFits c.1
  concat : x.pending = false → stream = es.flatMap restored ++ x.world
  answered : x.pending = false → ∀ before e after, es = before ++ e :: after →
    Answered e (stream.drop (before.flatMap restored).length)

theorem Partitions.step {e : Call} (hx : Partitions s stream es x)
    (hserves : Serves pipeKernel serve x e x') (he : ReadsStdout e) :
    Partitions s stream (es ++ [e]) x' := by
  obtain ⟨arg, hrequest, harg⟩ := he
  obtain ⟨hobject, hreads, hconcat, hanswered⟩ := hx
  cases hserves with
  | @returned r fuel o rest calls res o' rest' hmakes =>
    obtain rfl : r = .stdout arg := hrequest
    obtain rfl : o = some s := hobject
    have hserve := @serve_takes True arg harg fuel rest (.inr trivial) s
    obtain ⟨rfl, result, rfl, htakes⟩ := hmakes.returns hserve
    have hrest := makes_bytesRead hmakes
    have hrestored := restored_eq htakes hrest
    have hstream : stream = es.flatMap restored ++ rest := hconcat rfl
    refine ⟨rfl, ?_, fun _ => ?_, fun _ => forall_split_snoc (hanswered rfl) ?_⟩
    · intro e he
      rcases List.mem_append.mp he with he | he
      · exact hreads e he
      · obtain rfl := List.mem_singleton.mp he
        exact hmakes.forall_calls hserve
    · rw [List.flatMap_append, List.flatMap_singleton, hrestored, List.append_assoc, ← hrest]
      exact hstream
    · rw [hstream, List.drop_left]
      refine ⟨arg, result, rfl, rfl, takes_nothing htakes, fun hline => ?_, fun hall => ?_⟩
      · rw [hrestored]
        exact takes_line (htakes.1 hline) hrest
      · rw [hrestored, hrest, htakes.2.2 hall, List.append_nil]
  | @pending r fuel o rest calls p rest' hmakes =>
    obtain rfl : r = .stdout arg := hrequest
    obtain rfl : o = some s := hobject
    have hserve := @serve_takes True arg harg fuel rest (.inr trivial) s
    refine ⟨rfl, ?_, by simp, by simp⟩
    intro e he
    rcases List.mem_append.mp he with he | he
    · exact hreads e he
    · obtain rfl := List.mem_singleton.mp he
      exact hmakes.forall_calls hserve

/-- Any sequence of `stdout` requests, whatever is read at a time. -/
theorem stdout_partition
    (hrun : Run (fun x e x' => Serves pipeKernel serve x e x' ∧ ReadsStdout e)
      ⟨some s, stream, false⟩ es x) :
    (∀ e ∈ es, ∀ c ∈ e.calls, ReadFits c.1) ∧
      (x.pending = false → stream = es.flatMap restored ++ x.world ∧
        ∀ before e after, es = before ++ e :: after →
          Answered e (stream.drop (before.flatMap restored).length)) ∧
      ∀ arg, StdoutArg.Reads arg → ∀ fuel > x.world.length, ∀ calls p w,
        Makes pipeKernel (serve (.stdout arg) fuel x.object) x.world calls p w → p ≠ .stop := by
  have hx : Partitions s stream es x := by
    refine hrun.invariant ⟨rfl, by simp, fun _ => rfl, by simp⟩ ?_
    intro es x e x' hx hstep
    exact hx.step hstep.1 hstep.2
  refine ⟨hx.reads, fun hpending => ⟨hx.concat hpending, hx.answered hpending⟩, ?_⟩
  rintro arg harg fuel hfuel calls p w hmakes rfl
  rw [hx.object] at hmakes
  have hserve := @serve_takes False arg harg fuel x.world (.inl hfuel) s
  exact hmakes.wp hserve

/-- The bytes `a`, newline and `b`, as a line, then at most two bytes, then the rest. -/
theorem stdout_partition_three :
    let line : Call := ⟨.stdout .none, [⟨.read 5 0 1 1024, some [97]⟩, ⟨.read 5 1 1 1024, some [10]⟩],
      some (.ok (.string [97]))⟩
    let two : Call := ⟨.stdout (.number ⟨2, by decide⟩), [⟨.read 5 0 2 3, some [98]⟩],
      some (.ok (.string [98]))⟩
    let all : Call := ⟨.stdout (.string "*all"), [⟨.read 5 0 1023 1024, some []⟩],
      some (.ok .nothing)⟩
    [97, 10, 98] = [line, two, all].flatMap restored ++ [] := by
  intro line two all
  let s : SpawnT := SpawnT.setFd {} 1 0 5
  have hline : Serves pipeKernel serve ⟨some s, [97, 10, 98], false⟩ line ⟨some s, [98], false⟩ := by
    refine .returned (show Makes pipeKernel (serve (.stdout .none) 2 (some s)) _ _ _ _ from ?_)
    exact .call (by simp [pipeKernel]) (.call (by simp [pipeKernel]) .nil)
  have htwo : Serves pipeKernel serve ⟨some s, [98], false⟩ two ⟨some s, [], false⟩ := by
    refine .returned (show Makes pipeKernel (serve (.stdout (.number ⟨2, by decide⟩)) 0 (some s)) _ _ _ _ from ?_)
    exact .call (by simp [pipeKernel]) .nil
  have hall : Serves pipeKernel serve ⟨some s, [], false⟩ all ⟨some s, [], false⟩ := by
    refine .returned (show Makes pipeKernel (serve (.stdout (.string "*all")) 1 (some s)) _ _ _ _ from ?_)
    exact .call (by simp [pipeKernel]) .nil
  have hrun : Run (fun x e x' => Serves pipeKernel serve x e x' ∧ ReadsStdout e)
      ⟨some s, [97, 10, 98], false⟩ [line, two, all] ⟨some s, [], false⟩ := by
    have hreads : ReadsStdout line ∧ ReadsStdout two ∧ ReadsStdout all :=
      ⟨⟨_, rfl, trivial⟩, ⟨_, rfl, Nat.two_pos⟩, ⟨_, rfl, trivial⟩⟩
    exact .snoc (.snoc (.snoc .nil ⟨hline, hreads.1⟩) ⟨htwo, hreads.2.1⟩) ⟨hall, hreads.2.2⟩
  exact ((stdout_partition hrun).2.1 rfl).1

end

end TorchIpc.Spawn
