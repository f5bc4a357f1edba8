import TorchIpc.Serialize.Saving

/-! A value that has made the trip can make it again: it is as well formed as before,
written with the same bytes, and nothing more is lost. -/

namespace TorchIpc

section
variable {P : Type}

mutual

theorem Value.received_received (v : Value P) : v.received.received = v.received := by
  cases v with
  | table es typename => rw [Value.received, Value.received, receivedEntries_received es]
  | function p ups => simp [Value.received]
  | _ => simp [Value.received]

theorem receivedEntries_received (es : List (Value P × Value P)) :
    receivedEntries (receivedEntries es) = receivedEntries es := by
  match es with
  | [] => rfl
  | (k, v) :: es =>
    rw [receivedEntries, receivedEntries, Value.received_received k, Value.received_received v,
      receivedEntries_received es]

end

mutual

theorem Value.parts_received (v : Value P) : v.received.parts = v.parts.map Value.received := by
  cases v with
  | table es typename =>
    rw [Value.received, Value.parts, Value.parts, List.map_cons, Value.received, entriesParts_received es]
  | _ => simp [Value.received, Value.parts]

theorem entriesParts_received (es : List (Value P × Value P)) :
    entriesParts (receivedEntries es) = (entriesParts es).map Value.received := by
  match es with
  | [] => rfl
  | (k, v) :: es =>
    rw [receivedEntries, entriesParts, entriesParts, Value.parts_received k, Value.parts_received v,
      entriesParts_received es, List.map_append, List.map_append]

end

variable {lua : Lua P}

theorem Value.WfNode.received {v : Value P} (h : v.WfNode lua) : v.received.WfNode lua := by
  cases v with
  | table es typename =>
    obtain ⟨hk, hes, hkeys⟩ := h
    refine ⟨hk, fun e he => ?_, received_keys hkeys⟩
    rw [receivedEntries_eq] at he
    obtain ⟨e', he', rfl⟩ := List.mem_map.mp he
    obtain ⟨hbad, hnorm, hnil⟩ := hes e' he'
    exact ⟨(received_badKey _).trans hbad, received_normKey hnorm, (received_isNil _).trans hnil⟩
  | function p ups =>
    have hups : ups.length = (lua.upvalueNames p).length := h
    rw [Value.received, Value.WfNode, List.length_map, hups]
  | _ => simpa only [Value.received] using h

theorem Value.Wf.received {v : Value P} (h : v.Wf lua) : v.received.Wf lua := by
  intro w hw
  rw [Value.parts_received] at hw
  obtain ⟨u, hu, rfl⟩ := List.mem_map.mp hw
  exact (h u hu).received

mutual

/-- What was accepted is written with the same steps again. -/
theorem script_received (v : Value P) (hwf : ∀ w ∈ v.parts, w.WfNode lua)
    (hok : (script lua false false v).fin = .ok) :
    script lua false false v.received = script lua false false v := by
  cases v with
  | table es typename =>
    rw [script, tableScript_fin_ok] at hok
    rw [Value.received, script, script, entriesScript_received es (forall_parts_table.mp hwf).2 hok]
  | function p ups =>
    have hp : noUpvalues lua p :=
      noUpvalues_of_ok false (.function p ups) hok _ (Value.self_mem_parts _)
    have hups : ups.length = (lua.upvalueNames p).length := hwf _ (Value.self_mem_parts _)
    have hups' : (ups.map fun _ => (none : Option (Value P))).length =
        (lua.upvalueNames p).length := by
      rw [List.length_map, hups]
    rw [Value.received, script, script, upvalsScript_of_noUpvalues hp hups, upvalsScript_of_noUpvalues hp hups']
  | _ => rw [Value.received]

theorem entriesScript_received (es : List (Value P × Value P)) (hwf : ∀ w ∈ entriesParts es, w.WfNode lua)
    (hok : (entriesScript lua false false es).fin = .ok) :
    entriesScript lua false false (receivedEntries es) = entriesScript lua false false es := by
  match es with
  | [] => rfl
  | (k, v) :: es =>
    obtain ⟨hwk, hwv, hwes⟩ := forall_parts_cons.mp hwf
    rw [entriesScript, entryScript_fin_ok] at hok
    rw [receivedEntries, entriesScript, entriesScript, script_received k hwk hok.1, script_received v hwv hok.2.1,
      entriesScript_received es hwes hok.2.2]

end

theorem Serialisable.received {v : Value P} (hwf : v.Wf lua) (h : Serialisable lua false v) :
    Serialisable lua false v.received := by
  rw [Serialisable, script_received v hwf h.1]
  exact h

end

end TorchIpc
