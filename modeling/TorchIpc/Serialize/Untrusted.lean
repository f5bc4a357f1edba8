import TorchIpc.Serialize.Accepted

/-! `rb_load` on bytes from anywhere. It returns one value, or a negative code and the stack as it
was, for the encodings of the format and for what it refuses at once. On any other bytes it leaves
something on the stack, raises an error, or takes values off the stack that are not its own. -/

namespace TorchIpc

open Runs Format

section
variable {P : Type}

/-- One value has been pushed, or the stack has the height it had. -/
def LoadOutcome.Safe (stack : List (Value P)) : LoadOutcome P → Prop
  | .ret code _ stack' => (code = 1 ∧ ∃ v, stack' = v :: stack) ∨
      (code < 0 ∧ stack'.length = stack.length)
  | _ => False

/-- From these bytes, `rb_load` ends in a safe way above every stack. A chunk that runs over the
buffer of `rb_lua_reader` is none. -/
def LoadsSafely (lua : Lua P) (bs : List UInt8) : Prop :=
  ∀ rb stack, Holds rb bs → ∃ o, Yields (fun fuel => rbLoad lua fuel rb stack) o ∧ o.Safe stack

theorem LoadOutcome.Safe.returns {stack : List (Value P)} {o : LoadOutcome P} (h : o.Safe stack) :
    o.Returns := by
  cases o with
  | ret => trivial
  | _ => exact h

variable {lua : Lua P}

/-- An outcome that is safe above no values at all is that of a value, or of bytes that are
refused. -/
theorem Format.Ended.of_safe {bs : List UInt8} {o : LoadOutcome P} (h : Ended lua false bs [] o)
    (hsafe : o.Safe []) : (∃ v rest, Encodes lua (.value true) bs v rest) ∨
    RefusedAtOnce lua bs := by
  have hlow : ∀ {o : LoadOutcome P}, Low [] o → ¬ o.Safe [] := by
    intro o ho hsafe
    cases ho with
    | low _ _ hpos hle => exact absurd (hpos.trans_le hle) (lt_irrefl 0)
    | fails hfails => exact hfails hsafe.returns
  have hpushed : ∀ {code rb} {v : Value P}, code < 0 → ¬ (LoadOutcome.ret code rb [v]).Safe [] := by
    intro code rb v hcode hsafe
    rcases hsafe with ⟨hone, -⟩ | ⟨-, hlen⟩
    · omega
    · cases hlen
  cases h with
  | closes hkey => cases hkey
  | value hv => exact Or.inl ⟨_, _, hv⟩
  | message => exact absurd hsafe (hpushed (by decide))
  | refused hbs => exact Or.inr hbs
  | table hbs hloop =>
    subst hbs
    cases hloop with
    | named hes hsize => exact Or.inl ⟨_, _, .table hes hsize⟩
    | cutOff => exact absurd hsafe (hpushed (by decide))
    | low ho => exact absurd hsafe (hlow ho)
  | cutOff _ hcode => exact absurd hsafe (hpushed hcode)
  | low ho => exact absurd hsafe (hlow ho)

end

end TorchIpc
