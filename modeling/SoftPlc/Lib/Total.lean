import Mathlib.Tactic

/-!
# Total correctness of programs that may run forever

A program of `ExceptT ε (StateT σ Option)` ends with a value or a fault and a state, or does not end
(`none`), as one that is defined as a fixed point may. `Total fault post x s` says that `x` ends from
`s`, and what holds then; its rules take a program apart without unfolding the monad.
-/

namespace SoftPlc.Lib

variable {ε σ α β : Type}

/-- From `s` the program ends, with a value as in `post` or a fault as in `fault`. -/
inductive Total (fault : ε → σ → Prop) (post : α → σ → Prop)
    (x : ExceptT ε (StateT σ Option) α) (s : σ) : Prop where
  | value {a : α} {t : σ} (h : x s = some (.ok a, t)) (hpost : post a t)
  | fault {e : ε} {t : σ} (h : x s = some (.error e, t)) (hfault : fault e t)

namespace Total

variable {fault : ε → σ → Prop} {post post' : α → σ → Prop} {x : ExceptT ε (StateT σ Option) α}
  {s : σ}

theorem pure {a : α} (h : post a s) : Total fault post (Pure.pure a) s := .value rfl h

theorem throw {e : ε} (h : fault e s) : Total fault post (MonadExcept.throw e) s := .fault rfl h

/-- A sequence ends when the first part does and the second does from where it ended. -/
theorem bind {f : α → ExceptT ε (StateT σ Option) β} {post : β → σ → Prop}
    (h : Total fault (fun a t => Total fault post (f a) t) x s) :
    Total fault post (x >>= f) s := by
  rcases h with ⟨hx, hf⟩ | ⟨hx, hfault⟩
  · rename_i a t
    have hbind : (x >>= f) s = f a t := by
      simp only [Bind.bind, ExceptT.bind, ExceptT.mk, StateT.bind, hx]
      rfl
    rcases hf with ⟨hf, hpost⟩ | ⟨hf, hfault⟩
    · exact .value (hbind.trans hf) hpost
    · exact .fault (hbind.trans hf) hfault
  · refine .fault ?_ hfault
    simp only [Bind.bind, ExceptT.bind, ExceptT.mk, StateT.bind, hx]
    rfl

/-- A weaker property of the values. -/
theorem mono (h : Total fault post x s) (himp : ∀ a t, post a t → post' a t) :
    Total fault post' x s := by
  rcases h with ⟨hx, hpost⟩ | ⟨hx, hfault⟩
  · exact .value hx (himp _ _ hpost)
  · exact .fault hx hfault

end Total

end SoftPlc.Lib
