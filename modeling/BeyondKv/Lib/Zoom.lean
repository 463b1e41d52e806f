/-
# Programs of a part

A program that works on a part of a larger state is a program on the whole (`Prog.zoom`).
-/
import BeyondKv.Lib.Interleave

namespace Async

structure Lens (τ σ : Type) where
  view : τ → σ
  set : σ → τ → τ
  view_set : ∀ s t, view (set s t) = s

section zoom
variable {τ σ L : Type}

def Prog.zoom (ℓ : Lens τ σ) : {α : Type} → Prog σ L α → Prog τ L α
  | _, .ret a => .ret a
  | _, .eff e k =>
    .eff (fun t => ((e (ℓ.view t)).1, ℓ.set (e (ℓ.view t)).2 t)) fun b => (k b).zoom ℓ
  | _, .mark l k => .mark l (k.zoom ℓ)
  | _, .await r k => .await (fun t => r (ℓ.view t)) (k.zoom ℓ)
  | _, .join n ps k => .join n (fun i => (ps i).zoom ℓ) fun bs => (k bs).zoom ℓ

end zoom

end Async
