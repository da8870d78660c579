import Mathlib.Logic.Relation
import Psrp.Lib.Async

/-!
# Programs that Walk

Programs that change the state only along a relation.

A relation says what can happen to a state. A program walks along it when,
however it ends and whatever the world does, the state it leaves behind is one
that the relation reaches from the state it found, in any number of steps. A
program that is dropped walks too: it has only gone less far.

Walking is proved once for a system, by the rules for its programs; what holds
of every run is then proved by cases on one step of the relation
(`play_walks`), and never by taking a program apart again.

Where a step needs to know what a program found, the walk is proved as a
triple; `wp_walks_bind` is then the rule for sequences.

## Main definitions

* `Async.Walks`: A program walks along a relation.

## Theorems

* `Async.walks_bind`, `Async.walks_loop`, `Async.walks_zoom`: The rules.
* `Async.play_walks`: What every step keeps holds of every run.
-/

namespace Psrp

namespace Async

open Relation (ReflTransGen)

variable {ω ε σ τ α β γ ι : Type} {R : σ → σ → Prop} {p q : Async ω ε σ α} {s : σ}

/-- A program changes the state along a relation, however it ends. -/
def Walks (R : σ → σ → Prop) (p : Async ω ε σ α) : Prop := ∀ s, Stays (ReflTransGen R s) p

/-- Where a program that walks ends. -/
theorem Walks.wp (h : Walks R p) (s : σ) : Async.wp p (fun _ t => ReflTransGen R s t) s :=
  h s s .refl

/-- It is enough to look at walks from where the program starts. -/
theorem walks_of_wp (h : ∀ s, Async.wp p (fun _ t => ReflTransGen R s t) s) : Walks R p := by
  intro s t hst
  exact wp_mono (h t) fun _ _ => hst.trans

/-- A program that walks along a relation walks along a wider one. -/
theorem Walks.mono {R' : σ → σ → Prop} (h : Walks R p) (hR : ∀ s t, R s t → R' s t) :
    Walks R' p :=
  walks_of_wp fun s => wp_mono (h.wp s) fun _ _ ht => ht.lift id hR

theorem walks_pure (a : α) : Walks R (pure a : Async ω ε σ α) := fun _ => stays_pure a

theorem walks_throw (e : ε) : Walks R (throw e : Async ω ε σ α) := fun _ => stays_throw e

theorem walks_lift (r : Except ε α) : Walks R (lift r : Async ω ε σ α) := fun _ => stays_lift r

theorem walks_get : Walks R (get : Async ω ε σ σ) := fun _ _ h => wp_get h

theorem walks_alarmed : Walks R (alarmed : Async ω ε σ Bool) := fun _ => stays_alarmed

theorem walks_modify {f : σ → σ} (hf : ∀ s, R s (f s)) :
    Walks R (modify f : Async ω ε σ Unit) := fun _ => stays_modify fun t h => h.tail (hf t)

theorem walks_bind {f : α → Async ω ε σ β} (hp : Walks R p) (hf : ∀ a, Walks R (f a)) :
    Walks R (p >>= f) := fun s => stays_bind (hp s) fun a => hf a s

theorem walks_ite {b : Prop} [Decidable b] (hp : Walks R p) (hq : Walks R q) :
    Walks R (if b then p else q) := fun s => stays_ite (hp s) (hq s)

theorem walks_attempt (hp : Walks R p) : Walks R (attempt p) := fun s => stays_attempt (hp s)

theorem walks_guarded (hp : Walks R p) : Walks R (guarded p) := fun s => stays_guarded (hp s)

theorem walks_loop {body : β → Async ω ε σ (Turn β γ)} (h : ∀ b, Walks R (body b)) (b : β) :
    Walks R (loop body b) := fun s => stays_loop (fun b => h b s) b

/-- A sequence, when what follows depends on where the first part led. -/
theorem wp_walks_bind {f : α → Async ω ε σ β} {Q : Exit ε α → σ → Prop}
    (hp : Async.wp p Q s) (hstep : ∀ x t, Q x t → ReflTransGen R s t)
    (hf : ∀ a t, Q (.ok a) t → Async.wp (f a) (fun _ u => ReflTransGen R t u) t) :
    Async.wp (p >>= f) (fun _ t => ReflTransGen R s t) s := by
  refine wp_bind (wp_mono hp fun x t hx => ?_)
  have ht := hstep x t hx
  cases x with
  | ok a => exact wp_mono (hf a t hx) fun _ _ => ht.trans
  | err e => exact ht
  | cut n => exact ht
  | suspended => exact ht

/-- A program of a part walks along what its steps do to the whole. -/
theorem walks_zoom {part : σ → τ} {put : τ → σ → σ} {R' : τ → τ → Prop} {q : Async ω ε τ α}
    (hq : Walks R' q) (hsame : ∀ s, put (part s) s = s)
    (hstep : ∀ s t u, R' t u → ReflTransGen R (put t s) (put u s)) : Walks R (zoom part put q) := by
  refine walks_of_wp fun s => wp_zoom (wp_mono (hq.wp (part s)) fun _ t ht => ?_)
  have hlift : ReflTransGen R (put (part s) s) (put t s) := ht.lift' (put · s) fun _ _ => hstep s _ _
  rwa [hsame] at hlift

/-- What a step keeps, a walk keeps. -/
theorem walk_keeps {I : σ → Prop} {t : σ} (hwalk : ReflTransGen R s t)
    (hstep : ∀ s t, I s → R s t → I t) (hs : I s) : I t := by
  induction hwalk with
  | refl => exact hs
  | tail _ h ih => exact hstep _ _ ih h

/-- A run of operations that walk is a walk. -/
theorem play_walk {f : ι → Async ω ε σ α} (hf : ∀ i, Walks R (f i)) (cs : List (Call ω ι)) :
    ReflTransGen R s (play f cs s).2 :=
  play_run (fun _ t => ReflTransGen R s t) (fun _ i t ht => hf i s t ht) cs .refl

/-- What every step keeps holds of every run. -/
theorem play_walks {f : ι → Async ω ε σ α} {I : σ → Prop} (hf : ∀ i, Walks R (f i))
    (hstep : ∀ s t, I s → R s t → I t) (cs : List (Call ω ι)) (hs : I s) : I (play f cs s).2 :=
  walk_keeps (play_walk hf cs) hstep hs

end Async

end Psrp
