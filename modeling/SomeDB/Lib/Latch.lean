import Mathlib.Logic.Function.Basic
import SomeDB.Lib.Prog

/-!
# Programs that take latches

`LatchM ε L σ α`: a program over states `σ` beside which each latch of `L` is held or free. The thread that begins it
holds none: `lock` of a latch that another one holds waits for ever, and `unlock` of one that is free is as undefined
as a fault.

* `run` is a program that takes no latch, `on` runs a program with latches on one component of the state.
* `Follows W m m' h h' s`: from the state `s` with the latches `h`, `m` waits for a latch in `W` or does what `m'`
  does, which knows of no latches, and where `m'` returns `a` the latches are `h' a`. One rule for each way of
  building a program; `Follows.runAll` is the one for runs.
* What follows a program returns the latches of the rule (`Follows.held`), and waits for none if `W` is empty
  (`Follows.not_blocks`).
-/

namespace Lib

/-- Why a program with latches does not return. -/
inductive Stuck (ε L : Type) where
  /-- A fault of the program itself. -/
  | fault (e : ε)
  /-- It waits for a latch that is held. -/
  | blocks (l : L)
  /-- It releases a latch that is free. -/
  | notHeld (l : L)
  deriving DecidableEq

/-- A state and the latches that are held. -/
structure LatchState (L σ : Type) where
  state : σ
  held : L → Bool

abbrev LatchM (ε L σ α : Type) := Prog (Stuck ε L) (LatchState L σ) α

namespace LatchM

variable {ε L σ τ α β : Type}

/-- A program that takes no latch. -/
def run (p : Prog ε σ α) : LatchM ε L σ α := fun x =>
  match p x.state with
  | (.ok a, t) => (.ok a, ⟨t, x.held⟩)
  | (.error e, t) => (.error (.fault e), ⟨t, x.held⟩)

/-- Run `m` on the component `view s` of the state, and store that component back. -/
def on (view : σ → τ) (put : σ → τ → σ) (m : LatchM ε L τ α) : LatchM ε L σ α :=
  Prog.zoom (fun x => ⟨view x.state, x.held⟩) (fun x y => ⟨put x.state y.state, y.held⟩) m

theorem on_eq {view : σ → τ} {put : σ → τ → σ} {m : LatchM ε L τ α} {s : σ} {h : L → Bool}
    {r : Except (Stuck ε L) α} {t : τ} {h' : L → Bool} (hm : m ⟨view s, h⟩ = (r, ⟨t, h'⟩)) :
    on view put m ⟨s, h⟩ = (r, ⟨put s t, h'⟩) := by
  simp only [on, Prog.zoom, hm]

section Latches

variable [DecidableEq L]

/-- `pthread_rwlock_wrlock`. -/
def lock (l : L) : LatchM ε L σ Unit := fun x =>
  if x.held l then (.error (.blocks l), x) else (.ok (), { x with held := Function.update x.held l true })

/-- `pthread_rwlock_unlock`. -/
def unlock (l : L) : LatchM ε L σ Unit := fun x =>
  if x.held l then (.ok (), { x with held := Function.update x.held l false }) else (.error (.notHeld l), x)

/-- A latch that was free is free again once it was taken and released. -/
theorem update_update_false {h : L → Bool} {l : L} (hl : h l = false) :
    Function.update (Function.update h l true) l false = h := by
  rw [Function.update_idem, ← hl, Function.update_eq_self]

/-- Whoever waits for another latch than `l` still waits for it when `l` is taken. -/
theorem waits_update {W : L → Prop} {h : L → Bool} {l k : L} (hne : k ≠ l) (hW : h k = true → W k) :
    Function.update h l true k = true → W k := by
  rwa [Function.update_of_ne hne]

end Latches

end LatchM

open LatchM

variable {ε L σ τ α β : Type}

/-- From the state `s` with the latches `h`, `m` waits for a latch in `W` or does what `m'` does, and has the
latches `h' a` when that returns `a`. -/
inductive Follows (W : L → Prop) (m : LatchM ε L σ α) (m' : Prog ε σ α) (h : L → Bool) (h' : α → L → Bool)
    (s : σ) : Prop where
  | waits {l : L} {x : LatchState L σ} (hl : W l) (hm : m ⟨s, h⟩ = (.error (.blocks l), x))
  | returns {a : α} {t : σ} (hm' : m' s = (.ok a, t)) (hm : m ⟨s, h⟩ = (.ok a, ⟨t, h' a⟩))
  | faults {e : ε} {t : σ} {h'' : L → Bool} (hm' : m' s = (.error e, t))
      (hm : m ⟨s, h⟩ = (.error (.fault e), ⟨t, h''⟩))

namespace Follows

variable {W : L → Prop} {m : LatchM ε L σ α} {m' : Prog ε σ α} {h : L → Bool} {h' : α → L → Bool} {s : σ}

/-! ## What is known of a program that follows another -/

/-- The latches after a run that returned. -/
theorem held (hf : Follows W m m' h h' s) {a : α} {x : LatchState L σ} (hm : m ⟨s, h⟩ = (.ok a, x)) :
    x.held = h' a := by
  cases hf with
  | waits _ hb => rw [hm] at hb; cases hb
  | returns _ ho => rw [hm] at ho; cases ho; rfl
  | faults _ he => rw [hm] at he; cases he

/-- A program that waits, waits for a latch in `W`. -/
theorem not_blocks (hf : Follows W m m' h h' s) {l : L} (hl : ¬ W l) (x : LatchState L σ) :
    m ⟨s, h⟩ ≠ (.error (.blocks l), x) := by
  intro hm
  cases hf with
  | waits hw hb => rw [hm] at hb; cases hb; exact hl hw
  | returns _ ho => rw [hm] at ho; cases ho
  | faults _ he => rw [hm] at he; cases he

/-- If nothing is held that it waits for, a program returns what the one without latches returns. -/
theorem ok_of_free (hf : Follows W m m' h h' s) (hW : ∀ l, ¬ W l) {a : α} {t : σ} (hm' : m' s = (.ok a, t)) :
    m ⟨s, h⟩ = (.ok a, ⟨t, h' a⟩) := by
  cases hf with
  | waits hw _ => exact absurd hw (hW _)
  | returns ho hm => rw [hm'] at ho; cases ho; exact hm
  | faults he _ => rw [hm'] at he; cases he

/-! ## One rule for each way of building a program -/

theorem run (p : Prog ε σ α) : Follows W (LatchM.run p) p h (fun _ => h) s := by
  rcases hp : p s with ⟨e | a, t⟩
  · exact .faults hp (by unfold LatchM.run; rw [hp])
  · exact .returns hp (by unfold LatchM.run; rw [hp])

theorem pure {a : α} (ha : h' a = h) : Follows W (Pure.pure a : LatchM ε L σ α) (Pure.pure a) h h' s :=
  .returns rfl (by rw [ha]; rfl)

theorem fault (e : ε) : Follows W (Prog.fault (.fault e) : LatchM ε L σ α) (Prog.fault e) h h' s := .faults rfl rfl

theorem bind {f : α → LatchM ε L σ β} {f' : α → Prog ε σ β} {h₁ : α → L → Bool} {h' : β → L → Bool}
    (hm : Follows W m m' h h₁ s)
    (hf : ∀ a t, m ⟨s, h⟩ = (.ok a, ⟨t, h₁ a⟩) → Follows W (f a) (f' a) (h₁ a) h' t) :
    Follows W (m >>= f) (m' >>= f') h h' s := by
  cases hm with
  | waits hl hb => exact .waits hl (Prog.bind_error hb)
  | faults he hb => exact .faults (Prog.bind_error he) (Prog.bind_error hb)
  | returns ho hb =>
    cases hf _ _ hb with
    | waits hl hc => exact .waits hl (by rw [Prog.bind_ok hb, hc])
    | faults he hc => exact .faults (by rw [Prog.bind_ok ho, he]) (by rw [Prog.bind_ok hb, hc])
    | returns ho' hc => exact .returns (by rw [Prog.bind_ok ho, ho']) (by rw [Prog.bind_ok hb, hc])

/-- What is left of the program without latches returns at once. -/
theorem bind_last {f : α → LatchM ε L σ α} {h₁ : α → L → Bool} (hm : Follows W m m' h h₁ s)
    (hf : ∀ a t, Follows W (f a) (Pure.pure a) (h₁ a) h' t) : Follows W (m >>= f) m' h h' s := by
  have hbind : Follows W (m >>= f) (m' >>= Pure.pure) h h' s := hm.bind fun a t _ => hf a t
  have hpure : (m' >>= Pure.pure) s = m' s := by
    rcases hm' : m' s with ⟨e | a, t⟩
    · exact Prog.bind_error hm'
    · exact Prog.bind_ok hm'
  cases hbind with
  | waits hl hb => exact .waits hl hb
  | returns ho hb => exact .returns (hpure ▸ ho) hb
  | faults he hb => exact .faults (hpure ▸ he) hb

theorem get_bind {f : σ → LatchM ε L σ α} {f' : σ → Prog ε σ α} (hf : Follows W (f s) (f' s) h h' s) :
    Follows W (LatchM.run Prog.get >>= f) (Prog.get >>= f') h h' s :=
  have hget : Follows W (LatchM.run Prog.get) (Prog.get : Prog ε σ σ) h (fun _ => h) s := run Prog.get
  hget.bind fun a t heq => by cases heq; exact hf

theorem lift_bind {x : Except ε α} {f : α → LatchM ε L σ β} {g : α → Except ε β} {h' : β → L → Bool}
    (hf : ∀ a, Follows W (f a) (Prog.lift (g a)) h h' s) :
    Follows W (LatchM.run (Prog.lift x) >>= f) (Prog.lift (x >>= g)) h h' s := by
  cases x with
  | error e => exact .faults rfl rfl
  | ok a => exact hf a

theorem on {view : τ → σ} {put : τ → σ → τ} {u : τ} (hm : Follows W m m' h h' (view u)) :
    Follows W (LatchM.on view put m) (Prog.zoom view put m') h h' u := by
  cases hm with
  | waits hl hb => exact .waits hl (LatchM.on_eq hb)
  | returns ho hb => exact .returns (Prog.zoom_ok ho) (LatchM.on_eq hb)
  | faults he hb => exact .faults (by simp only [Prog.zoom, he]) (LatchM.on_eq hb)

section Latches

variable [DecidableEq L]

theorem lock_bind {l : L} {f : Unit → LatchM ε L σ α} (hW : h l = true → W l)
    (hf : h l = false → Follows W (f ()) m' (Function.update h l true) h' s) :
    Follows W (lock l >>= f) m' h h' s := by
  cases hl : h l with
  | true =>
    have hlock : (lock l : LatchM ε L σ Unit) ⟨s, h⟩ = (.error (.blocks l), ⟨s, h⟩) := by
      simp only [lock, hl, if_true]
    exact .waits (hW hl) (Prog.bind_error hlock)
  | false =>
    have hlock : (lock l : LatchM ε L σ Unit) ⟨s, h⟩ = (.ok (), ⟨s, Function.update h l true⟩) := by
      simp only [lock, hl, Bool.false_eq_true, if_false]
    cases hf hl with
    | waits hw hb => exact .waits hw (by rw [Prog.bind_ok hlock, hb])
    | returns ho hb => exact .returns ho (by rw [Prog.bind_ok hlock, hb])
    | faults he hb => exact .faults he (by rw [Prog.bind_ok hlock, hb])

/-- A latch that was free before it was taken is released. -/
theorem unlock_bind {l : L} {f : Unit → LatchM ε L σ α} (hl : h l = false) (hf : Follows W (f ()) m' h h' s) :
    Follows W (LatchM.unlock l >>= f) m' (Function.update h l true) h' s := by
  have hunlock : (LatchM.unlock l : LatchM ε L σ Unit) ⟨s, Function.update h l true⟩ = (.ok (), ⟨s, h⟩) := by
    simp only [LatchM.unlock, Function.update_self, if_true, update_update_false hl]
  cases hf with
  | waits hw hb => exact .waits hw (by rw [Prog.bind_ok hunlock, hb])
  | returns ho hb => exact .returns ho (by rw [Prog.bind_ok hunlock, hb])
  | faults he hb => exact .faults he (by rw [Prog.bind_ok hunlock, hb])

/-- The release at the end of a program. -/
theorem unlock {l : L} (hl : h l = false) :
    Follows W (LatchM.unlock l) (Pure.pure () : Prog ε σ Unit) (Function.update h l true) (fun _ => h) s := by
  refine .returns rfl ?_
  simp only [LatchM.unlock, Function.update_self, if_true, update_update_false hl]

end Latches

/-! ## Runs -/

/-- If each operation that meets `C` leaves the latches as they were, a run of such operations follows the run
without latches. -/
theorem runAll {ι : Type} {step : ι → LatchM ε L σ β} {step' : ι → Prog ε σ β} {C : σ → ι → Prop}
    (hstep : ∀ s i, C s i → Follows W (step i) (step' i) h (fun _ => h) s) {is : List ι}
    (hC : Prog.Meets step (fun x i => C x.state i) is ⟨s, h⟩) :
    Follows W (Prog.runAll step is) (Prog.runAll step' is) h (fun _ => h) s := by
  induction is generalizing s with
  | nil => exact pure rfl
  | cons i is ih =>
    refine bind (hstep s i hC.1) fun b t hb => bind (ih (hC.tail hb)) fun bs u _ => ?_
    exact pure rfl

end Follows

end Lib
