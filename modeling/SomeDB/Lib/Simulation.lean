import SomeDB.Lib.Prog

/-!
# Programs that do the same on two kinds of states

`Follows ran view I J m m'`: where `m'`, run from what `view` shows of a state in `I`, returns, `m` returns the same
from that state, `view` shows the state after `m` as the one after `m'`, and the state after `m` is in `J`. If `ran`
holds, this is said only of runs of `m` that are known to return. Nothing is said where `m'` faults, so `m'` may check
what `m` relies on.

`Mirrors view m m' s J`: from `s`, `m` does what `m'` does, fault for fault, and leaves a state in `J`.

There is one rule for each way of building a program. `Follows.runAll` and `Mirrors.runAll` are the ones for runs of
operations; in the second the invariant may use something up with every operation.
-/

namespace Lib

namespace Prog

variable {ε ε' σ τ α β : Type}

/-- `m` does what `m'` does where `m'` returns, and, if `ran` holds, where `m` returns too. -/
def Follows (ran : Prop) (view : σ → τ) (I J : σ → Prop) (m : Prog ε σ α) (m' : Prog ε' τ α) : Prop :=
  ∀ s b t, I s → (ran → ∃ a s', m s = (.ok a, s')) → m' (view s) = (.ok b, t) →
    ∃ s', m s = (.ok b, s') ∧ view s' = t ∧ J s'

namespace Follows

variable {ran : Prop} {view : σ → τ} {I J K : σ → Prop} {m : Prog ε σ α} {m' : Prog ε' τ α}

theorem pure (a : α) : Follows ran view I I (Pure.pure a : Prog ε σ α) (Pure.pure a : Prog ε' τ α) := by
  intro s b t hI _ h
  cases h
  exact ⟨s, rfl, rfl, hI⟩

theorem fault (e : ε) (e' : ε') : Follows ran view I J (Prog.fault e : Prog ε σ α) (Prog.fault e' : Prog ε' τ α) := by
  intro s b t _ _ h
  cases h

theorem lift (x : Except ε α) : Follows ran view I I (Prog.lift x) (Prog.lift x) := by
  intro s b t hI _ h
  obtain ⟨rfl, rfl⟩ := Prod.mk.inj h
  exact ⟨s, rfl, rfl, hI⟩

theorem modify {f : σ → σ} {f' : τ → τ} (hview : ∀ s, view (f s) = f' (view s)) (hf : ∀ s, I s → J (f s)) :
    Follows ran view I J (Prog.modify f : Prog ε σ Unit) (Prog.modify f' : Prog ε' τ Unit) := by
  intro s b t hI _ h
  cases h
  exact ⟨f s, rfl, hview s, hf s hI⟩

/-- What goes on may rely on what the first program can return. -/
theorem bind_of {P : α → Prop} {f : α → Prog ε σ β} {f' : α → Prog ε' τ β} (hm : Follows ran view I J m m')
    (hP : ∀ s a s', m s = (.ok a, s') → P a) (hf : ∀ a, P a → Follows ran view J K (f a) (f' a)) :
    Follows ran view I K (m >>= f) (m' >>= f') := by
  intro s b t hI hran h
  obtain ⟨a, t₁, hm', hf'⟩ := bind_eq_ok h
  have hfirst : ran → ∃ c s₁, m s = (.ok c, s₁) := fun hr => by
    obtain ⟨c, s', hs⟩ := hran hr
    obtain ⟨c', s₁, hms, -⟩ := bind_eq_ok hs
    exact ⟨c', s₁, hms⟩
  obtain ⟨s₁, hms, rfl, hJ⟩ := hm s a t₁ hI hfirst hm'
  have hrest : ran → ∃ c s', f a s₁ = (.ok c, s') := fun hr => by
    obtain ⟨c, s', hs⟩ := hran hr
    exact ⟨c, s', (bind_ok hms).symm.trans hs⟩
  obtain ⟨s₂, hfs, hview, hK⟩ := hf a (hP s a s₁ hms) s₁ b t hJ hrest hf'
  exact ⟨s₂, (bind_ok hms).trans hfs, hview, hK⟩

theorem bind {f : α → Prog ε σ β} {f' : α → Prog ε' τ β} (hm : Follows ran view I J m m')
    (hf : ∀ a, Follows ran view J K (f a) (f' a)) : Follows ran view I K (m >>= f) (m' >>= f') :=
  bind_of (P := fun _ => True) hm (fun _ _ _ _ => trivial) fun a _ => hf a

/-- What goes on depends on the state, and runs in it. -/
theorem get_bind_of {f : σ → Prog ε σ α} {f' : τ → Prog ε' τ α}
    (hf : ∀ s, Follows ran view (fun s' => I s' ∧ s' = s) J (f s) (f' (view s))) :
    Follows ran view I J (Prog.get >>= f) (Prog.get >>= f') :=
  fun s b t hI hran h => hf s s b t ⟨hI, rfl⟩ hran h

theorem get_bind {f : σ → Prog ε σ α} {f' : τ → Prog ε' τ α} (hf : ∀ s, Follows ran view I J (f s) (f' (view s))) :
    Follows ran view I J (Prog.get >>= f) (Prog.get >>= f') :=
  get_bind_of fun s s' b t hI hran h => hf s s' b t hI.1 hran h

theorem ite {c : Prop} [Decidable c] {n : Prog ε σ α} {n' : Prog ε' τ α} (hm : Follows ran view I J m m')
    (hn : Follows ran view I J n n') : Follows ran view I J (if c then m else n) (if c then m' else n') := by
  split
  · exact hm
  · exact hn

/-- Programs on parts of the states. -/
theorem zoom {σ₁ τ₁ : Type} {inner : σ₁ → τ₁} {I₁ J₁ : σ₁ → Prop} {get : σ → σ₁} {put : σ → σ₁ → σ} {get' : τ → τ₁}
    {put' : τ → τ₁ → τ} {p : Prog ε σ₁ α} {p' : Prog ε' τ₁ α} (hp : Follows ran inner I₁ J₁ p p')
    (hget : ∀ s, I s → I₁ (get s) ∧ inner (get s) = get' (view s))
    (hput : ∀ s s₁, I s → J₁ s₁ → J (put s s₁) ∧ view (put s s₁) = put' (view s) (inner s₁)) :
    Follows ran view I J (Prog.zoom get put p) (Prog.zoom get' put' p') := by
  intro s b t hI hran h
  obtain ⟨hI₁, hinner⟩ := hget s hI
  obtain ⟨t₁, hp', rfl⟩ := zoom_eq_ok h
  have hran₁ : ran → ∃ a s₁, p (get s) = (.ok a, s₁) := fun hr => by
    obtain ⟨a, s', hs⟩ := hran hr
    obtain ⟨s₁, hs₁, -⟩ := zoom_eq_ok hs
    exact ⟨a, s₁, hs₁⟩
  obtain ⟨s₁, hs₁, rfl, hJ₁⟩ := hp (get s) b t₁ hI₁ hran₁ (by rw [hinner]; exact hp')
  obtain ⟨hJ, hview⟩ := hput s s₁ hI hJ₁
  exact ⟨put s s₁, zoom_ok hs₁, hview, hJ⟩

/-- Runs of operations. -/
theorem runAll {ι : Type} {step : ι → Prog ε σ β} {step' : ι → Prog ε' τ β}
    (h : ∀ i, Follows ran view I I (step i) (step' i)) (is : List ι) :
    Follows ran view I I (Prog.runAll step is) (Prog.runAll step' is) := by
  induction is with
  | nil => exact pure []
  | cons i is ih => exact bind (h i) fun b => bind ih fun bs => pure (b :: bs)

end Follows

/-! ## Fault for fault -/

/-- From `s`, `m` returns or faults as `m'` does from what `view` shows of `s`, and leaves a state in `J`. -/
def Mirrors (view : σ → τ) (m : Prog ε σ α) (m' : Prog ε τ α) (s : σ) (J : σ → Prop) : Prop :=
  ∃ s', m s = ((m' (view s)).1, s') ∧ view s' = (m' (view s)).2 ∧ J s'

namespace Mirrors

variable {view : σ → τ} {m : Prog ε σ α} {m' : Prog ε τ α} {s : σ} {J K : σ → Prop}

theorem of_eq {x : Except ε α} {s' : σ} (hm : m s = (x, s')) (hm' : m' (view s) = (x, view s')) (hJ : J s') :
    Mirrors view m m' s J :=
  ⟨s', by rw [hm, hm'], by rw [hm'], hJ⟩

theorem pure (a : α) (hJ : J s) : Mirrors view (Pure.pure a : Prog ε σ α) (Pure.pure a) s J := of_eq rfl rfl hJ

theorem fault (e : ε) (hJ : J s) : Mirrors view (Prog.fault e : Prog ε σ α) (Prog.fault e) s J := of_eq rfl rfl hJ

theorem ite {c : Prop} [Decidable c] {n : Prog ε σ α} {n' : Prog ε τ α} (hm : c → Mirrors view m m' s J)
    (hn : ¬ c → Mirrors view n n' s J) : Mirrors view (if c then m else n) (if c then m' else n') s J := by
  split
  · next hc => exact hm hc
  · next hc => exact hn hc

theorem mono (h : Mirrors view m m' s J) (hJK : ∀ s', J s' → K s') : Mirrors view m m' s K := by
  obtain ⟨s', hm, hview, hJ⟩ := h
  exact ⟨s', hm, hview, hJK s' hJ⟩

theorem bind {f : α → Prog ε σ β} {f' : α → Prog ε τ β} (hm : Mirrors view m m' s J) (hJK : ∀ s', J s' → K s')
    (hf : ∀ a s', m' (view s) = (.ok a, view s') → J s' → Mirrors view (f a) (f' a) s' K) :
    Mirrors view (m >>= f) (m' >>= f') s K := by
  obtain ⟨s', hs, hview, hJ⟩ := hm
  rcases h' : m' (view s) with ⟨e | a, t⟩
  · rw [h'] at hs hview
    subst hview
    exact of_eq (bind_error hs) (bind_error h') (hJK s' hJ)
  · rw [h'] at hs hview
    subst hview
    obtain ⟨s'', hfs, hview', hK⟩ := hf a s' h' hJ
    exact ⟨s'', by rw [bind_ok hs, bind_ok h', hfs], by rw [bind_ok h', hview'], hK⟩

/-- One view after the other. -/
theorem trans {υ : Type} {view' : τ → υ} {m'' : Prog ε υ α} {J' : τ → Prop} (h : Mirrors view m m' s J)
    (h' : Mirrors view' m' m'' (view s) J') :
    Mirrors (fun s => view' (view s)) m m'' s fun s' => J s' ∧ J' (view s') := by
  obtain ⟨s', hm, hview, hJ⟩ := h
  obtain ⟨t, hm', hview', hJ'⟩ := h'
  rw [hm'] at hm hview
  subst hview
  exact ⟨s', hm, hview', hJ, hJ'⟩

/-- Runs of operations. `I n` is what `n` operations need. -/
theorem runAll {ι : Type} {step : ι → Prog ε σ β} {step' : ι → Prog ε τ β} {C : τ → ι → Prop} {I : Nat → σ → Prop}
    (hmono : ∀ k n s, k ≤ n → I n s → I k s)
    (hstep : ∀ i n s, I (n + 1) s → C (view s) i → Mirrors view (step i) (step' i) s (I n)) {is : List ι}
    (hI : I is.length s) (hC : Meets step' C is (view s)) :
    Mirrors view (Prog.runAll step is) (Prog.runAll step' is) s (I 0) := by
  induction is generalizing s with
  | nil => exact pure [] hI
  | cons i is ih =>
    refine bind (hstep i is.length s hI hC.1) (fun s' => hmono 0 _ s' (Nat.zero_le _)) fun b s' hb hs' => ?_
    exact bind (ih hs' (hC.tail hb)) (fun _ h => h) fun bs _ _ h => pure (b :: bs) h

end Mirrors

end Prog

end Lib
