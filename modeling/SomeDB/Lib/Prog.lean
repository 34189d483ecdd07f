import Mathlib.Data.List.Basic

/-!
# Programs with a state and faults

`Prog ε σ α`: a program over states `σ` that returns an `α` or ends in a fault `ε`, and leaves a
state in both cases. The state survives the fault: what a C or C++ program did before an exception,
a failed assertion or an undefined access has happened.

* `bind_ok`, `bind_error` run a composition forwards; `bind_eq_ok` takes a run that returned apart.
* `Prog.zoom` runs a program on one component of the state.
* `runAll step is` is the run of the operations `is`, one after the other. `Meets step C is s`: each
  operation of that run meets `C` in the state before it. `runAll_inv` is the invariant rule for
  total correctness, `runAll_inv_of_ok` the one for runs that are known to return, and `runAll_inv_iff` the one for a
  condition that is exact for each step.
* `Grows r p`: whatever `p` does, the state after it is related by `r` to the one before it.
* `Views view m m'`: `m` does what `m'` does, on a state that has more than `view` shows of it.
* `Ensures p s Q E`: run from `s`, the program `p` returns as `Q` says, or faults in a state with `E`. One rule for
  each way of building a program; `runAll_ensures` is the one for runs.
-/

namespace Lib

/-- A composition of computations without a state that returned. -/
theorem except_bind_eq_ok {ε α β : Type} {x : Except ε α} {f : α → Except ε β} {b : β} (h : x >>= f = .ok b) :
    ∃ a, x = .ok a ∧ f a = .ok b := by
  cases x with
  | error e => cases h
  | ok a => exact ⟨a, rfl, h⟩

/-- A program over states `σ` with faults `ε`. -/
def Prog (ε σ α : Type) : Type := σ → Except ε α × σ

namespace Prog

variable {ε σ τ α β : Type}

instance : Monad (Prog ε σ) where
  pure a := fun s => (.ok a, s)
  bind m f := fun s =>
    match m s with
    | (.ok a, s') => f a s'
    | (.error e, s') => (.error e, s')

/-- End in the fault `e`. -/
def fault (e : ε) : Prog ε σ α := fun s => (.error e, s)

/-- The current state. -/
def get : Prog ε σ σ := fun s => (.ok s, s)

/-- Change the state. -/
def modify (f : σ → σ) : Prog ε σ Unit := fun s => (.ok (), f s)

/-- A computation that reads no state. -/
def lift (x : Except ε α) : Prog ε σ α := fun s => (x, s)

/-- Run `p` on the component `view s` of the state, and store that component back. -/
def zoom (view : σ → τ) (put : σ → τ → σ) (p : Prog ε τ α) : Prog ε σ α := fun s =>
  ((p (view s)).1, put s (p (view s)).2)

@[simp] theorem pure_apply (a : α) (s : σ) : (pure a : Prog ε σ α) s = (.ok a, s) := rfl

@[simp] theorem fault_apply (e : ε) (s : σ) : (fault e : Prog ε σ α) s = (.error e, s) := rfl

@[simp] theorem get_apply (s : σ) : (get : Prog ε σ σ) s = (.ok s, s) := rfl

@[simp] theorem modify_apply (f : σ → σ) (s : σ) :
    (modify f : Prog ε σ Unit) s = (.ok (), f s) := rfl

@[simp] theorem lift_apply (x : Except ε α) (s : σ) : (lift x : Prog ε σ α) s = (x, s) := rfl

theorem bind_ok {m : Prog ε σ α} {f : α → Prog ε σ β} {s s' : σ} {a : α} (h : m s = (.ok a, s')) :
    (m >>= f) s = f a s' := by
  simp only [Bind.bind, h]

theorem bind_error {m : Prog ε σ α} {f : α → Prog ε σ β} {s s' : σ} {e : ε}
    (h : m s = (.error e, s')) : (m >>= f) s = (.error e, s') := by
  simp only [Bind.bind, h]

/-- A composition that returned: its first part returned, and its second part after it. -/
theorem bind_eq_ok {m : Prog ε σ α} {f : α → Prog ε σ β} {s s'' : σ} {b : β}
    (h : (m >>= f) s = (.ok b, s'')) : ∃ a s', m s = (.ok a, s') ∧ f a s' = (.ok b, s'') := by
  rcases hm : m s with ⟨_ | a, s'⟩
  · rw [bind_error hm] at h; cases h
  · rw [bind_ok hm] at h; exact ⟨a, s', rfl, h⟩

/-- A composition depends on what its first part does in the state it runs in. -/
theorem bind_congr_left {m m' : Prog ε σ α} {s : σ} (h : m s = m' s) (f : α → Prog ε σ β) :
    (m >>= f) s = (m' >>= f) s := by
  simp only [Bind.bind, h]

theorem bind_assoc_apply {γ : Type} (m : Prog ε σ α) (f : α → Prog ε σ β) (g : β → Prog ε σ γ) (s : σ) :
    ((m >>= f) >>= g) s = (m >>= fun a => f a >>= g) s := by
  rcases hm : m s with ⟨e | a, s'⟩
  · rw [bind_error hm, bind_error (bind_error hm)]
  · simp only [Bind.bind, hm]

@[simp] theorem get_bind (f : σ → Prog ε σ β) (s : σ) : (get >>= f) s = f s s := rfl

@[simp] theorem modify_bind (g : σ → σ) (f : Unit → Prog ε σ β) (s : σ) :
    (modify g >>= f) s = f () (g s) := rfl

@[simp] theorem pure_bind_apply (a : α) (f : α → Prog ε σ β) (s : σ) :
    ((pure a : Prog ε σ α) >>= f) s = f a s := rfl

@[simp] theorem fault_bind (e : ε) (f : α → Prog ε σ β) (s : σ) :
    ((fault e : Prog ε σ α) >>= f) s = (.error e, s) := rfl

@[simp] theorem lift_ok_bind (a : α) (f : α → Prog ε σ β) (s : σ) :
    ((lift (.ok a) : Prog ε σ α) >>= f) s = f a s := rfl

theorem lift_bind_eq_ok {x : Except ε α} {f : α → Prog ε σ β} {s s' : σ} {b : β}
    (h : ((lift x : Prog ε σ α) >>= f) s = (.ok b, s')) : ∃ a, x = .ok a ∧ f a s = (.ok b, s') := by
  cases x with
  | error e => cases h
  | ok a => exact ⟨a, rfl, h⟩

theorem zoom_ok {view : σ → τ} {put : σ → τ → σ} {p : Prog ε τ α} {s : σ} {t : τ} {a : α}
    (h : p (view s) = (.ok a, t)) : zoom view put p s = (.ok a, put s t) := by
  simp only [zoom, h]

theorem zoom_eq_ok {view : σ → τ} {put : σ → τ → σ} {p : Prog ε τ α} {s s' : σ} {a : α}
    (h : zoom view put p s = (.ok a, s')) : ∃ t, p (view s) = (.ok a, t) ∧ s' = put s t := by
  rcases hp : p (view s) with ⟨_ | b, t⟩
  · simp only [zoom, hp] at h; cases h
  · rw [zoom_ok hp] at h; cases h; exact ⟨t, rfl, rfl⟩

theorem eq_ok_of_isOk {m : Prog ε σ α} {s : σ} (h : (m s).1.isOk = true) :
    ∃ a, m s = (.ok a, (m s).2) := by
  rcases hm : m s with ⟨e | a, s'⟩
  · rw [hm] at h; cases h
  · exact ⟨a, rfl⟩

/-- The program ends in a fault. -/
def Fails (m : Prog ε σ α) (s : σ) : Prop := ∃ e s', m s = (.error e, s')

theorem Fails.bind {m : Prog ε σ α} {s : σ} (h : Fails m s) (f : α → Prog ε σ β) :
    Fails (m >>= f) s := by
  obtain ⟨e, s', h⟩ := h
  exact ⟨e, s', bind_error h⟩

theorem fails_of_ne_ok {m : Prog ε σ α} {s : σ} (h : ∀ a s', m s ≠ (.ok a, s')) : Fails m s := by
  rcases hm : m s with ⟨e | a, s'⟩
  · exact ⟨e, s', hm⟩
  · exact absurd hm (h a s')

theorem Fails.ne_ok {m : Prog ε σ α} {s s' : σ} {a : α} (h : Fails m s) : m s ≠ (.ok a, s') := by
  obtain ⟨e, s'', h⟩ := h
  rw [h]
  simp

/-! ## Runs -/

section Runs

variable {ι : Type} (step : ι → Prog ε σ β)

/-- The operations `is` one after the other, with what each returned. -/
def runAll : List ι → Prog ε σ (List β)
  | [] => pure []
  | i :: is => do
    let b ← step i
    let bs ← runAll is
    pure (b :: bs)

/-- Each operation of the run of `is` from `s` meets `C` in the state before it. -/
def Meets (C : σ → ι → Prop) : List ι → σ → Prop
  | [], _ => True
  | i :: is, s => C s i ∧
    match step i s with
    | (.ok _, s') => Meets C is s'
    | (.error _, _) => True

/-- The conditions on the steps can be checked by running them. -/
instance decidableMeets (C : σ → ι → Prop) [∀ s i, Decidable (C s i)] :
    ∀ (is : List ι) (s : σ), Decidable (Meets step C is s)
  | [], _ => isTrue trivial
  | i :: is, s =>
    have : Decidable (match step i s with
        | (.ok _, s') => Meets step C is s'
        | (.error _, _) => True) :=
      match step i s with
      | (.ok _, s') => decidableMeets C is s'
      | (.error _, _) => isTrue trivial
    inferInstanceAs (Decidable (_ ∧ _))

variable {step} {C : σ → ι → Prop}

theorem Meets.tail {i : ι} {is : List ι} {s s' : σ} {b : β} (h : Meets step C (i :: is) s)
    (hstep : step i s = (.ok b, s')) : Meets step C is s' := by
  have := h.2
  rwa [hstep] at this

/-- A condition that does not look at the state. -/
theorem meets_of_forall {D : ι → Prop} {is : List ι} (h : ∀ i ∈ is, D i) (s : σ) :
    Meets step (fun _ i => D i) is s := by
  induction is generalizing s with
  | nil => trivial
  | cons i is ih =>
    refine ⟨h i (List.mem_cons_self ..), ?_⟩
    split
    · exact ih (fun j hj => h j (List.mem_cons_of_mem _ hj)) _
    · trivial

theorem Meets.and {D : σ → ι → Prop} {is : List ι} {s : σ} (hC : Meets step C is s) (hD : Meets step D is s) :
    Meets step (fun s i => C s i ∧ D s i) is s := by
  induction is generalizing s with
  | nil => trivial
  | cons i is ih =>
    refine ⟨⟨hC.1, hD.1⟩, ?_⟩
    split
    · next hstep => exact ih (hC.tail hstep) (hD.tail hstep)
    · trivial

theorem runAll_cons_ok {i : ι} {is : List ι} {s s₁ s₂ : σ} {b : β} {bs : List β}
    (h₁ : step i s = (.ok b, s₁)) (h₂ : runAll step is s₁ = (.ok bs, s₂)) :
    runAll step (i :: is) s = (.ok (b :: bs), s₂) := by
  rw [runAll, bind_ok h₁, bind_ok h₂]; rfl

theorem runAll_cons_eq_ok {i : ι} {is : List ι} {s s' : σ} {bs : List β}
    (h : runAll step (i :: is) s = (.ok bs, s')) :
    ∃ b bs' s₁, step i s = (.ok b, s₁) ∧ runAll step is s₁ = (.ok bs', s') ∧ bs = b :: bs' := by
  rw [runAll] at h
  obtain ⟨b, s₁, h₁, h⟩ := bind_eq_ok h
  obtain ⟨bs', s₂, h₂, h⟩ := bind_eq_ok h
  cases h
  exact ⟨b, bs', s₁, h₁, h₂, rfl⟩

theorem runAll_concat_ok {i : ι} {is : List ι} {s s₁ s₂ : σ} {b : β} {bs : List β}
    (h₁ : runAll step is s = (.ok bs, s₁)) (h₂ : step i s₁ = (.ok b, s₂)) :
    runAll step (is ++ [i]) s = (.ok (bs ++ [b]), s₂) := by
  induction is generalizing s bs with
  | nil =>
    cases h₁
    exact runAll_cons_ok h₂ rfl
  | cons j is ih =>
    obtain ⟨c, bs', s', hj, hrest, rfl⟩ := runAll_cons_eq_ok h₁
    exact runAll_cons_ok hj (ih hrest)

/-- The invariant rule. `Inv` sees the operations so far, which are the beginning of `ops`, and what
they returned. If an operation that meets `C` returns and keeps `Inv`, so does every run whose
operations meet `C`. -/
theorem runAll_inv (Inv : List ι → List β → σ → Prop) {ops : List ι} {s : σ}
    (hstep : ∀ is bs s i, is ++ [i] <+: ops → Inv is bs s → C s i →
      ∃ b s', step i s = (.ok b, s') ∧ Inv (is ++ [i]) (bs ++ [b]) s')
    (h0 : Inv [] [] s) (hC : Meets step C ops s) :
    ∃ bs s', runAll step ops s = (.ok bs, s') ∧ Inv ops bs s' := by
  suffices h : ∀ (is is₀ : List ι) (bs₀ : List β) (s : σ), is₀ ++ is = ops → Inv is₀ bs₀ s →
      Meets step C is s → ∃ bs s', runAll step is s = (.ok bs, s') ∧ Inv ops (bs₀ ++ bs) s' from
    h ops [] [] s rfl h0 hC
  intro is
  induction is with
  | nil =>
    intro is₀ bs₀ s heq hinv _
    rw [List.append_nil] at heq
    exact ⟨[], s, rfl, by rwa [List.append_nil, ← heq]⟩
  | cons i is ih =>
    intro is₀ bs₀ s heq hinv hC
    have heq' : is₀ ++ [i] ++ is = ops := by rw [List.append_assoc]; exact heq
    obtain ⟨b, s₁, h₁, hinv₁⟩ := hstep is₀ bs₀ s i ⟨is, heq'⟩ hinv hC.1
    obtain ⟨bs, s₂, h₂, hinv₂⟩ := ih _ _ s₁ heq' hinv₁ (hC.tail h₁)
    exact ⟨b :: bs, s₂, runAll_cons_ok h₁ h₂, by simpa using hinv₂⟩

/-- The invariant rule for a run that returned. -/
theorem runAll_inv_of_ok (Inv : List ι → σ → Prop) {ops : List ι} {s s' : σ} {bs : List β}
    (hstep : ∀ is s i b s', Inv is s → C s i → step i s = (.ok b, s') → Inv (is ++ [i]) s')
    (h0 : Inv [] s) (hC : Meets step C ops s) (hrun : runAll step ops s = (.ok bs, s')) :
    Inv ops s' := by
  suffices h : ∀ (is is₀ : List ι) (s : σ) (bs : List β), Inv is₀ s → Meets step C is s →
      runAll step is s = (.ok bs, s') → Inv (is₀ ++ is) s' from h ops [] s bs h0 hC hrun
  intro is
  induction is with
  | nil => intro is₀ s bs hinv _ h; cases h; simpa using hinv
  | cons i is ih =>
    intro is₀ s bs hinv hC h
    obtain ⟨b, bs', s₁, h₁, h₂, -⟩ := runAll_cons_eq_ok h
    have := ih _ s₁ bs' (hstep is₀ s i b s₁ hinv hC.1 h₁) (hC.tail h₁) h₂
    simpa using this

/-- If a step keeps `Inv` just when it meets `C`, a run that returned has kept it throughout just when all its
operations have met `C`. -/
theorem runAll_inv_iff {Inv : σ → Prop} {ops : List ι} {s s' : σ} {bs : List β}
    (hstep : ∀ s i b s', Inv s → step i s = (.ok b, s') → (Inv s' ↔ C s i)) (h0 : Inv s)
    (hrun : runAll step ops s = (.ok bs, s')) :
    (∀ done os t, done <+: ops → runAll step done s = (.ok os, t) → Inv t) ↔ Meets step C ops s := by
  induction ops generalizing s bs with
  | nil =>
    refine ⟨fun _ => trivial, fun _ done os t hdone hrun' => ?_⟩
    rw [List.prefix_nil.mp hdone] at hrun'
    cases hrun'
    exact h0
  | cons i is ih =>
    obtain ⟨b, bs', s₁, hi, his, -⟩ := runAll_cons_eq_ok hrun
    constructor
    · intro h
      have h₁ : Inv s₁ := h [i] [b] s₁ ⟨is, rfl⟩ (runAll_cons_ok hi rfl)
      refine ⟨(hstep s i b s₁ h0 hi).mp h₁, ?_⟩
      rw [hi]
      refine (ih h₁ his).mp fun done os t hdone hrun' => ?_
      exact h (i :: done) (b :: os) t (List.prefix_cons_inj i |>.mpr hdone) (runAll_cons_ok hi hrun')
    · intro h done os t hdone hrun'
      have h₁ : Inv s₁ := (hstep s i b s₁ h0 hi).mpr h.1
      cases done with
      | nil => cases hrun'; exact h0
      | cons j done =>
        obtain ⟨rfl, hrest⟩ := List.cons_prefix_cons.mp hdone
        obtain ⟨b', os', s₂, hj, hjs, -⟩ := runAll_cons_eq_ok hrun'
        rw [hi] at hj
        cases hj
        exact (ih h₁ his).mpr (h.tail hi) done os' t hrest hjs

end Runs

/-! ## What a program can do to the state -/

/-- Whatever `p` does, the state after it is related by `r` to the one before it. -/
def Grows (r : σ → σ → Prop) (p : Prog ε σ α) : Prop := ∀ s, r s (p s).2

section Grows

variable {r : σ → σ → Prop}

theorem Grows.pure (hr : ∀ s, r s s) (a : α) : Grows r (Pure.pure a : Prog ε σ α) := fun s => hr s

theorem Grows.fault (hr : ∀ s, r s s) (e : ε) : Grows r (fault e : Prog ε σ α) := fun s => hr s

theorem Grows.lift (hr : ∀ s, r s s) (x : Except ε α) : Grows r (lift x : Prog ε σ α) :=
  fun s => hr s

theorem Grows.get (hr : ∀ s, r s s) : Grows r (get : Prog ε σ σ) := fun s => hr s

theorem Grows.modify {f : σ → σ} (h : ∀ s, r s (f s)) : Grows r (modify f : Prog ε σ Unit) := h

theorem Grows.bind (htr : ∀ a b c, r a b → r b c → r a c) {m : Prog ε σ α} {f : α → Prog ε σ β}
    (hm : Grows r m) (hf : ∀ a, Grows r (f a)) : Grows r (m >>= f) := by
  intro s
  have h₁ := hm s
  rcases h : m s with ⟨_ | a, s'⟩
  · rw [bind_error h]; rwa [h] at h₁
  · rw [bind_ok h]; rw [h] at h₁; exact htr _ _ _ h₁ (hf a s')

end Grows

/-! ## States with more in them -/

/-- What `view` shows of a run of `m` is the run of `m'`. -/
def Views (view : σ → τ) (m : Prog ε σ α) (m' : Prog ε τ α) : Prop :=
  ∀ s, m' (view s) = ((m s).1, view (m s).2)

namespace Views

variable {view : σ → τ} {m : Prog ε σ α} {m' : Prog ε τ α}

theorem pure (a : α) : Views view (Pure.pure a : Prog ε σ α) (Pure.pure a) := fun _ => rfl

theorem fault (e : ε) : Views view (Prog.fault e : Prog ε σ α) (Prog.fault e) := fun _ => rfl

theorem bind {f : α → Prog ε σ β} {f' : α → Prog ε τ β} (hm : Views view m m')
    (hf : ∀ a, Views view (f a) (f' a)) : Views view (m >>= f) (m' >>= f') := by
  intro s
  have hs := hm s
  rcases h : m s with ⟨e | a, s'⟩
  · rw [h] at hs
    rw [bind_error h, bind_error hs]
  · rw [h] at hs
    rw [bind_ok h, bind_ok hs]
    exact hf a s'

theorem get_bind {f : σ → Prog ε σ α} {f' : τ → Prog ε τ α} (hf : ∀ s, Views view (f s) (f' (view s))) :
    Views view (Prog.get >>= f) (Prog.get >>= f') := fun s => hf s s

/-- A run that returned, seen without the rest of the state. -/
theorem eq_ok (h : Views view m m') {s : σ} {a : α} {t : τ} (ht : m' (view s) = (.ok a, t)) :
    ∃ s', m s = (.ok a, s') ∧ view s' = t := by
  rw [h s] at ht
  obtain ⟨ha, rfl⟩ := Prod.mk.inj ht
  exact ⟨(m s).2, Prod.ext ha rfl, rfl⟩

end Views

/-! ## What a program ensures -/

/-- Run from `s`, the program returns a result and a state as in `Q`, or faults in a state as in `E`. -/
def Ensures (p : Prog ε σ α) (s : σ) (Q : α → σ → Prop) (E : σ → Prop) : Prop :=
  (∀ a s', p s = (.ok a, s') → Q a s') ∧ ∀ e s', p s = (.error e, s') → E s'

namespace Ensures

variable {p : Prog ε σ α} {s : σ} {Q R : α → σ → Prop} {E F : σ → Prop}

theorem of_ok {a : α} {s' : σ} (h : p s = (.ok a, s')) (hQ : Q a s') : Ensures p s Q E := by
  refine ⟨fun b t hb => ?_, fun e t he => ?_⟩
  · rw [h] at hb
    cases hb
    exact hQ
  · rw [h] at he
    cases he

theorem of_error {e : ε} {s' : σ} (h : p s = (.error e, s')) (hE : E s') : Ensures p s Q E := by
  refine ⟨fun b t hb => ?_, fun e t he => ?_⟩
  · rw [h] at hb
    cases hb
  · rw [h] at he
    cases he
    exact hE

theorem pure {a : α} (h : Q a s) : Ensures (Pure.pure a : Prog ε σ α) s Q E := of_ok rfl h

theorem fault {e : ε} (h : E s) : Ensures (Prog.fault e : Prog ε σ α) s Q E := of_error rfl h

theorem lift {x : Except ε α} (hE : E s) (h : ∀ a, x = .ok a → Q a s) :
    Ensures (Prog.lift x : Prog ε σ α) s Q E := by
  cases x with
  | ok a => exact of_ok rfl (h a rfl)
  | error e => exact of_error rfl hE

theorem modify {f : σ → σ} {Q : Unit → σ → Prop} (h : Q () (f s)) :
    Ensures (Prog.modify f : Prog ε σ Unit) s Q E := of_ok rfl h

theorem mono (h : Ensures p s Q E) (hQ : ∀ a s', Q a s' → R a s') (hE : ∀ s', E s' → F s') :
    Ensures p s R F :=
  ⟨fun a s' hp => hQ a s' (h.1 a s' hp), fun e s' hp => hE s' (h.2 e s' hp)⟩

/-- What is ensured may mention the run itself. -/
theorem ran (h : Ensures p s Q E) : Ensures p s (fun a s' => Q a s' ∧ p s = (.ok a, s')) E :=
  ⟨fun a s' hp => ⟨h.1 a s' hp, hp⟩, h.2⟩

theorem bind {m : Prog ε σ α} {f : α → Prog ε σ β} {Q : β → σ → Prop} (hm : Ensures m s R E)
    (hf : ∀ a s', R a s' → Ensures (f a) s' Q E) : Ensures (m >>= f) s Q E := by
  rcases h : m s with ⟨e | a, s'⟩
  · exact of_error (bind_error h) (hm.2 e s' h)
  · have hfa := hf a s' (hm.1 a s' h)
    refine ⟨fun b t hb => hfa.1 b t ?_, fun e t he => hfa.2 e t ?_⟩
    · rwa [bind_ok h] at hb
    · rwa [bind_ok h] at he

theorem get_bind {f : σ → Prog ε σ β} {Q : β → σ → Prop} (h : Ensures (f s) s Q E) :
    Ensures (Prog.get >>= f) s Q E := h

theorem lift_bind {x : Except ε α} {f : α → Prog ε σ β} {Q : β → σ → Prop} (hE : E s)
    (hf : ∀ a, x = .ok a → Ensures (f a) s Q E) : Ensures (Prog.lift x >>= f) s Q E := by
  refine bind (R := fun a s' => s' = s ∧ x = .ok a) (lift hE fun a ha => ⟨rfl, ha⟩) ?_
  rintro a _ ⟨rfl, ha⟩
  exact hf a ha

/-- What holds of the state however the program ends. -/
theorem final (h : Ensures p s (fun _ s' => E s') E) : E (p s).2 := by
  rcases hp : p s with ⟨e | a, s'⟩
  · exact h.2 e s' hp
  · exact h.1 a s' hp

end Ensures

/-- The invariant rule for runs that may fault. -/
theorem runAll_ensures {ι : Type} {step : ι → Prog ε σ β} {C : σ → ι → Prop} {Inv : σ → Prop}
    (hstep : ∀ s i, Inv s → C s i → Ensures (step i) s (fun _ s' => Inv s') Inv) {ops : List ι} {s : σ} (h0 : Inv s)
    (hC : Meets step C ops s) : Ensures (runAll step ops) s (fun _ s' => Inv s') Inv := by
  induction ops generalizing s with
  | nil => exact .pure h0
  | cons i is ih =>
    rcases hi : step i s with ⟨e | b, s₁⟩
    · exact .of_error (bind_error hi) ((hstep s i h0 hC.1).2 e s₁ hi)
    · have hrest := ih ((hstep s i h0 hC.1).1 b s₁ hi) (hC.tail hi)
      have hhead : Ensures (step i) s (fun _ s' => s' = s₁) Inv := .of_ok hi rfl
      refine .bind hhead ?_
      rintro b' s' rfl
      exact .bind hrest fun _ _ h' => .pure h'

end Prog

end Lib
