import Mathlib.Data.Option.Basic

/-!
# Runs with exceptions

A `Run` starts in a state and goes on forever, or it ends in a state, with a result or
with an exception. What it calls may be code that is not known; that is a `Guest`, which
has a state of its own and may call back.

* `Triple`, `Returns`, `Settles`: what holds when a run has ended, that it ends in a result,
  and that it ends;
* `Agree`: two runs that both return, from related states, return related results;
* `Simulates`: two runs from related states go on forever together, or end alike and in
  related states. How states are related may depend on a place in a larger run, to which
  a part of that run comes back. The rules follow the constructs of a run;
* `Guest.simulates`: unknown code ends alike if its calls back do.
-/

namespace Exceptional

/-- A run from a state. -/
def Run (σ ε α : Type) := σ → Option (Except ε α × σ)

variable {ι σ τ ε α β : Type}

namespace Run

/-- One run after another; an exception ends both. -/
def bind (x : Run σ ε α) (f : α → Run σ ε β) : Run σ ε β := fun s =>
  match x s with
  | none => none
  | some (.error e, s') => some (.error e, s')
  | some (.ok a, s') => f a s'

instance : Monad (Run σ ε) where
  pure a := fun s => some (.ok a, s)
  bind := bind

/-- `throw`. -/
def throw (e : ε) : Run σ ε α := fun s => some (.error e, s)

/-- `try … finally`, where what comes last can only change the state. -/
def always (x : Run σ ε α) (f : σ → σ) : Run σ ε α := fun s => (x s).map fun r => (r.1, f r.2)

/-- If a run throws, another is made before the exception goes on; how that one ends is
    lost. -/
def onThrow (x : Run σ ε α) (y : Run σ ε PUnit) : Run σ ε α := fun s =>
  match x s with
  | none => none
  | some (.ok a, s') => some (.ok a, s')
  | some (.error e, s') => (y s').map fun r => (.error e, r.2)

/-- A run that does not end. -/
def never : Run σ ε α := fun _ => none

end Run

/-! ## Triples -/

/-- What holds of the end of a run, if it ends. -/
def Holds (Q : α → σ → Prop) (E : ε → σ → Prop) : Option (Except ε α × σ) → Prop
  | none => True
  | some (.ok a, s) => Q a s
  | some (.error e, s) => E e s

/-- From a state with `P` the run ends with `Q`, or with an exception and `E`, or it goes on
    forever. -/
def Triple (P : σ → Prop) (x : Run σ ε α) (Q : α → σ → Prop) (E : ε → σ → Prop) : Prop :=
  ∀ s, P s → Holds Q E (x s)

namespace Triple

variable {P P' : σ → Prop} {Q Q' : α → σ → Prop} {E E' : ε → σ → Prop}

theorem pure {a : α} (h : ∀ s, P s → Q a s) : Triple P (Pure.pure a : Run σ ε α) Q E := h

theorem throw {e : ε} (h : ∀ s, P s → E e s) : Triple P (Run.throw e : Run σ ε α) Q E := h

theorem bind {x : Run σ ε β} {f : β → Run σ ε α} {M : β → σ → Prop} (hx : Triple P x M E)
    (hf : ∀ b, Triple (M b) (f b) Q E) : Triple P (x >>= f) Q E := by
  intro s hs
  have h := hx s hs
  change Holds Q E (Run.bind x f s)
  rw [Run.bind]
  rcases hxs : x s with _ | ⟨e | b, s'⟩
  · trivial
  · rwa [hxs] at h
  · rw [hxs] at h
    exact hf b s' h

/-- The rule of consequence. -/
theorem conseq {x : Run σ ε α} (h : Triple P x Q E) (hP : ∀ s, P' s → P s)
    (hQ : ∀ a s, Q a s → Q' a s) (hE : ∀ e s, E e s → E' e s) : Triple P' x Q' E' := by
  intro s hs
  have h := h s (hP s hs)
  rcases hxs : x s with _ | ⟨e | a, s'⟩
  · trivial
  · rw [hxs] at h
    exact hE e s' h
  · rw [hxs] at h
    exact hQ a s' h

theorem of_ok {x : Run σ ε α} {s s' : σ} {a : α} (h : Triple P x Q E) (hs : P s)
    (hx : x s = some (.ok a, s')) :
    Q a s' := by
  have h := h s hs
  rwa [hx] at h

theorem of_error {x : Run σ ε α} {s s' : σ} {e : ε} (h : Triple P x Q E) (hs : P s)
    (hx : x s = some (.error e, s')) : E e s' := by
  have h := h s hs
  rwa [hx] at h

end Triple

/-- From a state with `P` the run ends in a result, with `Q`. -/
def Returns (P : σ → Prop) (x : Run σ ε α) (Q : α → σ → Prop) : Prop :=
  ∀ s, P s → ∃ a s', x s = some (.ok a, s') ∧ Q a s'

namespace Returns

variable {P P' : σ → Prop} {Q Q' : α → σ → Prop}

theorem pure {a : α} (h : ∀ s, P s → Q a s) : Returns P (Pure.pure a : Run σ ε α) Q :=
  fun s hs => ⟨a, s, rfl, h s hs⟩

theorem bind {x : Run σ ε β} {f : β → Run σ ε α} {M : β → σ → Prop} (hx : Returns P x M)
    (hf : ∀ b, Returns (M b) (f b) Q) : Returns P (x >>= f) Q := by
  intro s hs
  obtain ⟨b, s', hxs, hb⟩ := hx s hs
  obtain ⟨a, s'', hfs, ha⟩ := hf b s' hb
  refine ⟨a, s'', ?_, ha⟩
  change Run.bind x f s = _
  rw [Run.bind, hxs]
  exact hfs

theorem conseq {x : Run σ ε α} (h : Returns P x Q) (hP : ∀ s, P' s → P s)
    (hQ : ∀ a s, Q a s → Q' a s) :
    Returns P' x Q' := by
  intro s hs
  obtain ⟨a, s', hx, ha⟩ := h s (hP s hs)
  exact ⟨a, s', hx, hQ a s' ha⟩

end Returns

/-! ## Runs that end -/

/-- From a state with `P` the run ends, with `Q` or with an exception and `E`. -/
def Settles (P : σ → Prop) (x : Run σ ε α) (Q : α → σ → Prop) (E : ε → σ → Prop) : Prop :=
  ∀ s, P s → ∃ r s', x s = some (r, s') ∧ Holds Q E (some (r, s'))

namespace Settles

variable {P P' : σ → Prop} {Q Q' : α → σ → Prop} {E E' : ε → σ → Prop}

theorem pure {a : α} (h : ∀ s, P s → Q a s) : Settles P (Pure.pure a : Run σ ε α) Q E :=
  fun s hs => ⟨.ok a, s, rfl, h s hs⟩

theorem throw {e : ε} (h : ∀ s, P s → E e s) : Settles P (Run.throw e : Run σ ε α) Q E :=
  fun s hs => ⟨.error e, s, rfl, h s hs⟩

theorem bind {x : Run σ ε β} {f : β → Run σ ε α} {M : β → σ → Prop} (hx : Settles P x M E)
    (hf : ∀ b, Settles (M b) (f b) Q E) : Settles P (x >>= f) Q E := by
  intro s hs
  obtain ⟨r, s', hxs, hr⟩ := hx s hs
  cases r with
  | error e =>
    refine ⟨.error e, s', ?_, hr⟩
    change Run.bind x f s = _
    rw [Run.bind, hxs]
  | ok b =>
    obtain ⟨r, s'', hfs, hr'⟩ := hf b s' hr
    refine ⟨r, s'', ?_, hr'⟩
    change Run.bind x f s = _
    rw [Run.bind, hxs]
    exact hfs

/-- The rule of consequence. -/
theorem conseq {x : Run σ ε α} (h : Settles P x Q E) (hP : ∀ s, P' s → P s)
    (hQ : ∀ a s, Q a s → Q' a s) (hE : ∀ e s, E e s → E' e s) : Settles P' x Q' E' := by
  intro s hs
  obtain ⟨r, s', hxs, hr⟩ := h s (hP s hs)
  refine ⟨r, s', hxs, ?_⟩
  cases r with
  | error e => exact hE e s' hr
  | ok a => exact hQ a s' hr

/-- What is known is not about the state. -/
theorem of_fact {φ : Prop} {x : Run σ ε α} (h : φ → Settles P x Q E) :
    Settles (fun s => φ ∧ P s) x Q E :=
  fun s hs => h hs.1 s hs.2

theorem of_exists {I : ι → σ → Prop} {x : Run σ ε α} (h : ∀ i, Settles (I i) x Q E) :
    Settles (fun s => ∃ i, I i s) x Q E := by
  rintro s ⟨i, hs⟩
  exact h i s hs

end Settles

/-! ## Agreement -/

/-- From related states, if both runs return, what they return is related, and so are the
    states in which they do. -/
def Agree {α' : Type} (R : σ → τ → Prop) (Q : α → α' → Prop) (x : Run σ ε α) (y : Run τ ε α') :
    Prop :=
  ∀ s t, R s t → ∀ a s' b t', x s = some (.ok a, s') → y t = some (.ok b, t') → Q a b ∧ R s' t'

namespace Agree

variable {α' β' : Type} {R : σ → τ → Prop} {P : β → β' → Prop} {Q : α → α' → Prop}

theorem pure {a : α} {b : α'} (h : Q a b) : Agree R Q (Pure.pure a : Run σ ε α) (Pure.pure b) := by
  rintro s t hst _ _ _ _ ⟨rfl⟩ ⟨rfl⟩
  exact ⟨h, hst⟩

theorem bind {x : Run σ ε β} {y : Run τ ε β'} {f : β → Run σ ε α} {g : β' → Run τ ε α'}
    (hxy : Agree R P x y) (hfg : ∀ a b, P a b → Agree R Q (f a) (g b)) :
    Agree R Q (x >>= f) (y >>= g) := by
  intro s t hst a s' b t' ha hb
  change Run.bind x f s = _ at ha
  change Run.bind y g t = _ at hb
  rw [Run.bind] at ha hb
  rcases hx : x s with _ | ⟨e | c, s''⟩
  · rw [hx] at ha
    cases ha
  · rw [hx] at ha
    cases ha
  rcases hy : y t with _ | ⟨e | d, t''⟩
  · rw [hy] at hb
    cases hb
  · rw [hy] at hb
    cases hb
  rw [hx] at ha
  rw [hy] at hb
  obtain ⟨hcd, hst'⟩ := hxy s t hst c s'' d t'' hx hy
  exact hfg c d hcd s'' t'' hst' a s' b t' ha hb

end Agree

/-! ## Simulation -/

/-- The runs end alike, and in related states. -/
def Alike (R : σ → τ → Prop) : Option (Except ε α × σ) → Option (Except ε α × τ) → Prop :=
  Option.Rel fun r r' => r.1 = r'.1 ∧ R r.2 r'.2

/-- From states related at a place the runs end alike, and at the same place. -/
def Simulates (R : ι → σ → τ → Prop) (x : Run σ ε α) (y : Run τ ε α) : Prop :=
  ∀ i s t, R i s t → Alike (R i) (x s) (y t)

/-- How two runs have ended alike. -/
theorem Alike.cases {R : σ → τ → Prop} {x : Option (Except ε α × σ)} {y : Option (Except ε α × τ)}
    (h : Alike R x y) :
    (x = none ∧ y = none) ∨ ∃ r s t, x = some (r, s) ∧ y = some (r, t) ∧ R s t := by
  rcases h with @⟨⟨r, s⟩, ⟨r', t⟩, hr, hst⟩ | _
  · cases hr
    exact .inr ⟨r, s, t, rfl, rfl, hst⟩
  · exact .inl ⟨rfl, rfl⟩

theorem alike_some {R : σ → τ → Prop} {r : Except ε α} {s : σ} {t : τ} (h : R s t) :
    Alike R (some (r, s)) (some (r, t)) := .some ⟨rfl, h⟩

theorem alike_none {R : σ → τ → Prop} : Alike R (none : Option (Except ε α × σ)) none := .none

/-- One run after another; the states may be related in another way in between. -/
theorem Alike.bind {Q R : σ → τ → Prop} {x : Run σ ε α} {y : Run τ ε α} {f : α → Run σ ε β}
    {g : α → Run τ ε β} {s : σ} {t : τ} (h : Alike Q (x s) (y t))
    (herror : ∀ s' t', Q s' t' → R s' t')
    (hok : ∀ a s' t', x s = some (.ok a, s') → Q s' t' → Alike R (f a s') (g a t')) :
    Alike R ((x >>= f) s) ((y >>= g) t) := by
  change Alike R (Run.bind x f s) (Run.bind y g t)
  rcases h.cases with ⟨hx, hy⟩ | ⟨r, s', t', hx, hy, hst⟩
  · simp only [Run.bind, hx, hy]
    exact alike_none
  · simp only [Run.bind, hx, hy]
    cases r with
    | error e => exact alike_some (herror s' t' hst)
    | ok a => exact hok a s' t' hx hst

/-- The ends of runs, once the state has changed. -/
theorem Alike.always {Q R : σ → τ → Prop} {x : Run σ ε α} {y : Run τ ε α} {f : σ → σ} {g : τ → τ}
    {s : σ} {t : τ} (h : Alike Q (x s) (y t)) (hfg : ∀ s t, Q s t → R (f s) (g t)) :
    Alike R (x.always f s) (y.always g t) := by
  rcases h.cases with ⟨hx, hy⟩ | ⟨r, s', t', hx, hy, hst⟩
  · simp only [Run.always, hx, hy]
    exact alike_none
  · simp only [Run.always, hx, hy]
    exact alike_some (hfg s' t' hst)

namespace Simulates

variable {R : ι → σ → τ → Prop}

theorem pure (a : α) : Simulates R (Pure.pure a : Run σ ε α) (Pure.pure a) :=
  fun _ _ _ h => alike_some h

theorem throw (e : ε) : Simulates R (Run.throw e : Run σ ε α) (Run.throw e) :=
  fun _ _ _ h => alike_some h

theorem never : Simulates R (Run.never : Run σ ε α) Run.never := fun _ _ _ _ => alike_none

theorem bind {x : Run σ ε α} {y : Run τ ε α} {f : α → Run σ ε β} {g : α → Run τ ε β}
    (h : Simulates R x y) (hf : ∀ a, Simulates R (f a) (g a)) : Simulates R (x >>= f) (y >>= g) :=
  fun i s t hst => (h i s t hst).bind (fun _ _ h => h) fun a s' t' _ hst' => hf a i s' t' hst'

theorem onThrow {x : Run σ ε α} {y : Run τ ε α} {x' : Run σ ε PUnit} {y' : Run τ ε PUnit}
    (h : Simulates R x y) (h' : Simulates R x' y') : Simulates R (x.onThrow x') (y.onThrow y') := by
  intro i s t hst
  rcases (h i s t hst).cases with ⟨hx, hy⟩ | ⟨r, s', t', hx, hy, hst'⟩
  · simp only [Run.onThrow, hx, hy]
    exact alike_none
  · simp only [Run.onThrow, hx, hy]
    cases r with
    | ok a => exact alike_some hst'
    | error e =>
      rcases (h' i s' t' hst').cases with ⟨hx', hy'⟩ | ⟨r, s'', t'', hx', hy', hst''⟩
      · simp only [hx', hy', Option.map]
        exact alike_none
      · simp only [hx', hy', Option.map]
        exact alike_some hst''

end Simulates

/-! ## Unknown code -/

/-- Code that is not known, from the state that it is in: it ends, it goes on forever, or
    it makes a call back, after which it goes on in a way that may depend on how that
    call ended. -/
inductive Guest (σ ε κ ρ α : Type)
  | ends (r : Except ε α) (s : σ)
  | never
  | calls (c : κ) (s : σ) (k : Except ε ρ → σ → Guest σ ε κ ρ α)

namespace Guest

variable {μ ν κ ρ : Type}

/-- The run of unknown code, next to a state that it cannot reach; `answer` are the calls
    back. -/
def run (answer : κ → Run (μ × σ) ε ρ) : Guest σ ε κ ρ α → Run (μ × σ) ε α
  | ends r s, (m, _) => some (r, (m, s))
  | never, _ => none
  | calls c s k, (m, _) =>
    match answer c (m, s) with
    | none => none
    | some (r, (m', s')) => (k r s').run answer (m', s')

/-- Next to related states, the state of unknown code is the same. -/
def Beside (Q : ι → μ → ν → Prop) (i : ι) (p : μ × σ) (q : ν × σ) : Prop := Q i p.1 q.1 ∧ p.2 = q.2

/-- Unknown code ends alike if its calls back do. -/
theorem simulates {Q : ι → μ → ν → Prop} {answer : κ → Run (μ × σ) ε ρ}
    {answer' : κ → Run (ν × σ) ε ρ} (h : ∀ c, Simulates (Beside Q) (answer c) (answer' c))
    (p : Guest σ ε κ ρ α) :
    Simulates (Beside Q) (p.run answer) (p.run answer') := by
  induction p with
  | ends r s => exact fun _ _ _ hst => alike_some ⟨hst.1, rfl⟩
  | never => exact fun _ _ _ _ => alike_none
  | calls c s k ih =>
    rintro i ⟨m, s₁⟩ ⟨n, s₂⟩ ⟨hm, -⟩
    rcases (h c i (m, s) (n, s) ⟨hm, rfl⟩).cases with ⟨hx, hy⟩ |
      ⟨r, ⟨m', s'⟩, ⟨n', t'⟩, hx, hy, hst⟩
    · simp only [run, hx, hy]
      exact alike_none
    · simp only [run, hx, hy]
      obtain ⟨hm', heq⟩ := hst
      cases heq
      exact ih r s' i (m', s') (n', s') ⟨hm', rfl⟩

end Guest

end Exceptional
